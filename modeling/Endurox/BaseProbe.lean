import Mathlib.Data.Fin.Basic
import Mathlib.Tactic.Ring

/-! Linear probing over a table of `N` slots, with wrap-around. -/

namespace Endurox.Base
open Function

variable {N : ℕ} {K : Type*}

def probeAt (start : Fin N) (i : ℕ) : Fin N := ⟨(start.val+i)%N, Nat.mod_lt _ start.pos⟩

/-- The search loop: go on from `pos` while slots are occupied, until `hit` or until the wrapped
search is back at `start`. It returns whether it stopped at a hit, where it stopped, and how
many slots it examined. -/
def probeLoop (start : Fin N) (occupied hit : Fin N → Bool) :
    ℕ → Fin N → Bool → ℕ → Option (Bool × Fin N × ℕ)
  | 0, _, _, _ => none
  | fuel+1, pos, overflow, probes =>
    if occupied pos ∧ (!overflow ∨ pos < start) then
      if hit pos then some (true, pos, probes+1)
      else if h : pos.val+1 < N then
        probeLoop start occupied hit fuel ⟨pos.val+1, h⟩ overflow (probes+1)
      else probeLoop start occupied hit fuel ⟨0, pos.pos⟩ true (probes+1)
    else some (false, pos, probes)

variable (start : Fin N)

theorem probeAt_zero : probeAt start 0 = start := by
  apply Fin.ext
  exact Nat.mod_eq_of_lt start.isLt

theorem probeAt_size : probeAt start N = start := by
  apply Fin.ext
  simp only [probeAt, Nat.add_mod_right]
  exact Nat.mod_eq_of_lt start.isLt

theorem probeAt_val {i : ℕ} (hi : i ≤ N) :
    (probeAt start i).val = if start.val+i < N then start.val+i else start.val+i-N := by
  simp only [probeAt]
  split
  · exact Nat.mod_eq_of_lt ‹_›
  · rw [Nat.mod_eq_sub_mod (by omega), Nat.mod_eq_of_lt (by omega)]

theorem probeAt_injective {i j : ℕ} (hi : i < N) (hj : j < N)
    (h : probeAt start i = probeAt start j) : i = j := by
  have hv := congrArg Fin.val h
  rw [probeAt_val start hi.le, probeAt_val start hj.le] at hv
  split at hv <;> split at hv <;> omega

theorem exists_probeAt (pos : Fin N) : ∃ i < N, probeAt start i = pos := by
  by_cases h : start.val ≤ pos.val
  · refine ⟨pos.val-start.val, by omega, Fin.ext ?_⟩
    rw [probeAt_val start (by omega), if_pos (by omega)]
    omega
  · refine ⟨pos.val+N-start.val, by omega, Fin.ext ?_⟩
    rw [probeAt_val start (by omega), if_neg (by omega)]
    omega

/-- Where a search ends: at the first slot of the path that is free or a hit, or back at the
start when there is none. -/
inductive ProbeEnd (start : Fin N) (occupied hit : Fin N → Bool) : Bool → Fin N → Prop
  | hit (k : ℕ) (hk : k < N) (hocc : occupied (probeAt start k) = true)
      (hhit : hit (probeAt start k) = true)
      (hpath : ∀ i < k, occupied (probeAt start i) = true ∧ hit (probeAt start i) = false) :
      ProbeEnd start occupied hit true (probeAt start k)
  | free (k : ℕ) (hk : k < N) (hfree : occupied (probeAt start k) = false)
      (hpath : ∀ i < k, occupied (probeAt start i) = true ∧ hit (probeAt start i) = false) :
      ProbeEnd start occupied hit false (probeAt start k)
  | full (hpath : ∀ i < N, occupied (probeAt start i) = true ∧ hit (probeAt start i) = false) :
      ProbeEnd start occupied hit false start

/-- The probe from the `k`-th position on, when the path to there is taken and without a hit. -/
theorem probeLoop_from (occupied hit : Fin N → Bool) {d k : ℕ} (hd : k+d = N)
    (hpath : ∀ i < k, occupied (probeAt start i) = true ∧ hit (probeAt start i) = false)
    {fuel : ℕ} (hf : d < fuel) : ∃ broke pos n, probeLoop start occupied hit fuel (probeAt start k)
        (decide (N ≤ start.val+k)) k = some (broke, pos, n) ∧ n ≤ N ∧
      ProbeEnd start occupied hit broke pos := by
  obtain ⟨fuel, rfl⟩ : ∃ f, fuel = f+1 := ⟨fuel-1, by omega⟩
  -- induction on the number of slots not examined yet
  induction d generalizing k fuel with
  | zero =>
    obtain rfl : k = N := by omega
    refine ⟨false, start, k, ?_, le_rfl, ProbeEnd.full hpath⟩
    rw [probeLoop, probeAt_size, if_neg (by simp)]
  | succ d ih =>
    have hk : k < N := by omega
    have hval := probeAt_val start hk.le
    have hcond : (!decide (N ≤ start.val+k)) = true ∨ probeAt start k < start := by
      by_cases hw : N ≤ start.val+k
      · right
        rw [Fin.lt_def, hval, if_neg (by omega)]
        omega
      · left
        simpa using hw
    rw [probeLoop]
    by_cases hocc : occupied (probeAt start k) = true
    · rw [if_pos ⟨hocc, hcond⟩]
      by_cases hhit : hit (probeAt start k) = true
      · rw [if_pos hhit]
        exact ⟨true, probeAt start k, k+1, rfl, hk, ProbeEnd.hit k hk hocc hhit hpath⟩
      rw [if_neg hhit]
      have hpath' : ∀ i < k+1, occupied (probeAt start i) = true ∧
          hit (probeAt start i) = false := by
        intro i hi
        rcases Nat.lt_succ_iff_lt_or_eq.mp hi with hlt | rfl
        · exact hpath i hlt
        · exact ⟨hocc, by simpa using hhit⟩
      obtain ⟨fuel, rfl⟩ : ∃ f, fuel = f+1 := ⟨fuel-1, by omega⟩
      have hnext := probeAt_val start (show k+1 ≤ N by omega)
      have hrun := ih (k := k+1) (by omega) hpath' fuel (by omega)
      by_cases hstep : (probeAt start k).val+1 < N
      · rw [dif_pos hstep]
        have hlt := hstep
        rw [hval] at hlt
        have hpos : (⟨(probeAt start k).val+1, hstep⟩ : Fin N) = probeAt start (k+1) := by
          apply Fin.ext
          show (probeAt start k).val+1 = _
          rw [hnext, hval]
          split_ifs at hlt ⊢ <;> omega
        have hover : decide (N ≤ start.val+k) = decide (N ≤ start.val+(k+1)) := by
          apply decide_eq_decide.mpr
          split at hlt <;> omega
        rw [hpos, hover]
        exact hrun
      · rw [dif_neg hstep]
        have hpos : (⟨0, (probeAt start k).pos⟩ : Fin N) = probeAt start (k+1) := by
          apply Fin.ext
          show 0 = _
          rw [hval] at hstep
          rw [hnext]
          split at hstep <;> split <;> omega
        have hover : true = decide (N ≤ start.val+(k+1)) := by
          rw [hval] at hstep
          symm
          apply decide_eq_true
          split at hstep <;> omega
        rw [hpos, hover]
        exact hrun
    · rw [if_neg (fun h => hocc h.1)]
      exact ⟨false, probeAt start k, k, rfl, hk.le, ProbeEnd.free k hk (by simpa using hocc) hpath⟩

theorem probeLoop_spec (occupied hit : Fin N → Bool) :
    ∃ broke pos n, probeLoop start occupied hit (N+1) start false 0 = some (broke, pos, n) ∧
      n ≤ N ∧ ProbeEnd start occupied hit broke pos := by
  have h := probeLoop_from start occupied hit (k := 0) (Nat.zero_add N)
    (fun i hi => absurd hi (Nat.not_lt_zero i)) (Nat.lt_succ_self N)
  rw [probeAt_zero, decide_eq_false (by have := start.isLt; omega)] at h
  exact h

theorem ProbeEnd.at_start {start : Fin N} {occupied hit : Fin N → Bool} {broke : Bool}
    {pos : Fin N} (h : ProbeEnd start occupied hit broke pos) (hocc : occupied start = true)
    (hhit : hit start = true) : broke = true ∧ pos = start := by
  have hfirst {k : ℕ} (hk : 0 < k)
      (hpath : ∀ i < k, occupied (probeAt start i) = true ∧ hit (probeAt start i) = false) :
      False := by
    have hno := (hpath 0 hk).2
    rw [probeAt_zero, hhit] at hno
    cases hno
  cases h with
  | hit k hk _ _ hpath =>
    rcases Nat.eq_zero_or_pos k with rfl | hpos
    · exact ⟨rfl, probeAt_zero start⟩
    · exact (hfirst hpos hpath).elim
  | free k hk hfree hpath =>
    rcases Nat.eq_zero_or_pos k with rfl | hpos
    · rw [probeAt_zero, hocc] at hfree
      cases hfree
    · exact (hfirst hpos hpath).elim
  | full hpath => exact (hfirst start.pos hpath).elim

variable {hash : K → Fin N} {occupied occupied' : Fin N → Bool}
  {key key' : Fin N → K} {p q : Fin N} {k : K}

def OnPath (hash : K → Fin N) (occupied : Fin N → Bool) (key : Fin N → K) (p : Fin N) : Prop :=
  ∃ j < N, probeAt (hash (key p)) j = p ∧
    ∀ i < j, occupied (probeAt (hash (key p)) i) = true ∧ key (probeAt (hash (key p)) i) ≠ key p

/-- No two entries on their paths have one key. -/
theorem OnPath.unique (hp : OnPath hash occupied key p) (hq : OnPath hash occupied key q)
    (h : key p = key q) : p = q := by
  obtain ⟨i, -, hpi, hpath⟩ := hp
  obtain ⟨j, -, hqj, hpath'⟩ := hq
  rw [h] at hpi hpath
  rcases lt_trichotomy i j with hlt | rfl | hgt
  · have hne := (hpath' i hlt).2
    rw [hpi, h] at hne
    exact absurd rfl hne
  · exact hpi.symm.trans hqj
  · have hne := (hpath j hgt).2
    rw [hqj] at hne
    exact absurd rfl hne

theorem OnPath.mono (hp : OnPath hash occupied key p) (hkey : key' p = key p)
    (hocc : ∀ x, occupied x = true → occupied' x = true)
    (hother : ∀ x, key' x ≠ key x → key' x ≠ key p) : OnPath hash occupied' key' p := by
  obtain ⟨j, hj, hpj, hpath⟩ := hp
  rw [OnPath, hkey]
  refine ⟨j, hj, hpj, ?_⟩
  intro i hi
  obtain ⟨h1, h2⟩ := hpath i hi
  refine ⟨hocc _ h1, ?_⟩
  by_cases hx : key' (probeAt (hash (key p)) i) = key (probeAt (hash (key p)) i)
  · rw [hx]
    exact h2
  · exact hother _ hx

theorem OnPath.put (hp : OnPath hash occupied key p) (hpq : p ≠ q) (hk : key p ≠ k) :
    OnPath hash (update occupied q true) (update key q k) p := by
  apply hp.mono (update_of_ne hpq _ _)
  · intro x hx
    by_cases hxq : x = q
    · rw [hxq, update_self]
    · rwa [update_of_ne hxq]
  · intro x hx
    have hxq : x = q := by_contra fun hxq => hx (update_of_ne hxq _ _)
    rw [hxq, update_self]
    exact hk.symm

theorem onPath_put {j : ℕ} (hj : j < N) (hq : probeAt (hash k) j = q)
    (hpath : ∀ i < j, probeAt (hash k) i ≠ q →
      occupied (probeAt (hash k) i) = true ∧ key (probeAt (hash k) i) ≠ k) :
    OnPath hash (update occupied q true) (update key q k) q := by
  rw [OnPath, update_self]
  refine ⟨j, hj, hq, ?_⟩
  intro i hi
  have hne : probeAt (hash k) i ≠ q := by
    intro he
    have := probeAt_injective (hash k) (hi.trans hj) hj (he.trans hq.symm)
    omega
  rw [update_of_ne hne, update_of_ne hne]
  exact hpath i hi hne

/-- A probe that hits at its key alone ends at the entry of the key. -/
theorem ProbeEnd.find {hit : Fin N → Bool} {broke : Bool} {pos : Fin N}
    (h : ProbeEnd (hash k) occupied hit broke pos) (hp : OnPath hash occupied key p)
    (hk : key p = k) (hocc : occupied p = true) (hhit : hit p = true)
    (hmiss : ∀ x, key x ≠ k → hit x = false) : broke = true ∧ pos = p := by
  obtain ⟨j, hj, hpj, hpath⟩ := hp
  rw [hk] at hpj hpath
  cases h with
  | hit i hi _ hhiti hpathi =>
    refine ⟨rfl, ?_⟩
    rcases lt_trichotomy i j with hlt | rfl | hgt
    · rw [hmiss _ (hpath i hlt).2] at hhiti
      cases hhiti
    · exact hpj
    · have hno := (hpathi j hgt).2
      rw [hpj, hhit] at hno
      cases hno
  | free i hi hfree hpathi =>
    rcases lt_trichotomy i j with hlt | rfl | hgt
    · rw [(hpath i hlt).1] at hfree
      cases hfree
    · rw [hpj, hocc] at hfree
      cases hfree
    · have hno := (hpathi j hgt).2
      rw [hpj, hhit] at hno
      cases hno
  | full hall =>
    have hno := (hall j hj).2
    rw [hpj, hhit] at hno
    cases hno

end Endurox.Base
