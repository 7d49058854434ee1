import Endurox.BaseProbe

/-!
The linear hash `ndrx_lh_position_get` and the tables that are kept with it: an install writes
the key to the position found with `O_CREAT`, a removal clears the in-use flag of the entry.
-/

namespace Endurox.LinearHash

open Base List Function Option

variable {N : ℕ} {K : Type}

structure Entry (K : Type) where
  key : K
  isUsed : Bool
  wasUsed : Bool
  deriving DecidableEq

abbrev Mem (N : ℕ) (K : Type) := Fin N → Entry K

inductive Ent
  | none | match | old
  deriving DecidableEq

/-- The return value and outputs of `ndrx_lh_position_get`, and the number of entries whose key
was compared. -/
structure Position (N : ℕ) where
  ret : Bool
  pos : Fin N
  haveValue : Bool
  probes : ℕ
  deriving DecidableEq

section

variable [DecidableEq K] (hash : K → Fin N) (mem : Mem N K) (k : K)

def stopsAt (oCreat : Bool) (p : Fin N) : Bool :=
  (mem p).key = k ∨ oCreat ∧ !(mem p).isUsed

def entOf (broke : Bool) (p : Fin N) : Ent :=
  if !broke then .none
  else if (mem p).key = k ∧ (mem p).isUsed then .match
  else .old

def pass (oCreat : Bool) (start : Fin N) : Option (Position N) :=
  (probeLoop start (fun p => (mem p).wasUsed) (stopsAt mem k oCreat) (N+1) start false 0).map
    (fun (broke, p, probes) =>
      match entOf mem k broke p with
      | .old => ⟨true, p, false, probes⟩
      | .none => ⟨!(mem p).wasUsed, p, false, probes⟩
      | .match => ⟨true, p, true, probes⟩)

/-- `ndrx_lh_position_get`. With `O_CREAT` it first looks the key up without, and starts from
the entry in use that this finds. -/
def ndrxLhPositionGet (oCreat : Bool) : Option (Position N) :=
  if oCreat then do
    let r ← pass mem k false (hash k)
    let w ← pass mem k true (if r.ret ∧ r.haveValue then r.pos else hash k)
    some {w with probes := r.probes+w.probes}
  else pass mem k false (hash k)

inductive Op (K : Type)
  | install (k : K)
  | remove (k : K)

inductive Event (K : Type)
  | installed (k : K)
  | removed (k : K)

def step : Mem N K → Op K → Option (Mem N K × List (Event K))
  | mem, .install k => do
    let r ← ndrxLhPositionGet hash mem k true
    if r.ret then some (update mem r.pos ⟨k, true, true⟩, [.installed k])
    else some (mem, [])
  | mem, .remove k => do
    let r ← ndrxLhPositionGet hash mem k false
    if r.ret then
      some (update mem r.pos {mem r.pos with isUsed := false}, [.removed k])
    else some (mem, [.removed k])

def run : Mem N K → List (Op K) → Option (Mem N K × List (Event K))
  | mem, [] => some (mem, [])
  | mem, op :: ops => do
    let (mem, evs) ← step hash mem op
    let (mem, evs') ← run mem ops
    some (mem, evs ++ evs')

end

def fresh (keys : Fin N → K) : Mem N K := fun p => ⟨keys p, false, false⟩

def Installed (evs : List (Event K)) (k : K) : Prop :=
  ∃ pre post, evs = pre ++ .installed k :: post ∧ .removed k ∉ post

section

variable [DecidableEq K] {hash : K → Fin N} {mem : Mem N K} {k : K}

structure Inv (hash : K → Fin N) (mem : Mem N K) : Prop where
  wasUsed : ∀ p, (mem p).isUsed = true → (mem p).wasUsed = true
  path : ∀ p, (mem p).isUsed = true →
    OnPath hash (fun p => (mem p).wasUsed) (fun p => (mem p).key) p

theorem pass_spec (mem : Mem N K) (k : K) (oCreat : Bool) (start : Fin N) :
    ∃ broke p n, pass mem k oCreat start = some (match entOf mem k broke p with
        | .old => ⟨true, p, false, n⟩
        | .none => ⟨!(mem p).wasUsed, p, false, n⟩
        | .match => ⟨true, p, true, n⟩) ∧ n ≤ N ∧
      ProbeEnd start (fun p => (mem p).wasUsed) (stopsAt mem k oCreat) broke p := by
  obtain ⟨broke, p, n, hrun, hn, hend⟩ :=
    probeLoop_spec start (fun p => (mem p).wasUsed) (stopsAt mem k oCreat)
  refine ⟨broke, p, n, ?_, hn, hend⟩
  rw [pass, hrun]
  rfl

omit [DecidableEq K] in
theorem Inv.unique (h : Inv hash mem) {p q : Fin N} (hp : (mem p).isUsed = true)
    (hq : (mem q).isUsed = true) (hk : (mem p).key = (mem q).key) : p = q :=
  (h.path p hp).unique (h.path q hq) hk

/-- The lookup gives the entry of the key, or says that there is none. -/
theorem read_spec (h : Inv hash mem) (k : K) :
    ∃ r, ndrxLhPositionGet hash mem k false = some r ∧ r.probes ≤ N ∧
      (∀ p, (mem p).isUsed = true → (mem p).key = k → r.ret = true ∧ r.haveValue = true ∧ r.pos = p) ∧
      (r.haveValue = true → r.ret = true ∧ (mem r.pos).isUsed = true ∧ (mem r.pos).key = k) ∧
      (r.ret = true → r.haveValue = false → (mem r.pos).isUsed = false) := by
  obtain ⟨broke, p, _, hrun, hn, hend⟩ := pass_spec mem k false (hash k)
  have hfind : ∀ q, (mem q).isUsed = true → (mem q).key = k → broke = true ∧ p = q := by
    intro q hq hkq
    apply hend.find (h.path q hq) hkq (h.wasUsed q hq)
    · simp [stopsAt, hkq]
    · intro x hx
      simpa [stopsAt] using hx
  have hkey : broke = true → (mem p).key = k := by
    intro hb
    cases hend with
    | hit i hi hocc hhit => simpa [stopsAt] using hhit
    | free => cases hb
    | full => cases hb
  have hused : (mem p).wasUsed = false → (mem p).isUsed = false := by
    intro hw
    by_contra hu
    rw [h.wasUsed p (by simpa using hu)] at hw
    cases hw
  refine ⟨_, by rw [ndrxLhPositionGet]; exact hrun, ?_, ?_, ?_, ?_⟩
  · split <;> exact hn
  · intro q hq hkq
    obtain ⟨rfl, rfl⟩ := hfind q hq hkq
    simp [entOf, hq, hkq]
  · cases broke with
    | false => simp [entOf]
    | true =>
      have hk := hkey rfl
      by_cases hu : (mem p).isUsed = true
      · simp [entOf, hk, hu]
      · simp [entOf, hu]
  · cases broke with
    | false => simpa [entOf] using hused
    | true =>
      have hk := hkey rfl
      by_cases hu : (mem p).isUsed = true
      · simp [entOf, hk, hu]
      · simp [entOf, hu]

/-- With `O_CREAT` an entry in use is returned as it is; otherwise the first entry of the path
that is not in use, and there is none only in a full table. -/
theorem create_spec (h : Inv hash mem) (k : K) :
    ∃ r, ndrxLhPositionGet hash mem k true = some r ∧ r.probes ≤ 2*N ∧
      (∀ p, (mem p).isUsed = true → (mem p).key = k → r.ret = true ∧ r.haveValue = true ∧ r.pos = p) ∧
      ((∀ p, (mem p).isUsed = true → (mem p).key ≠ k) →
        (r.ret = true ∧ r.haveValue = false ∧ (mem r.pos).isUsed = false ∧
          ∃ j < N, probeAt (hash k) j = r.pos ∧ ∀ i < j, (mem (probeAt (hash k) i)).isUsed = true) ∨
        (r.ret = false ∧ ∀ p, (mem p).isUsed = true)) := by
  obtain ⟨r, hread, _, hin, hval, _⟩ := read_spec h k
  rw [ndrxLhPositionGet, if_neg (by simp)] at hread
  obtain ⟨broke, p, n, hrun, _, hend⟩ :=
    pass_spec mem k true (if r.ret ∧ r.haveValue then r.pos else hash k)
  have hget : ndrxLhPositionGet hash mem k true = some (match entOf mem k broke p with
      | .old => ⟨true, p, false, r.probes+n⟩
      | .none => ⟨!(mem p).wasUsed, p, false, r.probes+n⟩
      | .match => ⟨true, p, true, r.probes+n⟩) := by
    rw [ndrxLhPositionGet, if_pos rfl]
    simp only [hread, hrun, bind_eq_bind, bind_some]
    split <;> rfl
  refine ⟨_, hget, ?_, ?_, ?_⟩
  · split <;> (show r.probes+n ≤ 2*N; omega)
  · -- the lookup found the entry, so the second pass starts and stops there
    intro q hq hkq
    obtain ⟨h1, h2, rfl⟩ := hin q hq hkq
    rw [if_pos ⟨h1, h2⟩] at hend
    have hstop : stopsAt mem k true r.pos = true := by simp [stopsAt, hkq]
    have hpos := hend.at_start (h.wasUsed _ hq) hstop
    obtain ⟨rfl, rfl⟩ := hpos
    simp [entOf, hq, hkq]
  · intro habs
    have hno : r.haveValue = false := by
      by_contra hv
      obtain ⟨-, hu, hkr⟩ := hval (by simpa using hv)
      exact habs _ hu hkr
    rw [if_neg (by simp [hno])] at hend
    -- what the pass goes by is in use
    have hpass (x : Fin N) (hx : stopsAt mem k true x = false) : (mem x).isUsed = true := by
      have hx : (mem x).key ≠ k ∧ (mem x).isUsed = true := by simpa [stopsAt] using hx
      exact hx.2
    cases hend with
    | hit i hi hocc hhit hpath =>
      left
      have hu : (mem (probeAt (hash k) i)).isUsed = false := by
        by_contra hu
        have hu : (mem (probeAt (hash k) i)).isUsed = true := by simpa using hu
        have hk := habs _ hu
        simp [stopsAt, hk, hu] at hhit
      have hent : entOf mem k true (probeAt (hash k) i) = .old := by simp [entOf, hu]
      rw [hent]
      exact ⟨rfl, rfl, hu, i, hi, rfl, fun j hj => hpass _ (hpath j hj).2⟩
    | free i hi hfree hpath =>
      left
      have hu : (mem (probeAt (hash k) i)).isUsed = false := by
        by_contra hu
        rw [h.wasUsed _ (by simpa using hu)] at hfree
        cases hfree
      refine ⟨?_, rfl, hu, i, hi, rfl, fun j hj => hpass _ (hpath j hj).2⟩
      show (!(mem (probeAt (hash k) i)).wasUsed) = true
      simpa using hfree
    | full hpath =>
      right
      constructor
      · show (!(mem (hash k)).wasUsed) = false
        have hw := (hpath 0 (hash k).pos).1
        rw [probeAt_zero] at hw
        simpa using hw
      · intro x
        obtain ⟨i, hi, rfl⟩ := exists_probeAt (hash k) x
        exact hpass _ (hpath i hi).2

end

variable {hash : K → Fin N} {mem : Mem N K} {evs : List (Event K)}

theorem installed_append_installed (evs : List (Event K)) (k k' : K) :
    Installed (evs ++ [.installed k]) k' ↔ k' = k ∨ Installed evs k' := by
  constructor
  · rintro ⟨pre, post, he, hno⟩
    rcases eq_nil_or_concat post with rfl | ⟨post', e, rfl⟩
    · left
      have hlast := append_inj_right' he rfl
      simpa using hlast.symm
    · right
      have he' : evs ++ [.installed k] = (pre ++ .installed k' :: post') ++ [e] := by
        simpa using he
      refine ⟨pre, post', append_inj_left' he' rfl, fun hm => hno ?_⟩
      simp [hm]
  · rintro (rfl | ⟨pre, post, rfl, hno⟩)
    · exact ⟨evs, [], rfl, by simp⟩
    · exact ⟨pre, post ++ [.installed k], by simp, by simpa using hno⟩

theorem installed_append_removed (evs : List (Event K)) (k k' : K) :
    Installed (evs ++ [.removed k]) k' ↔ k' ≠ k ∧ Installed evs k' := by
  constructor
  · rintro ⟨pre, post, he, hno⟩
    rcases eq_nil_or_concat post with rfl | ⟨post', e, rfl⟩
    · have hlast := append_inj_right' he rfl
      cases hlast
    have he' : evs ++ [.removed k] = (pre ++ .installed k' :: post') ++ [e] := by
      simpa using he
    have hlast : e = .removed k := by
      simpa using (append_inj_right' he' rfl).symm
    subst hlast
    refine ⟨fun heq => hno (by simp [heq]), pre, post', append_inj_left' he' rfl, ?_⟩
    intro hm
    exact hno (by simp [hm])
  · rintro ⟨hne, pre, post, rfl, hno⟩
    refine ⟨pre, post ++ [.removed k], by simp, ?_⟩
    simpa [hno] using hne

structure Stores (hash : K → Fin N) (mem : Mem N K) (evs : List (Event K)) : Prop extends
    Inv hash mem where
  installed : ∀ k, (∃ p, (mem p).isUsed = true ∧ (mem p).key = k) ↔ Installed evs k

theorem stores_fresh (hash : K → Fin N) (keys : Fin N → K) : Stores hash (fresh keys) [] where
  wasUsed := by
    intro p hp
    cases hp
  path := by
    intro p hp
    cases hp
  installed := by
    intro k
    constructor
    · rintro ⟨_, hp, -⟩
      cases hp
    · rintro ⟨_, _, he, -⟩
      simp at he

/-- An install of a new key into a free slot on its path. -/
theorem Stores.write (h : Stores hash mem evs) {k : K}
    (habs : ∀ p, (mem p).isUsed = true → (mem p).key ≠ k) {q : Fin N}
    (hq : (mem q).isUsed = false) {j : ℕ} (hj : j < N) (hqj : probeAt (hash k) j = q)
    (hpath : ∀ i < j, (mem (probeAt (hash k) i)).isUsed = true) :
    Stores hash (update mem q ⟨k, true, true⟩) (evs ++ [.installed k]) := by
  have hother {p : Fin N} (hp : (update mem q ⟨k, true, true⟩ p).isUsed = true)
      (hpq : p ≠ q) : (mem p).isUsed = true := by
    rwa [update_of_ne hpq] at hp
  refine ⟨⟨?_, ?_⟩, ?_⟩
  · intro p hp
    by_cases hpq : p = q
    · rw [hpq, update_self]
    · rw [update_of_ne hpq]
      exact h.wasUsed p (hother hp hpq)
  · intro p hp
    show OnPath hash (Entry.wasUsed ∘ update mem q ⟨k, true, true⟩)
      (Entry.key ∘ update mem q ⟨k, true, true⟩) p
    rw [comp_update, comp_update]
    by_cases hpq : p = q
    · -- the new entry: before it on the path everything is in use by other keys
      rw [hpq]
      exact onPath_put hj hqj
        (fun i hi _ => ⟨h.wasUsed _ (hpath i hi), habs _ (hpath i hi)⟩)
    · have hu := hother hp hpq
      exact (h.path p hu).put hpq (habs p hu)
  · intro k'
    rw [installed_append_installed, ← h.installed k']
    constructor
    · rintro ⟨p, hp, hk⟩
      by_cases hpq : p = q
      · left
        simpa [hpq] using hk.symm
      · right
        rw [update_of_ne hpq] at hp hk
        exact ⟨p, hp, hk⟩
    · rintro (rfl | ⟨p, hp, _⟩)
      · exact ⟨q, by simp, by simp⟩
      · have hpq : p ≠ q := by
          rintro rfl
          rw [hq] at hp
          cases hp
        exact ⟨p, by rwa [update_of_ne hpq], by rwa [update_of_ne hpq]⟩

theorem Stores.clear (h : Stores hash mem evs) {k : K} {q : Fin N}
    (hq : (mem q).isUsed = true → (mem q).key = k)
    (hall : ∀ p, (mem p).isUsed = true → (mem p).key = k → p = q) :
    Stores hash (update mem q {mem q with isUsed := false}) (evs ++ [.removed k]) := by
  have hsame (x : Fin N) : (update mem q {mem q with isUsed := false} x).key = (mem x).key ∧
      (update mem q {mem q with isUsed := false} x).wasUsed = (mem x).wasUsed := by
    by_cases hxq : x = q
    · rw [hxq, update_self]
      exact ⟨rfl, rfl⟩
    · rw [update_of_ne hxq]
      exact ⟨rfl, rfl⟩
  have hin {p : Fin N} (hp : (update mem q {mem q with isUsed := false} p).isUsed = true) :
      p ≠ q ∧ (mem p).isUsed = true := by
    by_cases hpq : p = q
    · rw [hpq, update_self] at hp
      cases hp
    · rw [update_of_ne hpq] at hp
      exact ⟨hpq, hp⟩
  refine ⟨⟨?_, ?_⟩, ?_⟩
  · intro p hp
    exact (hsame p).2.trans (h.wasUsed p (hin hp).2)
  · intro p hp
    apply (h.path p (hin hp).2).mono (hsame p).1
    · intro x hx
      exact (hsame x).2.trans hx
    · intro x hx
      exact absurd (hsame x).1 hx
  · intro k'
    rw [installed_append_removed, ← h.installed k']
    constructor
    · rintro ⟨p, hp, hk⟩
      obtain ⟨hpq, hu⟩ := hin hp
      rw [(hsame p).1] at hk
      refine ⟨fun he => hpq (hall p hu (hk.trans he)), p, hu, hk⟩
    · rintro ⟨hne, p, hu, hk⟩
      have hpq : p ≠ q := by
        rintro rfl
        exact hne (hk.symm.trans (hq hu))
      exact ⟨p, by rwa [update_of_ne hpq], (hsame p).1.trans hk⟩

theorem Stores.rewrite (h : Stores hash mem evs) {k : K} {q : Fin N}
    (hq : (mem q).isUsed = true) (hk : (mem q).key = k) :
    Stores hash (update mem q ⟨k, true, true⟩) (evs ++ [.installed k]) := by
  have hsame : update mem q ⟨k, true, true⟩ = mem := by
    have he : mem q = ⟨k, true, true⟩ := by
      have hw := h.wasUsed q hq
      rcases hm : mem q with ⟨_, _, _⟩
      rw [hm] at hq hk hw
      cases hq
      cases hk
      cases hw
      rfl
    rw [← he, update_eq_self]
  rw [hsame]
  refine ⟨h.toInv, ?_⟩
  intro k'
  rw [installed_append_installed, h.installed k']
  constructor
  · intro hi
    exact Or.inr hi
  · rintro (rfl | hi)
    · exact (h.installed k').mp ⟨q, hq, hk⟩
    · exact hi

variable [DecidableEq K]

/-- A step keeps the table in line with the installs and removals so far. -/
theorem step_stores (h : Stores hash mem evs) (op : Op K) :
    ∃ mem' new, step hash mem op = some (mem', new) ∧ Stores hash mem' (evs ++ new) := by
  cases op with
  | install k =>
    obtain ⟨r, hr, -, hin, habs⟩ := create_spec h.toInv k
    by_cases hex : ∃ p, (mem p).isUsed = true ∧ (mem p).key = k
    · obtain ⟨p, hp, hk⟩ := hex
      obtain ⟨hret, -, rfl⟩ := hin p hp hk
      refine ⟨_, _, ?_, h.rewrite hp hk⟩
      simp [step, hr, if_pos hret]
    have hno : ∀ p, (mem p).isUsed = true → (mem p).key ≠ k :=
      fun p hp hk => hex ⟨p, hp, hk⟩
    rcases habs hno with ⟨hret, -, hu, _, hj, hpos, hpath⟩ | ⟨hret, -⟩
    · refine ⟨_, _, ?_, h.write hno hu hj hpos hpath⟩
      simp [step, hr, if_pos hret]
    · refine ⟨mem, [], ?_, by simpa using h⟩
      simp [step, hr, hret]
  | remove k =>
    obtain ⟨r, hr, -, hin, hval, hold⟩ := read_spec h.toInv k
    by_cases hret : r.ret = true
    · refine ⟨_, _, ?_, h.clear (k := k) (q := r.pos) ?_ ?_⟩
      · simp [step, hr, if_pos hret]
      · intro hu
        by_cases hv : r.haveValue = true
        · exact (hval hv).2.2
        · rw [hold hret (by simpa using hv)] at hu
          cases hu
      · intro p hp hk
        exact (hin p hp hk).2.2.symm
    · -- no position: the key is not stored, so nothing is cleared
      refine ⟨mem, [.removed k], by simp [step, hr, hret], h.toInv, ?_⟩
      intro k'
      rw [installed_append_removed, ← h.installed k']
      constructor
      · rintro ⟨p, hp, hk⟩
        refine ⟨?_, p, hp, hk⟩
        rintro rfl
        exact hret (hin p hp hk).1
      · exact fun hi => hi.2

theorem run_stores (h : Stores hash mem evs) (ops : List (Op K)) :
    ∃ mem' new, run hash mem ops = some (mem', new) ∧ Stores hash mem' (evs ++ new) := by
  induction ops generalizing mem evs with
  | nil => exact ⟨mem, [], rfl, by simpa using h⟩
  | cons op ops ih =>
    obtain ⟨_, new1, hstep, h1⟩ := step_stores h op
    obtain ⟨mem2, new2, hrun, h2⟩ := ih h1
    refine ⟨mem2, new1 ++ new2, ?_, by simpa using h2⟩
    simp [run, hstep, hrun]

structure Answers (hash : K → Fin N) (mem : Mem N K) (evs : List (Event K)) (k : K) : Prop where
  lookup : ∃ r, ndrxLhPositionGet hash mem k false = some r ∧ r.probes ≤ N ∧
    (r.ret = true ∧ (mem r.pos).isUsed = true ∧ (mem r.pos).key = k ↔ Installed evs k) ∧
    (r.haveValue = true ↔ Installed evs k)
  unique : ∀ p q, (mem p).isUsed = true → (mem q).isUsed = true → (mem p).key = k →
    (mem q).key = k → p = q
  create : ∃ r, ndrxLhPositionGet hash mem k true = some r ∧ r.probes ≤ 2*N ∧
    (∀ p, (mem p).isUsed = true → (mem p).key = k → r.ret = true ∧ r.pos = p) ∧
    (¬ Installed evs k → r.ret = true → (mem r.pos).isUsed = false) ∧
    (r.ret = false → ¬ Installed evs k ∧ ∀ p, (mem p).isUsed = true)

/-- Whatever was installed and removed before, the table is a map from the keys installed and
not removed since. -/
theorem linear_hash_is_map (hash : K → Fin N) (keys : Fin N → K) (ops : List (Op K)) :
    ∃ mem evs, run hash (fresh keys) ops = some (mem, evs) ∧ ∀ k, Answers hash mem evs k := by
  obtain ⟨mem, evs, hrun, h⟩ := run_stores (stores_fresh hash keys) ops
  rw [nil_append] at h
  refine ⟨mem, evs, hrun, ?_⟩
  intro k
  obtain ⟨r, hr, hrn, hin, hval, _⟩ := read_spec h.toInv k
  obtain ⟨w, hw, hwn, hwin, habs⟩ := create_spec h.toInv k
  refine ⟨⟨r, hr, hrn, ?_, ?_⟩, ?_, ⟨w, hw, hwn, ?_, ?_, ?_⟩⟩
  · rw [← h.installed k]
    constructor
    · rintro ⟨-, hu, hk⟩
      exact ⟨r.pos, hu, hk⟩
    · rintro ⟨p, hp, hk⟩
      obtain ⟨hret, -, rfl⟩ := hin p hp hk
      exact ⟨hret, hp, hk⟩
  · rw [← h.installed k]
    constructor
    · intro hv
      exact ⟨r.pos, (hval hv).2⟩
    · rintro ⟨p, hp, hk⟩
      exact (hin p hp hk).2.1
  · intro p q hp hq hpk hqk
    exact h.toInv.unique hp hq (hpk.trans hqk.symm)
  · intro p hp hk
    obtain ⟨hret, -, hpos⟩ := hwin p hp hk
    exact ⟨hret, hpos⟩
  · intro hno hret
    rw [← h.installed k] at hno
    rcases habs (fun p hp hk => hno ⟨p, hp, hk⟩) with ⟨-, -, hu, -⟩ | ⟨hf, -⟩
    · exact hu
    · rw [hret] at hf
      cases hf
  · intro hret
    have hno : ∀ p, (mem p).isUsed = true → (mem p).key ≠ k := by
      intro p hp hk
      rw [(hwin p hp hk).1] at hret
      cases hret
    refine ⟨?_, ?_⟩
    · rw [← h.installed k]
      rintro ⟨p, hp, hk⟩
      exact hno p hp hk
    · rcases habs hno with ⟨ht, -⟩ | ⟨-, hall⟩
      · rw [hret] at ht
        cases ht
      · exact hall

/-- In a table of one entry that is taken, a call with `O_CREAT` for another key compares that
entry twice: once to look the key up and once to find a place for it. -/
theorem create_compares_twice :
    (run (fun _ : ℕ => (0 : Fin 1)) (fresh (fun _ => 0)) [.install 5]).bind (fun s =>
      (ndrxLhPositionGet (fun _ => 0) s.1 7 true).map (fun r => (r.ret, r.probes))) =
        some (false, 2) := by
  decide

end Endurox.LinearHash
