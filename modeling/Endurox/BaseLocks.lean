import Mathlib.Data.Nat.Notation
import Mathlib.Logic.Function.Basic

/-! Entries of a shared table that threads lock for themselves. An operation is a list of visits: it
locks an entry or makes a locked one, works on it, and leaves it. The steps are those under the lock
of the table; what the work comes to is given from outside. -/

namespace Endurox.Base.Locks
open Function

inductive Left (ε : Type) where
  | unlock (e : ε)
  | remove
  | keep (e : ε)

inductive Pc (κ ν : Type) where
  | idle
  | visits (todo : List (κ × ν))
  | holds (k : κ) (v : ν) (todo : List (κ × ν))
  | returned

structure Sys (κ ν ε : Type) where
  table : κ → Option (ε × Option ℕ)
  pc : ℕ → Pc κ ν

inductive Act (ω α : Type) where
  | call (op : ω)
  | lock
  | skip
  | leave (a : α)
  | ret

/-- The visits of an operation, by the entries at its call; the entry that a visit makes, if it does
not look one up; and how it leaves the entry and whether the operation goes on, by what its work came
to, or `none` if the work does not end. -/
structure Scheme (κ ν ε α ω : Type) where
  visits : ω → (κ → Option ε) → List (κ × ν)
  makes : ν → Option ε
  leaves : ν → α → ε → Option (Left ε × Bool)

variable {κ ν ε α ω : Type} [DecidableEq κ]

def Sys.put (s : Sys κ ν ε) (t : ℕ) (k : κ) (x : Option (ε × Option ℕ)) (p : Pc κ ν) : Sys κ ν ε :=
  ⟨update s.table k x, update s.pc t p⟩

def Sys.move (s : Sys κ ν ε) (t : ℕ) (p : Pc κ ν) : Sys κ ν ε := {s with pc := update s.pc t p}

def Left.entry (t : ℕ) : Left ε → Option (ε × Option ℕ)
  | .unlock e => some (e, none)
  | .remove => none
  | .keep e => some (e, some t)

def Scheme.takes (S : Scheme κ ν ε α ω) (v : ν) : Option (ε × Option ℕ) → Option ε
  | none => S.makes v
  | some (e, none) => if (S.makes v).isNone then some e else none
  | some (_, some _) => none

def step (S : Scheme κ ν ε α ω) (s : Sys κ ν ε) (t : ℕ) : Act ω α → Option (Sys κ ν ε)
  | .call op =>
    match s.pc t with
    | .idle => some (s.move t (.visits (S.visits op (fun k => (s.table k).map Prod.fst))))
    | _ => none
  | .lock =>
    match s.pc t with
    | .visits ((k, v) :: todo) =>
      (S.takes v (s.table k)).map (fun e => s.put t k (some (e, some t)) (.holds k v todo))
    | _ => none
  | .skip =>
    match s.pc t with
    | .visits (_ :: todo) => some (s.move t (.visits todo))
    | _ => none
  | .leave a =>
    match s.pc t with
    | .holds k v todo =>
      match s.table k with
      | some (e, _) =>
        (S.leaves v a e).map (fun r =>
          s.put t k (r.1.entry t) (if r.2 then .visits todo else .returned))
      | none => none
    | _ => none
  | .ret =>
    match s.pc t with
    | .visits [] => some (s.move t .returned)
    | _ => none

def run (S : Scheme κ ν ε α ω) : Sys κ ν ε → List (ℕ × Act ω α) → Option (Sys κ ν ε)
  | s, [] => some s
  | s, (t, act) :: acts => (step S s t act).bind (fun s' => run S s' acts)

def LeavesWith (P : ν → α → ε → Prop) (s : Sys κ ν ε) (t : ℕ) (act : Act ω α) : Prop :=
  ∀ a k v todo e o, act = .leave a → s.pc t = .holds k v todo → s.table k = some (e, o) → P v a e

def RunLeavesWith (S : Scheme κ ν ε α ω) (P : ν → α → ε → Prop) :
    Sys κ ν ε → List (ℕ × Act ω α) → Prop
  | _, [] => True
  | s, (t, act) :: acts => LeavesWith P s t act ∧
      ∀ s', step S s t act = some s' → RunLeavesWith S P s' acts

omit [DecidableEq κ] in
theorem LeavesWith.of_ne {P : ν → α → ε → Prop} {s : Sys κ ν ε} {t : ℕ} {act : Act ω α}
    (h : ∀ a, act ≠ .leave a) : LeavesWith P s t act :=
  fun a _ _ _ _ _ hact _ _ => absurd hact (h a)

def Owned (s : Sys κ ν ε) : Prop :=
  ∀ k e t, s.table k = some (e, some t) → ∃ v todo, s.pc t = .holds k v todo

variable {S : Scheme κ ν ε α ω} {P : ν → α → ε → Prop} {s s' : Sys κ ν ε} {t : ℕ} {act : Act ω α}

theorem RunLeavesWith.cons {acts : List (ℕ × Act ω α)} (h : LeavesWith P s t act)
    (hstep : step S s t act = some s') (hacts : RunLeavesWith S P s' acts) :
    RunLeavesWith S P s ((t, act) :: acts) := by
  refine ⟨h, ?_⟩
  intro s1 hs1
  cases hstep.symm.trans hs1
  exact hacts

theorem step_cases (hstep : step S s t act = some s') :
    (∃ k v todo e, s.pc t = .visits ((k, v) :: todo) ∧
      s' = s.put t k (some (e, some t)) (.holds k v todo)) ∨
    (∃ a k v todo e o r p, act = .leave a ∧ s.pc t = .holds k v todo ∧ s.table k = some (e, o) ∧
      S.leaves v a e = some r ∧ s' = s.put t k (r.1.entry t) p) ∨
    ((∀ k v todo, s.pc t ≠ .holds k v todo) ∧ ∃ p, s' = s.move t p) := by
  cases act with
  | call | skip | ret =>
    rw [step] at hstep
    split at hstep
    · rename_i hpc
      cases hstep
      exact .inr (.inr ⟨by rw [hpc]; nofun, _, rfl⟩)
    · cases hstep
  | lock =>
    rw [step] at hstep
    split at hstep
    · rename_i hpc
      obtain ⟨e, -, rfl⟩ := Option.map_eq_some_iff.mp hstep
      exact .inl ⟨_, _, _, e, hpc, rfl⟩
    · cases hstep
  | leave a =>
    rw [step] at hstep
    split at hstep
    · rename_i hpc
      split at hstep
      · rename_i hk
        obtain ⟨r, hr, rfl⟩ := Option.map_eq_some_iff.mp hstep
        exact .inr (.inl ⟨a, _, _, _, _, _, r, _, rfl, hpc, hk, hr, rfl⟩)
      · cases hstep
    · cases hstep

theorem Owned.put (h : Owned s) {k : κ} {x : Option (ε × Option ℕ)} {p : Pc κ ν}
    (hpc : ∀ k' v todo, s.pc t = .holds k' v todo → k' = k)
    (hx : ∀ e t', x = some (e, some t') → t' = t ∧ ∃ v todo, p = .holds k v todo) :
    Owned (s.put t k x p) := by
  intro k' e t' hk'
  simp only [Sys.put] at hk' ⊢
  by_cases hk : k' = k
  · rw [hk, update_self] at hk'
    obtain ⟨rfl, v, todo, hp⟩ := hx e t' hk'
    exact ⟨v, todo, by rw [update_self, hp, hk]⟩
  rw [update_of_ne hk] at hk'
  obtain ⟨v, todo, hold⟩ := h k' e t' hk'
  have ht : t' ≠ t := by
    rintro rfl
    exact hk (hpc k' v todo hold)
  exact ⟨v, todo, by rw [update_of_ne ht, hold]⟩

theorem Owned.step (h : Owned s)
    (hback : ∀ v a e r, P v a e → S.leaves v a e = some r → ∀ e', r.1 ≠ .keep e')
    (hleave : LeavesWith P s t act) (hstep : Locks.step S s t act = some s') : Owned s' := by
  obtain ⟨k, v, todo, e, hpc, rfl⟩ | ⟨a, k, v, todo, e, o, r, p, rfl, hpc, hk, hr, rfl⟩ |
    ⟨hpc, p, rfl⟩ := step_cases hstep
  -- a thread that takes an entry has none yet, and has this one afterwards
  · apply h.put
    · intro k' v' todo' hold
      rw [hpc] at hold
      cases hold
    · intro e' t' hx
      cases hx
      exact ⟨rfl, v, todo, rfl⟩
  · apply h.put
    · intro k' v' todo' hold
      rw [hpc] at hold
      cases hold
      rfl
    intro e' t' hx
    have hnot := hback v a e r (hleave a k v todo e o rfl hpc hk) hr
    cases hleft : r.1 with
    | unlock | remove =>
      rw [hleft] at hx
      cases hx
    | keep e1 => exact absurd hleft (hnot e1)
  · intro k e t' hk
    obtain ⟨v, todo, hold⟩ := h k e t' hk
    have ht : t' ≠ t := by
      rintro rfl
      exact hpc k v todo hold
    refine ⟨v, todo, ?_⟩
    simp only [Sys.move]
    rw [update_of_ne ht, hold]

variable {acts : List (ℕ × Act ω α)}

theorem Owned.run (h : Owned s)
    (hback : ∀ v a e r, P v a e → S.leaves v a e = some r → ∀ e', r.1 ≠ .keep e')
    (hleave : RunLeavesWith S P s acts) (hrun : Locks.run S s acts = some s') : Owned s' := by
  induction acts generalizing s with
  | nil =>
    cases hrun
    exact h
  | cons a acts ih =>
    obtain ⟨s1, hs1, hrun⟩ := Option.bind_eq_some_iff.mp hrun
    exact ih (h.step hback hleave.1 hs1) (hleave.2 s1 hs1) hrun

def Sys.Free (s : Sys κ ν ε) (t : ℕ) : Prop := ∀ k e, s.table k ≠ some (e, some t)

omit [DecidableEq κ] in
theorem Owned.free_returned (h : Owned s) (ht : s.pc t = .returned) : s.Free t := by
  intro k e hk
  obtain ⟨_, _, hold⟩ := h k e t hk
  rw [ht] at hold
  cases hold

def Sys.start (table : κ → Option ε) : Sys κ ν ε :=
  ⟨fun k => (table k).map (fun e => (e, none)), fun _ => .idle⟩

omit [DecidableEq κ] in
theorem owned_start (table : κ → Option ε) : Owned (Sys.start table : Sys κ ν ε) := by
  intro k e t hk
  obtain ⟨_, -, he⟩ := Option.map_eq_some_iff.mp hk
  cases he

/-- If every visit that meets the condition gives its entry back, then in a run where they all meet
it no thread that has returned has an entry locked. -/
theorem run_free {table : κ → Option ε}
    (hback : ∀ v a e r, P v a e → S.leaves v a e = some r → ∀ e', r.1 ≠ .keep e')
    (hleave : RunLeavesWith S P (Sys.start table) acts)
    (hrun : run S (Sys.start table) acts = some s') (ht : s'.pc t = .returned) : s'.Free t :=
  ((owned_start table).run hback hleave hrun).free_returned ht

def Sys.hasReturned (s : Sys κ ν ε) (t : ℕ) : Bool :=
  match s.pc t with
  | .returned => true
  | _ => false

omit [DecidableEq κ] in
theorem Sys.hasReturned_iff : s.hasReturned t = true ↔ s.pc t = .returned := by
  rw [Sys.hasReturned]
  split
  · rename_i h
    exact iff_of_true rfl h
  · rename_i h
    exact iff_of_false (by nofun) h

theorem exists_not_free {k : κ}
    (h : (run S s acts).any (fun s' => s'.hasReturned t && (s'.table k).any (fun x => x.2 == some t)) =
      true) : ∃ s', run S s acts = some s' ∧ s'.pc t = .returned ∧ ¬s'.Free t := by
  obtain ⟨s', hs', hleaves⟩ := (Option.any_eq_true _ _).mp h
  obtain ⟨hret, hlock⟩ := Bool.and_eq_true_iff.mp hleaves
  refine ⟨s', hs', Sys.hasReturned_iff.mp hret, ?_⟩
  intro hfree
  obtain ⟨⟨e, _⟩, hk, ho⟩ := (Option.any_eq_true _ _).mp hlock
  cases eq_of_beq ho
  exact hfree k e hk

end Endurox.Base.Locks
