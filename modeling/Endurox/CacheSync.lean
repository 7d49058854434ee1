import Mathlib.Data.List.Induction
import Endurox.Cache

/-! Caches with the flag `timesync`: the records of one key, saved at the nodes of a cluster, reach
each node in an order of its own, with lookups in between. -/

namespace Endurox.Cache

open Base List

variable {β : Type}

/-- What happens to a key at a node: a record arrives, or a lookup runs at the time `now`; one
that does not commit (`pf_cache_get` or the database failed) leaves no trace. -/
inductive Event (β : Type)
  | arrive (s : Saved β)
  | lookup (now : Int × Int) (commits : Bool)

def step (fl : DbFlags) (d : Vals β fl) : Event β → Vals β fl
  | .arrive s => d.put s.data
  | .lookup now commits =>
    match d.first with
    | none => d
    | some r => if commits then lookupUpdate fl now r d else d

def run (fl : DbFlags) (evs : List (Event β)) : Vals β fl := evs.foldl (step fl) Dups.empty

def found {fl : DbFlags} (d : Vals β fl) : Option (Saved β) := d.first.map Data.saved

def Event.arrival? : Event β → Option (Saved β)
  | .arrive s => some s
  | .lookup _ _ => none

def arrivals (evs : List (Event β)) : List (Saved β) := evs.filterMap Event.arrival?

def Greatest (S : List (Saved β)) (r : Saved β) : Prop :=
  r ∈ S ∧ ∀ x ∈ S, (ndrxCacheCmpFun x r).isLE

/-- Whatever the order of arrival and the lookups, every two nodes end with the greatest record. -/
def Converges (fl : DbFlags) (S : List (Saved β)) : Prop :=
  ∀ evs1 evs2 : List (Event β), (arrivals evs1).Perm S → (arrivals evs2).Perm S →
    ∃ r, Greatest S r ∧ found (run fl evs1) = some r ∧ found (run fl evs2) = some r

def Older (x r : Saved β) : Prop := x.t < r.t ∨ x.t = r.t ∧ x.tusec < r.tusec

instance (x r : Saved β) : Decidable (Older x r) := inferInstanceAs (Decidable (_ ∨ _))

def newest (best : Option (Saved β)) (x : Saved β) : Option (Saved β) :=
  some (match best with
    | none => x
    | some y => if Older x y then y else x)

theorem sortDataBydate_gt {a b : Data β} :
    sortDataBydate a b = .gt ↔ Older a.saved b.saved := by
  have h := sortDataBydate_isLE (a := a) (b := b)
  rw [Older]
  cases hc : sortDataBydate a b <;> simp only [hc] at h <;> simp at h <;> simp <;> omega

section

variable {lru hits : Bool}

theorem found_step (d : Vals β ⟨true, lru, hits⟩) (ev : Event β) : found (step _ d ev) =
      match ev.arrival? with
      | none => found d
      | some s => newest (found d) s := by
  cases ev with
  | arrive s =>
    simp only [step, found, Event.arrival?, newest, Dups.first_put]
    cases hf : d.first with
    | none => rfl
    | some y =>
      have hgt : DbFlags.cmp ⟨true, lru, hits⟩ s.data y = .gt ↔ Older s y.saved :=
        sortDataBydate_gt
      simp only [Option.map_some, hgt]
      split <;> rfl
  | lookup now commits =>
    simp only [step, found, Event.arrival?]
    cases hf : d.first with
    | none => simp [hf]
    | some =>
      cases commits with
      | false => simp [hf]
      | true =>
        obtain ⟨_, hr', hsaved⟩ := first_lookupUpdate now hf
        simp [hr', hsaved]

theorem found_run (evs : List (Event β)) :
    found (run ⟨true, lru, hits⟩ evs) = (arrivals evs).foldl newest none := by
  induction evs using List.reverseRecOn with
  | nil => rfl
  | append_singleton evs ev ih =>
    have hrun : run ⟨true, lru, hits⟩ (evs ++ [ev]) = step _ (run _ evs) ev := by
      rw [run, foldl_append]
      rfl
    have harr : arrivals (evs ++ [ev]) = arrivals evs ++ arrivals [ev] := filterMap_append
    rw [hrun, found_step, ih, harr, foldl_append]
    cases ev <;> rfl

end

variable {l : List (Saved β)}

theorem foldl_newest_mem {y : Saved β} (h : l.foldl newest none = some y) : y ∈ l := by
  induction l using List.reverseRecOn generalizing y with
  | nil => cases h
  | append_singleton l x ih =>
    rw [foldl_append] at h
    cases hl : l.foldl newest none with
    | none =>
      rw [hl] at h
      cases h
      simp
    | some =>
      rw [hl] at h
      simp only [foldl_cons, foldl_nil, newest, Option.some.injEq] at h
      split at h
      · subst h
        exact mem_append_left _ (ih hl)
      · subst h
        simp

theorem foldl_newest_last {x : Saved β} (h : ∀ y ∈ l, ¬ Older x y) :
    (l ++ [x]).foldl newest none = some x := by
  rw [foldl_append]
  cases hl : l.foldl newest none with
  | none => rfl
  | some y => simp [newest, h y (foldl_newest_mem hl)]

theorem foldl_newest_eq {r : Saved β} (hr : r ∈ l) (h : ∀ x ∈ l, x ≠ r → Older x r) :
    l.foldl newest none = some r := by
  induction l using List.reverseRecOn with
  | nil => cases hr
  | append_singleton l x ih =>
    by_cases hx : x = r
    · subst hx
      apply foldl_newest_last
      intro y hy hold
      by_cases hyx : y = x
      · subst hyx
        unfold Older at hold
        omega
      · have := h y (by simp [hy]) hyx
        unfold Older at hold this
        omega
    · have hrl : r ∈ l := by
        rcases mem_append.mp hr with hr | hr
        · exact hr
        · exact absurd (mem_singleton.mp hr).symm hx
      have ih := ih hrl (fun y hy => h y (by simp [hy]))
      rw [foldl_append, ih]
      simp [newest, h x (by simp) hx]

theorem arrivals_map (l : List (Saved β)) : arrivals (l.map Event.arrive) = l := by
  rw [arrivals, filterMap_map]
  exact filterMap_some

theorem older_of_cmp {x r : Saved β} (h : (ndrxCacheCmpFun x r).isLE) (hx : ¬ Older x r) :
    x.t = r.t ∧ x.tusec = r.tusec := by
  unfold ndrxCacheCmpFun at h
  unfold Older at hx
  split_ifs at h <;> simp_all <;> omega

theorem cmp_of_older {x r : Saved β} (h : Older x r) : (ndrxCacheCmpFun x r).isLE := by
  unfold ndrxCacheCmpFun
  unfold Older at h
  split_ifs <;> simp <;> omega

theorem cmp_self (r : Saved β) : (ndrxCacheCmpFun r r).isLE := by
  simp [ndrxCacheCmpFun]

/-- Nodes agree on the greatest record exactly when one record has the latest time stamp: records
of the same time stamp replace each other, whatever their nodes. -/
theorem converges_iff (lru hits : Bool) (S : List (Saved β)) :
    Converges ⟨true, lru, hits⟩ S ↔ ∃ r ∈ S, ∀ x ∈ S, x ≠ r → Older x r := by
  constructor
  · intro hconv
    obtain ⟨r, ⟨hr, hmax⟩, -⟩ := hconv (S.map .arrive) (S.map .arrive) (by rw [arrivals_map])
      (by rw [arrivals_map])
    refine ⟨r, hr, ?_⟩
    intro x hx hne
    by_contra hold
    have hstamp := older_of_cmp (hmax x hx) hold
    -- both records arrive last at some node, and neither gives way there
    have hlast (z : Saved β) (hz : z ∈ S) (hzr : z.t = r.t ∧ z.tusec = r.tusec) :
        ∃ evs : List (Event β), (arrivals evs).Perm S ∧
          found (run ⟨true, lru, hits⟩ evs) = some z := by
      obtain ⟨s, t, hS⟩ := append_of_mem hz
      refine ⟨(s ++ t ++ [z]).map .arrive, ?_, ?_⟩
      · rw [arrivals_map, hS, append_assoc]
        exact (perm_append_singleton z t).append_left s
      rw [found_run, arrivals_map]
      apply foldl_newest_last
      intro y hy holder
      have hyS : y ∈ S := by
        rw [hS]
        rcases mem_append.mp hy with hy | hy <;> simp [hy]
      have hle := hmax y hyS
      unfold Older at holder
      by_cases hyo : Older y r
      · unfold Older at hyo
        omega
      · have := older_of_cmp hle hyo
        omega
    obtain ⟨evs1, hp1, hf1⟩ := hlast x hx hstamp
    obtain ⟨evs2, hp2, hf2⟩ := hlast r hr ⟨rfl, rfl⟩
    obtain ⟨_, -, h1, h2⟩ := hconv evs1 evs2 hp1 hp2
    apply hne
    apply Option.some.inj
    rw [← hf1, h1, ← h2, hf2]
  · rintro ⟨r, hr, h⟩ evs1 evs2 hp1 hp2
    have hfound (evs : List (Event β)) (hp : (arrivals evs).Perm S) :
        found (run ⟨true, lru, hits⟩ evs) = some r := by
      rw [found_run]
      apply foldl_newest_eq (hp.mem_iff.mpr hr)
      intro x hx
      exact h x (hp.mem_iff.mp hx)
    refine ⟨r, ⟨hr, ?_⟩, hfound evs1 hp1, hfound evs2 hp2⟩
    intro x hx
    by_cases hxr : x = r
    · rw [hxr]
      exact cmp_self r
    · exact cmp_of_older (h x hx hxr)

/-- Two nodes save at the same time, and a third and a fourth get the records in different order. -/
theorem same_stamp_diverges :
    ¬ Converges ⟨true, false, false⟩ [(⟨100, 5, 1, 0, 0, "one"⟩ : Saved String),
      ⟨100, 5, 2, 0, 0, "two"⟩] := by
  intro h
  obtain ⟨_, -, h1, h2⟩ := h [.arrive ⟨100, 5, 1, 0, 0, "one"⟩, .arrive ⟨100, 5, 2, 0, 0, "two"⟩]
    [.arrive ⟨100, 5, 2, 0, 0, "two"⟩, .arrive ⟨100, 5, 1, 0, 0, "one"⟩] (.refl _) (.swap _ _ _)
  have hne : found (run ⟨true, false, false⟩ [.arrive (⟨100, 5, 1, 0, 0, "one"⟩ : Saved String),
      .arrive ⟨100, 5, 2, 0, 0, "two"⟩]) ≠ found (run ⟨true, false, false⟩
        [.arrive ⟨100, 5, 2, 0, 0, "two"⟩, .arrive ⟨100, 5, 1, 0, 0, "one"⟩]) := by decide
  exact hne (h1.trans h2.symm)

end Endurox.Cache
