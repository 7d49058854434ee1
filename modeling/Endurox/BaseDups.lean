import Mathlib.Data.List.Basic

/-! The values that an ordered store keeps under one key: sorted by a comparison, where a value
that compares equal to a new one gives way to it. -/

namespace Endurox.Base
open List

variable {α : Type} {cmp : α → α → Ordering}

def insertDup (cmp : α → α → Ordering) (x : α) : List α → List α
  | [] => [x]
  | y :: ys =>
    match cmp x y with
    | .lt => x :: y :: ys
    | .eq => x :: ys
    | .gt => y :: insertDup cmp x ys

theorem mem_insertDup {x z : α} {l : List α} (h : z ∈ insertDup cmp x l) : z = x ∨ z ∈ l := by
  induction l with
  | nil => simpa [insertDup] using h
  | cons y ys ih =>
    rw [insertDup] at h
    split at h
    · simpa using h
    · rcases mem_cons.mp h with h | h
      · exact .inl h
      · exact .inr (mem_cons_of_mem y h)
    · rcases mem_cons.mp h with h | h
      · exact .inr (h ▸ mem_cons_self)
      · rcases ih h with h | h
        · exact .inl h
        · exact .inr (mem_cons_of_mem y h)

theorem insertDup_sorted [Std.TransCmp cmp] (x : α) {l : List α}
    (hl : l.Pairwise (cmp · · = .lt)) : (insertDup cmp x l).Pairwise (cmp · · = .lt) := by
  induction l with
  | nil => exact pairwise_singleton _ x
  | cons y ys ih =>
    obtain ⟨hy, hys⟩ := pairwise_cons.mp hl
    rw [insertDup]
    split
    · rename_i hxy
      refine pairwise_cons.mpr ⟨?_, hl⟩
      intro z hz
      rcases mem_cons.mp hz with rfl | hz
      · exact hxy
      · exact Std.TransCmp.lt_trans hxy (hy z hz)
    · rename_i hxy
      refine pairwise_cons.mpr ⟨?_, hys⟩
      intro z hz
      exact Std.TransCmp.lt_of_eq_of_lt hxy (hy z hz)
    · rename_i hxy
      refine pairwise_cons.mpr ⟨?_, ih hys⟩
      intro z hz
      rcases mem_insertDup hz with rfl | hz
      · exact Std.OrientedCmp.lt_of_gt hxy
      · exact hy z hz

structure Dups (cmp : α → α → Ordering) where
  vals : List α
  sorted : vals.Pairwise (cmp · · = .lt)

namespace Dups

def empty : Dups cmp := ⟨[], .nil⟩

def first (d : Dups cmp) : Option α := d.vals.head?

def put [Std.TransCmp cmp] (d : Dups cmp) (x : α) : Dups cmp :=
  ⟨insertDup cmp x d.vals, insertDup_sorted x d.sorted⟩

def del (d : Dups cmp) (x : α) : Dups cmp :=
  ⟨d.vals.filter fun y => cmp y x ≠ .eq, d.sorted.filter _⟩

variable {d : Dups cmp}

/-- The first value after a put is the smaller of the old first and the new one. -/
theorem first_put [Std.TransCmp cmp] (d : Dups cmp) (x : α) : (d.put x).first =
      some (match d.first with
        | none => x
        | some y => if cmp x y = .gt then y else x) := by
  cases hd : d.vals with
  | nil => simp [first, put, hd, insertDup]
  | cons y =>
    simp only [first, put, hd, insertDup, head?_cons]
    cases cmp x y <;> rfl

theorem first_put_empty [Std.TransCmp cmp] (x : α) : ((empty : Dups cmp).put x).first = some x :=
  first_put empty x

theorem first_del {x y : α} (hfirst : d.first = some y) (h : cmp y x = .lt) :
    (d.del x).first = some y := by
  obtain ⟨ys, hvals⟩ : ∃ ys, d.vals = y :: ys := head?_eq_some_iff.mp hfirst
  simp [first, del, hvals, h]

theorem first_foldl_del {y : α} {l : List α} (hfirst : d.first = some y)
    (hl : ∀ x ∈ l, cmp y x = .lt) : (l.foldl del d).first = some y := by
  induction l generalizing d with
  | nil => exact hfirst
  | cons x l ih =>
    apply ih (first_del hfirst (hl x (by simp)))
    intro z hz
    exact hl z (by simp [hz])

theorem lt_of_mem_tail {x y : α} (hfirst : d.first = some y) (hx : x ∈ d.vals.tail) :
    cmp y x = .lt := by
  obtain ⟨ys, hvals⟩ : ∃ ys, d.vals = y :: ys := head?_eq_some_iff.mp hfirst
  have hs := d.sorted
  rw [hvals] at hs hx
  exact (pairwise_cons.mp hs).1 x hx

end Dups

end Endurox.Base
