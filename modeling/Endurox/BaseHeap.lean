import Mathlib.Data.Set.Finite.List

/-! The heap of a C program: the blocks that `malloc` has given out, which lie apart, and the cycles
of the relation that the pointers between blocks make. -/

namespace Endurox.Base
open Function

def Apart (a la b lb : ℕ) : Prop := a+la ≤ b ∨ b+lb ≤ a

theorem Apart.symm {a la b lb : ℕ} (h : Apart a la b lb) : Apart b lb a la := Or.symm h

structure Heap where
  len : ℕ → Option ℕ
  apart : ∀ a b la lb, len a = some la → len b = some lb → a ≠ b → Apart a la b lb

namespace Heap

def empty : Heap := ⟨fun _ => none, fun _ _ _ _ h => by cases h⟩

def Room (h : Heap) (b n : ℕ) : Prop := h.len b = none ∧ ∀ a la, h.len a = some la → Apart b n a la

def add (h : Heap) (b n : ℕ) (hroom : h.Room b n) : Heap where
  len := update h.len b (some n)
  apart := by
    intro x y lx ly hx hy hne
    by_cases hxb : x = b
    · subst hxb
      rw [update_self] at hx
      rw [update_of_ne hne.symm] at hy
      cases hx
      exact hroom.2 y ly hy
    · rw [update_of_ne hxb] at hx
      by_cases hyb : y = b
      · subst hyb
        rw [update_self] at hy
        cases hy
        exact (hroom.2 x lx hx).symm
      · rw [update_of_ne hyb] at hy
        exact h.apart x y lx ly hx hy hne

def remove (h : Heap) (b : ℕ) : Heap where
  len := update h.len b none
  apart := by
    intro x y lx ly hx hy hne
    have hxb : x ≠ b := by
      rintro rfl
      rw [update_self] at hx
      cases hx
    have hyb : y ≠ b := by
      rintro rfl
      rw [update_self] at hy
      cases hy
    rw [update_of_ne hxb] at hx
    rw [update_of_ne hyb] at hy
    exact h.apart x y lx ly hx hy hne

variable {h : Heap} {b n : ℕ}

@[simp] theorem len_add_self (hroom : h.Room b n) : (h.add b n hroom).len b = some n :=
  update_self _ _ _

theorem len_add_of_ne (hroom : h.Room b n) {a : ℕ} (ha : a ≠ b) : (h.add b n hroom).len a = h.len a :=
  update_of_ne ha _ _

theorem len_add_of_some (hroom : h.Room b n) {a la : ℕ} (ha : h.len a = some la) :
    (h.add b n hroom).len a = some la := by
  rw [len_add_of_ne hroom, ha]
  rintro rfl
  rw [hroom.1] at ha
  cases ha

theorem len_remove_of_ne {a : ℕ} (ha : a ≠ b) : (h.remove b).len a = h.len a :=
  update_of_ne ha _ _

end Heap

open Relation

variable {α : Type} {r : α → α → Prop}

def Knot (r : α → α → Prop) (a z : α) : Prop := ReflTransGen r a z ∧ ReflTransGen r z a

theorem Knot.refl (a : α) : Knot r a a := ⟨.refl, .refl⟩

theorem Knot.exists_next {a z : α} (ha : TransGen r a a) (hz : Knot r a z) :
    ∃ z', r z z' ∧ Knot r a z' := by
  obtain ⟨z', hstep, hback⟩ := TransGen.head'_iff.mp (TransGen.trans_right hz.2 ha)
  exact ⟨z', hstep, hz.1.tail hstep, hback⟩

theorem Knot.exists_prev {a z : α} (ha : TransGen r a a) (hz : Knot r a z) :
    ∃ z', r z' z ∧ Knot r a z' := by
  obtain ⟨z', hto, hstep⟩ := TransGen.tail'_iff.mp (TransGen.trans_left ha hz.1)
  exact ⟨z', hstep, hto, (ReflTransGen.single hstep).trans hz.2⟩

theorem Knot.spread {a x y : α} {p : α → Prop}
    (hp : ∀ x y, p x → Knot r a x → Knot r a y → r x y → p y)
    (hx : Knot r a x) (hpx : p x) (hy : Knot r a y) : p y := by
  have hway : ReflTransGen r x y := hx.2.trans hy.1
  induction hway with
  | refl => exact hpx
  | @tail w y hto hstep ih =>
    have hw : Knot r a w := ⟨hx.1.trans hto, (ReflTransGen.single hstep).trans hy.2⟩
    exact hp w y (ih hw) hw hy hstep

/-- In a finite set that is closed under the relation and has no cycle, every way ends. -/
theorem acc_of_no_cycle {S : Set α} (hfin : S.Finite) (hclosed : ∀ x y, x ∈ S → r x y → y ∈ S)
    (hno : ∀ x ∈ S, ¬ TransGen r x x) {x : α} (hx : x ∈ S) : Acc (fun y x => r x y) x := by
  have : Finite S := hfin.to_subtype
  let after (y x : S) : Prop := TransGen r x.val y.val
  have : Std.Irrefl after := ⟨fun x => hno x.val x.property⟩
  have hwf : WellFounded after := Finite.wellFounded_of_trans_of_irrefl after
  have hall (x : S) : Acc (fun y x => r x y) x.val := by
    induction x using hwf.induction with
    | _ x ih =>
      constructor
      intro y hstep
      exact ih ⟨y, hclosed x.val y x.property hstep⟩ (TransGen.single hstep)
  exact hall ⟨x, hx⟩

end Endurox.Base
