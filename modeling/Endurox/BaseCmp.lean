import Endurox.BaseStruct

/-! Comparison functions: values of a class taken as equal, and the order of byte strings. -/

namespace Endurox.Base

variable {α : Type}

def collapse (null : α → Bool) (cmp : α → α → Ordering) (a b : α) : Ordering :=
  if null a && null b then .eq else cmp a b

def Convex (null : α → Bool) (cmp : α → α → Ordering) : Prop :=
  ∀ a b c, null a → null c → (cmp a b).isLE → (cmp b c).isLE → null b ∨ cmp a c = .eq

variable {cmp : α → α → Ordering}

theorem convex_of_single {null : α → Bool} (h : ∀ a c, null a → null c → cmp a c = .eq) :
    Convex null cmp :=
  fun a _ c ha hc _ _ => .inr (h a c ha hc)

/-- With all nulls taken as equal the order stays transitive, if no other value lies between nulls.
-/
theorem collapse_transCmp {null : α → Bool} [Std.TransCmp cmp] (hconv : Convex null cmp) :
    Std.TransCmp (collapse null cmp) := by
  have hswap {a b : α} : collapse null cmp a b = (collapse null cmp b a).swap := by
    unfold collapse
    rw [Bool.and_comm]
    split
    · rfl
    · exact Std.OrientedCmp.eq_swap
  have : Std.OrientedCmp (collapse null cmp) := ⟨hswap⟩
  have hgt (a b : α) (h : ¬ (cmp a b).isLE) : (cmp b a).isLE := by
    have hba : cmp b a = (cmp a b).swap := Std.OrientedCmp.eq_swap
    rw [hba]
    revert h
    cases cmp a b <;> simp
  have heqv (a b : α) (h : cmp a b = .eq) : (cmp b a).isLE := by
    have hba : cmp b a = (cmp a b).swap := Std.OrientedCmp.eq_swap
    rw [hba, h]
    rfl
  -- outside the class, above or below one member is above or below all
  have hup (a b c : α) (ha : null a) (hb : null b) (hc : ¬ null c) (hbc : (cmp b c).isLE) :
      (cmp a c).isLE := by
    by_contra hac
    rcases hconv b c a hb ha hbc (hgt a c hac) with hnull | heq
    · exact hc hnull
    · exact hac (Std.TransCmp.isLE_trans (heqv b a heq) hbc)
  have hdown (a b c : α) (ha : ¬ null a) (hb : null b) (hc : null c) (hab : (cmp a b).isLE) :
      (cmp a c).isLE := by
    by_contra hac
    rcases hconv c a b hc hb (hgt a c hac) hab with hnull | heq
    · exact ha hnull
    · exact hac (Std.TransCmp.isLE_trans hab (heqv c b heq))
  refine ⟨?_⟩
  intro a b c hab hbc
  unfold collapse at hab hbc ⊢
  by_cases hac : (null a && null c) = true
  · rw [if_pos hac]
    rfl
  rw [if_neg hac]
  by_cases hab' : (null a && null b) = true
  · have hn := Bool.and_eq_true_iff.mp hab'
    have hc : ¬ null c := fun h => hac (by rw [hn.1, h]; rfl)
    rw [if_neg (fun h => hc (Bool.and_eq_true_iff.mp h).2)] at hbc
    exact hup a b c hn.1 hn.2 hc hbc
  rw [if_neg hab'] at hab
  by_cases hbc' : (null b && null c) = true
  · have hn := Bool.and_eq_true_iff.mp hbc'
    have ha : ¬ null a := fun h => hac (by rw [h, hn.2]; rfl)
    exact hdown a b c ha hn.1 hn.2 hab
  · rw [if_neg hbc'] at hbc
    exact Std.TransCmp.isLE_trans hab hbc

theorem strcmp_isLE {a b : List UInt8} : (strcmp a b).isLE ↔ a ≤ b := by
  rw [← strcmp_ne_gt]
  cases strcmp a b <;> simp

instance : Std.TransCmp strcmp where
  eq_swap := by
    intro a b
    exact (strcmp_swap b a).symm
  isLE_trans := by
    intro a b c hab hbc
    exact strcmp_isLE.mpr (List.le_trans (strcmp_isLE.mp hab) (strcmp_isLE.mp hbc))

theorem strcmp_self (a : List UInt8) : strcmp a a = .eq := Std.ReflCmp.compare_self

theorem prefix_of_between {p a b c : List UInt8} (ha : p <+: a) (hc : p <+: c)
    (hlen : p.length ≤ b.length) (hab : (strcmp a b).isLE) (hbc : (strcmp b c).isLE) :
    p <+: b := by
  induction p generalizing a b c with
  | nil => exact List.nil_prefix
  | cons x p ih =>
    obtain ⟨a, rfl⟩ := ha
    obtain ⟨c, rfl⟩ := hc
    cases b with
    | nil => simp at hlen
    | cons y =>
      simp only [List.cons_append, strcmp] at hab hbc
      have hxy : ¬ y < x := by
        intro h
        have : ¬ x < y := fun h' => absurd (UInt8.lt_trans h h') (UInt8.lt_irrefl y)
        rw [if_neg this, if_pos h] at hab
        cases hab
      have hyx : ¬ x < y := by
        intro h
        rw [if_neg hxy, if_pos h] at hbc
        cases hbc
      rw [if_neg hyx, if_neg hxy] at hab
      rw [if_neg hxy, if_neg hyx] at hbc
      have heq : x = y := by
        rcases byte_trichotomy x y with h | h | h
        · exact absurd h hyx
        · exact h
        · exact absurd h hxy
      subst heq
      have hp := ih (List.prefix_append p a) (List.prefix_append p c) (by simpa using hlen) hab hbc
      obtain ⟨t, ht⟩ := hp
      exact ⟨t, by rw [List.cons_append, ht]⟩

end Endurox.Base
