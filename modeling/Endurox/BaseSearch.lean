import Mathlib.Tactic.Ring

/-!
Binary search by inclusive bounds over a partial reader of keys. Besides a match the loop
reports the index it looked at last: a failed search ends next to the place of insertion.
-/

namespace Endurox.Base

variable {κ : Type*} [LinearOrder κ]

def bsearchLoop (key : Int → Option κ) (target : κ) :
    ℕ → Int → Int → Option (Int × κ) → Option (Bool × Option (Int × κ))
  | 0, _, _, _ => none
  | fuel+1, first, last, probe =>
    if first ≤ last then do
      let middle := (first+last).tdiv 2
      let k ← key middle
      if k < target then bsearchLoop key target fuel (middle+1) last (some (middle, k))
      else if k = target then some (true, some (middle, k))
      else bsearchLoop key target fuel first (middle-1) (some (middle, k))
    else some (false, probe)

/-- What a search reports over `n` keys `ks`: an index of the target, or that every key below
`ins` is smaller and every other larger, with the last probe beside `ins`. -/
def SearchResult (ks : ℕ → κ) (n : ℕ) (target : κ) : Bool × Option (Int × κ) → Prop
  | (true, probe) => ∃ i, i < n ∧ ks i = target ∧ probe = some ((i:Int), target)
  | (false, probe) => ∃ ins, ins ≤ n ∧ (∀ i < ins, ks i < target) ∧
      (∀ i, ins ≤ i → i < n → target < ks i) ∧
      (n = 0 ∨ ∃ m, m < n ∧ probe = some ((m:Int), ks m) ∧
        (m+1 = ins ∧ ks m < target ∨ m = ins ∧ target < ks m))

/-- The target is not outside `[first, stop)`, and the last probe lies beside an empty interval. -/
theorem bsearchLoop_spec (key : Int → Option κ) (target : κ) (ks : ℕ → κ) (n : ℕ)
    (hkey : ∀ i < n, key (i:Int) = some (ks i))
    (hmono : ∀ i j, i ≤ j → j < n → ks i ≤ ks j) (fuel first stop : ℕ)
    (probe : Option (Int × κ)) (hs : first ≤ stop) (hn : stop ≤ n)
    (hlo : ∀ i < first, ks i < target) (hhi : ∀ i, stop ≤ i → i < n → target < ks i)
    (hprobe : first = stop → n = 0 ∨ ∃ m, m < n ∧ probe = some ((m:Int), ks m) ∧
      (m+1 = first ∧ ks m < target ∨ m = first ∧ target < ks m))
    (hf : stop-first < fuel) :
    ∃ res, bsearchLoop key target fuel first ((stop:Int)-1) probe = some res ∧
      SearchResult ks n target res := by
  induction fuel generalizing first stop probe with
  | zero => omega
  | succ fuel ih =>
    rw [bsearchLoop]
    by_cases hle : first < stop
    · -- the middle of a non-empty range is an index of it
      obtain ⟨m, hm⟩ : ∃ m : ℕ, ((first:Int)+((stop:Int)-1)).tdiv 2 = m := by
        refine ⟨(first+(stop-1))/2, ?_⟩
        rw [Int.tdiv_eq_ediv_of_nonneg (by omega)]
        omega
      have hmid : first ≤ m ∧ m < stop := by
        rw [Int.tdiv_eq_ediv_of_nonneg (by omega)] at hm
        omega
      rw [if_pos (by omega), hm]
      simp only [hkey m (by omega), Option.bind_eq_bind, Option.bind_some]
      by_cases hlt : ks m < target
      · rw [if_pos hlt]
        refine ih (m+1) stop (some ((m:Int), ks m)) (by omega) hn ?_ ?_ ?_ ?_
        · intro i hi
          exact (hmono i m (by omega) (by omega)).trans_lt hlt
        · exact hhi
        · intro _
          exact Or.inr ⟨m, by omega, rfl, Or.inl ⟨rfl, hlt⟩⟩
        · omega
      · rw [if_neg hlt]
        by_cases heq : ks m = target
        · rw [if_pos heq]
          exact ⟨_, rfl, m, by omega, heq, by rw [heq]⟩
        have hgt : target < ks m := lt_of_le_of_ne (not_lt.mp hlt) (Ne.symm heq)
        rw [if_neg heq]
        refine ih first m (some ((m:Int), ks m)) hmid.1 (by omega) hlo ?_ ?_ ?_
        · intro i hi hin
          exact hgt.trans_le (hmono m i hi hin)
        · intro hfm
          exact Or.inr ⟨m, by omega, rfl, Or.inr ⟨hfm.symm, hgt⟩⟩
        · omega
    · have hfs : first = stop := by omega
      rw [if_neg (by omega)]
      refine ⟨_, rfl, first, by omega, hlo, ?_, hprobe hfs⟩
      intro i hi hin
      exact hhi i (by omega) hin

end Endurox.Base
