import Mathlib.Data.List.GetD
import Endurox.BaseStruct

/-! Views (`include/ubfview.h`) and the NULL values of their fields (`libubf/view_null.c`). Fields
of the floating point types are left out. -/

namespace Endurox.View

open Base List

inductive Typ
  | short | int | long | char | string | carray
  deriving DecidableEq

structure Field where
  typ : Typ
  count : ℕ
  dimSize : ℕ
  elemcntInd : Bool  -- flag C
  lenInd : Bool  -- flag L
  nullfiller : Bool  -- flag P
  ubf2c : Bool  -- flag S
  c2ubf : Bool  -- flag F
  ubfid : ℕ
  nullvalNone : Bool
  nullvalNum : Int  -- of a `char` field `nullval_bin[0]`
  nullvalBin : List UInt8  -- the `nullval_bin_len` bytes
  count_pos : 0 < count
  dim_pos : 0 < dimSize

structure Elem where
  num : Int
  bytes : List UInt8
  len : ℕ
  deriving DecidableEq

/-- The loop that both string types test with: the bytes of the NULL value, the last of them
repeated to the end when it is the filler. -/
def fillerTest (filler : Bool) (nullval bytes : List UInt8) (len : ℕ) : Bool :=
  (range nullval.length).all fun i =>
    if len ≤ i then false
    else if filler && i+1 == nullval.length then
      (range' i (len-i)).all fun j => bytes.getD j 0 == nullval.getD i 0
    else bytes.getD i 0 == nullval.getD i 0

def valueNull (f : Field) (e : Elem) : Bool :=
  match f.typ with
  | .short | .int | .long | .char => e.num == f.nullvalNum
  | .string =>
    if f.nullfiller then
      if f.dimSize-1 < f.nullvalBin.length then false
      else fillerTest true f.nullvalBin e.bytes (f.dimSize-1)
    else cstr e.bytes == cstr f.nullvalBin
  | .carray =>
    if !f.nullfiller && f.dimSize < f.nullvalBin.length then false
    else fillerTest f.nullfiller f.nullvalBin e.bytes f.dimSize

def bvnullInt (f : Field) (cnt : Int) (occ : ℕ) (e : Elem) : Bool :=
  if f.nullvalNone then false
  else if f.elemcntInd && cnt ≤ occ then true
  else valueNull f e

theorem fillerTest_iff {filler : Bool} {nullval bytes : List UInt8} {len : ℕ} :
    fillerTest filler nullval bytes len ↔ ∀ i < nullval.length, i < len ∧
        ∀ j, (j = i ∨ filler = true ∧ i+1 = nullval.length ∧ i ≤ j ∧ j < len) →
          bytes.getD j 0 = nullval.getD i 0 := by
  simp only [fillerTest, all_eq_true, mem_range]
  refine forall₂_congr ?_
  intro i hi
  by_cases hlen : len ≤ i
  · simp only [hlen, if_true, Bool.false_eq_true, false_iff]
    omega
  rw [if_neg hlen]
  by_cases hlast : filler = true ∧ i+1 = nullval.length
  · rw [if_pos (by simp [hlast.1, hlast.2])]
    simp only [all_eq_true, mem_range'_1, beq_iff_eq]
    constructor
    · intro h
      refine ⟨by omega, ?_⟩
      rintro j (rfl | ⟨_, _, hij, hj⟩)
      · exact h j ⟨le_rfl, by omega⟩
      · exact h j ⟨hij, by omega⟩
    · rintro ⟨_, h⟩ j ⟨hij, _⟩
      exact h j (.inr ⟨hlast.1, hlast.2, hij, by omega⟩)
  · rw [if_neg (by simpa using hlast), beq_iff_eq]
    constructor
    · intro h
      refine ⟨by omega, ?_⟩
      rintro j (rfl | ⟨hf, hl, _⟩)
      · exact h
      · exact absurd ⟨hf, hl⟩ hlast
    · rintro ⟨_, h⟩
      exact h i (.inl rfl)

theorem fillerTest_nil (filler : Bool) (bytes : List UInt8) (len : ℕ) :
    fillerTest filler [] bytes len = true := rfl

theorem fillerTest_short {filler : Bool} {nullval bytes : List UInt8} {len : ℕ}
    (h : len < nullval.length) : fillerTest filler nullval bytes len = false := by
  rw [Bool.eq_false_iff, ne_eq, fillerTest_iff]
  intro hall
  have := (hall len h).1
  omega

theorem valueNull_carray {f : Field} (ht : f.typ = .carray) (e : Elem) :
    valueNull f e = fillerTest f.nullfiller f.nullvalBin e.bytes f.dimSize := by
  rw [valueNull, ht]
  simp only
  split
  · rename_i h
    rw [Bool.and_eq_true, decide_eq_true_eq] at h
    rw [fillerTest_short h.2]
  · rfl

theorem getD_ext {a b : List UInt8} (hlen : a.length = b.length)
    (h : ∀ j < a.length, a.getD j 0 = b.getD j 0) : a = b := by
  apply ext_getElem hlen
  intro j ha hb
  have := h j ha
  rwa [getD_eq_getElem _ _ ha, getD_eq_getElem _ _ hb] at this

theorem fillerTest_prefix {nullval bytes : List UInt8} (hlen : nullval.length ≤ bytes.length) :
    fillerTest false nullval bytes bytes.length ↔ nullval <+: bytes := by
  rw [fillerTest_iff, prefix_iff_eq_take]
  constructor
  · intro h
    apply getD_ext
    · simp [hlen]
    · intro j hj
      have := (h j hj).2 j (.inl rfl)
      rw [← this, getD_eq_getElem?_getD, getD_eq_getElem?_getD, getElem?_take_of_lt hj]
  · intro h i hi
    refine ⟨by omega, ?_⟩
    rintro j (rfl | ⟨hf, _⟩)
    · rw [h, getD_eq_getElem?_getD, getD_eq_getElem?_getD, getElem?_take_of_lt hi]
    · cases hf

/-- With a filler only one value of a length is null. -/
theorem fillerTest_unique {nullval a b : List UInt8} {len : ℕ} (hpos : nullval ≠ [])
    (ha : len ≤ a.length) (hb : len ≤ b.length) (hta : fillerTest true nullval a len)
    (htb : fillerTest true nullval b len) : a.take len = b.take len := by
  rw [fillerTest_iff] at hta htb
  apply getD_ext
  · simp [ha, hb]
  intro j hj
  have hj : j < len := by
    rw [length_take] at hj
    omega
  have hnl := length_pos_iff.mpr hpos
  have heq : a.getD j 0 = b.getD j 0 := by
    by_cases hjn : j < nullval.length
    · rw [(hta j hjn).2 j (.inl rfl), (htb j hjn).2 j (.inl rfl)]
    · have hlast : nullval.length-1 < nullval.length := by omega
      have hj' : nullval.length-1 ≤ j := by omega
      rw [(hta _ hlast).2 j (.inr ⟨rfl, by omega, hj', hj⟩),
        (htb _ hlast).2 j (.inr ⟨rfl, by omega, hj', hj⟩)]
  rwa [getD_eq_getElem?_getD, getD_eq_getElem?_getD, getElem?_take_of_lt hj,
    getElem?_take_of_lt hj, ← getD_eq_getElem?_getD, ← getD_eq_getElem?_getD]

end Endurox.View
