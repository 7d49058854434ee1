import Endurox.UBFDtype

/-!
Records as values: the id, the data bytes and the padding of one field occurrence, together
with what makes them a record the type functions read back.
-/

namespace Endurox.UBF

open Base List Option

def DataOk (t : FldType) (data : List UInt8) : Prop :=
  match t with
  | .string => ∃ s, 0 ∉ s ∧ data = s ++ [0]
  | .carray | .view => True
  | .ubf => 56 ≤ data.length ∧ (UBFH.ofBytes data).hdr.bytesUsed = data.length ∧
      (UBFH.ofBytes data).hdr.magic = ubfMagic
  | .int | .rfu0 => False
  | t => data.length = t.size.toNat

variable {t : FldType}

theorem DataOk.cases {data : List UInt8} (h : DataOk t data) :
    t = .string ∨ t = .carray ∨ t = .ubf ∨ t = .view ∨
      t.binarySearchOk ∧ (data.length:Int) = t.size := by
  cases t <;> simp_all [DataOk, FldType.binarySearchOk, FldType.code, FldType.size]

/-- What lies between the id and `n` data bytes: the `dlen` member of STRING and CARRAY records,
and the members `vname`, `dlen` and `vflags` of VIEW records with the gaps before the last two. -/
def HeadOk (t : FldType) (n : ℕ) (head : List UInt8) : Prop :=
  match t with
  | .string | .carray => head = enc32 n
  | .view => head.length = 52 ∧ dec32 ((head.drop 36).take 4) = n ∧ 0 ∈ head.take 34
  | _ => head = []

theorem HeadOk.length {n : ℕ} {head : List UInt8} (h : HeadOk t n head) :
    head.length+4 = t.hdrSize.toNat := by
  cases t with
  | string | carray => rw [show head = enc32 n from h]; rfl
  | view => rw [h.1]; rfl
  | short | long | char | float | double | int | rfu0 | ptr | ubf =>
    rw [show head = [] from h]; rfl

theorem headOk_fixed (ht : t.binarySearchOk) (n : ℕ) : HeadOk t n [] := by
  cases t <;> first | rfl | cases ht

def padLen (n : ℕ) : ℕ := (4-n%4)%4

structure Rec where
  id : Int
  type : FldType
  head : List UInt8
  data : List UInt8
  pad : List UInt8
  id_pos : 0 < id
  type_eq : fldType id = some type
  head_ok : HeadOk type data.length head
  data_ok : DataOk type data
  pad_len : pad.length = padLen data.length

namespace Rec

def bytes (r : Rec) : List UInt8 := enc32 r.id ++ r.head ++ r.data ++ r.pad

def size (r : Rec) : ℕ := r.bytes.length

variable (r : Rec)

theorem id_lt : r.id < 2147483648 := by
  have h := fldType_eq_some.mp r.type_eq
  have hc : r.type.code ≤ 11 := by cases r.type <;> decide
  omega

theorem dec_id : dec32 (enc32 r.id) = r.id :=
  dec32_enc32_of_mem (by have := r.id_pos; omega) r.id_lt

theorem size_eq : r.size = r.type.hdrSize.toNat+r.data.length+padLen r.data.length := by
  have h := r.head_ok.length
  simp only [size, bytes, length_append, enc32_length, r.pad_len]
  omega

theorem size_pos : 0 < r.size := by
  rw [size, bytes]
  simp

theorem size_aligned : (r.size:Int) = (r.type.hdrSize+r.data.length+3)/4*4 := by
  have hh := r.type.hdrSize_cases
  rw [size_eq, padLen]
  rcases hh with hh | hh | hh <;> rw [hh] <;> omega

end Rec

def RecAt (b : UBFH) (p : ℕ) (r : Rec) : Prop :=
  ∃ pre post, b.mem = pre ++ r.bytes ++ post ∧ pre.length = p

namespace RecAt

variable {b : UBFH} {p : ℕ} {r : Rec}

variable (h : RecAt b p r)
include h

theorem load {x y z : List UInt8} (hr : r.bytes = x ++ y ++ z) :
    b.load ((p+x.length : ℕ) : Int) y.length = some y := by
  obtain ⟨pre, post, hm, rfl⟩ := h
  rw [UBFH.load_nat]
  have hm' : b.mem = (pre ++ x) ++ y ++ (z ++ post) := by
    rw [hm, hr]
    simp only [append_assoc]
  exact slice_eq_of_append hm' (length_append).symm rfl

theorem ld32_id : b.ld32 p = some r.id := by
  have hl := h.load (x := []) (y := enc32 r.id)
    (z := r.head ++ r.data ++ r.pad) (by simp [Rec.bytes])
  simp only [length_nil, Nat.add_zero, enc32_length] at hl
  rw [UBFH.ld32, hl, map_some, r.dec_id]

theorem ld32_dlen (ht : r.type = .string ∨ r.type = .carray)
    (hs : r.size < 2147483648) : b.ld32 ((p:Int)+4) = some (r.data.length:Int) := by
  have hw : r.head = enc32 r.data.length := by
    have hok := r.head_ok
    rcases ht with ht | ht <;> rw [ht] at hok <;> exact hok
  have hl := h.load (x := enc32 r.id) (y := enc32 r.data.length) (z := r.data ++ r.pad)
    (by simp [Rec.bytes, hw])
  have hlen : (r.data.length : Int) < 2147483648 := by
    have := r.size_eq
    omega
  simp only [enc32_length, Nat.cast_add, Nat.cast_ofNat] at hl
  rw [UBFH.ld32, hl, map_some, dec32_enc32_of_mem (by omega) hlen]

theorem ld32_in {x w z : List UInt8} (hb : r.bytes = x ++ (w ++ z)) {k : ℕ}
    (hk : k+4 ≤ w.length) : b.ld32 ((p+(x.length+k) : ℕ):Int) = some (dec32 ((w.drop k).take 4)) := by
  have hl := h.load (x := x ++ w.take k) (y := (w.drop k).take 4) (z := (w.drop k).drop 4 ++ z) (by
    rw [hb]
    simp only [append_assoc]
    rw [← append_assoc (List.take 4 _), take_append_drop,
      ← append_assoc (List.take k _), take_append_drop])
  have hx : (x ++ w.take k).length = x.length+k := by simp; omega
  have hy : ((w.drop k).take 4).length = 4 := by simp; omega
  rw [hx, hy] at hl
  rw [UBFH.ld32, hl, map_some]

theorem ld32_used (ht : r.type = .ubf) :
    b.ld32 ((p:Int)+4+52) = some (r.data.length:Int) := by
  have hok := r.data_ok
  have hw := r.head_ok
  rw [ht] at hok hw
  obtain ⟨_, hused, -⟩ := hok
  have hw : r.head = [] := hw
  have hl := h.ld32_in (x := enc32 r.id) (w := r.data) (z := r.pad) (k := 52)
    (by simp [Rec.bytes, hw]) (by omega)
  rw [enc32_length] at hl
  rw [show (p:Int)+4+52 = ((p+(4+52) : ℕ):Int) by push_cast; omega, hl]
  exact congrArg some hused

theorem ld32_view (ht : r.type = .view) :
    b.ld32 ((p:Int)+40) = some (r.data.length:Int) := by
  have hok := r.head_ok
  rw [ht] at hok
  obtain ⟨_, hdlen, -⟩ := hok
  have hl := h.ld32_in (x := enc32 r.id) (w := r.head) (z := r.data ++ r.pad) (k := 36)
    (by simp [Rec.bytes]) (by omega)
  rw [enc32_length] at hl
  rw [show (p:Int)+40 = ((p+(4+36) : ℕ):Int) by push_cast; omega, hl, hdlen]

/-- The step over a stored record is its size. -/
theorem pNext (hs : r.size < 2147483641) :
    UBF.pNext r.type b p = some ((r.size:Int), (r.data.length:Int)) := by
  have hsize := r.size_aligned
  have heq := r.size_eq
  -- the type functions differ only in where they find the payload length
  rcases r.data_ok.cases with ht | ht | ht | ht | ⟨ht, hlen⟩
  · rw [ht] at hsize heq ⊢
    simp only [FldType.hdrSize] at hsize heq
    simp only [UBF.pNext, h.ld32_dlen (Or.inl ht) (by omega), bind_eq_bind, bind_some]
    rw [alignedSize_of_mem (by omega) (by omega)]
    congr 4
    omega
  · rw [ht] at hsize heq ⊢
    simp only [FldType.hdrSize] at hsize heq
    simp only [UBF.pNext, h.ld32_dlen (Or.inr ht) (by omega), bind_eq_bind, bind_some]
    rw [alignedSize_of_mem (by omega) (by omega)]
    congr 4
    omega
  · rw [ht] at hsize heq ⊢
    simp only [FldType.hdrSize] at hsize heq
    simp only [UBF.pNext, h.ld32_used ht, bind_eq_bind, bind_some]
    rw [alignedSize_of_mem (by omega) (by omega), hsize]
  · rw [ht] at hsize heq ⊢
    simp only [FldType.hdrSize] at hsize heq
    simp only [UBF.pNext, h.ld32_view ht, bind_eq_bind, bind_some]
    rw [alignedSize_of_mem (by omega) (by omega)]
    congr 4
    omega
  · obtain ⟨_, _, h4⟩ := fixed_size ht
    rw [pNext_fixed ht, alignedSize_of_mem (by omega) (by omega), hsize, h4, hlen]

end RecAt

end Endurox.UBF
