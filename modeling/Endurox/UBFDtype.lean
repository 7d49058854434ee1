import Endurox.UBFBuffer

/-!
The type descriptors `G_dtype_str_map` and `G_dtype_ext1_map`: record sizes, putting values
into a buffer and reading them back. Values are the bytes behind the caller's pointer.

For VIEW these are the `BVIEWFLD`: `vflags`, the 34 bytes of `vname`, and the struct behind
`data`. The length argument, which the library does not use for this type, stands for what
`ndrx_view_get_view` finds for the name: the struct size, or -1 for a view that is not loaded.
-/

namespace Endurox.UBF

open Base

def alignedSize (dsize : Int) : Int := wrap32 (usize (4+dsize+3)/4*4)

theorem alignedSize_of_mem {d : Int} (h0 : 0 ≤ d) (h1 : d < 2147483641) :
    alignedSize d = (4+d+3)/4*4 := by
  have hu : usize (4+d+3) = 4+d+3 := Int.emod_eq_of_lt (by omega) (by omega)
  rw [alignedSize, hu, wrap32_of_mem (by omega) (by omega)]

def cstr : List UInt8 → Option (List UInt8)
  | [] => none
  | c :: bs => if c = 0 then some [] else (cstr bs).map (c :: ·)

theorem cstr_append {s : List UInt8} (h : 0 ∉ s) (rest : List UInt8) :
    cstr (s ++ 0 :: rest) = some s := by
  induction s with
  | nil => rfl
  | cons c s ih =>
    have hc : c ≠ 0 := fun e => h (by simp [e])
    have hs : 0 ∉ s := fun e => h (by simp [e])
    rw [List.cons_append, cstr, if_neg hc, ih hs]
    rfl

theorem cstr_eq_some {bs s : List UInt8} (h : cstr bs = some s) :
    0 ∉ s ∧ ∃ rest, bs = s ++ 0 :: rest := by
  induction bs generalizing s with
  | nil => simp [cstr] at h
  | cons c bs ih =>
    by_cases hc : c = 0
    · rw [cstr, if_pos hc] at h
      obtain rfl := Option.some.inj h
      exact ⟨by simp, bs, by simp [hc]⟩
    · rw [cstr, if_neg hc, Option.map_eq_some_iff] at h
      obtain ⟨_, hs', rfl⟩ := h
      obtain ⟨h0, rest, rfl⟩ := ih hs'
      exact ⟨by simp [h0, Ne.symm hc], rest, rfl⟩

def FldType.size : FldType → Int
  | .short => 2
  | .long | .double | .ptr => 8
  | .char => 1
  | .float | .int | .ubf => 4
  | .string | .carray => 0
  | .rfu0 => -1
  | .view => 52

def FldType.binarySearchOk (t : FldType) : Bool := t.code < 5 ∨ t.code = 9

def FldType.hdrSize : FldType → Int
  | .string | .carray => 8
  | .view => 56
  | _ => 4

theorem FldType.hdrSize_cases (t : FldType) : t.hdrSize = 4 ∨ t.hdrSize = 8 ∨ t.hdrSize = 56 := by
  cases t <;> simp [FldType.hdrSize]

def pNext (t : FldType) (b : UBFH) (p : Int) : Option (Int × Int) :=
  match t with
  | .string | .carray => do
    let dlen ← b.ld32 (p+4)
    some (alignedSize (4+dlen), dlen)
  | .ubf => do
    let used ← b.ld32 (p+4+52)
    some (alignedSize used, used)
  | .view => do
    let dlen ← b.ld32 (p+40)
    some (alignedSize (52+dlen), dlen)
  | t => some (alignedSize t.size, t.size)

/-- The struct size of a VIEW value: an empty name has none, for the others the view is looked
up (`ssize` is what is found). `none` is a failed lookup. -/
def viewSize (data : List UInt8) (ssize : Int) : Option Int :=
  if data.getD 4 0 = 0 then some 0 else if ssize < 0 then none else some ssize

/-- `p_get_data_size`: the record size a new value needs, -1 for an invalid nested buffer and
for a view that is not loaded. -/
def getDSize (t : FldType) (data : List UInt8) (len : Int) : Option Int :=
  match t with
  | .string => (cstr data).map (fun s => alignedSize (4+wrap32 (s.length+1)))
  | .carray => some (alignedSize (4+len))
  | .ubf =>
    if data.length < 56 then none
    else if validateEntry (UBFH.ofBytes data) 0 0 true ≠ .succeed then some (-1)
    else some (alignedSize (UBFH.ofBytes data).hdr.bytesUsed)
  | .view =>
    if data.length < 38 then none
    else match viewSize data len with
    | none => some (-1)
    | some vsize => some (alignedSize (52+vsize))
  | t => some (alignedSize t.size)

def dSizeErr (t : FldType) : BErr := if t = .view then .bbadview else .bnotfld

/-- `p_put_data`: write the record of a value at `p`. Padding keeps the bytes it had. -/
def putData (t : FldType) (b : UBFH) (p bfldid : Int) (data : List UInt8) (len : Int) :
    Option UBFH :=
  match t with
  | .string => do
    let s ← cstr data
    let b ← b.store (p+8) (s ++ [0])
    let b ← b.store (p+4) (enc32 (wrap32 (s.length+1)))
    b.store p (enc32 bfldid)
  | .carray => do
    let b ← b.store p (enc32 bfldid)
    let b ← b.store (p+4) (enc32 len)
    if len > 0 then
      let d ← slice data 0 len.toNat
      b.store (p+8) d
    else some b
  | .ubf => do
    let b ← b.store p (enc32 bfldid)
    let used ← (slice data 52 4).map dec32
    if 0 ≤ used then
      let d ← slice data 0 used.toNat
      b.store (p+4) d
    else none
  | .view => do
    -- the lookup was made before, for the size
    let vsize ← viewSize data len
    let b ← b.store p (enc32 bfldid)
    let vflags ← slice data 0 4
    let b ← b.store (p+48) (vflags ++ [0, 0, 0, 0])
    let b ← b.store (p+40) (enc32 vsize)
    let vname ← cstr ((data.drop 4).take 34)
    let b ← b.store (p+4) (vname ++ [0])
    if vsize > 0 then
      let d ← slice data 38 vsize.toNat
      b.store (p+56) d
    else some b
  | t => do
    let b ← b.store p (enc32 bfldid)
    let d ← slice data 0 t.size.toNat
    b.store (p+4) d

/-- `p_get_data`: copy the value of the record at `p` out, with the length reported. The
caller's `*len`, if given, is checked first. -/
def getData (t : FldType) (b : UBFH) (p : Int) (len : Option Int) :
    Option (Except BErr (List UInt8 × Int)) :=
  match t with
  | .string => do
    let dlen ← b.ld32 (p+4)
    if len.any (· < dlen) then some (.error .bnospace)
    else
      let s ← cstr (b.block.drop (p+8+56).toNat)
      some (.ok (s ++ [0], dlen))
  | .carray => do
    let dlen ← b.ld32 (p+4)
    if len.any (fun n => 0 < n ∧ n < dlen) then some (.error .bnospace)
    else if 0 ≤ dlen then
      let d ← b.load (p+8) dlen.toNat
      some (.ok (d, dlen))
    else none
  | .ubf => do
    let used ← b.ld32 (p+4+52)
    if len.any (fun n => 0 < n ∧ n < used) then some (.error .bnospace)
    else if 0 ≤ used then
      let d ← b.load (p+4) used.toNat
      some (.ok (d, used))
    else none
  | .view => do
    let dlen ← b.ld32 (p+40)
    if len.any (fun n => 0 < n ∧ n < dlen) then some (.error .bnospace)
    else if 0 ≤ dlen then
      let vname ← (b.load (p+4) 34).bind cstr
      let vflags ← b.load (p+48) 4
      let d ← b.load (p+56) dlen.toNat
      some (.ok (vflags ++ vname ++ List.replicate (34-vname.length) 0 ++ d, dlen))
    else none
  | t =>
    if len.any (· < t.size) then some (.error .bnospace)
    else do
      let d ← b.load (p+4) t.size.toNat
      some (.ok (d, t.size))

-- the default functions, shared by all types of one record size
variable {t : FldType} (ht : t.binarySearchOk)
include ht

theorem fixed_size : 0 < t.size ∧ t.size ≤ 8 ∧ t.hdrSize = 4 := by
  cases t <;> first | decide | cases ht

theorem pNext_fixed (b : UBFH) (p : Int) : pNext t b p = some (alignedSize t.size, t.size) := by
  cases t <;> first | rfl | cases ht

theorem getDSize_fixed (data : List UInt8) (len : Int) :
    getDSize t data len = some (alignedSize t.size) := by
  cases t <;> first | rfl | cases ht

theorem putData_fixed (b : UBFH) (p bfldid : Int) (data : List UInt8) (len : Int) :
    putData t b p bfldid data len = (b.store p (enc32 bfldid)).bind (fun b =>
      (slice data 0 t.size.toNat).bind (b.store (p+4))) := by
  cases t <;> first | rfl | cases ht

end Endurox.UBF
