import Endurox.BaseBytes

/-!
The UBF buffer: its header, its record area and the accesses the library makes to them.
Addresses are byte offsets from `&hdr->bfldid`; the 56 header bytes lie below offset 0.
The layout is the one of a 4-byte alignment build (`EX_ALIGNMENT_BYTES` is 4). An access
outside the block has no defined result: every function that touches memory is partial.
-/

namespace Endurox.UBF

open Base

inductive FldType
  | short | long | char | float | double | string | carray | int | rfu0 | ptr | ubf | view
  deriving DecidableEq, Repr

def FldType.code : FldType → Int
  | .short => 0 | .long => 1 | .char => 2 | .float => 3 | .double => 4 | .string => 5
  | .carray => 6 | .int => 7 | .rfu0 => 8 | .ptr => 9 | .ubf => 10 | .view => 11

def FldType.ofCode : Int → Option FldType
  | 0 => some .short
  | 1 => some .long
  | 2 => some .char
  | 3 => some .float
  | 4 => some .double
  | 5 => some .string
  | 6 => some .carray
  | 7 => some .int
  | 8 => some .rfu0
  | 9 => some .ptr
  | 10 => some .ubf
  | 11 => some .view
  | _ => none

def fldType (bfldid : Int) : Option FldType := FldType.ofCode (bfldid/33554432)

theorem FldType.ofCode_code (t : FldType) : FldType.ofCode t.code = some t := by
  cases t <;> rfl

theorem FldType.code_of_ofCode {c : Int} {t : FldType} (h : FldType.ofCode c = some t) :
    t.code = c := by
  unfold FldType.ofCode at h
  split at h <;> cases h <;> rfl

theorem fldType_eq_some {bfldid : Int} {t : FldType} :
    fldType bfldid = some t ↔ bfldid/33554432 = t.code := by
  constructor
  · intro h
    exact (FldType.code_of_ofCode h).symm
  · intro h
    rw [fldType, h, FldType.ofCode_code]

inductive BErr
  | bminval | balignerr | bnotfld | bnospace | bnotpres | bbadfld | btyperr | beunix | bbadname
  | bmalloc | bsyntax | beinval | bebadop | bbadview
  deriving DecidableEq, Repr

inductive Ret
  | succeed
  | fail (e : BErr)
  deriving DecidableEq, Repr

/-- `UBF_header_t` up to `bfldid`. The two alignment bytes after `magic` are part of every
copy of the header, so they are kept. -/
structure Header where
  bufferType : UInt8
  version : UInt8
  magic : Vector UInt8 4
  padding : Vector UInt8 2
  cacheLongOff : Int
  cacheCharOff : Int
  cacheFloatOff : Int
  cacheDoubleOff : Int
  cacheStringOff : Int
  cacheCarrayOff : Int
  cachePtrOff : Int
  cacheUbfOff : Int
  cacheViewOff : Int
  bufLen : Int
  opts : Int
  bytesUsed : Int
  deriving DecidableEq

namespace Header

def toBytes (h : Header) : List UInt8 :=
  [h.bufferType, h.version] ++ h.magic.toList ++ h.padding.toList ++ enc32 h.cacheLongOff ++
    enc32 h.cacheCharOff ++ enc32 h.cacheFloatOff ++ enc32 h.cacheDoubleOff ++
    enc32 h.cacheStringOff ++ enc32 h.cacheCarrayOff ++ enc32 h.cachePtrOff ++
    enc32 h.cacheUbfOff ++ enc32 h.cacheViewOff ++ enc32 h.bufLen ++ enc32 h.opts ++
    enc32 h.bytesUsed

@[simp] theorem toBytes_length (h : Header) : h.toBytes.length = 56 := by
  simp [toBytes]

def member (bs : List UInt8) (off : ℕ) : Int := dec32 ((bs.drop off).take 4)

def ofBytes (bs : List UInt8) : Header where
  bufferType := bs.getD 0 0
  version := bs.getD 1 0
  magic := #v[bs.getD 2 0, bs.getD 3 0, bs.getD 4 0, bs.getD 5 0]
  padding := #v[bs.getD 6 0, bs.getD 7 0]
  cacheLongOff := member bs 8
  cacheCharOff := member bs 12
  cacheFloatOff := member bs 16
  cacheDoubleOff := member bs 20
  cacheStringOff := member bs 24
  cacheCarrayOff := member bs 28
  cachePtrOff := member bs 32
  cacheUbfOff := member bs 36
  cacheViewOff := member bs 40
  bufLen := member bs 44
  opts := member bs 48
  bytesUsed := member bs 52

/-- `M_ubf_type_cache`: where the records of a type start. The table has no cache member for
SHORT (records start at 0, the entry is never read), INT and RFU0. -/
def cacheOff (h : Header) : FldType → Option Int
  | .short | .int | .rfu0 => none
  | .long => some h.cacheLongOff
  | .char => some h.cacheCharOff
  | .float => some h.cacheFloatOff
  | .double => some h.cacheDoubleOff
  | .string => some h.cacheStringOff
  | .carray => some h.cacheCarrayOff
  | .ptr => some h.cachePtrOff
  | .ubf => some h.cacheUbfOff
  | .view => some h.cacheViewOff

/-- Apply `f` to the cache members behind the `case` label of `t`: the switches of
`ubf_cache_shift` and `ubf_cache_set` fall through from it down to the BFLD_UBF case, so that
a member is reached from its own label and from every label above it. -/
def mapCacheFrom (h : Header) (t : FldType) (f : Int → Int) : Header :=
  let reached (labels : List FldType) (off : Int) : Int := if t ∈ labels then f off else off
  {h with
    cacheLongOff := reached [.short] h.cacheLongOff
    cacheCharOff := reached [.short, .long] h.cacheCharOff
    cacheFloatOff := reached [.short, .long, .char] h.cacheFloatOff
    cacheDoubleOff := reached [.short, .long, .char, .float] h.cacheDoubleOff
    cacheStringOff := reached [.short, .long, .char, .float, .double] h.cacheStringOff
    cacheCarrayOff := reached [.short, .long, .char, .float, .double, .string] h.cacheCarrayOff
    cachePtrOff :=
      reached [.short, .long, .char, .float, .double, .string, .carray] h.cachePtrOff
    cacheUbfOff :=
      reached [.short, .long, .char, .float, .double, .string, .carray, .ptr] h.cacheUbfOff
    cacheViewOff :=
      reached [.short, .long, .char, .float, .double, .string, .carray, .ptr, .ubf]
        h.cacheViewOff}

def ubfCacheShift (h : Header) (bfldid sizeDiff : Int) : Header :=
  match fldType bfldid with
  | none => h
  | some t => h.mapCacheFrom t (fun off => wrap32 (off+sizeDiff))

end Header

def ubfMagic : Vector UInt8 4 := #v[85, 66, 70, 49]

/-- A UBF buffer: the header and the bytes from `&hdr->bfldid` to the end of its block. -/
structure UBFH where
  hdr : Header
  mem : List UInt8
  deriving DecidableEq

namespace UBFH

def block (b : UBFH) : List UInt8 := b.hdr.toBytes ++ b.mem

def ofBytes (bs : List UInt8) : UBFH := ⟨Header.ofBytes bs, bs.drop 56⟩

def usedEnd (b : UBFH) : Int := b.hdr.bytesUsed-56

def eof (b : UBFH) (p : Int) : Bool := b.usedEnd ≤ p

def checkAlign (b : UBFH) (p : Int) : Bool := b.usedEnd < p

def load (b : UBFH) (p : Int) (n : ℕ) : Option (List UInt8) :=
  if 0 ≤ p+56 then slice b.block (p+56).toNat n else none

def ld32 (b : UBFH) (p : Int) : Option Int := (b.load p 4).map dec32

/-- Write bytes at `p`. A data pointer below the record area is out of range. -/
def store (b : UBFH) (p : Int) (bs : List UInt8) : Option UBFH :=
  if 0 ≤ p then (splice b.mem p.toNat bs).map (fun m => {b with mem := m}) else none

def memmove (b : UBFH) (dst src n : Int) : Option UBFH :=
  if n = 0 then some b
  else if 0 ≤ dst ∧ 0 ≤ src ∧ 0 ≤ n then
    (move b.mem dst.toNat src.toNat n.toNat).map (fun m => {b with mem := m})
  else none

theorem load_nat (b : UBFH) (k n : ℕ) : b.load k n = slice b.mem k n := by
  have h1 : (0:Int) ≤ (k:Int)+56 := by omega
  have h2 : ((k:Int)+56).toNat = b.hdr.toBytes.length+k := by simp; omega
  have hd : b.block.drop (b.hdr.toBytes.length+k) = b.mem.drop k := by
    rw [← List.drop_drop]
    simp [block]
  have hl : b.hdr.toBytes.length+k+n ≤ b.block.length ↔ k+n ≤ b.mem.length := by
    simp only [block, List.length_append]
    omega
  rw [load, if_pos h1, h2]
  simp only [slice, hd, hl]

theorem store_nat (b : UBFH) (k : ℕ) (bs : List UInt8) :
    b.store k bs = (splice b.mem k bs).map (fun m => {b with mem := m}) := by
  rw [store]
  simp

end UBFH

def validateEntry (b : UBFH) (bfldid occ : Int) (noFld : Bool) : Ret :=
  if b.hdr.magic ≠ ubfMagic then .fail .bnotfld
  else if !noFld ∧ bfldid = 0 then .fail .bbadfld
  else if !noFld ∧ fldType bfldid = none then .fail .bbadfld
  else if !noFld ∧ occ < -1 then .fail .beinval
  else .succeed

def Header.init (len : Int) : Header where
  bufferType := 0
  version := 1
  magic := ubfMagic
  padding := #v[0, 0]
  cacheLongOff := 0
  cacheCharOff := 0
  cacheFloatOff := 0
  cacheDoubleOff := 0
  cacheStringOff := 0
  cacheCarrayOff := 0
  cachePtrOff := 0
  cacheUbfOff := 0
  cacheViewOff := 0
  bufLen := len
  opts := 0
  bytesUsed := 56

/-- `Binit` on a block whose record area holds `mem`: `sizeof(UBF_header_t)`, 60 bytes, are
cleared and the header is set up. The length is compared as a `size_t`. -/
def binit (b : UBFH) (len : Int) : Option (Ret × UBFH) :=
  if usize len < 60 then some (.fail .bnospace, b)
  else do
    let b ← b.store 0 (enc32 0)
    some (.succeed, {b with hdr := Header.init len})

end Endurox.UBF
