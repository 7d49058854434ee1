import Endurox.UBFNext

/-! Buffers of the size that `Bneeded` computes, and what can be added to them. The build is one with
`EX_ALIGNMENT_BYTES` 4, the default. -/

namespace Endurox.UBF

open Base List

def ndrxBneeded (nrfields totsize : Int) : Int := wrap64 (60+totsize+nrfields*(4+12))

/-- `ndrx_Balloc`; `malloc` gives the block. The size is cut to the `int` that `Binit` takes. -/
def ndrxBalloc (f v lenSet : Int) (malloc : Int → Option (List UInt8)) :
    Option (Except BErr UBFH) :=
  let allocSize := if lenSet ≠ -1 then lenSet else ndrxBneeded f v
  if 4294967295 < allocSize then some (.error .beinval)
  else match malloc allocSize with
    | none => some (.error .bmalloc)
    | some area =>
      match binit (UBFH.ofBytes area) (wrap32 allocSize) with
      | none => none
      | some (.fail e, _) => some (.error e)
      | some (.succeed, b) => some (.ok b)

theorem binit_eq {area : List UInt8} (harea : 60 ≤ area.length) {len : Int}
    (hlen : ¬usize len < 60) : binit (UBFH.ofBytes area) len =
      some (.succeed, ⟨Header.init len, enc32 0 ++ area.drop 60⟩) := by
  have hmem : (UBFH.ofBytes area).mem = [] ++ (area.drop 56).take 4 ++ area.drop 60 := by
    rw [nil_append, ofBytes_mem, show (60:ℕ) = 56+4 from rfl, ← drop_drop, take_append_drop]
  rw [binit, if_neg hlen, store_part [] ((area.drop 56).take 4) (area.drop 60) hmem (by rfl)
    (by rw [length_take, length_drop, enc32_length]; omega)]
  rfl

theorem binit_layout {area : List UInt8} (hlo : 60 ≤ area.length)
    (hhi : area.length < 2147483648) :
    ∃ b, binit (UBFH.ofBytes area) (wrap32 area.length) = some (.succeed, b) ∧ Layout b [] ∧
      b.hdr.bufLen = area.length := by
  have hwrap : wrap32 (area.length:Int) = area.length := wrap32_of_mem (by omega) (by omega)
  have hsize : ¬ usize (area.length:Int) < 60 := by
    rw [usize]
    omega
  rw [hwrap, binit_eq hlo hsize]
  refine ⟨_, rfl, ⟨⟨_, (nil_append _).symm⟩, ?_, ?_, ?_, rfl, List.Pairwise.nil, ?_⟩, rfl⟩
  · simp [Header.init]
  · simp only [length_append, enc32_length, length_drop, Header.init]
    omega
  · show (area.length:Int) < 2147483648
    omega
  · intro t off hoff
    have hzero : off = 0 := by
      cases t <;> simp [Header.cacheOff, Header.init] at hoff <;> omega
    rw [hzero]
    rfl

def FldType.plain (t : FldType) : Bool :=
  t ∈ [.short, .long, .char, .float, .double, .ptr, .string, .carray]

structure AddCall where
  bfldid : Int
  data : List UInt8
  len : Int
  type : FldType
  value : List UInt8
  pos : 0 < bfldid
  typed : fldType bfldid = some type
  plain : type.plain = true
  read : valueOf type data len = some value

def AddCall.payload (c : AddCall) : ℕ := c.value.length

def totalPayload : List AddCall → ℕ
  | [] => 0
  | c :: cs => c.payload+totalPayload cs

def AllAdded : UBFH → List AddCall → Prop
  | _, [] => True
  | b, c :: cs =>
    (-2147483648 ≤ b.hdr.bufLen-b.hdr.bytesUsed ∧ b.hdr.bufLen-b.hdr.bytesUsed < 2147483648) ∧
      ∃ b', badd b c.bfldid c.data c.len = some ⟨.succeed, b', none⟩ ∧ AllAdded b' cs

theorem recSize_plain {t : FldType} (h : t.plain = true) (n : ℕ) : recSize t n ≤ n+16 := by
  have hhdr : t.hdrSize.toNat ≤ 8 := by
    revert h
    cases t <;> decide
  have hpad : padLen n ≤ 3 := by
    rw [padLen]
    omega
  rw [recSize]
  omega

variable {rs : List Rec}

theorem recsSize_added {b : UBFH} (h : Layout b rs) (bfldid : Int) (r : Rec) :
    recsSize (setOccs Rec.id bfldid (occs Rec.id bfldid rs ++ [r]) rs) = recsSize rs+r.size := by
  have hs := congrArg recsSize (h.ordered.split bfldid)
  simp only [recsSize_append] at hs
  simp only [setOccs, recsSize_append, recsSize_cons, recsSize_nil]
  omega

theorem badd_share {b : UBFH} (h : Layout b rs) (c : AddCall)
    (hroom : b.hdr.bytesUsed+(c.payload+16) ≤ b.hdr.bufLen) :
    ∃ b' rs', badd b c.bfldid c.data c.len = some ⟨.succeed, b', none⟩ ∧ Layout b' rs' ∧
      b'.hdr.bufLen = b.hdr.bufLen ∧ b'.hdr.bytesUsed ≤ b.hdr.bytesUsed+(c.payload+16) := by
  have hsize := recSize_plain c.plain c.payload
  have hused := h.used
  have hlt := h.len_lt
  have hlen : c.value.length < 2147483648 := by
    show c.payload < 2147483648
    omega
  obtain ⟨r, b', _, hadd, -, -, hrsize, hrep, hls, -⟩ :=
    ndrxBadd_fits h c.typed c.read hlen c.pos
      (show b.hdr.bytesUsed+(recSize c.type c.payload : ℕ) ≤ b.hdr.bufLen by omega)
      (show ∀ q, (none : Option Int) = some q → StartOk rs c.bfldid q from fun q hq => by cases hq)
      (show ∀ q, (none : Option Int) = some q → AddOk rs c.bfldid q from fun q hq => by cases hq)
      (.inl rfl)
  obtain rfl := hls.mpr rfl
  refine ⟨b', _, ?_, hrep.1, hrep.2, ?_⟩
  · rw [badd, h.validateEntry c.pos c.typed (by decide), hadd]
    rfl
  · rw [hrep.1.used, recsSize_added h]
    have hr : r.size = recSize c.type c.payload := hrsize
    omega

theorem allAdded_of_share {cs : List AddCall} {b : UBFH} (h : Layout b rs)
    (hroom : b.hdr.bytesUsed+(totalPayload cs+16*cs.length : ℕ) ≤ b.hdr.bufLen) :
    AllAdded b cs := by
  induction cs generalizing b rs with
  | nil => trivial
  | cons c cs ih =>
    rw [totalPayload, length_cons] at hroom
    have hused := h.used
    have hlt := h.len_lt
    obtain ⟨b', _, hadd, hlay, _, _⟩ := badd_share h c (by push_cast at hroom; omega)
    refine ⟨by omega, b', hadd, ih hlay ?_⟩
    omega

theorem charId_typed : fldType 67108865 = some .char := by decide

theorem charId_pos : (0:Int) < 67108865 := by decide

theorem char_plain : FldType.char.plain = true := by decide

theorem char_read : valueOf .char [0] 0 = some [0] := by decide

def oneChar : AddCall := ⟨67108865, [0], 0, .char, [0], charId_pos, charId_typed, char_plain, char_read⟩

theorem badd_oneChar {len : Int} (hfull : wrap32 (len-56) < 8) (m : List UInt8) :
    badd ⟨Header.init len, m⟩ oneChar.bfldid oneChar.data oneChar.len =
      some ⟨.fail .bnospace, ⟨Header.init len, m⟩, none⟩ := by
  have hsize : getDSize .char [0] 0 = some 8 := by decide
  have hhave : haveBufferSize ⟨Header.init len, m⟩ 8 = false := decide_eq_false (not_le.mpr hfull)
  show badd _ 67108865 [0] 0 = _
  simp only [badd, ndrxBadd, charId_typed, hsize, hhave, Option.bind_eq_bind, Option.bind_some]
  rfl

section

variable {nrfields totsize : Int} (hn : 1 ≤ nrfields) (ht : 1 ≤ totsize)
  (hnmax : nrfields ≤ 2147483647) (htmax : totsize ≤ 2147483647)
include hn ht hnmax htmax

theorem ndrxBneeded_eq : ndrxBneeded nrfields totsize = 60+totsize+16*nrfields := by
  rw [ndrxBneeded, wrap64_of_mem (by omega) (by omega)]
  omega

/-- The estimate is sufficient exactly as long as `buf_len` can hold it. -/
theorem bneeded_sufficient_iff (hmax : ndrxBneeded nrfields totsize ≤ 4294967295) :
    (∀ area b, (area.length:Int) = ndrxBneeded nrfields totsize →
      ndrxBalloc nrfields totsize (-1) (fun _ => some area) = some (.ok b) →
      ∀ cs : List AddCall, cs.length ≤ nrfields → totalPayload cs ≤ totsize → AllAdded b cs) ↔
      ndrxBneeded nrfields totsize ≤ 2147483647 := by
  have heq := ndrxBneeded_eq hn ht hnmax htmax
  have halloc (area : List UInt8) (b : UBFH)
      (hinit : binit (UBFH.ofBytes area) (wrap32 (ndrxBneeded nrfields totsize)) =
        some (.succeed, b)) :
      ndrxBalloc nrfields totsize (-1) (fun _ => some area) = some (.ok b) := by
    simp [ndrxBalloc, if_neg (not_lt.mpr hmax), hinit]
  constructor
  · intro h
    by_contra hbig
    set size := ndrxBneeded nrfields totsize
    have hwrap : wrap32 size = size-4294967296 := by
      rw [wrap32, wrap]
      omega
    have hsize : ¬usize (wrap32 size) < 60 := by
      rw [usize]
      omega
    have hlen : ((replicate size.toNat (0:UInt8)).length : Int) = size := by
      rw [length_replicate]
      omega
    have hlong : 60 ≤ (replicate size.toNat (0:UInt8)).length := by omega
    have hadded := h _ _ hlen (halloc _ _ (binit_eq hlong hsize)) [oneChar] (by simpa using hn)
      (show ((1:ℕ):Int) ≤ totsize by omega)
    obtain ⟨hrange, _, hadd, -⟩ := hadded
    have hfree : wrap32 (wrap32 size-56) < 8 := by
      change -2147483648 ≤ wrap32 size-56 ∧ wrap32 size-56 < 2147483648 at hrange
      rw [wrap32_of_mem hrange.1 hrange.2]
      omega
    rw [badd_oneChar hfree] at hadd
    cases hadd
  · intro hsmall area b hlen hb cs hcs htotal
    obtain ⟨b₀, hinit, hlay, _⟩ := binit_layout (show 60 ≤ area.length by omega) (by omega)
    rw [hlen] at hinit
    rw [halloc area b₀ hinit] at hb
    cases hb
    apply allAdded_of_share hlay
    rw [hlay.used]
    have hempty : (recsSize [] : Int) = 0 := rfl
    omega

end

theorem bneeded_sufficient_small : ndrxBneeded 2 10 = 102 ∧
    ((∀ area b, (area.length:Int) = ndrxBneeded 2 10 →
      ndrxBalloc 2 10 (-1) (fun _ => some area) = some (.ok b) →
      ∀ cs : List AddCall, cs.length ≤ (2:Int) → totalPayload cs ≤ (10:Int) → AllAdded b cs) ↔
      ndrxBneeded 2 10 ≤ 2147483647) :=
  ⟨by decide, bneeded_sufficient_iff (by decide) (by decide) (by decide) (by decide) (by decide)⟩

/-- One field in the largest total: the request is accepted, and one byte does not fit. -/
theorem bneeded_insufficient : ndrxBneeded 1 2147483647 = 2147483723 ∧ ∃ area b,
    (area.length:Int) = ndrxBneeded 1 2147483647 ∧
      ndrxBalloc 1 2147483647 (-1) (fun _ => some area) = some (.ok b) ∧
      badd b oneChar.bfldid oneChar.data oneChar.len = some ⟨.fail .bnospace, b, none⟩ := by
  have hsize : ndrxBneeded 1 2147483647 = 2147483723 := by decide
  obtain ⟨area, harea⟩ : ∃ area : List UInt8, area.length = 2147483723 :=
    ⟨replicate 2147483723 0, length_replicate⟩
  have hinit := binit_eq (show 60 ≤ area.length by omega)
    (show ¬usize (wrap32 2147483723) < 60 by decide)
  refine ⟨hsize, area, ⟨Header.init (wrap32 2147483723), enc32 0 ++ area.drop 60⟩, ?_, ?_,
    badd_oneChar (by decide) _⟩
  · omega
  · simp only [ndrxBalloc, ne_eq, not_true_eq_false, if_false, hsize, hinit]
    rfl

end Endurox.UBF
