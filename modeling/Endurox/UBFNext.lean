import Endurox.UBFUpdate

/-! `ndrx_Bnext`, the walk over the fields of a buffer. It reads the records only, so that it also
runs over a buffer that lies inside a larger memory, as a nested field does. -/

namespace Endurox.UBF

open Base List

/-- The records of a buffer that is only read: what lies behind them and `buf_len` do not count. -/
structure Image (b : UBFH) (rs : List Rec) : Prop where
  slack : ∃ s, b.mem = recBytes rs ++ s
  used : b.hdr.bytesUsed = 56+recsSize rs
  used_lt : b.hdr.bytesUsed < 2147483648
  magic : b.hdr.magic = ubfMagic
  ordered : Ordered Rec.id rs
  cache : ∀ t off, b.hdr.cacheOff t = some off → off = sizeBelow t rs

variable {rs : List Rec}

theorem Layout.image {b : UBFH} (h : Layout b rs) : Image b rs := by
  refine {h with used_lt := ?_}
  have h1 := h.used
  have h2 := h.size_lt
  omega

/-- The field `ndrx_Bnext` has found: where its record lies, its id and type, and the length that
the type's step function reports. -/
structure Next where
  pos : Int
  bfldid : Int
  type : FldType
  len : Int

def Next.data (f : Next) : Int := f.pos+f.type.hdrSize

def bnextAt (b : UBFH) (p : Int) : Option (Except BErr (Option Next)) :=
  if b.eof p then some (.ok none)
  else (b.ld32 p).bind (fun id =>
    match fldType id with
    | none => some (.error .balignerr)
    | some t => (pNext t b p).map (fun step => .ok (some ⟨p, id, t, step.2⟩)))

def bnextAfter (b : UBFH) (p : Int) : Option (Except BErr (Option Next)) :=
  (b.ld32 p).bind (fun id =>
    match fldType id with
    | none => some (.error .balignerr)
    | some t => (pNext t b p).bind (fun step =>
        if b.checkAlign (p+step.1) then some (.error .balignerr) else bnextAt b (p+step.1)))

section

variable {b : UBFH} {rs pre post : List Rec} {r : Rec}

theorem Image.usedEnd (h : Image b rs) : b.usedEnd = recsSize rs := by
  rw [UBFH.usedEnd, h.used]
  omega

theorem Image.recAt (h : Image b (pre ++ r :: post)) : RecAt b (recsSize pre) r := by
  obtain ⟨s, hs⟩ := h.slack
  refine ⟨recBytes pre, recBytes post ++ s, ?_, rfl⟩
  rw [hs]
  simp

theorem Image.pNext (h : Image b (pre ++ r :: post)) :
    UBF.pNext r.type b (recsSize pre) = some ((r.size:Int), (r.data.length:Int)) := by
  apply h.recAt.pNext
  have h1 := h.used
  have h2 := h.used_lt
  rw [recsSize_append, recsSize_cons] at h1
  omega

theorem Image.bnextAt_rec (h : Image b (pre ++ r :: post)) :
    bnextAt b (recsSize pre) = some (.ok (some ⟨recsSize pre, r.id, r.type, r.data.length⟩)) := by
  have heof : b.eof (recsSize pre) = false := by
    have := r.size_pos
    rw [UBFH.eof, h.usedEnd, recsSize_append, recsSize_cons]
    simp only [decide_eq_false_iff_not]
    omega
  rw [bnextAt, heof, if_neg (by decide), h.recAt.ld32_id, Option.bind_some, r.type_eq]
  dsimp only
  rw [h.pNext, Option.map_some]

theorem Image.bnextAt_end (h : Image b rs) : bnextAt b (recsSize rs) = some (.ok none) := by
  rw [bnextAt]
  rw [UBFH.eof, h.usedEnd]
  simp

theorem Image.bnextAfter_rec (h : Image b (pre ++ r :: post)) :
    bnextAfter b (recsSize pre) = bnextAt b (recsSize (pre ++ [r])) := by
  have hnext : (recsSize pre:Int)+r.size = recsSize (pre ++ [r]) := by simp
  have halign : b.checkAlign (recsSize (pre ++ [r])) = false := by
    rw [UBFH.checkAlign, h.usedEnd]
    simp
  rw [bnextAfter, h.recAt.ld32_id, Option.bind_some, r.type_eq]
  dsimp only
  rw [h.pNext, Option.bind_some, hnext, halign, if_neg (by decide)]

theorem Image.data_drop (h : Image b (pre ++ r :: post)) :
    ∃ tail, b.block.drop ((recsSize pre:Int)+r.type.hdrSize+56).toNat = r.data ++ tail := by
  obtain ⟨s, hs⟩ := h.slack
  have hblock : b.block = (b.hdr.toBytes ++ recBytes pre ++ enc32 r.id ++
      r.head) ++ (r.data ++ (r.pad ++ recBytes post ++ s)) := by
    rw [UBFH.block, hs, recBytes_append, recBytes_cons, Rec.bytes]
    simp
  have hw := r.head_ok.length
  have hn : ((recsSize pre:Int)+r.type.hdrSize+56).toNat = (b.hdr.toBytes ++ recBytes pre ++
      enc32 r.id ++ r.head).length := by
    have hsize : (recBytes pre).length = recsSize pre := rfl
    simp only [length_append, Header.toBytes_length, enc32_length]
    omega
  exact ⟨_, by rw [hblock, hn, drop_left]⟩

/-- The calls of `Bnext` behind the one that gave `f` as occurrence `occ`. -/
def bnextFrom (b : UBFH) : ℕ → Next → ℕ → Option (Except BErr (List (Next × ℕ)))
  | 0, _, _ => none
  | fuel+1, f, occ => (bnextAfter b f.pos).bind fun
    | .error e => some (.error e)
    | .ok none => some (.ok [(f, occ)])
    | .ok (some g) => (bnextFrom b fuel g (if f.bfldid = g.bfldid then occ+1 else 0)).map
        (Except.map ((f, occ) :: ·))

def bnextAll (b : UBFH) : Option (Except BErr (List (Next × ℕ))) :=
  (bnextAt b 0).bind fun
    | .error e => some (.error e)
    | .ok none => some (.ok [])
    | .ok (some f) => bnextFrom b (b.mem.length+1) f 0

/-- Each record with the number of records before it that have its id. -/
def listed (pre : List Rec) : List Rec → List (Next × ℕ)
  | [] => []
  | r :: post => (⟨recsSize pre, r.id, r.type, r.data.length⟩, (occs Rec.id r.id pre).length) ::
      listed (pre ++ [r]) post

/-- The walk lists every field from the current one on. -/
theorem bnextFrom_listed {fuel : ℕ} (h : Image b (pre ++ r :: post)) (hf : post.length < fuel) :
    bnextFrom b fuel ⟨recsSize pre, r.id, r.type, r.data.length⟩ (occs Rec.id r.id pre).length =
      some (.ok (listed pre (r :: post))) := by
  induction fuel generalizing pre r post with
  | zero => omega
  | succ fuel ih =>
    rw [bnextFrom, h.bnextAfter_rec]
    cases post with
    | nil =>
      rw [h.bnextAt_end]
      rfl
    | cons s post =>
      have h' : Image b ((pre ++ [r]) ++ s :: post) := by simpa using h
      -- the records of one id stand together, so a new id has none before it
      have hocc : (if r.id = s.id then (occs Rec.id r.id pre).length+1 else 0) =
          (occs Rec.id s.id (pre ++ [r])).length := by
        split
        next he => simp [he, occs_cons]
        next hne =>
        rw [occs_eq_nil, length_nil]
        intro y hy heq
        have hrs := h'.ordered.cross r (by simp) s mem_cons_self
        rcases mem_append.mp hy with hy | hy
        · exact hne (hrs.antisymm (heq ▸ h.ordered.cross y hy r mem_cons_self))
        · exact hne (mem_singleton.mp hy ▸ heq)
      rw [h'.bnextAt_rec]
      simp only [Option.bind_some]
      rw [hocc, ih h' (by simpa using hf)]
      rfl

/-- `Bnext` gives every record once, in order and with its occurrence, and then ends. -/
theorem bnext_enumerates (h : Image b rs) : bnextAll b = some (.ok (listed [] rs)) := by
  cases rs with
  | nil =>
    have hat : bnextAt b 0 = some (.ok none) := h.bnextAt_end
    rw [bnextAll, hat]
    rfl
  | cons r post =>
    have h' : Image b ([] ++ r :: post) := h
    have hat := h'.bnextAt_rec
    have hfuel : post.length < b.mem.length+1 := by
      obtain ⟨s, hs⟩ := h.slack
      have hle := length_le_recsSize (r :: post)
      rw [hs, length_append, ← recsSize]
      rw [length_cons] at hle
      omega
    have hall := bnextFrom_listed h' hfuel
    simp only [recsSize_nil, Nat.cast_zero, occs_nil, length_nil] at hat hall
    simp only [bnextAll, hat, Option.bind_some, hall]

theorem bnext_enumerates_shortBuf : bnextAll shortBuf = some (.ok (listed [] shortRecs)) :=
  bnext_enumerates shortBuf_layout.image

/-- `Bfind` finds every occurrence there is, by search or by scan. -/
theorem bfind_finds_occ {bfldid : Int} {k : ℕ} (h : Layout b rs)
    (hk : (occs Rec.id bfldid rs)[k]? = some r) :
    ∃ p, bfind b bfldid k = some (.ok (p, r.data.length)) ∧ b.load p r.data.length = some r.data := by
  obtain ⟨hlt, hr⟩ := List.getElem?_eq_some_iff.mp hk
  have hrs := h.ordered.split bfldid
  rw [← take_append_drop k (occs Rec.id bfldid rs), drop_eq_getElem_cons hlt, hr, ← append_assoc,
    append_assoc _ (_ :: _)] at hrs
  have hid := (mem_occs.mp (mem_of_getElem? hk)).2
  have hty : fldType bfldid = some r.type := hid ▸ r.type_eq
  have hloc : locate b bfldid k = locateSlow b bfldid k := by
    rw [locate, binarySearchOk_eq hty]
    split
    next ht => exact (locateFast_eq_iff h hty ht (by omega)).mpr (.inr ⟨by omega, .inl (by omega)⟩)
    next => rfl
  have h' := h
  rw [← hrs] at h'
  have hhead := r.head_ok.length
  refine ⟨_, ?_, h'.recAt.load (x := enc32 r.id ++ r.head) (y := r.data) (z := r.pad) rfl⟩
  rw [bfind, h.validateEntry (hid ▸ r.id_pos) hty (by omega)]
  simp only [ndrxBfind, hloc, hty, Option.bind_eq_bind, Option.bind_some]
  rw [locateSlow_spec h hty r.data_ok.ne, if_pos (by omega)]
  simp only [Option.bind_some, Int.toNat_natCast]
  rw [show UBF.pNext r.type b (occAddr rs bfldid k) = _ from h'.pNext, occAddr, length_append,
    enc32_length]
  simp only [Option.bind_some]
  congr 3
  omega

theorem bfind_finds_occ_shortBuf : ∃ p, bfind shortBuf 1 (1 : ℕ) = some (.ok (p, 2)) ∧
    shortBuf.load p 2 = some [7, 0] :=
  bfind_finds_occ (r := shortRecs[1]) shortBuf_layout rfl

end

def Header.words (h : Header) : List Int :=
  [h.cacheLongOff, h.cacheCharOff, h.cacheFloatOff, h.cacheDoubleOff, h.cacheStringOff,
    h.cacheCarrayOff, h.cachePtrOff, h.cacheUbfOff, h.cacheViewOff, h.bufLen, h.opts, h.bytesUsed]

theorem Header.toBytes_eq (h : Header) :
    h.toBytes = [h.bufferType, h.version, h.magic[0], h.magic[1], h.magic[2], h.magic[3],
      h.padding[0], h.padding[1]] ++ h.words.flatMap enc32 := by
  have hmagic : h.magic.toList = [h.magic[0], h.magic[1], h.magic[2], h.magic[3]] := by
    apply ext_getElem (by simp)
    intro i h1 h2
    have hi : i < 4 := by simpa using h1
    interval_cases i <;> simp
  have hpadding : h.padding.toList = [h.padding[0], h.padding[1]] := by
    apply ext_getElem (by simp)
    intro i h1 h2
    have hi : i < 2 := by simpa using h1
    interval_cases i <;> simp
  rw [toBytes, hmagic, hpadding]
  simp [words]

theorem member_words (front : List UInt8) (ws : List Int) (m : List UInt8) {i : ℕ}
    (hi : i < ws.length) :
    Header.member (front ++ ws.flatMap enc32 ++ m) (front.length+4*i) = wrap32 (ws.getD i 0) := by
  induction ws generalizing front i with
  | nil => simp at hi
  | cons w ws ih =>
    cases i with
    | zero =>
      rw [Header.member, Nat.add_zero, append_assoc, drop_left,
        flatMap_cons, append_assoc, take_left' (enc32_length w), dec32_enc32]
      rfl
    | succ i =>
      have hsplit : front ++ (w :: ws).flatMap enc32 ++ m =
          (front ++ enc32 w) ++ ws.flatMap enc32 ++ m := by
        simp
      have hoff : front.length+4*(i+1) = (front ++ enc32 w).length+4*i := by
        rw [length_append, enc32_length]
        omega
      rw [hsplit, hoff, ih (front ++ enc32 w) (by simpa using hi)]
      rfl

theorem Header.ofBytes_toBytes (h : Header) (m : List UInt8) :
    (Header.ofBytes (h.toBytes ++ m)).magic = h.magic ∧
      (Header.ofBytes (h.toBytes ++ m)).bytesUsed = wrap32 h.bytesUsed ∧
      ∀ t, (Header.ofBytes (h.toBytes ++ m)).cacheOff t = (h.cacheOff t).map wrap32 := by
  have hword (i : ℕ) (hi : i < 12) :
      Header.member (h.toBytes ++ m) (8+4*i) = wrap32 (h.words.getD i 0) := by
    rw [toBytes_eq]
    exact member_words _ h.words m hi
  refine ⟨?_, ?_, ?_⟩
  · have hbytes : (Header.ofBytes (h.toBytes ++ m)).magic =
        #v[h.magic[0], h.magic[1], h.magic[2], h.magic[3]] := by
      rw [toBytes_eq]
      simp [ofBytes]
    rw [hbytes]
    apply Vector.ext
    intro i hi
    interval_cases i <;> rfl
  · exact hword 11 (by decide)
  · intro t
    cases t with
    | short | int | rfu0 => rfl
    | long => exact congrArg some (hword 0 (by decide))
    | char => exact congrArg some (hword 1 (by decide))
    | float => exact congrArg some (hword 2 (by decide))
    | double => exact congrArg some (hword 3 (by decide))
    | string => exact congrArg some (hword 4 (by decide))
    | carray => exact congrArg some (hword 5 (by decide))
    | ptr => exact congrArg some (hword 6 (by decide))
    | ubf => exact congrArg some (hword 7 (by decide))
    | view => exact congrArg some (hword 8 (by decide))

theorem ofBytes_mem (bs : List UInt8) : (UBFH.ofBytes bs).mem = bs.drop 56 := rfl

theorem Layout.image_bytes {b b' : UBFH} (h : Layout b rs) {h' : Header}
    (hmagic : h'.magic = b.hdr.magic) (hused : h'.bytesUsed = b.hdr.bytesUsed)
    (hcache : ∀ t, h'.cacheOff t = b.hdr.cacheOff t)
    (hb' : b' = UBFH.ofBytes (h'.toBytes ++ recBytes rs)) : Image b' rs := by
  obtain ⟨hm, hu, hc⟩ := Header.ofBytes_toBytes h' (recBytes rs)
  have hhdr : b'.hdr = Header.ofBytes (h'.toBytes ++ recBytes rs) := by
    rw [hb']
    rfl
  have hmem : b'.mem = recBytes rs := by
    rw [hb', ofBytes_mem, ← h'.toBytes_length, drop_left]
  rw [← hhdr] at hm hu hc
  have hlt := h.image.used_lt
  have hsize := h.used
  have hu' : b'.hdr.bytesUsed = b.hdr.bytesUsed := by
    rw [hu, hused, wrap32_of_mem (by omega) (by omega)]
  refine ⟨⟨[], ?_⟩, ?_, ?_, ?_, h.ordered, ?_⟩
  · rw [hmem, append_nil]
  · rw [hu', h.used]
  · rw [hu']
    exact hlt
  · rw [hm, hmagic, h.magic]
  · intro t off hoff
    rw [hc, hcache] at hoff
    obtain ⟨off', hoff', rfl⟩ := Option.map_eq_some_iff.mp hoff
    have hle : sizeBelow t rs ≤ recsSize rs := by
      exact (List.Sublist.flatMap filter_sublist _).length_le
    rw [h.cache t off' hoff', wrap32_of_mem (by omega) (by omega)]

theorem Image.append {data : List UInt8} (h : Image (UBFH.ofBytes data) rs)
    (hlen : 56 ≤ data.length) (tail : List UInt8) : Image (UBFH.ofBytes (data ++ tail)) rs := by
  have hhdr : (UBFH.ofBytes (data ++ tail)).hdr = (UBFH.ofBytes data).hdr := by
    have h1 := ofBytes_take_hdr (data ++ tail) hlen
    rw [take_left] at h1
    exact h1.symm
  obtain ⟨s, hs⟩ := h.slack
  refine ⟨⟨s ++ tail, ?_⟩, ?_, ?_, ?_, h.ordered, ?_⟩
  · rw [ofBytes_mem, drop_append_of_le_length hlen, ← append_assoc, ← hs, ofBytes_mem]
  · rw [hhdr]
    exact h.used
  · rw [hhdr]
    exact h.used_lt
  · rw [hhdr]
    exact h.magic
  · rw [hhdr]
    exact h.cache

end Endurox.UBF
