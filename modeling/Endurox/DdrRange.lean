import Endurox.DdrLayout

/-!
Which values a configured range contains, and that the struct built for the range, read back from
the segment, admits exactly those.
-/

namespace Endurox.Ddr

open Base List

-- The bounds are inclusive. A value of no routable type is in no bounded range.
def Val.atLeast (fpu : Fpu) (lower : CStr) : Val → Bool
  | .long x => atol lower.val ≤ x
  | .double x => fpu.lt (fpu.atof lower.val) x ∨ fpu.near x (fpu.atof lower.val)
  | .str s => lower.val ≤ s.val
  | .none => false

def Val.atMost (fpu : Fpu) (upper : CStr) : Val → Bool
  | .long x => x ≤ atol upper.val
  | .double x => fpu.lt x (fpu.atof upper.val) ∨ fpu.near x (fpu.atof upper.val)
  | .str s => s.val ≤ upper.val
  | .none => false

def Range.contains (fpu : Fpu) (v : Val) (r : Range) : Bool :=
  r.rangeMin.all (v.atLeast fpu) && r.rangeMax.all (v.atMost fpu)

def Range.group (r : Range) : Found :=
  if r.grp.getD star = star then none else some (r.grp.getD star).val

theorem strSz_eq {s : Option CStr} (h : (withNul s).length < 2147483648) :
    strSz s = (withNul s).length := by
  cases s with
  | none => rfl
  | some =>
    simp only [withNul, length_append, length_singleton] at h
    simp only [strSz, withNul, length_append, length_singleton]
    rw [wrap32_of_mem (by omega) (by omega)]
    omega

variable {a b : Option CStr}

theorem newRangeexpr_ok {seq : Routcritseq} (h : ndrxDdrNewRangeexpr a b = .ok seq) :
    (withNul a).length+(withNul b).length ≤ 2147483567 ∧ seq.flags = rangeFlags a b ∧
      seq.strrange = withNul a ++ withNul b ++ [0, 0, 0, 0] ∧
      seq.strrangeUpper = (if a.isSome && b.isSome then (withNul a).length else 0 : ℕ) ∧
      seq.lowerl = 0 ∧ seq.upperl = 0 := by
  unfold ndrxDdrNewRangeexpr at h
  simp only at h
  split at h
  · cases h
  rename_i hsz
  have hw := (wrap32_range (sizeofSeqDl+strSz b+strSz a)).2
  have hb : (withNul a).length+(withNul b).length ≤ 2147483567 := by
    simp only [sizeofSeqDl] at hsz hw
    omega
  cases h
  refine ⟨hb, rfl, rfl, ?_, rfl, rfl⟩
  have ha := strSz_eq (s := a) (by omega)
  cases a <;> cases b <;> simp [rangeFlags, has, flagMin, flagMax, flagDefaultVal, ha]

structure Texts (a b : Option CStr) (seq : Routcritseq) : Prop where
  dflt : has seq.flags flagDefaultVal = (a.isNone && b.isNone)
  min : has seq.flags flagMin = (a.isNone && b.isSome)
  max : has seq.flags flagMax = (a.isSome && b.isNone)
  strrange : seq.strrange = withNul a ++ withNul b ++ [0, 0, 0, 0]
  upperOff : seq.strrangeUpper = (if a.isSome && b.isSome then (withNul a).length else 0 : ℕ)

def IsLong (x : Int) : Prop := -9223372036854775808 ≤ x ∧ x < 9223372036854775808

theorem isLong_zero : IsLong 0 := ⟨by decide, by decide⟩

structure Built (fpu : Fpu) (ft : Int) (r : Range) (seq : Routcritseq) : Prop
    extends Texts r.rangeMin r.rangeMax seq where
  ok : seq.Ok
  grp : seq.grp = r.grp.getD star
  grpLen : seq.grp.val.length ≤ grpMax
  flagsLt : seq.flags < 16
  dgrp : has seq.flags flagDefaultGrp = decide (r.grp.getD star = star)
  textsLen : (withNul r.rangeMin).length+(withNul r.rangeMax).length ≤ 2147483567
  lowerRange : IsLong seq.lowerl
  upperRange : IsLong seq.upperl
  lower : ft = bfldLong ∨ ft = bfldDouble → ∀ t ∈ r.rangeMin,
    seq.lowerl = atol t.val ∧ seq.lowerd = fpu.atof t.val
  upper : ft = bfldLong ∨ ft = bfldDouble → ∀ t ∈ r.rangeMax,
    seq.upperl = atol t.val ∧ seq.upperd = fpu.atof t.val
  texts : ft ≠ bfldLong → ft ≠ bfldDouble → seq.len = 60+seq.strrange.length

theorem isLong_atol (s : List UInt8) : IsLong (atol s) := by
  have hclamp (x : Int) : IsLong (Text.clampLong x) := by
    simp only [IsLong, Text.clampLong]
    omega
  simp only [atol, Text.strtol]
  split <;> exact hclamp _

theorem flags_built (a b : Option CStr) (g : CStr) {flags : ℕ}
    (h : flags = if g = star then rangeFlags a b ||| flagDefaultGrp else rangeFlags a b) :
    flags < 16 ∧ has flags flagDefaultVal = (a.isNone && b.isNone) ∧
      has flags flagMin = (a.isNone && b.isSome) ∧ has flags flagMax = (a.isSome && b.isNone) ∧
      has flags flagDefaultGrp = decide (g = star) := by
  by_cases hg : g = star
  · rw [if_pos hg] at h
    simp only [h, hg]
    cases a <;> cases b <;>
      simp [rangeFlags, has, flagMin, flagMax, flagDefaultVal, flagDefaultGrp]
  · rw [if_neg hg] at h
    simp only [h, hg]
    cases a <;> cases b <;>
      simp [rangeFlags, has, flagMin, flagMax, flagDefaultVal, flagDefaultGrp]

theorem lowerText_eq {seq : Routcritseq} {t : CStr}
    (hs : seq.strrange = withNul a ++ withNul b ++ [0, 0, 0, 0])
    (h : a = some t ∨ a = none ∧ b = some t) : seq.lowerText = t.val := by
  rw [Routcritseq.lowerText, hs]
  rcases h with rfl | ⟨rfl, rfl⟩
  · simp only [withNul, append_assoc]
    exact cstr_append_nul t.property _
  · simp only [withNul, append_assoc]
    exact cstr_append_nul t.property _

theorem upperText_eq {seq : Routcritseq} {s t : CStr}
    (hs : seq.strrange = withNul (some s) ++ withNul (some t) ++ [0, 0, 0, 0])
    (hu : seq.strrangeUpper = (withNul (some s)).length) : seq.upperText = t.val := by
  rw [Routcritseq.upperText, hs, hu, Int.toNat_natCast, append_assoc, drop_left]
  simp only [withNul, append_assoc]
  exact cstr_append_nul t.property _

structure SameTexts (seq seq' : Routcritseq) : Prop where
  grp : seq'.grp = seq.grp
  flags : seq'.flags = seq.flags
  strrange : seq'.strrange = seq.strrange
  upperOff : seq'.strrangeUpper = seq.strrangeUpper

theorem Texts.of_same {seq seq' : Routcritseq} (h : Texts a b seq) (hs : SameTexts seq seq') :
    Texts a b seq' := by
  obtain ⟨-, hflags, hstr, hup⟩ := hs
  exact ⟨hflags ▸ h.dflt, hflags ▸ h.min, hflags ▸ h.max, hstr.trans h.strrange, hup.trans h.upperOff⟩

section

variable {seq seq' : Routcritseq} (ht : Texts a b seq) (hl : seq.lowerl = 0) (hu : seq.upperl = 0)
include ht hl hu

theorem numRange_ok {fpu : Fpu} {rex : List UInt8 → Bool} (h : numRange fpu rex seq = .ok seq') :
    SameTexts seq seq' ∧ seq'.len = 64 ∧ IsLong seq'.lowerl ∧ IsLong seq'.upperl ∧
      (∀ t ∈ a, seq'.lowerl = atol t.val ∧ seq'.lowerd = fpu.atof t.val) ∧
      ∀ t ∈ b, seq'.upperl = atol t.val ∧ seq'.upperd = fpu.atof t.val := by
  have hlow (x : Int) (seq2 : Routcritseq) (h2 : seq2 = {seq with len := x}) {t : CStr}
      (hh : a = some t ∨ a = none ∧ b = some t) : seq2.lowerText = t.val := by
    apply lowerText_eq _ hh
    rw [h2]
    exact ht.strrange
  have hl0 : IsLong seq.lowerl := hl ▸ isLong_zero
  have hu0 : IsLong seq.upperl := hu ▸ isLong_zero
  cases a with
  | none =>
    cases b with
    | none =>
      simp only [numRange, ht.dflt, Option.isNone_none, Bool.and_true, true_or, if_true] at h
      cases h
      exact ⟨⟨rfl, rfl, rfl, rfl⟩, rfl, hl0, hu0, by simp, by simp⟩
    | some t =>
      have htext := hlow sizeofSeq _ rfl (t := t) (.inr ⟨rfl, rfl⟩)
      simp [numRange, ht.dflt, ht.min, ht.max, htext] at h
      split at h
      · cases h
      cases h
      exact ⟨⟨rfl, rfl, rfl, rfl⟩, rfl, hl0, isLong_atol _, by simp, by simp⟩
  | some s =>
    have htext := hlow sizeofSeq _ rfl (t := s) (.inl rfl)
    cases b with
    | none =>
      simp [numRange, ht.dflt, ht.min, ht.max, htext] at h
      split at h
      · cases h
      cases h
      exact ⟨⟨rfl, rfl, rfl, rfl⟩, rfl, isLong_atol _, hu0, by simp, by simp⟩
    | some t =>
      have hup : Routcritseq.upperText {seq with len := sizeofSeq} = t.val :=
        upperText_eq ht.strrange ht.upperOff
      simp [numRange, ht.dflt, ht.min, ht.max, htext, hup] at h
      split at h
      · cases h
      split at h
      · cases h
      split at h
      · cases h
      cases h
      exact ⟨⟨rfl, rfl, rfl, rfl⟩, rfl, isLong_atol _, isLong_atol _, by simp, by simp⟩

theorem strRange_ok (hb : (withNul a).length+(withNul b).length ≤ 2147483567)
    (h : strRange seq = .ok seq') : SameTexts seq seq' ∧ seq'.len = 60+seq.strrange.length ∧
      IsLong seq'.lowerl ∧ IsLong seq'.upperl := by
  have hlen : (seq.strrange.length : Int) = (withNul a).length+(withNul b).length+4 := by
    rw [ht.strrange]
    simp
    omega
  have hone (t : CStr) : (withNul (some t)).length = t.val.length+1 := by
    simp [withNul]
  have hz : (withNul none).length = 0 := rfl
  have hsame {n : Int} (hn : n = 60+seq.strrange.length) (h : {seq with len := n} = seq') :
      SameTexts seq seq' ∧ seq'.len = 60+seq.strrange.length ∧ IsLong seq'.lowerl ∧
        IsLong seq'.upperl := by
    subst h
    exact ⟨⟨rfl, rfl, rfl, rfl⟩, hn, hl ▸ isLong_zero, hu ▸ isLong_zero⟩
  have hwrap {n : Int} (hn : n = 60+seq.strrange.length) : wrap32 n = 60+seq.strrange.length :=
    hn ▸ wrap32_of_mem (by omega) (by omega)
  cases a with
  | none =>
    cases b with
    | none =>
      simp [strRange, ht.dflt] at h
      exact hsame (by rw [sizeofSeq]; omega) h
    | some t =>
      have htext := lowerText_eq ht.strrange (t := t) (.inr ⟨rfl, rfl⟩)
      have h1 := hone t
      simp [strRange, ht.dflt, ht.min, ht.max, htext] at h
      exact hsame (hwrap (by rw [sizeofSeq]; omega)) h
  | some s =>
    have htext := lowerText_eq ht.strrange (t := s) (.inl rfl)
    have h1 := hone s
    cases b with
    | none =>
      simp [strRange, ht.dflt, ht.min, ht.max, htext] at h
      exact hsame (hwrap (by rw [sizeofSeq]; omega)) h
    | some t =>
      have h2 := hone t
      have hup := upperText_eq ht.strrange ht.upperOff
      simp [strRange, ht.dflt, ht.min, ht.max, htext, hup] at h
      split at h
      · cases h
      · exact hsame (hwrap (by rw [sizeofSeq]; omega)) (Except.ok.inj h)

end

/-- A range that is built says the same as its text. -/
theorem Range.build_ok {fpu : Fpu} {ft : Int} {r : Range} {seq : Routcritseq}
    (h : r.build fpu ft = .ok seq) : Built fpu ft r seq := by
  obtain ⟨s, hn, h⟩ := bind_eq_ok.mp h
  obtain ⟨hb, hflags, hstr, hup, hl0, hu0⟩ := newRangeexpr_ok hn
  simp only [ndrxDdrAddGroup] at h
  split at h
  · cases h
  split at h
  · cases h
  rename_i hlen
  set g := r.grp.getD star with hg
  set s1 : Routcritseq := {s with
    grp := g, flags := if g = star then s.flags ||| flagDefaultGrp else s.flags} with hs1
  have hfl : s1.flags = if g = star then rangeFlags r.rangeMin r.rangeMax ||| flagDefaultGrp
      else rangeFlags r.rangeMin r.rangeMax := by
    rw [← hflags]
  obtain ⟨hlt, hdflt, hmin, hmax, hdgrp⟩ := flags_built r.rangeMin r.rangeMax g hfl
  have ht : Texts r.rangeMin r.rangeMax s1 := ⟨hdflt, hmin, hmax, hstr, hup⟩
  have hsl : (s1.strrange.length : Int) =
      (withNul r.rangeMin).length+(withNul r.rangeMax).length+4 := by
    rw [ht.strrange]
    simp
    omega
  have hbuilt (same : SameTexts s1 seq) (hl : 64 ≤ seq.len ∧ seq.len ≤ 60+s1.strrange.length)
      (hlo : IsLong seq.lowerl) (hhi : IsLong seq.upperl)
      (hlower : ft = bfldLong ∨ ft = bfldDouble → ∀ t ∈ r.rangeMin,
        seq.lowerl = atol t.val ∧ seq.lowerd = fpu.atof t.val)
      (hupper : ft = bfldLong ∨ ft = bfldDouble → ∀ t ∈ r.rangeMax,
        seq.upperl = atol t.val ∧ seq.upperd = fpu.atof t.val)
      (htexts : ft ≠ bfldLong → ft ≠ bfldDouble → seq.len = 60+s1.strrange.length) :
      Built fpu ft r seq := {
    toTexts := ht.of_same same
    ok := ⟨hl.1, by rw [same.strrange]; exact hl.2, by omega⟩
    grp := same.grp
    grpLen := by rw [same.grp]; exact Nat.le_of_not_lt hlen
    flagsLt := by rw [same.flags]; exact hlt
    dgrp := by rw [same.flags]; exact hdgrp
    textsLen := hb
    lowerRange := hlo
    upperRange := hhi
    lower := hlower
    upper := hupper
    texts := by rw [same.strrange]; exact htexts }
  -- a numeric range is as long as the struct, the others carry their texts
  have hnum (rex : List UInt8 → Bool) (hft : ft = bfldLong ∨ ft = bfldDouble)
      (h : numRange fpu rex s1 = .ok seq) : Built fpu ft r seq := by
    obtain ⟨same, hl, hlo, hhi, hlower, hupper⟩ := numRange_ok ht hl0 hu0 h
    apply hbuilt same ⟨by omega, by omega⟩ hlo hhi (fun _ => hlower) (fun _ => hupper)
    intro h1 h2
    exact absurd hft (by simp [h1, h2])
  split at h
  · rename_i hd
    exact hnum floatExp (.inr hd) h
  split at h
  · rename_i hd
    exact hnum intExp (.inl hd) h
  rename_i hnd hnl
  obtain ⟨same, hl, hlo, hhi⟩ := strRange_ok ht hl0 hu0 hb h
  apply hbuilt same ⟨by omega, by omega⟩ hlo hhi _ _ (fun _ _ => hl)
  · intro hft
    exact absurd hft (by simp [hnd, hnl])
  · intro hft
    exact absurd hft (by simp [hnd, hnl])

def Routcritseq.view (seq : Routcritseq) : SeqView where
  grp := seq.grp.val
  lowerd := seq.lowerd
  upperd := seq.upperd
  lowerl := seq.lowerl
  upperl := seq.upperl
  len := seq.bytes.length
  flags := seq.flags
  strrangeUpper := seq.strrangeUpper

theorem Routcritseq.Ok.bytes_eq {seq : Routcritseq} (h : seq.Ok) :
    ∃ rest, seq.bytes = ({seq with len := (seq.bytes.length : Int)}.fields.take 8).flatten ++
        seq.strrange.take (seq.len.toNat-60) ++ rest := by
  have hlo := h.lo
  have hcut (x : Int) : {seq with len := x}.fields.flatten =
      ({seq with len := x}.fields.take 8).flatten ++ seq.strrange := by
    simp [fields]
  have hl (x : Int) : ({seq with len := x}.fields.take 8).flatten.length = 60 := by
    simp [fields]
  refine ⟨replicate ((seq.bytes.length:Int).toNat-seq.len.toNat) 0, ?_⟩
  conv_lhs => rw [bytes, ← h.bytes_length, hcut, take_append, hl,
    take_of_length_le (by rw [hl]; omega)]

theorem double_word (x : UInt64) : UInt64.ofNat (leNat (leBytes 8 x.toNat)) = x := by
  rw [leNat_leBytes, Nat.mod_eq_of_lt]
  · exact UInt64.ofNat_toNat
  · exact UInt64.toNat_lt x

variable {fpu : Fpu} {ft : Int} {r : Range} {seq : Routcritseq} {mem pre post : List UInt8}

theorem Built.readSeq_eq (h : Built fpu ft r seq) (hm : mem = pre ++ seq.bytes ++ post) :
    readSeq mem pre.length = .ok seq.view := by
  obtain ⟨rest, hb⟩ := h.ok.bytes_eq
  set fs := {seq with len := (seq.bytes.length : Int)}.fields.take 8 with hfs
  have hl : fs.flatten.length = 60 := by
    simp [hfs, Routcritseq.fields]
  have hpeek : peek (Abort.outside pre.length) mem pre.length 60 = .ok fs.flatten := by
    apply peek_eq
    have hm2 : mem = pre ++ fs.flatten ++ (seq.strrange.take (seq.len.toNat-60) ++ rest ++ post) := by
      rw [hm, hb]
      simp
    exact slice_eq_of_append hm2 rfl hl.symm
  have hfits := h.ok.bytes_bounds.2
  have hflags : (dec32 (enc32 (seq.flags:Int))).toNat = seq.flags := by
    have hlt := h.flagsLt
    rw [dec32_enc32_of_mem (by omega) (by omega), Int.toNat_natCast]
  have hupper : dec32 (enc32 seq.strrangeUpper) = seq.strrangeUpper := by
    have hlen := h.textsLen
    have hup := h.upperOff
    apply dec32_enc32_of_mem
    · rw [hup]
      omega
    · rw [hup]
      split <;> omega
  have hgrp : cstr (chars 16 seq.grp.val) = seq.grp.val := by
    have hlen := h.grpLen
    simp only [grpMax] at hlen
    rw [cstr_chars (by decide) seq.grp.property, take_of_length_le (by omega)]
  have hlen : dec32 (enc32 (seq.bytes.length:Int)) = seq.bytes.length :=
    dec32_enc32_of_mem (by omega) (by omega)
  -- the eight fields in front of the texts
  have hns : fs.map length = [16, 8, 8, 8, 8, 4, 4, 4] := by
    simp [hfs, Routcritseq.fields]
  have h0 : fs.flatten.take 16 = chars 16 seq.grp.val := field_at hns 0 rfl rfl rfl
  have h1 : (fs.flatten.drop 16).take 8 = leBytes 8 seq.lowerd.toNat := field_at hns 1 rfl rfl rfl
  have h2 : (fs.flatten.drop 24).take 8 = leBytes 8 seq.upperd.toNat := field_at hns 2 rfl rfl rfl
  have h3 : (fs.flatten.drop 32).take 8 = enc64 seq.lowerl := field_at hns 3 rfl rfl rfl
  have h4 : (fs.flatten.drop 40).take 8 = enc64 seq.upperl := field_at hns 4 rfl rfl rfl
  have h5 : (fs.flatten.drop 48).take 4 = enc32 (seq.bytes.length:Int) := field_at hns 5 rfl rfl rfl
  have h6 : (fs.flatten.drop 52).take 4 = enc32 (seq.flags:Int) := field_at hns 6 rfl rfl rfl
  have h7 : (fs.flatten.drop 56).take 4 = enc32 seq.strrangeUpper := field_at hns 7 rfl rfl rfl
  simp only [readSeq, hpeek, bind, Except.bind, h0, h1, h2, h3, h4, h5, h6, h7, hgrp, double_word,
    hlen, hflags, hupper, dec64_enc64_of_mem h.lowerRange.1 h.lowerRange.2,
    dec64_enc64_of_mem h.upperRange.1 h.upperRange.2]
  rfl

def Val.Of (ft : Int) : Val → Prop
  | .long _ => ft = bfldLong
  | .double _ => ft = bfldDouble
  | .str _ => ft ≠ bfldLong ∧ ft ≠ bfldDouble
  | .none => ft ≠ bfldLong ∧ ft ≠ bfldDouble

theorem fieldValue_of {buf : Buffer} {fldid : Int} {v : Val} (h : fieldValue buf ft fldid = some v) :
    v.Of ft := by
  unfold fieldValue at h
  split at h
  · rename_i hl
    obtain ⟨x, -, rfl⟩ := Option.map_eq_some_iff.mp h
    exact hl
  split at h
  · rename_i hd
    obtain ⟨x, -, rfl⟩ := Option.map_eq_some_iff.mp h
    exact hd
  · rename_i hl hd
    obtain ⟨_, -, rfl⟩ := Option.map_eq_some_iff.mp h
    split <;> exact ⟨hl, hd⟩

def Within (lo hi : ℕ) (rd : Read) : Prop := (lo:Int) ≤ rd.1 ∧ rd.1+rd.2 ≤ hi

theorem Within.mono {lo hi lo' hi' : ℕ} {rd : Read} (h : Within lo hi rd) (hlo : lo' ≤ lo)
    (hhi : hi ≤ hi') : Within lo' hi' rd := by
  unfold Within at h ⊢
  omega

section

variable {v : Val} {t : CStr} {off lo hi : ℕ}

theorem end_eq {l : Int} {d : UInt64}
    (hnum : ft = bfldLong ∨ ft = bfldDouble → l = atol t.val ∧ d = fpu.atof t.val)
    (hstr : ft ≠ bfldLong → ft ≠ bfldDouble →
      cstrAt mem off = some t.val ∧ lo ≤ off ∧ off+t.val.length+1 ≤ hi)
    (hv : v.Of ft) :
    ∃ rd, atMost fpu mem v l d off = .ok (v.atMost fpu t, rd) ∧
      atLeast fpu mem v l d off = .ok (v.atLeast fpu t, rd) ∧ ∀ p ∈ rd, Within lo hi p := by
  cases v with
  | long =>
    rw [(hnum (.inl hv)).1]
    exact ⟨[], rfl, rfl, by simp⟩
  | double =>
    rw [(hnum (.inr hv)).2]
    exact ⟨[], rfl, rfl, by simp⟩
  | str =>
    obtain ⟨htext, _, _⟩ := hstr hv.1 hv.2
    refine ⟨[((off:Int), t.val.length+1)], ?_, ?_, ?_⟩
    · simp [Ddr.atMost, peekStr_eq htext, bind, Except.bind, Val.atMost, strcmp_ne_gt]
    · simp [Ddr.atLeast, peekStr_eq htext, bind, Except.bind, Val.atLeast, strcmp_ne_lt]
    · intro p hp
      rw [mem_singleton.mp hp]
      simp only [Within]
      omega
  | none => exact ⟨[], rfl, rfl, by simp⟩

end

/-- Where the struct carries its texts, each of them stands behind the 60 bytes of the fields. -/
theorem Built.text_at {t : CStr} {x y : List UInt8} (h : Built fpu ft r seq)
    (hm : mem = pre ++ seq.bytes ++ post)
    (hsplit : withNul r.rangeMin ++ withNul r.rangeMax = x ++ withNul (some t) ++ y)
    (hl : ft ≠ bfldLong) (hd : ft ≠ bfldDouble) :
    cstrAt mem (pre.length+60+x.length) = some t.val ∧ pre.length ≤ pre.length+60+x.length ∧
      pre.length+60+x.length+t.val.length+1 ≤ pre.length+seq.bytes.length := by
  obtain ⟨rest, hb⟩ := h.ok.bytes_eq
  set hdr := ({seq with len := (seq.bytes.length : Int)}.fields.take 8).flatten with hhdr
  have hlen : hdr.length = 60 := by
    simp [hhdr, Routcritseq.fields]
  have hall : seq.strrange.take (seq.len.toNat-60) = seq.strrange := by
    apply take_of_length_le
    rw [h.texts hl hd]
    omega
  rw [hall, h.strrange, hsplit] at hb
  refine ⟨?_, by omega, ?_⟩
  · have hmem : mem = (pre ++ hdr ++ x) ++ t.val ++ 0 :: (y ++ [0, 0, 0, 0] ++ rest ++ post) := by
      rw [hm, hb]
      simp [withNul]
    exact cstrAt_of_append hmem (by rw [length_append, length_append, hlen]) t.property
  · have hlb := congrArg length hb
    simp only [withNul, length_append, length_singleton] at hlb
    omega

/-- The test on the segment is the test of the range, and reads nothing but its bytes. -/
theorem Built.inRange_eq {v : Val} (h : Built fpu ft r seq) (hv : v.Of ft)
    (hm : mem = pre ++ seq.bytes ++ post) :
    ∃ rd, inRange fpu mem v pre.length seq.view = .ok (r.contains fpu v, rd) ∧
      ∀ p ∈ rd, Within pre.length (pre.length+seq.bytes.length) p := by
  have hdflt : has seq.view.flags flagDefaultVal = _ := h.dflt
  have hmin : has seq.view.flags flagMin = _ := h.min
  have hmax : has seq.view.flags flagMax = _ := h.max
  have hoff : (pre.length:Int)+60 = (pre.length+60 : ℕ) := by omega
  unfold inRange Range.contains
  rw [hdflt, hmin, hmax, hoff]
  cases ha : r.rangeMin with
  | none =>
    cases hb : r.rangeMax with
    | none => exact ⟨[], rfl, by simp⟩
    | some t =>
      -- the only text is that of the upper end
      obtain ⟨rd, hr, -, hin⟩ := end_eq (fun hn => h.upper hn t hb)
        (h.text_at (x := []) (y := []) hm (by simp [ha, hb, withNul])) hv
      exact ⟨rd, hr, hin⟩
  | some s =>
    obtain ⟨rd, -, hr, hin⟩ := end_eq (fun hn => h.lower hn s ha)
      (h.text_at (x := []) hm (by rw [ha]; rfl)) hv
    have hr : atLeast fpu mem v seq.view.lowerl seq.view.lowerd (pre.length+60 : ℕ) =
        .ok (v.atLeast fpu s, rd) := hr
    cases hb : r.rangeMax with
    | none =>
      refine ⟨rd, ?_, hin⟩
      simp only [Option.all_none, Bool.and_true]
      exact hr
    | some t =>
      have hupper : seq.view.strrangeUpper = (withNul (some s)).length := by
        show seq.strrangeUpper = _
        rw [h.upperOff, ha, hb]
        rfl
      obtain ⟨rd', hr', -, hin'⟩ := end_eq (fun hn => h.upper hn t hb)
        (h.text_at (x := withNul (some s)) (y := []) hm (by simp [ha, hb])) hv
      have hr' : atMost fpu mem v seq.view.upperl seq.view.upperd
          (pre.length+60+(withNul (some s)).length : ℕ) = .ok (v.atMost fpu t, rd') := hr'
      have hoff2 : ((pre.length+60 : ℕ) : Int)+(withNul (some s)).length =
          (pre.length+60+(withNul (some s)).length : ℕ) := by omega
      rw [hupper, hoff2]
      generalize ((pre.length+60+(withNul (some s)).length : ℕ) : Int) = upperAt at hr' ⊢
      generalize ((pre.length+60 : ℕ) : Int) = lowerAt at hr ⊢
      by_cases hc : v.atLeast fpu s = true
      · refine ⟨rd ++ rd', ?_, ?_⟩
        · simp [hr, hr', hc, bind, Except.bind]
        · exact forall_mem_append.mpr ⟨hin, hin'⟩
      · refine ⟨rd, ?_, hin⟩
        simp [hr, hc, bind, Except.bind]

end Endurox.Ddr
