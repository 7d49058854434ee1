import Endurox.NetRoundTrip

/-! A UBF buffer as the payload of a call: it is sent as a master buffer of one entry, and put into
the memory of the receiver's. -/

namespace Endurox.NetProto

open Base Base.Tlv UBF List

/-- The `dataLen` bytes at `area` are a master buffer of one entry, a UBF buffer with these fields. -/
structure UbfPayload (area : List UInt8) (dataLen : Int) (fs : Fields) : Prop where
  tagtag : mbufTagtag (tlvTag area) = 0
  type : mbufType (tlvTag area) = bufTypeUbf
  len : 0 ≤ tlvLen area
  dataLen_eq : dataLen = tlvLen area+16
  carries : Carries (area.drop 16) fs

theorem le_alignedGen (n : Int) : n ≤ alignedGen n := by
  rw [alignedGen]
  omega

def tagRow : Cproto := row 0x132F .uint .fld 1 10

def bodyRow : Cproto := ⟨0x1343, .none, .atmiBuf, true, 0, pmsgmax⟩

def payloadRow : Cproto := row 0x11F9 .none .masterBuf 0 pmsgmax

def wireTag (tag : List UInt8) : List UInt8 := bcdBytes (numbuf .uint tag)

def wireEntry (tag : List UInt8) (fs : Fields) : List UInt8 :=
  frame 0x132F (wireTag tag) ++ frame 0x1343 (wire fs)

section

variable {tag : List UInt8} (htag : tag.length = 4)

include htag

theorem cklen_tag (msgsizemax : Int) : exprotoCklen msgsizemax tagRow (wireTag tag) = true := by
  have hlt := leNat_lt tag
  have htake : tag.take 4 = tag := by rw [← htag, take_length]
  have hmag : magnitude .uint tag < 10^10 := by
    show leNat (tag.take 4) < 10^10
    rw [htag] at hlt
    rw [htake]
    omega
  exact cklen_numbuf (show 0 < tagRow.fldType.width by decide) (fun h => absurd h (by decide))
    (by decide) hmag rfl (by decide) msgsizemax

theorem xCtonet_tag {size : Int} {out rest : List UInt8}
    (hfit : (out.length:Int)+(wireTag tag).length ≤ size) :
    xCtonet size tagRow (tag ++ rest) 0 out = .ok (out ++ wireTag tag) :=
  xCtonet_numbuf (show 0 < tagRow.fldType.width by decide) htag hfit

theorem xNettoc_tag (after : List UInt8) {area : List UInt8} (harea : 4 ≤ area.length) :
    xNettoc tagRow (wireTag tag ++ after) (wireTag tag).length area area.length =
      .ok (tag ++ area.drop 4, 0) := by
  rw [← htag]
  exact xNettoc_numbuf (show 0 < tagRow.fldType.width by decide) htag (fun h => absurd h (by decide))
    (show (4:Int) ≤ area.length by omega) harea

end

section

variable {size msgsizemax : Int} {fs : Fields} (hsend : Sendable fs)

include hsend

theorem buildUbf_fields {d : ℕ} {data out : List UInt8} (h : Carries data fs) (hd : data.length ≤ d)
    (hfit : (out.length:Int)+(wire fs).length+spare fs ≤ size)
    (hmax : ((wire fs).length:Int) ≤ msgsizemax) :
    buildUbf size msgsizemax (d+1) data out = .ok (out ++ wire fs) := by
  obtain ⟨_, rs, himg, hholds⟩ := h
  have hdepth := hholds.depth_le
  have hrecs := length_le_recsSize rs
  have hmem : recsSize rs ≤ (UBFH.ofBytes data).mem.length := by
    obtain ⟨_, hs⟩ := himg.slack
    rw [hs, length_append, ← recsSize]
    omega
  have hle : (UBFH.ofBytes data).mem.length ≤ data.length := by
    rw [ofBytes_mem, length_drop]
    omega
  have hrun := ubfLoop_fields fs (show Image _ ([] ++ rs) from himg) hholds hsend
    (show depth fs ≤ d by omega) hfit hmax
    (show rs.length < (UBFH.ofBytes data).mem.length+1 by omega)
  exact hrun

theorem buildMbufLoop_entry {area out : List UInt8} {dataLen : Int} (h : UbfPayload area dataLen fs)
    (hfit : (out.length:Int)+(wireEntry (area.take 4) fs).length+spare fs ≤ size)
    (hmax : ((wireEntry (area.take 4) fs).length:Int) ≤ msgsizemax) :
    buildMbufLoop size msgsizemax (area.length+1) area dataLen 0 out =
      .ok (out ++ wireEntry (area.take 4) fs) := by
  have hdata := h.carries.1
  rw [length_drop] at hdata
  have htag : (area.take 4).length = 4 := by rw [length_take]; omega
  rw [wireEntry, length_append, frame_length, frame_length] at hfit hmax
  have hfirst (o : List UInt8) (ho : o.length = out.length+6) :
      mbufRow size msgsizemax area tagRow o = .ok (o ++ wireTag (area.take 4)) := by
    have hsplit : area = area.take 4 ++ area.drop 4 := (take_append_drop 4 area).symm
    nth_rewrite 1 [hsplit]
    exact xCtonet_tag htag (by omega)
  have hlen : (out ++ frame tagRow.tag.toNat (wireTag (area.take 4))).length =
      out.length+(6+(wireTag (area.take 4)).length) := by
    rw [length_append, frame_length]
  have hsecond (o : List UInt8)
      (ho : o.length = (out ++ frame tagRow.tag.toNat (wireTag (area.take 4))).length+6) :
      mbufRow size msgsizemax area bodyRow o = .ok (o ++ wire fs) := by
    show (if mbufType (tlvTag area) = bufTypeUbf then _ else _) = _
    rw [if_pos h.type]
    exact buildUbf_fields hsend h.carries (by rw [length_drop]; omega) (by omega) (by omega)
  have hnext : dataLen-(alignedGen (tlvLen area)+16) ≤ 0 := by
    rw [h.dataLen_eq]
    exact sub_nonpos.mpr (Int.add_le_add_right (le_alignedGen _) 16)
  have hpos : ¬ dataLen ≤ 0 := by
    rw [h.dataLen_eq]
    exact not_le.mpr (Int.add_pos_of_nonneg_of_pos h.len (by decide))
  have hhead : ¬ area.length < 16 := by omega
  obtain ⟨k, hk⟩ : ∃ k, area.length = k+1 := ⟨area.length-1, by omega⟩
  rw [buildMbufLoop, if_neg hpos, if_neg hhead, if_neg (not_not_intro h.tagtag)]
  rw [show mbufTlvX = [tagRow, bodyRow] from rfl,
    buildTable_row _ hfirst (by omega) (cklen_tag htag msgsizemax),
    buildTable_row _ hsecond (by omega) (cklen_bytes rfl rfl rfl (by omega)), buildTable, Except.bind,
    hk, buildMbufLoop, if_pos hnext, wireEntry, append_assoc]
  rfl

theorem buildMbuf_entry {area out : List UInt8} {dataLen : Int} (h : UbfPayload area dataLen fs)
    (hfit : (out.length:Int)+6+(wireEntry (area.take 4) fs).length+spare fs ≤ size)
    (hmax : ((wireEntry (area.take 4) fs).length:Int) ≤ msgsizemax) :
    buildMbuf size msgsizemax payloadRow area dataLen out =
      .ok (out ++ frame 0x11F9 (wireEntry (area.take 4) fs)) := by
  have hck : exprotoCklen msgsizemax payloadRow [] = true :=
    cklen_bytes rfl rfl rfl (by rw [length_nil]; omega)
  have hput : putFrame size Stop.exfail payloadRow.tag.toNat
      (buildMbufLoop size msgsizemax (area.length+1) area dataLen 0) out =
      .ok (out ++ frame 0x11F9 (wireEntry (area.take 4) fs)) := by
    apply putFrame_ok
    · apply buildMbufLoop_entry hsend h _ hmax
      simp only [length_append, beBytes_length, length_cons, length_nil]
      omega
    · omega
  rw [buildMbuf, hput, Except.bind, if_pos hck]

end

theorem signedAt_intBytes {n x : ℕ} (hn : 0 < n) (hx : 2*x < 256^n) (rest : List UInt8) :
    signedAt n (intBytes n x ++ rest) = x := by
  have hlen : (intBytes n x).length = n := leBytes_length n _
  have hmod : ((x:Int) % 256^n).toNat = x := by
    rw [Int.emod_eq_of_lt (Int.natCast_nonneg x) (by exact_mod_cast (by omega : x < 256^n)),
      Int.toNat_natCast]
  have hval : leNat (intBytes n x) = x := by
    rw [intBytes, hmod, leNat_leBytes, Nat.mod_eq_of_lt (by omega)]
  have hhalf : (x:Int) < 256^n/2 := by
    have hx' : (2*x:Int) < 256^n := by exact_mod_cast hx
    have htwo := two_mul_half hn
    omega
  rw [signedAt, take_left' hlen, hval, wrap_of_mem (by omega) hhalf]

theorem depth_le_wire (fs : Fields) : depth fs ≤ (wire fs).length := by
  induction fs with
  | nil => exact Nat.zero_le _
  | data =>
    simp only [depth, wire, length_append]
    omega
  | sub =>
    simp only [depth, wire, length_append, frame_length]
    omega

theorem payload_of_block (area : List UInt8) {b : UBFH} {rs : List Rec} {fs : Fields} {n : Int}
    (hlen : 8 ≤ area.length) (htag : mbufTagtag (tlvTag area) = 0)
    (htype : mbufType (tlvTag area) = bufTypeUbf) (hlay : Layout b rs) (hholds : Holds rs fs)
    (hn : n = 72+memSize fs) :
    UbfPayload (area.take 8 ++ intBytes 8 b.hdr.bytesUsed ++ (closeUbf b).block) n fs := by
  generalize ha : area.take 8 ++ intBytes 8 b.hdr.bytesUsed ++ (closeUbf b).block = a
  have hused : b.hdr.bytesUsed = ((56+memSize fs : ℕ) : Int) := by
    rw [hlay.used, hholds.size]
    rfl
  have hlt := hlay.image.used_lt
  have hfront : (area.take 8).length = 8 := by rw [length_take]; omega
  have hword : (intBytes 8 b.hdr.bytesUsed).length = 8 := leBytes_length 8 _
  have htlv : tlvTag a = tlvTag area := by
    rw [← ha, tlvTag, append_assoc, take_append_of_le_length (by omega), take_take]
    rfl
  have hlenAt : tlvLen a = ((56+memSize fs : ℕ) : Int) := by
    rw [← ha, tlvLen, append_assoc, drop_left' hfront, hused]
    exact signedAt_intBytes (by decide) (by omega) _
  have hdrop : a.drop 16 = (closeUbf b).block := by
    rw [← ha]
    apply drop_left'
    rw [length_append, hfront, hword]
  refine ⟨by rw [htlv]; exact htag, by rw [htlv]; exact htype, ?_, ?_, ?_⟩
  · rw [hlenAt]
    exact Int.natCast_nonneg _
  · rw [hlenAt, hn]
    push_cast
    ring
  · obtain ⟨_, slack, hblock, _, himg⟩ := closeUbf_image hlay
    rw [hdrop, hblock]
    exact ⟨by rw [length_append]; omega, rs, himg.append (by omega) slack, hholds⟩

section

variable {msgsizemax : Int} {sysbuf : ℕ → List UInt8}

theorem mbufStep_tag {tag area : List UInt8} (htag : tag.length = 4) (harea : 4 ≤ area.length)
    (pos : ℕ) (after : List UInt8) :
    mbufStep msgsizemax sysbuf pos 0x132F tagRow (wireTag tag ++ after) (wireTag tag).length area =
      .ok (tag ++ area.drop 4) := by
  rw [mbufStep, take_left, cklen_tag htag]
  rw [xNettoc_tag htag after harea]
  rfl

variable {fs : Fields} {room : ℕ} {data mem : List UInt8} (hdata : Carries data fs)
  (hsend : Sendable fs) (hfits : Fits room fs) (hroom : (room:Int) = msgsizemax-ufbBufOffset)
  (hlo : 60 ≤ room) (hsys : ∀ p, (sysbuf p).length = room+ufbBufOffset) (hmem : Terminated mem fs)
  (hhi : msgsizemax < 2147483648)

include hdata hsend hfits hroom hlo hsys hmem hhi in
theorem mbufStep_body (pos : ℕ) (area : List UInt8) (hmax : ((wire fs).length:Int) ≤ msgsizemax)
    (htype : mbufType (tlvTag area) = bufTypeUbf) (harea : 76 ≤ area.length)
    (hfit : 72+memSize fs ≤ area.length) (hlt : area.length < 2147483648) :
    ∃ b rs, mbufStep msgsizemax sysbuf pos 0x1343 bodyRow (wire fs ++ mem) (wire fs).length area =
        .ok (area.take 8 ++ intBytes 8 b.hdr.bytesUsed ++ (closeUbf b).block) ∧
      Layout b rs ∧ Holds rs fs := by
  obtain ⟨-, _, himg, hholds⟩ := hdata
  obtain ⟨hscratch, hbuf⟩ := newScratch_ok (hsys pos)
  have hlen : (area.drop 16).length = area.length-16 := length_drop
  obtain ⟨b, hopen, hlay, hbl⟩ := openUbf_ok (show 60 ≤ (area.drop 16).length by omega) (by omega)
  have hused : b.hdr.bytesUsed = 56 := by rw [hlay.used]; rfl
  have hbuild : Building (⟨0, (sysbuf pos).drop ufbBufOffset, ⟨none, 0⟩⟩, b) [] room 0 :=
    ⟨hlay, hbuf, ⟨.inl rfl, le_refl 0⟩, fun r hr => by cases hr⟩
  obtain ⟨s, rs, hrun, hlay', hholds', -⟩ := scan_fields fs pos himg.ordered hholds hsend hfits
    (depth_le_wire fs) hroom hlo hhi hsys hmax hmem rfl (Nat.lt_succ_self _) hbuild
    (fun q _ => (id_bounds q).1.le) (by rw [hused, hbl]; omega)
  refine ⟨s.2, rs, ?_, hlay', hholds'⟩
  rw [mbufStep, take_left, cklen_bytes rfl rfl rfl hmax, if_neg (by decide)]
  rw [if_neg (by omega), if_pos htype, hscratch, Except.bind, hopen, Except.bind, ubfProto2ex, hrun]
  rfl

include hhi in
theorem scan_entry (pos : ℕ) {tag area : List UInt8}
    (hmax : ((wireEntry tag fs).length:Int) ≤ msgsizemax) (htag : tag.length = 4) (harea : 4 ≤ area.length) :
    scan .exfail (getDescrFromTag mbufTlvX) Cproto.last (mbufStep msgsizemax sysbuf)
        ((wireEntry tag fs).length+1) pos (wireEntry tag fs ++ mem) (wireEntry tag fs).length area =
      (mbufStep msgsizemax sysbuf (pos+(6+(wireTag tag).length)+6) 0x1343 bodyRow (wire fs ++ mem)
        (wire fs).length (tag ++ area.drop 4)).map (fun a => (pos+(wireEntry tag fs).length, a)) := by
  have hlen : (wireEntry tag fs).length = 6+(wireTag tag).length+(6+(wire fs).length) := by
    rw [wireEntry, length_append, frame_length, frame_length]
  obtain ⟨k, hk⟩ : ∃ k, (wireEntry tag fs).length = k+1 := ⟨(wireEntry tag fs).length-1, by omega⟩
  rw [hk, wireEntry, append_assoc]
  rw [scan_frame (show 0x132F < 32768 by decide) (by omega) (by omega)
    (show getDescrFromTag mbufTlvX ((0x132F : ℕ) : Int) = some tagRow by decide)]
  rw [show ((0x132F : ℕ) : Int) = 0x132F from rfl, mbufStep_tag htag harea, Except.bind]
  rw [scan_frame (show 0x1343 < 32768 by decide) (by omega) (by omega)
    (show getDescrFromTag mbufTlvX ((0x1343 : ℕ) : Int) = some bodyRow by decide)]
  rw [show pos+(6+(wireTag tag).length)+(6+(wire fs).length) = pos+(k+1) by omega]
  rfl

include hdata hsend hfits hroom hlo hsys hmem hhi in
theorem mbufProto2ex_entry (pos fuel : ℕ) {tag area : List UInt8}
    (hmax : ((wireEntry tag fs).length:Int) ≤ msgsizemax) (htag : tag.length = 4) (htagtag : mbufTagtag (leNat tag) = 0)
    (htype : mbufType (leNat tag) = bufTypeUbf) (harea : 76 ≤ area.length)
    (hfit : 72+memSize fs ≤ area.length) (hlt : area.length < 2147483648) :
    ∃ area', mbufProto2ex msgsizemax sysbuf (fuel+1) pos (wireEntry tag fs ++ mem)
        (wireEntry tag fs).length area = .ok (area', 72+memSize fs) ∧
      UbfPayload area' (72+memSize fs) fs := by
  have hnum : (tag ++ area.drop 4).length = area.length := by
    rw [length_append, length_drop]
    omega
  have htlv : tlvTag (tag ++ area.drop 4) = leNat tag := by
    rw [tlvTag, take_left' htag]
  have hlen : (wireEntry tag fs).length = 6+(wireTag tag).length+(6+(wire fs).length) := by
    rw [wireEntry, length_append, frame_length, frame_length]
  obtain ⟨_, _, hbody, hlay, hholds⟩ := mbufStep_body hdata hsend hfits hroom hlo hsys hmem hhi
    (pos+(6+(wireTag tag).length)+6) (tag ++ area.drop 4) (by omega) (by rw [htlv]; exact htype) (by omega) (by omega) (by omega)
  have hpayload := payload_of_block (tag ++ area.drop 4) (n := 72+memSize fs) (by omega)
    (by rw [htlv]; exact htagtag) (by rw [htlv]; exact htype) hlay hholds rfl
  refine ⟨_, ?_, hpayload⟩
  rw [mbufProto2ex, scan_entry hhi pos hmax htag (by omega), hbody, Except.map, Except.bind]
  rw [if_neg (by omega), ← hpayload.dataLen_eq]

include hhi in
theorem callProto2ex_payload {w : List UInt8} {s : List UInt8 × Int}
    (hw : (w.length:Int) ≤ msgsizemax) :
    callProto2ex msgsizemax sysbuf (frame 0x11F9 w ++ mem) (frame 0x11F9 w).length s =
      (mbufProto2ex msgsizemax sysbuf (w.length+1) 6 (w ++ mem) w.length s.1).map
        (fun s' => ((frame 0x11F9 w).length, s')) := by
  have hstep : callStep msgsizemax sysbuf (0+6) ((0x11F9 : ℕ) : Int) payloadRow (w ++ mem) w.length s =
      mbufProto2ex msgsizemax sysbuf (w.length+1) 6 (w ++ mem) w.length s.1 := by
    rw [callStep, take_left, cklen_bytes rfl rfl rfl hw]
    rfl
  rw [callProto2ex, frame_length, scan_frame (show 0x11F9 < 32768 by decide) (by omega) (by omega)
    (show getDescrFromTag tpCommandCallX ((0x11F9 : ℕ) : Int) = some payloadRow by decide), hstep]
  have hnext (s' : List UInt8 × Int) : (if payloadRow.last = true then
      Except.ok (0+(6+w.length), s') else
      scan .exfail (getDescrFromTag tpCommandCallX) Cproto.last (callStep msgsizemax sysbuf)
        (6+w.length) (0+(6+w.length)) mem (6+w.length-(6+w.length)) s') = .ok (6+w.length, s') := by
    rw [if_neg (by decide), scan_end (by omega) (by omega), Nat.zero_add]
  simp only [hnext]
  cases mbufProto2ex msgsizemax sysbuf (w.length+1) 6 (w ++ mem) w.length s.1 <;> rfl

end

/-- A UBF buffer of a call comes out at the other end with the fields it was sent with. -/
theorem ubf_payload_round_trip {size msgsizemax : Int} {sysbuf : ℕ → List UInt8} {room : ℕ}
    {fs : Fields} {area out rcv after : List UInt8} {dataLen n : Int}
    (h : UbfPayload area dataLen fs) (hsend : Sendable fs)
    (hsize : (out.length:Int)+6+(wireEntry (area.take 4) fs).length+spare fs ≤ size)
    (hmax : ((wireEntry (area.take 4) fs).length:Int) ≤ msgsizemax) (hhi : msgsizemax < 2147483648)
    (hroom : (room:Int) = msgsizemax-ufbBufOffset) (hlo : 60 ≤ room) (hfits : Fits room fs)
    (hsys : ∀ p, (sysbuf p).length = room+ufbBufOffset) (hrcv : 76 ≤ rcv.length)
    (hfit : 72+memSize fs ≤ rcv.length) (hlt : rcv.length < 2147483648) (hafter : Terminated after fs) :
    ∃ w rcv', buildMbuf size msgsizemax payloadRow area dataLen out = .ok (out ++ w) ∧
      callProto2ex msgsizemax sysbuf (w ++ after) w.length (rcv, n) =
        .ok (w.length, (rcv', 72+memSize fs)) ∧
      UbfPayload rcv' (72+memSize fs) fs := by
  have hlen := h.carries.1
  rw [length_drop] at hlen
  have htag : (area.take 4).length = 4 := by rw [length_take]; omega
  obtain ⟨rcv', hrun, hpayload⟩ := mbufProto2ex_entry h.carries hsend hfits hroom hlo hsys hafter hhi
    6 (wireEntry (area.take 4) fs).length hmax htag h.tagtag h.type hrcv hfit hlt
  exact ⟨frame 0x11F9 (wireEntry (area.take 4) fs), rcv', buildMbuf_entry hsend h hsize hmax,
    by rw [callProto2ex_payload hhi hmax, hrun]; rfl, hpayload⟩

section

variable (s : List UInt8) (hs : 0 ∉ s)

def stringBuf : UBFH where
  hdr := {Header.init (56+recsSize [stringRec s hs]) with
    bytesUsed := 56+recsSize [stringRec s hs]
    cacheCarrayOff := recsSize [stringRec s hs]
    cachePtrOff := recsSize [stringRec s hs]
    cacheUbfOff := recsSize [stringRec s hs]
    cacheViewOff := recsSize [stringRec s hs]}
  mem := recBytes [stringRec s hs]

def stringFields : Fields := .data 167772161 (s ++ [0]) .nil

def stringArea : List UInt8 :=
  replicate 8 0 ++ intBytes 8 (stringBuf s hs).hdr.bytesUsed ++ (closeUbf (stringBuf s hs)).block

theorem wire_stringFields : wire (stringFields s) = frame 0x10FF (wireId 167772161) ++
    (frame (ubfProtoTagMap .string).toNat s ++ []) := by
  show frame 0x10FF (wireId 167772161) ++ (frame (ubfProtoTagMap .string).toNat (s ++ [0]).dropLast ++ [])
    = _
  rw [dropLast_concat]

theorem wire_stringFields_length :
    (wire (stringFields s)).length = 6+(wireId 167772161).length+(6+s.length) := by
  rw [wire_stringFields, append_nil, length_append, frame_length, frame_length]

variable {s}

theorem Sendable.data {id : Int} {t : FldType} {v : List UInt8} {rest : Fields}
    (hty : fldType id = some t) (hp : Plain t) (hmin : NotMin t v) (hrest : Sendable rest) :
    Sendable (.data id v rest) := by
  refine ⟨fun t' ht' => ?_, hrest⟩
  rw [hty] at ht'
  cases ht'
  exact ⟨hp, hmin⟩

theorem stringFields_sendable : Sendable (stringFields s) :=
  .data (t := .string) rfl (by decide) trivial trivial

variable (hlen : s.length < 1000000)

include hlen

theorem stringBuf_layout : Layout (stringBuf s hs) [stringRec s hs] where
  slack := ⟨[], (append_nil _).symm⟩
  used := rfl
  len := rfl
  len_lt := by
    show (56:Int)+recsSize [stringRec s hs] < 2147483648
    have hdata : (stringRec s hs).data.length = s.length+1 := length_append
    have hpad : padLen (s.length+1) < 4 := Nat.mod_lt _ (by decide)
    rw [recsSize_cons, recsSize_nil, Rec.size_eq, hdata, show (stringRec s hs).type.hdrSize.toNat = 8 from rfl]
    omega
  magic := rfl
  ordered := pairwise_singleton _ _
  cache := by
    intro t off h
    cases t <;> first | (cases h; rfl) | cases h

theorem stringArea_payload :
    UbfPayload (stringArea s hs) (72+memSize (stringFields s)) (stringFields s) :=
  payload_of_block (replicate 8 0) (by decide) (by decide) (by decide) (stringBuf_layout hs hlen)
    ⟨_, [], rfl, rfl, fun h => (by cases h), rfl, rfl⟩ rfl

omit hlen in
theorem mbufStep_long {msgsizemax : Int} {sysbuf : ℕ → List UInt8} {room : ℕ} (pos : ℕ)
    {area mem : List UInt8} (hroom : (room:Int) = msgsizemax-ufbBufOffset)
    (hhi : msgsizemax < 2147483648) (hsys : ∀ p, (sysbuf p).length = room+ufbBufOffset)
    (hmax : ((wire (stringFields s)).length:Int) ≤ msgsizemax) (hlong : room < s.length+1)
    (htype : mbufType (tlvTag area) = bufTypeUbf) (harea : 76 ≤ area.length)
    (hlt : area.length < 2147483648) :
    mbufStep msgsizemax sysbuf pos 0x1343 bodyRow (wire (stringFields s) ++ mem)
      (wire (stringFields s)).length area = .error .exfail := by
  obtain ⟨hscratch, _⟩ := newScratch_ok (hsys pos)
  have hlen : (area.drop 16).length = area.length-16 := length_drop
  obtain ⟨_, hopen, -, -⟩ := openUbf_ok (show 60 ≤ (area.drop 16).length by omega) (by omega)
  have hwire := wire_stringFields s
  have hsize := wire_stringFields_length s
  have hstep (nested : ℕ → List UInt8 → ℕ → UfbScratch × UBFH → Except Stop (ℕ × (UfbScratch × UBFH)))
      (pos : ℕ) (u : UfbScratch × UBFH) :
      ubfStep msgsizemax sysbuf nested pos (ubfProtoTagMap .string) (typeRow .string) (s ++ ([] ++ mem))
        s.length u = .error .exfail := by
    have hck : exprotoCklen msgsizemax (typeRow .string) s = true :=
      cklen_bytes rfl rfl rfl (by omega)
    have hnet : xNettoc (typeRow .string) (s ++ ([] ++ mem)) s.length u.1.buf (msgsizemax-ufbBufOffset) =
        .error .exfail := by
      show (if (s.length:Int)+1 > msgsizemax-ufbBufOffset then _ else _) = _
      rw [if_pos (by omega)]
    rw [ubfStep, take_left, hck, if_neg (by decide)]
    show (xNettoc (typeRow .string) (s ++ ([] ++ mem)) s.length u.1.buf (msgsizemax-ufbBufOffset)).bind _ = _
    rw [hnet]
    rfl
  rw [mbufStep, take_left, cklen_bytes rfl rfl rfl hmax, if_neg (by decide)]
  show (if area.length < 16 then _ else if mbufType (tlvTag area) = bufTypeUbf then _ else _) = _
  rw [if_neg (by omega), if_pos htype, hscratch, Except.bind, hopen, Except.bind, ubfProto2ex]
  obtain ⟨k, hk⟩ : ∃ k, (wire (stringFields s)).length+1 = k+2 :=
    ⟨(wire (stringFields s)).length-1, by omega⟩
  rw [hk, hwire, append_assoc, append_assoc,
    scan_field (.inl (by decide)) (by decide) (by decide) (by omega) (by omega)
      (by rw [← hwire]; omega), hstep]
  rfl

end

def shortFields : Fields :=
  .data 1 [5, 0] (.data 1 [7, 0] (.data 2 [9, 0] (.data 167772161 [65, 0] .nil)))

def shortArea : List UInt8 :=
  replicate 8 0 ++ intBytes 8 shortBuf.hdr.bytesUsed ++ (closeUbf shortBuf).block

theorem shortArea_payload : UbfPayload shortArea 108 shortFields := by
  have hholds : Holds shortRecs shortFields := by simp [Holds, shortFields, shortRecs, stringRec]
  exact payload_of_block (replicate 8 0) (by decide) (by decide) (by decide) shortBuf_layout hholds rfl

theorem shortFields_sendable : Sendable shortFields := by
  have hstring : Sendable (.data 167772161 [65, 0] .nil) := stringFields_sendable (s := [65])
  have hmin (n : UInt8) (hn : signedAt 2 [n, 0] ≠ -32768) : NotMin .short [n, 0] := hn
  exact .data rfl (by decide) (hmin 5 (by decide)) (.data rfl (by decide) (hmin 7 (by decide))
    (.data rfl (by decide) (hmin 9 (by decide)) hstring))

theorem ubf_payload_round_trip_shortBuf :
    ∃ w rcv', buildMbuf 65552 65552 payloadRow shortArea 108 [] = .ok ([] ++ w) ∧
      callProto2ex 65552 (fun _ => replicate 65552 0) (w ++ [0]) w.length
        (replicate 120 0, 0) = .ok (w.length, (rcv', 72+memSize shortFields)) ∧
      UbfPayload rcv' (72+memSize shortFields) shortFields := by
  have hfits : Fits 65232 shortFields := by simp [Fits, shortFields]
  have hafter : Terminated [0] shortFields := by simp [Terminated, shortFields]
  exact ubf_payload_round_trip shortArea_payload shortFields_sendable (by decide +kernel)
    (by decide +kernel) (by decide) (show ((65232 : ℕ) : Int) = 65552-ufbBufOffset by decide) (by decide)
    hfits (fun _ => length_replicate) (by decide) (by decide) (by decide) hafter

/-- An output buffer of exactly the size of the message is not enough behind a STRING, and a string
that is within the limit of the table may be too long for the decoder. -/
theorem ubf_payload_lost :
    (UbfPayload (stringArea [65] (by decide)) 84 (stringFields [65]) ∧ Sendable (stringFields [65]) ∧
      6+(wireEntry ((stringArea [65] (by decide)).take 4) (stringFields [65])).length = 37 ∧
      buildMbuf 37 65552 payloadRow (stringArea [65] (by decide)) 84 [] = .error .exfail) ∧
    ∃ s hs dataLen w, UbfPayload (stringArea s hs) dataLen (stringFields s) ∧
      Sendable (stringFields s) ∧
      buildMbuf 131072 65552 payloadRow (stringArea s hs) dataLen [] = .ok w ∧ w.length ≤ 65552 ∧
      ∀ sysbuf rcv after n, (∀ p, (sysbuf p).length = 65552) → 76 ≤ rcv.length →
        rcv.length < 2147483648 →
        callProto2ex 65552 sysbuf (w ++ after) w.length (rcv, n) = .error .exfail := by
  refine ⟨⟨stringArea_payload (by decide) (by decide), stringFields_sendable, by decide +kernel,
    by decide +kernel⟩, ?_⟩
  have hs : 0 ∉ replicate 65232 (65 : UInt8) := by
    intro h
    exact absurd (eq_of_mem_replicate h) (by decide)
  have hlen : (replicate 65232 (65 : UInt8)).length = 65232 := length_replicate
  generalize replicate 65232 (65 : UInt8) = s at hs hlen
  have hp := stringArea_payload hs (by omega)
  have htag : (stringArea s hs).take 4 = [0, 0, 0, 0] := rfl
  have hwire : (wire (stringFields s)).length = 65249 := by
    rw [wire_stringFields_length, hlen, show (wireId 167772161).length = 5 by decide +kernel]
  have hentry : (wireEntry [0, 0, 0, 0] (stringFields s)).length = 65262 := by
    rw [wireEntry, length_append, frame_length, frame_length, hwire,
      show (wireTag [0, 0, 0, 0]).length = 1 by decide +kernel]
  have hsend : Sendable (stringFields s) := stringFields_sendable
  have hspare := spare_le (stringFields s)
  have hbuild : buildMbuf 131072 65552 payloadRow (stringArea s hs) (72+memSize (stringFields s)) [] =
      .ok ([] ++ frame 0x11F9 (wireEntry [0, 0, 0, 0] (stringFields s))) :=
    buildMbuf_entry hsend hp (by rw [htag, hentry, length_nil]; omega) (by rw [htag, hentry]; decide)
  rw [nil_append] at hbuild
  refine ⟨s, hs, _, _, hp, hsend, hbuild, by rw [frame_length, hentry]; decide, ?_⟩
  intro sysbuf rcv after n hsys hrcv hlt
  have hnum : ([0, 0, 0, 0] ++ rcv.drop 4).length = rcv.length := by
    rw [length_append, length_drop]
    show 4+(rcv.length-4) = rcv.length
    omega
  have htype : mbufType (tlvTag ([0, 0, 0, 0] ++ rcv.drop 4)) = bufTypeUbf := by
    rw [tlvTag, take_left' (show [(0 : UInt8), 0, 0, 0].length = 4 from rfl)]
    decide
  have hbody : mbufStep 65552 sysbuf (6+(6+(wireTag [0, 0, 0, 0]).length)+6) 0x1343 bodyRow
      (wire (stringFields s) ++ after) (wire (stringFields s)).length ([0, 0, 0, 0] ++ rcv.drop 4) =
      .error .exfail :=
    mbufStep_long _ (show ((65232 : ℕ) : Int) = 65552-ufbBufOffset by decide) (by decide) hsys
      (by rw [hwire]; decide) (by omega) htype (by omega) (by omega)
  rw [callProto2ex_payload (by decide) (by rw [hentry]; decide), mbufProto2ex,
    scan_entry (by decide) 6 (by rw [hentry]; decide) rfl (show 4 ≤ rcv.length by omega), hbody]
  rfl

end Endurox.NetProto
