import Endurox.NetWire
import Endurox.UBFAlloc

/-! A UBF buffer that is sent and received: the same fields with the same values, in the buffer
and in every buffer nested in it. -/

namespace Endurox.NetProto

open Base Base.Tlv UBF List

def memSize : Fields → ℕ
  | .nil => 0
  | .data id v rest => recSize ((fldType id).getD .carray) v.length+memSize rest
  | .sub _ inner rest => recSize .ubf (56+memSize inner)+memSize rest

def Fits (room : ℕ) : Fields → Prop
  | .nil => True
  | .data _ v rest => v.length ≤ room ∧ Fits room rest
  | .sub _ inner rest => 56+memSize inner ≤ room ∧ Fits room inner ∧ Fits room rest

def Terminated (mem : List UInt8) : Fields → Prop
  | .nil => True
  | .data id _ rest => (fldType id = some .string → 0 ∈ wire rest ++ mem) ∧ Terminated mem rest
  | .sub _ inner rest => Terminated (wire rest ++ mem) inner ∧ Terminated mem rest

theorem Holds.nested_length {r : Rec} {qs : List Rec} (hubf : r.type = .ubf)
    (hqs : Image (UBFH.ofBytes r.data) qs) : r.data.length = 56+recsSize qs := by
  have hok := r.data_ok
  rw [hubf] at hok
  have hused := hqs.used
  rw [hok.2.1] at hused
  omega

variable {rs : List Rec}

theorem Holds.size {fs : Fields} (h : Holds rs fs) : recsSize rs = memSize fs := by
  induction fs generalizing rs with
  | nil =>
    obtain rfl : rs = [] := h
    rfl
  | data id v rest ih =>
    obtain ⟨r, rs, rfl, rfl, -, rfl, hrest⟩ := h
    rw [recsSize_cons, memSize, ih hrest, r.type_eq, Option.getD_some, r.size_eq, recSize]
  | sub id _ rest ihinner ihrest =>
    obtain ⟨r, _, rfl, rfl, hubf, ⟨_, hqs, hinner⟩, hrest⟩ := h
    rw [recsSize_cons, memSize, ihrest hrest, r.size_eq, hubf, Holds.nested_length hubf hqs,
      ihinner hinner, recSize]

theorem Holds.depth_le {fs : Fields} (h : Holds rs fs) : depth fs ≤ recsSize rs := by
  induction fs generalizing rs with
  | nil => exact Nat.zero_le _
  | data id v rest ih =>
    obtain ⟨r, rs, rfl, -, -, -, hrest⟩ := h
    have := ih hrest
    rw [recsSize_cons, depth]
    omega
  | sub id _ rest ihinner ihrest =>
    obtain ⟨r, _, rfl, -, hubf, ⟨_, hqs, hinner⟩, hrest⟩ := h
    have h1 := ihinner hinner
    have h2 := ihrest hrest
    have h3 := Holds.nested_length hubf hqs
    have h4 := r.size_eq
    rw [recsSize_cons, depth]
    omega

theorem openUbf_ok {area : List UInt8} (hlo : 60 ≤ area.length) (hhi : area.length < 2147483648) :
    ∃ b, openUbf area = .ok b ∧ Layout b [] ∧ b.hdr.bufLen = area.length := by
  obtain ⟨b, hinit, hlay, hlen⟩ := binit_layout hlo hhi
  exact ⟨b, by rw [openUbf, hinit, initResult], hlay, hlen⟩

def LocOk (loc : BfldLocInfo) (rs : List Rec) (lo : Int) : Prop :=
  (loc.lastChecked = none ∨ loc.lastChecked = some (recsSize rs : Int)) ∧ loc.lastBaddfast ≤ lo

variable {b : UBFH} {f : UfbScratch} {t : FldType}

/-- A field that is not smaller than the others is added at the end. -/
theorem addField_ok {v : List UInt8}
    {len : Int} (hlay : Layout b rs) (hid : 0 < f.bfldid) (hty : fldType f.bfldid = some t)
    (hv : valueOf t f.buf len = some v) (hlast : ∀ r ∈ rs, r.id ≤ f.bfldid)
    (hloc : LocOk f.nextFld rs f.bfldid)
    (hroom : b.hdr.bytesUsed+recSize t v.length ≤ b.hdr.bufLen) :
    ∃ r b' loc, addField f b len = .ok ({f with nextFld := loc}, b') ∧ r.id = f.bfldid ∧
      r.data = v ∧ Layout b' (rs ++ [r]) ∧ b'.hdr.bufLen = b.hdr.bufLen ∧
      LocOk loc (rs ++ [r]) f.bfldid := by
  have hlen : v.length < 2147483648 := by
    have h1 := hlay.len_lt
    have h2 := hlay.used
    rw [recSize] at hroom
    omega
  have hnf (q : Int) (hq : f.nextFld.lastChecked = some q) : AddOk rs f.bfldid q := by
    rcases hloc.1 with hnone | hsome
    · rw [hnone] at hq
      cases hq
    · rw [hsome] at hq
      exact ⟨rs, [], (append_nil rs).symm, (Option.some.inj hq).symm, hlast⟩
  obtain ⟨r, b', ls, hadd, hrid, hrdata, _, ⟨hlay', hbuf⟩, -, -⟩ :=
    ndrxBadd_fits hlay hty hv hlen hid hroom
      (show ∀ q, (none : Option Int) = some q → StartOk rs f.bfldid q from fun q hq => by cases hq)
      hnf (.inl rfl)
  have hsplit : below Rec.id f.bfldid rs ++ occs Rec.id f.bfldid rs = rs := by
    have h := hlay.ordered.split f.bfldid
    rwa [above_eq_nil hlast, append_nil] at h
  have hall : setOccs Rec.id f.bfldid (occs Rec.id f.bfldid rs ++ [r]) rs = rs ++ [r] := by
    rw [setOccs, above_eq_nil hlast, append_nil, ← append_assoc, hsplit]
  rw [hsplit] at hadd
  rw [hall] at hlay'
  have hvalid : validateEntry b f.bfldid 0 false = .succeed := by
    rw [validateEntry, if_neg (by simp [hlay.magic]), if_neg (by omega), if_neg (by simp [hty]),
      if_neg (by omega)]
  have hrun : baddfast b f.bfldid f.buf len f.nextFld =
      some (⟨.succeed, b', ls⟩, ⟨some (recsSize (rs ++ [r]) : Int), f.bfldid⟩) := by
    have hle := hloc.2
    rw [baddfast, hvalid]
    rw [ndrxBaddfast, if_neg (by omega), hadd]
    rfl
  exact ⟨r, b', _, by rw [addField, hrun], hrid, hrdata, hlay', hbuf, .inr rfl, le_refl _⟩

theorem closeUbf_image (h : Layout b rs) :
    ∃ v slack, (closeUbf b).block = v ++ slack ∧ v.length = 56+recsSize rs ∧
      Image (UBFH.ofBytes v) rs := by
  obtain ⟨slack, hslack⟩ := h.slack
  have hcache (t : FldType) : (closeUbf b).hdr.cacheOff t = b.hdr.cacheOff t := by
    cases t <;> rfl
  refine ⟨(closeUbf b).hdr.toBytes ++ recBytes rs, slack, ?_, ?_, ?_⟩
  · rw [append_assoc, ← hslack]
    rfl
  · rw [length_append, Header.toBytes_length, recsSize]
  · exact h.image_bytes (show (closeUbf b).hdr.magic = b.hdr.magic from rfl)
      (show (closeUbf b).hdr.bytesUsed = b.hdr.bytesUsed from rfl) hcache rfl

theorem valueOf_close (h : Layout b rs) :
    ∃ v, valueOf .ubf (closeUbf b).block 0 = some v ∧ v.length = 56+recsSize rs ∧
      Image (UBFH.ofBytes v) rs := by
  obtain ⟨v, slack, hblock, hlen, himg⟩ := closeUbf_image h
  have himg' := himg.append (by omega) slack
  have hused := himg'.used
  refine ⟨v, ?_, hlen, himg⟩
  rw [valueOf, hblock, if_pos ⟨himg'.magic, by omega⟩]
  exact slice_front _ slack (by omega)

variable {msgsizemax : Int} {sysbuf : ℕ → List UInt8}
  {nested : ℕ → List UInt8 → ℕ → UfbScratch × UBFH → Except Stop (ℕ × (UfbScratch × UBFH))}

theorem ubfStep_id {id : Int} (hid : 0 < id) (hlt : id < 1000000000) (hmax : 4 ≤ msgsizemax)
    (pos : ℕ) (after : List UInt8) (s : UfbScratch × UBFH) :
    ubfStep msgsizemax sysbuf nested pos 0x10FF idRow (wireId id ++ after) (wireId id).length s =
      .ok ({s.1 with bfldid := id}, s.2) := by
  have hck := cklen_id hid hlt msgsizemax
  have hdec : dec32 (enc32 id) = id := dec32_enc32_of_mem (by omega) (by omega)
  have hnet : xNettoc idRow (wireId id ++ after) (wireId id).length (enc32 s.1.bfldid) msgsizemax =
      .ok (enc32 id, 0) := xNettoc_id after s.1.bfldid hmax
  rw [ubfStep, take_left, hck]
  show (xNettoc idRow (wireId id ++ after) (wireId id).length (enc32 s.1.bfldid) msgsizemax).map
    (fun r => ({s.1 with bfldid := dec32 r.1}, s.2)) = _
  rw [hnet, Except.map, hdec]

variable {mem : List UInt8}

theorem scan_field {id : Int} {w : List UInt8} {pos left fuel : ℕ}
    (ht : Plain t ∨ t = .ubf) (hid : 0 < id) (hlt : id < 1000000000) (hmax : 4 ≤ msgsizemax)
    (hw : w.length < 2147483648) (hleft : 6+(wireId id).length+(6+w.length) ≤ left)
    (s : UfbScratch × UBFH) :
    scan .exfail (getDescrFromTag ubfField) Cproto.last (ubfStep msgsizemax sysbuf nested) (fuel+2)
        pos (frame 0x10FF (wireId id) ++ (frame (ubfProtoTagMap t).toNat w ++ mem)) left s =
      (ubfStep msgsizemax sysbuf nested (pos+(6+(wireId id).length)+6) (ubfProtoTagMap t) (typeRow t)
          (w ++ mem) w.length ({s.1 with bfldid := id}, s.2)).bind
        (scan .exfail (getDescrFromTag ubfField) Cproto.last (ubfStep msgsizemax sysbuf nested) fuel
          (pos+(6+(wireId id).length)+(6+w.length)) mem
          (left-(6+(wireId id).length)-(6+w.length))) := by
  have hidlen := wireId_length hid hlt
  obtain ⟨-, htag, htaglt, hfind, hlast⟩ := typeRow_tag ht
  rw [htag] at hfind
  rw [scan_frame (show 0x10FF < 32768 by decide) (by omega) (by omega)
    (show getDescrFromTag ubfField ((0x10FF : ℕ) : Int) = some idRow by decide)]
  rw [show ((0x10FF : ℕ) : Int) = 0x10FF from rfl, ubfStep_id hid hlt hmax, Except.bind,
    if_neg (by decide)]
  rw [scan_frame htaglt hw (by omega) hfind]
  simp [hlast, ← htag]

/-- A state of the decoder: the records built up so far, the room for a value, and where the next
field, whose id is not below `lo`, goes. -/
structure Building (s : UfbScratch × UBFH) (rs : List Rec) (room : ℕ) (lo : Int) : Prop where
  layout : Layout s.2 rs
  room_eq : s.1.buf.length = room
  loc : LocOk s.1.nextFld rs lo
  last : ∀ r ∈ rs, r.id ≤ lo

variable {room : ℕ} {s : UfbScratch × UBFH}

theorem Building.mono {lo hi : Int} (h : Building s rs room lo) (hle : lo ≤ hi) :
    Building s rs room hi :=
  ⟨h.layout, h.room_eq, ⟨h.loc.1, h.loc.2.trans hle⟩, fun r hr => (h.last r hr).trans hle⟩

theorem Building.used_of {s' : UfbScratch × UBFH} {lo id : Int} {r : Rec}
    (h' : Building s' (rs ++ [r]) room lo) (h : Layout s.2 rs) (hrid : r.id = id)
    (hty : fldType id = some t) :
    s'.2.hdr.bytesUsed = s.2.hdr.bytesUsed+recSize t r.data.length := by
  rw [h'.layout.used, h.used, recsSize_append, recsSize_cons, recsSize_nil, r.size_eq,
    Rec.type_of_id hrid hty, recSize]
  omega

theorem Building.add
    {v : List UInt8} {len : Int} (h : Building (f, b) rs room f.bfldid) (hid : 0 < f.bfldid)
    (hty : fldType f.bfldid = some t) (hv : valueOf t f.buf len = some v)
    (hfit : b.hdr.bytesUsed+recSize t v.length ≤ b.hdr.bufLen) :
    ∃ r s, addField f b len = .ok s ∧ r.id = f.bfldid ∧ r.data = v ∧
      Building s (rs ++ [r]) room f.bfldid ∧ s.2.hdr.bufLen = b.hdr.bufLen := by
  obtain ⟨r, _, loc, hrun, hrid, hrdata, hlay, hbuf, hloc⟩ :=
    addField_ok h.layout hid hty hv h.last h.loc hfit
  refine ⟨r, _, hrun, hrid, hrdata, ⟨hlay, h.room_eq, hloc, ?_⟩, hbuf⟩
  intro x hx
  rcases mem_append.mp hx with hx | hx
  · exact h.last x hx
  · rw [mem_singleton.mp hx, hrid]

variable (sysbuf nested) in
theorem ubfStep_leaf {v : List UInt8} (h : Building (f, b) rs room f.bfldid) (hid : 0 < f.bfldid)
    (hty : fldType f.bfldid = some t) (hplain : Plain t) (hok : DataOk t v) (hmin : NotMin t v)
    (hroom : (room:Int) = msgsizemax-ufbBufOffset) (hv : v.length ≤ room)
    (hmax : ((wireValue t v).length:Int) ≤ msgsizemax) (hmem : t = .string → 0 ∈ mem)
    (hfit : b.hdr.bytesUsed+recSize t v.length ≤ b.hdr.bufLen) (pos : ℕ) :
    ∃ r s, ubfStep msgsizemax sysbuf nested pos (ubfProtoTagMap t) (typeRow t) (wireValue t v ++ mem)
        (wireValue t v).length (f, b) = .ok s ∧ r.id = f.bfldid ∧ r.data = v ∧
      Building s (rs ++ [r]) room f.bfldid ∧ s.2.hdr.bufLen = b.hdr.bufLen := by
  have hck := cklen_leaf hplain hok hmin hmax
  have hbuf : f.buf.length = room := h.room_eq
  obtain ⟨buf, len, hnet, hvalue, hlen⟩ := xNettoc_leaf hplain hok hmin hmem (hv.trans_eq hbuf.symm)
  rw [hbuf, hroom] at hnet
  have hptr : (typeRow t).type = .fldPtr ∧
      ubfProtoTagMap .short ≤ ubfProtoTagMap t ∧ ubfProtoTagMap t ≤ ubfProtoTagMap .ptr := by
    rcases hplain with rfl | rfl | rfl | rfl | rfl | rfl <;> decide
  have hstep : ubfStep msgsizemax sysbuf nested pos (ubfProtoTagMap t) (typeRow t)
      (wireValue t v ++ mem) (wireValue t v).length (f, b) = addField {f with buf := buf} b len := by
    rw [ubfStep, take_left, hck, if_neg (by decide), hptr.1]
    dsimp only
    rw [hnet, Except.bind, if_pos hptr.2]
  have h' : Building ({f with buf := buf}, b) rs room f.bfldid :=
    ⟨h.layout, hlen.trans hbuf, h.loc, h.last⟩
  rw [hstep]
  exact h'.add hid hty hvalue hfit

theorem newScratch_ok {buf : List UInt8} (hbuf : buf.length = room+ufbBufOffset) :
    newScratch buf = .ok ⟨0, buf.drop ufbBufOffset, ⟨none, 0⟩⟩ ∧
      (buf.drop ufbBufOffset).length = room := by
  rw [newScratch, if_neg (by omega), length_drop]
  exact ⟨rfl, by omega⟩

variable (msgsizemax) in
/-- A UBF in a field is decoded into a buffer of its own and then added. -/
theorem ubfStep_sub {w : List UInt8}
    {inner : Fields} {pos : ℕ} (h : Building (f, b) rs room f.bfldid) (hid : 0 < f.bfldid)
    (hty : fldType f.bfldid = some .ubf) (hlo : 60 ≤ room) (hhi : room < 2147483648)
    (hsys : (sysbuf pos).length = room+ufbBufOffset) (hmax : (w.length:Int) ≤ msgsizemax)
    (hfit : b.hdr.bytesUsed+recSize .ubf (56+memSize inner) ≤ b.hdr.bufLen)
    (hnested : ∀ s, Building s [] room 0 → s.2.hdr.bufLen = room →
      ∃ n s' qs, nested pos (w ++ mem) w.length s = .ok (n, s') ∧ Layout s'.2 qs ∧
        s'.2.hdr.bufLen = room ∧ Holds qs inner) :
    ∃ r s qs, ubfStep msgsizemax sysbuf nested pos (ubfProtoTagMap .ubf) (typeRow .ubf) (w ++ mem)
        w.length (f, b) = .ok s ∧ r.id = f.bfldid ∧ Image (UBFH.ofBytes r.data) qs ∧
      Holds qs inner ∧ Building s (rs ++ [r]) room f.bfldid ∧ s.2.hdr.bufLen = b.hdr.bufLen := by
  have hbuf : f.buf.length = room := h.room_eq
  obtain ⟨hscratch, hroom⟩ := newScratch_ok hsys
  obtain ⟨b0, hopen, hlay0, hlen0⟩ := openUbf_ok (hlo.trans_eq hbuf.symm) (by omega)
  rw [hbuf] at hlen0
  obtain ⟨_, s', qs, hrun, hlay, _, hinner⟩ := hnested
    (⟨0, (sysbuf pos).drop ufbBufOffset, ⟨none, 0⟩⟩, b0)
    ⟨hlay0, hroom, ⟨.inl rfl, le_refl 0⟩, fun r hr => by cases hr⟩ hlen0
  obtain ⟨_, hvalue, hvlen, himg⟩ := valueOf_close hlay
  have hck : exprotoCklen msgsizemax (typeRow .ubf) w = true := cklen_bytes rfl rfl rfl hmax
  have hstep : ubfStep msgsizemax sysbuf nested pos (ubfProtoTagMap .ubf) (typeRow .ubf) (w ++ mem)
      w.length (f, b) = addField {f with buf := (closeUbf s'.2).block} b 0 := by
    rw [ubfStep, take_left, hck, if_neg (by decide)]
    simp only [hty]
    rw [hscratch, Except.bind, hopen, Except.bind, hrun, Except.bind]
    exact rfl
  have hblock : (closeUbf s'.2).block.length = room := by
    have h1 := hlay.len
    rw [UBFH.block, length_append, Header.toBytes_length]
    show 56+s'.2.mem.length = room
    omega
  have h' : Building ({f with buf := (closeUbf s'.2).block}, b) rs room f.bfldid :=
    ⟨h.layout, hblock, h.loc, h.last⟩
  have hsize := hinner.size
  obtain ⟨r, s, hadd, hrid, hrdata, hbuild, hbl⟩ := h'.add hid hty hvalue (by rw [hvlen, hsize]; exact hfit)
  rw [hstep]
  exact ⟨r, s, qs, hadd, hrid, by rw [hrdata]; exact himg, hinner, hbuild, hbl⟩

/-- The fields are built up again, by induction on them. `qs` are the sender's records. -/
theorem scan_fields (fs : Fields) (pos : ℕ) {d left fuel : ℕ} {qs : List Rec} {lo : Int}
    (hqs : Ordered Rec.id qs) (hholds : Holds qs fs) (hsend : Sendable fs) (hfits : Fits room fs)
    (hdepth : depth fs ≤ d) (hroom : (room:Int) = msgsizemax-ufbBufOffset) (hlo : 60 ≤ room)
    (hhi : msgsizemax < 2147483648) (hsys : ∀ p, (sysbuf p).length = room+ufbBufOffset)
    (hmax : ((wire fs).length:Int) ≤ msgsizemax) (hmem : Terminated mem fs)
    (hleft : left = (wire fs).length) (hfuel : left < fuel) (hbuild : Building s rs room lo)
    (hlow : ∀ q ∈ qs, lo ≤ q.id) (hfit : s.2.hdr.bytesUsed+memSize fs ≤ s.2.hdr.bufLen) :
    ∃ s' rs', scan .exfail (getDescrFromTag ubfField) Cproto.last
        (ubfStep msgsizemax sysbuf (ubfProto2ex msgsizemax sysbuf d)) fuel pos (wire fs ++ mem) left s =
        .ok (pos+left, s') ∧ Layout s'.2 (rs ++ rs') ∧ Holds rs' fs ∧
      s'.2.hdr.bufLen = s.2.hdr.bufLen := by
  induction fs generalizing d pos left fuel qs rs s mem lo with
  | nil =>
    obtain rfl : left = 0 := hleft
    exact ⟨s, [], scan_end (by omega) (by decide), by rw [append_nil]; exact hbuild.layout, rfl,
      rfl⟩
  | data id v rest ih =>
    obtain ⟨q, qs, rfl, rfl, hne, rfl, hrest⟩ := hholds
    obtain ⟨hleaf, hsend⟩ := hsend
    obtain ⟨hplain, hmin⟩ := hleaf q.type q.type_eq
    obtain ⟨hv, hfits⟩ := hfits
    obtain ⟨hid, hlt⟩ := id_bounds q
    have hty : (fldType q.id).getD .carray = q.type := by rw [q.type_eq, Option.getD_some]
    simp only [wire, hty, length_append, frame_length, append_assoc] at hleft hmax ⊢
    simp only [memSize, hty] at hfit
    obtain ⟨fuel, rfl⟩ : ∃ k, fuel = k+2 := ⟨fuel-2, by omega⟩
    have hstart := hbuild.mono (hlow q (by simp))
    obtain ⟨r, s1, hstep, hrid, hrdata, hnext, hlen⟩ := ubfStep_leaf sysbuf
      (ubfProto2ex msgsizemax sysbuf d) (f := {s.1 with bfldid := q.id}) (b := s.2) {hstart with} hid
      q.type_eq hplain q.data_ok hmin hroom hv (by omega)
      (fun ht => hmem.1 (ht ▸ q.type_eq)) (by omega) (pos+(6+(wireId q.id).length)+6)
    have hgrow := hnext.used_of hstart.layout hrid q.type_eq
    rw [hrdata] at hgrow
    obtain ⟨s', rs', hrun, hlay, hholds', hlen'⟩ := ih (pos+(6+(wireId q.id).length)+
        (6+(wireValue q.type q.data).length)) (List.Pairwise.of_cons hqs) hrest hsend hfits hdepth
      (by omega) hmem.2 (show left-(6+(wireId q.id).length)-(6+(wireValue q.type q.data).length) =
        (wire rest).length by omega) (show _ < fuel by omega) hnext
      (fun x hx => rel_of_pairwise_cons hqs hx) (by omega)
    refine ⟨s', r :: rs', ?_, ?_, ?_, hlen'.trans hlen⟩
    · rw [scan_field (.inl hplain) hid hlt (by omega) (by omega) (by omega), hstep, Except.bind, hrun]
      congr 2
      omega
    · rwa [append_assoc] at hlay
    · exact ⟨r, rs', rfl, hrid, by rw [Rec.type_of_id hrid q.type_eq]; exact hne, hrdata, hholds'⟩
  | sub id inner rest ihinner ihrest =>
    obtain ⟨q, qs, rfl, rfl, hubf, ⟨_, himg, hinner⟩, hrest⟩ := hholds
    obtain ⟨hsendin, hsend⟩ := hsend
    obtain ⟨_, hfitsin, hfits⟩ := hfits
    obtain ⟨hid, hlt⟩ := id_bounds q
    have hty : fldType q.id = some .ubf := hubf ▸ q.type_eq
    simp only [wire, length_append, frame_length, append_assoc] at hleft hmax ⊢
    simp only [memSize] at hfit
    obtain ⟨d, rfl⟩ : ∃ k, d = k+1 := ⟨d-1, by rw [depth] at hdepth; omega⟩
    obtain ⟨_, hdepth⟩ := max_le_iff.mp hdepth
    obtain ⟨fuel, rfl⟩ : ∃ k, fuel = k+2 := ⟨fuel-2, by omega⟩
    have hstart := hbuild.mono (hlow q (by simp))
    -- The nested call is a run of its own, over an empty buffer and a system buffer of its own.
    have hnested (s0 : UfbScratch × UBFH) (h0 : Building s0 [] room 0) (hlen0 : s0.2.hdr.bufLen = room) :
        ∃ n s' qs, ubfProto2ex msgsizemax sysbuf (d+1) (pos+(6+(wireId q.id).length)+6)
            (wire inner ++ (wire rest ++ mem)) (wire inner).length s0 = .ok (n, s') ∧
          Layout s'.2 qs ∧ s'.2.hdr.bufLen = room ∧ Holds qs inner := by
      have hused : s0.2.hdr.bytesUsed = 56 := by rw [h0.layout.used]; rfl
      obtain ⟨s', qs', hrun, hlay, hholds, hlen⟩ := ihinner
        (pos+(6+(wireId q.id).length)+6) (d := d) himg.ordered hinner hsendin hfitsin (by omega) (by omega)
        hmem.1 rfl (Nat.lt_succ_self _) h0
        (fun x _ => (id_bounds x).1.le) (by omega)
      exact ⟨_, s', qs', hrun, hlay, hlen.trans hlen0, hholds⟩
    obtain ⟨r, _, qs', hstep, hrid, himg', hholds', hnext, hlen⟩ := ubfStep_sub msgsizemax
      (f := {s.1 with bfldid := q.id}) (b := s.2)
      {hstart with} hid hty hlo (by omega) (hsys _)
      (by omega) (by omega) hnested
    have hubf' : r.type = .ubf := Rec.type_of_id hrid hty
    have hgrow := hnext.used_of hstart.layout hrid hty
    rw [Holds.nested_length hubf' himg', hholds'.size] at hgrow
    obtain ⟨s', rs', hrun, hlay, hholds, hlen'⟩ := ihrest (pos+(6+(wireId q.id).length)+
        (6+(wire inner).length)) (List.Pairwise.of_cons hqs) hrest hsend hfits hdepth
      (by omega) hmem.2 (show left-(6+(wireId q.id).length)-(6+(wire inner).length) =
        (wire rest).length by omega) (show _ < fuel by omega) hnext
      (fun x hx => rel_of_pairwise_cons hqs hx) (by omega)
    refine ⟨s', r :: rs', ?_, ?_, ?_, hlen'.trans hlen⟩
    · rw [show (0x1153 : ℕ) = (ubfProtoTagMap .ubf).toNat from rfl,
        scan_field (.inr rfl) hid hlt (by omega) (by omega) (by omega), hstep, Except.bind, hrun]
      congr 2
      omega
    · rwa [append_assoc] at hlay
    · exact ⟨r, rs', rfl, hrid, hubf', ⟨qs', himg', hholds'⟩, hholds⟩

end Endurox.NetProto
