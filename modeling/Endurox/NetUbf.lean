import Endurox.NetField
import Endurox.UBFNext

/-! UBF buffers in a call message: `exproto_build_ex2proto` walks the fields of the buffer and
those of the buffers nested in it, `_exproto_proto2ex` builds the buffers up again. The buffer is
the payload of the message, a master buffer of one or more entries. -/

namespace Endurox.NetProto

open Base Base.Tlv UBF

def ubfProtoTagMap : FldType → Int
  | .short => 0x1113
  | .long => 0x111D
  | .char => 0x1127
  | .float => 0x1131
  | .double => 0x113B
  | .string => 0x1145
  | .carray => 0x114F
  | .int => 0x1150
  | .rfu0 => 0x1151
  | .ptr => 0x1152
  | .ubf => 0x1153
  | .view => 0x1154

/-- `proto_ufb_fld_t` as the encoder fills it: `buf` is the memory behind the stored pointer. -/
structure UfbFld where
  bfldid : Int
  bfldlen : Int
  buf : List UInt8

/-- The rows of a table one after the other, without `accept` all of them. Each is a record, and
the value that was written is checked against its row. -/
def buildTable (size msgsizemax : Int) (body : Cproto → List UInt8 → Except Stop (List UInt8))
    (accept : Option (List Int)) : List Cproto → List UInt8 → Except Stop (List UInt8)
  | [], out => .ok out
  | p :: table, out =>
    if accept.all (p.tag ∈ ·) then
      (putFrame size .exfail p.tag.toNat (body p) out).bind (fun written =>
        if exprotoCklen msgsizemax p (written.drop (out.length+6)) then
          buildTable size msgsizemax body accept table written
        else .error .exfail)
    else buildTable size msgsizemax body accept table out

def ubfRow (size : Int) (sub : List UInt8 → List UInt8 → Except Stop (List UInt8)) (f : UfbFld)
    (p : Cproto) (out : List UInt8) : Except Stop (List UInt8) :=
  match p.type with
  | .fld => xCtonet size p (enc32 f.bfldid) 0 out
  | .fldPtr => xCtonet size p f.buf (if p.tag = ubfProtoTagMap .carray then f.bfldlen else 0) out
  | .atmiBufPtr =>
    match fldType f.bfldid with
    | some .ubf => sub f.buf out
    | some .view => .error .unmodelled
    | _ => .error .exfail
  | _ => .error .unmodelled

def ufbFld (b : UBFH) (f : Next) : UfbFld := ⟨f.bfldid, f.len, b.block.drop (f.data+56).toNat⟩

def ubfLoop (field : Next → List UInt8 → Except Stop (List UInt8)) (b : UBFH) :
    ℕ → Option (Except BErr (Option Next)) → List UInt8 → Except Stop (List UInt8)
  | 0, _, _ => .error .outside
  | _+1, none, _ => .error .outside
  | _+1, some (.error _), out => .ok out
  | _+1, some (.ok none), out => .ok out
  | fuel+1, some (.ok (some f)), out =>
    (field f out).bind (fun out => ubfLoop field b fuel (bnextAfter b f.pos) out)

def buildUbf (size msgsizemax : Int) : ℕ → List UInt8 → List UInt8 → Except Stop (List UInt8)
  | 0, _, _ => .error .outside
  | depth+1, data, out =>
    let b := UBFH.ofBytes data
    ubfLoop (fun f => buildTable size msgsizemax
        (ubfRow size (buildUbf size msgsizemax depth) (ufbFld b f))
        (some [0x10FF, ubfProtoTagMap f.type]) ubfField)
      b (b.mem.length+1) (bnextAt b 0) out

def alignedGen (n : Int) : Int := (n+3)/4*4

def mbufTagtag (tag : ℕ) : ℕ := tag % 67108864

def mbufType (tag : ℕ) : ℕ := tag/268435456

def bufTypeUbf : ℕ := 0
def bufTypeView : ℕ := 7

/-- The `ndrx_mbuf_tlv_t` at the front of `area`: its tag and its length. The data starts at 16. -/
def tlvTag (area : List UInt8) : ℕ := leNat (area.take 4)
def tlvLen (area : List UInt8) : Int := signedAt 8 (area.drop 8)

def mbufRow (size msgsizemax : Int) (area : List UInt8) (p : Cproto) (out : List UInt8) :
    Except Stop (List UInt8) :=
  match p.type with
  | .fld => xCtonet size p area 0 out
  | .atmiBuf =>
    if mbufType (tlvTag area) = bufTypeUbf then
      buildUbf size msgsizemax (area.length+1) (area.drop 16) out
    else if mbufType (tlvTag area) = bufTypeView then .error .unmodelled
    else if (out.length:Int)+tlvLen area > size then .error .exfail
    else if tlvLen area < 0 ∨ (area.drop 16).length < tlvLen area then .error .outside
    else .ok (out ++ (area.drop 16).take (tlvLen area).toNat)
  | _ => .error .unmodelled

def buildMbufLoop (size msgsizemax : Int) :
    ℕ → List UInt8 → Int → ℕ → List UInt8 → Except Stop (List UInt8)
  | 0, _, _, _, _ => .error .outside
  | fuel+1, area, left, tagExp, out =>
    if left ≤ 0 then .ok out
    else if area.length < 16 then .error .outside
    else if mbufTagtag (tlvTag area) ≠ tagExp then .error .exfail
    else
      let next := alignedGen (tlvLen area)+16
      (buildTable size msgsizemax (mbufRow size msgsizemax area) none mbufTlvX out).bind (fun out =>
        buildMbufLoop size msgsizemax fuel (area.drop next.toNat) (left-next) (tagExp+1) out)

/-- `exproto_build_ex2proto` at a row for a master buffer: `dataLen` bytes at `area`. The length
check that follows is made with length 0. -/
def buildMbuf (size msgsizemax : Int) (fld : Cproto) (area : List UInt8) (dataLen : Int)
    (out : List UInt8) : Except Stop (List UInt8) :=
  (putFrame size .exfail fld.tag.toNat
      (buildMbufLoop size msgsizemax (area.length+1) area dataLen 0) out).bind (fun written =>
    if exprotoCklen msgsizemax fld [] then .ok written else .error .exfail)

/-- `proto_ufb_fld_t` as the decoder uses it: the value is put together in `buf`, the rest of a
system buffer, and added to the UBF buffer from there. -/
structure UfbScratch where
  bfldid : Int
  buf : List UInt8
  nextFld : BfldLocInfo

def ufbBufOffset : ℕ := 320

def newScratch (sysbuf : List UInt8) : Except Stop UfbScratch :=
  if sysbuf.length < ufbBufOffset then .error .outside
  else .ok ⟨0, sysbuf.drop ufbBufOffset, ⟨none, 0⟩⟩

def addField (f : UfbScratch) (b : UBFH) (len : Int) : Except Stop (UfbScratch × UBFH) :=
  match baddfast b f.bfldid f.buf len f.nextFld with
  | none => .error .outside
  | some (u, loc) =>
    match u.ret with
    | .succeed => .ok ({f with nextFld := loc}, u.buf)
    | .fail _ => .error .exfail

def initResult : Option (Ret × UBFH) → Except Stop UBFH
  | none => .error .outside
  | some (.fail _, _) => .error .exfail
  | some (.succeed, b) => .ok b

def openUbf (area : List UInt8) : Except Stop UBFH :=
  initResult (binit (UBFH.ofBytes area) (wrap32 area.length))

def closeUbf (b : UBFH) : UBFH := {b with hdr := {b.hdr with bufLen := b.hdr.bytesUsed}}

variable (msgsizemax : Int) (sysbuf : ℕ → List UInt8)

/-- One record of a UBF buffer. `nested` reads the fields of a nested buffer; `sysbuf` is what the
system buffer that is taken at a place of the message holds. -/
def ubfStep (nested : ℕ → List UInt8 → ℕ → UfbScratch × UBFH → Except Stop (ℕ × (UfbScratch × UBFH)))
    (pos : ℕ) (tag : Int) (fld : Cproto) (datap : List UInt8) (len : ℕ) (s : UfbScratch × UBFH) :
    Except Stop (UfbScratch × UBFH) :=
  if !exprotoCklen msgsizemax fld (datap.take len) then .error .exfail
  else match fld.type with
  | .fld =>
    (xNettoc fld datap len (enc32 s.1.bfldid) msgsizemax).map
      (fun r => ({s.1 with bfldid := dec32 r.1}, s.2))
  | .fldPtr =>
    (xNettoc fld datap len s.1.buf (msgsizemax-ufbBufOffset)).bind (fun r =>
      if ubfProtoTagMap .short ≤ tag ∧ tag ≤ ubfProtoTagMap .ptr then
        addField {s.1 with buf := r.1} s.2 r.2
      else .ok ({s.1 with buf := r.1}, s.2))
  | .atmiBufPtr =>
    match fldType s.1.bfldid with
    | some .ubf =>
      (newScratch (sysbuf pos)).bind (fun f =>
        (openUbf s.1.buf).bind (fun b =>
          (nested pos datap len (f, b)).bind (fun r =>
            addField {s.1 with buf := (closeUbf r.2.2).block} s.2 0)))
    | some .view => .error .unmodelled
    | _ => .error .exfail
  | _ => .error .unmodelled

def ubfProto2ex : ℕ → ℕ → List UInt8 → ℕ → UfbScratch × UBFH → Except Stop (ℕ × (UfbScratch × UBFH))
  | 0, _, _, _, _ => .error .outside
  | depth+1, pos, mem, left, s =>
    scan .exfail (getDescrFromTag ubfField) Cproto.last
      (ubfStep msgsizemax sysbuf (ubfProto2ex depth)) (left+1) pos mem left s

/-- One record of a master buffer entry; `area` is the memory of the entry up to the end of the
output buffer. -/
def mbufStep (pos : ℕ) (_tag : Int) (fld : Cproto) (datap : List UInt8) (len : ℕ)
    (area : List UInt8) : Except Stop (List UInt8) :=
  if !exprotoCklen msgsizemax fld (datap.take len) then .error .exfail
  else match fld.type with
  | .fld => (xNettoc fld datap len area area.length).map Prod.fst
  | .atmiBuf =>
    if area.length < 16 then .error .outside
    else if mbufType (tlvTag area) = bufTypeUbf then
      (newScratch (sysbuf pos)).bind (fun f =>
        (openUbf (area.drop 16)).bind (fun b =>
          (ubfProto2ex msgsizemax sysbuf (len+1) pos datap len (f, b)).map (fun r =>
            area.take 8 ++ intBytes 8 r.2.2.hdr.bytesUsed ++ (closeUbf r.2.2).block)))
    else if mbufType (tlvTag area) = bufTypeView then .error .unmodelled
    else if (area.length:Int) < 16+len then .error .exfail
    else .ok (area.take 8 ++ intBytes 8 len ++ datap.take len ++ area.drop (16+len))
  | _ => .error .unmodelled

/-- The loop of `_exproto_proto2ex_mbuf`: the memory of the entries, and their length. Only the
last entry is counted without what aligns the next one. -/
def mbufProto2ex : ℕ → ℕ → List UInt8 → ℕ → List UInt8 → Except Stop (List UInt8 × Int)
  | 0, _, _, _, _ => .error .outside
  | fuel+1, pos, mem, left, area =>
    (scan .exfail (getDescrFromTag mbufTlvX) Cproto.last (mbufStep msgsizemax sysbuf)
        (left+1) pos mem left area).bind (fun r =>
      let done := r.1-pos
      if done < left then
        let next := (alignedGen (tlvLen r.2)+16).toNat
        (mbufProto2ex fuel r.1 (mem.drop done) (left-done) (r.2.drop next)).map (fun rest =>
          (r.2.take next ++ rest.1, next+rest.2))
      else .ok (r.2, tlvLen r.2+16))

def callStep (pos : ℕ) (_tag : Int) (fld : Cproto) (datap : List UInt8) (len : ℕ)
    (s : List UInt8 × Int) : Except Stop (List UInt8 × Int) :=
  if !exprotoCklen msgsizemax fld (datap.take len) then .error .exfail
  else match fld.type with
  | .masterBuf => mbufProto2ex msgsizemax sysbuf (len+1) pos datap len s.1
  | _ => .error .unmodelled

def callProto2ex (mem : List UInt8) (left : ℕ) (s : List UInt8 × Int) :
    Except Stop (ℕ × (List UInt8 × Int)) :=
  scan .exfail (getDescrFromTag tpCommandCallX) Cproto.last (callStep msgsizemax sysbuf)
    (left+1) 0 mem left s

end Endurox.NetProto
