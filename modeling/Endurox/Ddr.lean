import Endurox.BaseRun
import Endurox.BaseStruct
import Endurox.BaseText
import Endurox.LinearHash

/-!
Data dependent routing: the ranges as the daemon builds them and the segment it lays them out in
(`ddr_ndrxd.c`), and the walk over that segment that routes a call (`ddr_atmi.c`).
-/

namespace Endurox.Ddr

open Base

def bufTypeUbf : Int := 0

def bfldLong : Int := 1

def bfldDouble : Int := 4

def bfldString : Int := 5

-- NDRX_DDR_FLAG_MIN, _MAX, _DEFAULT_VAL and _DEFAULT_GRP
def flagMin : ℕ := 1

def flagMax : ℕ := 2

def flagDefaultVal : ℕ := 4

def flagDefaultGrp : ℕ := 8

def has (flags flag : ℕ) : Bool := flags &&& flag ≠ 0

def grpMax : ℕ := 15

/-- The operations on `double`s that routing uses; a `double` is its 64 bits. -/
structure Fpu where
  atof : List UInt8 → UInt64
  lt : UInt64 → UInt64 → Bool
  /-- The test `fabs(a - b) < DOUBLE_EQUAL`. -/
  near : UInt64 → UInt64 → Bool

/-- Errors of the daemon while it builds and lays out the configuration; `outside` is an access
outside a memory block. -/
inductive CfgErr
  | malloc | invalidGroup | groupTooLong | invalidUpper | invalidLower | lowerGreater
  | noRoom | notDefined | svcFull | outside
  deriving DecidableEq

structure Routcritseq where
  grp : CStr
  lowerd : UInt64
  upperd : UInt64
  lowerl : Int
  upperl : Int
  len : Int
  flags : ℕ
  strrangeUpper : Int
  strrange : List UInt8

structure Routcrit where
  criterion : CStr
  criterionid : Int
  len : Int
  field : CStr
  bufferTypeId : CShort
  buftype : CStr
  fieldtypeid : CInt
  fldid : CInt
  rangesnr : Int

structure RoutcritType where
  routcrit : Routcrit
  seq : List Routcritseq

structure RoutcritHash where
  criterion : CStr
  criterionid : Int
  offset : Int
  btypes : List RoutcritType

structure Service where
  svcnm : CStr
  prio : Int
  cirterionid : Int
  criterion : CStr
  offset : Int

def sizeofSeqDl : Int := 80

def sizeofSeq : Int := 64

def emptyStr : CStr := ⟨[], by decide⟩

def star : CStr := ⟨[42], by decide⟩

def strSz (s : Option CStr) : Int :=
  match s with
  | none => 0
  | some s => wrap32 (s.val.length+1)

def withNul (s : Option CStr) : List UInt8 :=
  match s with
  | none => []
  | some s => s.val ++ [0]

def rangeFlags (rangeMin rangeMax : Option CStr) : ℕ :=
  match rangeMin, rangeMax with
  | none, none => flagDefaultVal
  | none, some _ => flagMin
  | some _, none => flagMax
  | some _, some _ => 0

def ndrxDdrNewRangeexpr (rangeMin rangeMax : Option CStr) : Except CfgErr Routcritseq :=
  let flags := rangeFlags rangeMin rangeMax
  let sz := wrap32 (sizeofSeqDl+strSz rangeMax+strSz rangeMin)
  -- a size that leaves the range of int is refused by malloc or too short for the copies
  if sz < sizeofSeqDl+(withNul rangeMin).length+(withNul rangeMax).length then .error .malloc
  else .ok {
    grp := emptyStr, lowerd := 0, upperd := 0, lowerl := 0, upperl := 0, len := 0, flags
    strrangeUpper := if has flags flagMin ∨ has flags flagMax ∨ has flags flagDefaultVal then 0
      else strSz rangeMin
    strrange := withNul rangeMin ++ withNul rangeMax ++ [0, 0, 0, 0] }

def isDigit (b : UInt8) : Bool := 48 ≤ b ∧ b ≤ 57

def skipSign (s : List UInt8) : List UInt8 :=
  match s with
  | 43 :: t => t
  | 45 :: t => t
  | t => t

def intExp (s : List UInt8) : Bool := skipSign s ≠ [] ∧ (skipSign s).all isDigit

def exponent (s : List UInt8) : Bool :=
  match s with
  | [] => true
  | c :: t => (c = 101 ∨ c = 100) ∧ intExp t

/-- The expression `^[-+]?(([0-9]*[.]?[0-9]+([ed][-+]?[0-9]+)?))$`. -/
def floatExp (s : List UInt8) : Bool :=
  let t := skipSign s
  match t.dropWhile isDigit with
  | 46 :: u => u.takeWhile isDigit ≠ [] ∧ exponent (u.dropWhile isDigit)
  | u => t.takeWhile isDigit ≠ [] ∧ exponent u

def atol (s : List UInt8) : Int := Text.strtol (s.map (fun b => Char.ofNat b.toNat))

def groupBad : List UInt8 := [64, 47, 32, 9, 44]

def Routcritseq.lowerText (seq : Routcritseq) : List UInt8 := cstr seq.strrange

def Routcritseq.upperText (seq : Routcritseq) : List UInt8 :=
  cstr (seq.strrange.drop seq.strrangeUpper.toNat)

def numRange (fpu : Fpu) (rex : List UInt8 → Bool) (seq : Routcritseq) :
    Except CfgErr Routcritseq :=
  let seq := {seq with len := sizeofSeq}
  if has seq.flags flagDefaultVal ∨ has seq.flags flagMin ∧ has seq.flags flagMax then .ok seq
  else if has seq.flags flagMin then
    if !rex seq.lowerText then .error .invalidUpper
    else .ok {seq with upperd := fpu.atof seq.lowerText, upperl := atol seq.lowerText}
  else if has seq.flags flagMax then
    if !rex seq.lowerText then .error .invalidLower
    else .ok {seq with lowerd := fpu.atof seq.lowerText, lowerl := atol seq.lowerText}
  else if !rex seq.lowerText then .error .invalidLower
  else if !rex seq.upperText then .error .invalidUpper
  -- the check is made on the doubles, for ranges over longs too
  else if fpu.lt (fpu.atof seq.upperText) (fpu.atof seq.lowerText) then .error .lowerGreater
  else .ok {seq with
    lowerd := fpu.atof seq.lowerText, lowerl := atol seq.lowerText
    upperd := fpu.atof seq.upperText, upperl := atol seq.upperText }

def strRange (seq : Routcritseq) : Except CfgErr Routcritseq :=
  if has seq.flags flagDefaultVal ∨ has seq.flags flagMin ∧ has seq.flags flagMax then
    .ok {seq with len := sizeofSeq}
  else if has seq.flags flagMin ∨ has seq.flags flagMax then
    .ok {seq with len := wrap32 (sizeofSeq+seq.lowerText.length+1)}
  else if strcmp seq.lowerText seq.upperText = .gt then .error .lowerGreater
  else .ok {seq with
    len := wrap32 (sizeofSeq+seq.lowerText.length+1+seq.upperText.length+1) }

def ndrxDdrAddGroup (fpu : Fpu) (fieldtypeid : Int) (seq : Routcritseq) (grp : Option CStr) :
    Except CfgErr Routcritseq :=
  let grp := grp.getD star
  if grp.val.any (groupBad.contains ·) then .error .invalidGroup
  else if grp.val.length > grpMax then .error .groupTooLong
  else
    let seq := {seq with
      grp, flags := if grp = star then seq.flags ||| flagDefaultGrp else seq.flags }
    if fieldtypeid = bfldDouble then numRange fpu floatExp seq
    else if fieldtypeid = bfldLong then numRange fpu intExp seq
    else strRange seq

structure Range where
  rangeMin : Option CStr
  rangeMax : Option CStr
  grp : Option CStr

structure Route where
  field : CStr
  bufferTypeId : CShort
  buftype : CStr
  fieldtypeid : CInt
  fldid : CInt
  ranges : List Range

structure Criterion where
  criterion : CStr
  routes : List Route

/-- The hashes of criteria and services have one entry for each name, and a service name is kept
in a `char` array of `MAXTIDENT+1`. -/
structure Config where
  criteria : List Criterion
  services : List Service
  criteria_nodup : (criteria.map Criterion.criterion).Nodup
  services_nodup : (services.map Service.svcnm).Nodup
  svcnm_length : ∀ svc ∈ services, svc.svcnm.val.length ≤ 30

def Range.build (fpu : Fpu) (fieldtypeid : Int) (r : Range) : Except CfgErr Routcritseq := do
  let seq ← ndrxDdrNewRangeexpr r.rangeMin r.rangeMax
  ndrxDdrAddGroup fpu fieldtypeid seq r.grp

def Route.build (fpu : Fpu) (criterion : CStr) (r : Route) : Except CfgErr RoutcritType := do
  let seq ← r.ranges.mapM (Range.build fpu r.fieldtypeid.val)
  .ok {
    routcrit := {
      criterion, criterionid := 0, len := 0, field := r.field, bufferTypeId := r.bufferTypeId
      buftype := r.buftype, fieldtypeid := r.fieldtypeid, fldid := r.fldid
      rangesnr := seq.length }
    seq }

def Criterion.build (fpu : Fpu) (c : Criterion) : Except CfgErr RoutcritHash := do
  let btypes ← c.routes.mapM (Route.build fpu c.criterion)
  .ok {criterion := c.criterion, criterionid := 0, offset := 0, btypes}

def sizeofRoutcrit : Int := 352

def Routcrit.fields (t : Routcrit) : List (List UInt8) :=
  [chars 16 t.criterion.val, enc32 t.criterionid, enc32 t.len, chars 31 t.field.val, [0],
    enc16 t.bufferTypeId.val, chars 257 t.buftype.val, List.replicate 16 0, [0],
    enc32 t.fieldtypeid.val, enc32 t.fldid.val, [0, 0, 0, 0], enc64 t.rangesnr]

def Routcritseq.fields (seq : Routcritseq) : List (List UInt8) :=
  [chars 16 seq.grp.val, leBytes 8 seq.lowerd.toNat, leBytes 8 seq.upperd.toNat,
    enc64 seq.lowerl, enc64 seq.upperl, enc32 seq.len, enc32 seq.flags, enc32 seq.strrangeUpper,
    seq.strrange]

def alignedGen (dsize : Int) : Int := (dsize+4-1).tdiv 4*4

structure Seg where
  mem : List UInt8
  pos : Int
  sizeLeft : Int

def putSeq (hdr : Int) (w : Seg) (seq : Routcritseq) : Except CfgErr Seg := do
  let orgLen := seq.len
  let seq := {seq with len := alignedGen seq.len}
  -- p_crit->len is counted up in the segment itself, before the room is checked
  let len ← peek .outside w.mem (hdr+20) 4
  let mem ← poke .outside w.mem (hdr+20) (enc32 (dec32 len+seq.len))
  if seq.len > w.sizeLeft then .error .noRoom
  else do
    let mem ← poke .outside mem w.pos (seq.fields.flatten.take orgLen.toNat)
    .ok ⟨mem, w.pos+seq.len, w.sizeLeft-seq.len⟩

def putSeqs (hdr : Int) : Seg → List Routcritseq → Except CfgErr Seg
  | w, [] => .ok w
  | w, seq :: seqs => do
    let w ← putSeq hdr w seq
    putSeqs hdr w seqs

def putBlock (critid : Int) (w : Seg) (t : RoutcritType) : Except CfgErr Seg :=
  if sizeofRoutcrit > w.sizeLeft then .error .noRoom
  else do
    let mem ← poke .outside w.mem w.pos {t.routcrit with criterionid := critid}.fields.flatten
    let mem ← poke .outside mem (w.pos+20) (enc32 sizeofRoutcrit)
    putSeqs w.pos ⟨mem, w.pos+sizeofRoutcrit, w.sizeLeft-sizeofRoutcrit⟩ t.seq

def putBlocks (critid : Int) : Seg → List RoutcritType → Except CfgErr Seg
  | w, [] => .ok w
  | w, t :: ts => do
    let w ← putBlock critid w t
    putBlocks critid w ts

def ndrxDdrCriterionPut : Int → Seg → List RoutcritHash → Except CfgErr (Seg × List RoutcritHash)
  | _, w, [] => .ok (w, [])
  | critid, w, el :: els => do
    let w' ← putBlocks critid w el.btypes
    let (w'', els) ← ndrxDdrCriterionPut (wrap32 (critid+1)) w' els
    .ok (w'', {el with criterionid := critid, offset := w.pos} :: els)

structure Services (N : ℕ) where
  keys : LinearHash.Mem N CStr
  data : Fin N → Service

section

variable {N : ℕ} (hash : CStr → Fin N)

def ndrxDdrServicesPut (tab : Services N) (svc : Service) : Except CfgErr (Services N) :=
  match LinearHash.ndrxLhPositionGet hash tab.keys svc.svcnm true with
  | none => .error .svcFull
  | some r =>
    if r.ret then .ok {
      keys := Function.update tab.keys r.pos ⟨svc.svcnm, true, true⟩
      data := Function.update tab.data r.pos svc }
    else .error .svcFull

def resolve (routes : List RoutcritHash) (svc : Service) : Except CfgErr Service :=
  if svc.criterion = emptyStr then .ok svc
  else match routes.find? (fun rt => rt.criterion = svc.criterion) with
    | none => .error .notDefined
    | some rt => .ok {svc with offset := rt.offset, cirterionid := rt.criterionid}

def putServices (routes : List RoutcritHash) :
    Services N → List Service → Except CfgErr (Services N)
  | tab, [] => .ok tab
  | tab, el :: els => do
    let svc ← resolve routes el
    let tab ← ndrxDdrServicesPut hash tab svc
    putServices routes tab els

structure Blocks (N : ℕ) where
  routing : List UInt8
  services : Services N

def SegSize := {n : ℕ // 0 < n ∧ n < 2147483648}

def noService : Service := ⟨emptyStr, 0, 0, emptyStr, 0⟩

def ndrxDdrGenBlocks (rtcrtmax : SegSize) (routes : List RoutcritHash) (services : List Service) :
    Except CfgErr (Blocks N) := do
  let (w, routes) ← ndrxDdrCriterionPut 1
    ⟨List.replicate rtcrtmax.val 0, 0, rtcrtmax.val⟩ routes
  let tab ← putServices hash routes
    ⟨LinearHash.fresh (fun _ => emptyStr), fun _ => noService⟩ services
  .ok ⟨w.mem, tab⟩

def Config.load (fpu : Fpu) (rtcrtmax : SegSize) (cfg : Config) : Except CfgErr (Blocks N) := do
  let routes ← cfg.criteria.mapM (Criterion.build fpu)
  ndrxDdrGenBlocks hash rtcrtmax routes cfg.services

end

structure Buffer where
  typeId : Int
  getLong : Int → Option Int
  getDouble : Int → Option UInt64
  getString : Int → Option CStr

/-- The value of the routing field. With a field type that is none of the three the string is
fetched and never compared. -/
inductive Val
  | long (x : Int)
  | double (x : UInt64)
  | str (s : CStr)
  | none

/-- How a call can end without returning: a failed `assert`, a read outside the segment, a value
that was never set, or a walk that does not end. -/
inductive Abort
  | assertion
  | outside (off : Int)
  | unset
  | diverges
  deriving DecidableEq

inductive TpErr
  | invalidBuffer
  | fieldNotFound (field : List UInt8)
  | nameTooLong (lenNew : Int)
  | notFound
  deriving DecidableEq

abbrev Read := Int × ℕ

def fieldValue (buf : Buffer) (fieldtypeid fldid : Int) : Option Val :=
  if fieldtypeid = bfldLong then (buf.getLong fldid).map .long
  else if fieldtypeid = bfldDouble then (buf.getDouble fldid).map .double
  else (buf.getString fldid).map (fun s => if fieldtypeid = bfldString then .str s else .none)

section

variable (fpu : Fpu) (mem : List UInt8)

def atMost (v : Val) (upperl : Int) (upperd : UInt64) (stroff : Int) :
    Except Abort (Bool × List Read) :=
  match v with
  | .long x => .ok (x ≤ upperl, [])
  | .double x => .ok (fpu.lt x upperd ∨ fpu.near x upperd, [])
  | .str s => do
    let t ← peekStr (.outside stroff) mem stroff
    .ok (strcmp s.val t ≠ .gt, [(stroff, t.length+1)])
  | .none => .ok (false, [])

def atLeast (v : Val) (lowerl : Int) (lowerd : UInt64) (stroff : Int) :
    Except Abort (Bool × List Read) :=
  match v with
  | .long x => .ok (x ≥ lowerl, [])
  | .double x => .ok (fpu.lt lowerd x ∨ fpu.near x lowerd, [])
  | .str s => do
    let t ← peekStr (.outside stroff) mem stroff
    .ok (strcmp s.val t ≠ .lt, [(stroff, t.length+1)])
  | .none => .ok (false, [])

structure SeqView where
  grp : List UInt8
  lowerd : UInt64
  upperd : UInt64
  lowerl : Int
  upperl : Int
  len : Int
  flags : ℕ
  strrangeUpper : Int

def readSeq (off : Int) : Except Abort SeqView := do
  let bs ← peek (.outside off) mem off 60
  .ok {
    grp := cstr (bs.take 16)
    lowerd := UInt64.ofNat (leNat ((bs.drop 16).take 8))
    upperd := UInt64.ofNat (leNat ((bs.drop 24).take 8))
    lowerl := dec64 ((bs.drop 32).take 8)
    upperl := dec64 ((bs.drop 40).take 8)
    len := dec32 ((bs.drop 48).take 4)
    flags := (dec32 ((bs.drop 52).take 4)).toNat
    strrangeUpper := dec32 ((bs.drop 56).take 4) }

def inRange (v : Val) (off : Int) (r : SeqView) : Except Abort (Bool × List Read) :=
  if has r.flags flagDefaultVal then .ok (true, [])
  else if has r.flags flagMin then atMost fpu mem v r.upperl r.upperd (off+60)
  else if has r.flags flagMax then atLeast fpu mem v r.lowerl r.lowerd (off+60)
  else do
    let (lo, rd) ← atLeast fpu mem v r.lowerl r.lowerd (off+60)
    if lo then
      let (hi, rd') ← atMost fpu mem v r.upperl r.upperd (off+60+r.strrangeUpper)
      .ok (hi, rd ++ rd')
    else .ok (false, rd)

abbrev Found := Option (List UInt8)

def rangeLoop (base : Int) (v : Val) : ℕ → Int → Except Abort (Option Found × Int × List Read)
  | 0, step => .ok (none, step, [])
  | n+1, step => do
    let r ← readSeq mem (base+step)
    let (hit, rd) ← inRange fpu mem v (base+step) r
    if hit then
      .ok (some (if has r.flags flagDefaultGrp then none else some r.grp), step,
        (base+step, 60) :: rd)
    else do
      let (found, step', rd') ← rangeLoop base v n (wrap32 (step+r.len))
      .ok (found, step', (base+step, 60) :: (rd ++ rd'))

structure CritView where
  len : Int
  field : List UInt8
  bufferTypeId : Int
  fieldtypeid : Int
  fldid : Int
  rangesnr : Int

def readCrit (off : Int) : Except Abort CritView := do
  let bs ← peek (.outside off) mem off 352
  .ok {
    len := dec32 ((bs.drop 20).take 4)
    field := cstr ((bs.drop 24).take 31)
    bufferTypeId := dec16 ((bs.drop 56).take 2)
    fieldtypeid := dec32 ((bs.drop 332).take 4)
    fldid := dec32 ((bs.drop 336).take 4)
    rangesnr := dec64 ((bs.drop 344).take 8) }

/-- How the walk over the blocks ends: where it found no range it says whether a block had the
type of the buffer. -/
inductive Ended
  | found (grp : Found)
  | fieldNotFound (field : List UInt8)
  | noRange (hadTypeMatch : Bool)

def more (base step : Int) : Bool := usize (base+step+sizeofRoutcrit) < mem.length

/-- The loop over the blocks of the criterion `id`, which starts at `base`; `step` and `chk` are
`offset_step` and `chk_step`. -/
def critLoop (buf : Buffer) (id base : Int) :
    ℕ → Int → Int → Bool → Except Abort (Ended × List Read)
  | 0, _, _, _ => .error .diverges
  | fuel+1, step, chk, had => do
    let bs ← peek (.outside (base+step+16)) mem (base+step+16) 4
    let idRead : Read := (base+step+16, 4)
    if dec32 bs ≠ id then .ok (.noRange had, [idRead])
    else do
      let c ← readCrit mem (base+step)
      let critRead : Read := (base+step, 352)
      if buf.typeId = c.bufferTypeId then
        -- only a UBF buffer has its value fetched
        if buf.typeId ≠ bufTypeUbf then .error .unset
        else match fieldValue buf c.fieldtypeid c.fldid with
          | none => .ok (.fieldNotFound c.field, [idRead, critRead])
          | some v => do
            let (found, step, rd) ← rangeLoop fpu mem base v c.rangesnr.toNat
              (wrap32 (step+sizeofRoutcrit))
            match found with
            | some grp => .ok (.found grp, idRead :: critRead :: rd)
            | none =>
              let chk := wrap32 (chk+c.len)
              if chk ≠ step then .error .assertion
              else if more mem base step then do
                let (res, rd') ← critLoop buf id base fuel step chk true
                .ok (res, idRead :: critRead :: (rd ++ rd'))
              else .ok (.noRange true, idRead :: critRead :: rd)
      else
        -- a block of another type: chk_step stays behind
        let step := wrap32 (step+c.len)
        if more mem base step then do
          let (res, rd) ← critLoop buf id base fuel step chk had
          .ok (res, idRead :: critRead :: rd)
        else .ok (.noRange had, [idRead, critRead])

end

structure Reply where
  ret : Int
  svcnm : List UInt8
  prio : Option Int
  err : Option TpErr
  reads : List Read
  deriving DecidableEq

/-- The shared memory as a process sees it; no reload falls into a call. -/
structure Shm (N : ℕ) where
  attached : Bool
  useDdr : Bool
  hash : CStr → Fin N
  blocks : Blocks N

def ndrxDdrInstall {N : ℕ} (hash : CStr → Fin N) (blocks : Blocks N) : Shm N :=
  ⟨true, true, hash, blocks⟩

variable {N : ℕ} (fpu : Fpu) (shm : Shm N)

def ndrxDdrServicesGet (svcnm : CStr) : Option Service :=
  if !shm.useDdr then none
  else match LinearHash.ndrxLhPositionGet shm.hash shm.blocks.services.keys svcnm false with
    | some r => if r.ret ∧ r.haveValue then some (shm.blocks.services.data r.pos) else none
    | none => none

def addGroup (svcnm : CStr) (svcnmsz : ℕ) (prio : Int) (reads : List Read) (grp : List UInt8) :
    Reply :=
  let lenNew := wrap32 (svcnm.val.length+grp.length+2)
  if usize lenNew > svcnmsz then ⟨-1, svcnm.val, some prio, some (.nameTooLong lenNew), reads⟩
  else ⟨1, svcnm.val ++ [64] ++ grp, some prio, none, reads⟩

def ndrxDdrGrpGet (svcnm : CStr) (svcnmsz : ℕ) (data : Option Buffer) : Except Abort Reply :=
  if !shm.attached ∨ !shm.useDdr then .ok ⟨0, svcnm.val, none, none, []⟩
  else match ndrxDdrServicesGet shm svcnm with
    | none => .ok ⟨0, svcnm.val, none, none, []⟩
    | some svc =>
      if svc.criterion = emptyStr then .ok ⟨0, svcnm.val, some svc.prio, none, []⟩
      else match data with
        | none => .ok ⟨-1, svcnm.val, some svc.prio, some .invalidBuffer, []⟩
        | some buf => do
          let mem := shm.blocks.routing
          let (ended, reads) ← critLoop fpu mem buf svc.cirterionid svc.offset (mem.length+1) 0 0
            false
          match ended with
          | .found none => .ok ⟨1, svcnm.val, some svc.prio, none, reads⟩
          | .found (some grp) => .ok (addGroup svcnm svcnmsz svc.prio reads grp)
          | .fieldNotFound field =>
            .ok ⟨-1, svcnm.val, some svc.prio, some (.fieldNotFound field), reads⟩
          | .noRange true => .ok ⟨-1, svcnm.val, some svc.prio, some .notFound, reads⟩
          | .noRange false => .ok ⟨0, svcnm.val, some svc.prio, none, reads⟩

end Endurox.Ddr
