import Endurox.BaseRun
import Endurox.BaseMultimap
import Endurox.View

/-! A view structure filled from a UBF buffer and written to one (`libubf/view_ubf.c`,
`ndrx_Bvselinit_int` of `libubf/view_null.c`). -/

namespace Endurox.View

open Base

def fillFrom (bytes : List UInt8) (i stop : ℕ) (c : UInt8) : List UInt8 :=
  bytes.take i ++ List.replicate (stop-i) c ++ bytes.drop stop

def initStringFiller (nullval : List UInt8) (dim : ℕ) : ℕ → ℕ → List UInt8 → List UInt8
  | 0, _, bytes => bytes
  | n+1, i, bytes =>
    if dim-1 ≤ i then bytes.set i 0
    else if i+1 = nullval.length then
      (fillFrom bytes i (dim-1) (nullval.getD i 0)).set (dim-1) 0
    else initStringFiller nullval dim n (i+1) (bytes.set i (nullval.getD i 0))

/-- The NULL value of a string without a filler, copied by `NDRX_STRNCPY`. For a string of one
byte the source also writes a zero behind the element. -/
def initString (nullval : List UInt8) (dim : ℕ) (bytes : List UInt8) : List UInt8 :=
  let len := if dim < nullval.length then dim-1 else nullval.length
  let n := min ((cstr nullval).length+1) len
  ((nullval ++ [0]).take n ++ bytes.drop n).set len 0

def initCarray (filler : Bool) (nullval : List UInt8) (dim : ℕ) : ℕ → ℕ → List UInt8 → List UInt8
  | 0, _, bytes => bytes
  | n+1, i, bytes =>
    if dim ≤ i then bytes
    else if filler && i+1 == nullval.length then
      initCarray filler nullval dim n (i+1) (fillFrom bytes i dim (nullval.getD i 0))
    else initCarray filler nullval dim n (i+1) (bytes.set i (nullval.getD i 0))

def initElem (f : Field) (e : Elem) : Elem :=
  match f.typ with
  | .short | .int | .long | .char => { e with num := f.nullvalNum }
  | .string => { e with
      len := if f.lenInd then 0 else e.len
      bytes := if f.nullfiller then
          initStringFiller f.nullvalBin f.dimSize f.nullvalBin.length 0 e.bytes
        else initString f.nullvalBin f.dimSize e.bytes }
  | .carray => { e with
      len := if f.lenInd then 0 else e.len
      bytes := initCarray f.nullfiller f.nullvalBin f.dimSize f.nullvalBin.length 0 e.bytes }

structure Members where
  cnt : Int
  elems : List Elem
  deriving DecidableEq

def bvselinitOcc (f : Field) (e : Elem) : Elem := if f.nullvalNone then e else initElem f e

def bvselinit (f : Field) (m : Members) : Members :=
  if f.nullvalNone then m
  else ⟨if f.elemcntInd then 0 else m.cnt, m.elems.map (initElem f)⟩

inductive UVal
  | short (n : Int)
  | long (n : Int)
  | char (n : Int)
  | string (s : CStr)
  | carray (bs : List UInt8)
  deriving DecidableEq

abbrev Ubf := List (ℕ × UVal)

inductive Err
  | bnotpres
  | bnospace
  | beinval
  | other
  deriving DecidableEq

/-- What the library does on other types than the view's, and where buffers end. -/
structure Env where
  ftype : ℕ → Typ
  convGet : Field → UVal → Elem → Except Err (Elem × ℕ)
  convPut : Field → Elem → ℕ → Except Err UVal
  tempRoom : Ubf → Bool
  room : Ubf → Bool

def Typ.ubf : Typ → Typ
  | .int => .long
  | t => t

variable (env : Env)

def cbget (u : Ubf) (f : Field) (occ : ℕ) (e : Elem) : Except Err (Elem × ℕ) :=
  match ((occs Prod.fst f.ubfid u)[occ]?).map Prod.snd with
  | none => .error .bnotpres
  | some v =>
    match f.typ, v with
    | .short, .short n => .ok ({ e with num := n }, 0)
    | .int, .long n => .ok ({ e with num := wrap32 n }, 0)
    | .long, .long n => .ok ({ e with num := n }, 0)
    | .char, .char n => .ok ({ e with num := n }, 0)
    | .string, .string s =>
      if s.val.length+1 ≤ f.dimSize then
        .ok ({ e with bytes := s.val ++ 0 :: e.bytes.drop (s.val.length+1) }, s.val.length+1)
      else .error .bnospace
    | .carray, .carray bs =>
      if bs.length ≤ f.dimSize then .ok ({ e with bytes := bs ++ e.bytes.drop bs.length }, bs.length)
      else .error .bnospace
    | _, v => env.convGet f v e

def setLen (f : Field) (e : Elem) (len : ℕ) : Elem :=
  if f.lenInd then
    { e with len := if f.typ = .string ∨ f.typ = .carray then len%65536 else 0 }
  else e

def resetLen (f : Field) (e : Elem) : Elem := if f.lenInd then { e with len := 0 } else e

def ftosOccs (u : Ubf) (f : Field) : ℕ → List Elem → Int → Except Err (List Elem × Int)
  | _, [], cnt => .ok ([], cnt)
  | occ, e :: es, cnt =>
    match cbget env u f occ (resetLen f e) with
    | .ok (e', len) =>
      ftosOccs u f (occ+1) es (cnt+1) >>= fun r => .ok (setLen f e' len :: r.1, r.2)
    | .error .bnotpres =>
      ftosOccs u f (occ+1) es cnt >>= fun r =>
        .ok (bvselinitOcc f (resetLen f e) :: r.1, r.2)
    | .error err => .error err

def ftosField (u : Ubf) (f : Field) (m : Members) : Except Err Members :=
  if f.ubf2c then
    ftosOccs env u f 0 m.elems 0 >>= fun r => .ok ⟨if f.elemcntInd then r.2 else m.cnt, r.1⟩
  else .ok (bvselinit f m)

def bvftosInt (u : Ubf) : List Field → List Members → Except Err (List Members)
  | f :: fs, m :: ms =>
    ftosField env u f m >>= fun m' => bvftosInt u fs ms >>= fun ms' => .ok (m' :: ms')
  | _, _ => .ok []

/-- The value that `CBchg` is given. A string that does not end in its element, which the source
reads on from, ends with the element here. -/
def elemVal (f : Field) (e : Elem) (len : ℕ) : Except Err UVal :=
  if env.ftype f.ubfid = f.typ.ubf then
    match f.typ with
    | .short => .ok (.short e.num)
    | .int | .long => .ok (.long e.num)
    | .char => .ok (.char e.num)
    | .string => .ok (.string ⟨cstr e.bytes, zero_notMem_cstr e.bytes⟩)
    | .carray => .ok (.carray (e.bytes.take len))
  else env.convPut f e len

def emptyVal : Typ → UVal
  | .short => .short 0
  | .int | .long => .long 0
  | .char => .char 0
  | .string => .string ⟨[], zero_notMem_nil⟩
  | .carray => .carray []

def bchg (room : Ubf → Bool) (u : Ubf) (id occ : ℕ) (v : UVal) : Except Err Ubf :=
  let es := occs Prod.fst id u
  let gap := List.replicate (occ-es.length) (id, emptyVal (env.ftype id))
  let u' := setOccs Prod.fst id (es.take occ ++ gap ++ (id, v) :: es.drop (occ+1)) u
  if room u' then .ok u' else .error .bnospace

def bupdateFrom (dst done : Ubf) : Ubf → Except Err Ubf
  | [] => .ok dst
  | (id, v) :: todo =>
    bchg env env.room dst id (occs Prod.fst id done).length v >>= fun dst' =>
      bupdateFrom dst' (done ++ [(id, v)]) todo

def occLen (f : Field) (e : Elem) : ℕ := if f.lenInd then e.len else f.dimSize

def lenBack (f : Field) (e : Elem) : Elem :=
  if f.typ = .string ∧ f.lenInd then { e with len := ((cstr e.bytes).length+1)%65536 } else e

def stofOccs (f : Field) (cnt : Int) : ℕ → List Elem → Ubf → Except Err (List Elem × Ubf)
  | _, [], temp => .ok ([], temp)
  | occ, e :: es, temp =>
    if cnt ≤ occ then .ok (e :: es, temp)
    else if f.typ = .carray ∧ f.dimSize < occLen f e then .error .beinval
    else if bvnullInt f cnt occ e then .ok (e :: es, temp)
    else
      elemVal env f e (occLen f e) >>= fun v =>
      bchg env env.tempRoom temp f.ubfid occ v >>= fun temp' =>
      stofOccs f cnt (occ+1) es temp' >>= fun r => .ok (lenBack f e :: r.1, r.2)

def stofCount (f : Field) (m : Members) : Int := if f.elemcntInd then m.cnt else f.count

def stofField (f : Field) (m : Members) (temp : Ubf) : Except Err (Members × Ubf) :=
  if f.c2ubf then
    if f.count < stofCount f m then .error .beinval
    else stofOccs env f (stofCount f m) 0 m.elems temp >>= fun r => .ok (⟨m.cnt, r.1⟩, r.2)
  else .ok (m, temp)

def stofFields : List Field → List Members → Ubf → Except Err (List Members × Ubf)
  | f :: fs, m :: ms, temp =>
    stofField env f m temp >>= fun r =>
      stofFields fs ms r.2 >>= fun rs => .ok (r.1 :: rs.1, rs.2)
  | _, ms, temp => .ok (ms, temp)

/-- `ndrx_Bvstof_int` with `BUPDATE`; also the structure, whose lengths it sets. -/
def bvstofInt (fs : List Field) (ms : List Members) (dst : Ubf) : Except Err (List Members × Ubf) :=
  stofFields env fs ms [] >>= fun r =>
    bupdateFrom env dst [] r.2 >>= fun dst' => .ok (r.1, dst')

end Endurox.View
