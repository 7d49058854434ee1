import Endurox.BaseText
import Endurox.BaseTlv

/-! The tables of the bridge protocol (`libnetproto/proto.c`, `exnetproto.h`), the check of a
field's length against them, and the numbers: on the network they are decimal digits, two to a
byte, with the sign as the last digit. -/

namespace Endurox.NetProto

open Base Base.Text Base.Tlv List

inductive ExfType
  | short | long | char | float | double | string | carray | none | int | ulong | uint | ntimer
  | ushort | carrayfix
  deriving DecidableEq

inductive XType
  | fld | sub | sbl | inc | loop | atmiBuf | masterBuf | fldPtr | atmiBufPtr | subPtr
  deriving DecidableEq

structure Cproto where
  tag : Int
  fldType : ExfType
  type : XType
  last : Bool
  minLen : Int
  maxLen : Int
  deriving DecidableEq

def row (tag : Int) (fldType : ExfType) (type : XType) (minLen maxLen : Int) : Cproto :=
  ⟨tag, fldType, type, false, minLen, maxLen⟩

def pmsgmax : Int := -2

def cmdBrNetCallX : List Cproto := [
  row 0x1005 .long .fld 10 10,
  row 0x100F .char .fld 1 1,
  row 0x1019 .int .fld 1 5,
  row 0x102D .none .subPtr 0 pmsgmax]

def stdhdrX : List Cproto := [
  row 0x1037 .short .fld 1 4,
  row 0x1041 .carrayfix .fld 4 4,
  row 0x104B .int .fld 1 1]

def commandCallX : List Cproto := [
  row 0x1055 .none .inc 1 pmsgmax,
  row 0x105F .ulong .fld 10 10,
  row 0x1069 .int .fld 2 2,
  row 0x1073 .short .fld 1 2,
  row 0x107D .short .fld 1 1,
  row 0x1087 .string .fld 1 128,
  row 0x1091 .int .fld 1 5,
  row 0x109B .int .fld 1 3]

def cmdBrTimeSyncX : List Cproto := [
  row 0x10A5 .none .inc 1 pmsgmax,
  row 0x10AF .ntimer .fld 40 40,
  row 0x10B0 .int .fld 1 1,
  row 0x10B1 .long .fld 1 20,
  row 0x10B2 .int .fld 1 3,
  row 0x10B3 .long .fld 1 20]

def bridgeRefreshSvcX : List Cproto := [
  row 0x10B9 .char .fld 1 1,
  row 0x10C3 .string .fld 1 30,
  row 0x10CD .int .fld 1 6]

def bridgeRefreshX : List Cproto := [
  row 0x10D7 .none .inc 1 pmsgmax,
  row 0x10E1 .char .fld 1 1,
  row 0x10EB .int .fld 1 6,
  row 0x10F5 .none .loop 0 pmsgmax]

def ubfField : List Cproto := [
  row 0x10FF .uint .fld 1 9,
  row 0x1113 .short .fldPtr 1 6,
  row 0x111D .long .fldPtr 1 20,
  row 0x1127 .char .fldPtr 1 1,
  row 0x1131 .float .fldPtr 1 40,
  row 0x113B .double .fldPtr 1 40,
  row 0x1145 .string .fldPtr 0 pmsgmax,
  row 0x114F .carray .fldPtr 0 pmsgmax,
  row 0x1152 .long .fldPtr 1 20,
  row 0x1153 .none .atmiBufPtr 0 pmsgmax,
  row 0x1154 .none .atmiBufPtr 0 pmsgmax]

def tpCommandCallX : List Cproto := [
  row 0x1159 .none .inc 1 pmsgmax,
  row 0x116D .string .fld 0 30,
  row 0x1177 .string .fld 0 128,
  row 0x1181 .string .fld 0 32,
  row 0x118B .string .fld 0 96,
  row 0x1195 .long .fld 1 20,
  row 0x119F .int .fld 1 5,
  row 0x11A9 .int .fld 1 10,
  row 0x11B3 .long .fld 1 20,
  row 0x11B4 .int .fld 1 10,
  row 0x11B5 .long .fld 1 20,
  row 0x11B6 .int .fld 1 10,
  row 0x11BD .string .fld 0 41,
  row 0x11C7 .long .fld 1 20,
  row 0x11D1 .long .fld 1 20,
  row 0x11DB .uint .fld 1 10,
  row 0x11DC .uint .fld 1 10,
  row 0x11E5 .ntimer .fld 40 40,
  row 0x11F9 .none .masterBuf 0 pmsgmax,
  row 0x1203 .string .fld 0 48,
  row 0x120D .short .fld 1 5,
  row 0x1217 .short .fld 1 5,
  row 0x1221 .short .fld 1 5,
  row 0x122B .string .fld 0 32,
  row 0x1235 .short .fld 1 5]

def tpNotifCallX : List Cproto := [
  row 0x123F .none .inc 1 pmsgmax,
  row 0x1249 .string .fld 0 96,
  row 0x1253 .string .fld 0 60,
  row 0x125D .int .fld 1 1,
  row 0x1267 .string .fld 0 60,
  row 0x1271 .int .fld 1 1,
  row 0x127B .string .fld 0 60,
  row 0x1285 .int .fld 1 1,
  row 0x1299 .string .fld 0 128,
  row 0x12A3 .string .fld 0 32,
  row 0x12AD .string .fld 0 96,
  row 0x12B7 .long .fld 1 20,
  row 0x12C1 .int .fld 1 5,
  row 0x12CB .int .fld 1 10,
  row 0x12D5 .long .fld 1 20,
  row 0x12DF .long .fld 1 20,
  row 0x12E9 .long .fld 1 20,
  row 0x12F3 .uint .fld 1 10,
  row 0x12FD .uint .fld 1 10,
  row 0x1307 .ntimer .fld 40 40,
  row 0x131B .none .masterBuf 0 pmsgmax,
  row 0x1325 .long .fld 1 20]

def mbufTlvX : List Cproto := [
  row 0x132F .uint .fld 1 10,
  ⟨0x1343, .none, .atmiBuf, true, 0, pmsgmax⟩]

def viewField : List Cproto := [
  row 0x134D .string .fld 1 256,
  row 0x1360 .short .fldPtr 1 6,
  row 0x1361 .long .fldPtr 1 20,
  row 0x1362 .char .fldPtr 1 1,
  row 0x1363 .float .fldPtr 1 40,
  row 0x1364 .double .fldPtr 1 40,
  row 0x1365 .string .fldPtr 0 pmsgmax,
  row 0x1366 .carray .fldPtr 0 pmsgmax,
  row 0x1367 .int .fldPtr 1 12]

def viewX : List Cproto := [
  row 0x13B1 .string .fld 0 33,
  ⟨0x13BB, .uint, .fld, true, 1, 1⟩]

def allRows : List Cproto :=
  cmdBrNetCallX ++ stdhdrX ++ commandCallX ++ cmdBrTimeSyncX ++ bridgeRefreshSvcX ++
    bridgeRefreshX ++ ubfField ++ tpCommandCallX ++ tpNotifCallX ++ mbufTlvX ++ viewField ++ viewX

def descrLoop (table : List Cproto) (tag : Int) : ℕ → Int → Int → Option Cproto
  | 0, _, _ => none
  | fuel+1, first, last =>
    if first ≤ last then
      let middle := (first+last)/2
      table[middle.toNat]?.bind (fun fld =>
        if fld.tag < tag then descrLoop table tag fuel (middle+1) last
        else if fld.tag = tag then some fld
        else descrLoop table tag fuel first (middle-1))
    else none

def getDescrFromTag (table : List Cproto) (tag : Int) : Option Cproto :=
  descrLoop table tag table.length 0 (table.length-1)

def ExfType.signed : ExfType → Bool
  | .short | .long | .float | .double | .int => true
  | _ => false

def ExfType.stripped : ExfType → Bool
  | .short | .long | .float | .double | .int | .ulong | .uint | .ushort => true
  | _ => false

def ExfType.convBcd : ExfType → Bool
  | .ntimer => true
  | t => t.stripped

/-- The loop that strips leading zeros. It never moves on in the data: each of its turns tests
the same first byte. -/
def leadingZeros (p : UInt8) : ℕ → ℕ
  | 0 => 0
  | n+1 =>
    if p.toNat/16 = 0 then
      if p.toNat % 16 = 0 then leadingZeros p n+2 else 1
    else 0

def abstractLen (t : ExfType) (data : List UInt8) : Int :=
  if t.stripped then
    if data.length = 0 then 0
    else
      let digits : Int := 2*data.length-leadingZeros (data.headD 0) data.length
      let digits := if t.signed then digits-1 else digits
      -- the value zero has one digit
      if digits ≤ 0 then 1 else digits
  else if t = .ntimer then 2*data.length
  else data.length

/-- Is the length in the range of the row. `msgsizemax` is the configured size of a message. -/
def exprotoCklen (msgsizemax : Int) (fld : Cproto) (data : List UInt8) : Bool :=
  !(abstractLen fld.fldType data < fld.minLen ∨
    (fld.maxLen = pmsgmax ∧ msgsizemax < abstractLen fld.fldType data) ∨
    (fld.maxLen ≠ pmsgmax ∧ fld.maxLen < abstractLen fld.fldType data))

theorem exprotoCklen_iff {msgsizemax : Int} {fld : Cproto} {data : List UInt8} :
    exprotoCklen msgsizemax fld data = true ↔ fld.minLen ≤ abstractLen fld.fldType data ∧
        (fld.maxLen = pmsgmax → abstractLen fld.fldType data ≤ msgsizemax) ∧
        (fld.maxLen ≠ pmsgmax → abstractLen fld.fldType data ≤ fld.maxLen) := by
  rw [exprotoCklen, Bool.not_eq_true', decide_eq_false_iff_not]
  simp

def bcdBufSize : ℕ := 1024

/-- `strcat` to the buffer of the digits: there has to be room for the end of the string. -/
def strcatBcd (buf s : List Char) : Option (List Char) :=
  if buf.length+s.length+1 ≤ bcdBufSize then some (buf ++ s) else none

def bcdLoop : List UInt8 → List Char → Option (List Char)
  | [], buf => some buf
  | b :: bs, buf => (strcatBcd buf (hexDigits 2 b.toNat)).bind (bcdLoop bs)

def takeSign (buf : List Char) : Option (List Char × Char) :=
  buf.getLast?.map (fun c => (buf.dropLast, c))

def nettocDigits (t : ExfType) (data : List UInt8) : Option (List Char × Char) :=
  (bcdLoop data []).bind (fun buf => if t.signed then takeSign buf else some (buf, '0'))

def DigitsFit (t : ExfType) (data : List UInt8) : Prop :=
  (data.flatMap (fun b => hexDigits 2 b.toNat)).length+1 ≤ bcdBufSize ∧
    (t.signed = true → (0:Int) ≤ (data.flatMap (fun b => hexDigits 2 b.toNat)).length-1)

theorem bcdText_length (data : List UInt8) :
    (data.flatMap (fun b => hexDigits 2 b.toNat)).length = 2*data.length := by
  induction data with
  | nil => rfl
  | cons =>
    rw [flatMap_cons, length_append, hexDigits_length, length_cons]
    omega

theorem bcdLoop_eq (data : List UInt8) {buf : List Char} (hbuf : buf.length+1 ≤ bcdBufSize) :
    bcdLoop data buf = if buf.length+2*data.length+1 ≤ bcdBufSize then
        some (buf ++ data.flatMap (fun b => hexDigits 2 b.toNat))
      else none := by
  induction data generalizing buf with
  | nil => simpa [bcdLoop] using hbuf
  | cons b bs ih =>
    have hlen : (buf ++ hexDigits 2 b.toNat).length = buf.length+2 := by
      rw [length_append, hexDigits_length]
    rw [bcdLoop, strcatBcd, hexDigits_length, length_cons]
    by_cases hfit : buf.length+2+1 ≤ bcdBufSize
    · rw [if_pos hfit, Option.bind_some, ih (by omega), hlen, flatMap_cons,
        append_assoc, show buf.length+2+2*bs.length+1 = buf.length+2*(bs.length+1)+1 by omega]
    · rw [if_neg hfit, if_neg (by omega)]
      rfl

theorem length_pos_of_cklen {msgsizemax : Int} {fld : Cproto} (hfld : fld ∈ allRows)
    (hbcd : fld.fldType.convBcd = true) {data : List UInt8}
    (hck : exprotoCklen msgsizemax fld data = true) : 0 < data.length := by
  have hrows : ∀ r ∈ allRows, r.fldType.convBcd = true → 0 < r.minLen := by decide
  have hmin := hrows fld hfld hbcd
  by_contra hzero
  have hlen : data.length = 0 := by omega
  have habs : abstractLen fld.fldType data = 0 := by
    rw [abstractLen, hlen]
    split
    · rfl
    · split <;> rfl
  have hle := (exprotoCklen_iff.mp hck).1
  omega

/-- An accepted number stays inside the decoder's buffer exactly up to 511 bytes: behind a zero
byte any length passes the check, and every byte is expanded. -/
theorem received_digits_fit_iff {msgsizemax : Int} {fld : Cproto} (hfld : fld ∈ allRows)
    (hbcd : fld.fldType.convBcd = true) {data : List UInt8}
    (hck : exprotoCklen msgsizemax fld data = true) :
    DigitsFit fld.fldType data ↔ data.length ≤ 511 := by
  have hpos := length_pos_of_cklen hfld hbcd hck
  rw [DigitsFit, bcdText_length, bcdBufSize]
  constructor
  · intro h
    omega
  · intro h
    exact ⟨by omega, fun _ => by omega⟩

theorem received_digits_fit_stdhdr :
    DigitsFit .short [0x01, 0x23, 0x30] ↔ [(0x01 : UInt8), 0x23, 0x30].length ≤ 511 :=
  @received_digits_fit_iff 65552 (row 0x1037 .short .fld 1 4) (by decide) (by decide) _ (by decide)

/-- A header with 512 zeros for its command. -/
theorem zeros_overrun_digits : ∃ fld, getDescrFromTag stdhdrX
        (wrap 32768 (beNat ((frame 0x1037 (replicate 512 0)).take 2))) = some fld ∧
      fld.fldType.convBcd = true ∧ exprotoCklen 65552 fld (replicate 512 0) = true ∧
      ¬ DigitsFit fld.fldType (replicate 512 0) := by
  refine ⟨row 0x1037 .short .fld 1 4, by decide, by decide, by decide +kernel, ?_⟩
  rw [DigitsFit, bcdText_length, length_replicate]
  exact fun h => absurd h.1 (by decide)

end Endurox.NetProto
