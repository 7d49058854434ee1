import Endurox.BaseText
import Endurox.TmsLog

/-! The transaction log of tmsrv as the text file it is (`log.c`): how a record becomes a line,
what is left of a write that was cut short, and how the file is read after a crash. -/

namespace Endurox.Tms

open Base Base.Text List

def logMax : ℕ := 1024

def logCommandI : Char := 'I'
def logCommandJ : Char := 'J'
def logCommandStage : Char := 'S'
def logCommandRmstat : Char := 'R'
def logRsSep : Char := ';'

def Rec.command : Rec → Char
  | .info .. => logCommandJ
  | .stage _ => logCommandStage
  | .rmstat .. => logCommandRmstat

def Rec.fields : Rec → List (List Char)
  | .info tmrmid tmnodeid tmsrvid txtout =>
    -- the list of resource managers at the end is not filled
    [decimal tmrmid, decimal tmnodeid, decimal tmsrvid, decimal txtout, []]
  | .stage txstage => [decimal txstage]
  | .rmstat rmid rmstatus rmerrorcode rmreason btid =>
    [decimal rmid, [rmstatus], decimal rmerrorcode, decimal rmreason, decimal btid]

def lineText (tstamp : Int) (r : Rec) : List Char :=
  let msg := ([':'].intercalate r.fields).take logMax
  (decimal tstamp ++ ':' :: r.command :: ':' :: msg).take logMax

def lineBody (tstamp : Int) (r : Rec) : List Char :=
  lineText tstamp r ++ logRsSep :: hexDigits 8 (crc32 (lineText tstamp r))

def logLine (tstamp : Int) (r : Rec) : List Char := lineBody tstamp r ++ ['\n']

def atoi (s : List Char) : Int := wrap32 (strtol s)

def tmsParseInfoBuf (buf : List Char) (tl : Tl) : Option Tl :=
  match tokens ':' buf with
  -- the ids have to be there, their values are those of the running process
  | _ :: _ :: _ :: _ :: _ :: txtout :: _ => some {tl with txtout := strtol txtout}
  | _ => none

def tmsParseStageBuf (buf : List Char) (tl : Tl) : Option Tl :=
  match tokens ':' buf with
  | _ :: _ :: txstage :: _ => some (tmsParseStage (shortOf (atoi txstage)) tl)
  | _ => none

def tmsParseRmstatusBuf (buf : List Char) (tl : Tl) : Option Tl :=
  match tokens ':' buf with
  | _ :: _ :: rmid :: rmstatus :: rmerrorcode :: rmreason :: opt =>
    tmsParseRmstatus (atoi rmid) (rmstatus.headD rmNull) (atoi rmerrorcode) (shortOf (atoi rmreason))
      (match opt with
        | btid :: _ => strtol btid
        | [] => 0) tl
  | _ => none

structure Scan where
  ld : Loading
  logVersion : ℕ
  missingTermInFile : Bool
  gotTermLast : Bool

def applyLine (st : Scan) (cmd : Char) (buf : List Char) : Option Scan :=
  if cmd = logCommandI ∨ cmd = logCommandJ then
    if st.ld.infosOk then none
    else (tmsParseInfoBuf buf st.ld.tl).map (fun tl =>
      {st with ld := ⟨true, tl⟩, logVersion := cmd.toNat-logCommandI.toNat+1})
  else if cmd = logCommandStage then
    if st.ld.infosOk then (tmsParseStageBuf buf st.ld.tl).map (fun tl => {st with ld := ⟨true, tl⟩})
    else none
  else if cmd = logCommandRmstat then
    if st.ld.infosOk then
      (tmsParseRmstatusBuf buf st.ld.tl).map (fun tl => {st with ld := ⟨true, tl⟩})
    else none
  -- a record that is not known is passed over
  else some st

theorem applyLine_stage (st : Scan) (buf : List Char) : applyLine st logCommandStage buf =
      if st.ld.infosOk then (tmsParseStageBuf buf st.ld.tl).map (fun tl => {st with ld := ⟨true, tl⟩})
      else none := by
  rw [applyLine, if_neg (by decide), if_pos rfl]

theorem applyLine_rmstat (st : Scan) (buf : List Char) : applyLine st logCommandRmstat buf =
      if st.ld.infosOk then
        (tmsParseRmstatusBuf buf st.ld.tl).map (fun tl => {st with ld := ⟨true, tl⟩})
      else none := by
  rw [applyLine, if_neg (by decide), if_neg (by decide), if_pos rfl]

def readLine (st : Scan) (buf : List Char) : Option Scan :=
  match cutAt ':' buf with
  | none => none
  | some (_, p) =>
    -- the separator may be overwritten where `p` points to, but it is no command either way
    let cmd := p.headD '\x00'
    if (st.ld.infosOk = false ∧ cmd = logCommandJ) ∨ 1 < st.logVersion then
      match cutAt logRsSep buf with
      | none => some st
      | some (text, rs) => if crc32 text = scanHex rs then applyLine st cmd text else some st
    else applyLine st cmd buf

def chop (c : Char) (buf : List Char) : List Char × Bool :=
  if 1 < buf.length ∧ buf.getLast? = some c then (buf.dropLast, true) else (buf, false)

def readBuf (st : Scan) (buf : List Char) : Option Scan :=
  let line := chop '\n' buf
  if line.2 then readLine {st with gotTermLast := true} (chop '\r' line.1).1
  else some {st with gotTermLast := false, missingTermInFile := true}

def fgetsMax : ℕ := 1023

def Scan.start : Scan := ⟨⟨false, Tl.blank⟩, 0, false, false⟩

def scanText (st : Scan) (s : List Char) : Option Scan := (fgetsAll fgetsMax [] s).foldlM readBuf st

def tmsLoadText (s : List Char) : Option (Tl × Bool) :=
  (scanText Scan.start s).bind (fun st =>
    if st.ld.infosOk then
      if st.missingTermInFile then
        if st.gotTermLast then none else some (st.ld.tl, true)
      else some (st.ld.tl, false)
    else none)

def Short (x : Int) : Prop := -32768 ≤ x ∧ x < 32768
def Long (x : Int) : Prop := -9223372036854775808 ≤ x ∧ x < 9223372036854775808

def Rec.Valid : Rec → Prop
  | .info tmrmid tmnodeid tmsrvid txtout =>
    Short tmrmid ∧ Short tmnodeid ∧ Short tmsrvid ∧ Long txtout
  | .stage txstage => Short txstage
  | .rmstat rmid rmstatus rmerrorcode rmreason btid =>
    (1 ≤ rmid ∧ rmid ≤ ndrxMaxRms) ∧ rmstatus.isLower = true ∧
      (-2147483648 ≤ rmerrorcode ∧ rmerrorcode < 2147483648) ∧ Short rmreason ∧ Long btid

instance (x : Int) : Decidable (Short x) := inferInstanceAs (Decidable (_ ∧ _))
instance (x : Int) : Decidable (Long x) := inferInstanceAs (Decidable (_ ∧ _))

instance (r : Rec) : Decidable r.Valid :=
  match r with
  | .info .. => inferInstanceAs (Decidable (_ ∧ _))
  | .stage _ => inferInstanceAs (Decidable (Short _))
  | .rmstat .. => inferInstanceAs (Decidable (_ ∧ _))

variable {x : Int}

theorem Short.long (h : Short x) : Long x := by
  unfold Short Long at *
  omega

theorem Long.natAbs_le (h : Long x) : x.natAbs ≤ 9223372036854775808 := by
  unfold Long at h
  omega

theorem Long.strtol_decimal (h : Long x) : strtol (decimal x) = x :=
  Text.strtol_decimal h.1 h.2

theorem atoi_decimal (hlo : -2147483648 ≤ x) (hhi : x < 2147483648) : atoi (decimal x) = x := by
  rw [atoi, Text.strtol_decimal (by omega) (by omega), wrap32_of_mem hlo hhi]

theorem Short.atoi_decimal (h : Short x) : shortOf (atoi (decimal x)) = x := by
  unfold Short at h
  rw [Tms.atoi_decimal (by omega) (by omega), shortOf, wrap_of_mem h.1 h.2]

def Plain (c : Char) : Prop := c = '-' ∨ c.isDigit = true ∨ c.isLower = true

variable {c d : Char}

theorem Plain.ne (h : Plain c) (hd : d = ':' ∨ d = logRsSep ∨ d = '\n' ∨ d = '\r') : c ≠ d := by
  rintro rfl
  rcases hd with rfl | rfl | rfl | rfl <;>
  · revert h
    unfold Plain
    decide

theorem plain_of_mem_decimal (h : c ∈ decimal x) : Plain c := by
  rcases mem_decimal h with h | h
  · exact .inl h
  · exact .inr (.inl h)

theorem Rec.plain_fields {r : Rec} (hr : r.Valid) {t : List Char} (ht : t ∈ r.fields)
    (hc : c ∈ t) : Plain c := by
  cases r with
  | info =>
    simp only [Rec.fields, mem_cons, not_mem_nil, or_false] at ht
    rcases ht with rfl | rfl | rfl | rfl | rfl
    iterate 4 exact plain_of_mem_decimal hc
    cases hc
  | stage =>
    simp only [Rec.fields, mem_cons, not_mem_nil, or_false] at ht
    subst ht
    exact plain_of_mem_decimal hc
  | rmstat =>
    simp only [Rec.fields, mem_cons, not_mem_nil, or_false] at ht
    rcases ht with rfl | rfl | rfl | rfl | rfl
    · exact plain_of_mem_decimal hc
    · rw [mem_singleton] at hc
      rw [hc]
      exact .inr (.inr hr.2.1)
    iterate 3 exact plain_of_mem_decimal hc

theorem Rec.fields_length {r : Rec} (hr : r.Valid) : ([':'].intercalate r.fields).length ≤ 104 := by
  have hlen {x : Int} (h : Long x) := decimal_length h.natAbs_le
  cases r with
  | info =>
    have h1 := hlen hr.1.long
    have h2 := hlen hr.2.1.long
    have h3 := hlen hr.2.2.1.long
    have h4 := hlen hr.2.2.2
    simp [Rec.fields]
    omega
  | stage =>
    have h1 := hlen (Short.long hr)
    simp [Rec.fields]
    omega
  | rmstat rmid _ rmerrorcode =>
    obtain ⟨hid, _, _, hreason, hbtid⟩ := hr
    have h1 : (decimal rmid).length ≤ 20 := decimal_length (by unfold ndrxMaxRms at hid; omega)
    have h2 : (decimal rmerrorcode).length ≤ 20 := decimal_length (by omega)
    have h3 := hlen hreason.long
    have h4 := hlen hbtid
    simp [Rec.fields]
    omega

variable {st : Scan}

section

variable {tstamp : Int} {r : Rec}

theorem lineText_append (hts : Long tstamp) (hr : r.Valid) :
    lineText tstamp r = decimal tstamp ++ ':' :: r.command :: ':' :: [':'].intercalate r.fields := by
  have hmsg := Rec.fields_length hr
  have htstamp := decimal_length hts.natAbs_le
  rw [lineText, take_of_length_le (show ([':'].intercalate r.fields).length ≤ logMax by
    unfold logMax; omega), take_of_length_le (by simp [logMax]; omega)]

theorem lineText_eq (hts : Long tstamp) (hr : r.Valid) :
    lineText tstamp r = [':'].intercalate (decimal tstamp :: [r.command] :: r.fields) := by
  rw [lineText_append hts hr]
  cases r <;> simp [Rec.fields]

theorem lineText_length (hts : Long tstamp) (hr : r.Valid) : (lineText tstamp r).length ≤ 127 := by
  have hmsg := Rec.fields_length hr
  have htstamp := decimal_length hts.natAbs_le
  rw [lineText]
  simp
  omega

theorem Rec.command_ne (r : Rec) (hd : d = ':' ∨ d = logRsSep ∨ d = '\n' ∨ d = '\r') :
    r.command ≠ d := by
  rcases hd with rfl | rfl | rfl | rfl <;> cases r <;> simp only [Rec.command] <;> decide

theorem ne_of_mem_line (hr : r.Valid) {t : List Char}
    (ht : t ∈ decimal tstamp :: [r.command] :: r.fields) (hc : c ∈ t)
    (hd : d = ':' ∨ d = logRsSep ∨ d = '\n' ∨ d = '\r') : c ≠ d := by
  rcases mem_cons.mp ht with rfl | ht
  · exact (plain_of_mem_decimal hc).ne hd
  rcases mem_cons.mp ht with rfl | ht
  · rw [mem_singleton.mp hc]
    exact r.command_ne hd
  · exact (Rec.plain_fields hr ht hc).ne hd

theorem not_mem_lineText (hts : Long tstamp) (hr : r.Valid)
    (hc : c = logRsSep ∨ c = '\n' ∨ c = '\r') : c ∉ lineText tstamp r := by
  rw [lineText_eq hts hr]
  intro hmem
  rcases mem_intercalate hmem with h | ⟨_, ht, h⟩
  · rw [mem_singleton.mp h] at hc
    revert hc
    decide
  · exact ne_of_mem_line hr ht h (.inr hc) rfl

theorem not_mem_checksum (n : ℕ) (hc : c = '\n' ∨ c = '\r') : c ∉ hexDigits 8 n := by
  intro h
  obtain ⟨_, hm, rfl⟩ := mem_hexDigits h
  have hspace := (hexVal_digitChar hm).2.1
  rcases hc with hc | hc
  · rw [hc] at hspace
    exact absurd hspace (by decide)
  · rw [hc] at hspace
    exact absurd hspace (by decide)

section

variable (hts : Long tstamp) (hr : r.Valid)
include hts hr

theorem not_mem_lineBody (hc : c = '\n' ∨ c = '\r') : c ∉ lineBody tstamp r := by
  rw [lineBody, mem_append, mem_cons]
  rintro (h | h | h)
  · exact not_mem_lineText hts hr (.inr hc) h
  · rcases hc with rfl | rfl
    · exact absurd h (by decide)
    · exact absurd h (by decide)
  · exact not_mem_checksum _ hc h

theorem lineBody_length : (lineBody tstamp r).length ≤ 136 := by
  have htext := lineText_length hts hr
  rw [lineBody, length_append, length_cons, hexDigits_length]
  omega

theorem cutAt_lineText (rest : List Char) :
    ∃ p, cutAt ':' (lineText tstamp r ++ rest) = some (decimal tstamp, p) ∧
      p.headD '\x00' = r.command := by
  have htstamp : ':' ∉ decimal tstamp := fun h => (plain_of_mem_decimal h).ne (.inl rfl) rfl
  refine ⟨r.command :: (':' :: [':'].intercalate r.fields ++ rest), ?_, rfl⟩
  rw [lineText_append hts hr, append_assoc, cons_append, cutAt_append htstamp]
  rfl

theorem tokens_lineText : tokens ':' (lineText tstamp r) =
      (decimal tstamp :: [r.command] :: r.fields).filter (fun t => t ≠ []) := by
  rw [lineText_eq hts hr, tokens_intercalate (by simp)]
  intro t ht hmem
  exact ne_of_mem_line hr ht hmem (.inl rfl) rfl

theorem applyLine_lineText (st : Scan) (hver : st.ld.infosOk = true → st.logVersion = 2) :
    applyLine st r.command (lineText tstamp r) =
      (parseRec st.ld r).map (fun ld => {st with ld := ld, logVersion := 2}) := by
  have htok := tokens_lineText hts hr
  cases r with
  | info tmrmid tmnodeid tmsrvid txtout =>
    have hbuf (tl : Tl) : tmsParseInfoBuf (lineText tstamp (.info tmrmid tmnodeid tmsrvid txtout)) tl =
        some {tl with txtout := txtout} := by
      rw [tmsParseInfoBuf, htok]
      simp [Rec.fields, decimal_ne_nil, hr.2.2.2.strtol_decimal]
    rw [parseRec, applyLine, hbuf]
    cases st.ld.infosOk <;> rfl
  | stage txstage =>
    have hbuf (tl : Tl) : tmsParseStageBuf (lineText tstamp (.stage txstage)) tl =
        some (tmsParseStage txstage tl) := by
      rw [tmsParseStageBuf, htok]
      simp [Rec.fields, decimal_ne_nil, Short.atoi_decimal hr]
    rw [parseRec, Rec.command, applyLine_stage, hbuf]
    split
    · rename_i hok
      rw [Option.map_some, Option.map_some, hok, hver hok]
    · rfl
  | rmstat rmid rmstatus rmerrorcode rmreason btid =>
    obtain ⟨hid, _, herr, hreason, hbtid⟩ := hr
    have hrmid : atoi (decimal rmid) = rmid :=
      atoi_decimal (by omega) (by unfold ndrxMaxRms at hid; omega)
    have hbuf (tl : Tl) :
        tmsParseRmstatusBuf (lineText tstamp (.rmstat rmid rmstatus rmerrorcode rmreason btid)) tl =
          tmsParseRmstatus rmid rmstatus rmerrorcode rmreason btid tl := by
      rw [tmsParseRmstatusBuf, htok]
      simp [Rec.fields, decimal_ne_nil, hrmid, hreason.atoi_decimal, atoi_decimal herr.1 herr.2,
        hbtid.strtol_decimal]
    rw [parseRec, Rec.command, applyLine_rmstat, hbuf]
    split
    · rename_i hok
      rw [Option.map_map, hok, hver hok]
      rfl
    · rfl

end

def Expects (st : Scan) (r : Rec) : Prop :=
  st.logVersion = 2 ∨ st.ld.infosOk = false ∧ r.command = logCommandJ

theorem Expects.checked (h : Expects st r) :
    (st.ld.infosOk = false ∧ r.command = logCommandJ) ∨ 1 < st.logVersion := by
  rcases h with h | h
  · right
    omega
  · exact .inl h

theorem Expects.version (h : Expects st r) (hok : st.ld.infosOk = true) : st.logVersion = 2 := by
  rcases h with h | h
  · exact h
  · rw [hok] at h
    cases h.1

/-- A written line is read as the record it was made of. -/
theorem readLine_lineBody (hts : Long tstamp) (hr : r.Valid) (hst : Expects st r) :
    readLine st (lineBody tstamp r) =
      (parseRec st.ld r).map (fun ld => {st with ld := ld, logVersion := 2}) := by
  obtain ⟨p, hp, hcmd⟩ := cutAt_lineText hts hr (logRsSep :: hexDigits 8 (crc32 (lineText tstamp r)))
  have hcut : cutAt logRsSep (lineBody tstamp r) =
      some (lineText tstamp r, hexDigits 8 (crc32 (lineText tstamp r))) :=
    cutAt_append (not_mem_lineText hts hr (.inl rfl)) _
  have hcrc : scanHex (hexDigits 8 (crc32 (lineText tstamp r))) = crc32 (lineText tstamp r) :=
    scanHex_hexDigits (by decide) (crc32_lt _)
  rw [← applyLine_lineText hts hr st hst.version, readLine, hcut, lineBody, hp]
  show (if (st.ld.infosOk = false ∧ p.headD '\x00' = logCommandJ) ∨ 1 < st.logVersion then
      (if crc32 (lineText tstamp r) = scanHex (hexDigits 8 (crc32 (lineText tstamp r))) then
        applyLine st (p.headD '\x00') (lineText tstamp r) else some st)
    else _) = _
  rw [hcmd, if_pos hst.checked, if_pos hcrc.symm]

end

theorem scanText_append {s : List Char} (h : AtLineStart s) (st : Scan) (rest : List Char) :
    scanText st (s ++ rest) = (scanText st s).bind (fun st' => scanText st' rest) := by
  rw [scanText, fgetsAll_append h, foldlM_append]
  rfl

theorem scanText_line {s : List Char} (hne : s ≠ []) (hs : '\n' ∉ s) (hlen : s.length < fgetsMax)
    (hcr : s.getLast? ≠ some '\r') (st : Scan) :
    scanText st (s ++ ['\n']) = readLine {st with gotTermLast := true} s := by
  have hpos : 0 < s.length := length_pos_iff.mpr hne
  have hchop : chop '\n' (s ++ ['\n']) = (s, true) := by
    rw [chop, if_pos ⟨by rw [length_append, length_singleton]; omega, getLast?_concat⟩,
      dropLast_concat]
  have hchop' : chop '\r' s = (s, false) := by
    rw [chop, if_neg (fun h => hcr h.2)]
  rw [scanText, fgetsAll_line hs (by simpa using hlen), nil_append, foldlM_cons, readBuf, hchop]
  rw [hchop']
  exact Option.bind_fun_some _

theorem scanText_logLine {tstamp : Int} {r : Rec} (hts : Long tstamp) (hr : r.Valid)
    (hst : Expects st r) :
    scanText st (logLine tstamp r) = (parseRec st.ld r).map (fun ld =>
      {st with ld := ld, logVersion := 2, gotTermLast := true}) := by
  have hlast : (lineBody tstamp r).getLast? ≠ some '\r' :=
    fun h => not_mem_lineBody hts hr (.inr rfl) (mem_of_getLast? h)
  have hlen := lineBody_length hts hr
  rw [logLine, scanText_line (by simp [lineBody]) (not_mem_lineBody hts hr (.inl rfl))
    (by unfold fgetsMax; omega) hlast]
  exact readLine_lineBody hts hr hst

/-- Text without a line end is noted, and not read as a record. -/
theorem scanText_tail {t : List Char} (hne : t ≠ []) (ht : '\n' ∉ t) (st : Scan) :
    scanText st t = some {st with gotTermLast := false, missingTermInFile := true} := by
  have hbuf (st : Scan) (b : List Char) (hb : '\n' ∉ b) :
      readBuf st b = some {st with gotTermLast := false, missingTermInFile := true} := by
    have hchop : chop '\n' b = (b, false) := by
      rw [chop, if_neg (fun h => hb (mem_of_getLast? h.2))]
    rw [readBuf, hchop]
    rfl
  have hall (bs : List (List Char)) (hbs : ∀ b ∈ bs, '\n' ∉ b) (hne : bs ≠ []) (st : Scan) :
      bs.foldlM readBuf st = some {st with gotTermLast := false, missingTermInFile := true} := by
    induction bs generalizing st with
    | nil => exact absurd rfl hne
    | cons b bs ih =>
      rw [foldlM_cons, hbuf st b (hbs b mem_cons_self)]
      cases bs with
      | nil => rfl
      | cons => exact ih (fun d hd => hbs d (mem_cons_of_mem _ hd)) (cons_ne_nil _ _) _
  exact hall _ (mem_fgetsAll ht (by simp)) (fgetsAll_ne_nil (by simpa using hne)) st

end Endurox.Tms
