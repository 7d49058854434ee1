import Endurox.TmsLogText

/-! Recovery of a transaction from its log file after writes that failed and after crashes: which
records are applied, and whether the direction taken by the first load is kept by later ones. -/

namespace Endurox.Tms

open Base Base.Text List Option

/-- A call of `tms_log_write_line`. A write that fails leaves the first bytes of its line, `cut`
of them, and at least the line end is missing. -/
structure LogWrite where
  tstamp : Int
  record : Rec
  cut : Option ℕ

def LogWrite.Valid (w : LogWrite) : Prop := Long w.tstamp ∧ w.record.Valid

instance (w : LogWrite) : Decidable w.Valid := inferInstanceAs (Decidable (_ ∧ _))

def LogWrite.bytes (w : LogWrite) : List Char :=
  match w.cut with
  | none => logLine w.tstamp w.record
  | some k => (lineBody w.tstamp w.record).take k

def logText (ws : List LogWrite) : List Char := ws.flatMap LogWrite.bytes

def reported (ws : List LogWrite) : List Rec :=
  (ws.filter (fun w => w.cut.isNone)).map LogWrite.record

def Clean : List Char → List LogWrite → Prop
  | _, [] => True
  | s, w :: ws => (w.cut = none → AtLineStart s) ∧ Clean (s ++ w.bytes) ws

instance decidableClean : (s : List Char) → (ws : List LogWrite) → Decidable (Clean s ws)
  | _, [] => inferInstanceAs (Decidable True)
  | s, w :: ws =>
    have := decidableClean (s ++ w.bytes) ws
    inferInstanceAs (Decidable (_ ∧ _))

def ReadsAs (s : List Char) (o : Option Loading) : Prop :=
  ∃ lines rest, s = lines ++ rest ∧ AtLineStart lines ∧ '\n' ∉ rest ∧
    scanText Scan.start lines = o.map (fun ld => ⟨ld, 2, false, true⟩)

variable {s : List Char} {o : Option Loading} {r : Rec}

theorem ReadsAs.line (h : ReadsAs s o) {tstamp : Int} (hts : Long tstamp) (hr : r.Valid)
    (hs : AtLineStart s) : ReadsAs (s ++ logLine tstamp r) (o.bind (fun ld => parseRec ld r)) := by
  obtain ⟨lines, _, rfl, hlines, hrest, hscan⟩ := h
  rw [hs.rest_nil hrest, append_nil]
  refine ⟨lines ++ logLine tstamp r, [], (append_nil _).symm, ?_, by simp, ?_⟩
  · rw [logLine, ← append_assoc]
    exact atLineStart_append_newline _
  rw [scanText_append hlines, hscan]
  cases o with
  | none => rfl
  | some ld =>
    show scanText ⟨ld, 2, false, true⟩ (logLine tstamp r) = _
    rw [scanText_logLine hts hr (.inl rfl)]
    rfl

theorem ReadsAs.torn (h : ReadsAs s o) {t : List Char} (ht : '\n' ∉ t) : ReadsAs (s ++ t) o := by
  obtain ⟨lines, rest, rfl, hlines, hrest, hscan⟩ := h
  refine ⟨lines, rest ++ t, append_assoc _ _ _, hlines, ?_, hscan⟩
  rw [mem_append]
  rintro (h | h)
  · exact hrest h
  · exact ht h

theorem ReadsAs.write (h : ReadsAs s o) {w : LogWrite}
    (hw : w.Valid) (hs : w.cut = none → AtLineStart s) :
    ReadsAs (s ++ w.bytes) (o.bind (fun ld => parseRecs ld (reported [w]))) := by
  rw [LogWrite.bytes]
  cases hcut : w.cut with
  | none =>
    have hrep : reported [w] = [w.record] := by simp [reported, hcut]
    simp only [hrep, parseRecs, bind_fun_some]
    exact h.line hw.1 hw.2 (hs hcut)
  | some =>
    have hrep : reported [w] = [] := by simp [reported, hcut]
    simp only [hrep, parseRecs, bind_fun_some]
    apply h.torn
    intro hmem
    exact not_mem_lineBody hw.1 hw.2 (.inl rfl) (mem_of_mem_take hmem)

theorem parseRecs_append (ld : Loading) (rs rs' : List Rec) :
    parseRecs ld (rs ++ rs') = (parseRecs ld rs).bind (fun ld' => parseRecs ld' rs') := by
  induction rs generalizing ld with
  | nil => rfl
  | cons r rs ih =>
    rw [cons_append, parseRecs, parseRecs, bind_assoc]
    simp [ih]

theorem ReadsAs.writes (h : ReadsAs s o) {ws : List LogWrite}
    (hws : ∀ w ∈ ws, w.Valid) (hclean : Clean s ws) :
    ReadsAs (s ++ logText ws) (o.bind (fun ld => parseRecs ld (reported ws))) := by
  induction ws generalizing s o with
  | nil =>
    simpa [logText, reported, parseRecs] using h
  | cons w ws ih =>
    have hstep := ih (h.write (hws w mem_cons_self) hclean.1)
      (fun v hv => hws v (mem_cons_of_mem _ hv)) hclean.2
    have hrep : reported (w :: ws) = reported [w] ++ reported ws := by
      rw [reported, reported, reported, ← map_append, ← filter_append]
      rfl
    rw [bind_assoc] at hstep
    simpa only [logText, flatMap_cons, append_assoc, hrep, parseRecs_append] using hstep

variable {ld : Loading}

theorem load_rest {lines rest : List Char} (hlines : AtLineStart lines) (hrest : '\n' ∉ rest)
    (hscan : scanText Scan.start lines = some ⟨ld, 2, false, true⟩) :
    tmsLoadText (lines ++ rest) =
      if ld.infosOk then some (ld.tl, decide (rest ≠ [])) else none := by
  rw [tmsLoadText, scanText_append hlines, hscan, bind_some]
  by_cases hne : rest = []
  · rw [hne]
    rfl
  · rw [scanText_tail hne hrest, decide_eq_true hne]
    rfl

theorem ReadsAs.load (h : ReadsAs s o) :
    (tmsLoadText s).map Prod.fst = o.bind (fun ld => if ld.infosOk then some ld.tl else none) := by
  obtain ⟨_, _, rfl, hlines, hrest, hscan⟩ := h
  cases o with
  | none =>
    rw [tmsLoadText, scanText_append hlines, hscan]
    rfl
  | some =>
    rw [load_rest hlines hrest hscan, bind_some]
    split <;> rfl

theorem readsAs_info {w : LogWrite} (hw : w.Valid) (hinfo : w.record.command = logCommandJ) :
    ReadsAs (logLine w.tstamp w.record) (parseRec ⟨false, Tl.blank⟩ w.record) := by
  refine ⟨logLine w.tstamp w.record, [], (append_nil _).symm, ?_, by simp, ?_⟩
  · exact atLineStart_append_newline _
  · exact scanText_logLine hw.1 hw.2 (.inr ⟨rfl, hinfo⟩)

theorem parseRec_isSome (hr : r.Valid) (hcmd : r.command ≠ logCommandJ) (hld : ld.infosOk = true) :
    ∃ ld', parseRec ld r = some ld' ∧ ld'.infosOk = true := by
  cases r with
  | info => exact absurd rfl hcmd
  | stage =>
    rw [parseRec, if_pos hld]
    exact ⟨_, rfl, hld⟩
  | rmstat =>
    have hrmid := hr.1
    rw [parseRec, if_pos hld, tmsParseRmstatus, if_neg (by omega)]
    exact ⟨_, rfl, hld⟩

variable {rs : List Rec}

theorem parseRecs_isSome (hrs : ∀ r ∈ rs, r.Valid ∧ r.command ≠ logCommandJ)
    (hld : ld.infosOk = true) : ∃ ld', parseRecs ld rs = some ld' ∧ ld'.infosOk = true := by
  induction rs generalizing ld with
  | nil => exact ⟨ld, rfl, hld⟩
  | cons r rs ih =>
    obtain ⟨hvalid, hcmd⟩ := hrs r mem_cons_self
    obtain ⟨_, h1, hok1⟩ := parseRec_isSome hvalid hcmd hld
    rw [parseRecs, h1]
    exact ih (fun q hq => hrs q (mem_cons_of_mem _ hq)) hok1

/-- When every write that succeeds starts a line, the load applies what was reported written and
nothing else, wherever the other writes were cut. -/
theorem recovery_applies_reported {w : LogWrite} {ws : List LogWrite}
    (hinfo : w.record.command = logCommandJ) (hok : w.cut = none)
    (hvalid : ∀ v ∈ w :: ws, v.Valid) (hclean : Clean [] (w :: ws)) :
    (tmsLoadText (logText (w :: ws))).map Prod.fst = readRecs (reported (w :: ws)) ∧
    ((∀ v ∈ ws, v.record.command ≠ logCommandJ) → (readRecs (reported (w :: ws))).isSome = true) := by
  have hbytes : w.bytes = logLine w.tstamp w.record := by
    rw [LogWrite.bytes, hok]
  have hrep : reported (w :: ws) = w.record :: reported ws := by
    simp [reported, hok]
  have hrest : ∀ v ∈ ws, v.Valid := fun v hv => hvalid v (mem_cons_of_mem _ hv)
  constructor
  · have hreads := (readsAs_info (hvalid w mem_cons_self) hinfo).writes hrest
      (by rw [← hbytes]; exact hclean.2)
    have hload := hreads.load
    rw [← hbytes] at hload
    rw [hrep]
    exact hload
  · intro hone
    obtain ⟨tl, htl⟩ : ∃ tl, parseRec ⟨false, Tl.blank⟩ w.record = some ⟨true, tl⟩ := by
      cases hrec : w.record with
      | info => exact ⟨_, rfl⟩
      | stage | rmstat =>
        rw [hrec] at hinfo
        exact absurd hinfo (by simp only [Rec.command]; decide)
    have hall : ∀ r ∈ reported ws, r.Valid ∧ r.command ≠ logCommandJ := by
      intro r hr
      obtain ⟨v, hv, rfl⟩ := mem_map.mp hr
      have hmem := (mem_filter.mp hv).1
      exact ⟨(hrest v hmem).2, hone v hmem⟩
    obtain ⟨_, hld, hokld⟩ := parseRecs_isSome hall (show (⟨true, tl⟩ : Loading).infosOk = true from rfl)
    rw [hrep, readRecs, parseRecs, htl, bind_some, hld, bind_some, if_pos hokld]
    rfl

theorem recovery_applies_reported_torn :
    (tmsLoadText (logText [⟨1, .info 1 1 1 60, none⟩, ⟨2, .stage 40, some 0⟩, ⟨3, .stage 40, none⟩,
      ⟨4, .stage 50, some 7⟩, ⟨5, .stage 20, some 3⟩])).map Prod.fst =
      readRecs (reported [⟨1, .info 1 1 1 60, none⟩, ⟨2, .stage 40, some 0⟩, ⟨3, .stage 40, none⟩,
        ⟨4, .stage 50, some 7⟩, ⟨5, .stage 20, some 3⟩]) :=
  (recovery_applies_reported (by decide) (by decide) (by decide) (by decide)).1

/-- The registration of a first branch is cut after one byte and fails. The second one is reported
written, but it stands on the line of the first. -/
theorem torn_line_swallows_next :
    (tmsLoadText (logText [⟨1, .info 1 1 1 60, none⟩, ⟨2, .rmstat 1 rmActive 0 0 0, some 1⟩,
      ⟨3, .rmstat 1 rmActive 0 0 1, none⟩])).map (fun p => p.1.branches) = some [] ∧
    (readRecs (reported [⟨1, .info 1 1 1 60, none⟩, ⟨2, .rmstat 1 rmActive 0 0 0, some 1⟩,
      ⟨3, .rmstat 1 rmActive 0 0 1, none⟩])).map Tl.branches = some [⟨1, 1, rmActive, 0, 0⟩] := by
  decide +kernel

def settle (s : Int) : Int := if Undecided s then stageAborting else s

/-- What the server that takes a transaction over from the log goes on with. -/
theorem takeOver_settle (tl : Tl) :
    Prog.Triple (fun _ => True) (takeOver tl) (fun tl' _ => tl'.txstage = settle tl.txstage)
      (fun _ => True) := by
  rw [takeOver, settle]
  split
  · rename_i hundecided
    have hne : {tl with isBackground := true}.txstage ≠ stageAborting := by
      rcases hundecided with h | h <;> show tl.txstage ≠ _ <;> rw [h] <;> decide
    apply Prog.Triple.bind (tmsLogStage_triple hne (fun _ h => h) (fun _ _ h => h)
      (fun _ _ (h : True) => h) (fun _ h => h) (fun _ h => h))
    intro r
    apply Prog.Triple.pure
    rintro d ⟨-, -, -, hdone, hfailed⟩
    cases hr : r.1 with
    | true => exact (hdone hr).1
    | false => exact absurd (hfailed hr).1 (by decide)
  · exact Prog.Triple.pure (fun _ _ => rfl)

def SameSide (s t : Int) : Prop :=
  (CommitSide s ∧ CommitSide t) ∨ (AbortSide s ∧ AbortSide t) ∨ (s = stagePrepro ∧ t = stagePrepro)

instance (s t : Int) : Decidable (SameSide s t) := inferInstanceAs (Decidable (_ ∨ _))

def Logged (s : Int) : Prop := Undecided s ∨ AbortSide s ∨ s = stagePrepro ∨ CommitSide s

instance (s : Int) : Decidable (Logged s) := inferInstanceAs (Decidable (_ ∨ _))

def readStage (s : List Char) : Option Int := (tmsLoadText s).map (fun p => p.1.txstage)

def stageRecord (buf : List Char) : Option Int :=
  match cutAt ':' buf, cutAt logRsSep buf with
  | some (_, p), some (text, rs) =>
    if crc32 text = scanHex rs ∧ p.headD '\x00' = logCommandStage then
      match tokens ':' text with
      | _ :: _ :: txstage :: _ => some (shortOf (atoi txstage))
      | _ => none
    else none
  | _, _ => none

/-- A line that is not terminated holds the colon behind the time, and it is no stage record that
would turn the transaction read from the lines before it. -/
def RestOk (s : List Char) : Prop :=
  lastLine s = [] ∨ ':' ∈ lastLine s ∧ ∀ txstage ∈ stageRecord (lastLine s), ∀ t ∈ readStage s,
    SameSide (settle t) (settle (applyStage t (.stage txstage)))

instance (s : List Char) : Decidable (RestOk s) := inferInstanceAs (Decidable (_ ∨ _))

def OnSide (s : Int) : Rec → Prop
  | .info .. => False
  | .stage t => SameSide s t
  | .rmstat .. => True

instance (s : Int) (r : Rec) : Decidable (OnSide s r) :=
  match r with
  | .info .. => inferInstanceAs (Decidable False)
  | .stage _ => inferInstanceAs (Decidable (SameSide _ _))
  | .rmstat .. => inferInstanceAs (Decidable True)

def linesText (ls : List (Int × Rec)) : List Char := ls.flatMap (fun l => logLine l.1 l.2)

/-- The server from a load to its crash: it terminates the last line and writes lines, the abort
of the load among them. Of all this the first `left` bytes are in the file. -/
structure Life where
  writes : List (Int × Rec)
  left : ℕ

def Life.next (l : Life) (s : List Char) : List Char :=
  match tmsLoadText s with
  | none => s
  | some (_, term) => s ++ ((if term then ['\n'] else []) ++ linesText l.writes).take l.left

def after : List Char → List Life → List Char
  | s, [] => s
  | s, l :: ls => after (l.next s) ls

def Life.Ok (l : Life) (s : List Char) : Prop :=
  RestOk s ∧ ∀ t ∈ readStage s, ∀ p ∈ l.writes, Long p.1 ∧ p.2.Valid ∧ OnSide (settle t) p.2

instance (l : Life) (s : List Char) : Decidable (l.Ok s) := inferInstanceAs (Decidable (_ ∧ _))

def LivesOk : List Char → List Life → Prop
  | _, [] => True
  | s, l :: ls => l.Ok s ∧ LivesOk (l.next s) ls

instance decidableLivesOk : (s : List Char) → (ls : List Life) → Decidable (LivesOk s ls)
  | _, [] => inferInstanceAs (Decidable True)
  | s, l :: ls =>
    have := decidableLivesOk (l.next s) ls
    inferInstanceAs (Decidable (_ ∧ _))

variable {t : Int}

theorem SameSide.symm {s : Int} (h : SameSide s t) : SameSide t s := by
  rcases h with h | h | h
  · exact .inl ⟨h.2, h.1⟩
  · exact .inr (.inl ⟨h.2, h.1⟩)
  · exact .inr (.inr ⟨h.2, h.1⟩)

theorem SameSide.trans {s u : Int} (h : SameSide s t) (h' : SameSide t u) : SameSide s u := by
  simp only [SameSide, CommitSide, AbortSide, stageCommitting, stageAbforgotHeu] at *
  omega

theorem OnSide.of_sameSide {s : Int} (h : SameSide s t) (hr : OnSide t r) : OnSide s r := by
  cases r with
  | info => exact hr
  | stage => exact h.trans hr
  | rmstat => exact hr

variable {d : Int}

theorem applyStage_sameSide (hd : SameSide d (settle t)) (hr : OnSide d r) :
    SameSide d (settle (applyStage t r)) := by
  cases r with
  | info => exact hd
  | rmstat => exact hd
  | stage txstage =>
    have hd' := hd
    have hr' : SameSide d txstage := hr
    rw [applyStage]
    simp only [settle, SameSide, CommitSide, AbortSide, Undecided, stageCommitting, stageActive, stagePreparing] at hd' hr' ⊢
    split_ifs at hd' ⊢ <;> omega

theorem foldl_applyStage_sameSide (hrs : ∀ r ∈ rs, OnSide d r) (hd : SameSide d (settle t)) :
    SameSide d (settle (rs.foldl applyStage t)) := by
  induction rs generalizing t with
  | nil => exact hd
  | cons r rs ih =>
    exact ih (fun q hq => hrs q (mem_cons_of_mem _ hq))
      (applyStage_sameSide hd (hrs r mem_cons_self))

theorem Logged.settled {s : Int} (h : Logged s) : SameSide (settle s) (settle s) := by
  simp only [Logged, settle, SameSide, CommitSide, AbortSide, Undecided,
    stageAborting, stageAbforgotHeu] at *
  split_ifs <;> omega

theorem foldl_applyStage_logged (hrs : ∀ s, Rec.stage s ∈ rs → Logged s) (ht : Logged t) :
    Logged (rs.foldl applyStage t) := by
  induction rs generalizing t with
  | nil => exact ht
  | cons r rs ih =>
    apply ih (fun s hs => hrs s (mem_cons_of_mem _ hs))
    cases r with
    | info => exact ht
    | rmstat => exact ht
    | stage txstage =>
      have hs := hrs txstage mem_cons_self
      rw [applyStage]
      split_ifs
      · exact hs
      · exact ht
      · exact hs

def LineOk (l : Int × Rec) : Prop := Long l.1 ∧ l.2.Valid ∧ l.2.command ≠ logCommandJ

instance (l : Int × Rec) : Decidable (LineOk l) := inferInstanceAs (Decidable (_ ∧ _))

def Torn (rest : List Char) : Prop := ∃ l k, LineOk l ∧ rest = (lineBody l.1 l.2).take k

theorem Torn.nil : Torn [] :=
  ⟨(0, .stage 0), 0, ⟨by decide, by decide, by decide⟩, rfl⟩

theorem Torn.newline_not_mem {rest : List Char} (h : Torn rest) : '\n' ∉ rest := by
  obtain ⟨_, _, hl, rfl⟩ := h
  exact fun hmem => not_mem_lineBody hl.1 hl.2.1 (.inl rfl) (mem_of_mem_take hmem)

theorem linesText_cons (l : Int × Rec) (ls : List (Int × Rec)) :
    linesText (l :: ls) = logLine l.1 l.2 ++ linesText ls := by
  rw [linesText, flatMap_cons, linesText]

variable {ls : List (Int × Rec)}

theorem linesText_take (hls : ∀ l ∈ ls, LineOk l) (n : ℕ) :
    ∃ j rest, (linesText ls).take n = linesText (ls.take j) ++ rest ∧ Torn rest := by
  induction ls generalizing n with
  | nil => exact ⟨0, [], by simp [linesText], Torn.nil⟩
  | cons l ls ih =>
    have hl := hls l mem_cons_self
    by_cases hn : n < (logLine l.1 l.2).length
    · -- the cut is in front of the line end
      refine ⟨0, (lineBody l.1 l.2).take n, ?_, l, n, hl, rfl⟩
      rw [logLine, length_append, length_singleton] at hn
      rw [linesText_cons, logLine, append_assoc, take_append_of_le_length (by omega)]
      rfl
    · obtain ⟨j, rest, hrest, htorn⟩ := ih (fun m hm => hls m (mem_cons_of_mem _ hm))
        (n-(logLine l.1 l.2).length)
      refine ⟨j+1, rest, ?_, htorn⟩
      rw [linesText_cons, take_append, take_of_length_le (by omega), hrest,
        take_succ_cons, linesText_cons, append_assoc]

theorem atLineStart_linesText (lines : List Char) (h : AtLineStart lines) (ls : List (Int × Rec)) :
    AtLineStart (lines ++ linesText ls) := by
  induction ls generalizing lines with
  | nil => simpa [linesText] using h
  | cons l ls ih =>
    have hline : AtLineStart (lines ++ logLine l.1 l.2) := by
      rw [logLine, ← append_assoc]
      exact atLineStart_append_newline _
    rw [linesText_cons, ← append_assoc]
    exact ih _ hline

theorem scanText_linesText (hls : ∀ l ∈ ls, LineOk l) (ld : Loading) :
    scanText ⟨ld, 2, false, true⟩ (linesText ls) =
      (parseRecs ld (ls.map Prod.snd)).map (fun ld => ⟨ld, 2, false, true⟩) := by
  induction ls generalizing ld with
  | nil => rfl
  | cons l ls ih =>
    have hl := hls l mem_cons_self
    have hstart : AtLineStart (logLine l.1 l.2) := atLineStart_append_newline _
    rw [linesText_cons, scanText_append hstart, scanText_logLine hl.1 hl.2.1 (.inl rfl),
      map_cons, parseRecs]
    cases parseRec ld l.2 with
    | none => rfl
    | some ld1 => exact ih (fun m hm => hls m (mem_cons_of_mem _ hm)) ld1

theorem parseRec_stage_or (hcmd : r.command ≠ logCommandJ) {ld' : Loading}
    (h : parseRec ld r = some ld') : ld'.tl.txstage = ld.tl.txstage ∨
      ∃ x, r = .stage x ∧ ld'.tl.txstage = applyStage ld.tl.txstage (.stage x) := by
  have hstage := parseRec_txstage h
  cases r with
  | info => exact absurd rfl hcmd
  | stage txstage => exact .inr ⟨txstage, rfl, hstage⟩
  | rmstat => exact .inl hstage

section

variable {tstamp : Int} {r : Rec}

theorem lineBody_take_sep (hts : Long tstamp) (hr : r.Valid) {k : ℕ}
    (hsep : logRsSep ∈ (lineBody tstamp r).take k) :
    ∃ hex, (lineBody tstamp r).take k = lineText tstamp r ++ logRsSep :: hex := by
  rw [lineBody, take_append] at hsep ⊢
  rcases mem_append.mp hsep with h | h
  · exact absurd (mem_of_mem_take h) (not_mem_lineText hts hr (.inl rfl))
  · obtain ⟨m, hm⟩ : ∃ m, k-(lineText tstamp r).length = m+1 :=
      Nat.exists_eq_succ_of_ne_zero (fun h0 => by rw [h0] at h; cases h)
    rw [hm, take_of_length_le (by omega)]
    exact ⟨_, rfl⟩

theorem readLine_checksum (hts : Long tstamp) (hr : r.Valid) (st : Scan) (hver : 1 < st.logVersion)
    (hex : List Char) :
    readLine st (lineText tstamp r ++ logRsSep :: hex) =
      if crc32 (lineText tstamp r) = scanHex hex then applyLine st r.command (lineText tstamp r)
      else some st := by
  obtain ⟨_, hp, hhead⟩ := cutAt_lineText hts hr (logRsSep :: hex)
  rw [readLine, hp, cutAt_append (not_mem_lineText hts hr (.inl rfl)), ← hhead]
  exact if_pos (.inr hver)

theorem stageRecord_checksum {x : Int} (hts : Long tstamp) (hx : Short x) {hex : List Char}
    (hcrc : crc32 (lineText tstamp (.stage x)) = scanHex hex) :
    stageRecord (lineText tstamp (.stage x) ++ logRsSep :: hex) = some x := by
  have hr : (Rec.stage x).Valid := hx
  obtain ⟨p, hp, hhead⟩ := cutAt_lineText hts hr (logRsSep :: hex)
  have htok : tokens ':' (lineText tstamp (.stage x)) =
      [decimal tstamp, [logCommandStage], decimal x] := by
    rw [tokens_lineText hts hr]
    simp [Rec.fields, Rec.command, decimal_ne_nil]
  rw [stageRecord, hp, cutAt_append (not_mem_lineText hts hr (.inl rfl))]
  show (if crc32 (lineText tstamp (.stage x)) = scanHex hex ∧ p.headD '\x00' = logCommandStage then
    (match tokens ':' (lineText tstamp (.stage x)) with
      | _ :: _ :: txstage :: _ => some (shortOf (atoi txstage))
      | _ => none) else none) = some x
  rw [if_pos ⟨hcrc, hhead⟩, htok]
  exact congrArg some hx.atoi_decimal

end

/-- A torn line that gets its end later changes at most the stage it names. -/
theorem Torn.terminated {rest : List Char} (h : Torn rest) (hcolon : ':' ∈ rest)
    (hld : ld.infosOk = true) :
    ∃ ld', scanText ⟨ld, 2, false, true⟩ (rest ++ ['\n']) = some ⟨ld', 2, false, true⟩ ∧
      ld'.infosOk = true ∧ (ld'.tl.txstage = ld.tl.txstage ∨ ∃ x, stageRecord rest = some x ∧
        ld'.tl.txstage = applyStage ld.tl.txstage (.stage x)) := by
  have hnl := h.newline_not_mem
  obtain ⟨l, k, ⟨hts, hr, hcmd⟩, rfl⟩ := h
  have hlen : ((lineBody l.1 l.2).take k).length < fgetsMax := by
    have := lineBody_length hts hr
    rw [length_take]
    unfold fgetsMax
    omega
  have hcr : ((lineBody l.1 l.2).take k).getLast? ≠ some '\r' := fun h =>
    not_mem_lineBody hts hr (.inr rfl) (mem_of_mem_take (mem_of_getLast? h))
  rw [scanText_line (ne_nil_of_mem hcolon) hnl hlen hcr]
  by_cases hsep : logRsSep ∈ (lineBody l.1 l.2).take k
  · obtain ⟨hex, hhex⟩ := lineBody_take_sep hts hr hsep
    rw [hhex, readLine_checksum hts hr _ Nat.one_lt_two]
    by_cases hcrc : crc32 (lineText l.1 l.2) = scanHex hex
    · obtain ⟨ld1, h1, hok1⟩ := parseRec_isSome hr hcmd hld
      rw [if_pos hcrc, applyLine_lineText hts hr _ (fun _ => rfl), h1]
      refine ⟨ld1, rfl, hok1, ?_⟩
      rcases parseRec_stage_or hcmd h1 with hsame | ⟨x, hx, hst⟩
      · exact .inl hsame
      · rw [hx] at hr hcrc ⊢
        exact .inr ⟨x, stageRecord_checksum hts hr hcrc, hst⟩
    · rw [if_neg hcrc]
      exact ⟨ld, rfl, hld, .inl rfl⟩
  · -- no separator, the line is passed over
    obtain ⟨⟨q, p⟩, hp⟩ : ∃ qp, cutAt ':' ((lineBody l.1 l.2).take k) = some qp := by
      rw [← ne_none_iff_exists', Ne, cutAt_eq_none, not_not]
      exact hcolon
    refine ⟨ld, ?_, hld, .inl rfl⟩
    rw [readLine, hp, cutAt_eq_none.mpr hsep]
    exact if_pos (.inr Nat.one_lt_two)

def Holds (s : List Char) (d : Int) : Prop :=
  ∃ lines rest ld, s = lines ++ rest ∧ AtLineStart lines ∧ Torn rest ∧
    scanText Scan.start lines = some ⟨ld, 2, false, true⟩ ∧ ld.infosOk = true ∧
    SameSide d (settle ld.tl.txstage)

theorem Holds.load (h : Holds s d) : ∃ t, readStage s = some t ∧ SameSide d (settle t) := by
  obtain ⟨_, _, ld, rfl, hlines, htorn, hscan, hok, hside⟩ := h
  refine ⟨ld.tl.txstage, ?_, hside⟩
  rw [readStage, load_rest hlines htorn.newline_not_mem hscan, if_pos hok]
  rfl

theorem scanText_lines_take {lines : List Char} (hlines : AtLineStart lines)
    (hscan : scanText Scan.start lines = some ⟨ld, 2, false, true⟩) (hok : ld.infosOk = true)
    (hls : ∀ l ∈ ls, LineOk l) (n : ℕ) :
    ∃ j lines1 rest ld1, lines ++ (linesText ls).take n = lines1 ++ rest ∧ AtLineStart lines1 ∧
      Torn rest ∧ scanText Scan.start lines1 = some ⟨ld1, 2, false, true⟩ ∧ ld1.infosOk = true ∧
      ld1.tl.txstage = ((ls.map Prod.snd).take j).foldl applyStage ld.tl.txstage := by
  obtain ⟨j, rest, hcut, htorn⟩ := linesText_take hls n
  have hmem {l : Int × Rec} (hl : l ∈ ls.take j) := hls l (mem_of_mem_take hl)
  have hrecs : ∀ r ∈ (ls.take j).map Prod.snd, r.Valid ∧ r.command ≠ logCommandJ := by
    intro r hr
    obtain ⟨l, hl, rfl⟩ := mem_map.mp hr
    exact (hmem hl).2
  obtain ⟨ld1, h1, hok1⟩ := parseRecs_isSome hrecs hok
  refine ⟨j, lines ++ linesText (ls.take j), rest, ld1, ?_, atLineStart_linesText lines hlines _,
    htorn, ?_, hok1, ?_⟩
  · rw [hcut, append_assoc]
  · rw [scanText_append hlines, hscan, bind_some, scanText_linesText (fun l hl => hmem hl), h1]
    rfl
  · rw [parseRecs_txstage h1, map_take]

theorem Holds.lines {lines : List Char} (hlines : AtLineStart lines)
    (hscan : scanText Scan.start lines = some ⟨ld, 2, false, true⟩) (hok : ld.infosOk = true)
    (hside : SameSide d (settle ld.tl.txstage)) (hls : ∀ l ∈ ls, LineOk l ∧ OnSide d l.2) (n : ℕ) :
    Holds (lines ++ (linesText ls).take n) d := by
  obtain ⟨_, lines1, rest, ld1, hfile, hlines1, htorn, hscan1, hok1, hstage⟩ :=
    scanText_lines_take hlines hscan hok (fun l hl => (hls l hl).1) n
  refine ⟨lines1, rest, ld1, hfile, hlines1, htorn, hscan1, hok1, ?_⟩
  rw [hstage]
  apply foldl_applyStage_sameSide _ hside
  intro r hr
  obtain ⟨l, hl, rfl⟩ := mem_map.mp (mem_of_mem_take hr)
  exact (hls l hl).2

theorem OnSide.not_info (h : OnSide d r) : r.command ≠ logCommandJ := by
  cases r with
  | info => cases h
  | stage => exact (by decide : logCommandStage ≠ logCommandJ)
  | rmstat => exact (by decide : logCommandRmstat ≠ logCommandJ)

/-- One life of the server keeps the decision in the log. -/
theorem Holds.next (h : Holds s d) {l : Life} (hl : l.Ok s) :
    Holds (l.next s) d := by
  obtain ⟨t, ht, hdt⟩ := h.load
  obtain ⟨hrestok, hwrites⟩ := hl
  have hls : ∀ p ∈ l.writes, LineOk p ∧ OnSide d p.2 := by
    intro p hp
    obtain ⟨hlong, hvalid, hon⟩ := hwrites t ht p hp
    exact ⟨⟨hlong, hvalid, hon.not_info⟩, hon.of_sameSide hdt⟩
  obtain ⟨lines, rest, ld, rfl, hlines, htorn, hscan, hok, hside⟩ := h
  have hnl := htorn.newline_not_mem
  have hload := load_rest hlines hnl hscan
  rw [if_pos hok] at hload
  have hstage : t = ld.tl.txstage := by
    rw [readStage, hload] at ht
    exact (some.inj ht).symm
  rw [Life.next, hload]
  by_cases hne : rest = []
  · -- the file ends with a line
    subst hne
    rw [append_nil] at *
    exact Holds.lines hlines hscan hok hside hls _
  rw [RestOk, lastLine_append hlines hnl] at hrestok
  obtain ⟨hcolon, hrec⟩ := hrestok.resolve_left hne
  cases hleft : l.left with
  | zero =>
    -- not even the line end got to the file
    refine ⟨lines, rest, ld, ?_, hlines, htorn, hscan, hok, hside⟩
    simp [hne]
  | succ m =>
    obtain ⟨ld1, h1, hok1, hstage1⟩ := htorn.terminated hcolon hok
    have hside1 : SameSide d (settle ld1.tl.txstage) := by
      rcases hstage1 with hsame | ⟨x, hx, hst⟩
      · rw [hsame]
        exact hside
      · rw [hst]
        have hturn := hrec x hx t ht
        rw [hstage] at hturn
        exact hside.trans hturn
    have hlines1 : AtLineStart (lines ++ (rest ++ ['\n'])) := by
      rw [← append_assoc]
      exact atLineStart_append_newline _
    have hscan1 : scanText Scan.start (lines ++ (rest ++ ['\n'])) = some ⟨ld1, 2, false, true⟩ := by
      rw [scanText_append hlines, hscan]
      exact h1
    have hnext := Holds.lines hlines1 hscan1 hok1 hside1 hls m
    simpa [hne] using hnext

theorem Holds.after (h : Holds s d) {ls : List Life} (hls : LivesOk s ls) :
    Holds (Tms.after s ls) d := by
  induction ls generalizing s with
  | nil => exact h
  | cons l ls ih => exact ih (h.next hls.1) hls.2

theorem scanText_info {tstamp : Int} (hts : Long tstamp) (hr : r.Valid)
    (hinfo : r.command = logCommandJ) :
    ∃ ld, scanText Scan.start (logLine tstamp r) = some ⟨ld, 2, false, true⟩ ∧ ld.infosOk = true ∧
      ld.tl.txstage = stageActive := by
  rw [scanText_logLine hts hr (.inr ⟨rfl, hinfo⟩)]
  cases r with
  | info => exact ⟨_, rfl, rfl, rfl⟩
  | stage => exact absurd hinfo (by decide : logCommandStage ≠ logCommandJ)
  | rmstat =>
    exact absurd hinfo (by decide : logCommandRmstat ≠ logCommandJ)

/-- A log with its info line, cut behind it at any byte: the first load finds a direction, and every
later one finds the same. -/
theorem recovered_side_stable {first : Int × Rec} {ls : List (Int × Rec)}
    (hfirst : Long first.1 ∧ first.2.Valid ∧ first.2.command = logCommandJ)
    (hls : ∀ l ∈ ls, LineOk l) (hlogged : ∀ s, Rec.stage s ∈ ls.map Prod.snd → Logged s)
    {n : ℕ} (hn : (logLine first.1 first.2).length ≤ n) {lives : List Life}
    (hlives : LivesOk ((linesText (first :: ls)).take n) lives) :
    ∃ s t, readStage ((linesText (first :: ls)).take n) = some s ∧
      readStage (after ((linesText (first :: ls)).take n) lives) = some t ∧
      SameSide (settle s) (settle t) := by
  have hcut : (linesText (first :: ls)).take n =
      logLine first.1 first.2 ++ (linesText ls).take (n-(logLine first.1 first.2).length) := by
    rw [linesText_cons, take_append, take_of_length_le hn]
  -- what the crash left is the file of a transaction with a direction
  have hfile : ∃ d, Holds ((linesText (first :: ls)).take n) d := by
    obtain ⟨_, hscan, hok, hactive⟩ := scanText_info hfirst.1 hfirst.2.1 hfirst.2.2
    obtain ⟨_, lines1, rest, ld1, hsplit, hlines1, htorn, hscan1, hok1, hstage⟩ :=
      scanText_lines_take (atLineStart_append_newline _) hscan hok hls
        (n-(logLine first.1 first.2).length)
    have hdirection : Logged ld1.tl.txstage := by
      rw [hstage, hactive]
      apply foldl_applyStage_logged _ (.inl (.inl rfl))
      intro s hs
      exact hlogged s (mem_of_mem_take hs)
    rw [hcut]
    exact ⟨settle ld1.tl.txstage, lines1, rest, ld1, hsplit, hlines1, htorn, hscan1, hok1,
      hdirection.settled⟩
  obtain ⟨_, hholds⟩ := hfile
  obtain ⟨s, hs, hds⟩ := hholds.load
  obtain ⟨t, ht, hdt⟩ := (hholds.after hlives).load
  exact ⟨s, t, hs, ht, hds.symm.trans hdt⟩

theorem recovered_side_stable_commit :
    ∃ s t, readStage ((linesText [(1, .info 1 1 1 60), (2, .stage 40), (3, .stage 50),
        (4, .rmstat 1 rmCommitted 0 0 0)]).take 60) = some s ∧
      readStage (after ((linesText [(1, .info 1 1 1 60), (2, .stage 40), (3, .stage 50),
        (4, .rmstat 1 rmCommitted 0 0 0)]).take 60)
        [⟨[(5, .rmstat 1 rmCommitted 0 0 0), (6, .stage 70)], 35⟩, ⟨[(7, .stage 70)], 4⟩]) = some t ∧
      SameSide (settle s) (settle t) :=
  recovered_side_stable (by decide) (by decide) (by
      intro s hs
      simp only [map_cons, mem_cons, Rec.stage.injEq, reduceCtorEq, map_nil,
        not_mem_nil, or_false] at hs
      rcases hs with rfl | rfl
      · decide
      · decide) (by decide) (by decide +kernel)

/-- Without participants a transaction is on neither side. A stage record that only lacks its line
end is not read by the first load, but by the next, and turns the commit. A time without its colon
is terminated by the first load, and the next one fails at it. -/
theorem recovered_side_fails :
    (readStage (linesText [(1, .info 1 1 1 60), (2, .stage 40), (3, .stage 41)]) = some stagePrepro ∧
      ¬ CommitSide (settle stagePrepro) ∧ ¬ AbortSide (settle stagePrepro)) ∧
    (readStage ((linesText [(1, .info 1 1 1 60), (2, .stage 40), (3, .stage 50),
        (4, .stage 20)]).take 70) = some stageCommitting ∧
      readStage (after ((linesText [(1, .info 1 1 1 60), (2, .stage 40), (3, .stage 50),
        (4, .stage 20)]).take 70) [⟨[], 1⟩]) = some stageAborting) ∧
    (readStage ((linesText [(1, .info 1 1 1 60), (2, .stage 40), (3, .stage 50),
        (4, .stage 55)]).take 56) = some stageCommitting ∧
      readStage (after ((linesText [(1, .info 1 1 1 60), (2, .stage 40), (3, .stage 50),
        (4, .stage 55)]).take 56) [⟨[], 1⟩]) = none) := by
  decide +kernel

end Endurox.Tms
