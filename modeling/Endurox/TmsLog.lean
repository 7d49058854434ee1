import Endurox.BaseCrash
import Endurox.XaStates

/-! The transaction log of tmsrv (`log.c`, `btid.c`) as a list of records: what a record does to
the transaction when the log is read, and how records are written. -/

namespace Endurox.Tms

open Base

structure Branch where
  rmid : Int
  btid : Int
  rmstatus : Char
  rmerrorcode : Int
  rmreason : Int
  deriving DecidableEq

/-- The journal of a transaction. The branches stand in the order in which the table of resource
managers and their hashes are walked. -/
structure Tl where
  txstage : Int
  txtout : Int
  branches : List Branch
  tidcounter : Int → Int
  isBackground : Bool
  locked : Bool  -- `lockthreadid` is set

def tmsUnlockEntry (tl : Tl) : Tl := {tl with locked := false}

inductive Rec where
  | info (tmrmid tmnodeid tmsrvid txtout : Int)
  | stage (stage : Int)
  | rmstat (rmid : Int) (rmstatus : Char) (rmerrorcode rmreason btid : Int)
  deriving DecidableEq

def ndrxMaxRms : Int := 32

def shortOf (x : Int) : Int := wrap 32768 x

def tmsBtidGettid (tl : Tl) (rmid : Int) : Int × Tl :=
  (tl.tidcounter rmid,
    {tl with tidcounter := Function.update tl.tidcounter rmid (wrap64 (tl.tidcounter rmid+1))})

def tmsBtidFind (tl : Tl) (rmid btid : Int) : Option Branch :=
  tl.branches.find? (fun b => b.rmid = rmid ∧ b.btid = btid)

def tmsBtidAdd (tl : Tl) (b : Branch) : Tl :=
  {tl with
    branches := tl.branches.takeWhile (fun c => c.rmid ≤ b.rmid) ++
      b :: tl.branches.dropWhile (fun c => c.rmid ≤ b.rmid)
    tidcounter := if tl.tidcounter b.rmid ≤ b.btid then
        Function.update tl.tidcounter b.rmid (wrap64 (b.btid+1)) else tl.tidcounter}

def Tl.setBranch (tl : Tl) (b : Branch) : Tl :=
  {tl with branches := tl.branches.map (fun c => if c.rmid = b.rmid ∧ c.btid = b.btid then b else c)}

def tmsBtidAddupd (tl : Tl) (rmid btid : Int) (rmstatus : Char) (rmerrorcode rmreason : Int) :
    Bool × Branch × Tl :=
  match if btid = -1 then none else tmsBtidFind tl rmid btid with
  | some b =>
    -- during registration the status is NULL and the old one stays
    let b' := if rmstatus = rmNull then b else ⟨b.rmid, b.btid, rmstatus, rmerrorcode, rmreason⟩
    (true, b', tl.setBranch b')
  | none =>
    let r := if btid = -1 then tmsBtidGettid tl rmid else (btid, tl)
    let b : Branch := ⟨rmid, r.1, rmstatus, rmerrorcode, rmreason⟩
    (false, b, tmsBtidAdd r.2 b)

def tmsParseStage (stage : Int) (tl : Tl) : Tl :=
  if AbortSide tl.txstage then
    -- once the abort was read, nothing leads back
    if AbortSide stage then {tl with txstage := stage} else tl
  else {tl with txstage := stage}

def tmsParseRmstatus (rmid : Int) (rmstatus : Char) (rmerrorcode rmreason btid : Int) (tl : Tl) :
    Option Tl :=
  if rmid < 1 ∨ ndrxMaxRms < rmid then none
  else some (tmsBtidAddupd tl rmid btid rmstatus rmerrorcode rmreason).2.2

structure Loading where
  infosOk : Bool
  tl : Tl

def parseRec (st : Loading) : Rec → Option Loading
  | .info _ _ _ txtout =>
    if st.infosOk then none else some ⟨true, {st.tl with txtout := txtout}⟩
  | .stage stage => if st.infosOk then some {st with tl := tmsParseStage stage st.tl} else none
  | .rmstat rmid rmstatus rmerrorcode rmreason btid =>
    if st.infosOk then
      (tmsParseRmstatus rmid rmstatus rmerrorcode rmreason btid st.tl).map
        (fun tl => {st with tl := tl})
    else none

def Tl.blank : Tl := ⟨stageActive, 0, [], fun _ => 0, false, false⟩

def parseRecs : Loading → List Rec → Option Loading
  | st, [] => some st
  | st, r :: rs => (parseRec st r).bind (fun st' => parseRecs st' rs)

def readRecs (log : List Rec) : Option Tl :=
  (parseRecs ⟨false, Tl.blank⟩ log).bind (fun st => if st.infosOk then some st.tl else none)

/-- The answer to one request: does the write succeed, is the line there although it failed, or
the code the XA call ends with and the ATMI error left behind. -/
structure Answer where
  ok : Bool
  landed : Bool
  reason : CInt
  tperrno : Int

/-- What a run leaves behind: the calls made and the stages it set out to log, with the branches
at that moment. -/
inductive Event where
  | call (op : XaOp) (rmid btid : Int)
  | stage (stage : Int) (branches : List Branch)
  deriving DecidableEq

/-- What outlives the process: the log file, the calls made so far, and the answers to come. The
process may be gone before any request, namely when there is no answer left. -/
structure Disk where
  log : Option (List Rec)
  trace : List Event
  answers : List Answer

def Disk.rest (d : Disk) (as : List Answer) : Disk := {d with answers := as}

def Disk.noted (d : Disk) (e : Event) : Disk := {d with trace := d.trace ++ [e]}

def Disk.wrote (d : Disk) (r : Rec) : Disk := {d with log := d.log.map (fun log => log ++ [r])}

def ask : Prog Disk Answer := fun d =>
  match d.answers with
  | [] => (none, d)
  | a :: as => (some a, d.rest as)

def note (e : Event) : Prog Disk Unit := Prog.change (fun d => d.noted e)

def tmsLogWriteLine (r : Rec) : Prog Disk Bool := do
  let a ← ask
  if a.ok ∨ a.landed then
    Prog.change (fun d => d.wrote r)
    pure a.ok
  else pure false

def ndrxFsync : Prog Disk Bool := do
  let a ← ask
  pure a.ok

def tmsLogCheckpointseq : Prog Disk Bool := do
  let a ← ask
  pure a.ok

def writeStages (stage : Int) : ℕ → Prog Disk Bool
  | 0 => pure true
  | n+1 => do
    let ok ← tmsLogWriteLine (.stage stage)
    if ok then writeStages stage n else pure false

def syncStage : Prog Disk Bool := do
  let ok ← ndrxFsync
  if ok then
    let ok ← ndrxFsync
    if ok then tmsLogCheckpointseq else pure false
  else pure false

def lockStage (stage : Int) : Prog Disk Bool :=
  if stage = stageCommitting then tmsLogCheckpointseq else pure true

def putStage (stage : Int) : Prog Disk Bool := do
  let locked ← lockStage stage
  if locked then
    -- an abort is written three times
    let ok ← writeStages stage (if stage = stageAborting then 3 else 1)
    if ok then
      if stage = stageCommitting ∨ stage = stageAborting then syncStage else pure true
    else pure false
  else pure false

def tmsLogStage (tl : Tl) (stage : Int) (forced : Bool) : Prog Disk (Bool × Tl) :=
  if tl.txstage = stage then pure (true, tl)
  else do
    note (.stage stage tl.branches)
    let ok ← putStage stage
    if forced then pure (true, {tl with txstage := stage})
    else if ok then pure (true, {tl with txstage := stage})
    else if tl.txstage = -1 then pure (false, {tl with txstage := stage})
    else pure (false, tl)

def tmsLogRmstatus (b : Branch) (rmstatus : Char) (rmerrorcode rmreason : Int) :
    Prog Disk (Bool × Branch) :=
  if b.rmstatus = rmstatus then
    pure (true, ⟨b.rmid, b.btid, rmstatus, rmerrorcode, shortOf rmreason⟩)
  else do
    let ok ← tmsLogWriteLine (.rmstat b.rmid rmstatus rmerrorcode (shortOf rmreason) b.btid)
    pure (ok, ⟨b.rmid, b.btid, rmstatus, rmerrorcode, shortOf rmreason⟩)

def takeOver (tl : Tl) : Prog Disk Tl :=
  if Undecided tl.txstage then do
    let r ← tmsLogStage {tl with isBackground := true} stageAborting true
    pure r.2
  else pure {tl with isBackground := true}

def tmsLoadLogfile : Prog Disk (Option Tl) := do
  let d ← Prog.look
  match d.log.bind readRecs with
  | none => pure none
  | some tl => do
    let tl ← takeOver tl
    pure (some tl)

def tmsRemoveLogfile : Prog Disk Unit := do
  let a ← ask
  if a.ok then Prog.change (fun d => {d with log := none}) else pure ()

open Base.Prog (Triple)

section

variable {J J' : Disk → Prop}

/-- After a write: the second condition if it went well, and else the first. -/
def Took (J J' : Disk → Prop) (ok : Bool) (d : Disk) : Prop := if ok = true then J' d else J d

theorem took_of (hsub : ∀ d, J' d → J d) (ok : Bool) (d : Disk) (hd : J' d) : Took J J' ok d := by
  rw [Took]
  split
  · exact hd
  · exact hsub d hd

theorem Took.weak (hsub : ∀ d, J' d → J d) {ok : Bool} {d : Disk} (hd : Took J J' ok d) : J d := by
  rw [Took] at hd
  split at hd
  · exact hsub d hd
  · exact hd

section

variable (hrest : ∀ d as, J d → J (d.rest as))
include hrest

theorem ask_triple : Triple J ask (fun _ => J) J := by
  intro d hd
  rw [ask]
  cases d.answers with
  | nil => exact hd
  | cons a as => exact hrest d as hd

theorem answer_triple : Triple J (do let a ← ask; pure a.ok) (fun _ => J) J := by
  apply Triple.bind (ask_triple hrest)
  intro a
  apply Triple.pure
  exact fun _ hd => hd

theorem tmsLogWriteLine_triple {r : Rec} (hsub : ∀ d, J' d → J d)
    (hline : ∀ d, J d → J' (d.wrote r)) : Triple J (tmsLogWriteLine r) (Took J J') J := by
  apply Triple.bind (ask_triple hrest)
  intro a
  split
  · apply Triple.bind (M := fun _ => J') (Triple.change hline)
    exact fun _ => Triple.pure (took_of hsub _)
  · exact Triple.pure (fun _ hd => hd)

theorem tmsLogRmstatus_triple {b : Branch} {rmstatus : Char} {rmerrorcode rmreason : Int}
    (hline : ∀ d err reason, J d → J (d.wrote (.rmstat b.rmid rmstatus err reason b.btid))) :
    Triple J (tmsLogRmstatus b rmstatus rmerrorcode rmreason)
      (fun r d => J d ∧ r.2.rmstatus = rmstatus) J := by
  rw [tmsLogRmstatus]
  split
  · apply Triple.pure
    exact fun _ hd => ⟨hd, rfl⟩
  apply Triple.bind (tmsLogWriteLine_triple hrest (fun _ h => h) (fun d => hline d _ _))
  intro ok
  apply Triple.pure
  intro d hd
  exact ⟨hd.weak (fun _ h => h), rfl⟩

/-- The stage counts as logged only when its line was written. -/
theorem putStage_triple {s : Int} (hrest' : ∀ d as, J' d → J' (d.rest as))
    (hsub : ∀ d, J' d → J d) (hline : ∀ d, J d → J' (d.wrote (.stage s))) :
    Triple J (putStage s) (Took J J') J := by
  have hask : Triple J' (do let a ← ask; pure a.ok) (fun _ => J') J :=
    (answer_triple hrest').crash hsub
  have hpure (ok : Bool) : Triple J' (pure ok) (Took J J') J := Triple.pure (took_of hsub ok)
  have hno : Triple J (pure false) (Took J J') J := Triple.pure (fun _ hd => hd)
  -- more copies of a record that is there already
  have hmore (n : ℕ) : Triple J' (writeStages s n) (Took J J') J := by
    induction n with
    | zero => exact hpure true
    | succ n ih =>
      apply Triple.bind ((tmsLogWriteLine_triple hrest hsub hline).conseq hsub (fun _ _ hd => hd)
        (fun _ hd => hd))
      intro ok
      cases ok
      · exact hno
      · exact ih
  have hwrite (n : ℕ) : Triple J (writeStages s (n+1)) (Took J J') J := by
    apply Triple.bind (tmsLogWriteLine_triple hrest hsub hline)
    intro ok
    cases ok
    · exact hno
    · exact hmore n
  have hsync : Triple J' syncStage (Took J J') J := by
    apply Triple.bind hask
    intro ok
    split
    · apply Triple.bind hask
      intro ok
      split
      · exact hask.post (took_of hsub)
      · exact hpure false
    · exact hpure false
  have hlock : Triple J (lockStage s) (fun _ => J) J := by
    rw [lockStage]
    split
    · exact answer_triple hrest
    · exact Triple.pure (fun _ hd => hd)
  apply Triple.bind hlock
  intro locked
  split
  · have hcount : ∃ n, (if s = stageAborting then 3 else 1) = n+1 := by
      split
      · exact ⟨2, rfl⟩
      · exact ⟨0, rfl⟩
    obtain ⟨n, hn⟩ := hcount
    rw [hn]
    apply Triple.bind (hwrite n)
    intro ok
    cases ok
    · exact hno
    · show Triple J' (if s = stageCommitting ∨ s = stageAborting then syncStage else pure true) _ J
      split
      · exact hsync
      · exact hpure true
  · exact hno

end

/-- A stage that is new is noted first; whatever happens then, the journal is at the new stage
or, when it is not forced, may have stayed. -/
theorem tmsLogStage_triple {I : Disk → Prop} {tl : Tl} {s : Int} {forced : Bool}
    (hne : tl.txstage ≠ s) (hnote : ∀ d, I d → J (d.noted (.stage s tl.branches)))
    (hrest : ∀ d as, J d → J (d.rest as)) (hrest' : ∀ d as, J' d → J' (d.rest as))
    (hsub : ∀ d, J' d → J d) (hline : ∀ d, J d → J' (d.wrote (.stage s))) :
    Triple I (tmsLogStage tl s forced)
      (fun r d => J d ∧ r.2.branches = tl.branches ∧ r.2.isBackground = tl.isBackground ∧
        (r.1 = true → r.2.txstage = s ∧ (forced = false → J' d)) ∧
        (r.1 = false → forced = false ∧ (tl.txstage ≠ -1 → r.2.txstage = tl.txstage))) J := by
  rw [tmsLogStage, if_neg hne]
  apply Triple.bind (M := fun _ => J) (Triple.change hnote)
  intro _
  apply Triple.bind (putStage_triple hrest hrest' hsub hline)
  intro ok
  have hJ (d : Disk) (hd : Took J J' ok d) : J d := hd.weak hsub
  cases forced with
  | true =>
    apply Triple.pure
    intro d hd
    exact ⟨hJ d hd, rfl, rfl, fun _ => ⟨rfl, fun h => by cases h⟩, fun h => by cases h⟩
  | false =>
    cases ok with
    | true =>
      apply Triple.pure
      intro d hd
      exact ⟨hJ d hd, rfl, rfl, fun _ => ⟨rfl, fun _ => hd⟩, fun h => by cases h⟩
    | false =>
      by_cases hm : tl.txstage = -1
      · rw [if_pos hm]
        apply Triple.pure
        intro d hd
        exact ⟨hd, rfl, rfl, fun h => (by cases h), fun _ => ⟨rfl, fun h => absurd hm h⟩⟩
      · rw [if_neg hm]
        apply Triple.pure
        intro d hd
        exact ⟨hd, rfl, rfl, fun h => (by cases h), fun _ => ⟨rfl, fun _ => rfl⟩⟩

theorem tmsRemoveLogfile_triple (hrest : ∀ d as, J d → J (d.rest as))
    (hnone : ∀ d, J d → J {d with log := none}) :
    Triple J tmsRemoveLogfile (fun _ => J) J := by
  apply Triple.bind (ask_triple hrest)
  intro a
  split
  · exact Triple.change hnone
  · exact Triple.pure (fun _ h => h)

end

def applyStage (s : Int) : Rec → Int
  | .stage t => if AbortSide s then if AbortSide t then t else s else t
  | _ => s

def replayStage (log : List Rec) : Int := log.foldl applyStage stageActive

theorem replayStage_append (log : List Rec) (r : Rec) :
    replayStage (log ++ [r]) = applyStage (replayStage log) r := by
  simp [replayStage]

theorem tmsParseStage_txstage (stage : Int) (tl : Tl) :
    (tmsParseStage stage tl).txstage = applyStage tl.txstage (.stage stage) := by
  rw [tmsParseStage, applyStage]
  split
  · split <;> rfl
  · rfl

theorem tmsBtidAddupd_frame (tl : Tl) (rmid btid : Int) (rmstatus : Char)
    (rmerrorcode rmreason : Int) :
    (tmsBtidAddupd tl rmid btid rmstatus rmerrorcode rmreason).2.2.txstage = tl.txstage ∧
    (tmsBtidAddupd tl rmid btid rmstatus rmerrorcode rmreason).2.2.isBackground =
      tl.isBackground := by
  rw [tmsBtidAddupd]
  split
  · exact ⟨rfl, rfl⟩
  · split
    · exact ⟨rfl, rfl⟩
    · exact ⟨rfl, rfl⟩

theorem parseRec_txstage {st st' : Loading} {r : Rec} (h : parseRec st r = some st') :
    st'.tl.txstage = applyStage st.tl.txstage r := by
  cases r with
  | info =>
    rw [parseRec] at h
    split at h
    · cases h
    · cases h
      rfl
  | stage stage =>
    rw [parseRec] at h
    split at h
    · cases h
      exact tmsParseStage_txstage stage st.tl
    · cases h
  | rmstat =>
    rw [parseRec, tmsParseRmstatus] at h
    split at h
    · split at h
      · cases h
      · cases h
        exact (tmsBtidAddupd_frame _ _ _ _ _ _).1
    · cases h

theorem parseRecs_txstage {st st' : Loading} {rs : List Rec} (h : parseRecs st rs = some st') :
    st'.tl.txstage = rs.foldl applyStage st.tl.txstage := by
  induction rs generalizing st with
  | nil =>
    cases h
    rfl
  | cons r rs ih =>
    obtain ⟨_, h1, h2⟩ := Option.bind_eq_some_iff.mp h
    rw [ih h2, parseRec_txstage h1, List.foldl_cons]

theorem readRecs_txstage {log : List Rec} {tl : Tl} (h : readRecs log = some tl) :
    tl.txstage = replayStage log := by
  obtain ⟨_, h1, h2⟩ := Option.bind_eq_some_iff.mp h
  split at h2
  · cases h2
    exact parseRecs_txstage h1
  · cases h2

end Endurox.Tms
