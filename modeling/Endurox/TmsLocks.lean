import Endurox.BaseLocks
import Endurox.TmsRequest

/-! The locks of the transactions in tmsrv (`log.c`, `tmapi.c`, `tmsrv.c`, `background.c`): which
operations leave a transaction locked. -/

namespace Endurox.Tms

open Base Base.Locks

def tmsOpenLogfile : Prog Disk Bool := do
  let a ← ask
  if a.ok then
    Prog.change (fun d => {d with log := some (d.log.getD [])})
    pure true
  else pure false

/-- `tms_log_start` up to `out`. -/
def logStart (tmrmid tmnodeid tmsrvid : Int) (dynamicReg noStartXid : Bool) (tl : Tl) :
    Prog Disk (Bool × Tl) := do
  let opened ← tmsOpenLogfile
  if opened then
    let ok ← tmsLogWriteLine (.info tmrmid tmnodeid tmsrvid tl.txtout)
    if ok then
      if dynamicReg then pure (true, tl)
      else
        let r := tmsBtidAddupd tl tmrmid (-1) rmNull 0 0
        let s ← tmsLogRmstatus r.2.1 (if noStartXid then rmUnknown else rmActive) 0 0
        pure (s.1, r.2.2.setBranch s.2)
    else pure (false, tl)
  else pure (false, tl)

def tmsLogStart (tmrmid tmnodeid tmsrvid : Int) (dynamicReg noStartXid : Bool) (tl : Tl) :
    Prog Disk (Option Tl) := do
  let r ← logStart tmrmid tmnodeid tmsrvid dynamicReg noStartXid tl
  if r.1 then pure (some (tmsUnlockEntry r.2))
  else
    tmsRemoveLogfile
    pure none

inductive Visit where
  | tpbegin (txtout tmrmid tmnodeid tmsrvid : Int) (dynamicReg noStartXid : Bool)
  | tmregister (rmid btid : Int) (noStartXid : Bool)
  | rmstatus (rmid btid : Int) (rmstatus : Char)
  | tpcommit (cmtLogged : Bool)
  | tpabort
  | status
  | aborttrans
  | committrans
  | toutCheck
  | background

def leftOf : Option Tl → Left Tl
  | none => .remove
  | some tl => if tl.locked then .keep tl else .unlock tl

section

variable (cfg : Config) (fuel : ℕ)

/-- The work on a locked transaction, what becomes of it, and whether the operation goes on. -/
def visit (tl : Tl) : Visit → Prog Disk (Option Tl × Bool)
  | .tpbegin _ tmrmid tmnodeid tmsrvid dynamicReg noStartXid => do
    let r ← tmsLogStart tmrmid tmnodeid tmsrvid dynamicReg noStartXid tl
    pure (r, true)
  | .tmregister rmid btid noStartXid => do
    let r ← tmsLogAddrm tl rmid btid noStartXid
    pure (some r.2, true)
  | .rmstatus rmid btid rmstatus => do
    let r ← tmsLogChrmstat tl rmid btid rmstatus
    pure (some r.2, true)
  | .tpcommit cmtLogged => do
    let e ← tmTpcommit cfg fuel cmtLogged tl
    pure (e.tl, true)
  | .tpabort => do
    let e ← tmTpabort cfg fuel tl
    pure (e.tl, true)
  | .status => pure (some (tmsUnlockEntry tl), true)
  | .aborttrans => do
    let e ← tmAborttrans cfg fuel tl
    pure (e.tl, true)
  | .committrans => do
    let e ← tmCommittrans cfg fuel tl
    pure (e.tl, true)
  | .toutCheck =>
    if tl.txstage = stageActive then do
      let e ← abortAndDrive cfg fuel tl
      pure (e.tl, true)
    -- found in progress: that is logged
    else pure (some tl, true)
  | .background => do
    let ok ← tmsLogCheckpointseq
    if ok then
      let e ← tmDrive cfg fuel .commit false tl
      pure (e.tl, true)
    else pure (some tl, false)

/-- An operation of the server: a request about one transaction, or a pass over those of the hash,
as far as their time is out or they have tries left. -/
inductive Operation where
  | request (tmxid : String) (v : Visit)
  | txToutCheck (tmxids : List String)
  | backgroundLoop (tmxids : List String)

def Operation.visits (hash : String → Option Tl) : Operation → List (String × Visit)
  | .request tmxid v => [(tmxid, v)]
  | .txToutCheck tmxids =>
    (tmxids.filter (fun x => (hash x).any (fun tl => !tl.isBackground && tl.txstage == stageActive))).map
      (fun x => (x, .toutCheck))
  | .backgroundLoop tmxids =>
    (tmxids.filter (fun x => (hash x).any (fun tl => tl.isBackground))).map (fun x => (x, .background))

structure Work where
  fuel : ℕ
  disk : Disk

def locking : Scheme String Visit Tl Work Operation where
  visits op hash := op.visits hash
  makes
    | .tpbegin txtout _ _ _ _ _ => some {Tl.blank with txtout := txtout}
    | _ => none
  -- the thread that looks the entry up is in its `lockthreadid`
  leaves v w tl :=
    (visit cfg w.fuel {tl with locked := true} v w.disk).1.map (fun r => (leftOf r.1, r.2))

end

/-- A timeout check finds the transaction active still, and a background pass is told that the process
group is locked. -/
def Visit.Undisturbed (v : Visit) (w : Work) (tl : Tl) : Prop :=
  match v with
  | .toutCheck => tl.txstage = stageActive
  | .background => ∀ a ∈ w.disk.answers.head?, a.ok = true
  | _ => True

def Gives {β : Type} (P : β → Prop) (p : Prog Disk β) (d : Disk) : Prop :=
  ∀ b, (p d).1 = some b → P b

def Unlocked (o : Option Tl) : Prop := ∀ tl ∈ o, tl.locked = false

section

variable {β γ : Type} {P : β → Prop} {d : Disk}

theorem Gives.pure {b : β} (h : P b) : Gives P (Pure.pure b) d := by
  intro b' hb
  cases hb
  exact h

theorem Gives.stop : Gives P Prog.stop d := by
  intro b hb
  cases hb

theorem Gives.bind {p : Prog Disk γ} {f : γ → Prog Disk β}
    (h : ∀ c d', p d = (some c, d') → Gives P (f c) d') : Gives P (p >>= f) d := by
  intro b hb
  obtain ⟨c, d', hp, hb⟩ := Prog.bind_returned hb
  exact h c d' hp b hb

/-- A program that hands on what another one returns. -/
theorem Gives.map {Q : γ → Prop} {p : Prog Disk γ} {f : γ → β} (hp : Gives Q p d)
    (h : ∀ c, Q c → P (f c)) : Gives P (p >>= fun c => Pure.pure (f c)) d :=
  Gives.bind (fun c _ hc => Gives.pure (h c (hp c (congrArg Prod.fst hc))))

theorem unlocked_none : Unlocked none := by
  intro tl htl
  cases htl

theorem unlocked_unlock (tl : Tl) : Unlocked (some (tmsUnlockEntry tl)) := by
  intro tl' htl
  cases htl
  rfl

end

section

variable (cfg : Config)

theorem tmDrive_unlocks (fuel : ℕ) (masterOp : XaOp) (cmtLogged : Bool) (tl : Tl) (d : Disk) :
    Gives (fun e => Unlocked e.tl) (tmDrive cfg fuel masterOp cmtLogged tl) d := by
  rw [tmDrive]
  generalize 0 = try_
  induction fuel generalizing tl try_ d with
  | zero => exact Gives.stop
  | succ fuel ih =>
    apply Gives.bind
    intro next d' _
    cases next with
    | again tl try_ => exact ih tl d' try_
    | leave => exact Gives.pure (unlocked_unlock _)
    | done descr tl =>
      show Gives _ (driveDone masterOp descr tl) d'
      rw [driveDone]
      split
      · apply Gives.bind
        intro _ d'' _
        exact Gives.pure unlocked_none
      · exact Gives.pure (unlocked_unlock _)

theorem abortAndDrive_unlocks (fuel : ℕ) (tl : Tl) (d : Disk) :
    Gives (fun e => Unlocked e.tl) (abortAndDrive cfg fuel tl) d :=
  Gives.bind (fun r d' _ => tmDrive_unlocks cfg fuel .rollback false r.2 d')

theorem tmTpcommit_unlocks (fuel : ℕ) (cmtLogged : Bool) (tl : Tl) (d : Disk) :
    Gives (fun e => Unlocked e.tl) (tmTpcommit cfg fuel cmtLogged tl) d := by
  rw [tmTpcommit]
  split
  · exact Gives.pure (unlocked_unlock tl)
  · apply Gives.bind
    intro r d' _
    split
    · exact tmDrive_unlocks cfg fuel .commit cmtLogged r.2 d'
    · exact Gives.map (abortAndDrive_unlocks cfg fuel r.2 d') (fun _ he => he)

theorem tmsLogAddrm_unlocks (tl : Tl) (rmid btid : Int) (noStartXid : Bool) (d : Disk) :
    Gives (fun r => Unlocked (some r.2)) (tmsLogAddrm tl rmid btid noStartXid) d := by
  rw [tmsLogAddrm]
  split
  · exact Gives.pure (unlocked_unlock _)
  split
  · exact Gives.pure (unlocked_unlock _)
  dsimp only
  split
  · exact Gives.pure (unlocked_unlock _)
  · exact Gives.bind (fun _ _ _ => Gives.pure (unlocked_unlock _))

theorem tmsLogChrmstat_unlocks (tl : Tl) (rmid btid : Int) (rmstatus : Char) (d : Disk) :
    Gives (fun r => Unlocked (some r.2)) (tmsLogChrmstat tl rmid btid rmstatus) d := by
  rw [tmsLogChrmstat]
  split
  · exact Gives.stop
  split
  · exact Gives.pure (unlocked_unlock _)
  · exact Gives.bind (fun _ _ _ => Gives.pure (unlocked_unlock _))

/-- An undisturbed visit gives its lock back. -/
theorem visit_unlocks {v : Visit} {w : Work} {tl : Tl} (h : v.Undisturbed w tl) :
    Gives (fun r => Unlocked r.1) (visit cfg w.fuel {tl with locked := true} v) w.disk := by
  cases v with
  | tpbegin =>
    refine Gives.map (Q := Unlocked) ?_ (fun _ hr => hr)
    apply Gives.bind
    intro r d' _
    split
    · exact Gives.pure (unlocked_unlock _)
    · apply Gives.bind
      intro _ d'' _
      exact Gives.pure unlocked_none
  | tmregister => exact Gives.map (tmsLogAddrm_unlocks _ _ _ _ _) (fun _ hr => hr)
  | rmstatus => exact Gives.map (tmsLogChrmstat_unlocks _ _ _ _ _) (fun _ hr => hr)
  | tpcommit => exact Gives.map (tmTpcommit_unlocks _ _ _ _ _) (fun _ he => he)
  | tpabort =>
    refine Gives.map (Q := fun e => Unlocked e.tl) ?_ (fun _ he => he)
    rw [tmTpabort]
    split
    · exact Gives.pure (unlocked_unlock _)
    · exact abortAndDrive_unlocks _ _ _ _
  | status => exact Gives.pure (unlocked_unlock _)
  | aborttrans => exact Gives.map (abortAndDrive_unlocks _ _ _ _) (fun _ he => he)
  | committrans =>
    refine Gives.map (Q := fun e => Unlocked e.tl) ?_ (fun _ he => he)
    rw [tmCommittrans]
    split
    · exact Gives.pure (unlocked_unlock _)
    · exact tmDrive_unlocks _ _ _ _ _ _
  | toutCheck =>
    have hactive : tl.txstage = stageActive := h
    rw [visit, if_pos hactive]
    exact Gives.map (abortAndDrive_unlocks _ _ _ _) (fun _ he => he)
  | background =>
    apply Gives.bind
    intro ok d' hok
    have htrue : ok = true := by
      obtain ⟨_, _, ha, hok⟩ := Prog.bind_returned (congrArg Prod.fst hok)
      cases hok
      apply h
      rw [ask] at ha
      split at ha
      · cases ha
      · rename_i has
        cases ha
        rw [has]
        rfl
    rw [if_pos htrue]
    exact Gives.map (tmDrive_unlocks _ _ _ _ _ _) (fun _ he => he)

theorem leaves_ne_keep {v : Visit} {w : Work} {tl tl' : Tl} {r : Left Tl × Bool}
    (h : v.Undisturbed w tl) (hr : (locking cfg).leaves v w tl = some r) : r.1 ≠ .keep tl' := by
  obtain ⟨⟨_ | left, _⟩, hvisit, rfl⟩ := Option.map_eq_some_iff.mp hr
  · nofun
  · have hfree : left.locked = false := visit_unlocks cfg h _ hvisit left rfl
    rw [leftOf, hfree]
    nofun

end

/-- In a run whose timeout checks and background passes are not disturbed, whoever has returned has no
transaction locked. -/
theorem locks_given_back (cfg : Config) (hash : String → Option Tl) (acts : List (ℕ × Act Operation Work))
    (s : Sys String Visit Tl)
    (hrun : run (locking cfg) (Sys.start hash) acts = some s)
    (h : RunLeavesWith (locking cfg) Visit.Undisturbed (Sys.start hash) acts) (t : ℕ)
    (ht : s.pc t = .returned) : s.Free t :=
  run_free (fun _ _ _ _ hv hr _ => leaves_ne_keep cfg hv hr) h hrun ht

def expires : List (ℕ × Act Operation Work) :=
  [(1, .call (.txToutCheck ["x"])), (2, .call (.request "x" .status)), (2, .lock),
    (2, .leave ⟨0, ⟨none, [], []⟩⟩), (1, .lock),
    (1, .leave ⟨9, ⟨some [], [], List.replicate 20 okAnswer⟩⟩), (2, .ret), (1, .ret)]

theorem locks_given_back_timeout :
    ∃ s, run (locking ⟨2⟩) (Sys.start (fun _ => some Tl.blank)) expires = some s ∧ s.Free 1 ∧ s.Free 2 := by
  obtain ⟨s, hs, hret⟩ : ∃ s, run (locking ⟨2⟩) (Sys.start (fun _ => some Tl.blank)) expires = some s ∧
      (s.hasReturned 1 && s.hasReturned 2) = true := (Option.any_eq_true _ _).mp (by decide +kernel)
  have hmeets : RunLeavesWith (locking ⟨2⟩) Visit.Undisturbed (Sys.start (fun _ => some Tl.blank))
      expires := by
    refine .cons (.of_ne nofun) rfl (.cons (.of_ne nofun) rfl (.cons (.of_ne nofun) rfl
      (.cons ?_ rfl (.cons (.of_ne nofun) rfl
        ⟨?_, fun _ _ => ⟨.of_ne nofun, fun _ _ => ⟨.of_ne nofun, fun _ _ => trivial⟩⟩⟩))))
    · rintro a k v todo e o _ ⟨⟩ ⟨⟩
      trivial
    · -- the request has changed nothing
      rintro a k v todo e o _ ⟨⟩ ⟨⟩
      rfl
  rw [Bool.and_eq_true, Sys.hasReturned_iff, Sys.hasReturned_iff] at hret
  exact ⟨s, hs, locks_given_back ⟨2⟩ _ expires s hs hmeets 1 hret.1,
    locks_given_back ⟨2⟩ _ expires s hs hmeets 2 hret.2⟩

def begins : List (ℕ × Act Operation Work) :=
  [(1, .call (.request "x" (.tpbegin 60 1 1 1 false false))), (1, .lock),
    (1, .leave ⟨0, ⟨none, [], List.replicate 3 okAnswer⟩⟩), (1, .ret)]

/-- The timeout check has its copy when the commit comes in; the branch is prepared and then does not
answer, and the check finds the transaction committing. And a background pass that cannot ask for the
lock of the process group. -/
theorem timeout_keeps_lock : (∃ s, run (locking ⟨2⟩) (Sys.start (fun _ => none))
      (begins ++ [(2, .call (.txToutCheck ["x"])), (3, .call (.request "x" (.tpcommit false))), (3, .lock),
        (3, .leave ⟨9, ⟨some [], [], List.replicate 7 okAnswer ++ List.replicate 6 rmfailAnswer⟩⟩),
        (3, .ret), (2, .lock), (2, .leave ⟨0, ⟨some [], [], []⟩⟩), (2, .ret)]) = some s ∧
      s.pc 2 = .returned ∧ ¬s.Free 2) ∧
    ∃ s, run (locking ⟨2⟩)
      (Sys.start (fun _ => some {oneBranch with isBackground := true}))
      [(1, .call (.backgroundLoop ["x"])), (1, .lock),
        (1, .leave ⟨0, ⟨some [], [], [⟨false, false, ⟨0, by decide⟩, 0⟩]⟩⟩)] = some s ∧
      s.pc 1 = .returned ∧ ¬s.Free 1 := by
  constructor
  · apply exists_not_free (k := "x")
    decide +kernel
  · exact ⟨_, rfl, rfl, fun h => h "x" _ rfl⟩

end Endurox.Tms
