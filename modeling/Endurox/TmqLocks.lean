import Endurox.BaseLocks
import Endurox.XaStates

/-! The locks of the transactions in tmqueue (`qtran.c`, `qdisk_xa.c`, `tmqueue.c`): which calls leave
a transaction locked, with any file operation failing. -/

namespace Endurox.Tmq.Qtran

open Base.Locks Tms

def stagePrepared : Int := 42

structure QtranCmd where
  seqno : ℕ
  commandCode : Char
  cmdStatus : Char

structure QtranLog where
  txstage : Int
  isAbortOnly : Bool
  seqno : ℕ
  cmds : List QtranCmd
  locked : Bool  -- `lockthreadid` is set

def tmqLogUnlock (tl : QtranLog) : QtranLog := {tl with locked := false}

/-- What is outside of a call: whether the files of a command can be moved or finalised, whether the
dummy command is written and the folder synced, whether there is memory, and whether the name of the
transaction can be read back. -/
structure Work where
  fileOk : QtranCmd → Bool
  dumAdd : Bool
  dsync : Bool
  alloc : Bool
  deserialized : Bool

def tmqLogAddcmd (w : Work) (tl : QtranLog) (c : QtranCmd) : QtranLog :=
  tmqLogUnlock
    (if w.alloc then {tl with seqno := max tl.seqno c.seqno, cmds := tl.cmds ++ [c]} else tl)

def moveCmds (w : Work) : List QtranCmd → Bool × List QtranCmd
  | [] => (true, [])
  | c :: cs =>
    if w.fileOk c then
      let r := moveCmds w cs
      (r.1, {c with cmdStatus := rmPrep} :: r.2)
    else (false, c :: cs)

/-- `xa_prepare_entry_tmq` up to `out`. -/
def prepareEntry (w : Work) (tl : QtranLog) : QtranLog :=
  if tl.isAbortOnly then tl
  else if tl.txstage ≠ stageActive then {tl with isAbortOnly := true}
  else if tl.cmds = [] ∧ w.dumAdd = false then
    {tl with txstage := stagePreparing, isAbortOnly := true}
  else
    let cmds := if tl.cmds = [] then [⟨tl.seqno+1, 'M', rmActive⟩] else tl.cmds
    let r := moveCmds w cmds
    if r.1 ∧ w.dsync then {tl with txstage := stagePrepared, cmds := r.2}
    else {tl with txstage := stagePreparing, isAbortOnly := true, cmds := r.2}

def xaPrepareEntryTmq (w : Work) (tl : QtranLog) : QtranLog := tmqLogUnlock (prepareEntry w tl)

def commitCmds (w : Work) : List QtranCmd → List QtranCmd
  | [] => []
  | c :: cs => if c.commandCode ∈ ['N', 'U', 'D', 'M'] ∧ w.fileOk c then commitCmds w cs else c :: cs

/-- `xa_commit_entry_tmq` up to `out`; `none` when all is committed and the transaction removed. -/
def commitEntry (w : Work) (tl : QtranLog) : Option QtranLog :=
  if tl.isAbortOnly then some tl
  else if tl.txstage ≠ stagePrepared ∧ tl.txstage ≠ stageCommitting then
    some {tl with isAbortOnly := true}
  else
    match commitCmds w tl.cmds with
    | [] => none
    | cmds => some {tl with txstage := stageCommitting, cmds := cmds}

def xaCommitEntryTmq (w : Work) (tl : QtranLog) : Option QtranLog :=
  (commitEntry w tl).map tmqLogUnlock

def rollbackOk (w : Work) (c : QtranCmd) : Bool :=
  (c.cmdStatus == rmActive || c.cmdStatus == rmPrep) && w.fileOk c

def xaRollbackEntryTmq (w : Work) (tl : QtranLog) : Option QtranLog :=
  -- a command that fails is passed over, and where commands are left the call returns at once
  match tl.cmds.filter (fun c => !rollbackOk w c) with
  | [] => none
  | cmds => some {tl with txstage := stageAborting, isAbortOnly := true, cmds := cmds}

inductive Visit where
  | startGet
  | join
  | logStart
  | setFilenames
  | addcmd (c : QtranCmd)
  | setAbortOnly
  | prepare
  | commit
  | rollback
  | toutCheck

def leftOf : Option QtranLog → Left QtranLog
  | none => .remove
  | some tl => if tl.locked then .keep tl else .unlock tl

/-- The work on a locked entry, what becomes of it, and whether the call goes on. -/
def visit (w : Work) (tl : QtranLog) : Visit → Option QtranLog × Bool
  -- a transaction that is to be started is not there yet
  | .startGet => (some (tmqLogUnlock tl), false)
  | .join => (some (tmqLogUnlock tl), true)
  | .logStart => (some (tmqLogUnlock tl), true)
  | .setFilenames => (some (tmqLogUnlock {tl with seqno := tl.seqno+1}), true)
  | .addcmd c => (some (tmqLogAddcmd w tl c), true)
  | .setAbortOnly => (some (tmqLogUnlock {tl with isAbortOnly := true}), true)
  | .prepare => (some (xaPrepareEntryTmq w tl), true)
  | .commit => (xaCommitEntryTmq w tl, true)
  | .rollback => (xaRollbackEntryTmq w tl, true)
  | .toutCheck =>
    if tl.txstage = stageActive then
      if w.deserialized then
        -- the rollback finds the entry locked by its own thread
        ((xaRollbackEntryTmq w tl).map tmqLogUnlock, true)
      else (some (tmqLogUnlock tl), true)
    else (some tl, true)

/-- The calls, with the address of the entry that each of their lookups by name comes to, or at which
a new one is made. -/
inductive Operation where
  | start (found made : ℕ)
  | join (p : ℕ)
  | xaEnd
  | prepare (p : ℕ)
  | commit (p : ℕ)
  | rollback (p : ℕ)
  | storage (names adds marks : ℕ) (c : QtranCmd)
  | txToutCheck (ps : List ℕ)

def Operation.visits (hash : ℕ → Option QtranLog) : Operation → List (ℕ × Visit)
  | .start found made => [(found, .startGet), (made, .logStart)]
  | .join p => [(p, .join)]
  | .xaEnd => []
  | .prepare p => [(p, .prepare)]
  | .commit p => [(p, .commit)]
  | .rollback p => [(p, .rollback)]
  | .storage names adds marks c => [(names, .setFilenames), (adds, .addcmd c), (marks, .setAbortOnly)]
  | .txToutCheck ps =>
    (ps.filter (fun p => (hash p).any (fun tl => tl.txstage == stageActive))).map (fun p => (p, .toutCheck))

def locking : Scheme ℕ Visit QtranLog Work Operation where
  visits op hash := op.visits hash
  makes
    | .logStart => some ⟨stageActive, false, 0, [], true⟩
    | _ => none
  leaves v w tl :=
    let r := visit w {tl with locked := true} v
    some (leftOf r.1, r.2)

/-- A rollback can finalise all its files, and a timeout check finds the transaction active still. -/
def Undisturbed (v : Visit) (w : Work) (tl : QtranLog) : Prop :=
  match v with
  | .rollback => ∀ c ∈ tl.cmds, rollbackOk w c = true
  | .toutCheck => tl.txstage = stageActive
  | _ => True

theorem leftOf_ne_keep_iff (o : Option QtranLog) :
    (∀ tl, leftOf o ≠ .keep tl) ↔ ∀ tl ∈ o, tl.locked = false := by
  cases o with
  | none => exact iff_of_true (fun _ => by nofun) nofun
  | some tl =>
    cases h : tl.locked with
    | false => exact iff_of_true (fun _ => by simp [leftOf, h]) (by simpa using h)
    | true => exact iff_of_false (fun hne => hne tl (by simp [leftOf, h])) (by simp [h])

theorem unlocked_map (o : Option QtranLog) : ∀ tl ∈ o.map tmqLogUnlock, tl.locked = false := by
  intro tl htl
  obtain ⟨_, -, rfl⟩ := Option.map_eq_some_iff.mp htl
  rfl

theorem xaRollbackEntryTmq_eq_none_iff (w : Work) (tl : QtranLog) :
    xaRollbackEntryTmq w tl = none ↔ ∀ c ∈ tl.cmds, rollbackOk w c = true := by
  have hnil : tl.cmds.filter (fun c => !rollbackOk w c) = [] ↔ ∀ c ∈ tl.cmds, rollbackOk w c = true := by
    simp
  rw [xaRollbackEntryTmq, ← hnil]
  split
  · rename_i h
    exact iff_of_true rfl h
  · rename_i h
    exact iff_of_false (by nofun) h

theorem xaRollbackEntryTmq_locked {w : Work} {tl tl' : QtranLog}
    (h : xaRollbackEntryTmq w tl = some tl') : tl'.locked = tl.locked := by
  rw [xaRollbackEntryTmq] at h
  split at h
  · cases h
  · cases h
    rfl

theorem leaves_ne_keep_iff (v : Visit) (w : Work) (tl : QtranLog) :
    (∀ tl', leftOf (visit w {tl with locked := true} v).1 ≠ .keep tl') ↔ Undisturbed v w tl := by
  rw [leftOf_ne_keep_iff]
  cases v with
  | rollback =>
    have hnone := xaRollbackEntryTmq_eq_none_iff w {tl with locked := true}
    rw [Undisturbed, ← hnone, visit]
    cases hr : xaRollbackEntryTmq w {tl with locked := true} with
    | none => exact iff_of_true nofun rfl
    | some tl' =>
      refine iff_of_false (fun h => ?_) (by nofun)
      exact Bool.noConfusion ((h tl' rfl).symm.trans (xaRollbackEntryTmq_locked hr))
  | toutCheck =>
    rw [visit]
    split
    · rename_i h
      refine iff_of_true ?_ h
      split
      · exact unlocked_map _
      · exact unlocked_map (some _)
    · rename_i h
      exact iff_of_false (fun hfree => Bool.noConfusion (hfree _ rfl)) h
  | commit => exact iff_of_true (unlocked_map _) trivial
  | startGet | join | logStart | setFilenames | addcmd | setAbortOnly | prepare =>
    exact iff_of_true (unlocked_map (some _)) trivial

/-- In a run whose rollbacks and timeout checks are not disturbed, whoever has returned has no
transaction locked. -/
theorem qtran_locks_given_back (hash : ℕ → Option QtranLog) (acts : List (ℕ × Act Operation Work))
    (s : Sys ℕ Visit QtranLog) (hrun : run locking (Sys.start hash) acts = some s)
    (h : RunLeavesWith locking Undisturbed (Sys.start hash) acts) (t : ℕ)
    (ht : s.pc t = .returned) : s.Free t := by
  refine run_free ?_ h hrun ht
  intro v w tl r hv hr
  cases hr
  exact (leaves_ne_keep_iff v w tl).mpr hv

def work (ok : Bool) : Work := ⟨fun _ => ok, true, true, true, true⟩

def enqueued : QtranLog := ⟨stageActive, false, 1, [⟨1, 'N', rmActive⟩], false⟩

def rollsBack : List (ℕ × Act Operation Work) :=
  [(1, .call (.rollback 0)), (2, .call (.join 0)), (2, .lock), (2, .leave (work true)), (1, .lock),
    (1, .leave (work true)), (2, .ret), (1, .ret)]

theorem qtran_locks_given_back_rollback :
    ∃ s, run locking (Sys.start (fun _ => some enqueued)) rollsBack = some s ∧
      s.Free 1 ∧ s.Free 2 := by
  have hmeets : RunLeavesWith locking Undisturbed (Sys.start (fun _ => some enqueued)) rollsBack := by
    refine .cons (.of_ne nofun) rfl (.cons (.of_ne nofun) rfl (.cons (.of_ne nofun) rfl
      (.cons ?_ rfl (.cons (.of_ne nofun) rfl
        ⟨?_, fun _ _ => ⟨.of_ne nofun, fun _ _ => ⟨.of_ne nofun, fun _ _ => trivial⟩⟩⟩))))
    · rintro a k v todo e o ⟨⟩ ⟨⟩ ⟨⟩
      trivial
    · rintro a k v todo e o ⟨⟩ ⟨⟩ ⟨⟩
      intro c hc
      cases List.mem_singleton.mp hc
      rfl
  exact ⟨_, rfl, qtran_locks_given_back _ rollsBack _ rfl hmeets 1 rfl,
    qtran_locks_given_back _ rollsBack _ rfl hmeets 2 rfl⟩

def enqueues : List (ℕ × Act Operation Work) :=
  [(1, .call (.start 0 0)), (1, .skip), (1, .lock), (1, .leave (work true)), (1, .ret),
    (2, .call (.storage 0 0 0 ⟨1, 'N', rmActive⟩)), (2, .lock), (2, .leave (work true)), (2, .lock),
    (2, .leave (work true)), (2, .skip), (2, .ret)]

/-- The rollback cannot remove the file of the message; or a timeout check has its copy when
the transaction is prepared. -/
theorem rollback_keeps_lock :
    (∃ s, run locking (Sys.start (fun _ => none)) (enqueues ++ [(3, .call (.rollback 0)), (3, .lock),
        (3, .leave (work false)), (3, .ret)]) = some s ∧
      s.pc 3 = .returned ∧ ¬s.Free 3) ∧
    ∃ s, run locking (Sys.start (fun _ => none)) (enqueues ++ [(3, .call (.txToutCheck [0])),
        (4, .call (.prepare 0)), (4, .lock), (4, .leave (work true)), (4, .ret), (3, .lock),
        (3, .leave (work true)), (3, .ret)]) = some s ∧
      s.pc 3 = .returned ∧ ¬s.Free 3 := by
  constructor
  · apply exists_not_free (k := 0)
    decide +kernel
  · apply exists_not_free (k := 0)
    decide +kernel

end Endurox.Tmq.Qtran
