import Mathlib.Data.List.Forall2
import Endurox.TmsDriveEnd
import Endurox.TmsRun

/-! The requests that resource managers send about their branches (`tm_tmregister`, `tm_rmstatus`)
and the abort of the administrator (`tm_aborttrans`), for any values in the request and from any
state of the transaction. -/

namespace Endurox.Tms

open Base List
open Base.Prog (Triple)

inductive Fault where
  | outside (index : Int)
  | nullBranch
  deriving DecidableEq

def rmstatusAt (rmid : Int) : Except Fault Unit :=
  if 0 ≤ rmid-1 ∧ rmid-1 < ndrxMaxRms then .ok () else .error (.outside (rmid-1))

inductive BranchRequest where
  | tmregister (noStartXid : Bool)
  | rmstatus (rmstatus : Char)

def branchRequest (tl : Tl) (rmid btid : Int) : BranchRequest → Except Fault (Prog Disk (Bool × Tl))
  | .tmregister noStartXid => do
    -- both refusals of `tms_log_addrm` come before the table is read
    if ¬(rmid < 1 ∨ ndrxMaxRms < rmid) ∧ ¬(tl.isBackground ∨ tl.txstage ≠ stageActive) then
      rmstatusAt rmid
    .ok (tmsLogAddrm tl rmid btid noStartXid)
  | .rmstatus rmstatus => do
    rmstatusAt rmid
    match tmsBtidFind tl rmid btid with
    | none => .error .nullBranch
    | some _ => .ok (tmsLogChrmstat tl rmid btid rmstatus)

def InTable (rmid : Int) : Prop := 1 ≤ rmid ∧ rmid ≤ ndrxMaxRms

def BranchRequest.Names (tl : Tl) (rmid btid : Int) : BranchRequest → Prop
  | .tmregister _ => InTable rmid
  | .rmstatus _ => InTable rmid ∧ (tmsBtidFind tl rmid btid).isSome

/-- The request reads what is there, and if it names something unknown it fails and neither the
journal nor the log changes. -/
def SafeRequest (tl : Tl) (rmid btid : Int) (req : BranchRequest) : Prop :=
  ∃ p, branchRequest tl rmid btid req = .ok p ∧
    (¬req.Names tl rmid btid → ∀ d, p d = (some (false, tmsUnlockEntry tl), d))

theorem rmstatusAt_inTable {rmid : Int} (h : InTable rmid) : rmstatusAt rmid = .ok () := by
  apply if_pos
  constructor
  · exact Int.sub_nonneg_of_le h.1
  · exact Int.sub_one_lt_of_le h.2

theorem rmstatusAt_outside {rmid : Int} (h : ¬InTable rmid) :
    rmstatusAt rmid = .error (.outside (rmid-1)) := by
  apply if_neg
  rintro ⟨hlo, hhi⟩
  exact h ⟨Int.le_of_sub_nonneg hlo, Int.le_of_sub_one_lt hhi⟩

theorem tmregister_safe (tl : Tl) (rmid btid : Int) (noStartXid : Bool) :
    SafeRequest tl rmid btid (.tmregister noStartXid) := by
  refine ⟨tmsLogAddrm tl rmid btid noStartXid, ?_, ?_⟩
  · rw [branchRequest]
    split
    · rename_i hc
      rw [rmstatusAt_inTable ⟨not_lt.mp fun h => hc.1 (.inl h), not_lt.mp fun h => hc.1 (.inr h)⟩]
      rfl
    · rfl
  · intro hnot d
    have hout : rmid < 1 ∨ ndrxMaxRms < rmid := by
      by_contra hin
      exact hnot ⟨not_lt.mp fun h => hin (.inl h), not_lt.mp fun h => hin (.inr h)⟩
    rw [tmsLogAddrm, if_pos hout]
    rfl

theorem rmstatus_safe_iff (tl : Tl) (rmid btid : Int) (st : Char) :
    SafeRequest tl rmid btid (.rmstatus st) ↔ InTable rmid ∧ (tmsBtidFind tl rmid btid).isSome := by
  constructor
  · rintro ⟨_, hp, -⟩
    rw [branchRequest] at hp
    by_cases hin : InTable rmid
    · rw [rmstatusAt_inTable hin] at hp
      refine ⟨hin, ?_⟩
      cases hf : tmsBtidFind tl rmid btid with
      | none =>
        rw [hf] at hp
        cases hp
      | some => rfl
    · rw [rmstatusAt_outside hin] at hp
      cases hp
  · intro h
    refine ⟨tmsLogChrmstat tl rmid btid st, ?_, fun hnot => absurd h hnot⟩
    obtain ⟨_, hb⟩ := Option.isSome_iff_exists.mp h.2
    rw [branchRequest, rmstatusAt_inTable h.1, hb]
    rfl

/-- A registration is safe with any numbers, a report only when its branch is there. -/
theorem branch_requests_safe_iff (tl : Tl) (rmid btid : Int) (req : BranchRequest) :
    SafeRequest tl rmid btid req ↔
      ∀ st, req = .rmstatus st → InTable rmid ∧ (tmsBtidFind tl rmid btid).isSome := by
  cases req with
  | tmregister noStartXid =>
    exact iff_of_true (tmregister_safe tl rmid btid noStartXid) (fun st h => nomatch h)
  | rmstatus st =>
    rw [rmstatus_safe_iff]
    constructor
    · intro h st' _
      exact h
    · intro h
      exact h st rfl

/-- A transaction that was just started: the report of resource manager 0 reads before the table,
and that of a branch nobody registered a record that is not there. -/
theorem unknown_branch_read :
    branchRequest Tl.blank 0 0 (.rmstatus rmPrep) = .error (.outside (-1)) ∧
    branchRequest Tl.blank 1 0 (.rmstatus rmPrep) = .error .nullBranch ∧
    ¬SafeRequest Tl.blank 1 0 (.rmstatus rmPrep) := by
  have hnull : branchRequest Tl.blank 1 0 (.rmstatus rmPrep) = .error .nullBranch := rfl
  refine ⟨rfl, hnull, ?_⟩
  rintro ⟨_, hp, -⟩
  cases hp

inductive AbortApi where
  | tpabort
  | aborttrans

section

variable (cfg : Config) (fuel : ℕ)

def tmAborttrans (tl : Tl) : Prog Disk DriveEnd := abortAndDrive cfg fuel tl

def abortEnd (tl : Tl) : Prog Disk (Int × List Branch) := do
  let r ← tmsLogStage tl stageAborting true
  let next ← driveRun cfg false fuel r.2 0
  let e ← driveExit .rollback next
  pure (e.ret, (next.map (fun n => n.tl.branches)).getD [])

def abortRequest (tl : Tl) : AbortApi → Prog Disk (Int × List Branch)
  | .tpabort =>
    if tl.isBackground ∨ tl.txstage ≠ stageActive then
      pure (if stagePreparing ≤ tl.txstage then tpeProto else tpeHeuristic, tl.branches)
    else abortEnd cfg fuel tl
  | .aborttrans => abortEnd cfg fuel tl

theorem abortEnd_ret (tl : Tl) : (abortEnd cfg fuel tl >>= fun p => pure p.1) =
      abortAndDrive cfg fuel tl >>= fun e => pure e.ret := by
  rw [abortEnd, abortAndDrive]
  simp only [tmDrive, driveLoop_eq_run, Prog.bind_assoc]
  rfl

theorem abortRequest_ret (tl : Tl) (api : AbortApi) :
    (abortRequest cfg fuel tl api >>= fun p => pure p.1) = (match api with
        | .tpabort => tmTpabort cfg fuel tl
        | .aborttrans => tmAborttrans cfg fuel tl) >>= fun e => pure e.ret := by
  cases api with
  | aborttrans => exact abortEnd_ret cfg fuel tl
  | tpabort =>
    rw [abortRequest, tmTpabort]
    split
    · rfl
    · exact abortEnd_ret cfg fuel tl

end

def CommittedStatus (c : Char) : Prop := c = rmCommitted ∨ c = rmCommitHeuris ∨ c = rmCommitHazard

instance (c : Char) : Decidable (CommittedStatus c) := inferInstanceAs (Decidable (_ ∨ _))

def Intact (bs : List Branch) : Prop := ∀ b ∈ bs, ¬CommittedStatus b.rmstatus

structure Uncommitted (bs : List Branch) (d : Disk) : Prop where
  branches : Intact bs
  calls : ¬Called .commit d

def Neutral (b b' : Branch) : Prop := CommittedStatus b'.rmstatus ↔ CommittedStatus b.rmstatus

theorem intact_iff {bs bs' : List Branch} (h : Forall₂ Neutral bs bs') :
    Intact bs' ↔ Intact bs := by
  induction h with
  | nil => exact Iff.rfl
  | cons hb _ ih =>
    rw [Intact, Intact, forall_mem_cons, forall_mem_cons]
    exact and_congr (not_congr hb) ih

theorem abort_rows {s : Int} (hs : AbortSide s) {r : RmStatusDriver} (hr : r ∈ opTable s) :
    ¬CommittedStatus r.rmstatus ∧ ¬CommittedStatus r.nextRmstatus := by
  have htable : ∀ s ∈ [stagePreparing, stageCommitting, stageAborting, stageComforgetting,
      stageAbforgetting], AbortSide s → ∀ r ∈ opTable s,
      ¬CommittedStatus r.rmstatus ∧ ¬CommittedStatus r.nextRmstatus := by decide
  exact htable s (Votes.stage ⟨r, hr, rfl⟩) hs r hr

theorem driveBranch_neutral {s : Int} (hs : AbortSide s) (b : Branch) :
    Triple (fun _ => True) (driveBranch s b) (fun r _ => Neutral b r.branch) (fun _ => True) := by
  simp only [driveBranch]
  split
  · split
    · exact Triple.pure (fun _ _ => Iff.rfl)
    · exact Triple.pure (fun _ _ => Iff.rfl)
  apply Triple.bind (M := fun _ _ => True)
  · intro d _
    split <;> trivial
  intro a
  split
  · exact Triple.pure (fun _ _ => Iff.rfl)
  rename_i row hrow
  apply Triple.bind (tmsLogRmstatus_triple (fun _ _ h => h) (fun _ _ _ h => h))
  intro r
  have hstatus := find?_some hrow
  rw [decide_eq_true_eq] at hstatus
  obtain ⟨hfrom, hto⟩ := abort_rows hs (mem_of_find?_eq_some hrow)
  rw [hstatus.2.1] at hfrom
  have hneutral (h : r.2.rmstatus = row.nextRmstatus) : Neutral b r.2 := by
    rw [Neutral, h]
    exact iff_of_false hto hfrom
  split
  · exact Triple.pure (fun _ hd => hneutral hd.2)
  · exact Triple.pure (fun _ hd => hneutral hd.2)

theorem drivePass_forall {R : Branch → Branch → Prop} {descr : TxstageDescriptor}
    (hrefl : ∀ b, R b b) (h : ∀ b, Triple (fun _ => True) (driveBranch descr.txstage b)
      (fun r _ => R b r.branch) (fun _ => True)) (bs : List Branch) :
    Triple (fun _ => True) (drivePass descr bs) (fun p _ => Forall₂ R bs p.branches)
      (fun _ => True) := by
  have hsame (bs : List Branch) : Forall₂ R bs bs := List.forall₂_same.mpr (fun b _ => hrefl b)
  induction bs with
  | nil => exact Triple.pure (fun _ _ => .nil)
  | cons b bs ih =>
    apply Triple.bind (h b)
    intro r d hr
    cases hout : r.outcome with
    | silent => exact Triple.bind ih (fun p => Triple.pure (fun _ hp => hp.cons hr)) d trivial
    | invalid => exact (hsame bs).cons hr
    | vote v =>
      by_cases hleave : leavesGroup descr v = true
      · simp only [hleave]
        exact (hsame bs).cons hr
      · simp only [hleave]
        exact Triple.bind ih (fun p => Triple.pure (fun _ hp => hp.cons hr)) d trivial

section

variable (cfg : Config) {q : Prop}

def CommitCalled (q : Prop) (d : Disk) : Prop := Called .commit d ↔ q

theorem called_steady {s : Int} (hs : AbortSide s) : Steady s (CommitCalled q) where
  rest := fun _ _ h => h
  line := fun _ _ _ _ _ _ h => h
  call := by
    intro d c rmid btid _ h
    refine Iff.trans ?_ h
    constructor
    · rintro ⟨rmid', btid', hmem⟩
      rcases mem_append.mp hmem with hmem | hmem
      · exact ⟨rmid', btid', hmem⟩
      · have hop : .commit = xaStatusGetOp s c := by
          have he := mem_singleton.mp hmem
          injection he
        exact absurd (stage_of_commit hop.symm) hs.ne.2.2.1
    · rintro ⟨rmid', btid', hmem⟩
      exact ⟨rmid', btid', mem_append_left _ hmem⟩

theorem CommitCalled.noted {d : Disk} {s : Int} {bs : List Branch} (h : CommitCalled q d) :
    CommitCalled q (d.noted (.stage s bs)) := by
  refine Iff.trans ?_ h
  apply exists_congr
  intro rmid
  apply exists_congr
  intro btid
  simp [Disk.noted]

structure Aborts (bs : List Branch) (tl : Tl) : Prop where
  side : AbortSide tl.txstage
  intact : Intact tl.branches ↔ Intact bs

/-- A pass on the abort side calls no commit. -/
theorem driveBody_aborts {tl : Tl} (hs : AbortSide tl.txstage) (try_ : ℕ) :
    Triple (CommitCalled q) (driveBody cfg false tl try_)
      (fun next d => CommitCalled q d ∧ Aborts tl.branches next.tl)
      (CommitCalled q) := by
  rw [driveBody]
  split
  · exact Triple.pure (fun _ hd => ⟨hd, hs, Iff.rfl⟩)
  rename_i descr hdescr
  obtain ⟨hmem, hst⟩ := xaStageGetDescr_mem hdescr
  rw [← hst] at hs
  have hpass := ((called_steady (q := q) hs).drivePass tl.branches).and
    (drivePass_forall (fun _ => Iff.rfl) (driveBranch_neutral hs) tl.branches)
  apply Triple.bind (hpass.conseq (fun _ h => ⟨h, trivial⟩) (fun _ _ h => h) (fun _ h => h.1))
  intro p
  split
  · exact Triple.pure (fun _ hd => ⟨hd.1.1, by rw [← hst]; exact hs, intact_iff hd.2⟩)
  intro d hd
  have hside : AbortSide (p.newTxstage descr) := (hd.1.2.side hmem).2.1 hs
  have hsw : Triple (CommitCalled q)
      (driveSwitch {tl with branches := p.branches} descr p)
      (fun tl' d => CommitCalled q d ∧ Aborts tl.branches tl')
      (CommitCalled q) := by
    rw [driveSwitch]
    split
    · rename_i hswitches
      rw [Pass.switches, decide_eq_true_eq] at hswitches
      have hne : ({tl with branches := p.branches} : Tl).txstage ≠ p.newTxstage descr := by
        rw [← hst]
        exact hswitches.1.symm
      apply (switchStage_forced hne hside.ne.2.2.1 (fun _ => CommitCalled.noted) (fun _ _ h => h)
        (fun _ h => h)).post
      intro tl' d' hd'
      refine ⟨hd'.2.2, ?_, ?_⟩
      · rw [hd'.1]
        exact hside
      · rw [hd'.2.1]
        exact intact_iff hd.2
    · exact Triple.pure (fun _ h => ⟨h, by rw [← hst]; exact hs, intact_iff hd.2⟩)
  refine Triple.bind hsw (fun tl' => Triple.pure (fun d hd => ?_)) d hd.1.1
  rw [driveNext_tl]
  exact hd

theorem driveRun_aborts (fuel : ℕ) {tl : Tl} (hs : AbortSide tl.txstage) (try_ : ℕ) :
    Triple (CommitCalled q) (driveRun cfg false fuel tl try_)
      (fun next d => CommitCalled q d ∧ ∀ n, next = some n → Aborts tl.branches n.tl)
      (CommitCalled q) := by
  induction fuel generalizing tl try_ with
  | zero => exact Triple.pure (fun _ h => ⟨h, fun n hn => nomatch hn⟩)
  | succ fuel ih =>
    apply Triple.bind (driveBody_aborts cfg hs try_)
    intro next
    have hend : Triple (fun d => CommitCalled q d ∧ Aborts tl.branches next.tl)
        (pure (some next) : Prog Disk (Option Next))
        (fun next d => CommitCalled q d ∧ ∀ n, next = some n → Aborts tl.branches n.tl)
        (CommitCalled q) := by
      apply Triple.pure
      intro d hd
      refine ⟨hd.1, fun n hn => ?_⟩
      cases hn
      exact hd.2
    cases next with
    | again tl' try_ =>
      intro d hd
      apply (ih hd.2.side try_).post _ d hd.1
      exact fun _ _ h => ⟨h.1, fun n hn => ⟨(h.2 n hn).side, (h.2 n hn).intact.trans hd.2.intact⟩⟩
    | leave => exact hend
    | done => exact hend

theorem abortEnd_aborts (fuel : ℕ) (tl : Tl) : Triple (CommitCalled q) (abortEnd cfg fuel tl)
      (fun p d => CommitCalled q d ∧ (Intact p.2 ↔ Intact tl.branches))
      (CommitCalled q) := by
  have hstage : Triple (CommitCalled q) (tmsLogStage tl stageAborting true)
      (fun r d => (r.2.txstage = stageAborting ∧ r.2.branches = tl.branches) ∧
        CommitCalled q d) (CommitCalled q) := by
    by_cases he : tl.txstage = stageAborting
    · rw [tmsLogStage, if_pos he]
      exact Triple.pure (fun _ h => ⟨⟨he, rfl⟩, h⟩)
    apply (tmsLogStage_triple he (fun _ => CommitCalled.noted) (fun _ _ h => h) (fun _ _ h => h)
      (fun _ h => h) (fun _ h => h)).post
    intro r d hd
    cases hok : r.1 with
    | true => exact ⟨⟨(hd.2.2.2.1 hok).1, hd.2.1⟩, hd.1⟩
    | false => exact absurd (hd.2.2.2.2 hok).1 (by decide)
  apply Triple.bind hstage
  intro r
  apply Triple.of_pre
  rintro ⟨hst, hbs⟩
  apply Triple.bind (driveRun_aborts cfg fuel (show AbortSide r.2.txstage by rw [hst]; decide) 0)
  intro next
  cases next with
  | none => exact Triple.stop (fun _ hd => hd.1)
  | some n =>
    intro d hd
    have hintact := (hd.2 n rfl).intact
    rw [hbs] at hintact
    have hpure (e : DriveEnd) : Triple (CommitCalled q)
        (pure (e.ret, n.tl.branches) : Prog Disk (Int × List Branch))
        (fun p d => CommitCalled q d ∧ (Intact p.2 ↔ Intact tl.branches))
        (CommitCalled q) := Triple.pure (fun _ h => ⟨h, hintact⟩)
    cases n with
    | again => exact hd.1
    | leave => exact ⟨hd.1, hintact⟩
    | done descr tl' =>
      exact Triple.bind ((driveDone_triple .rollback descr tl' (fun _ _ h => h)
        (fun _ h => h)).post (fun _ _ h => h.1)) hpure d hd.1

end

/-- An abort that is reported as done committed nothing exactly when nothing was committed
before it. -/
theorem abort_uncommitted_iff (cfg : Config) (fuel : ℕ) (api : AbortApi) (tl : Tl) (d d' : Disk)
    (bs : List Branch) (h : abortRequest cfg fuel tl api d = (some (tpSucceed, bs), d')) :
    Uncommitted bs d' ↔ Uncommitted tl.branches d := by
  have hend (h : abortEnd cfg fuel tl d = (some (tpSucceed, bs), d')) :
      Uncommitted bs d' ↔ Uncommitted tl.branches d := by
    obtain ⟨hcalled, hintact⟩ :=
      (abortEnd_aborts (q := Called .commit d) cfg fuel tl).returned Iff.rfl h
    constructor
    · exact fun hu => ⟨hintact.mp hu.branches, fun hc => hu.calls (hcalled.mpr hc)⟩
    · exact fun hu => ⟨hintact.mpr hu.branches, fun hc => hu.calls (hcalled.mp hc)⟩
  cases api with
  | aborttrans => exact hend h
  | tpabort =>
    rw [abortRequest] at h
    split at h
    · -- a refused abort has an error code
      have hcode : (if stagePreparing ≤ tl.txstage then tpeProto else tpeHeuristic) = tpSucceed := by
        injection h with h _
        injection h with h
        injection h
      split at hcode
      · exact absurd hcode (by decide)
      · exact absurd hcode (by decide)
    · exact hend h

theorem abort_uncommitted_prepared :
    ∃ bs d', abortRequest ⟨1⟩ 3 {oneBranch with txstage := stageActive} .tpabort
        ⟨some [], [], replicate 11 okAnswer⟩ = (some (tpSucceed, bs), d') ∧
      Uncommitted bs d' := by
  refine ⟨_, _, rfl, ?_⟩
  refine (abort_uncommitted_iff ⟨1⟩ 3 .tpabort {oneBranch with txstage := stageActive}
    ⟨some [], [], replicate 11 okAnswer⟩ _ _ rfl).mpr ⟨?_, ?_⟩
  · rintro b hb
    rw [mem_singleton.mp hb]
    decide
  · rintro ⟨_, _, hmem⟩
    cases hmem

/-- Two branches are prepared, one is committed and the other one is not there: the transaction is
left to the background. The administrator's abort then rolls the other one back and reports
success. -/
theorem committed_branch_aborted : ∃ tl d bs d', srvRun ⟨1⟩ 5 (srvStart 1 1 1 30)
        [.serve (.register 1 (-1) false) [okAnswer], .serve (.register 2 (-1) false) [okAnswer],
         .serve (.tpcommit false) (replicate 12 okAnswer ++ [rmfailAnswer])] = ⟨some tl, d⟩ ∧
      abortRequest ⟨1⟩ 5 tl .aborttrans (d.rest (replicate 10 okAnswer)) =
        (some (tpSucceed, bs), d') ∧
      bs.map Branch.rmstatus = [rmCommitted, rmAborted] ∧ ¬Uncommitted bs d' := by
  generalize hs : srvRun _ _ _ _ = s
  have habort : s.mem.map (fun tl => (abortRequest ⟨1⟩ 5 tl .aborttrans
      (s.disk.rest (replicate 10 okAnswer))).1.map (fun p => (p.1, p.2.map Branch.rmstatus))) =
        some (some (tpSucceed, [rmCommitted, rmAborted])) := by
    rw [← hs]
    decide +kernel
  obtain ⟨mem, d⟩ := s
  cases mem with
  | none => cases habort
  | some tl =>
    injection habort with habort
    obtain ⟨⟨_, bs⟩, hrun, hcode⟩ := Option.map_eq_some_iff.mp habort
    injection hcode with hret hbs
    refine ⟨tl, d, bs, _, rfl, Prod.ext (hrun.trans (by rw [← hret])) rfl, hbs, fun h => ?_⟩
    obtain ⟨b, hb, hc⟩ : ∃ b ∈ bs, b.rmstatus = rmCommitted := by
      rw [← mem_map, hbs]
      exact mem_cons_self
    exact h.branches b hb (.inl hc)

end Endurox.Tms
