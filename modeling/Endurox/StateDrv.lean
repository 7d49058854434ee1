import Endurox.TmsLog

/-! The driver of a transaction (`tm_drive`): passes over the branches, votes, and the switch of
the stage. -/

namespace Endurox.Tms

open Base List
open Base.Prog (Triple)

def xaCall (op : XaOp) (rmid btid : Int) : Prog Disk Answer := do
  let a ← ask
  note (.call op rmid btid)
  pure a

inductive Outcome where
  | silent
  | vote (stage : Int)
  | invalid
  deriving DecidableEq

structure Driven where
  branch : Branch
  outcome : Outcome
  wasRetry : Bool

def driveBranch (txstage : Int) (b : Branch) : Prog Disk Driven :=
  let op := xaStatusGetOp txstage b.rmstatus
  if op = .nop then
    match xaStatusGetNextByNewStatus txstage b.rmstatus with
    -- no row, no vote
    | none => pure ⟨b, .silent, false⟩
    | some row => pure ⟨b, .vote row.nextTxstage, false⟩
  else do
    let a ← xaCall op b.rmid b.btid
    let wasRetry : Bool :=
      txstage ≠ stagePreparing ∧ (a.reason.val = xaRetry ∨ a.reason.val = xaerRmfail)
    match xaStatusGetNextByOp txstage b.rmstatus op a.reason.val with
    | none => pure ⟨b, .invalid, wasRetry⟩
    | some row =>
      let r ← tmsLogRmstatus b row.nextRmstatus a.tperrno a.reason.val
      -- a prepare that could not be logged votes for the abort
      if r.1 = false ∧ txstage = stagePreparing then pure ⟨r.2, .vote stageAborting, wasRetry⟩
      else pure ⟨r.2, .vote row.nextTxstage, wasRetry⟩

def leavesGroup (descr : TxstageDescriptor) (v : Int) : Bool :=
  (v < descr.txsStageMin ∨ descr.txsMaxComplete < v) ∧ descr.allowJump = true ∧ v < stagePreparing

structure Pass where
  branches : List Branch
  votes : List Int
  jump : Option Int
  invalid : Bool
  wasRetry : Bool

def drivePass (descr : TxstageDescriptor) : List Branch → Prog Disk Pass
  | [] => pure ⟨[], [], none, false, false⟩
  | b :: bs => do
    let r ← driveBranch descr.txstage b
    match r.outcome with
    | .silent =>
      let p ← drivePass descr bs
      pure {p with branches := r.branch :: p.branches, wasRetry := r.wasRetry || p.wasRetry}
    | .invalid => pure ⟨r.branch :: bs, [], none, true, r.wasRetry⟩
    | .vote v =>
      if leavesGroup descr v then pure ⟨r.branch :: bs, [v], some v, false, r.wasRetry⟩
      else do
        let p ← drivePass descr bs
        pure {p with branches := r.branch :: p.branches, votes := v :: p.votes,
                     wasRetry := r.wasRetry || p.wasRetry}

def minInOverall (votes : List Int) : Int :=
  votes.foldl (fun m v => if v < m then v else m) stageMaxNever

def maxInOverall (votes : List Int) : Int :=
  votes.foldl (fun m v => if m < v then v else m) stageMinNever

def minInGroup (descr : TxstageDescriptor) (votes : List Int) : Int :=
  votes.foldl (fun m v => if descr.txsStageMin ≤ v ∧ v ≤ descr.txsMaxComplete ∧ m < v then v else m)
    stageMaxNever

def votedStage (descr : TxstageDescriptor) (votes : List Int) : Int :=
  let new :=
    if descr.txsMinComplete ≤ minInOverall votes ∧ minInOverall votes ≤ descr.txsMaxComplete ∧
        descr.txsMaxComplete < maxInOverall votes then maxInOverall votes
    else if minInGroup descr votes ≠ stageMaxNever then minInGroup descr votes
    else minInOverall votes
  if new = stageMaxNever then descr.txsMaxComplete else new

def Pass.newTxstage (p : Pass) (descr : TxstageDescriptor) : Int :=
  match p.jump with
  | some v => v
  | none => votedStage descr p.votes

/-- Log the new stage. A commit that cannot be logged becomes an abort, and an abort that then
cannot be logged ends the process. -/
def switchStage (tl : Tl) (newTxstage : Int) : Prog Disk Tl := do
  let r ← tmsLogStage tl newTxstage (newTxstage ≠ stageCommitting)
  if r.1 then pure r.2
  else do
    let r ← tmsLogStage r.2 stageAborting false
    if r.1 then pure r.2 else Prog.stop

inductive Next where
  | again (tl : Tl) (try_ : ℕ)
  | leave (ret : Int) (tl : Tl)
  | done (descr : TxstageDescriptor) (tl : Tl)

def Next.tl : Next → Tl
  | .again tl _ => tl
  | .leave _ tl => tl
  | .done _ tl => tl

structure Config where
  xaRetries : ℕ

def Pass.switches (p : Pass) (descr : TxstageDescriptor) : Bool :=
  p.newTxstage descr ≠ descr.txstage ∧ p.newTxstage descr ≠ stageMaxNever

def driveSwitch (tl : Tl) (descr : TxstageDescriptor) (p : Pass) : Prog Disk Tl :=
  if p.switches descr then switchStage tl (p.newTxstage descr) else pure tl

def driveNext (cfg : Config) (cmtLogged : Bool) (tl : Tl) (try_ : ℕ) (descr : TxstageDescriptor)
    (p : Pass) : Next :=
  if cmtLogged ∧ descr.txstage = stageCommitting then .leave tpSucceed tl
  else if p.wasRetry then
    if p.switches descr ∨ p.jump.isSome ∨ try_+1 < cfg.xaRetries then .again tl (try_+1)
    else .done descr tl
  else if p.switches descr ∨ p.jump.isSome then .again tl 0
  else .done descr tl

def driveBody (cfg : Config) (cmtLogged : Bool) (tl : Tl) (try_ : ℕ) : Prog Disk Next :=
  match xaStageGetDescr tl.txstage with
  | none => pure (.leave tpeSystem tl)
  | some descr => do
    let p ← drivePass descr tl.branches
    if p.invalid then pure (.leave tpeSystem {tl with branches := p.branches})
    else do
      let tl ← driveSwitch {tl with branches := p.branches} descr p
      pure (driveNext cfg cmtLogged tl try_ descr p)

structure DriveEnd where
  ret : Int
  tl : Option Tl

def driveDone (masterOp : XaOp) (descr : TxstageDescriptor) (tl : Tl) : Prog Disk DriveEnd :=
  if descr.txsMinComplete ≤ descr.txstage ∧ descr.txstage ≤ descr.txsMaxComplete then do
    tmsRemoveLogfile
    pure ⟨xaTxstage2tperrno descr.txstage masterOp, none⟩
  else pure ⟨xaTxstage2tperrno descr.txstage masterOp, some (tmsUnlockEntry {tl with isBackground := true})⟩

def driveLoop (cfg : Config) (masterOp : XaOp) (cmtLogged : Bool) : ℕ → Tl → ℕ → Prog Disk DriveEnd
  | 0, _, _ => Prog.stop
  | fuel+1, tl, try_ => do
    let next ← driveBody cfg cmtLogged tl try_
    match next with
    | .again tl try_ => driveLoop cfg masterOp cmtLogged fuel tl try_
    | .leave ret tl => pure ⟨ret, some (tmsUnlockEntry {tl with isBackground := true})⟩
    | .done descr tl => driveDone masterOp descr tl

def tmDrive (cfg : Config) (fuel : ℕ) (masterOp : XaOp) (cmtLogged : Bool) (tl : Tl) :
    Prog Disk DriveEnd :=
  driveLoop cfg masterOp cmtLogged fuel tl 0

theorem pick_mem (f : Int → Int → Prop) [∀ m v, Decidable (f m v)] (votes : List Int) (m : Int) :
    votes.foldl (fun m v => if f m v then v else m) m = m ∨
      votes.foldl (fun m v => if f m v then v else m) m ∈ votes := by
  induction votes generalizing m with
  | nil => exact Or.inl rfl
  | cons v _ ih =>
    rw [foldl_cons]
    split
    · rcases ih v with h | h
      · exact Or.inr (by rw [h]; exact mem_cons_self)
      · exact Or.inr (mem_cons_of_mem _ h)
    · rcases ih m with h | h
      · exact Or.inl h
      · exact Or.inr (mem_cons_of_mem _ h)

variable {votes : List Int}

theorem minInOverall_mem : minInOverall votes = stageMaxNever ∨ minInOverall votes ∈ votes :=
  pick_mem (fun m v => v < m) votes stageMaxNever

theorem maxInOverall_mem : maxInOverall votes = stageMinNever ∨ maxInOverall votes ∈ votes :=
  pick_mem (fun m v => m < v) votes stageMinNever

variable (descr : TxstageDescriptor)

theorem minInGroup_eq (h : ∀ v ∈ votes, v < stageMaxNever) :
    minInGroup descr votes = stageMaxNever := by
  rw [minInGroup]
  induction votes with
  | nil => rfl
  | cons v _ ih =>
    have hv := h v mem_cons_self
    rw [foldl_cons, if_neg (fun hc => absurd hc.2.2 (by omega))]
    exact ih (fun w hw => h w (mem_cons_of_mem _ hw))

theorem votedStage_eq (h : ∀ v ∈ votes, v < stageMaxNever) : votedStage descr votes =
      if descr.txsMinComplete ≤ minInOverall votes ∧ minInOverall votes ≤ descr.txsMaxComplete ∧
        descr.txsMaxComplete < maxInOverall votes then maxInOverall votes
      else if minInOverall votes = stageMaxNever then descr.txsMaxComplete
      else minInOverall votes := by
  have hmax : maxInOverall votes ≠ stageMaxNever := by
    rcases @maxInOverall_mem votes with he | hm
    · rw [he]
      decide
    · exact ne_of_lt (h _ hm)
  rw [votedStage]
  simp only [minInGroup_eq descr h, ne_eq, not_true_eq_false, if_false]
  by_cases hc : descr.txsMinComplete ≤ minInOverall votes ∧
      minInOverall votes ≤ descr.txsMaxComplete ∧ descr.txsMaxComplete < maxInOverall votes
  · simp [if_pos hc, if_neg hmax]
  · simp [if_neg hc]

variable {descr : TxstageDescriptor}

/-- The stage is one that a branch voted for, or the last complete one. -/
theorem votedStage_mem (h : ∀ v ∈ votes, v < stageMaxNever)
    (hd : stageMinNever ≤ descr.txsMaxComplete ∧ descr.txsMaxComplete < stageMaxNever) :
    votedStage descr votes ∈ votes ∨ votedStage descr votes = descr.txsMaxComplete := by
  rw [votedStage_eq descr h]
  split
  · rename_i hc
    refine Or.inl (maxInOverall_mem.resolve_left (fun he => ?_))
    omega
  · split
    · exact Or.inr rfl
    · rename_i hne
      exact Or.inl (minInOverall_mem.resolve_left hne)

theorem descr_complete_range : ∀ d ∈ stateDescriptor,
    stageMinNever ≤ d.txsMaxComplete ∧ d.txsMaxComplete < stageMaxNever := by
  decide

def PassVotes (s v : Int) : Prop := Votes s v ∨ s = stagePreparing ∧ v = stageAborting

theorem PassVotes.lt {s v : Int} (h : PassVotes s v) : v < stageMaxNever := by
  rcases h with h | ⟨-, rfl⟩
  · exact h.lt
  · decide

structure Pass.VotesIn (p : Pass) (s : Int) : Prop where
  votes : ∀ v ∈ p.votes, PassVotes s v
  jump : ∀ v, p.jump = some v → PassVotes s v

theorem Pass.VotesIn.new {p : Pass} (h : p.VotesIn descr.txstage) (hd : descr ∈ stateDescriptor) :
    PassVotes descr.txstage (p.newTxstage descr) ∨ p.newTxstage descr = descr.txsMaxComplete := by
  rw [Pass.newTxstage]
  cases hj : p.jump with
  | some v => exact Or.inl (h.jump v hj)
  | none =>
    rcases votedStage_mem (fun v hv => (h.votes v hv).lt) (descr_complete_range _ hd) with hm | he
    · exact Or.inl (h.votes _ hm)
    · exact Or.inr he

/-- From preparing a pass decides; on a side of the decision it stays there. -/
theorem Pass.VotesIn.side {p : Pass} (h : p.VotesIn descr.txstage) (hd : descr ∈ stateDescriptor) :
    (CommitSide descr.txstage → CommitSide (p.newTxstage descr)) ∧
    (AbortSide descr.txstage → AbortSide (p.newTxstage descr)) ∧
    (descr.txstage = stagePreparing → p.newTxstage descr = stageCommitting ∨
      p.newTxstage descr = stageAborting ∨ p.newTxstage descr = stagePrepro) ∧
    (descr.txstage = stagePrepro → p.newTxstage descr = stagePrepro) := by
  obtain ⟨hc, ha, hprep, hpro⟩ := complete_side _ hd
  rcases h.new hd with hv | he
  · refine ⟨?_, ?_, ?_, ?_⟩
    · intro hs
      rcases hv with hv | ⟨he, -⟩
      · exact hs.vote hv
      · rw [he] at hs
        exact absurd hs (by decide)
    · intro hs
      rcases hv with hv | ⟨he, -⟩
      · exact hs.vote hv
      · rw [he] at hs
        exact absurd hs (by decide)
    · intro hs
      rcases hv with hv | ⟨-, he⟩
      · rw [hs] at hv
        rcases votes_preparing hv with he | he
        · exact Or.inl he
        · exact Or.inr (Or.inl he)
      · exact Or.inr (Or.inl he)
    · intro hs
      rcases hv with hv | ⟨he, -⟩
      · rw [hs] at hv
        exact absurd hv.stage (by decide)
      · rw [hs] at he
        exact absurd he (by decide)
  · rw [he]
    exact ⟨hc, ha, fun hs => Or.inr (Or.inr (hprep hs)), hpro⟩

theorem AbortSide.ne {s : Int} (h : AbortSide s) :
    s ≠ stageActive ∧ s ≠ stagePreparing ∧ s ≠ stageCommitting ∧ s ≠ stagePrepro := by
  simp only [AbortSide, stageAborting, stageAbforgotHeu] at h
  simp only [stageActive, stagePreparing, stageCommitting, stagePrepro]
  omega

theorem CommitSide.ne {s : Int} (h : CommitSide s) :
    s ≠ stageActive ∧ s ≠ stagePreparing ∧ s ≠ stagePrepro := by
  simp only [CommitSide, stageCommitting] at h
  simp only [stageActive, stagePreparing, stagePrepro]
  omega

theorem Pass.VotesIn.no_decision {p : Pass}
    (h : p.VotesIn descr.txstage) (hd : descr ∈ stateDescriptor)
    (hside : CommitSide descr.txstage ∨ AbortSide descr.txstage)
    (hne : p.newTxstage descr ≠ descr.txstage) :
    p.newTxstage descr ≠ stageCommitting ∧ p.newTxstage descr ≠ stagePrepro := by
  obtain ⟨hcommit, habort, -, -⟩ := h.side hd
  rcases hside with hs | hs
  · refine ⟨?_, (hcommit hs).ne.2.2⟩
    intro he
    have hcomplete : ∀ d ∈ stateDescriptor, CommitSide d.txstage →
        d.txsMaxComplete ≠ stageCommitting := by decide
    rcases h.new hd with (hv | ⟨hp, -⟩) | hm
    · -- only committing and forgetting have a table here, and committing would not be left
      have hleft := hv.keeps
        (P := fun s v => CommitSide s → v ≠ s → v ≠ stageCommitting) (by decide)
      exact hleft hs hne he
    · exact hs.ne.2.1 hp
    · exact hcomplete descr hd hs (hm.symm.trans he)
  · exact ⟨(habort hs).ne.2.2.1, (habort hs).ne.2.2.2⟩

structure Steady (s : Int) (J : Disk → Prop) : Prop where
  rest : ∀ d as, J d → J (d.rest as)
  line : ∀ d rmid c err reason btid, J d → J (d.wrote (.rmstat rmid c err reason btid))
  call : ∀ d c rmid btid, xaStatusGetOp s c ≠ .nop → J d →
    J (d.noted (.call (xaStatusGetOp s c) rmid btid))

variable {s : Int} {J : Disk → Prop}

theorem Steady.xaCall (h : Steady s J) {c : Char} (hop : xaStatusGetOp s c ≠ .nop)
    (rmid btid : Int) : Triple J (xaCall (xaStatusGetOp s c) rmid btid) (fun _ => J) J := by
  apply Triple.bind (ask_triple h.rest)
  intro a
  apply Triple.bind (M := fun _ => J) (Triple.change (fun d => h.call d c rmid btid hop))
  intro _
  exact Triple.pure (fun _ hd => hd)

theorem Steady.driveBranch (h : Steady s J) (b : Branch) : Triple J (driveBranch s b)
      (fun r d => J d ∧ ∀ v, r.outcome = .vote v → PassVotes s v) J := by
  simp only [Tms.driveBranch]
  split
  · split
    · exact Triple.pure (fun _ hd => ⟨hd, fun v hv => by cases hv⟩)
    · rename_i row hrow
      exact Triple.pure (fun _ hd => ⟨hd, fun v hv => by
        cases hv
        exact Or.inl (vote_by_new_status hrow)⟩)
  · rename_i hop
    apply Triple.bind (h.xaCall hop b.rmid b.btid)
    intro a
    split
    · exact Triple.pure (fun _ hd => ⟨hd, fun v hv => by cases hv⟩)
    rename_i row hrow
    apply Triple.bind (tmsLogRmstatus_triple h.rest
      (fun d err reason => h.line d b.rmid row.nextRmstatus err reason b.btid))
    intro r
    split
    · rename_i hfail
      exact Triple.pure (fun _ hd => ⟨hd.1, fun v hv => by
        cases hv
        exact Or.inr ⟨hfail.2, rfl⟩⟩)
    · exact Triple.pure (fun _ hd => ⟨hd.1, fun v hv => by
        cases hv
        exact Or.inl (vote_by_op hrow)⟩)

/-- A pass keeps what its calls and lines keep, and gathers votes of its stage. -/
theorem Steady.drivePass (h : Steady descr.txstage J) (bs : List Branch) :
    Triple J (drivePass descr bs) (fun p d => J d ∧ p.VotesIn descr.txstage) J := by
  induction bs with
  | nil =>
    exact Triple.pure (fun _ hd => ⟨hd, ⟨by simp, by simp⟩⟩)
  | cons b bs ih =>
    apply Triple.bind (h.driveBranch b)
    intro r
    -- the rest of the pass adds this branch and its vote to what it finds
    have hrest {votes : List Int → List Int} {retry : Bool → Bool}
        (hv : (∀ v, r.outcome = .vote v → PassVotes descr.txstage v) → ∀ l : List Int,
          (∀ v ∈ l, PassVotes descr.txstage v) → ∀ v ∈ votes l, PassVotes descr.txstage v) :
        Triple (fun d => J d ∧ ∀ v, r.outcome = .vote v → PassVotes descr.txstage v)
          (do
            let p ← Tms.drivePass descr bs
            pure {p with branches := r.branch :: p.branches, votes := votes p.votes,
                         wasRetry := retry p.wasRetry})
          (fun p d => J d ∧ p.VotesIn descr.txstage) J := by
      intro d hd
      have hadd (p : Pass) : Triple (fun d => J d ∧ p.VotesIn descr.txstage)
          (pure {p with branches := r.branch :: p.branches, votes := votes p.votes,
                        wasRetry := retry p.wasRetry} : Prog Disk Pass)
          (fun p d => J d ∧ p.VotesIn descr.txstage) J := by
        apply Triple.pure
        intro _ hp
        exact ⟨hp.1, ⟨hv hd.2 _ hp.2.votes, hp.2.jump⟩⟩
      exact Triple.bind ih hadd d hd.1
    split
    · exact hrest (fun _ _ hl => hl)
    · exact Triple.pure (fun _ hd => ⟨hd.1, ⟨by simp, by simp⟩⟩)
    · rename_i v hv
      split
      · apply Triple.pure
        intro d hd
        have hvote := hd.2 v hv
        refine ⟨hd.1, ⟨?_, ?_⟩⟩
        · intro w hw
          rw [mem_singleton.mp hw]
          exact hvote
        · intro w hw
          cases hw
          exact hvote
      · apply hrest
        intro hvotes l hl w hw
        rcases mem_cons.mp hw with rfl | hw
        · exact hvotes w hv
        · exact hl w hw

theorem switchStage_forced {I J : Disk → Prop} {tl : Tl} {s : Int} (hne : tl.txstage ≠ s)
    (hs : s ≠ stageCommitting) (hnote : ∀ d, I d → J (d.noted (.stage s tl.branches)))
    (hrest : ∀ d as, J d → J (d.rest as)) (hline : ∀ d, J d → J (d.wrote (.stage s))) :
    Triple I (switchStage tl s)
      (fun tl' d => tl'.txstage = s ∧ tl'.branches = tl.branches ∧ J d) J := by
  have hforced : decide (s ≠ stageCommitting) = true := by simpa using hs
  rw [switchStage, hforced]
  apply Triple.bind (tmsLogStage_triple hne hnote hrest hrest (fun _ h => h) hline)
  intro r
  obtain ⟨ok, _⟩ := r
  cases ok with
  | true =>
    apply Triple.pure
    intro d hd
    exact ⟨(hd.2.2.2.1 rfl).1, hd.2.1, hd.1⟩
  | false =>
    intro d hd
    exact absurd (hd.2.2.2.2 rfl).1 (by decide)

theorem driveNext_tl (cfg : Config) (cmtLogged : Bool) (tl : Tl) (try_ : ℕ)
    (descr : TxstageDescriptor) (p : Pass) : (driveNext cfg cmtLogged tl try_ descr p).tl = tl := by
  rw [driveNext]
  split
  · rfl
  · split
    · split <;> rfl
    · split <;> rfl

theorem driveDone_triple (masterOp : XaOp) (descr : TxstageDescriptor) (tl : Tl)
    (hrest : ∀ d as, J d → J (d.rest as)) (hnone : ∀ d, J d → J {d with log := none}) :
    Triple J (driveDone masterOp descr tl)
      (fun e d => J d ∧ e.ret = xaTxstage2tperrno descr.txstage masterOp) J := by
  rw [driveDone]
  split
  · apply Triple.bind (tmsRemoveLogfile_triple hrest hnone)
    intro _
    exact Triple.pure (fun _ h => ⟨h, rfl⟩)
  · exact Triple.pure (fun _ h => ⟨h, rfl⟩)

end Endurox.Tms
