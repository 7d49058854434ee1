import Endurox.TmsPrepare

/-! The end of a drive: how many passes there are, and what `tm_drive` leaves behind. -/

namespace Endurox.Tms

open Base List
open Base.Prog (Triple)

def driveRun (cfg : Config) (cmtLogged : Bool) : ℕ → Tl → ℕ → Prog Disk (Option Next)
  | 0, _, _ => pure none
  | fuel+1, tl, try_ => do
    let next ← driveBody cfg cmtLogged tl try_
    match next with
    | .again tl try_ => driveRun cfg cmtLogged fuel tl try_
    | .leave ret tl => pure (some (.leave ret tl))
    | .done descr tl => pure (some (.done descr tl))

def TxstageDescriptor.complete (descr : TxstageDescriptor) : Prop :=
  descr.txsMinComplete ≤ descr.txstage ∧ descr.txstage ≤ descr.txsMaxComplete

instance (descr : TxstageDescriptor) : Decidable descr.complete :=
  inferInstanceAs (Decidable (_ ∧ _))

def driveOut : Next → Option Tl
  | .done descr tl =>
    if descr.complete then none else some (tmsUnlockEntry {tl with isBackground := true})
  | .leave _ tl => some (tmsUnlockEntry {tl with isBackground := true})
  | .again tl _ => some tl

def driveExit (masterOp : XaOp) : Option Next → Prog Disk DriveEnd
  | some (.leave ret tl) => pure ⟨ret, some (tmsUnlockEntry {tl with isBackground := true})⟩
  | some (.done descr tl) => driveDone masterOp descr tl
  | _ => Prog.stop

variable (cfg : Config)

theorem driveLoop_eq_run (masterOp : XaOp) (cmtLogged : Bool) (fuel : ℕ) (tl : Tl) (try_ : ℕ) :
    driveLoop cfg masterOp cmtLogged fuel tl try_ =
      driveRun cfg cmtLogged fuel tl try_ >>= driveExit masterOp := by
  induction fuel generalizing tl try_ with
  | zero => rfl
  | succ fuel ih =>
    rw [driveLoop, driveRun, Prog.bind_assoc]
    congr 1
    funext next
    cases next with
    | again tl try_ => exact ih tl try_
    | leave ret tl => rfl
    | done descr tl => rfl

theorem driveExit_out (masterOp : XaOp) (next : Next) :
    Triple (fun _ => True) (driveExit masterOp (some next))
      (fun e _ => e.tl = driveOut next) (fun _ => True) := by
  cases next with
  | again tl try_ => exact Triple.stop (fun _ h => h)
  | leave ret tl => exact Triple.pure (fun _ _ => rfl)
  | done descr tl =>
    rw [driveOut]
    show Triple _ (if descr.complete then _ else _) _ _
    split
    · apply Triple.bind (tmsRemoveLogfile_triple (fun _ _ h => h) (fun _ h => h))
      intro _
      exact Triple.pure (fun _ _ => rfl)
    · exact Triple.pure (fun _ _ => rfl)

def Finished (s : Int) : Prop := ∃ descr, xaStageGetDescr s = some descr ∧ descr.complete

def WellEnded (next : Next) : Prop :=
  match driveOut next with
  | none => Finished next.tl.txstage
  | some tl => tl.isBackground = true ∧ tl.locked = false ∧ ¬Finished tl.txstage

def drivenStages : List Int :=
  (stateDescriptor.map TxstageDescriptor.txstage).filter (fun s => s ≠ stageNull ∧ s ≠ stageActive)

def switchesLeft (s : Int) : ℕ :=
  if s = stagePreparing then 3
  else if s = stageCommitting ∨ s = stageAborting then 2
  else if s = stageComforgetting ∨ s = stageAbforgetting then 1
  else 0

variable {s : Int} {descr : TxstageDescriptor}

theorem finished_of_descr (h : xaStageGetDescr s = some descr) : Finished s ↔ descr.complete := by
  constructor
  · rintro ⟨_, hd, hc⟩
    rw [h] at hd
    cases hd
    exact hc
  · exact fun hc => ⟨descr, h, hc⟩

theorem descr_of_driven (h : s ∈ drivenStages) : ∃ descr, xaStageGetDescr s = some descr := by
  have htable : ∀ s ∈ drivenStages, (xaStageGetDescr s).isSome = true := by decide
  exact Option.isSome_iff_exists.mp (htable s h)

def Goes (s t : Int) : Prop := t ∈ drivenStages ∧ switchesLeft t < switchesLeft s

variable {v : Int}

theorem vote_goes (hs : s ∈ drivenStages) (h : PassVotes s v) : v = s ∨ Goes s v := by
  have htable : ∀ s ∈ drivenStages, ∀ r ∈ opTable s, r.nextTxstage = s ∨
      r.nextTxstage ∈ drivenStages ∧ switchesLeft r.nextTxstage < switchesLeft s := by decide
  rcases h with ⟨r, hr, rfl⟩ | ⟨rfl, rfl⟩
  · exact htable s hs r hr
  · right
    unfold Goes
    decide

variable {p : Pass}

theorem Pass.VotesIn.goes (h : p.VotesIn descr.txstage) (hd : descr ∈ stateDescriptor)
    (hs : descr.txstage ∈ drivenStages) :
    p.newTxstage descr = descr.txstage ∨ Goes descr.txstage (p.newTxstage descr) := by
  have htable : ∀ d ∈ stateDescriptor, d.txstage ∈ drivenStages → d.txsMaxComplete = d.txstage ∨
      d.txsMaxComplete ∈ drivenStages ∧ switchesLeft d.txsMaxComplete < switchesLeft d.txstage := by
    decide
  rcases h.new hd with hv | he
  · exact vote_goes hs hv
  · rw [he]
    exact htable descr hd hs

def ownVote (s : Int) (c : Char) : Option Int :=
  if xaStatusGetOp s c = .nop then
    (xaStatusGetNextByNewStatus s c).map RmStatusDriver.nextTxstage
  else none

def Heard (s : Int) (c : Char) : Prop :=
  xaStatusGetOp s c ≠ .nop ∨ (xaStatusGetNextByNewStatus s c).isSome = true

structure PassCounts (descr : TxstageDescriptor) (bs : List Branch) (p : Pass) : Prop where
  valid : p.invalid = false
  jump : ∀ v, p.jump = some v → leavesGroup descr v = true
  votes : p.jump = none → ∀ b ∈ bs, ∀ v, ownVote descr.txstage b.rmstatus = some v → v ∈ p.votes
  kept : p.jump = none → ∀ b ∈ bs, xaStatusGetOp descr.txstage b.rmstatus = .nop → b ∈ p.branches
  heard : ∀ v ∈ p.votes, ∃ b ∈ bs, Heard descr.txstage b.rmstatus

structure BranchCounts (s : Int) (b : Branch) (r : Driven) : Prop where
  valid : r.outcome ≠ .invalid
  votes : ∀ v, ownVote s b.rmstatus = some v → r.outcome = .vote v
  kept : xaStatusGetOp s b.rmstatus = .nop → r.branch = b
  heard : ∀ v, r.outcome = .vote v → Heard s b.rmstatus

variable {votes : List Int}

theorem PassCounts.cons {b : Branch} {r : Driven} {bs : List Branch} (h : PassCounts descr bs p)
    (hr : BranchCounts descr.txstage b r)
    (hvotes : ∀ v, v ∈ votes ↔ r.outcome = .vote v ∨ v ∈ p.votes) (retry : Bool) :
    PassCounts descr (b :: bs) {p with branches := r.branch :: p.branches, votes := votes,
                                       wasRetry := retry} where
  valid := h.valid
  jump := h.jump
  votes hj c hc v hv := by
    rcases mem_cons.mp hc with rfl | hc
    · exact (hvotes v).mpr (.inl (hr.votes v hv))
    · exact (hvotes v).mpr (.inr (h.votes hj c hc v hv))
  kept hj c hc hop := by
    rcases mem_cons.mp hc with rfl | hc
    · rw [hr.kept hop]
      exact mem_cons_self
    · exact mem_cons_of_mem _ (h.kept hj c hc hop)
  heard v hv := by
    rcases (hvotes v).mp hv with hv | hv
    · exact ⟨b, mem_cons_self, hr.heard v hv⟩
    · obtain ⟨c, hc, hheard⟩ := h.heard v hv
      exact ⟨c, mem_cons_of_mem _ hc, hheard⟩

theorem driveBranch_counts (s : Int) (b : Branch) :
    Triple (fun _ => True) (driveBranch s b) (fun r _ => BranchCounts s b r) (fun _ => True) := by
  simp only [driveBranch]
  split
  · rename_i hop
    split
    · rename_i hrow
      refine Triple.pure (fun _ _ => ⟨by simp, fun v hv => ?_, fun _ => rfl, fun v hv => by cases hv⟩)
      rw [ownVote, if_pos hop, hrow] at hv
      cases hv
    rename_i row hrow
    refine Triple.pure (fun _ _ => ⟨by simp, fun v hv => ?_, fun _ => rfl, fun v _ => .inr ?_⟩)
    · rw [ownVote, if_pos hop, hrow] at hv
      cases hv
      rfl
    · rw [hrow]
      rfl
  · rename_i hop
    have hcalled (r : Driven) (hr : r.outcome ≠ .invalid) : BranchCounts s b r := by
      refine ⟨hr, fun v hv => ?_, fun hnop => absurd hnop hop, fun _ _ => .inl hop⟩
      rw [ownVote, if_neg hop] at hv
      cases hv
    have hcall : Triple (fun _ => True) (xaCall (xaStatusGetOp s b.rmstatus) b.rmid b.btid)
        (fun _ _ => True) (fun _ => True) := by
      intro d _
      split <;> trivial
    apply Triple.bind hcall
    intro a
    obtain ⟨_, hrow⟩ := call_has_row hop a.reason
    rw [hrow]
    apply Triple.bind (tmsLogRmstatus_triple (fun _ _ h => h) (fun _ _ _ h => h))
    intro r
    split
    · exact Triple.pure (fun _ _ => hcalled _ (by simp))
    · exact Triple.pure (fun _ _ => hcalled _ (by simp))

theorem drivePass_counts (descr : TxstageDescriptor) (bs : List Branch) :
    Triple (fun _ => True) (drivePass descr bs) (fun p _ => PassCounts descr bs p)
      (fun _ => True) := by
  induction bs with
  | nil => exact Triple.pure (fun _ _ => ⟨rfl, by simp, by simp, by simp, by simp⟩)
  | cons b bs ih =>
    apply Triple.bind (driveBranch_counts descr.txstage b)
    intro r d hr
    cases hout : r.outcome with
    | silent =>
      refine Triple.bind ih (fun p => Triple.pure (fun _ h => ?_)) d trivial
      exact h.cons hr (by simp [hout]) _
    | invalid => exact absurd hout hr.valid
    | vote v =>
      by_cases hleave : leavesGroup descr v = true
      · simp only [hleave]
        refine ⟨rfl, fun w hw => ?_, nofun, nofun, fun w _ => ?_⟩
        · cases hw
          exact hleave
        · exact ⟨b, mem_cons_self, hr.heard v hout⟩
      · simp only [hleave]
        refine Triple.bind ih (fun p => Triple.pure (fun _ h => ?_)) d trivial
        refine h.cons hr (fun w => ?_) _
        rw [hout, mem_cons, Outcome.vote.injEq]
        exact or_congr_left eq_comm

theorem switchStage_stage {tl : Tl} (hne : tl.txstage ≠ s)
    (hcommit : s = stageCommitting → tl.txstage = stagePreparing) :
    Triple (fun _ => True) (switchStage tl s)
      (fun tl' _ => (tl'.txstage = s ∨ s = stageCommitting ∧ tl'.txstage = stageAborting) ∧
        tl'.branches = tl.branches) (fun _ => True) := by
  by_cases hs : s = stageCommitting
  · subst hs
    apply (switchStage_commit (J := fun _ => True) (hcommit rfl) (fun _ h => h) (fun _ h => h) (fun _ _ h => h)
      (fun _ _ h => h)).post
    exact fun tl' _ h => ⟨h.1.imp id (fun ha => ⟨rfl, ha⟩), h.2.1⟩
  · apply (switchStage_forced (J := fun _ => True) hne hs (fun _ h => h) (fun _ _ h => h) (fun _ h => h)).post
    exact fun tl' _ h => ⟨.inl h.1, h.2.1⟩

theorem Pass.VotesIn.commit (h : p.VotesIn descr.txstage) (hd : descr ∈ stateDescriptor)
    (hs : descr.txstage ∈ drivenStages) (hne : descr.txstage ≠ p.newTxstage descr)
    (hnew : p.newTxstage descr = stageCommitting) : descr.txstage = stagePreparing := by
  have hvote : ∀ s ∈ drivenStages, ∀ r ∈ opTable s, r.nextTxstage = stageCommitting →
      s = stageCommitting ∨ s = stagePreparing := by decide
  have hcomplete : ∀ d ∈ stateDescriptor, d.txsMaxComplete ≠ stageCommitting := by decide
  rcases h.new hd with (⟨r, hr, hrow⟩ | ⟨hp, -⟩) | he
  · rcases hvote _ hs r hr (hrow.trans hnew) with hc | hp
    · exact absurd (hc.trans hnew.symm) hne
    · exact hp
  · exact hp
  · exact absurd (he.symm.trans hnew) (hcomplete descr hd)

inductive Passed (cfg : Config) (cmtLogged : Bool) (tl : Tl) (try_ : ℕ) (descr : TxstageDescriptor)
    (p : Pass) (next : Next) : Prop
  | switched {tl' : Tl} {try' : ℕ} (h : next = .again tl' try') (hgoes : Goes tl.txstage tl'.txstage)
      (hnew : tl'.txstage = stageCommitting → p.newTxstage descr = stageCommitting)
      (hbs : tl'.branches = p.branches)
  | retried {tl' : Tl} (h : next = .again tl' (try_+1)) (hs : tl'.txstage = tl.txstage)
      (htry : try_+1 < cfg.xaRetries) (hnew : p.newTxstage descr = tl.txstage)
      (hlog : ¬(cmtLogged = true ∧ tl.txstage = stageCommitting))
  | logged {tl' : Tl} (h : next = .leave tpSucceed tl') (hc : cmtLogged = true)
      (hs : tl.txstage = stageCommitting) (hnew : tl'.txstage = p.newTxstage descr)
  | done {tl' : Tl} (h : next = .done descr tl') (hd : tl'.txstage = tl.txstage)

theorem driveNext_passed {cfg : Config} {cmtLogged : Bool} {tl tl' : Tl} {try_ : ℕ}
    (hst : descr.txstage = tl.txstage) (hjump : p.jump.isSome = true → p.switches descr = true)
    (hno : p.switches descr = false → tl'.txstage = tl.txstage)
    (hyes : p.switches descr = true → Goes tl.txstage tl'.txstage ∧
      (tl'.txstage = p.newTxstage descr ∨
        p.newTxstage descr = stageCommitting ∧ tl'.txstage = stageAborting))
    (hbs : tl'.branches = p.branches) (hnever : p.newTxstage descr ≠ stageMaxNever) :
    Passed cfg cmtLogged tl try_ descr p (driveNext cfg cmtLogged tl' try_ descr p) := by
  have hswitched (try' : ℕ) (hsw : p.switches descr = true) :
      Passed cfg cmtLogged tl try_ descr p (.again tl' try') := by
    obtain ⟨hgoes, hstage⟩ := hyes hsw
    refine .switched rfl hgoes (fun hc => ?_) hbs
    rcases hstage with he | ⟨-, ha⟩
    · exact he.symm.trans hc
    · exact absurd (ha.symm.trans hc) (by decide)
  have hstays (hsw : ¬p.switches descr = true) :
      tl'.txstage = tl.txstage ∧ p.newTxstage descr = tl.txstage := by
    refine ⟨hno (by simpa using hsw), ?_⟩
    by_contra hne
    exact hsw (by rw [Pass.switches, decide_eq_true_eq, hst]; exact ⟨hne, hnever⟩)
  rw [driveNext]
  by_cases hlog : cmtLogged = true ∧ descr.txstage = stageCommitting
  · rw [if_pos hlog]
    refine .logged rfl hlog.1 (hst.symm.trans hlog.2) ?_
    by_cases hsw : p.switches descr = true
    · rcases (hyes hsw).2 with he | ⟨hc, -⟩
      · exact he
      · rw [Pass.switches, decide_eq_true_eq, hlog.2] at hsw
        exact absurd hc hsw.1
    · rw [(hstays hsw).1, (hstays hsw).2]
  · rw [if_neg hlog]
    by_cases hsw : p.switches descr = true
    · rw [if_pos (Or.inl hsw), if_pos (Or.inl hsw)]
      split
      · exact hswitched _ hsw
      · exact hswitched _ hsw
    have hj : ¬p.jump.isSome = true := fun h => hsw (hjump h)
    have hcond : ¬(p.switches descr = true ∨ p.jump.isSome = true) := not_or.mpr ⟨hsw, hj⟩
    split
    · split
      · rename_i htry
        exact .retried rfl (hstays hsw).1 ((htry.resolve_left hsw).resolve_left hj)
          (hstays hsw).2 (by rwa [← hst])
      · exact .done rfl (hstays hsw).1
    · exact .done rfl (hstays hsw).1

theorem stages_ne_never : ∀ s ∈ drivenStages, s ≠ stageMaxNever := by decide

/-- One pass of the drive goes through all branches and moves as their votes say. -/
theorem driveBody_passed (cmtLogged : Bool) {tl : Tl} (try_ : ℕ) (hs : tl.txstage ∈ drivenStages)
    (hdescr : xaStageGetDescr tl.txstage = some descr) :
    Triple (fun _ => True) (driveBody cfg cmtLogged tl try_)
      (fun next _ => ∃ p, PassCounts descr tl.branches p ∧ p.VotesIn descr.txstage ∧
        Passed cfg cmtLogged tl try_ descr p next) (fun _ => True) := by
  obtain ⟨hmem, hst⟩ := xaStageGetDescr_mem hdescr
  have hsteady : Steady descr.txstage (fun _ => True) := ⟨fun _ _ h => h,
    fun _ _ _ _ _ _ h => h, fun _ _ _ _ _ h => h⟩
  rw [driveBody, hdescr]
  apply Triple.bind (((drivePass_counts descr tl.branches).and
    (hsteady.drivePass tl.branches)).conseq (fun _ h => ⟨h, h⟩) (fun _ _ h => h) (fun _ _ => trivial))
  rintro p d ⟨hcounts, -, hvotes⟩
  have hdriven : descr.txstage ∈ drivenStages := by rwa [hst]
  have hnew := hvotes.goes hmem hdriven
  have hnever : p.newTxstage descr ≠ stageMaxNever := by
    rcases hnew with he | hg
    · rw [he]
      exact stages_ne_never _ hdriven
    · exact stages_ne_never _ hg.1
  have hjump (hj : p.jump.isSome = true) : p.switches descr = true := by
    obtain ⟨v, hv⟩ := Option.isSome_iff_exists.mp hj
    have hleave := hcounts.jump v hv
    rw [leavesGroup, decide_eq_true_eq] at hleave
    have hrange : ∀ d ∈ stateDescriptor, d.allowJump = true →
        d.txsStageMin ≤ d.txstage ∧ d.txstage ≤ d.txsMaxComplete := by decide
    have hin := hrange descr hmem hleave.2.1
    rw [Pass.switches, decide_eq_true_eq]
    refine ⟨?_, hnever⟩
    rw [Pass.newTxstage, hv]
    dsimp only
    omega
  have hswitch : Triple (fun _ => True) (driveSwitch {tl with branches := p.branches} descr p)
      (fun tl' _ => Passed cfg cmtLogged tl try_ descr p
        (driveNext cfg cmtLogged tl' try_ descr p)) (fun _ => True) := by
    rw [driveSwitch]
    split
    · rename_i hsw
      have hne : descr.txstage ≠ p.newTxstage descr := by
        rw [Pass.switches, decide_eq_true_eq] at hsw
        exact fun he => hsw.1 he.symm
      have hgoes := hnew.resolve_left hne.symm
      have hstage : Triple _ (switchStage {tl with branches := p.branches} (p.newTxstage descr))
          _ _ := switchStage_stage (by rw [← hst]; exact hne)
        (fun hc => hst.symm.trans (hvotes.commit hmem hdriven hne hc))
      apply hstage.post
      rintro tl' - ⟨hstage, hbs⟩
      refine driveNext_passed hst hjump (fun h => absurd hsw (by simp [h])) (fun _ => ⟨?_, hstage⟩)
        hbs hnever
      rw [← hst]
      rcases hstage with he | ⟨hc, ha⟩
      · rw [he]
        exact hgoes
      · rw [ha, hvotes.commit hmem hdriven hne hc]
        unfold Goes
        decide
    · rename_i hsw
      exact Triple.pure (fun _ _ => driveNext_passed hst hjump (fun _ => rfl)
        (fun h => absurd h hsw) rfl hnever)
  rw [hcounts.valid]
  refine Triple.bind hswitch (fun tl' => Triple.pure (fun _ h => ?_)) d trivial
  exact ⟨p, hcounts, hvotes, h⟩

theorem pick_best {f : Int → Int → Prop} [∀ m v, Decidable (f m v)]
    (hirrefl : ∀ a, ¬f a a) (htrans : ∀ a b c, f a b → f b c → f a c)
    (hneg : ∀ a b c, ¬f a b → ¬f b c → ¬f a c)
    (votes : List Int) (m : Int) :
    ¬f (votes.foldl (fun m v => if f m v then v else m) m) m ∧
      ∀ v ∈ votes, ¬f (votes.foldl (fun m v => if f m v then v else m) m) v := by
  induction votes generalizing m with
  | nil => exact ⟨hirrefl m, nofun⟩
  | cons w votes ih =>
    obtain ⟨hm, hv⟩ := ih (if f m w then w else m)
    rw [foldl_cons]
    generalize votes.foldl (fun m v => if f m v then v else m) (if f m w then w else m) = x at hm hv
    split at hm
    · rename_i hfw
      refine ⟨fun h => hm (htrans x m w h hfw), ?_⟩
      exact forall_mem_cons.mpr ⟨hm, hv⟩
    · rename_i hfw
      refine ⟨hm, ?_⟩
      intro v hmem
      rcases mem_cons.mp hmem with rfl | hmem
      · exact hneg x m v hm hfw
      · exact hv v hmem

theorem minInOverall_le (hv : v ∈ votes) : minInOverall votes ≤ v := by
  have h := (pick_best (f := fun m v => v < m) (by omega) (by omega) (by omega) votes stageMaxNever).2 v hv
  exact not_lt.mp h

theorem le_maxInOverall (hv : v ∈ votes) : v ≤ maxInOverall votes := by
  have h := (pick_best (f := fun m v => m < v) (by omega) (by omega) (by omega) votes stageMinNever).2 v hv
  exact not_lt.mp h

def descrCommitting : TxstageDescriptor :=
  ⟨stageCommitting, stageCommitting, stageCommittedHazard, stageCommitted, false⟩

theorem votes_committing (h : PassVotes stageCommitting v) :
    v ∈ [stageCommitting, stageCommittedHazard, stageCommittedHeuris, stageCommitted,
      stageComforgetting] := by
  have htable : ∀ r ∈ opTable stageCommitting, r.nextTxstage ∈ [stageCommitting,
    stageCommittedHazard, stageCommittedHeuris, stageCommitted, stageComforgetting] := by decide
  rcases h with ⟨r, hr, rfl⟩ | ⟨hs, -⟩
  · exact htable r hr
  · exact absurd hs (by decide)

theorem votedStage_forgetting (hall : ∀ v ∈ votes, PassVotes stageCommitting v)
    (hv : stageComforgetting ∈ votes) : votedStage descrCommitting votes = stageCommitting ∨
      votedStage descrCommitting votes = stageComforgetting := by
  have hle := minInOverall_le hv
  have hge := le_maxInOverall hv
  rw [votedStage_eq _ (fun v hv => (hall v hv).lt)]
  have hlow := votes_committing (hall _ (minInOverall_mem.resolve_left
    (fun he => absurd (he ▸ hle) (by decide))))
  have hhigh := votes_committing (hall _ (maxInOverall_mem.resolve_left
    (fun he => absurd (he ▸ hge) (by decide))))
  simp only [mem_cons, not_mem_nil, or_false] at hlow hhigh
  have hmaxeq : maxInOverall votes = stageComforgetting := by
    simp only [stageCommitting, stageCommittedHazard, stageCommittedHeuris, stageCommitted,
      stageComforgetting] at hge hhigh ⊢
    omega
  rw [hmaxeq]
  rcases hlow with hv | hv | hv | hv | hv <;> rw [hv] <;> decide

/-- No resource manager in this status has to be told to forget. -/
def Settled (c : Char) : Prop := c ≠ rmComforgetHaz ∧ c ≠ rmComforgetHeu

/-- The commit can end in the pass that is made after its decision was logged: the stage is
committing or gets there, and nobody has to be told to forget. -/
def MayFinish (tl : Tl) : Prop :=
  (∀ b ∈ tl.branches, b.rmstatus ≠ rmComforgetHaz ∧ b.rmstatus ≠ rmComforgetHeu) ∧
    (tl.txstage = stageCommitting ∨ tl.txstage = stagePreparing ∧
      (∀ b ∈ tl.branches, ¬VotesAbort b.rmstatus) ∧ ∃ b ∈ tl.branches, ¬Mute b.rmstatus)

def passesLeft (cfg : Config) (s : Int) (try_ : ℕ) : ℕ :=
  switchesLeft s*max 1 cfg.xaRetries+max 1 (cfg.xaRetries-try_)

theorem passesLeft_switched {t : Int} (h : Goes s t) (try_ try' : ℕ) :
    passesLeft cfg t try' < passesLeft cfg s try_ := by
  have hmul : (switchesLeft t+1)*max 1 cfg.xaRetries ≤ switchesLeft s*max 1 cfg.xaRetries :=
    Nat.mul_le_mul_right _ h.2
  rw [Nat.succ_mul] at hmul
  rw [passesLeft, passesLeft]
  omega

theorem passesLeft_retried {cfg : Config} (s : Int) {try_ : ℕ} (h : try_+1 < cfg.xaRetries) :
    passesLeft cfg s (try_+1) < passesLeft cfg s try_ := by
  rw [passesLeft, passesLeft]
  omega

theorem not_finished_of_forgets (h : s = stageCommitting ∨ s = stageComforgetting) :
    ¬Finished s := by
  rcases h with rfl | rfl
  · rw [finished_of_descr (show xaStageGetDescr stageCommitting = some _ from rfl)]
    decide
  · rw [finished_of_descr (show xaStageGetDescr stageComforgetting = some _ from rfl)]
    decide

section

variable {cfg : Config} {cmtLogged : Bool} {tl : Tl} {try_ : ℕ} {descr : TxstageDescriptor}
  {p : Pass}

theorem newTxstage_forgetting (hcounts : PassCounts descrCommitting tl.branches p)
    (hvotes : p.VotesIn stageCommitting)
    (hforget : ∃ b ∈ tl.branches, b.rmstatus = rmComforgetHaz ∨ b.rmstatus = rmComforgetHeu) :
    p.newTxstage descrCommitting = stageCommitting ∨
      p.newTxstage descrCommitting = stageComforgetting := by
  have hjump : p.jump = none := by
    cases hj : p.jump with
    | none => rfl
    | some v =>
      have hleave := hcounts.jump v hj
      rw [leavesGroup, decide_eq_true_eq] at hleave
      exact absurd hleave.2.1 (by decide)
  obtain ⟨b, hb, hst⟩ := hforget
  have hown : ownVote stageCommitting b.rmstatus = some stageComforgetting := by
    rcases hst with hst | hst <;> rw [hst] <;> rfl
  rw [Pass.newTxstage, hjump]
  exact votedStage_forgetting hvotes.votes (hcounts.votes hjump b hb _ hown)

theorem ownVote_abort {c : Char} (h : VotesAbort c) :
    ownVote stagePreparing c = some stageAborting := by
  rw [ownVote]
  split
  · exact h
  rename_i hop
  -- the status that is called for has no vote of its own
  obtain ⟨a, ha, hs, rfl, -⟩ := xaStatusGetOp_row rfl hop
  have htable : ∀ a ∈ txactionDriver, a.txstage = stagePreparing →
      (xaStatusGetNextByNewStatus stagePreparing a.rmstatus).map
        RmStatusDriver.nextTxstage ≠ some stageAborting := by decide
  exact absurd h (htable a ha hs)

theorem prepared_commits (hcounts : PassCounts descrPreparing tl.branches p)
    (hvotes : p.VotesIn stagePreparing) (hnew : p.newTxstage descrPreparing = stageCommitting) :
    p.jump = none ∧ (∀ b ∈ tl.branches, ¬VotesAbort b.rmstatus) ∧
      ∃ b ∈ tl.branches, ¬Mute b.rmstatus := by
  have hlt : ∀ v ∈ p.votes, v < stageMaxNever := fun v hv => (hvotes.votes v hv).lt
  have hjump : p.jump = none := by
    cases hj : p.jump with
    | none => rfl
    | some v =>
      have hleave := hcounts.jump v hj
      rw [leavesGroup, decide_eq_true_eq] at hleave
      rw [Pass.newTxstage, hj] at hnew
      exact absurd (show v = stageCommitting from hnew ▸ rfl)
        (ne_of_lt (hleave.2.2.trans (by decide)))
  rw [Pass.newTxstage, hjump] at hnew
  refine ⟨hjump, ?_, ?_⟩
  · intro b hb habort
    have hle := minInOverall_le (hcounts.votes hjump b hb _ (ownVote_abort habort))
    have heq := votedStage_eq descrPreparing hlt
    rw [show votedStage descrPreparing p.votes = stageCommitting from hnew] at heq
    simp only [descrPreparing, stageCommitting, stageAborting, stagePrepro]
      at hle heq
    omega
  · have hmem : stageCommitting ∈ p.votes := by
      have h := votedStage_mem hlt (by decide : stageMinNever ≤ descrPreparing.txsMaxComplete ∧ _)
      rw [show votedStage descrPreparing p.votes = stageCommitting from hnew] at h
      exact h.resolve_right (by decide)
    obtain ⟨b, hb, hheard⟩ := hcounts.heard _ hmem
    refine ⟨b, hb, fun hmute => ?_⟩
    rcases hheard with hop | hrow
    · exact hop hmute.1
    · have hnone : xaStatusGetNextByNewStatus descrPreparing.txstage b.rmstatus = none :=
        Option.isNone_iff_eq_none.mp hmute.2
      rw [hnone] at hrow
      cases hrow

theorem not_mayFinish_switched {tl' : Tl} (hdescr : xaStageGetDescr tl.txstage = some descr)
    (hs : tl.txstage ∈ drivenStages) (hcounts : PassCounts descr tl.branches p)
    (hvotes : p.VotesIn descr.txstage) (hgoes : Goes tl.txstage tl'.txstage)
    (hnew : tl'.txstage = stageCommitting → p.newTxstage descr = stageCommitting)
    (hbs : tl'.branches = p.branches) (h : ¬MayFinish tl) : ¬MayFinish tl' := by
  obtain ⟨hmem, hst⟩ := xaStageGetDescr_mem hdescr
  rintro ⟨hforget, hstage⟩
  have hcommit : tl'.txstage = stageCommitting := by
    apply hstage.resolve_right
    rintro ⟨hprep, -⟩
    have hmost : ∀ s ∈ drivenStages, switchesLeft s ≤ 3 := by decide
    have hlt := hgoes.2
    rw [hprep] at hlt
    exact absurd (hlt.trans_le (hmost _ hs)) (by decide)
  have hprep : tl.txstage = stagePreparing := by
    rw [← hst]
    refine hvotes.commit hmem (by rwa [hst]) ?_ (hnew hcommit)
    rw [hst, hnew hcommit, ← hcommit]
    exact fun he => absurd (he ▸ hgoes.2) (lt_irrefl _)
  have hdescr' : descr = descrPreparing := by
    rw [hprep] at hdescr
    cases hdescr
    rfl
  subst hdescr'
  obtain ⟨hjump, habort, hvoter⟩ := prepared_commits hcounts hvotes (hnew hcommit)
  refine h ⟨fun b hb => ?_, .inr ⟨hprep, habort, hvoter⟩⟩
  have hkept (c : Char) (hc : c = rmComforgetHaz ∨ c = rmComforgetHeu) (he : b.rmstatus = c) :
      b ∈ tl'.branches := by
    rw [hbs]
    apply hcounts.kept hjump b hb
    rw [he]
    rcases hc with rfl | rfl <;> rfl
  exact ⟨fun he => (hforget b (hkept _ (.inl rfl) he)).1 he,
    fun he => (hforget b (hkept _ (.inr rfl) he)).2 he⟩

theorem newTxstage_preparing (hvotes : p.VotesIn stagePreparing) :
    p.newTxstage descrPreparing ≠ stagePreparing := by
  rcases Pass.VotesIn.new (show p.VotesIn descrPreparing.txstage from hvotes) (by decide)
    with (hv | ⟨-, he⟩) | he
  · rcases votes_preparing hv with he | he <;> rw [he] <;> decide
  · rw [he]
    decide
  · rw [he]
    decide

theorem not_mayFinish_retried {tl' : Tl} (hdescr : xaStageGetDescr tl.txstage = some descr)
    (hvotes : p.VotesIn descr.txstage) (hst : tl'.txstage = tl.txstage)
    (hnew : p.newTxstage descr = tl.txstage)
    (hlog : ¬(cmtLogged = true ∧ tl.txstage = stageCommitting)) :
    ¬(cmtLogged = true ∧ MayFinish tl') := by
  rintro ⟨hc, -, hcommit | ⟨hprep, -⟩⟩
  · exact hlog ⟨hc, hst.symm.trans hcommit⟩
  · rw [hst] at hprep
    rw [hprep] at hdescr hnew
    cases hdescr
    exact newTxstage_preparing hvotes hnew

theorem wellEnded_passed {next : Next} (hdescr : xaStageGetDescr tl.txstage = some descr)
    (hcounts : PassCounts descr tl.branches p) (hvotes : p.VotesIn descr.txstage)
    (hpassed : Passed cfg cmtLogged tl try_ descr p next) (h : ¬(cmtLogged = true ∧ MayFinish tl)) :
    (∃ tl' try', next = .again tl' try') ∨ WellEnded next := by
  cases hpassed with
  | switched he => exact .inl ⟨_, _, he⟩
  | retried he => exact .inl ⟨_, _, he⟩
  | logged he hc hs hnew =>
    subst he
    have hdescr' : descr = descrCommitting := by
      rw [hs] at hdescr
      cases hdescr
      rfl
    subst hdescr'
    refine .inr ⟨rfl, rfl, ?_⟩
    have hforget : ∃ b ∈ tl.branches, b.rmstatus = rmComforgetHaz ∨ b.rmstatus = rmComforgetHeu := by
      by_contra hno
      push Not at hno
      exact h ⟨hc, hno, .inl hs⟩
    apply not_finished_of_forgets
    rw [hnew]
    exact newTxstage_forgetting hcounts hvotes hforget
  | done he hd =>
    subst he
    right
    rename_i tl'
    have hfin : Finished tl'.txstage ↔ descr.complete := finished_of_descr (by rw [hd]; exact hdescr)
    rw [WellEnded, driveOut]
    split <;> rename_i hout <;> split at hout <;> rename_i hcomplete <;> cases hout
    · exact hfin.mpr hcomplete
    · exact ⟨rfl, rfl, fun hf => hcomplete (hfin.mp hf)⟩

/-- The drive ends within the passes left, finished or given to the background. -/
theorem driveRun_ends (fuel : ℕ) (hs : tl.txstage ∈ drivenStages)
    (h : ¬(cmtLogged = true ∧ MayFinish tl)) (hfuel : passesLeft cfg tl.txstage try_ ≤ fuel) :
    Triple (fun _ => True) (driveRun cfg cmtLogged fuel tl try_)
      (fun r _ => ∃ next, r = some next ∧ WellEnded next) (fun _ => True) := by
  induction fuel generalizing tl try_ with
  | zero =>
    rw [passesLeft] at hfuel
    omega
  | succ fuel ih =>
    obtain ⟨descr, hdescr⟩ := descr_of_driven hs
    apply Triple.bind (driveBody_passed cfg cmtLogged try_ hs hdescr)
    rintro next d ⟨_, hcounts, hvotes, hpassed⟩
    have hend := wellEnded_passed hdescr hcounts hvotes hpassed h
    cases next with
    | again tl' try' =>
      cases hpassed with
      | switched he hgoes hnew hbs =>
        cases he
        have hless := passesLeft_switched cfg hgoes try_ try'
        refine ih hgoes.1 (fun hc => h ⟨hc.1, ?_⟩) (by omega) d trivial
        by_contra hno
        exact not_mayFinish_switched hdescr hs hcounts hvotes hgoes hnew hbs hno hc.2
      | retried he hst htry hnew hlog =>
        cases he
        have hless := passesLeft_retried tl.txstage htry
        rw [← hst] at hs hless hfuel
        exact ih hs (not_mayFinish_retried hdescr hvotes hst hnew hlog) (by omega) d trivial
      | logged he => cases he
      | done he => cases he
    | leave | done => exact ⟨_, rfl, hend.resolve_left (by rintro ⟨_, _, ⟨⟩⟩)⟩

end

theorem putStage_fine (k : ℕ) (hs : s ≠ stageAborting) :
    Triple (Fine (k+5)) (putStage s) (fun ok d => ok = true ∧ Fine k d) (fun _ => False) := by
  have hok (k : ℕ) : Triple (Fine (k+1)) (do let a ← ask; pure a.ok : Prog Disk Bool)
      (fun ok d => ok = true ∧ Fine k d) (fun _ => False) := by
    apply Triple.bind (ask_fine k)
    rintro a d ⟨rfl, hd⟩
    exact ⟨rfl, hd⟩
  have hlock : Triple (Fine (k+5)) (lockStage s) (fun ok d => ok = true ∧ Fine (k+4) d)
      (fun _ => False) := by
    rw [lockStage]
    split
    · exact hok (k+4)
    · exact Triple.pure (fun _ hd => ⟨rfl, hd.mono (by omega)⟩)
  have hwrite : Triple (Fine (k+4)) (writeStages s 1) (fun ok d => ok = true ∧ Fine (k+3) d)
      (fun _ => False) := by
    apply Triple.bind (writeLine_fine (k+3) _)
    rintro ok d ⟨rfl, hd⟩
    exact ⟨rfl, hd⟩
  have hsync : Triple (Fine (k+3)) syncStage (fun ok d => ok = true ∧ Fine k d)
      (fun _ => False) := by
    apply Triple.bind (hok (k+2))
    rintro ok d ⟨rfl, hd⟩
    refine Triple.bind (hok (k+1)) ?_ d hd
    rintro ok d ⟨rfl, hd⟩
    exact hok k d hd
  apply Triple.bind hlock
  rintro ok d ⟨rfl, hd⟩
  rw [if_neg hs]
  refine Triple.bind hwrite ?_ d hd
  intro ok
  apply Triple.of_pre
  rintro rfl
  rw [if_pos rfl]
  split
  · exact hsync
  · exact Triple.pure (fun _ hd => ⟨rfl, hd.mono (by omega)⟩)

theorem switchStage_fine (k : ℕ) {tl : Tl} (hne : tl.txstage ≠ s) (hs : s ≠ stageAborting) :
    Triple (Fine (k+5)) (switchStage tl s)
      (fun tl' d => tl' = {tl with txstage := s} ∧ Fine k d) (fun _ => False) := by
  have hlog (forced : Bool) : Triple (Fine (k+5)) (tmsLogStage tl s forced)
      (fun r d => r = (true, {tl with txstage := s}) ∧ Fine k d) (fun _ => False) := by
    have hnote : Triple (Fine (k+5)) (note (.stage s tl.branches)) (fun _ => Fine (k+5))
        (fun _ => False) := Triple.change (fun _ hd => hd)
    rw [tmsLogStage, if_neg hne]
    apply Triple.bind hnote
    intro _
    apply Triple.bind (putStage_fine k hs)
    rintro ok d ⟨rfl, hd⟩
    cases forced with
    | true => exact ⟨rfl, hd⟩
    | false => exact ⟨rfl, hd⟩
  apply Triple.bind (hlog _)
  rintro r d ⟨rfl, hd⟩
  exact ⟨rfl, hd⟩

def committedStages : List Int := [stageCommittedHazard, stageCommittedHeuris, stageCommitted]

theorem fineVote_committing {c : Char} (hc : Settled c)
    (h : fineVote stageCommitting c = some v) :
    v ∈ committedStages := by
  rw [fineVote] at h
  split at h
  · rename_i hop
    obtain ⟨row, hrow, rfl⟩ := Option.map_eq_some_iff.mp h
    have hst := find?_some hrow
    rw [decide_eq_true_eq] at hst
    have htable : ∀ r ∈ opTable stageCommitting, r.nextRmstatus ≠ rmComforgetHaz ∧
        r.nextRmstatus ≠ rmComforgetHeu → xaStatusGetOp stageCommitting r.nextRmstatus = .nop →
        r.nextTxstage ∈ committedStages := by decide
    exact htable row (mem_of_find?_eq_some hrow) (by rwa [hst.2]) (by rwa [hst.2])
  · rename_i hop
    obtain ⟨a, ha, hs, rfl, -⟩ := xaStatusGetOp_row rfl hop
    have htable : ∀ a ∈ txactionDriver, a.txstage = stageCommitting →
        (xaStatusGetNextByOp stageCommitting a.rmstatus (xaStatusGetOp stageCommitting a.rmstatus)
          xaOk).map RmStatusDriver.nextTxstage = some stageCommitted := by decide
    rw [htable a ha hs] at h
    cases h
    decide

section

variable (cfg : Config) {tl : Tl} (try_ : ℕ)

/-- Without faults a committing transaction with settled branches is finished in one pass. -/
theorem driveBody_finishes (hs : tl.txstage = stageCommitting)
    (hforget : ∀ b ∈ tl.branches, Settled b.rmstatus) :
    Triple (Fine (2*tl.branches.length+5)) (driveBody cfg true tl try_)
      (fun next _ => ∃ ret tl', next = .leave ret tl' ∧ Finished tl'.txstage) (fun _ => False) := by
  have hdescr : xaStageGetDescr tl.txstage = some descrCommitting := by
    rw [hs]
    rfl
  have hstay : ∀ b ∈ tl.branches, ∀ v, fineVote descrCommitting.txstage b.rmstatus = some v →
      leavesGroup descrCommitting v = false := by
    intro b _ v _
    simp [leavesGroup, descrCommitting]
  rw [driveBody, hdescr]
  apply Triple.bind (drivePass_fine 5 descrCommitting tl.branches hstay)
  rintro p d ⟨hd, hjump, hvalid, hvotes, -, -⟩
  have hall : ∀ v ∈ p.votes, v ∈ committedStages := by
    rw [hvotes]
    intro v hv
    obtain ⟨b, hb, hbv⟩ := mem_filterMap.mp hv
    exact fineVote_committing (hforget b hb) hbv
  have hend : ∀ v ∈ committedStages,
      v < stageMaxNever ∧ v ≠ stageCommitting ∧ v ≠ stageAborting ∧
        ∃ descr ∈ xaStageGetDescr v, descr.complete := by decide
  have hnew : p.newTxstage descrCommitting ∈ committedStages := by
    rw [Pass.newTxstage, hjump]
    rcases votedStage_mem (fun v hv => (hend v (hall v hv)).1)
      (by decide : stageMinNever ≤ descrCommitting.txsMaxComplete ∧ _) with hm | he
    · exact hall _ hm
    · simp only [he]
      decide
  obtain ⟨hlt, hne, hab, hfin⟩ := hend _ hnew
  have hsw : p.switches descrCommitting = true := by
    rw [Pass.switches, decide_eq_true_eq]
    exact ⟨hne, ne_of_lt hlt⟩
  rw [hvalid]
  have hswitch : Triple (Fine 5) (driveSwitch {tl with branches := p.branches} descrCommitting p)
      (fun tl' _ => Finished tl'.txstage) (fun _ => False) := by
    rw [driveSwitch, if_pos hsw]
    apply (switchStage_fine 0 (by rw [hs]; exact hne.symm) hab).post
    rintro tl' - ⟨rfl, -⟩
    exact hfin
  refine Triple.bind hswitch (fun tl' => Triple.pure (fun _ h => ?_)) d hd
  exact ⟨_, tl', rfl, h⟩

theorem fineVote_isSome {c : Char} (h : ¬Mute c) : ∃ v, fineVote stagePreparing c = some v := by
  rw [fineVote]
  split
  · rename_i hop
    have hrow : xaStatusGetNextByNewStatus stagePreparing c ≠ none :=
      fun hnone => h ⟨hop, by rw [hnone]; rfl⟩
    obtain ⟨row, hrow⟩ := Option.ne_none_iff_exists'.mp hrow
    exact ⟨row.nextTxstage, by rw [hrow]; rfl⟩
  · rename_i hop
    obtain ⟨row, hrow⟩ := call_has_row hop okAnswer.reason
    exact ⟨row.nextTxstage, by rw [show xaOk = okAnswer.reason.val from rfl, hrow]; rfl⟩

theorem votedStage_unanimous (hall : ∀ v ∈ votes, v = stageCommitting)
    (hmem : stageCommitting ∈ votes) : votedStage descrPreparing votes = stageCommitting := by
  have hlt : ∀ v ∈ votes, v < stageMaxNever := by
    intro v hv
    rw [hall v hv]
    decide
  have hmin : minInOverall votes = stageCommitting := by
    refine hall _ (minInOverall_mem.resolve_left (fun he => ?_))
    have hle := minInOverall_le hmem
    rw [he] at hle
    exact absurd hle (by decide)
  rw [votedStage_eq _ hlt, hmin, if_neg (fun hc => absurd hc.2.1 (by decide)), if_neg (by decide)]

/-- Without faults a preparing transaction whose branches can commit goes on to committing. -/
theorem driveBody_decides (k : ℕ) (hs : tl.txstage = stagePreparing) (hmay : MayFinish tl) :
    Triple (Fine (2*tl.branches.length+(k+5))) (driveBody cfg true tl try_)
      (fun next d => ∃ tl' try', next = .again tl' try' ∧ tl'.txstage = stageCommitting ∧
        tl'.branches.length = tl.branches.length ∧
        (∀ b ∈ tl'.branches, Settled b.rmstatus) ∧
        Fine k d) (fun _ => False) := by
  have hdescr : xaStageGetDescr tl.txstage = some descrPreparing := by
    rw [hs]
    rfl
  obtain ⟨hforget, hcommit | ⟨-, habort, b, hb, hvoter⟩⟩ := hmay
  · rw [hs] at hcommit
    exact absurd hcommit (by decide)
  have hpass := (drivePass_fine (k+5) descrPreparing tl.branches (fineVote_stays habort)).and
    (drivePass_preparing tl.branches)
  rw [driveBody, hdescr]
  apply Triple.bind (hpass.conseq (fun _ h => ⟨h, trivial⟩) (fun _ _ h => h)
    (fun _ h => h.1.elim))
  rintro p d ⟨⟨hd, hjump, hvalid, hvotes, hlen, -⟩, hprep⟩
  have hall : ∀ v ∈ p.votes, v = stageCommitting := by
    rw [hvotes]
    intro v hv
    obtain ⟨c, hc, hcv⟩ := mem_filterMap.mp hv
    exact fineVote_preparing (habort c hc) hcv
  have hmem : stageCommitting ∈ p.votes := by
    obtain ⟨v, hv⟩ := fineVote_isSome hvoter
    have hin : v ∈ p.votes := by
      rw [hvotes]
      exact mem_filterMap.mpr ⟨b, hb, hv⟩
    rwa [hall v hin] at hin
  have hnew : p.newTxstage descrPreparing = stageCommitting := by
    rw [Pass.newTxstage, hjump]
    exact votedStage_unanimous hall hmem
  have hbranches : ∀ b ∈ p.branches, Settled b.rmstatus := by
    intro c hc
    cases hprep with
    | abort hj =>
      rw [hjump] at hj
      cases hj
    | commit _ _ _ hbs =>
      rcases hbs c hc with he | ⟨hin, -⟩
      · rcases he with he | he <;> rw [he, Settled] <;> decide
      · exact hforget c hin
  have hswitch : Triple (Fine (k+5)) (driveSwitch {tl with branches := p.branches} descrPreparing p)
      (fun tl' d => tl' = {tl with branches := p.branches, txstage := stageCommitting} ∧ Fine k d)
      (fun _ => False) := by
    rw [driveSwitch, if_pos hprep.switches, hnew]
    exact switchStage_fine k (by rw [hs]; decide) (by decide)
  rw [hvalid]
  refine Triple.bind hswitch ?_ d hd
  rintro tl' d ⟨rfl, hd⟩
  have hnext (tl' : Tl) :
      ∃ try', driveNext cfg true tl' try_ descrPreparing p = .again tl' try' := by
    rw [driveNext, if_neg (fun h => absurd h.2 (by decide)), if_pos (Or.inl hprep.switches),
      if_pos (Or.inl hprep.switches)]
    split
    · exact ⟨_, rfl⟩
    · exact ⟨_, rfl⟩
  obtain ⟨try', hnext⟩ := hnext {tl with branches := p.branches, txstage := stageCommitting}
  rw [hnext]
  exact ⟨_, try', rfl, rfl, hlen, hbranches, hd⟩

theorem driveRun_finishes (fuel : ℕ) (hmay : MayFinish tl) :
    Triple (Fine (2*tl.branches.length+(2*tl.branches.length+5+5)))
      (driveRun cfg true (fuel+2) tl try_)
      (fun r _ => ∃ ret tl', r = some (.leave ret tl') ∧ Finished tl'.txstage)
      (fun _ => False) := by
  have hlast {tl : Tl} (fuel try_ : ℕ) (hs : tl.txstage = stageCommitting)
      (hforget : ∀ b ∈ tl.branches, Settled b.rmstatus) :
      Triple (Fine (2*tl.branches.length+5)) (driveRun cfg true (fuel+1) tl try_)
        (fun r _ => ∃ ret tl', r = some (.leave ret tl') ∧ Finished tl'.txstage)
        (fun _ => False) := by
    apply Triple.bind (driveBody_finishes cfg try_ hs hforget)
    rintro next d ⟨ret, tl', rfl, hfin⟩
    exact ⟨ret, tl', rfl, hfin⟩
  rcases hmay.2 with hs | ⟨hs, -⟩
  · exact (hlast (fuel+1) try_ hs hmay.1).conseq (fun _ hd => hd.mono (by omega)) (fun _ _ h => h)
      (fun _ h => h)
  · apply Triple.bind (driveBody_decides cfg try_ (2*tl.branches.length+5) hs hmay)
    rintro next d ⟨_, try', rfl, hst, hlen, hforget, hd⟩
    rw [← hlen] at hd
    exact hlast fuel try' hst hforget d hd

end

/-- For every journal, whatever the resource managers and the disk answer: the loop is left after
at most `xa_retries` passes for each stage it is in, the transaction is then removed in a finished
stage or is in the background, unlocked, in an unfinished one. The exception is a commit that is
to return when its decision is logged and ends before. -/
theorem drive_ends_iff (cmtLogged : Bool) {tl : Tl} (hs : tl.txstage ∈ drivenStages) :
    (∀ cfg d r d', driveRun cfg cmtLogged ((switchesLeft tl.txstage+1)*max 1 cfg.xaRetries) tl 0 d =
        (some r, d') → ∃ next, r = some next ∧ WellEnded next) ↔
      ¬(cmtLogged = true ∧ MayFinish tl) := by
  constructor
  · rintro h ⟨rfl, hmay⟩
    have hfuel : ∃ fuel, (switchesLeft tl.txstage+1)*max 1 (Config.mk 1).xaRetries = fuel+2 := by
      have htwo : 1 ≤ switchesLeft tl.txstage := by
        rcases hmay.2 with hst | ⟨hst, -⟩ <;> rw [hst] <;> decide
      exact ⟨switchesLeft tl.txstage-1, by rw [max_self]; omega⟩
    obtain ⟨fuel, hfuel⟩ := hfuel
    have hrun := driveRun_finishes ⟨1⟩ 0 fuel hmay
      ⟨none, [], replicate (2*tl.branches.length+(2*tl.branches.length+5+5)) okAnswer⟩
      ⟨_, le_rfl, rfl⟩
    rw [← hfuel] at hrun
    split at hrun
    · rename_i r d' heq
      obtain ⟨_, _, rfl, hfin⟩ := hrun
      obtain ⟨_, hnext, hend⟩ := h _ _ _ _ heq
      cases hnext
      exact hend.2.2 hfin
    · exact hrun
  · intro h cfg d r d' hrun
    have hfuel : passesLeft cfg tl.txstage 0 ≤ (switchesLeft tl.txstage+1)*max 1 cfg.xaRetries := by
      rw [passesLeft, Nat.succ_mul]
      omega
    exact (driveRun_ends _ hs h hfuel).returned trivial hrun

def oneBranch : Tl := {Tl.blank with txstage := stageCommitting, branches := [⟨1, 0, rmPrep, 0, 0⟩]}

def rmfailAnswer : Answer := ⟨true, false, ⟨xaerRmfail, by decide⟩, 0⟩

theorem drive_ends_retried :
    ∃ next, (driveRun ⟨2⟩ false 6 oneBranch 0 ⟨some [], [], [rmfailAnswer, rmfailAnswer]⟩).1 =
      some (some next) ∧ WellEnded next := by
  obtain ⟨r, hr⟩ : ∃ r, (driveRun ⟨2⟩ false 6 oneBranch 0
      ⟨some [], [], [rmfailAnswer, rmfailAnswer]⟩).1 = some r :=
    Option.isSome_iff_exists.mp (by decide)
  obtain ⟨next, rfl, hend⟩ := (drive_ends_iff false (by decide)).mpr (fun h => by cases h.1) ⟨2⟩ _ r _
    (Prod.ext hr rfl)
  exact ⟨next, hr, hend⟩

/-- The same commit, asked to return when the decision is logged, with all answers good: it is
finished, and put to the background as if it was not. -/
theorem drive_ends_logged :
    ∃ next, (driveRun ⟨2⟩ true 6 oneBranch 0 ⟨some [], [], replicate 5 okAnswer⟩).1 =
      some (some next) ∧ next.tl.txstage = stageCommitted ∧ ¬WellEnded next :=
  ⟨.leave tpSucceed {oneBranch with txstage := stageCommitted, branches :=
    [⟨1, 0, rmCommitted, 0, 0⟩]}, rfl, rfl, fun h => h.2.2 ⟨_, rfl, by decide⟩⟩

end Endurox.Tms
