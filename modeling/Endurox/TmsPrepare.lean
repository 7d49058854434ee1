import Endurox.StateDrv

/-! The decision of a transaction: who votes in stage preparing, and what is decided by it. -/

namespace Endurox.Tms

open Base List
open Base.Prog (Triple)

def Prepared (b : Branch) : Prop := b.rmstatus = rmPrep ∨ b.rmstatus = rmCommittedRo

def AllPrepared (bs : List Branch) : Prop := ∀ b ∈ bs, Prepared b

def Mute (c : Char) : Prop :=
  xaStatusGetOp stagePreparing c = .nop ∧
    (xaStatusGetNextByNewStatus stagePreparing c).isNone = true

def VotesAbort (c : Char) : Prop :=
  (xaStatusGetNextByNewStatus stagePreparing c).map RmStatusDriver.nextTxstage = some stageAborting

def Decision (e : Event) (bs : List Branch) : Prop :=
  e = .stage stageCommitting bs ∨ e = .stage stagePrepro bs

def DecisionsOk (d : Disk) : Prop := ∀ e ∈ d.trace, ∀ bs, Decision e bs → AllPrepared bs

def Noted (P : Event → Prop) (d : Disk) : Prop := ∃ e ∈ d.trace, P e

def Decided (d : Disk) : Prop := Noted (fun e => ∃ bs, Decision e bs) d

theorem prepared_of_row : ∀ r ∈ opTable stagePreparing, r.nextTxstage = stageCommitting →
    r.nextRmstatus = rmPrep ∨ r.nextRmstatus = rmCommittedRo := by
  decide

theorem abort_of_row {r : RmStatusDriver} (hr : r ∈ opTable stagePreparing)
    (hv : r.nextTxstage ≠ stageCommitting) : r.nextTxstage = stageAborting :=
  (votes_preparing ⟨r, hr, rfl⟩).resolve_left hv

inductive PrepareOutcome (b : Branch) (r : Driven) : Prop where
  | abort (h : r.outcome = .vote stageAborting)
  | commit (h : r.outcome = .vote stageCommitting) (hp : Prepared r.branch)
      (hc : ¬ VotesAbort b.rmstatus)
  | silent (h : r.outcome = .silent) (hb : r.branch = b) (hm : Mute b.rmstatus)

theorem driveBranch_preparing (b : Branch) :
    Triple (fun _ => True) (driveBranch stagePreparing b) (fun r _ => PrepareOutcome b r)
      (fun _ => True) := by
  simp only [driveBranch]
  split
  · rename_i hop
    split
    · rename_i hrow
      exact Triple.pure (fun _ _ => .silent rfl rfl ⟨hop, by rw [hrow]; rfl⟩)
    rename_i row hrow
    apply Triple.pure
    intro _ _
    have hmem := mem_of_find?_eq_some hrow
    by_cases hv : row.nextTxstage = stageCommitting
    · have hst := find?_some hrow
      rw [decide_eq_true_eq] at hst
      have hp := prepared_of_row _ hmem hv
      rw [hst.2] at hp
      refine .commit (by rw [hv]) hp ?_
      rw [VotesAbort, hrow, Option.map_some, hv]
      decide
    · exact .abort (by rw [abort_of_row hmem hv])
  · rename_i hop
    have hcall : Triple (fun _ => True)
        (xaCall (xaStatusGetOp stagePreparing b.rmstatus) b.rmid b.btid) (fun _ _ => True)
        (fun _ => True) := by
      intro d _
      split <;> trivial
    apply Triple.bind hcall
    intro a
    obtain ⟨row, hrow⟩ := call_has_row hop a.reason
    rw [hrow]
    have hmem := mem_of_find?_eq_some hrow
    apply Triple.bind (tmsLogRmstatus_triple (fun _ _ h => h) (fun _ _ _ h => h))
    intro r
    split
    · exact Triple.pure (fun _ _ => .abort rfl)
    apply Triple.pure
    intro _ hd
    by_cases hv : row.nextTxstage = stageCommitting
    · have hp : Prepared r.2 := by
        rw [Prepared, hd.2]
        exact prepared_of_row _ hmem hv
      refine .commit (by rw [hv]) hp ?_
      -- the statuses that vote unasked are not called
      intro hva
      obtain ⟨arow, harow, hs, hc, -⟩ := xaStatusGetOp_row rfl hop
      have htable : ∀ r ∈ txactionDriver, r.txstage = stagePreparing →
          (xaStatusGetNextByNewStatus stagePreparing r.rmstatus).map
            RmStatusDriver.nextTxstage ≠ some stageAborting := by decide
      exact htable arow harow hs (by rw [hc]; exact hva)
    · exact .abort (by rw [abort_of_row hmem hv])

/-- The pass in stage preparing ends with a jump to the abort, or all that voted are prepared and
voted for the commit. -/
inductive PreparePass (bs : List Branch) (p : Pass) : Prop where
  | abort (hj : p.jump = some stageAborting) (hi : p.invalid = false)
  | commit (hj : p.jump = none) (hi : p.invalid = false) (hv : ∀ v ∈ p.votes, v = stageCommitting)
      (hb : ∀ b ∈ p.branches, Prepared b ∨ b ∈ bs ∧ Mute b.rmstatus)
      (ha : ∀ b ∈ bs, ¬ VotesAbort b.rmstatus)

def descrPreparing : TxstageDescriptor :=
  ⟨stagePreparing, stagePreparing, stagePrepro, stagePrepro, true⟩

theorem PreparePass.cons {b c : Branch} {bs : List Branch} {p p' : Pass} (h : PreparePass bs p)
    (hjump : p'.jump = p.jump) (hvalid : p'.invalid = p.invalid)
    (hvotes : ∀ v ∈ p'.votes, v = stageCommitting ∨ v ∈ p.votes)
    (hbranches : p'.branches = c :: p.branches) (hc : Prepared c ∨ c = b ∧ Mute c.rmstatus)
    (hvb : ¬ VotesAbort b.rmstatus) : PreparePass (b :: bs) p' := by
  cases h with
  | abort hj hi => exact .abort (hjump.trans hj) (hvalid.trans hi)
  | commit hj hi hv hb ha =>
    refine .commit (hjump.trans hj) (hvalid.trans hi) ?_ ?_ (forall_mem_cons.mpr ⟨hvb, ha⟩)
    · intro v hv'
      exact (hvotes v hv').elim id (hv v)
    · rw [hbranches, forall_mem_cons]
      constructor
      · rcases hc with hc | ⟨rfl, hm⟩
        · exact .inl hc
        · exact .inr ⟨mem_cons_self, hm⟩
      · intro c hc
        exact (hb c hc).imp id fun h => ⟨mem_cons_of_mem _ h.1, h.2⟩

theorem Mute.not_votesAbort {c : Char} (h : Mute c) : ¬ VotesAbort c := by
  intro hva
  rw [VotesAbort, Option.isNone_iff_eq_none.mp h.2] at hva
  cases hva

theorem drivePass_preparing (bs : List Branch) :
    Triple (fun _ => True) (drivePass descrPreparing bs) (fun p _ => PreparePass bs p)
      (fun _ => True) := by
  induction bs with
  | nil =>
    exact Triple.pure (fun _ _ => .commit rfl rfl (by simp) (by simp) (by simp))
  | cons b bs ih =>
    apply Triple.bind (driveBranch_preparing b)
    intro r d hr
    cases hr with
    | abort h =>
      rw [h]
      exact .abort rfl rfl
    | commit h hp hc =>
      rw [h]
      refine Triple.bind ih (fun p => Triple.pure fun _ hpass => ?_) d trivial
      exact hpass.cons rfl rfl (fun v => mem_cons.mp) rfl (.inl hp) hc
    | silent h hb hm =>
      rw [h]
      refine Triple.bind ih (fun p => Triple.pure fun _ hpass => ?_) d trivial
      exact hpass.cons rfl rfl (fun v => .inr) rfl (.inr ⟨hb, hb ▸ hm⟩) hm.not_votesAbort

def VotesCount (bs : List Branch) : Prop :=
  (∀ b ∈ bs, ¬ Mute b.rmstatus) ∨ ∃ b ∈ bs, VotesAbort b.rmstatus

theorem Mute.not_prepared {b : Branch} (h : Mute b.rmstatus) : ¬ Prepared b := by
  have hprep : ¬ Mute rmPrep := by
    unfold Mute
    decide
  have hro : ¬ Mute rmCommittedRo := by
    unfold Mute
    decide
  intro hp
  cases hp with
  | inl he => exact hprep (he ▸ h)
  | inr he => exact hro (he ▸ h)

variable {bs : List Branch} {p : Pass}

theorem PreparePass.of_no_jump (h : PreparePass bs p) (hjump : p.jump = none) :
    p.newTxstage descrPreparing = stageCommitting ∨ p.newTxstage descrPreparing = stagePrepro := by
  cases h with
  | abort hj =>
    rw [hjump] at hj
    cases hj
  | commit hj hi hv =>
    have hlt : ∀ v ∈ p.votes, v < stageMaxNever := by
      intro v hv'
      rw [hv v hv']
      decide
    have hrange := descr_complete_range descrPreparing (by decide)
    rw [Pass.newTxstage, hj]
    rcases votedStage_mem hlt hrange with hm | he
    · exact Or.inl (hv _ hm)
    · exact Or.inr he

theorem PreparePass.decides (h : PreparePass bs p) : p.newTxstage descrPreparing = stageAborting ∨
    (p.newTxstage descrPreparing = stageCommitting ∨ p.newTxstage descrPreparing = stagePrepro) ∧
      (VotesCount bs → AllPrepared p.branches) := by
  have hnew := h.of_no_jump
  cases h with
  | abort hj =>
    rw [Pass.newTxstage, hj]
    exact Or.inl rfl
  | commit hj hi hv hb ha =>
    refine Or.inr ⟨hnew hj, ?_⟩
    intro hcount b hb'
    rcases hb b hb' with hp | ⟨hmem, hm⟩
    · exact hp
    · rcases hcount with hno | ⟨c, hc, hva⟩
      · exact absurd hm (hno b hmem)
      · exact absurd hva (ha c hc)

theorem PreparePass.valid (h : PreparePass bs p) : p.invalid = false := by
  cases h with
  | abort _ hi => exact hi
  | commit _ hi => exact hi

theorem PreparePass.switches (h : PreparePass bs p) : p.switches descrPreparing = true := by
  rw [Pass.switches]
  rcases h.decides with he | ⟨he | he, -⟩ <;> rw [he] <;> decide

variable {s : Int}

section

variable {P : Event → Prop} {d : Disk}

theorem Noted.noted (h : Noted P d) (e : Event) : Noted P (d.noted e) := by
  obtain ⟨e', he', hp⟩ := h
  exact ⟨e', mem_append_left _ he', hp⟩

theorem noted_self (d : Disk) {e : Event} (h : P e) : Noted P (d.noted e) :=
  ⟨e, mem_append_right _ (mem_singleton.mpr rfl), h⟩

theorem DecisionsOk.noted (h : DecisionsOk d) {e : Event}
    (he : ∀ bs, Decision e bs → AllPrepared bs) : DecisionsOk (d.noted e) := by
  intro e' he' bs hd
  rcases mem_append.mp he' with hm | hm
  · exact h e' hm bs hd
  · rw [mem_singleton.mp hm] at hd
    exact he bs hd

theorem call_no_decision (op : XaOp) (rmid btid : Int) (bs bs' : List Branch) :
    Decision (.call op rmid btid) bs → AllPrepared bs' := by
  rintro (h | h) <;> cases h

theorem stage_no_decision (hc : s ≠ stageCommitting) (hp : s ≠ stagePrepro)
    (bs bs' bs'' : List Branch) : Decision (.stage s bs) bs' → AllPrepared bs'' := by
  rintro (h | h)
  · injection h with h
    exact absurd h hc
  · injection h with h
    exact absurd h hp

end

def Traced (φ : Prop) (d : Disk) : Prop := DecisionsOk d ∧ (φ → Decided d)

theorem traced_steady (s : Int) (φ : Prop) : Steady s (Traced φ) where
  rest := fun _ _ h => h
  line := fun _ _ _ _ _ _ h => h
  call := fun _ _ _ _ _ h => ⟨h.1.noted (fun bs => call_no_decision _ _ _ bs bs),
    fun hφ => (h.2 hφ).noted _⟩

section

variable (cfg : Config) (cmtLogged : Bool) (tl : Tl) (try_ : ℕ)

def Ruled (tl : Tl) (d : Disk) : Prop :=
  (tl.txstage = stagePreparing ∧ VotesCount tl.branches ∧ Traced False d) ∨
  (AbortSide tl.txstage ∧ Traced False d) ∨
  ((CommitSide tl.txstage ∨ tl.txstage = stagePrepro) ∧ Traced True d)

def NextRuled (next : Next) (d : Disk) : Prop :=
  match next with
  | .again tl _ => Ruled tl d
  | .leave ret _ => Traced (ret = tpSucceed) d
  | .done descr _ => Traced (xaTxstage2tperrno descr.txstage .commit = tpSucceed) d

variable {φ : Prop} {d : Disk}

theorem Traced.mono {ψ : Prop} (h : Traced φ d) (hi : ψ → φ) : Traced ψ d :=
  ⟨h.1, fun hψ => h.2 (hi hψ)⟩

theorem switchStage_commit {I J : Disk → Prop} {tl : Tl} (hs : tl.txstage = stagePreparing)
    (hnote : ∀ d, I d → J (d.noted (.stage stageCommitting tl.branches)))
    (habort : ∀ d, J d → J (d.noted (.stage stageAborting tl.branches)))
    (hrest : ∀ d as, J d → J (d.rest as)) (hline : ∀ d r, J d → J (d.wrote r)) :
    Triple I (switchStage tl stageCommitting)
      (fun tl' d => (tl'.txstage = stageCommitting ∨ tl'.txstage = stageAborting) ∧
        tl'.branches = tl.branches ∧ J d) J := by
  have hne : tl.txstage ≠ stageCommitting := by
    rw [hs]
    decide
  apply Triple.bind (tmsLogStage_triple hne hnote hrest hrest (fun _ h => h) (fun d => hline d _))
  intro r
  obtain ⟨ok, tl'⟩ := r
  cases ok with
  | true =>
    apply Triple.pure
    intro d hd
    exact ⟨Or.inl (hd.2.2.2.1 rfl).1, hd.2.1, hd.1⟩
  | false =>
    intro d hd
    have hst : tl'.txstage = stagePreparing := ((hd.2.2.2.2 rfl).2 (by rw [hs]; decide)).trans hs
    have hbs : tl'.branches = tl.branches := hd.2.1
    have hsecond : Triple J (do
        let r ← tmsLogStage tl' stageAborting false
        if r.1 then pure r.2 else Prog.stop)
        (fun tl'' d => (tl''.txstage = stageCommitting ∨ tl''.txstage = stageAborting) ∧
          tl''.branches = tl.branches ∧ J d) J := by
      apply Triple.bind (tmsLogStage_triple (by rw [hst]; decide) (by rw [hbs]; exact habort)
        hrest hrest (fun _ h => h) (fun d => hline d _))
      intro r
      obtain ⟨ok, _⟩ := r
      cases ok with
      | true =>
        apply Triple.pure
        intro d hd
        exact ⟨Or.inr (hd.2.2.2.1 rfl).1, hd.2.1.trans hbs, hd.1⟩
      | false => exact Triple.stop (fun d hd => hd.1)
    exact hsecond d hd.1

theorem decided_noted (hs : s = stageCommitting ∨ s = stagePrepro) (hall : AllPrepared bs)
    (h : Traced False d) : Traced True (d.noted (.stage s bs)) := by
  refine ⟨h.1.noted ?_, ?_⟩
  · rintro bs' (he | he)
    · injection he with _ he
      rw [← he]
      exact hall
    · injection he with _ he
      rw [← he]
      exact hall
  · intro _
    apply noted_self
    rcases hs with rfl | rfl
    · exact ⟨bs, Or.inl rfl⟩
    · exact ⟨bs, Or.inr rfl⟩

theorem abort_noted (h : Traced φ d) : Traced φ (d.noted (.stage stageAborting bs)) :=
  ⟨h.1.noted (fun bs' => stage_no_decision (by decide) (by decide) bs bs' bs'),
    fun hφ => (h.2 hφ).noted _⟩

theorem switch_decided {tl : Tl} (hs : tl.txstage = stagePreparing)
    (hdec : s = stageAborting ∨ (s = stageCommitting ∨ s = stagePrepro) ∧ AllPrepared tl.branches) :
    Triple (Traced False) (switchStage tl s)
      (fun tl' d => Ruled tl' d ∧ (AllPrepared tl'.branches ∨ tl'.txstage = stageAborting))
      (Traced False) := by
  have hweak (d : Disk) (h : Traced True d) : Traced False d := h.mono (fun hf => hf.elim)
  rcases hdec with rfl | ⟨rfl | rfl, hall⟩
  · have h := switchStage_forced (J := Traced False) (by rw [hs]; decide) (by decide)
      (fun d (hd : Traced False d) => abort_noted hd) (fun d as hd => hd) (fun d hd => hd)
    apply h.post
    rintro tl' d ⟨hst, -, hd⟩
    exact ⟨Or.inr (Or.inl ⟨by rw [hst]; decide, hd⟩), Or.inr hst⟩
  · have h := switchStage_commit (J := Traced True) hs
      (fun d hd => decided_noted (Or.inl rfl) hall hd) (fun d hd => abort_noted hd)
      (fun d as hd => hd) (fun d r hd => hd)
    apply h.conseq (fun _ hd => hd) _ hweak
    rintro tl' d ⟨hst | hst, hbs, hd⟩
    · exact ⟨Or.inr (Or.inr ⟨Or.inl (by rw [hst]; decide), hd⟩), Or.inl (by rw [hbs]; exact hall)⟩
    · exact ⟨Or.inr (Or.inl ⟨by rw [hst]; decide, hweak d hd⟩), Or.inr hst⟩
  · have h := switchStage_forced (J := Traced True) (by rw [hs]; decide) (by decide)
      (fun d hd => decided_noted (Or.inr rfl) hall hd) (fun d as hd => hd) (fun d hd => hd)
    apply h.conseq (fun _ hd => hd) _ hweak
    rintro tl' d ⟨hst, hbs, hd⟩
    exact ⟨Or.inr (Or.inr ⟨Or.inr hst, hd⟩), Or.inl (by rw [hbs]; exact hall)⟩

/-- A pass from preparing goes on with all prepared, or aborts. -/
theorem driveBody_preparing (hs : tl.txstage = stagePreparing) (hcount : VotesCount tl.branches) :
    Triple (Traced False) (driveBody cfg cmtLogged tl try_)
      (fun next d => NextRuled next d ∧
        (AllPrepared next.tl.branches ∨ next.tl.txstage = stageAborting)) (Traced False) := by
  have hdescr : xaStageGetDescr tl.txstage = some descrPreparing := by
    rw [hs]
    rfl
  have hsteady : Steady descrPreparing.txstage (Traced False) := traced_steady _ _
  have hpass := (hsteady.drivePass tl.branches).and (drivePass_preparing tl.branches)
  rw [driveBody, hdescr]
  apply Triple.bind (hpass.conseq (fun _ h => ⟨h, trivial⟩) (fun _ _ h => h) (fun _ h => h.1))
  intro p d hd
  obtain ⟨⟨htr, -⟩, hprep⟩ := hd
  have hsw := hprep.switches
  have hswitch : Triple (Traced False)
      (driveSwitch {tl with branches := p.branches} descrPreparing p)
      (fun tl' d => Ruled tl' d ∧ (AllPrepared tl'.branches ∨ tl'.txstage = stageAborting))
      (Traced False) := by
    rw [driveSwitch, if_pos hsw]
    exact switch_decided hs (hprep.decides.imp id (fun h => ⟨h.1, h.2 hcount⟩))
  have hrest : Triple (Traced False) (do
      let tl' ← driveSwitch {tl with branches := p.branches} descrPreparing p
      pure (driveNext cfg cmtLogged tl' try_ descrPreparing p))
      (fun next d => NextRuled next d ∧
        (AllPrepared next.tl.branches ∨ next.tl.txstage = stageAborting)) (Traced False) := by
    apply Triple.bind hswitch
    intro tl'
    -- the stage was switched, so there is another pass
    have hnext : ∃ t, driveNext cfg cmtLogged tl' try_ descrPreparing p = .again tl' t := by
      rw [driveNext, if_neg (fun h => absurd h.2 (by decide))]
      split
      · exact ⟨_, if_pos (Or.inl hsw)⟩
      · exact ⟨_, if_pos (Or.inl hsw)⟩
    obtain ⟨_, ht⟩ := hnext
    rw [ht]
    exact Triple.pure (fun _ hd => hd)
  rw [hprep.valid]
  exact hrest d htr

def Side (φ : Prop) (s : Int) : Prop := AbortSide s ∨ (CommitSide s ∨ s = stagePrepro) ∧ φ

variable {descr : TxstageDescriptor}

theorem driveSwitch_decided {tl : Tl} (hmem : descr ∈ stateDescriptor)
    (hst : descr.txstage = tl.txstage) (hside : Side φ tl.txstage) (hv : p.VotesIn descr.txstage) :
    Triple (Traced φ) (driveSwitch tl descr p) (fun tl' d => Side φ tl'.txstage ∧ Traced φ d)
      (Traced φ) := by
  rw [driveSwitch]
  split
  · rename_i hsw
    rw [Pass.switches, decide_eq_true_eq] at hsw
    obtain ⟨hcommit, habort, -, hpro⟩ := hv.side hmem
    rw [← hst] at hside
    -- without participants the stage would not be left
    have hcase : (CommitSide descr.txstage ∨ AbortSide descr.txstage) ∧
        Side φ (p.newTxstage descr) := by
      rcases hside with ha | ⟨hc | hp, hφ⟩
      · exact ⟨Or.inr ha, Or.inl (habort ha)⟩
      · exact ⟨Or.inl hc, Or.inr ⟨Or.inl (hcommit hc), hφ⟩⟩
      · exact absurd ((hpro hp).trans hp.symm) hsw.1
    obtain ⟨hnc, hnp⟩ := hv.no_decision hmem hcase.1 hsw.1
    have h := switchStage_forced (I := Traced φ) (J := Traced φ)
      (by rw [← hst]; exact hsw.1.symm) hnc
      (fun d hd => ⟨hd.1.noted (fun bs => stage_no_decision hnc hnp tl.branches bs bs),
        fun hφ => (hd.2 hφ).noted _⟩) (fun d as hd => hd) (fun d hd => hd)
    apply h.post
    rintro tl' d ⟨he, -, hd⟩
    rw [he]
    exact ⟨hcase.2, hd⟩
  · exact Triple.pure (fun d hd => ⟨hside, hd⟩)

theorem Side.ruled {tl : Tl} (hs : Side φ tl.txstage) (h : Traced φ d) : Ruled tl d := by
  rcases hs with ha | ⟨hc, hφ⟩
  · exact Or.inr (Or.inl ⟨ha, h.mono (fun hf => hf.elim)⟩)
  · exact Or.inr (Or.inr ⟨hc, h.mono (fun _ => hφ)⟩)

theorem Side.success (hmem : descr ∈ stateDescriptor) (hs : Side φ descr.txstage)
    (h : xaTxstage2tperrno descr.txstage .commit = tpSucceed) : φ := by
  have htable : ∀ d ∈ stateDescriptor, AbortSide d.txstage →
      xaTxstage2tperrno d.txstage .commit ≠ tpSucceed := by decide
  rcases hs with ha | ⟨-, hφ⟩
  · exact absurd h (htable descr hmem ha)
  · exact hφ

theorem driveBody_decided (hside : Side φ tl.txstage) :
    Triple (Traced φ) (driveBody cfg cmtLogged tl try_) NextRuled (Traced φ) := by
  rw [driveBody]
  split
  · exact Triple.pure (fun d hd => ⟨hd.1, fun h => absurd h (by decide)⟩)
  rename_i descr hdescr
  obtain ⟨hmem, hst⟩ := xaStageGetDescr_mem hdescr
  have hsteady : Steady descr.txstage (Traced φ) := traced_steady _ _
  apply Triple.bind (hsteady.drivePass tl.branches)
  intro p
  split
  · exact Triple.pure (fun d hd => ⟨hd.1.1, fun h => absurd h (by decide)⟩)
  intro d hd
  have hrest : Triple (Traced φ) (do
      let tl' ← driveSwitch {tl with branches := p.branches} descr p
      pure (driveNext cfg cmtLogged tl' try_ descr p)) NextRuled (Traced φ) := by
    have hsw : Triple (Traced φ) (driveSwitch {tl with branches := p.branches} descr p)
        (fun tl' d => Side φ tl'.txstage ∧ Traced φ d) (Traced φ) :=
      driveSwitch_decided hmem hst hside hd.2
    apply Triple.bind hsw
    intro tl'
    apply Triple.pure
    rintro d ⟨hs, htr⟩
    have hdone : NextRuled (.done descr tl') d :=
      htr.mono (Side.success hmem (by rw [hst]; exact hside))
    rw [driveNext]
    split
    · rename_i hlogged
      have hφ : φ := by
        rcases hside with ha | ⟨-, hφ⟩
        · exact absurd (hst.symm.trans hlogged.2) ha.ne.2.2.1
        · exact hφ
      exact htr.mono (fun _ => hφ)
    · split
      · split
        · exact hs.ruled htr
        · exact hdone
      · split
        · exact hs.ruled htr
        · exact hdone
  exact hrest d hd.1

/-- The loop reports success only for what the trace allows. -/
theorem driveLoop_ruled (fuel : ℕ) :
    Triple (Ruled tl) (driveLoop cfg .commit cmtLogged fuel tl try_)
      (fun e => Traced (e.ret = tpSucceed)) (Traced False) := by
  have hweak {φ : Prop} (d : Disk) (h : Traced φ d) : Traced False d := h.mono (fun hf => hf.elim)
  have hruled (tl : Tl) (d : Disk) (h : Ruled tl d) : Traced False d := by
    rcases h with ⟨-, -, h⟩ | ⟨-, h⟩ | ⟨-, h⟩
    · exact h
    · exact h
    · exact hweak d h
  induction fuel generalizing tl try_ with
  | zero => exact Triple.stop (hruled tl)
  | succ fuel ih =>
    have hbody : Triple (Ruled tl) (driveBody cfg cmtLogged tl try_) NextRuled (Traced False) := by
      rintro d (⟨hs, hcount, h⟩ | ⟨hs, h⟩ | ⟨hs, h⟩)
      · exact ((driveBody_preparing cfg cmtLogged tl try_ hs hcount).post (fun _ _ hd => hd.1)) d h
      · exact driveBody_decided cfg cmtLogged tl try_ (Or.inl hs) d h
      · exact ((driveBody_decided cfg cmtLogged tl try_ (φ := True) (Or.inr ⟨hs, trivial⟩)).crash hweak) d h
    apply Triple.bind hbody
    intro next d hd
    cases next with
    | again tl' try' => exact ih tl' try' d hd
    | leave => exact hd
    | done descr tl' =>
      have hdone := driveDone_triple (J := Traced (xaTxstage2tperrno descr.txstage .commit =
        tpSucceed)) .commit descr tl' (fun _ _ h => h) (fun _ h => h)
      apply hdone.conseq (fun _ h => h) _ hweak d hd
      rintro e d ⟨h, he⟩
      rw [he]
      exact h

end

def okAnswer : Answer := ⟨true, false, ⟨0, by decide⟩, 0⟩

def Fine (k : ℕ) (d : Disk) : Prop := ∃ m, k ≤ m ∧ d.answers = replicate m okAnswer

theorem Fine.mono {k j : ℕ} {d : Disk} (h : Fine k d) (hj : j ≤ k) : Fine j d := by
  obtain ⟨m, _, ha⟩ := h
  exact ⟨m, by omega, ha⟩

variable (k : ℕ)

theorem ask_fine :
    Triple (Fine (k+1)) ask (fun a d => a = okAnswer ∧ Fine k d) (fun _ => False) := by
  rintro d ⟨m, _, ha⟩
  obtain ⟨n, rfl⟩ : ∃ n, m = n+1 := ⟨m-1, by omega⟩
  rw [ask, ha]
  exact ⟨rfl, n, by omega, rfl⟩

theorem writeLine_fine (r : Rec) :
    Triple (Fine (k+1)) (tmsLogWriteLine r) (fun ok d => ok = true ∧ Fine k d) (fun _ => False) := by
  apply Triple.bind (ask_fine k)
  rintro a d ⟨rfl, hd⟩
  exact ⟨rfl, hd⟩

def fineVote (s : Int) (c : Char) : Option Int :=
  if xaStatusGetOp s c = .nop then
    (xaStatusGetNextByNewStatus s c).map RmStatusDriver.nextTxstage
  else (xaStatusGetNextByOp s c (xaStatusGetOp s c) xaOk).map RmStatusDriver.nextTxstage

theorem driveBranch_fine (s : Int) (b : Branch) : Triple (Fine (k+2)) (driveBranch s b)
      (fun r d => Fine k d ∧ r.outcome = (fineVote s b.rmstatus).elim .silent .vote ∧
        (xaStatusGetOp s b.rmstatus = .nop → r.branch = b)) (fun _ => False) := by
  simp only [driveBranch, fineVote]
  split
  · split
    · rename_i hrow
      exact Triple.pure (fun _ hd => ⟨hd.mono (by omega), by rw [hrow]; rfl, fun _ => rfl⟩)
    · rename_i row hrow
      exact Triple.pure (fun _ hd => ⟨hd.mono (by omega), by rw [hrow]; rfl, fun _ => rfl⟩)
  · rename_i hop
    have hcall : Triple (Fine (k+2)) (xaCall (xaStatusGetOp s b.rmstatus) b.rmid b.btid)
        (fun a d => a = okAnswer ∧ Fine (k+1) d) (fun _ => False) := by
      apply Triple.bind (ask_fine (k+1))
      rintro a d ⟨rfl, hd⟩
      exact ⟨rfl, hd⟩
    apply Triple.bind hcall
    intro a
    apply Triple.of_pre
    rintro rfl
    obtain ⟨row, hrow⟩ := call_has_row hop okAnswer.reason
    rw [show xaOk = okAnswer.reason.val from rfl, hrow]
    have hlog : Triple (Fine (k+1))
        (tmsLogRmstatus b row.nextRmstatus okAnswer.tperrno okAnswer.reason.val)
        (fun r d => r.1 = true ∧ Fine k d) (fun _ => False) := by
      rw [tmsLogRmstatus]
      split
      · exact Triple.pure (fun _ hd => ⟨rfl, hd.mono (by omega)⟩)
      · apply Triple.bind (writeLine_fine k _)
        rintro ok d ⟨rfl, hd⟩
        exact ⟨rfl, hd⟩
    apply Triple.bind hlog
    rintro r
    apply Triple.of_pre
    intro hr
    rw [if_neg (fun h => absurd (h.1.symm.trans hr) (by decide))]
    exact Triple.pure (fun _ hd => ⟨hd, rfl, fun h => absurd h hop⟩)

/-- Without faults a pass gets one vote for each branch that has one. -/
theorem drivePass_fine (descr : TxstageDescriptor) (bs : List Branch)
    (hstay : ∀ b ∈ bs, ∀ v, fineVote descr.txstage b.rmstatus = some v →
      leavesGroup descr v = false) : Triple (Fine (2*bs.length+k)) (drivePass descr bs)
      (fun p d => Fine k d ∧ p.jump = none ∧ p.invalid = false ∧
        p.votes = bs.filterMap (fun b => fineVote descr.txstage b.rmstatus) ∧
        p.branches.length = bs.length ∧
        ∀ b ∈ bs, xaStatusGetOp descr.txstage b.rmstatus = .nop → b ∈ p.branches)
      (fun _ => False) := by
  induction bs with
  | nil => exact Triple.pure (fun _ hd => ⟨hd.mono (by simp), rfl, rfl, rfl, rfl, by simp⟩)
  | cons b bs ih =>
    have hlen : 2*(b :: bs).length+k = 2*bs.length+k+2 := by
      rw [length_cons]
      omega
    have ih := ih (fun c hc => hstay c (mem_cons_of_mem _ hc))
    rw [hlen]
    apply Triple.bind (driveBranch_fine _ descr.txstage b)
    rintro r d ⟨hd, hout, hbr⟩
    have hmem (p : Pass) (h : ∀ c ∈ bs, xaStatusGetOp descr.txstage c.rmstatus = .nop →
        c ∈ p.branches) : ∀ c ∈ b :: bs, xaStatusGetOp descr.txstage c.rmstatus = .nop →
          c ∈ r.branch :: p.branches := by
      intro c hc hop
      rcases mem_cons.mp hc with rfl | hc
      · rw [hbr hop]
        exact mem_cons_self
      · exact mem_cons_of_mem _ (h c hc hop)
    rw [hout]
    cases hv : fineVote descr.txstage b.rmstatus with
    | none =>
      refine Triple.bind ih (fun p => Triple.pure (fun _ h => ?_)) d hd
      refine ⟨h.1, h.2.1, h.2.2.1, ?_, congrArg Nat.succ h.2.2.2.2.1, hmem p h.2.2.2.2.2⟩
      simp [hv, h.2.2.2.1]
    | some v =>
      simp only [Option.elim, hstay b mem_cons_self v hv]
      refine Triple.bind ih (fun p => Triple.pure (fun _ h => ?_)) d hd
      refine ⟨h.1, h.2.1, h.2.2.1, ?_, congrArg Nat.succ h.2.2.2.2.1, hmem p h.2.2.2.2.2⟩
      simp [hv, h.2.2.2.1]

theorem fineVote_preparing {c : Char} (hva : ¬VotesAbort c) {v : Int}
    (h : fineVote stagePreparing c = some v) : v = stageCommitting := by
  rw [fineVote] at h
  split at h
  · obtain ⟨_, hrow, rfl⟩ := Option.map_eq_some_iff.mp h
    by_contra hne
    apply hva
    rw [VotesAbort, hrow, Option.map_some, abort_of_row (mem_of_find?_eq_some hrow) hne]
  rename_i hop
  obtain ⟨a, ha, hs, rfl, -⟩ := xaStatusGetOp_row rfl hop
  have htable : ∀ a ∈ txactionDriver, a.txstage = stagePreparing →
      (xaStatusGetNextByOp stagePreparing a.rmstatus (xaStatusGetOp stagePreparing a.rmstatus)
        xaOk).map RmStatusDriver.nextTxstage = some stageCommitting := by decide
  rw [htable a ha hs] at h
  cases h
  rfl

theorem fineVote_stays (hva : ∀ b ∈ bs, ¬VotesAbort b.rmstatus) :
    ∀ b ∈ bs, ∀ v, fineVote descrPreparing.txstage b.rmstatus = some v →
      leavesGroup descrPreparing v = false := by
  intro b hb v hv
  rw [fineVote_preparing (hva b hb) hv]
  decide

def Overruled (e : Event) : Prop := ∃ bs, Decision e bs ∧ ¬ AllPrepared bs

theorem switch_overruled {tl : Tl} (hs : tl.txstage = stagePreparing)
    (hnew : s = stageCommitting ∨ s = stagePrepro) (hall : ¬ AllPrepared tl.branches) :
    Triple (fun _ => True) (switchStage tl s) (fun _ => Noted Overruled) (Noted Overruled) := by
  rcases hnew with rfl | rfl
  · apply (switchStage_commit (J := Noted Overruled) hs
      (fun d _ => noted_self d ⟨tl.branches, Or.inl rfl, hall⟩) (fun d h => h.noted _)
      (fun _ _ h => h) (fun _ _ h => h)).post
    exact fun _ _ h => h.2.2
  · apply (switchStage_forced (J := Noted Overruled) (by rw [hs]; decide) (by decide)
      (fun d _ => noted_self d ⟨tl.branches, Or.inr rfl, hall⟩)
      (fun _ _ h => h) (fun _ h => h)).post
    exact fun _ _ h => h.2.2

theorem driveBody_mute (cfg : Config) (cmtLogged : Bool) (tl : Tl) (try_ : ℕ)
    (hs : tl.txstage = stagePreparing) (hva : ∀ b ∈ tl.branches, ¬ VotesAbort b.rmstatus)
    {b : Branch} (hb : b ∈ tl.branches) (hm : Mute b.rmstatus) :
    Triple (Fine (2*tl.branches.length)) (driveBody cfg cmtLogged tl try_)
      (fun _ => Noted Overruled) (Noted Overruled) := by
  have hdescr : xaStageGetDescr tl.txstage = some descrPreparing := by
    rw [hs]
    rfl
  have hpass := (drivePass_fine 0 descrPreparing tl.branches (fineVote_stays hva)).and
    (drivePass_preparing tl.branches)
  rw [driveBody, hdescr]
  apply Triple.bind (hpass.conseq (fun _ h => ⟨h, trivial⟩) (fun _ _ h => h)
    (fun _ h => h.1.elim))
  rintro p d ⟨⟨-, hjump, -, -, -, hkeep⟩, hprep⟩
  have hswitch : Triple (fun _ => True)
      (driveSwitch {tl with branches := p.branches} descrPreparing p)
      (fun _ => Noted Overruled) (Noted Overruled) := by
    rw [driveSwitch, if_pos hprep.switches]
    exact switch_overruled hs (hprep.of_no_jump hjump)
      (fun h => hm.not_prepared (h b (hkeep b hb hm.1)))
  rw [hprep.valid]
  refine Triple.bind hswitch ?_ d trivial
  intro tl'
  exact Triple.pure (fun _ h => h)

/-- What is asked of a drive that is entered in stage preparing: a commit is logged and a success
reported only when all branches are prepared or read-only, and otherwise the pass leads to the
abort. -/
def Unanimous (cfg : Config) (fuel : ℕ) (cmtLogged : Bool) (tl : Tl) (d : Disk) : Prop :=
  DecisionsOk (tmDrive cfg fuel .commit cmtLogged tl d).2 ∧
  (∀ e d', tmDrive cfg fuel .commit cmtLogged tl d = (some e, d') → e.ret = tpSucceed →
    Decided d') ∧
  ∀ next d', driveBody cfg cmtLogged tl 0 d = (some next, d') →
    AllPrepared next.tl.branches ∨ next.tl.txstage = stageAborting

section

variable {cfg : Config} {cmtLogged : Bool} {tl : Tl} {log : Option (List Rec)}
  (hs : tl.txstage = stagePreparing)
include hs

theorem Unanimous.of_votesCount (hcount : VotesCount tl.branches) (fuel : ℕ) (answers : List Answer) :
    Unanimous cfg fuel cmtLogged tl ⟨log, [], answers⟩ := by
  have htraced : Traced False ⟨log, [], answers⟩ := ⟨fun e he => (by cases he), fun hf => hf.elim⟩
  have hstart : Ruled tl ⟨log, [], answers⟩ := Or.inl ⟨hs, hcount, htraced⟩
  have hloop := driveLoop_ruled cfg cmtLogged tl 0 fuel
  refine ⟨?_, ?_, ?_⟩
  · have hleft : Triple (Ruled tl) (driveLoop cfg .commit cmtLogged fuel tl 0)
        (fun _ => DecisionsOk) DecisionsOk :=
      hloop.conseq (fun _ h => h) (fun _ _ h => h.1) (fun _ h => h.1)
    exact hleft.left hstart
  · intro e d' hrun hret
    exact (hloop.returned hstart hrun).2 hret
  · intro next d' hrun
    exact ((driveBody_preparing cfg cmtLogged tl 0 hs hcount).returned htraced hrun).2

/-- With good answers only, a mute branch is overruled in the first pass. -/
theorem not_unanimous (hva : ∀ b ∈ tl.branches, ¬ VotesAbort b.rmstatus) {b : Branch}
    (hb : b ∈ tl.branches) (hm : Mute b.rmstatus) :
    ¬ Unanimous cfg 1 cmtLogged tl ⟨log, [], replicate (2*tl.branches.length) okAnswer⟩ := by
  intro h
  have hloop : Triple (Fine (2*tl.branches.length)) (tmDrive cfg 1 .commit cmtLogged tl)
      (fun _ => Noted Overruled) (Noted Overruled) := by
    apply Triple.bind (driveBody_mute cfg cmtLogged tl 0 hs hva hb hm)
    intro next
    cases next with
    | again => exact Triple.stop (fun _ h => h)
    | leave => exact Triple.pure (fun _ h => h)
    | done descr tl' =>
      exact (driveDone_triple .commit descr tl' (fun _ _ h => h) (fun _ h => h)).post (fun _ _ h => h.1)
  have hfine : Fine (2*tl.branches.length) ⟨log, [], replicate (2*tl.branches.length) okAnswer⟩ :=
    ⟨_, le_rfl, rfl⟩
  obtain ⟨e, he, bs, hd, hall⟩ := hloop.left hfine
  exact hall (h.1 e he bs hd)

end

/-- Whatever the resource managers and the disk answer, the decision is unanimous exactly when no
branch is mute, or one is there that makes it an abort anyway. -/
theorem decision_unanimous_iff (cfg : Config) (cmtLogged : Bool) (tl : Tl)
    (log : Option (List Rec)) :
    (∀ fuel answers, Unanimous cfg fuel cmtLogged {tl with txstage := stagePreparing}
      ⟨log, [], answers⟩) ↔ VotesCount tl.branches := by
  constructor
  · intro h
    by_contra hcount
    rw [VotesCount, not_or] at hcount
    obtain ⟨hmute, hva⟩ := hcount
    push Not at hmute hva
    obtain ⟨_, hb, hm⟩ := hmute
    exact absurd (h 1 _) (not_unanimous rfl hva hb hm)
  · exact fun hcount => Unanimous.of_votesCount rfl hcount

/-- One prepared branch and one of unknown status: the commit is logged. Only branches of unknown
status: the commit is reported as done. -/
theorem unknown_branch_committed :
    ((driveBody ⟨3⟩ false {Tl.blank with txstage := stagePreparing, branches :=
        [⟨1, 0, rmPrep, 0, 0⟩, ⟨1, 1, rmUnknown, 0, 0⟩]} 0
        ⟨some [], [], replicate 5 okAnswer⟩).1.map
      (fun next => (next.tl.txstage, next.tl.branches.map Branch.rmstatus)) =
        some (stageCommitting, [rmPrep, rmUnknown])) ∧
    ((tmDrive ⟨3⟩ 3 .commit false {Tl.blank with txstage := stagePreparing, branches :=
        [⟨1, 0, rmUnknown, 0, 0⟩]} ⟨some [], [], replicate 2 okAnswer⟩).1.map DriveEnd.ret =
        some tpSucceed) := by
  decide

end Endurox.Tms
