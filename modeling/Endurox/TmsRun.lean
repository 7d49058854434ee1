import Endurox.StateDrv

/-! The services of tmsrv for one transaction (`tmapi.c`, `tmsrv.c`, `background.c`), with crashes
and restarts between them and inside them, and what the calls of a whole run have in common. -/

namespace Endurox.Tms

open Base
open Base.Prog (Triple)

def tmsLogAddrm (tl : Tl) (rmid btid : Int) (noStartXid : Bool) : Prog Disk (Bool × Tl) :=
  if rmid < 1 ∨ ndrxMaxRms < rmid then pure (false, tmsUnlockEntry tl)
  else if tl.isBackground ∨ tl.txstage ≠ stageActive then pure (false, tmsUnlockEntry tl)
  else
    let r := tmsBtidAddupd tl rmid btid rmNull 0 0
    if r.1 then pure (true, tmsUnlockEntry r.2.2)
    else do
      let s ← tmsLogRmstatus r.2.1 (if noStartXid then rmUnknown else rmActive) 0 0
      pure (s.1, tmsUnlockEntry (r.2.2.setBranch s.2))

def tmsLogChrmstat (tl : Tl) (rmid btid : Int) (rmstatus : Char) : Prog Disk (Bool × Tl) :=
  match tmsBtidFind tl rmid btid with
  -- the pointer that was not found is read all the same
  | none => Prog.stop
  | some b =>
    if b.rmstatus ≠ rmUnknown then pure (false, tmsUnlockEntry tl)
    else do
      let s ← tmsLogRmstatus b rmstatus 0 0
      pure (s.1, tmsUnlockEntry (tl.setBranch s.2))

section

variable (cfg : Config) (fuel : ℕ)

def abortAndDrive (tl : Tl) : Prog Disk DriveEnd := do
  let r ← tmsLogStage tl stageAborting true
  tmDrive cfg fuel .rollback false r.2

def tmTpabort (tl : Tl) : Prog Disk DriveEnd :=
  if tl.isBackground ∨ tl.txstage ≠ stageActive then
    pure ⟨if stagePreparing ≤ tl.txstage then tpeProto else tpeHeuristic, some (tmsUnlockEntry tl)⟩
  else abortAndDrive cfg fuel tl

def tmTpcommit (cmtLogged : Bool) (tl : Tl) : Prog Disk DriveEnd :=
  if tl.isBackground ∨ tl.txstage ≠ stageActive then
    pure ⟨if stagePreparing ≤ tl.txstage then tpeProto else tpeAbort, some (tmsUnlockEntry tl)⟩
  else do
    let r ← tmsLogStage tl stagePreparing false
    if r.1 then tmDrive cfg fuel .commit cmtLogged r.2
    else do
      -- the error that is set already stays unless the abort ends with another one
      let e ← abortAndDrive cfg fuel r.2
      pure ⟨if e.ret = tpSucceed then tpeAbort else e.ret, e.tl⟩

def txToutCheck (tl : Tl) : Prog Disk DriveEnd :=
  if tl.isBackground = false ∧ tl.txstage = stageActive then abortAndDrive cfg fuel tl
  else pure ⟨0, some tl⟩

def backgroundPass (tl : Tl) : Prog Disk DriveEnd :=
  if tl.isBackground then tmDrive cfg fuel .commit false tl else pure ⟨0, some tl⟩

def tmCommittrans (tl : Tl) : Prog Disk DriveEnd :=
  if tl.txstage ≠ stageCommitting then pure ⟨tpeInval, some (tmsUnlockEntry tl)⟩
  else tmDrive cfg fuel .commit false tl

end

inductive Api where
  | register (rmid btid : Int) (noStartXid : Bool)
  | report (rmid btid : Int) (rmstatus : Char)
  | tpcommit (cmtLogged : Bool)
  | tpabort
  | timeout
  | background
  | committrans

def serve (cfg : Config) (fuel : ℕ) (tl : Tl) : Api → Prog Disk (Option Tl)
  | .register rmid btid noStartXid => do
    let r ← tmsLogAddrm tl rmid btid noStartXid
    pure (some r.2)
  | .report rmid btid rmstatus => do
    let r ← tmsLogChrmstat tl rmid btid rmstatus
    pure (some r.2)
  | .tpcommit cmtLogged => do
    let e ← tmTpcommit cfg fuel cmtLogged tl
    pure e.tl
  | .tpabort => do
    let e ← tmTpabort cfg fuel tl
    pure e.tl
  | .timeout => do
    let e ← txToutCheck cfg fuel tl
    pure e.tl
  | .background => do
    let e ← backgroundPass cfg fuel tl
    pure e.tl
  | .committrans => do
    let e ← tmCommittrans cfg fuel tl
    pure e.tl

structure Srv where
  mem : Option Tl
  disk : Disk

inductive Step where
  | serve (api : Api) (answers : List Answer)
  | crash
  | load (answers : List Answer)

def srvStep (cfg : Config) (fuel : ℕ) (s : Srv) : Step → Srv
  | .serve api answers =>
    match s.mem with
    | none => s
    | some tl =>
      let r := serve cfg fuel tl api (s.disk.rest answers)
      ⟨r.1.join, r.2⟩
  | .crash => {s with mem := none}
  | .load answers =>
    match s.mem with
    | some _ => s
    | none =>
      let r := tmsLoadLogfile (s.disk.rest answers)
      ⟨r.1.join, r.2⟩

def srvRun (cfg : Config) (fuel : ℕ) (s : Srv) (steps : List Step) : Srv :=
  steps.foldl (srvStep cfg fuel) s

def srvStart (tmrmid tmnodeid tmsrvid txtout : Int) : Srv :=
  ⟨some {Tl.blank with txtout := txtout}, ⟨some [.info tmrmid tmnodeid tmsrvid txtout], [], []⟩⟩

def LogIn (K : Int → Prop) (d : Disk) : Prop := ∀ log, d.log = some log → K (replayStage log)

def Called (op : XaOp) (d : Disk) : Prop := ∃ rmid btid, Event.call op rmid btid ∈ d.trace

structure Inv (K : Int → Prop) (B : XaOp → Prop) (d : Disk) : Prop where
  log : LogIn K d
  called : ∀ op, Called op d → B op

section

variable {K K' : Int → Prop} {B B' : XaOp → Prop} {d : Disk}

theorem Inv.mono (h : Inv K B d) (hK : ∀ s, K s → K' s) (hB : ∀ op, B op → B' op) : Inv K' B' d :=
  ⟨fun log hlog => hK _ (h.log log hlog), fun op hop => hB op (h.called op hop)⟩

theorem Inv.rest (h : Inv K B d) (as : List Answer) : Inv K B (d.rest as) := ⟨h.log, h.called⟩

theorem Inv.wrote (h : Inv K B d) {r : Rec} (hK : ∀ s, K s → K' (applyStage s r)) :
    Inv K' B (d.wrote r) := by
  refine ⟨?_, h.called⟩
  intro log hlog
  rw [Disk.wrote, Option.map_eq_some_iff] at hlog
  obtain ⟨log', hlog', rfl⟩ := hlog
  rw [replayStage_append]
  exact hK _ (h.log log' hlog')

theorem Inv.noted_stage (h : Inv K B d) (s : Int) (bs : List Branch) :
    Inv K B (d.noted (.stage s bs)) := by
  refine ⟨h.log, ?_⟩
  rintro op ⟨rmid, btid, hmem⟩
  rw [Disk.noted, List.mem_append] at hmem
  rcases hmem with hmem | hmem
  · exact h.called op ⟨rmid, btid, hmem⟩
  · simp at hmem

theorem Inv.noted_call (h : Inv K B d) {op : XaOp} (hB : B op) (rmid btid : Int) :
    Inv K B (d.noted (.call op rmid btid)) := by
  refine ⟨h.log, ?_⟩
  rintro op' ⟨rmid', btid', hmem⟩
  rw [Disk.noted, List.mem_append] at hmem
  rcases hmem with hmem | hmem
  · exact h.called op' ⟨rmid', btid', hmem⟩
  · have he : op' = op := by
      have := List.mem_singleton.mp hmem
      injection this
    rw [he]
    exact hB

theorem inv_steady {s : Int} (hop : ∀ c, xaStatusGetOp s c ≠ .nop → B (xaStatusGetOp s c)) :
    Steady s (Inv K B) where
  rest := fun _ as h => h.rest as
  line := fun _ _ _ _ _ _ h => h.wrote (fun _ hs => hs)
  call := fun _ c rmid btid hne h => h.noted_call (hop c hne) rmid btid

end

def Abortable (s : Int) : Prop := Undecided s ∨ AbortSide s

def Known (s : Int) : Prop := Undecided s ∨ s = stagePrepro ∨ AbortSide s ∨ CommitSide s

inductive MemOk (s : Int) (d : Disk) : Prop where
  | undecided (hs : Undecided s) (h : Inv Undecided (fun op => op = .prepare) d)
  | prepro (hs : s = stagePrepro) (h : Inv Known (fun op => op = .prepare) d)
  | abort (hs : AbortSide s) (h : Inv Abortable (fun op => op ≠ .commit) d)
  | commit (hs : CommitSide s) (h : Inv CommitSide (fun op => op ≠ .rollback) d)

inductive Safe (d : Disk) : Prop where
  | pending (h : Inv Known (fun op => op = .prepare) d)
  | abort (h : Inv Abortable (fun op => op ≠ .commit) d)
  | commit (h : Inv CommitSide (fun op => op ≠ .rollback) d)

theorem Undecided.known {s : Int} (h : Undecided s) : Known s := Or.inl h

variable {d : Disk}

theorem MemOk.safe {s : Int} (h : MemOk s d) : Safe d := by
  cases h with
  | undecided hs h => exact .pending (h.mono (fun _ => Undecided.known) (fun _ hop => hop))
  | prepro hs h => exact .pending h
  | abort hs h => exact .abort h
  | commit hs h => exact .commit h

theorem Safe.not_mixed (h : Safe d) : ¬ (Called .commit d ∧ Called .rollback d) := by
  rintro ⟨hc, hr⟩
  cases h with
  | pending h => exact absurd (h.called _ hc) (by decide)
  | abort h => exact h.called _ hc rfl
  | commit h => exact h.called _ hr rfl

variable {t : Int}

theorem apply_abort (x : Int) (ht : AbortSide t) : applyStage x (.stage t) = t := by
  rw [applyStage, if_pos ht, ite_self]

variable {x : Int}

theorem apply_commit (hx : ¬ AbortSide x) : applyStage x (.stage t) = t := by
  rw [applyStage, if_neg hx]

theorem Undecided.not_abort (h : Undecided x) : ¬ AbortSide x := by
  intro ha
  rcases h with h | h
  · exact ha.ne.1 h
  · exact ha.ne.2.1 h

theorem CommitSide.not_abort (h : CommitSide x) : ¬ AbortSide x := by
  intro ha
  simp only [CommitSide, stageCommitting] at h
  simp only [AbortSide, stageAbforgotHeu] at ha
  omega

theorem Abortable.apply (ht : AbortSide t) : Abortable (applyStage x (.stage t)) := by
  rw [apply_abort x ht]
  exact Or.inr ht

theorem CommitSide.apply (hx : CommitSide x) (ht : CommitSide t) :
    CommitSide (applyStage x (.stage t)) := by
  rw [apply_commit hx.not_abort]
  exact ht

theorem Known.apply_prepro (hx : Known x) : Known (applyStage x (.stage stagePrepro)) := by
  by_cases ha : AbortSide x
  · rw [applyStage, if_pos ha]
    exact hx
  · rw [apply_commit ha]
    exact Or.inr (Or.inl rfl)

theorem CommitSide.known (h : CommitSide x) : Known x := Or.inr (Or.inr (Or.inr h))

theorem prepare_ne_commit (op : XaOp) (h : op = .prepare) : op ≠ .commit := by
  rw [h]
  decide

theorem Inv.no_commit {K : Int → Prop} (h : Inv K (fun op => op = .prepare) d) :
    Inv K (fun op => op ≠ .commit) d :=
  h.mono (fun _ hx => hx) prepare_ne_commit

theorem Inv.no_rollback {K : Int → Prop} (h : Inv K (fun op => op = .prepare) d) :
    Inv K (fun op => op ≠ .rollback) d :=
  h.mono (fun _ hx => hx) fun op hop => by
    rw [hop]
    decide

/-- What the drive of an entry leaves of it. -/
def InDrive (tl : Tl) (d : Disk) : Prop := MemOk tl.txstage d ∧ tl.txstage ≠ stageActive

section

variable {tl : Tl} {descr : TxstageDescriptor} {p : Pass} {K : Int → Prop} {B : XaOp → Prop}

/-- Logging a stage, by what it does to the stage of the log: from `K` it may fail within `K1`,
and a success that is not forced ends in `K2`. -/
theorem logStage_inv (forced : Bool) (K1 K2 : Int → Prop) {s : Int} (hne : tl.txstage ≠ s)
    (hK : ∀ x, K x → K1 x) (h21 : ∀ x, K2 x → K1 x)
    (happ : ∀ x, K1 x → K2 (applyStage x (.stage s))) :
    Triple (Inv K B) (tmsLogStage tl s forced)
      (fun r d => Inv K1 B d ∧ r.2.branches = tl.branches ∧ r.2.isBackground = tl.isBackground ∧
        (r.1 = true → r.2.txstage = s ∧ (forced = false → Inv K2 B d)) ∧
        (r.1 = false → forced = false ∧ (tl.txstage ≠ -1 → r.2.txstage = tl.txstage)))
      (Inv K1 B) := by
  apply tmsLogStage_triple hne
  · intro d h
    exact (h.noted_stage _ _).mono hK (fun _ hop => hop)
  · exact fun d as h => h.rest as
  · exact fun d as h => h.rest as
  · exact fun d h => h.mono h21 (fun _ hop => hop)
  · exact fun d h => h.wrote happ

theorem commit_to_abort (htl : tl.txstage = stagePreparing) :
    Triple (Inv (fun x => Undecided x ∨ CommitSide x) (fun op => op = .prepare))
      (do
        let r ← tmsLogStage tl stageAborting false
        if r.1 then pure r.2 else Prog.stop) InDrive Safe := by
  have habort := logStage_inv (B := fun op => op = .prepare) false Known AbortSide
    (show tl.txstage ≠ stageAborting by rw [htl]; decide)
    (fun x hx => Or.elim hx Undecided.known CommitSide.known)
    (fun x hx => Or.inr (Or.inr (Or.inl hx)))
    (fun x _ => by rw [apply_abort x (by decide)]; decide)
  apply Triple.bind (habort.crash (fun _ h => .pending h))
  intro r
  obtain ⟨ok, tl'⟩ := r
  cases ok with
  | true =>
    apply Triple.pure
    intro d hd
    obtain ⟨hst, hj⟩ := hd.2.2.2.1 rfl
    have hst : tl'.txstage = stageAborting := hst
    rw [InDrive, hst]
    exact ⟨.abort (by decide) ((hj rfl).mono (fun _ hx => Or.inr hx) prepare_ne_commit), by decide⟩
  | false => exact Triple.stop (fun d hd => .pending hd.1)

theorem switch_to_committing (htl : tl.txstage = stagePreparing) :
    Triple (Inv Undecided (fun op => op = .prepare)) (switchStage tl stageCommitting) InDrive Safe := by
  have hlog := logStage_inv (K := Undecided) (B := fun op => op = .prepare)
    (decide (stageCommitting ≠ stageCommitting)) (fun x => Undecided x ∨ CommitSide x) CommitSide
    (show tl.txstage ≠ stageCommitting by rw [htl]; decide) (fun x hx => Or.inl hx)
    (fun x hx => Or.inr hx) (fun x hx => by
      rw [apply_commit (Or.elim hx Undecided.not_abort CommitSide.not_abort)]
      decide)
  apply Triple.bind (hlog.crash
    (fun d h => .pending (h.mono (fun x hx => Or.elim hx Undecided.known CommitSide.known)
      (fun _ hop => hop))))
  intro r
  obtain ⟨ok, tl'⟩ := r
  cases ok with
  | true =>
    apply Triple.pure
    intro d hd
    obtain ⟨hst, hj⟩ := hd.2.2.2.1 rfl
    have hst : tl'.txstage = stageCommitting := hst
    rw [InDrive, hst]
    exact ⟨.commit (by decide) (hj (by decide)).no_rollback, by decide⟩
  | false =>
    intro d hd
    have hst : tl'.txstage = stagePreparing :=
      ((hd.2.2.2.2 rfl).2 (by rw [htl]; decide)).trans htl
    exact commit_to_abort hst d hd.1

theorem switch_forced {s : Int} (hne : tl.txstage ≠ s) (hs : s ≠ stageCommitting)
    (K1 : Int → Prop) (hK : ∀ x, K x → K1 x) (happ : ∀ x, K1 x → K1 (applyStage x (.stage s))) :
    Triple (Inv K B) (switchStage tl s) (fun tl' d => tl'.txstage = s ∧ Inv K1 B d) (Inv K1 B) := by
  have h := switchStage_forced (I := Inv K B) (J := Inv K1 B) hne hs
    (fun d h => (h.noted_stage _ _).mono hK (fun _ hop => hop)) (fun d as h => h.rest as)
    (fun d h => h.wrote happ)
  exact h.post (fun _ _ hd => ⟨hd.1, hd.2.2⟩)

theorem driveSwitch_side {S : Int → Prop} (hs : S tl.txstage) (htl : tl.txstage = descr.txstage)
    (hnew : S (p.newTxstage descr))
    (hdec : p.newTxstage descr ≠ descr.txstage → p.newTxstage descr ≠ stageCommitting)
    (hK : ∀ x, K x → K (applyStage x (.stage (p.newTxstage descr)))) :
    Triple (Inv K B) (driveSwitch tl descr p) (fun tl' d => S tl'.txstage ∧ Inv K B d)
      (Inv K B) := by
  rw [driveSwitch]
  split
  · rename_i hsw
    have hne : p.newTxstage descr ≠ descr.txstage := by
      rw [Pass.switches, decide_eq_true_eq] at hsw
      exact hsw.1
    apply (switch_forced (by rw [htl]; exact hne.symm) (hdec hne) K (fun _ hx => hx) hK).post
    intro tl' d hd
    rw [hd.1]
    exact ⟨hnew, hd.2⟩
  · exact Triple.pure (fun d hd => ⟨hs, hd⟩)

theorem driveSwitch_preparing (htl : tl.txstage = stagePreparing)
    (hdescr : descr.txstage = stagePreparing)
    (hnew : p.newTxstage descr = stageCommitting ∨ p.newTxstage descr = stageAborting ∨
      p.newTxstage descr = stagePrepro) :
    Triple (Inv Undecided (fun op => op = .prepare)) (driveSwitch tl descr p) InDrive Safe := by
  have hsw : p.switches descr = true := by
    rw [Pass.switches, hdescr]
    rcases hnew with h | h | h <;> rw [h] <;> decide
  rw [driveSwitch, if_pos hsw]
  rcases hnew with hn | hn | hn
  · rw [hn]
    exact switch_to_committing htl
  · rw [hn]
    have h := switch_forced (K := Undecided) (B := fun op => op = .prepare)
      (show tl.txstage ≠ stageAborting by rw [htl]; decide) (by decide) Abortable
      (fun x hx => Or.inl hx) (fun x _ => Abortable.apply (by decide))
    apply h.conseq (fun _ hd => hd) _ (fun d hd => .abort hd.no_commit)
    intro tl' d hd
    rw [InDrive, hd.1]
    exact ⟨.abort (by decide) hd.2.no_commit, by decide⟩
  · rw [hn]
    have h := switch_forced (K := Undecided) (B := fun op => op = .prepare)
      (show tl.txstage ≠ stagePrepro by rw [htl]; decide) (by decide) Known
      (fun x hx => hx.known) (fun x hx => hx.apply_prepro)
    apply h.conseq (fun _ hd => hd) _ (fun d hd => .pending hd)
    intro tl' d hd
    rw [InDrive, hd.1]
    exact ⟨.prepro rfl hd.2, by decide⟩

theorem driveBody_side {S : Int → Prop} (cfg : Config) (cmtLogged : Bool) (try_ : ℕ)
    (hs : S tl.txstage)
    (hop : ∀ c, xaStatusGetOp tl.txstage c ≠ .nop → B (xaStatusGetOp tl.txstage c))
    (hnew : ∀ descr p, descr ∈ stateDescriptor → descr.txstage = tl.txstage →
      Pass.VotesIn p tl.txstage → S (p.newTxstage descr) ∧
      (p.newTxstage descr ≠ descr.txstage → p.newTxstage descr ≠ stageCommitting) ∧
      ∀ x, K x → K (applyStage x (.stage (p.newTxstage descr)))) :
    Triple (Inv K B) (driveBody cfg cmtLogged tl try_)
      (fun next d => S next.tl.txstage ∧ Inv K B d) (Inv K B) := by
  rw [driveBody]
  split
  · exact Triple.pure (fun d hd => ⟨hs, hd⟩)
  rename_i descr hdescr
  obtain ⟨hmem, hst⟩ := xaStageGetDescr_mem hdescr
  have hsteady : Steady descr.txstage (Inv K B) := inv_steady (by rw [hst]; exact hop)
  apply Triple.bind (hsteady.drivePass tl.branches)
  intro p
  split
  · exact Triple.pure (fun d hd => ⟨hs, hd.1⟩)
  intro d hd
  obtain ⟨hS, hdec, hK⟩ := hnew descr p hmem hst (by rw [← hst]; exact hd.2)
  have hsw : Triple (Inv K B) (driveSwitch {tl with branches := p.branches} descr p)
      (fun tl' d => S tl'.txstage ∧ Inv K B d) (Inv K B) :=
    driveSwitch_side hs hst.symm hS hdec hK
  have hbody := Triple.bind hsw (fun tl' => Triple.pure
    (a := driveNext cfg cmtLogged tl' try_ descr p)
    (Q := fun next d => S next.tl.txstage ∧ Inv K B d) (fun d hd => by
      rw [driveNext_tl]
      exact hd))
  exact hbody d hd.1

/-- A pass keeps the memory in step with the log. -/
theorem driveBody_mem (cfg : Config) (cmtLogged : Bool) (try_ : ℕ)
    (hactive : tl.txstage ≠ stageActive) :
    Triple (MemOk tl.txstage) (driveBody cfg cmtLogged tl try_) (fun next => InDrive next.tl) Safe := by
  intro d hd
  cases hd with
  | undecided hs h =>
    have hprep : tl.txstage = stagePreparing := hs.resolve_left hactive
    have hdescr : ∃ descr, xaStageGetDescr tl.txstage = some descr := by
      rw [hprep]
      exact ⟨_, rfl⟩
    obtain ⟨descr, hdescr⟩ := hdescr
    obtain ⟨hmem, hst⟩ := xaStageGetDescr_mem hdescr
    have hsteady : Steady descr.txstage (Inv Undecided (fun op => op = .prepare)) := by
      apply inv_steady
      intro c hne
      obtain ⟨r, hr, hrs, -, hrop⟩ := xaStatusGetOp_row rfl hne
      have htable : ∀ r ∈ txactionDriver, r.txstage = stagePreparing → r.op = .prepare := by decide
      rw [← hrop]
      exact htable r hr (by rw [hrs, hst, hprep])
    rw [driveBody, hdescr]
    have hpass := hsteady.drivePass tl.branches
    refine Triple.bind (hpass.crash (fun d hd =>
      .pending (hd.mono (fun _ => Undecided.known) (fun _ hop => hop)))) ?_ d h
    intro p
    split
    · apply Triple.pure
      intro d hd
      exact ⟨.undecided hs hd.1, hactive⟩
    intro d hd
    obtain ⟨-, -, hnew, -⟩ := Pass.VotesIn.side hd.2 hmem
    have hsw : Triple (Inv Undecided (fun op => op = .prepare))
        (driveSwitch {tl with branches := p.branches} descr p) InDrive Safe :=
      driveSwitch_preparing hprep (hst.trans hprep) (hnew (hst.trans hprep))
    have hbody := Triple.bind hsw (fun tl' => Triple.pure
      (a := driveNext cfg cmtLogged tl' try_ descr p) (Q := fun next => InDrive next.tl)
      (fun d hd => by
        rw [driveNext_tl]
        exact hd))
    exact hbody d hd.1
  | prepro hs h =>
    have hbody := driveBody_side (S := fun s => s = stagePrepro) (K := Known)
      (B := fun op => op = .prepare) cfg cmtLogged try_ hs (by
        intro c hne
        obtain ⟨r, hr, hrs, -, -⟩ := xaStatusGetOp_row rfl hne
        have htable : ∀ r ∈ txactionDriver, r.txstage ≠ stagePrepro := by decide
        exact absurd (hrs.trans hs) (htable r hr)) (by
        intro descr p hmem hst hv
        have he := (Pass.VotesIn.side (by rw [hst]; exact hv) hmem).2.2.2 (hst.trans hs)
        rw [he]
        exact ⟨rfl, fun _ => by decide, fun x hx => hx.apply_prepro⟩)
    apply hbody.conseq (fun _ hd => hd) _ (fun _ hd => .pending hd) d h
    intro next d hd
    refine ⟨.prepro hd.1 hd.2, ?_⟩
    rw [hd.1]
    decide
  | abort hs h =>
    have hbody := driveBody_side (S := AbortSide) (K := Abortable) (B := fun op => op ≠ .commit)
      cfg cmtLogged try_ hs (by
        intro c _ hc
        exact hs.ne.2.2.1 (stage_of_commit hc)) (by
        intro descr p hmem hst hv
        have hv' : p.VotesIn descr.txstage := by rw [hst]; exact hv
        have ha := (hv'.side hmem).2.1 (by rw [hst]; exact hs)
        exact ⟨ha, fun _ => ha.ne.2.2.1, fun x _ => Abortable.apply ha⟩)
    apply hbody.conseq (fun _ hd => hd) _ (fun _ hd => .abort hd) d h
    intro next d hd
    exact ⟨.abort hd.1 hd.2, hd.1.ne.1⟩
  | commit hs h =>
    have hbody := driveBody_side (S := CommitSide) (K := CommitSide) (B := fun op => op ≠ .rollback)
      cfg cmtLogged try_ hs (by
        intro c _ hc
        have he := stage_of_rollback hc
        rw [he] at hs
        exact absurd hs (by decide)) (by
        intro descr p hmem hst hv
        have hv' : p.VotesIn descr.txstage := by rw [hst]; exact hv
        have hs' : CommitSide descr.txstage := by rw [hst]; exact hs
        have hc := (hv'.side hmem).1 hs'
        exact ⟨hc, fun hne => (hv'.no_decision hmem (Or.inl hs') hne).1, fun x hx => hx.apply hc⟩)
    apply hbody.conseq (fun _ hd => hd) _ (fun _ hd => .commit hd) d h
    intro next d hd
    exact ⟨.commit hd.1 hd.2, hd.1.ne.1⟩

end

/-- What keeps the bounds on the log and the calls, whatever they are, keeps the disk safe. -/
theorem Safe.map {d' : Disk} (h : Safe d)
    (hinv : ∀ {K : Int → Prop} {B : XaOp → Prop}, Inv K B d → Inv K B d') : Safe d' := by
  cases h with
  | pending h => exact .pending (hinv h)
  | abort h => exact .abort (hinv h)
  | commit h => exact .commit (hinv h)

theorem MemOk.map {d' : Disk} {s : Int} (h : MemOk s d)
    (hinv : ∀ {K : Int → Prop} {B : XaOp → Prop}, Inv K B d → Inv K B d') : MemOk s d' := by
  cases h with
  | undecided hs h => exact .undecided hs (hinv h)
  | prepro hs h => exact .prepro hs (hinv h)
  | abort hs h => exact .abort hs (hinv h)
  | commit hs h => exact .commit hs (hinv h)

theorem Safe.log_none (h : Safe d) : Safe {d with log := none} :=
  h.map fun h => ⟨fun log hlog => (by cases hlog), h.called⟩

theorem Safe.rest (h : Safe d) (as : List Answer) : Safe (d.rest as) := h.map fun h => h.rest as

theorem MemOk.rest {s : Int} (h : MemOk s d) (as : List Answer) : MemOk s (d.rest as) :=
  h.map fun h => h.rest as

def JournalOk (mem : Option Tl) (d : Disk) : Prop :=
  match mem with
  | none => Safe d
  | some tl => MemOk tl.txstage d ∧ (tl.isBackground = true → tl.txstage ≠ stageActive)

theorem driveDone_mem (masterOp : XaOp) (descr : TxstageDescriptor) (tl : Tl) :
    Triple (InDrive tl) (driveDone masterOp descr tl) (fun e => JournalOk e.tl) Safe := by
  rw [driveDone]
  split
  · have hrm : Triple Safe tmsRemoveLogfile (fun _ => Safe) Safe :=
      tmsRemoveLogfile_triple (fun _ as h => h.rest as) (fun _ h => h.log_none)
    apply Triple.bind (hrm.conseq (fun _ h => h.1.safe) (fun _ _ h => h) (fun _ h => h))
    intro _
    exact Triple.pure (fun _ h => h)
  · exact Triple.pure (fun _ h => ⟨h.1, fun _ => h.2⟩)

variable (cfg : Config)

theorem driveLoop_mem (masterOp : XaOp) (cmtLogged : Bool) (fuel : ℕ) (tl : Tl) (try_ : ℕ)
    (hactive : tl.txstage ≠ stageActive) :
    Triple (MemOk tl.txstage) (driveLoop cfg masterOp cmtLogged fuel tl try_)
      (fun e => JournalOk e.tl) Safe := by
  induction fuel generalizing tl try_ with
  | zero => exact Triple.stop (fun _ h => h.safe)
  | succ fuel ih =>
    apply Triple.bind (driveBody_mem cfg cmtLogged try_ hactive)
    intro next d hd
    cases next with
    | again tl' try' => exact ih tl' try' hd.2 d hd.1
    | leave => exact ⟨hd.1, fun _ => hd.2⟩
    | done descr tl' => exact driveDone_mem masterOp descr tl' d hd

variable (fuel : ℕ)

/-- The forced record of the abort of an undecided transaction that has committed no branch. -/
theorem logAborting_mem {B : XaOp → Prop} {tl : Tl} (hs : Undecided tl.txstage)
    (hB : ∀ op, B op → op ≠ .commit) :
    Triple (Inv Undecided B) (tmsLogStage tl stageAborting true) (fun r => InDrive r.2) Safe := by
  have hne : tl.txstage ≠ stageAborting := by
    intro he
    exact hs.not_abort (by rw [he]; decide)
  have hlog := logStage_inv (K := Undecided) (B := B) true
    Abortable Abortable hne (fun x hx => Or.inl hx) (fun _ hx => hx)
    (fun x _ => Abortable.apply (by decide))
  apply hlog.conseq (fun _ h => h) _ (fun _ h => .abort (h.mono (fun _ hx => hx) hB))
  intro r d hd
  have hok : r.1 = true := by
    by_contra hf
    exact absurd (hd.2.2.2.2 (by simpa using hf)).1 (by decide)
  rw [InDrive, (hd.2.2.2.1 hok).1]
  exact ⟨.abort (by decide) (hd.1.mono (fun _ hx => hx) hB), by decide⟩

theorem abortAndDrive_mem {tl : Tl} (hs : Undecided tl.txstage) :
    Triple (Inv Undecided (fun op => op = .prepare)) (abortAndDrive cfg fuel tl)
      (fun e => JournalOk e.tl) Safe := by
  apply Triple.bind (logAborting_mem hs prepare_ne_commit)
  intro r d hd
  exact driveLoop_mem cfg .rollback false fuel r.2 0 hd.2 d hd.1

theorem MemOk.of_active {tl : Tl} (h : MemOk tl.txstage d) (hs : tl.txstage = stageActive) :
    Inv Undecided (fun op => op = .prepare) d := by
  cases h with
  | undecided _ h => exact h
  | prepro he =>
    rw [hs] at he
    exact absurd he (by decide)
  | abort ha => exact absurd hs ha.ne.1
  | commit hc => exact absurd hs hc.ne.1

theorem rmstatus_mem (s : Int) (b : Branch) (rmstatus : Char) :
    Triple (MemOk s) (tmsLogRmstatus b rmstatus 0 0) (fun _ d => MemOk s d) Safe := by
  have hkeep : Triple (MemOk s) (tmsLogRmstatus b rmstatus 0 0)
      (fun r d => MemOk s d ∧ r.2.rmstatus = rmstatus) (MemOk s) := by
    apply tmsLogRmstatus_triple
    · exact fun d as h => h.rest as
    · exact fun d _ _ h => h.map fun h => h.wrote (fun _ hx => hx)
  exact hkeep.conseq (fun _ h => h) (fun _ _ h => h.1) (fun _ h => h.safe)

theorem JournalOk.same {tl tl' : Tl} (h : JournalOk (some tl) d) (hst : tl'.txstage = tl.txstage)
    (hbg : tl'.isBackground = tl.isBackground) : JournalOk (some tl') d := by
  refine ⟨?_, ?_⟩
  · rw [hst]
    exact h.1
  · rw [hst, hbg]
    exact h.2

theorem tmsLogAddrm_mem (tl : Tl) (rmid btid : Int) (noStartXid : Bool) :
    Triple (JournalOk (some tl)) (tmsLogAddrm tl rmid btid noStartXid)
      (fun r => JournalOk (some r.2)) Safe := by
  obtain ⟨hst, hbg⟩ := tmsBtidAddupd_frame tl rmid btid rmNull 0 0
  rw [tmsLogAddrm]
  split
  · exact Triple.pure (fun _ h => h)
  split
  · exact Triple.pure (fun _ h => h)
  dsimp only
  split
  · exact Triple.pure (fun _ h => h.same hst hbg)
  intro d hd
  have hkeep := Triple.bind (rmstatus_mem tl.txstage
    (tmsBtidAddupd tl rmid btid rmNull 0 0).2.1 (if noStartXid then rmUnknown else rmActive))
    (fun s => Triple.pure
      (a := (s.1, tmsUnlockEntry ((tmsBtidAddupd tl rmid btid rmNull 0 0).2.2.setBranch s.2)))
      (Q := fun r d => JournalOk (some r.2) d)
      (fun e he => (show JournalOk (some tl) e from ⟨he, hd.2⟩).same hst hbg))
  exact hkeep d hd.1

theorem tmsLogChrmstat_mem (tl : Tl) (rmid btid : Int) (rmstatus : Char) :
    Triple (JournalOk (some tl)) (tmsLogChrmstat tl rmid btid rmstatus)
      (fun r => JournalOk (some r.2)) Safe := by
  rw [tmsLogChrmstat]
  split
  · exact Triple.stop (fun _ h => h.1.safe)
  rename_i b hb
  split
  · exact Triple.pure (fun _ h => h)
  intro d hd
  have hkeep := Triple.bind (rmstatus_mem tl.txstage b rmstatus)
    (fun s => Triple.pure (a := (s.1, tmsUnlockEntry (tl.setBranch s.2)))
      (Q := fun r d => JournalOk (some r.2) d)
      (fun e he => (show JournalOk (some tl) e from ⟨he, hd.2⟩).same rfl rfl))
  exact hkeep d hd.1

section

variable (cfg : Config) (fuel : ℕ) (tl : Tl)

theorem tmTpabort_mem :
    Triple (JournalOk (some tl)) (tmTpabort cfg fuel tl) (fun e => JournalOk e.tl) Safe := by
  rw [tmTpabort]
  split
  · exact Triple.pure (fun _ h => h)
  rename_i hc
  have hs : tl.txstage = stageActive := by
    by_contra hne
    exact hc (Or.inr hne)
  intro d hd
  exact abortAndDrive_mem cfg fuel (Or.inl hs) d (hd.1.of_active hs)

theorem tmTpcommit_mem (cmtLogged : Bool) :
    Triple (JournalOk (some tl)) (tmTpcommit cfg fuel cmtLogged tl) (fun e => JournalOk e.tl)
      Safe := by
  rw [tmTpcommit]
  split
  · exact Triple.pure (fun _ h => h)
  rename_i hc
  have hs : tl.txstage = stageActive := by
    by_contra hne
    exact hc (Or.inr hne)
  have hlog := logStage_inv (K := Undecided) (B := fun op => op = .prepare) false
    Undecided Undecided (show tl.txstage ≠ stagePreparing by rw [hs]; decide) (fun _ hx => hx)
    (fun _ hx => hx) (fun x hx => by
      rw [apply_commit hx.not_abort]
      exact Or.inr rfl)
  intro d hd
  refine Triple.bind (hlog.crash (fun _ h =>
    .pending (h.mono (fun _ => Undecided.known) (fun _ hop => hop)))) ?_ d (hd.1.of_active hs)
  intro r
  obtain ⟨ok, tl'⟩ := r
  intro e he
  cases ok with
  | true =>
    have hst : tl'.txstage = stagePreparing := (he.2.2.2.1 rfl).1
    have hmem : MemOk tl'.txstage e := .undecided (Or.inr hst) he.1
    exact driveLoop_mem cfg .commit cmtLogged fuel tl' 0 (by rw [hst]; decide) e hmem
  | false =>
    have hst : tl'.txstage = stageActive :=
      ((he.2.2.2.2 rfl).2 (by rw [hs]; decide)).trans hs
    have habort : Triple (Inv Undecided (fun op => op = .prepare)) (do
        let e ← abortAndDrive cfg fuel tl'
        pure ⟨if e.ret = tpSucceed then tpeAbort else e.ret, e.tl⟩)
        (fun e : DriveEnd => JournalOk e.tl) Safe := by
      apply Triple.bind (abortAndDrive_mem cfg fuel (Or.inl hst))
      intro e
      exact Triple.pure (fun _ h => h)
    exact habort e he.1

theorem txToutCheck_mem :
    Triple (JournalOk (some tl)) (txToutCheck cfg fuel tl) (fun e => JournalOk e.tl) Safe := by
  rw [txToutCheck]
  split
  · rename_i hc
    intro d hd
    exact abortAndDrive_mem cfg fuel (Or.inl hc.2) d (hd.1.of_active hc.2)
  · exact Triple.pure (fun _ h => h)

theorem backgroundPass_mem :
    Triple (JournalOk (some tl)) (backgroundPass cfg fuel tl) (fun e => JournalOk e.tl) Safe := by
  rw [backgroundPass]
  split
  · rename_i hbg
    intro d hd
    exact driveLoop_mem cfg .commit false fuel tl 0 (hd.2 hbg) d hd.1
  · exact Triple.pure (fun _ h => h)

theorem tmCommittrans_mem :
    Triple (JournalOk (some tl)) (tmCommittrans cfg fuel tl) (fun e => JournalOk e.tl) Safe := by
  rw [tmCommittrans]
  split
  · exact Triple.pure (fun _ h => h)
  · rename_i hs
    have hs : tl.txstage = stageCommitting := by simpa using hs
    intro d hd
    exact driveLoop_mem cfg .commit false fuel tl 0 (by rw [hs]; decide) d hd.1

theorem serve_mem (api : Api) :
    Triple (JournalOk (some tl)) (serve cfg fuel tl api) (fun mem => JournalOk mem) Safe := by
  have hserve {prog : Prog Disk DriveEnd}
      (h : Triple (JournalOk (some tl)) prog (fun e => JournalOk e.tl) Safe) :
      Triple (JournalOk (some tl)) (do let e ← prog; pure e.tl) (fun mem => JournalOk mem)
        Safe := by
    apply Triple.bind h
    intro e
    exact Triple.pure (fun _ hd => hd)
  cases api with
  | register rmid btid noStartXid =>
    apply Triple.bind (tmsLogAddrm_mem tl rmid btid noStartXid)
    intro r
    exact Triple.pure (fun _ hd => hd)
  | report rmid btid rmstatus =>
    apply Triple.bind (tmsLogChrmstat_mem tl rmid btid rmstatus)
    intro r
    exact Triple.pure (fun _ hd => hd)
  | tpcommit cmtLogged => exact hserve (tmTpcommit_mem cfg fuel tl cmtLogged)
  | tpabort => exact hserve (tmTpabort_mem cfg fuel tl)
  | timeout => exact hserve (txToutCheck_mem cfg fuel tl)
  | background => exact hserve (backgroundPass_mem cfg fuel tl)
  | committrans => exact hserve (tmCommittrans_mem cfg fuel tl)

end

/-- A safe log is loaded as undecided, or as a stage that is in step with it. -/
theorem Safe.loaded {log : List Rec} (h : Safe d) (hlog : d.log = some log) :
    (Undecided (replayStage log) ∧
      ((Inv Undecided (fun op => op = .prepare) d) ∨ Inv Undecided (fun op => op ≠ .commit) d)) ∨
    ¬ Undecided (replayStage log) ∧ MemOk (replayStage log) d := by
  -- the log stands for one stage, so any fact about that stage is one about the log
  have hin {K K' : Int → Prop} {B : XaOp → Prop} (h : Inv K B d) (hx : K' (replayStage log)) :
      Inv K' B d := by
    refine ⟨?_, h.called⟩
    intro log' hlog'
    rw [hlog] at hlog'
    cases hlog'
    exact hx
  cases h with
  | pending h =>
    rcases h.log log hlog with hu | hp | ha | hc
    · exact Or.inl ⟨hu, Or.inl (hin h hu)⟩
    · refine Or.inr ⟨?_, .prepro hp h⟩
      rw [hp]
      decide
    · exact Or.inr ⟨fun hu => hu.not_abort ha, .abort ha (hin h (Or.inr ha)).no_commit⟩
    · refine Or.inr ⟨?_, .commit hc (hin h hc).no_rollback⟩
      rintro (hu | hu)
      · exact hc.ne.1 hu
      · exact hc.ne.2.1 hu
  | abort h =>
    rcases h.log log hlog with hu | ha
    · exact Or.inl ⟨hu, Or.inr (hin h hu)⟩
    · exact Or.inr ⟨fun hu => hu.not_abort ha, .abort ha h⟩
  | commit h =>
    have hc := h.log log hlog
    refine Or.inr ⟨?_, .commit hc h⟩
    rintro (hu | hu)
    · exact hc.ne.1 hu
    · exact hc.ne.2.1 hu

theorem takeOver_abort {B : XaOp → Prop} {tl : Tl} (hs : Undecided tl.txstage)
    (hB : ∀ op, B op → op ≠ .commit) :
    Triple (Inv Undecided B) (takeOver tl) (fun tl' => JournalOk (some tl')) Safe := by
  rw [takeOver, if_pos hs]
  apply Triple.bind (logAborting_mem (show Undecided {tl with isBackground := true}.txstage from hs) hB)
  intro r
  exact Triple.pure (fun _ hd => ⟨hd.1, fun _ => hd.2⟩)

theorem tmsLoadLogfile_mem : Triple Safe tmsLoadLogfile (fun mem => JournalOk mem) Safe := by
  apply Triple.bind (M := fun s d => s = d ∧ Safe d) (Triple.look (fun _ h => ⟨rfl, h⟩))
  intro s
  split
  · exact Triple.pure (fun _ h => h.2)
  rename_i tl htl
  obtain ⟨_, hlog, hread⟩ := Option.bind_eq_some_iff.mp htl
  have hst := readRecs_txstage hread
  have htake : Triple (fun d => s = d ∧ Safe d) (takeOver tl) (fun tl' => JournalOk (some tl'))
      Safe := by
    rintro d ⟨rfl, hd⟩
    rcases hd.loaded hlog with ⟨hu, hinv⟩ | ⟨hnu, hmem⟩
    · rw [← hst] at hu
      rcases hinv with hinv | hinv
      · exact takeOver_abort hu prepare_ne_commit _ hinv
      · exact takeOver_abort hu (fun _ hop => hop) _ hinv
    · rw [← hst] at hnu hmem
      rw [takeOver, if_neg hnu]
      exact ⟨hmem, fun _ he => hnu (Or.inl he)⟩
  apply Triple.bind htake
  intro tl'
  exact Triple.pure (fun _ h => h)

def SrvOk (s : Srv) : Prop := JournalOk s.mem s.disk

theorem JournalOk.safe {mem : Option Tl} (h : JournalOk mem d) : Safe d := by
  cases mem with
  | none => exact h
  | some => exact h.1.safe

theorem JournalOk.rest {mem : Option Tl} (h : JournalOk mem d) (as : List Answer) :
    JournalOk mem (d.rest as) := by
  cases mem with
  | none => exact Safe.rest h as
  | some => exact ⟨h.1.rest as, h.2⟩

theorem srvOk_of_triple {P : Disk → Prop} {prog : Prog Disk (Option Tl)}
    (h : Triple P prog (fun mem => JournalOk mem) Safe) (hd : P d) :
    SrvOk ⟨(prog d).1.join, (prog d).2⟩ := by
  have hr := h d hd
  generalize prog d = r at hr ⊢
  obtain ⟨_ | _, _⟩ := r
  · exact hr
  · exact hr

theorem srvStep_ok {s : Srv} (h : SrvOk s) (step : Step) : SrvOk (srvStep cfg fuel s step) := by
  obtain ⟨mem, _⟩ := s
  cases step with
  | serve api answers =>
    cases mem with
    | none => exact h
    | some tl => exact srvOk_of_triple (serve_mem cfg fuel tl api) (JournalOk.rest h answers)
  | crash => exact JournalOk.safe h
  | load answers =>
    cases mem with
    | none => exact srvOk_of_triple tmsLoadLogfile_mem (Safe.rest h answers)
    | some => exact h

theorem srvRun_ok {s : Srv} (h : SrvOk s) (steps : List Step) :
    SrvOk (srvRun cfg fuel s steps) := by
  induction steps generalizing s with
  | nil => exact h
  | cons step _ ih => exact ih (srvStep_ok cfg fuel h step)

theorem srvStart_ok (tmrmid tmnodeid tmsrvid txtout : Int) :
    SrvOk (srvStart tmrmid tmnodeid tmsrvid txtout) := by
  refine ⟨.undecided (Or.inl rfl) ⟨?_, ?_⟩, fun h => by cases h⟩
  · intro log hlog
    cases hlog
    exact Or.inl rfl
  · rintro op ⟨_, _, hmem⟩
    cases hmem

/-- No run of a transaction, with whatever answers, failures, crashes and restarts, has both an
`xa_commit` and an `xa_rollback` among its calls. -/
theorem no_mixed_outcome (cfg : Config) (fuel : ℕ) (tmrmid tmnodeid tmsrvid txtout : Int)
    (steps : List Step) :
    ¬ (Called .commit (srvRun cfg fuel (srvStart tmrmid tmnodeid tmsrvid txtout) steps).disk ∧
      Called .rollback (srvRun cfg fuel (srvStart tmrmid tmnodeid tmsrvid txtout) steps).disk) :=
  (srvRun_ok cfg fuel (srvStart_ok tmrmid tmnodeid tmsrvid txtout) steps).safe.not_mixed

end Endurox.Tms
