import Endurox.BaseCInt

/-! The tables that drive a distributed transaction (`xastates.c`, `xa_cmn.h`): what to call for
a branch, which status and which stage follow from the return code, and what a stage means. -/

namespace Endurox.Tms
open List

def stageNull : Int := 0
def stageActive : Int := 5
def stageAborting : Int := 20
def stageAbortedHazard : Int := 25
def stageAbortedHeuris : Int := 30
def stageAborted : Int := 35
def stageAbforgetting : Int := 36
def stageAbforgotHaz : Int := 37
def stageAbforgotHeu : Int := 38
def stagePreparing : Int := 40
def stagePrepro : Int := 41
def stageCommitting : Int := 50
def stageCommittedHazard : Int := 55
def stageCommittedHeuris : Int := 65
def stageCommitted : Int := 70
def stageComforgetting : Int := 80
def stageComforgotHaz : Int := 85
def stageComforgotHeu : Int := 87
def stageMaxNever : Int := 100
def stageMinNever : Int := -1

def rmNull : Char := '\x00'
def rmActive : Char := 'j'
def rmActAb : Char := 'k'
def rmPrep : Char := 'p'
def rmAborted : Char := 'a'
def rmAbforgetHaz : Char := 'e'
def rmAbforgetHeu : Char := 'f'
def rmUnknown : Char := 'u'
def rmAbortHeuris : Char := 'b'
def rmAbortHazard : Char := 'd'
def rmCommitted : Char := 'c'
def rmCommittedRo : Char := 'r'
def rmCommitHeuris : Char := 'h'
def rmCommitHazard : Char := 'z'
def rmComforgetHaz : Char := 'g'
def rmComforgetHeu : Char := 'l'

def xaOk : Int := 0
def xaRdonly : Int := 3
def xaRetry : Int := 4
def xaHeurmix : Int := 5
def xaHeurrb : Int := 6
def xaHeurcom : Int := 7
def xaHeurhaz : Int := 8
def xaRbbase : Int := 100
def xaRbend : Int := 107
def xaerRmerr : Int := -3
def xaerNota : Int := -4
def xaerRmfail : Int := -7
def intMin : Int := -2147483648
def intMax : Int := 2147483647

inductive XaOp where
  | nop
  | prepare
  | commit
  | rollback
  | forget
  deriving DecidableEq, Repr

structure RmStatusDriver where
  txstage : Int
  rmstatus : Char
  op : XaOp
  minRetcode : Int
  maxRetcode : Int
  nextRmstatus : Char
  nextTxstage : Int

def rmStatusDriverPreparing : List RmStatusDriver := [
  ⟨stagePreparing, rmActive, .prepare, xaOk, xaOk, rmPrep, stageCommitting⟩,
  ⟨stagePreparing, rmActive, .prepare, xaRdonly, xaRdonly, rmCommittedRo, stageCommitting⟩,
  ⟨stagePreparing, rmActive, .prepare, xaerNota, xaerNota, rmAborted, stageAborting⟩,
  ⟨stagePreparing, rmActive, .prepare, xaRbbase, xaRbend, rmAborted, stageAborting⟩,
  ⟨stagePreparing, rmActive, .prepare, intMin, intMax, rmActAb, stageAborting⟩,
  ⟨stagePreparing, rmPrep, .nop, xaOk, xaOk, rmPrep, stageCommitting⟩,
  ⟨stagePreparing, rmActAb, .nop, xaOk, xaOk, rmActAb, stageAborting⟩,
  ⟨stagePreparing, rmAborted, .nop, xaOk, xaOk, rmAborted, stageAborting⟩,
  ⟨stagePreparing, rmCommittedRo, .nop, xaOk, xaOk, rmCommittedRo, stageCommitting⟩]

def rmStatusDriverCommitting : List RmStatusDriver := [
  ⟨stageCommitting, rmPrep, .commit, xaOk, xaOk, rmCommitted, stageCommitted⟩,
  ⟨stageCommitting, rmPrep, .commit, xaerRmerr, xaerRmerr, rmCommitHeuris, stageCommittedHeuris⟩,
  ⟨stageCommitting, rmPrep, .commit, xaerRmfail, xaerRmfail, rmPrep, stageCommitting⟩,
  ⟨stageCommitting, rmPrep, .commit, xaRetry, xaRetry, rmPrep, stageCommitting⟩,
  ⟨stageCommitting, rmPrep, .commit, xaHeurhaz, xaHeurhaz, rmComforgetHaz, stageComforgetting⟩,
  ⟨stageCommitting, rmPrep, .commit, xaHeurcom, xaHeurcom, rmComforgetHeu, stageComforgetting⟩,
  ⟨stageCommitting, rmPrep, .commit, xaHeurrb, xaHeurrb, rmComforgetHeu, stageComforgetting⟩,
  ⟨stageCommitting, rmPrep, .commit, xaHeurmix, xaHeurmix, rmComforgetHeu, stageComforgetting⟩,
  ⟨stageCommitting, rmPrep, .commit, xaRbbase, xaRbend, rmAborted, stageCommittedHeuris⟩,
  ⟨stageCommitting, rmPrep, .commit, intMin, intMax, rmCommitted, stageCommitted⟩,
  ⟨stageCommitting, rmCommitHeuris, .nop, xaOk, xaOk, rmCommitHeuris, stageCommittedHeuris⟩,
  ⟨stageCommitting, rmAborted, .nop, xaOk, xaOk, rmAborted, stageCommittedHeuris⟩,
  ⟨stageCommitting, rmCommitHazard, .nop, xaOk, xaOk, rmCommitHazard, stageCommittedHazard⟩,
  ⟨stageCommitting, rmComforgetHaz, .nop, xaOk, xaOk, rmComforgetHaz, stageComforgetting⟩,
  ⟨stageCommitting, rmComforgetHeu, .nop, xaOk, xaOk, rmComforgetHeu, stageComforgetting⟩]

def rmStatusDriverComforgetting : List RmStatusDriver := [
  ⟨stageComforgetting, rmComforgetHaz, .forget, xaOk, xaOk, rmCommitHazard, stageComforgotHaz⟩,
  ⟨stageComforgetting, rmComforgetHeu, .forget, xaOk, xaOk, rmCommitHeuris, stageComforgotHeu⟩,
  ⟨stageComforgetting, rmComforgetHaz, .forget, xaerRmfail, xaerRmfail, rmComforgetHaz,
    stageComforgetting⟩,
  ⟨stageComforgetting, rmComforgetHeu, .forget, xaerRmfail, xaerRmfail, rmComforgetHeu,
    stageComforgetting⟩,
  ⟨stageComforgetting, rmComforgetHaz, .forget, intMin, intMax, rmCommitHazard, stageComforgotHaz⟩,
  ⟨stageComforgetting, rmComforgetHeu, .forget, intMin, intMax, rmCommitHeuris, stageComforgotHeu⟩,
  ⟨stageComforgetting, rmCommitHazard, .nop, xaOk, xaOk, rmCommitHazard, stageComforgotHaz⟩,
  ⟨stageComforgetting, rmCommitHeuris, .nop, xaOk, xaOk, rmCommitHeuris, stageComforgotHeu⟩]

def rmStatusDriverAborting : List RmStatusDriver := [
  ⟨stageAborting, rmActAb, .rollback, xaOk, xaOk, rmAborted, stageAborted⟩,
  ⟨stageAborting, rmActive, .rollback, xaOk, xaOk, rmAborted, stageAborted⟩,
  ⟨stageAborting, rmPrep, .rollback, xaOk, xaOk, rmAborted, stageAborted⟩,
  ⟨stageAborting, rmCommittedRo, .nop, xaOk, xaOk, rmAborted, stageAborted⟩,
  ⟨stageAborting, rmActAb, .rollback, xaRdonly, xaRdonly, rmAborted, stageAborted⟩,
  ⟨stageAborting, rmActive, .rollback, xaRdonly, xaRdonly, rmAborted, stageAborted⟩,
  ⟨stageAborting, rmPrep, .rollback, xaRdonly, xaRdonly, rmAborted, stageAborted⟩,
  ⟨stageAborting, rmActAb, .rollback, xaHeurhaz, xaHeurhaz, rmAbforgetHaz, stageAbforgetting⟩,
  ⟨stageAborting, rmActive, .rollback, xaHeurhaz, xaHeurhaz, rmAbforgetHaz, stageAbforgetting⟩,
  ⟨stageAborting, rmPrep, .rollback, xaHeurhaz, xaHeurhaz, rmAbforgetHaz, stageAbforgetting⟩,
  ⟨stageAborting, rmActAb, .rollback, xaHeurrb, xaHeurrb, rmAbforgetHeu, stageAbforgetting⟩,
  ⟨stageAborting, rmActive, .rollback, xaHeurrb, xaHeurrb, rmAbforgetHeu, stageAbforgetting⟩,
  ⟨stageAborting, rmPrep, .rollback, xaHeurrb, xaHeurrb, rmAbforgetHeu, stageAbforgetting⟩,
  ⟨stageAborting, rmActAb, .rollback, xaHeurcom, xaHeurcom, rmAbforgetHeu, stageAbforgetting⟩,
  ⟨stageAborting, rmActive, .rollback, xaHeurcom, xaHeurcom, rmAbforgetHeu, stageAbforgetting⟩,
  ⟨stageAborting, rmPrep, .rollback, xaHeurcom, xaHeurcom, rmAbforgetHeu, stageAbforgetting⟩,
  ⟨stageAborting, rmActAb, .rollback, xaHeurmix, xaHeurmix, rmAbforgetHeu, stageAbforgetting⟩,
  ⟨stageAborting, rmActive, .rollback, xaHeurmix, xaHeurmix, rmAbforgetHeu, stageAbforgetting⟩,
  ⟨stageAborting, rmPrep, .rollback, xaHeurmix, xaHeurmix, rmAbforgetHeu, stageAbforgetting⟩,
  ⟨stageAborting, rmActAb, .rollback, xaerRmfail, xaerRmfail, rmActAb, stageAborting⟩,
  ⟨stageAborting, rmActive, .rollback, xaerRmfail, xaerRmfail, rmActive, stageAborting⟩,
  ⟨stageAborting, rmPrep, .rollback, xaerRmfail, xaerRmfail, rmPrep, stageAborting⟩,
  ⟨stageAborting, rmActAb, .rollback, xaerNota, xaerNota, rmAborted, stageAborted⟩,
  ⟨stageAborting, rmActive, .rollback, xaerNota, xaerNota, rmAborted, stageAborted⟩,
  ⟨stageAborting, rmPrep, .rollback, xaerNota, xaerNota, rmAborted, stageAborted⟩,
  ⟨stageAborting, rmActAb, .rollback, intMin, intMax, rmAborted, stageAborted⟩,
  ⟨stageAborting, rmActive, .rollback, intMin, intMax, rmAborted, stageAborted⟩,
  ⟨stageAborting, rmPrep, .rollback, intMin, intMax, rmAborted, stageAborted⟩,
  ⟨stageAborting, rmAbforgetHeu, .nop, xaOk, xaOk, rmAbforgetHeu, stageAbforgetting⟩,
  ⟨stageAborting, rmAbforgetHaz, .nop, xaOk, xaOk, rmAbforgetHaz, stageAbforgetting⟩]

def rmStatusDriverAbforgetting : List RmStatusDriver := [
  ⟨stageAbforgetting, rmAbforgetHaz, .forget, xaOk, xaOk, rmAbortHazard, stageAbforgotHaz⟩,
  ⟨stageAbforgetting, rmAbforgetHeu, .forget, xaOk, xaOk, rmAbortHeuris, stageAbforgotHeu⟩,
  ⟨stageAbforgetting, rmAbforgetHaz, .forget, xaerRmfail, xaerRmfail, rmAbforgetHaz,
    stageAbforgetting⟩,
  ⟨stageAbforgetting, rmAbforgetHeu, .forget, xaerRmfail, xaerRmfail, rmAbforgetHeu,
    stageAbforgetting⟩,
  ⟨stageAbforgetting, rmAbforgetHaz, .forget, intMin, intMax, rmAbortHazard, stageAbforgotHaz⟩,
  ⟨stageAbforgetting, rmAbforgetHeu, .forget, intMin, intMax, rmAbortHeuris, stageAbforgotHeu⟩,
  ⟨stageAbforgetting, rmAbortHazard, .nop, xaOk, xaOk, rmAbortHazard, stageAbforgotHaz⟩,
  ⟨stageAbforgetting, rmAbortHeuris, .nop, xaOk, xaOk, rmAbortHeuris, stageAbforgotHeu⟩]

structure TxactionDriver where
  txstage : Int
  rmstatus : Char
  op : XaOp

def txactionDriver : List TxactionDriver := [
  ⟨stagePreparing, rmActive, .prepare⟩,
  ⟨stageCommitting, rmPrep, .commit⟩,
  ⟨stageAborting, rmActive, .rollback⟩,
  ⟨stageAborting, rmActAb, .rollback⟩,
  ⟨stageAborting, rmPrep, .rollback⟩,
  ⟨stageComforgetting, rmComforgetHaz, .forget⟩,
  ⟨stageComforgetting, rmComforgetHeu, .forget⟩,
  ⟨stageAbforgetting, rmAbforgetHaz, .forget⟩,
  ⟨stageAbforgetting, rmAbforgetHeu, .forget⟩]

structure TxstageDescriptor where
  txstage : Int
  txsStageMin : Int
  txsMinComplete : Int
  txsMaxComplete : Int
  allowJump : Bool
  deriving DecidableEq

def stateDescriptor : List TxstageDescriptor := [
  ⟨stageNull, stageNull, stageNull, stageNull, false⟩,
  ⟨stageActive, stageNull, stageNull, stageNull, false⟩,
  ⟨stageAborting, stageAborting, stageAbortedHazard, stageAborted, false⟩,
  ⟨stageAbortedHazard, stageAbortedHazard, stageAbortedHazard, stageAbortedHazard, false⟩,
  ⟨stageAbortedHeuris, stageAbortedHeuris, stageAbortedHeuris, stageAbortedHeuris, false⟩,
  ⟨stageAborted, stageAborted, stageAborted, stageAborted, false⟩,
  ⟨stagePreparing, stagePreparing, stagePrepro, stagePrepro, true⟩,
  ⟨stagePrepro, stagePrepro, stagePrepro, stagePrepro, false⟩,
  ⟨stageCommitting, stageCommitting, stageCommittedHazard, stageCommitted, false⟩,
  ⟨stageCommittedHazard, stageCommittedHazard, stageCommittedHazard, stageCommittedHazard, false⟩,
  ⟨stageCommittedHeuris, stageCommittedHeuris, stageCommittedHeuris, stageCommittedHeuris, false⟩,
  ⟨stageCommitted, stageCommitted, stageCommitted, stageCommitted, false⟩,
  ⟨stageComforgetting, stageComforgetting, stageComforgotHaz, stageComforgotHeu, false⟩,
  ⟨stageComforgotHaz, stageComforgotHaz, stageComforgotHaz, stageComforgotHaz, false⟩,
  ⟨stageComforgotHeu, stageComforgotHeu, stageComforgotHeu, stageComforgotHeu, false⟩,
  ⟨stageAbforgetting, stageAbforgetting, stageAbforgotHaz, stageAbforgotHeu, false⟩,
  ⟨stageAbforgotHaz, stageAbforgotHaz, stageAbforgotHaz, stageAbforgotHaz, false⟩,
  ⟨stageAbforgotHeu, stageAbforgotHeu, stageAbforgotHeu, stageAbforgotHeu, false⟩]

def tpSucceed : Int := 0
def tpeAbort : Int := 1
def tpeInval : Int := 4
def tpeProto : Int := 9
def tpeSystem : Int := 12
def tpeHazard : Int := 20
def tpeHeuristic : Int := 21

structure Txstate2Tperrno where
  txstage : Int
  masterOp : XaOp
  tpe : Int

def txstage2tperrno : List Txstate2Tperrno := [
  ⟨stageNull, .commit, tpeSystem⟩,
  ⟨stageActive, .commit, tpeSystem⟩,
  ⟨stageAborting, .commit, tpeAbort⟩,
  ⟨stageAbortedHazard, .commit, tpeAbort⟩,
  ⟨stageAbortedHeuris, .commit, tpeAbort⟩,
  ⟨stageAborted, .commit, tpeAbort⟩,
  ⟨stagePreparing, .commit, tpeSystem⟩,
  ⟨stagePrepro, .commit, tpSucceed⟩,
  ⟨stageCommitting, .commit, tpeHazard⟩,
  ⟨stageCommittedHazard, .commit, tpeHazard⟩,
  ⟨stageCommittedHeuris, .commit, tpeHeuristic⟩,
  ⟨stageCommitted, .commit, tpSucceed⟩,
  ⟨stageComforgetting, .commit, tpeHazard⟩,
  ⟨stageComforgotHaz, .commit, tpeHazard⟩,
  ⟨stageComforgotHeu, .commit, tpeHeuristic⟩,
  ⟨stageAbforgetting, .commit, tpeHazard⟩,
  ⟨stageAbforgotHaz, .commit, tpeAbort⟩,
  ⟨stageAbforgotHeu, .commit, tpeAbort⟩,
  ⟨stageNull, .rollback, tpeSystem⟩,
  ⟨stageActive, .rollback, tpeSystem⟩,
  ⟨stageAborting, .rollback, tpeHazard⟩,
  ⟨stageAbortedHazard, .rollback, tpeHazard⟩,
  ⟨stageAbortedHeuris, .rollback, tpeHeuristic⟩,
  ⟨stageAborted, .rollback, tpSucceed⟩,
  ⟨stagePreparing, .rollback, tpeSystem⟩,
  ⟨stagePrepro, .rollback, tpeSystem⟩,
  ⟨stageCommitting, .rollback, tpeHazard⟩,
  ⟨stageCommittedHazard, .rollback, tpeHazard⟩,
  ⟨stageCommittedHeuris, .rollback, tpeHeuristic⟩,
  ⟨stageCommitted, .rollback, tpeHeuristic⟩,
  ⟨stageComforgetting, .rollback, tpeHazard⟩,
  ⟨stageComforgotHaz, .rollback, tpeHazard⟩,
  ⟨stageComforgotHeu, .rollback, tpeHeuristic⟩,
  ⟨stageAbforgetting, .rollback, tpeHazard⟩,
  ⟨stageAbforgotHaz, .rollback, tpeHazard⟩,
  ⟨stageAbforgotHeu, .rollback, tpeHeuristic⟩]

def opTable (txstage : Int) : List RmStatusDriver :=
  if txstage = stagePreparing then rmStatusDriverPreparing
  else if txstage = stageCommitting then rmStatusDriverCommitting
  else if txstage = stageAborting then rmStatusDriverAborting
  else if txstage = stageComforgetting then rmStatusDriverComforgetting
  else if txstage = stageAbforgetting then rmStatusDriverAbforgetting
  else []

def xaStatusGetNextByOp (txstage : Int) (rmstatus : Char) (op : XaOp) (opRetcode : Int) :
    Option RmStatusDriver :=
  (opTable txstage).find? (fun r => r.txstage = txstage ∧ r.rmstatus = rmstatus ∧ r.op = op ∧
    r.minRetcode ≤ opRetcode ∧ opRetcode ≤ r.maxRetcode)

def xaStatusGetNextByNewStatus (txstage : Int) (nextRmstatus : Char) : Option RmStatusDriver :=
  (opTable txstage).find? (fun r => r.txstage = txstage ∧ r.nextRmstatus = nextRmstatus)

def xaStatusGetOp (txstage : Int) (rmstatus : Char) : XaOp :=
  match txactionDriver.find? (fun r => r.txstage = txstage ∧ r.rmstatus = rmstatus) with
  | some r => r.op
  | none => .nop

def xaStageGetDescr (txstage : Int) : Option TxstageDescriptor :=
  stateDescriptor.find? (fun d => d.txstage = txstage)

def xaTxstage2tperrno (txstage : Int) (masterOp : XaOp) : Int :=
  match txstage2tperrno.find? (fun r => r.txstage = txstage ∧ r.masterOp = masterOp) with
  | some r => r.tpe
  | none => tpeSystem

def AbortSide (s : Int) : Prop := stageAborting ≤ s ∧ s ≤ stageAbforgotHeu

def CommitSide (s : Int) : Prop := stageCommitting ≤ s

def Undecided (s : Int) : Prop := s = stageActive ∨ s = stagePreparing

instance (s : Int) : Decidable (AbortSide s) := inferInstanceAs (Decidable (_ ∧ _))
instance (s : Int) : Decidable (CommitSide s) := inferInstanceAs (Decidable (_ ≤ _))
instance (s : Int) : Decidable (Undecided s) := inferInstanceAs (Decidable (_ ∨ _))

variable {s : Int} {c : Char}

theorem xaStatusGetOp_row {op : XaOp} (h : xaStatusGetOp s c = op) (hop : op ≠ .nop) :
    ∃ r ∈ txactionDriver, r.txstage = s ∧ r.rmstatus = c ∧ r.op = op := by
  rw [xaStatusGetOp] at h
  split at h
  · rename_i r hr
    have hrow := find?_some hr
    rw [decide_eq_true_eq] at hrow
    exact ⟨r, mem_of_find?_eq_some hr, hrow.1, hrow.2, h⟩
  · exact absurd h.symm hop

/-- Every call that a state makes has a row for any return code. -/
theorem call_has_row (hop : xaStatusGetOp s c ≠ .nop) (code : Base.CInt) :
    ∃ r, xaStatusGetNextByOp s c (xaStatusGetOp s c) code.val = some r := by
  obtain ⟨a, ha, rfl, rfl, hrop⟩ := xaStatusGetOp_row rfl hop
  have htable : ∀ a ∈ txactionDriver, ∃ r ∈ opTable a.txstage, r.txstage = a.txstage ∧
      r.rmstatus = a.rmstatus ∧ r.op = a.op ∧ r.minRetcode = intMin ∧ r.maxRetcode = intMax := by
    decide
  obtain ⟨r, hr, hs, hc, hop, hlo, hhi⟩ := htable a ha
  have hcode := code.property
  rw [← hrop]
  apply Option.isSome_iff_exists.mp
  rw [xaStatusGetNextByOp, find?_isSome]
  refine ⟨r, hr, ?_⟩
  rw [decide_eq_true_eq, hlo, hhi]
  exact ⟨hs, hc, hop, hcode.1, Int.lt_add_one_iff.mp hcode.2⟩

theorem stage_of_commit (h : xaStatusGetOp s c = .commit) : s = stageCommitting := by
  obtain ⟨r, hr, hs, -, hop⟩ := xaStatusGetOp_row h (by decide)
  have htable : ∀ r ∈ txactionDriver, r.op = .commit → r.txstage = stageCommitting := by decide
  rw [← hs]
  exact htable r hr hop

theorem stage_of_rollback (h : xaStatusGetOp s c = .rollback) : s = stageAborting := by
  obtain ⟨r, hr, hs, -, hop⟩ := xaStatusGetOp_row h (by decide)
  have htable : ∀ r ∈ txactionDriver, r.op = .rollback → r.txstage = stageAborting := by decide
  rw [← hs]
  exact htable r hr hop

def Votes (s v : Int) : Prop := ∃ r ∈ opTable s, r.nextTxstage = v

theorem vote_by_op {op : XaOp} {code : Int} {r : RmStatusDriver}
    (h : xaStatusGetNextByOp s c op code = some r) : Votes s r.nextTxstage :=
  ⟨r, mem_of_find?_eq_some h, rfl⟩

theorem vote_by_new_status {r : RmStatusDriver} (h : xaStatusGetNextByNewStatus s c = some r) :
    Votes s r.nextTxstage :=
  ⟨r, mem_of_find?_eq_some h, rfl⟩

variable {v : Int}

theorem Votes.stage (h : Votes s v) :
    s ∈ [stagePreparing, stageCommitting, stageAborting, stageComforgetting, stageAbforgetting] := by
  obtain ⟨_, hr, -⟩ := h
  by_contra hne
  simp only [mem_cons, not_mem_nil, or_false, not_or] at hne
  rw [opTable, if_neg hne.1, if_neg hne.2.1, if_neg hne.2.2.1, if_neg hne.2.2.2.1,
    if_neg hne.2.2.2.2] at hr
  cases hr

theorem votes_preparing (h : Votes stagePreparing v) : v = stageCommitting ∨ v = stageAborting := by
  obtain ⟨r, hr, rfl⟩ := h
  have htable : ∀ r ∈ opTable stagePreparing,
      r.nextTxstage = stageCommitting ∨ r.nextTxstage = stageAborting := by decide
  exact htable r hr

theorem Votes.keeps {P : Int → Int → Prop} (h : Votes s v)
    (htable : ∀ s ∈ [stagePreparing, stageCommitting, stageAborting, stageComforgetting,
      stageAbforgetting], ∀ r ∈ opTable s, P s r.nextTxstage) : P s v := by
  have hs := h.stage
  obtain ⟨r, hr, rfl⟩ := h
  exact htable s hs r hr

theorem CommitSide.vote (hs : CommitSide s) (h : Votes s v) : CommitSide v :=
  h.keeps (P := fun s v => CommitSide s → CommitSide v) (by decide) hs

theorem AbortSide.vote (hs : AbortSide s) (h : Votes s v) : AbortSide v :=
  h.keeps (P := fun s v => AbortSide s → AbortSide v) (by decide) hs

theorem Votes.lt (h : Votes s v) : v < stageMaxNever :=
  h.keeps (P := fun _ v => v < stageMaxNever) (by decide)

theorem xaStageGetDescr_mem {d : TxstageDescriptor} (h : xaStageGetDescr s = some d) :
    d ∈ stateDescriptor ∧ d.txstage = s := by
  have hrow := find?_some h
  rw [decide_eq_true_eq] at hrow
  exact ⟨mem_of_find?_eq_some h, hrow⟩

theorem complete_side : ∀ d ∈ stateDescriptor, (CommitSide d.txstage → CommitSide d.txsMaxComplete) ∧
    (AbortSide d.txstage → AbortSide d.txsMaxComplete) ∧
    (d.txstage = stagePreparing → d.txsMaxComplete = stagePrepro) ∧
    (d.txstage = stagePrepro → d.txsMaxComplete = stagePrepro) := by
  decide

end Endurox.Tms
