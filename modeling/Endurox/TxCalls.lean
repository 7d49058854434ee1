import Mathlib.Tactic.Cases
import Mathlib.Tactic.Common

/-! The TX calls that end a transaction, `tx_commit` and `tx_rollback`, over the `tp` calls they
are made of. The answers of the transaction manager and of the resource manager's switch are the
environment `Env`; the library is taken as initialised. -/

namespace Endurox.Tx

inductive TpErr
  | tpeabort | tpebaddesc | tpeblock | tpeinval | tpelimit | tpenoent | tpeos | tpeperm | tpeproto
  | tpesvcerr | tpesvcfail | tpesystem | tpetime | tpetran | tpgotsig | tpermerr | tpeitype
  | tpeotype | tperelease | tpehazard | tpeheuristic | tpeevent | tpematch | tpediagnostic | tpemib
  deriving DecidableEq

def txOk : Int := 0
def txRollbackRc : Int := -2
def txMixed : Int := -3
def txHazard : Int := -4
def txProtocolError : Int := -5
def txError : Int := -6
def txFail : Int := -7
def txNoBegin : Int := -100

structure TxInfo where
  initiator : Bool
  axregCld : Bool
  callCds : Bool
  convCds : Bool
  abortOnly : Bool
  deriving DecidableEq

inductive TransactionControl
  | unchained | chained
  deriving DecidableEq

inductive CommitReturn
  | completed | decisionLogged
  deriving DecidableEq

structure Client where
  isXaOpen : Bool
  txinfo : Option TxInfo
  txTransactionControl : TransactionControl
  txCommitReturn : CommitReturn
  txTransactionTimeout : ℕ
  deriving DecidableEq

/-- What comes back during one call: of `xa_end` and `xa_start` whether they succeed and of the
first also the error it leaves set, of the transaction manager the error in its answer to the
commit or abort and to the begin, and whether the begun transaction can be read from it. -/
structure Env where
  isDynamicReg : Bool
  xaEnd : Bool
  xaEndErr : Option TpErr
  tmEnd : Option TpErr
  tmBegin : Option TpErr
  readTxInfo : Bool
  xaStart : Bool

inductive Request
  | begin (timeout : ℕ)
  | commit (flags : ℕ)
  | abort
  deriving DecidableEq

structure TpResult where
  err : Option TpErr
  client : Client
  sent : List Request

def setError (cur : Option TpErr) (e : TpErr) : Option TpErr :=
  match cur with
  | none => some e
  | some e' => some e'

def tptxcommitdlog : ℕ := 4

/-- `ndrx_tpabort` with the error `err` set before. Whether `xa_end` is called first makes no
difference: what it returns is only logged. -/
def ndrxTpabort (env : Env) (c : Client) (flags : ℕ) (err : Option TpErr) : TpResult :=
  if !c.isXaOpen then ⟨setError err .tpeproto, c, []⟩
  else if flags ≠ 0 then ⟨setError err .tpeinval, c, []⟩
  else match c.txinfo with
  | none => ⟨setError err .tpeproto, c, []⟩
  | some t =>
    if !t.initiator then ⟨setError err .tpeproto, c, []⟩
    else ⟨env.tmEnd, {c with txinfo := none}, [.abort]⟩

def callsXaEnd (env : Env) (t : TxInfo) : Bool := !env.isDynamicReg || t.axregCld

def doAbort (env : Env) (t : TxInfo) : Bool :=
  t.callCds || t.convCds || t.abortOnly || (callsXaEnd env t && !env.xaEnd)

def ndrxTpcommit (env : Env) (c : Client) (flags : ℕ) : TpResult :=
  if !c.isXaOpen then ⟨some .tpeproto, c, []⟩
  else if flags ≠ 0 ∧ flags &&& tptxcommitdlog = 0 then ⟨some .tpeinval, c, []⟩
  else match c.txinfo with
  | none => ⟨some .tpeproto, c, []⟩
  | some t =>
    if !t.initiator && !t.axregCld then ⟨some .tpeproto, c, []⟩
    else if doAbort env t then
      let r := ndrxTpabort env c 0 (if callsXaEnd env t then env.xaEndErr else none)
      if r.err = none ∨ r.err = some .tpeproto then ⟨some .tpeabort, r.client, r.sent⟩ else r
    else
      let flags := if c.txCommitReturn = .decisionLogged then flags ||| tptxcommitdlog else flags
      ⟨env.tmEnd, {c with txinfo := none}, [.commit flags]⟩

def ndrxTpbegin (env : Env) (c : Client) (timeout flags : ℕ) : TpResult :=
  if !c.isXaOpen then ⟨some .tpeproto, c, []⟩
  else if flags ≠ 0 then ⟨some .tpeinval, c, []⟩
  else if c.txinfo.isSome then ⟨some .tpeproto, c, []⟩
  else match env.tmBegin with
  | some e => ⟨some e, c, [.begin timeout]⟩
  | none =>
    if !env.readTxInfo then ⟨some .tpeproto, c, [.begin timeout]⟩
    else if !env.isDynamicReg && !env.xaStart then ⟨some .tpermerr, c, [.begin timeout, .abort]⟩
    else ⟨none, {c with txinfo := some ⟨true, false, false, false, false⟩}, [.begin timeout]⟩

def txMapError1 (tperr : Option TpErr) (allowError : Bool) : Int :=
  match tperr with
  | none => txOk
  | some .tpeproto => txProtocolError
  | some .tpesvcfail | some .tpesvcerr | some .tpetime => if allowError then txError else txFail
  | some .tpesystem | some .tpeos | some .tpermerr | some .tpeinval => txFail
  | some .tpehazard => txHazard
  | some .tpeheuristic => txMixed
  | some .tpematch | some .tpeabort => txRollbackRc
  | some _ => txFail

structure Returned where
  ret : Option Int
  client : Client
  sent : List Request

/-- The chaining at the end of `tx_commit` and `tx_rollback`: `ret` is overwritten with `ret2`. -/
def chainNext (env : Env) (r : TpResult) : Returned :=
  let ret := txMapError1 r.err false
  if r.client.txTransactionControl = .chained then
    if ret = txProtocolError ∨ ret = txFail then ⟨none, r.client, r.sent⟩
    else
      let b := ndrxTpbegin env r.client r.client.txTransactionTimeout 0
      let ret2 := txMapError1 b.err true
      ⟨some (if ret2 ≠ txOk then ret2+txNoBegin else ret2), b.client, r.sent ++ b.sent⟩
  else ⟨some ret, r.client, r.sent⟩

def commitFlags (c : Client) : ℕ := if c.txCommitReturn = .decisionLogged then tptxcommitdlog else 0

def txCommit (env : Env) (c : Client) : Returned :=
  chainNext env (ndrxTpcommit env c (commitFlags c))

def txRollback (env : Env) (c : Client) : Returned :=
  chainNext env (ndrxTpabort env c 0 none)

def named : Option TpErr → Int
  | none => txOk
  | some .tpeabort | some .tpematch => txRollbackRc
  | some .tpeheuristic => txMixed
  | some .tpehazard => txHazard
  | some .tpeproto => txProtocolError
  | some _ => txFail

/-- How the transaction ended, by what was asked and answered. An abort that is sent in place of
the commit has rolled the transaction back also where the manager no longer knows it. Where nothing
was asked the call is out of place and nothing has ended. -/
def outcome (sent : List Request) (answer : Option TpErr) (inPlaceOfCommit : Bool) : Int :=
  match sent with
  | .commit _ :: _ => named answer
  | .abort :: _ =>
    if inPlaceOfCommit ∧ (answer = none ∨ answer = some .tpeproto) then txRollbackRc else named answer
  | _ => txProtocolError

def Chains (code : Int) : Prop := code ≠ txProtocolError ∧ code ≠ txFail

instance (code : Int) : Decidable (Chains code) := inferInstanceAs (Decidable (_ ∧ _))

/-- The returned value is determined and is the outcome, with `TX_NO_BEGIN` added where the next
transaction should have been started and was not. -/
def Reports (c : Client) (code : Int) (r : Returned) : Prop :=
  r.ret = some (code + if c.txTransactionControl = .chained ∧ Chains code ∧ r.client.txinfo = none
    then txNoBegin else 0)

def CommitReports (env : Env) (c : Client) : Prop :=
  Reports c (outcome (txCommit env c).sent env.tmEnd true) (txCommit env c)

def RollbackReports (env : Env) (c : Client) : Prop :=
  Reports c (outcome (txRollback env c).sent env.tmEnd false) (txRollback env c)

def beginCode (env : Env) : Int :=
  match env.tmBegin with
  | some e => txMapError1 (some e) true
  | none =>
    if !env.readTxInfo then txProtocolError
    else if !env.isDynamicReg && !env.xaStart then txFail
    else txOk

/-- In chained mode the answers to the end and to the begin have to come to one code. -/
def ChainFits (env : Env) (c : Client) (code : Int) : Prop :=
  c.txTransactionControl = .unchained ∨ (Chains code ∧ beginCode env = code)

def commitCode (env : Env) (c : Client) : Int :=
  match c.txinfo with
  | none => txProtocolError
  | some t =>
    if !c.isXaOpen ∨ (!t.initiator ∧ !t.axregCld) then txProtocolError
    else if doAbort env t ∧ (env.tmEnd = none ∨ env.tmEnd = some .tpeproto) then txRollbackRc
    else named env.tmEnd

def rollbackCode (env : Env) (c : Client) : Int :=
  match c.txinfo with
  | none => txProtocolError
  | some t => if !c.isXaOpen ∨ !t.initiator then txProtocolError else named env.tmEnd

/-- A commit of a transaction the process has only joined is turned into an abort, which the
process may not make. -/
def JoinedAbort (env : Env) (c : Client) : Prop :=
  c.isXaOpen = true ∧ ∃ t, c.txinfo = some t ∧ t.initiator = false ∧ t.axregCld = true ∧
    doAbort env t = true

theorem txMapError1_false (e : Option TpErr) : txMapError1 e false = named e := by
  cases e with
  | none => rfl
  | some e => cases e <;> rfl

theorem txMapError1_ne_ok (e : TpErr) (allowError : Bool) : txMapError1 (some e) allowError ≠ txOk := by
  cases e <;> cases allowError <;> decide

section

variable {env : Env} {c : Client} {r : TpResult}

theorem begin_after (hopen : c.isXaOpen = true) (hnone : c.txinfo = none) (timeout : ℕ) :
    txMapError1 (ndrxTpbegin env c timeout 0).err true = beginCode env ∧
      ((ndrxTpbegin env c timeout 0).client.txinfo = none ↔ beginCode env ≠ txOk) := by
  rw [ndrxTpbegin, hopen, hnone, if_neg (by decide), if_neg (by decide), if_neg (by decide), beginCode]
  cases env.tmBegin with
  | some e => exact ⟨rfl, fun _ => txMapError1_ne_ok e true, fun _ => hnone⟩
  | none =>
    dsimp only
    split
    · exact ⟨rfl, fun _ => by decide, fun _ => hnone⟩
    · split
      · exact ⟨rfl, fun _ => by decide, fun _ => hnone⟩
      · exact ⟨rfl, ⟨fun h => (by cases h), fun h => absurd rfl h⟩⟩

theorem reports_ended (hopen : c.isXaOpen = true) (hcl : r.client = {c with txinfo := none}) :
    Reports c (named r.err) (chainNext env r) ↔ ChainFits env c (named r.err) := by
  have hctl : r.client.txTransactionControl = c.txTransactionControl := by rw [hcl]
  rw [Reports, ChainFits, chainNext, txMapError1_false, hctl]
  generalize named r.err = code
  cases hc : c.txTransactionControl with
  | unchained => simp
  | chained =>
    have hropen : r.client.isXaOpen = true := by
      rw [hcl]
      exact hopen
    have hrnone : r.client.txinfo = none := by rw [hcl]
    have hb := @begin_after env r.client hropen hrnone r.client.txTransactionTimeout
    generalize ndrxTpbegin env r.client r.client.txTransactionTimeout 0 = b at hb
    by_cases hchain : Chains code
    · have hfat : ¬ (code = txProtocolError ∨ code = txFail) := by
        rw [not_or]
        exact hchain
      simp only [if_true, hfat, if_false, hb.1, hb.2, hchain, true_and, reduceCtorEq, false_or,
        Option.some.injEq]
      by_cases hok : beginCode env = txOk
      · simp [hok]
      · simp only [ne_eq]
        omega
    · have hfat : code = txProtocolError ∨ code = txFail := by
        by_contra h
        exact hchain (not_or.mp h)
      simp [hfat, hchain]

/-- An error other than `TPEPROTO` with the transaction still there does not say that the call was
out of place. -/
theorem not_reports_joined {t : TxInfo} {e : TpErr} (herr : r.err = some e) (hne : e ≠ .tpeproto)
    (hcl : r.client = c) (ht : c.txinfo = some t) : ¬ Reports c txProtocolError (chainNext env r) := by
  have hchain : ¬ Chains txProtocolError := by decide
  have hmap : txMapError1 (some e) false ≠ txProtocolError := by cases e <;> first | decide | exact fun _ => hne rfl
  rw [Reports, chainNext, herr, hcl]
  cases hc : c.txTransactionControl with
  | unchained => simpa [hchain] using hmap
  | chained =>
    have hb : ∃ x, (ndrxTpbegin env c c.txTransactionTimeout 0).err = some x ∧ x = .tpeproto := by
      rw [ndrxTpbegin, ht]
      split
      · exact ⟨_, rfl, rfl⟩
      · exact ⟨_, rfl, rfl⟩
    obtain ⟨_, hx, rfl⟩ := hb
    simp only [if_true, hx, hchain, false_and]
    split
    · exact fun h => by cases h
    · intro h
      exact absurd (Option.some.inj h) (by decide)

/-- The next transaction of a chain does not change what the last one ended with. -/
theorem chainNext_sent (env : Env) (r : TpResult) (a : Option TpErr) (p : Bool) :
    (r.sent = [] → outcome (chainNext env r).sent a p = txProtocolError) ∧
      (r.sent = [.abort] → outcome (chainNext env r).sent a p = outcome [.abort] a p) ∧
      ∀ flags, r.sent = [.commit flags] → outcome (chainNext env r).sent a p = named a := by
  have hbegin (c : Client) (timeout : ℕ) : (ndrxTpbegin env c timeout 0).sent = [] ∨
      ∃ l, (ndrxTpbegin env c timeout 0).sent = .begin timeout :: l := by
    rw [ndrxTpbegin]
    split
    · exact .inl rfl
    rw [if_neg (by decide)]
    split
    · exact .inl rfl
    split
    · exact .inr ⟨_, rfl⟩
    · split
      · exact .inr ⟨_, rfl⟩
      · split
        · exact .inr ⟨_, rfl⟩
        · exact .inr ⟨_, rfl⟩
  have hsent : ∃ l, (chainNext env r).sent = r.sent ++ l ∧ (l = [] ∨ ∃ t l', l = .begin t :: l') := by
    rw [chainNext]
    split
    · split
      · exact ⟨[], (List.append_nil _).symm, .inl rfl⟩
      · refine ⟨_, rfl, ?_⟩
        rcases hbegin r.client r.client.txTransactionTimeout with h | ⟨l, h⟩
        · exact .inl h
        · exact .inr ⟨_, l, h⟩
    · exact ⟨[], (List.append_nil _).symm, .inl rfl⟩
  obtain ⟨_, hl, hcase⟩ := hsent
  rw [hl]
  refine ⟨fun h => ?_, fun h => by rw [h]; rfl, fun flags h => by rw [h]; rfl⟩
  rw [h]
  rcases hcase with rfl | ⟨t, l', rfl⟩ <;> rfl

/-- A call that is out of place asks for nothing. -/
theorem reports_refused {code : Int} {a : Option TpErr} {p : Bool}
    (hr : r = ⟨some .tpeproto, c, []⟩) (hcode : code = txProtocolError) :
    Reports c (outcome (chainNext env r).sent a p) (chainNext env r) ↔ ChainFits env c code := by
  have hchain : ¬ Chains txProtocolError := by decide
  rw [(chainNext_sent env r a p).1 (by rw [hr]), hcode, Reports, ChainFits, chainNext, hr]
  cases hc : c.txTransactionControl with
  | unchained => simp [txMapError1]
  | chained => simp [txMapError1, hchain]

end

theorem commitFlags_ok (c : Client) :
    ¬ (commitFlags c ≠ 0 ∧ commitFlags c &&& tptxcommitdlog = 0) := by
  rw [commitFlags]
  split <;> decide

section

variable {env : Env} {c : Client}

variable {t : TxInfo} (hopen : c.isXaOpen = true) (ht : c.txinfo = some t)
  (hmay : (!t.initiator && !t.axregCld) = false)

include hopen ht hmay

theorem commitCode_eq : commitCode env c = if doAbort env t ∧
    (env.tmEnd = none ∨ env.tmEnd = some .tpeproto) then txRollbackRc else named env.tmEnd := by
  rw [commitCode, ht]
  dsimp only
  rw [if_neg]
  rintro (h | ⟨h1, h2⟩)
  · rw [hopen] at h
    cases h
  · rw [h1, h2] at hmay
    cases hmay

theorem ndrxTpcommit_abort (hab : doAbort env t = true) : ndrxTpcommit env c (commitFlags c) =
      let r := ndrxTpabort env c 0 (if callsXaEnd env t then env.xaEndErr else none)
      if r.err = none ∨ r.err = some .tpeproto then ⟨some .tpeabort, r.client, r.sent⟩ else r := by
  rw [ndrxTpcommit, hopen, ht, if_neg (by decide), if_neg (commitFlags_ok c)]
  dsimp only
  rw [hmay, hab, if_neg (by decide), if_pos rfl]

theorem commitReports_sent (hab : doAbort env t = false) :
    CommitReports env c ↔ ChainFits env c (commitCode env c) := by
  have hr : ∃ flags, ndrxTpcommit env c (commitFlags c) =
      ⟨env.tmEnd, {c with txinfo := none}, [.commit flags]⟩ := by
    rw [ndrxTpcommit, hopen, ht, if_neg (commitFlags_ok c)]
    dsimp only
    rw [hmay, hab]
    exact ⟨_, rfl⟩
  obtain ⟨flags, hr⟩ := hr
  have hcode : commitCode env c = named (ndrxTpcommit env c (commitFlags c)).err := by
    rw [commitCode_eq hopen ht hmay, hr, hab]
    rfl
  rw [CommitReports, txCommit, (chainNext_sent env _ _ _).2.2 flags (by rw [hr]), hcode,
    ← reports_ended hopen (by rw [hr]), hr]

theorem commitReports_aborted (hab : doAbort env t = true) (hi : t.initiator = true) :
    CommitReports env c ↔ ChainFits env c (commitCode env c) := by
  have habort (err : Option TpErr) :
      ndrxTpabort env c 0 err = ⟨env.tmEnd, {c with txinfo := none}, [.abort]⟩ := by
    simp [ndrxTpabort, hopen, ht, hi]
  have hr := ndrxTpcommit_abort hopen ht hmay hab
  dsimp only at hr
  rw [habort] at hr
  have hcl : (ndrxTpcommit env c (commitFlags c)).client = {c with txinfo := none} := by
    rw [hr]
    split <;> rfl
  have hsent : (ndrxTpcommit env c (commitFlags c)).sent = [.abort] := by
    rw [hr]
    split <;> rfl
  have hcode : commitCode env c = named (ndrxTpcommit env c (commitFlags c)).err := by
    rw [commitCode_eq hopen ht hmay, hr, hab]
    by_cases hok : env.tmEnd = none ∨ env.tmEnd = some .tpeproto
    · rw [if_pos ⟨rfl, hok⟩, if_pos hok]
      rfl
    · rw [if_neg (fun h => hok h.2), if_neg hok]
  have hout : outcome [.abort] env.tmEnd true = commitCode env c := by
    rw [commitCode_eq hopen ht hmay, hab]
    rfl
  rw [CommitReports, txCommit, (chainNext_sent env _ _ _).2.1 hsent, hout, hcode,
    reports_ended hopen hcl]

theorem not_commitReports_joined (hab : doAbort env t = true) (hi : t.initiator = false) :
    ¬ CommitReports env c := by
  have hrefuse (err : Option TpErr) :
      ndrxTpabort env c 0 err = ⟨setError err .tpeproto, c, []⟩ := by
    simp [ndrxTpabort, ht, hi]
  have hr := ndrxTpcommit_abort hopen ht hmay hab
  dsimp only at hr
  rw [hrefuse] at hr
  generalize (if callsXaEnd env t then env.xaEndErr else none) = err at hr
  have hcl : (ndrxTpcommit env c (commitFlags c)).client = c := by
    rw [hr]
    split <;> rfl
  have hsent : (ndrxTpcommit env c (commitFlags c)).sent = [] := by
    rw [hr]
    split <;> rfl
  have herr : ∃ e, (ndrxTpcommit env c (commitFlags c)).err = some e ∧ e ≠ .tpeproto := by
    rw [hr]
    cases err with
    | none => exact ⟨.tpeabort, rfl, by decide⟩
    | some e =>
      by_cases he : e = .tpeproto
      · exact ⟨.tpeabort, by rw [he]; rfl, by decide⟩
      · refine ⟨e, ?_, he⟩
        rw [if_neg (by simp [setError, he])]
        rfl
  obtain ⟨_, herr, hne⟩ := herr
  rw [CommitReports, txCommit, (chainNext_sent env _ _ _).1 hsent]
  exact not_reports_joined herr hne hcl ht

end

/-- A commit reports the outcome unless a joined transaction was aborted or the chain misfits. -/
theorem commitReports_iff (env : Env) (c : Client) :
    CommitReports env c ↔ ¬ JoinedAbort env c ∧ ChainFits env c (commitCode env c) := by
  have hnot (h : CommitReports env c ↔ ChainFits env c (commitCode env c)) (hj : ¬ JoinedAbort env c) :
      CommitReports env c ↔ ¬ JoinedAbort env c ∧ ChainFits env c (commitCode env c) :=
    h.trans ⟨fun h => ⟨hj, h⟩, fun h => h.2⟩
  cases hopen : c.isXaOpen with
  | false =>
    refine hnot (reports_refused (by simp [ndrxTpcommit, hopen]) ?_) ?_
    · rw [commitCode]
      split <;> simp [hopen]
    · intro h
      rw [h.1] at hopen
      cases hopen
  | true =>
    cases ht : c.txinfo with
    | none =>
      refine hnot (reports_refused ?_ (by rw [commitCode, ht])) ?_
      · simp [ndrxTpcommit, commitFlags_ok c, ht]
      · intro ⟨_, t, h, _⟩
        cases ht.symm.trans h
    | some t =>
      have hjoined : JoinedAbort env c ↔ t.initiator = false ∧ t.axregCld = true ∧ doAbort env t = true := by
        constructor
        · intro ⟨_, t', h, hrest⟩
          cases ht.symm.trans h
          exact hrest
        · intro h
          exact ⟨hopen, t, ht, h⟩
      by_cases hnone : t.initiator = false ∧ t.axregCld = false
      · refine hnot (reports_refused ?_ ?_) ?_
        · simp [ndrxTpcommit, commitFlags_ok c, ht, hnone]
        · simp [commitCode, ht, hnone]
        · rw [hjoined, hnone.2]
          exact fun h => by cases h.2.1
      have hmay : (!t.initiator && !t.axregCld) = false := by
        cases hi : t.initiator with
        | true => rfl
        | false =>
          cases hax : t.axregCld with
          | true => rfl
          | false => exact absurd ⟨hi, hax⟩ hnone
      cases hab : doAbort env t with
      | false =>
        refine hnot (commitReports_sent hopen ht hmay hab) ?_
        rw [hjoined, hab]
        exact fun h => by cases h.2.2
      | true =>
        cases hi : t.initiator with
        | true =>
          refine hnot (commitReports_aborted hopen ht hmay hab hi) ?_
          rw [hjoined, hi]
          exact fun h => by cases h.1
        | false =>
          have hax : t.axregCld = true := by
            rw [hi] at hmay
            simpa using hmay
          exact ⟨fun h => absurd h (not_commitReports_joined hopen ht hmay hab hi),
            fun h => absurd (hjoined.mpr ⟨hi, hax, hab⟩) h.1⟩

theorem rollbackReports_iff (env : Env) (c : Client) :
    RollbackReports env c ↔ ChainFits env c (rollbackCode env c) := by
  rw [RollbackReports, txRollback]
  cases hopen : c.isXaOpen with
  | false =>
    apply reports_refused
    · simp [ndrxTpabort, hopen, setError]
    · rw [rollbackCode]
      split <;> simp [hopen]
  | true =>
    cases ht : c.txinfo with
    | none =>
      apply reports_refused
      · simp [ndrxTpabort, ht, setError]
      · rw [rollbackCode, ht]
    | some t =>
      cases hi : t.initiator with
      | false =>
        apply reports_refused
        · simp [ndrxTpabort, ht, hi, setError]
        · simp [rollbackCode, ht, hi]
      | true =>
        have hr : ndrxTpabort env c 0 none = ⟨env.tmEnd, {c with txinfo := none}, [.abort]⟩ := by
          simp [ndrxTpabort, hopen, ht, hi]
        have hcode : rollbackCode env c = named (ndrxTpabort env c 0 none).err := by
          simp [rollbackCode, ht, hi, hopen, hr]
        have hout : outcome [.abort] env.tmEnd false = named (ndrxTpabort env c 0 none).err := by
          simp [outcome, hr]
        rw [(chainNext_sent env _ _ _).2.1 (by rw [hr]), hcode, hout,
          reports_ended hopen (by rw [hr])]

/-- The calls report what happened exactly where, in chained mode, the end and the begin that
follows it come to one code, and no process that has only joined the transaction is to abort it in
place of the commit. -/
theorem ends_reported_iff (env : Env) (c : Client) :
    (CommitReports env c ↔ ¬ JoinedAbort env c ∧ ChainFits env c (commitCode env c)) ∧
      (RollbackReports env c ↔ ChainFits env c (rollbackCode env c)) :=
  ⟨commitReports_iff env c, rollbackReports_iff env c⟩

/-- A transaction that was rolled back is reported as committed, a failed commit is answered with a
variable that was never set, and a rolled back one in place of a failed begin. -/
theorem rollback_reported_as_commit :
    let c : Client := ⟨true, some ⟨true, false, false, false, false⟩, .chained, .completed, 60⟩
    let env : Env := ⟨false, true, none, some .tpeabort, none, true, true⟩
    (outcome (txCommit env c).sent env.tmEnd true = txRollbackRc ∧ (txCommit env c).ret = some txOk) ∧
      (txCommit {env with tmEnd := some .tpesystem} c).ret = none ∧
      (txCommit {env with tmEnd := none, tmBegin := some .tpeabort} c).ret =
        some (txRollbackRc+txNoBegin) ∧
      ¬ CommitReports env c := by
  refine ⟨by decide, by decide, by decide, ?_⟩
  rw [CommitReports, Reports]
  decide

end Endurox.Tx
