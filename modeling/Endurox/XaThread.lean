import Endurox.BaseRun
import Mathlib.Data.Fintype.Card

/-! The transaction of a server's thread (`libatmi/xa.c`): how the thread gets into one and out of
it. What the transaction manager and the resource manager's switch answer may depend on everything
that was asked before; memory is assumed to be there. -/

namespace Endurox.Srv

/-- `tmknownrms`: the resource managers that take part, whose ids are 1 to 31. -/
structure KnownRms where
  rms : List (Fin 31)
  nodup : rms.Nodup
  deriving DecidableEq

def KnownRms.empty : KnownRms := ⟨[], List.nodup_nil⟩

/-- `atmi_xa_tx_info_t`: the transaction, the bits of `tranid_flags` that a thread sets, whether
calls or conversations are open in it, and `TMTXFLAGS_IS_ABORT_ONLY`. -/
structure TxInfo where
  tmxid : ℕ
  tmknownrms : KnownRms
  initiator : Bool
  axregCld : Bool
  callCds : Bool
  convCds : Bool
  abortOnly : Bool
  deriving DecidableEq

inductive TmCmd
  | tpbegin | tpcommit | tpabort | tmregister
  deriving DecidableEq

structure Reply where
  rval : Int
  rcode : Int
  replyError : Bool
  tmxid : Option ℕ
  abortOnly : Bool
  data : Option (List UInt8)
  deriving DecidableEq

structure Forward where
  autotran : Bool
  tmxid : Option ℕ
  abortOnly : Bool
  data : List UInt8
  deriving DecidableEq

inductive Msg
  | reply (r : Reply)
  | forward (f : Forward)
  deriving DecidableEq

def Msg.abortOnly : Msg → Bool
  | .reply r => r.abortOnly
  | .forward f => f.abortOnly

def Msg.tmxid : Msg → Option ℕ
  | .reply r => r.tmxid
  | .forward f => f.tmxid

inductive StartRc
  | ok | dupid | failed
  deriving DecidableEq

/-- What happens outside of the thread: calls of the resource manager's switch, its registration in
a transaction, calls of the transaction manager, and messages. -/
inductive Event
  | xaStart (tmxid : ℕ) (rc : StartRc)
  | axReg (tmxid : ℕ)
  | xaEnd (tmxid : ℕ) (ok : Bool)
  | tm (cmd : TmCmd) (tmxid : ℕ) (ok : Bool)
  | sent (msg : Msg) (ok : Bool)
  deriving DecidableEq

structure Cvt where
  json2ubf : Bool
  ubf2json : Bool
  json2view : Bool
  view2json : Bool
  deriving DecidableEq

structure LastCall where
  noreply : Bool
  autotran : Bool
  srvThread : Bool
  cvt : Cvt
  deriving DecidableEq

structure Thread where
  txinfo : Option TxInfo
  isXaOpen : Bool
  lastCall : LastCall
  trace : List Event
  deriving DecidableEq

/-- The switch and the transaction manager. `reconnect` tells whether a broken connection to the
resource manager comes back, `begun` and `begunRms` are the transaction that a begin answers with. -/
structure Xa where
  isDynamicReg : Bool
  nojoin : Bool
  rmid : Fin 31
  reconnect : List Event → Bool
  xaStart : List Event → StartRc
  xaEnd : List Event → Bool
  tm : List Event → Bool
  readTxInfo : List Event → Bool
  begun : List Event → ℕ
  begunRms : List Event → KnownRms
  rmidKnown : List Event → Bool

def Thread.add (s : Thread) (e : Event) : Thread := {s with trace := e :: s.trace}

def Thread.reset (s : Thread) : Thread := {s with txinfo := none}

variable (xa : Xa)

def needsEnd (t : TxInfo) : Bool := !xa.isDynamicReg || t.axregCld

def xaEndEntry (t : TxInfo) (s : Thread) : Bool × Thread :=
  (xa.xaEnd s.trace, s.add (.xaEnd t.tmxid (xa.xaEnd s.trace)))

def xaStartEntry (t : TxInfo) (s : Thread) : StartRc × Thread :=
  (xa.xaStart s.trace, s.add (.xaStart t.tmxid (xa.xaStart s.trace)))

def endWork (t : TxInfo) (s : Thread) : Bool × Thread :=
  if needsEnd xa t then xaEndEntry xa t s else (true, s)

def callTm (cmd : TmCmd) (tmxid : ℕ) (s : Thread) : Bool × Thread :=
  (xa.tm s.trace, s.add (.tm cmd tmxid (xa.tm s.trace)))

def ndrxXaJoinFail (forceAbort : Bool) (t : TxInfo) (s : Thread) : Thread :=
  if !t.initiator && !forceAbort then s else (callTm xa .tpabort t.tmxid s).2

def ndrxTpabort (callXaEnd : Bool) (s : Thread) : Bool × Thread :=
  if !s.isXaOpen then (false, s)
  else match s.txinfo with
  | none => (false, s)
  | some t =>
    if !t.initiator then (false, s)
    else
      let s' := if callXaEnd then (endWork xa t s).2 else s
      ((callTm xa .tpabort t.tmxid s').1, (callTm xa .tpabort t.tmxid s').2.reset)

def ndrxTpcommit (s : Thread) : Bool × Thread :=
  if !s.isXaOpen then (false, s)
  else match s.txinfo with
  | none => (false, s)
  | some t =>
    if !t.initiator && !t.axregCld then (false, s)
    else
      let r := endWork xa t s
      if t.callCds || t.convCds || t.abortOnly || !r.1 then (false, (ndrxTpabort xa false r.2).2)
      else ((callTm xa .tpcommit t.tmxid r.2).1, (callTm xa .tpcommit t.tmxid r.2).2.reset)

/-- What `tpbegin` returns: an error of the switch is not `EXFAIL`. -/
inductive BeginRc
  | succeed | exfail | xaError
  deriving DecidableEq

def begunTx (tr : List Event) : TxInfo := ⟨xa.begun tr, xa.begunRms tr, true, false, false, false, false⟩

def ndrxTpbegin (s : Thread) : BeginRc × Thread :=
  if !s.isXaOpen || s.txinfo.isSome then (.exfail, s)
  else
    let t := begunTx xa s.trace
    let r := callTm xa .tpbegin t.tmxid s
    if !r.1 then (.exfail, r.2)
    else if !xa.readTxInfo r.2.trace then (.exfail, r.2)
    else if xa.isDynamicReg then
      if xa.reconnect r.2.trace then (.succeed, {r.2 with txinfo := some t})
      else (.xaError, ndrxXaJoinFail xa false t r.2)
    else
      let st := xaStartEntry xa t r.2
      if st.1 = .ok then (.succeed, {st.2 with txinfo := some t})
      else (.exfail, ndrxXaJoinFail xa false t st.2)

theorem nodup_add (k : KnownRms) {rmid : Fin 31} (h : rmid ∉ k.rms) : (k.rms ++ [rmid]).Nodup := by
  rw [← List.concat_eq_append]
  exact k.nodup.concat h

def KnownRms.update (k : KnownRms) (rmid : Fin 31) : Option KnownRms :=
  if h : rmid ∈ k.rms then some k
  else if k.rms.length = 32 then none
  else some ⟨k.rms ++ [rmid], nodup_add k h⟩

def started (t : TxInfo) (st : StartRc × Thread) : Bool × Thread :=
  if st.1 = .ok then (true, {st.2 with txinfo := some t})
  else (false, (ndrxXaJoinFail xa false t st.2).reset)

/-- `_tp_srv_join_or_new` for a resource manager that the transaction manager has to be told of. -/
def registerNew (t : TxInfo) (s : Thread) : Bool × Thread :=
  let r := callTm xa .tmregister t.tmxid s
  if !r.1 then (false, r.2.reset)
  else if xa.isDynamicReg then (true, {r.2 with txinfo := some t})
  else
    let st := xaStartEntry xa t r.2
    -- a branch that is there already, and that the manager did not know of, is joined
    if !xa.rmidKnown r.2.trace && st.1 = .dupid then started xa t (xaStartEntry xa t st.2)
    else started xa t st

def addKnown (t : TxInfo) (r : Bool × Thread) : Bool × Thread :=
  if !r.1 || xa.nojoin then r
  else match t.tmknownrms.update xa.rmid with
    | none => (false, r.2.reset)
    | some k => (true, {r.2 with txinfo := some {t with tmknownrms := k}})

def joinBranch (resume : Bool) (t : TxInfo) (s : Thread) : Bool × Thread :=
  if !xa.nojoin && decide (xa.rmid ∈ t.tmknownrms.rms) then
    if xa.isDynamicReg && !resume then (true, {s with txinfo := some t})
    else started xa t (xaStartEntry xa t s)
  else addKnown xa t (registerNew xa t s)

/-- `_tp_srv_join_or_new` outside of `ax_reg`; `none` where a null pointer is followed. -/
def tpSrvJoinOrNew (resume : Bool) (t : TxInfo) (s : Thread) : Option (Bool × Thread) :=
  if !xa.isDynamicReg || t.axregCld then some (joinBranch xa resume t s)
  else if xa.reconnect s.trace then some (true, {s with txinfo := some t})
  else match s.txinfo with
    | none => none
    | some cur => some (false, (ndrxXaJoinFail xa false cur s).reset)

/-- `ax_reg`, which a resource manager calls before its first work in a transaction. -/
def axReg (s : Thread) : Thread :=
  match s.txinfo with
  | none => s
  | some t =>
    if !xa.isDynamicReg || t.axregCld then s
    else
      let r := joinBranch xa false {t with axregCld := true} s
      if r.1 then r.2.add (.axReg t.tmxid) else r.2

def ndrxTpsuspend (s : Thread) : Thread :=
  match s.txinfo with
  | none => s
  | some t =>
    if t.callCds || t.convCds then s
    else
      let r := endWork xa t s
      if r.1 then r.2.reset else ndrxXaJoinFail xa false t r.2

def ndrxTpresume (resume noOptim : Bool) (t : TxInfo) (s : Thread) : Option Thread :=
  if s.txinfo.isSome then some s
  else (tpSrvJoinOrNew xa resume
    {t with tmknownrms := if noOptim then .empty else t.tmknownrms} s).map Prod.snd

def tpSrvDisassocTx (forceRollback : Bool) (s : Thread) : Bool × Thread :=
  match s.txinfo with
  | none => (false, s)
  | some t =>
    let r := endWork xa t s
    (!r.1, (if forceRollback then ndrxXaJoinFail xa true t r.2 else r.2).reset)

end Endurox.Srv
