import Endurox.XaThread

/-! Serving a request (`libatmisrv/svqdispatch.c`, `libatmisrv/tpreturn.c`): the dispatcher calls the
service, which ends with `tpreturn`, with `tpforward` or by returning. A thread of a server is not a
client, and buffers that are freed on the way are left out. -/

namespace Endurox.Srv

def tpfail : Int := 1
def tpsuccess : Int := 2
def tpexit : Int := 134217728

def tpenoent : Int := 6
def tpesvcerr : Int := 10
def tpesystem : Int := 12
def tpetime : Int := 13
def tpetran : Int := 14
def tpeitype : Int := 17

inductive BufType
  | null | ubf | json | view | other
  deriving DecidableEq

def Cvt.anySet (c : Cvt) : Bool := c.json2ubf || c.ubf2json || c.json2view || c.view2json

def Cvt.or (a b : Cvt) : Cvt :=
  ⟨a.json2ubf || b.json2ubf, a.ubf2json || b.ubf2json, a.json2view || b.json2view,
    a.view2json || b.view2json⟩

def Cvt.wanted (c : Cvt) : BufType → Bool
  | .ubf => c.ubf2json
  | .json => c.json2ubf || c.json2view
  | .view => c.view2json
  | .null | .other => false

structure CallTx where
  tmxid : ℕ
  tmknownrms : KnownRms
  abortOnly : Bool
  deriving DecidableEq

def CallTx.info (x : CallTx) : TxInfo := ⟨x.tmxid, x.tmknownrms, false, false, false, false, x.abortOnly⟩

/-- `tp_command_call_t` as a request: its flags, its transaction, the type of its buffer and what
its age is measured against. -/
structure Call where
  last : LastCall
  notime : Bool
  clttout : Int
  callAge : Int
  tx : Option CallTx
  bufType : BufType
  deriving DecidableEq

def Call.expired (c : Call) : Bool := decide (0 < c.clttout ∧ c.clttout ≤ c.callAge) && !c.notime

structure Conf where
  noLongJump : Bool
  autojoin : Bool
  autotran : Bool
  xcvtflags : Cvt
  shmAttached : Bool
  bridge : Bool

structure Env where
  xa : Xa
  prepareIncoming : Bool
  xcvtIn : Bool
  xcvtBack : Bool
  encode : Option (List UInt8)
  ddr : Bool
  haveOpenConnection : Bool
  getSvc : Bool
  fillReplyQueue : Bool
  acceptConnection : Bool
  send : List Event → Bool

structure Soft where
  timeout : Bool
  enoent : Bool
  err : Bool
  deriving DecidableEq

def Soft.any (f : Soft) : Bool := f.timeout || f.enoent || f.err

structure ReturnArgs where
  rval : Int
  rcode : Int
  known : Bool
  flags : Soft
  deriving DecidableEq

structure RetStatus where
  tpreturn : Bool
  tpforward : Bool
  failed : Bool
  svcFail : Bool
  deriving DecidableEq

def RetStatus.none : RetStatus := ⟨false, false, false, false⟩

/-- How control comes back to the dispatcher: by the long jump, or by the return of the service with
the status in `atmisrv_reply_type`. -/
inductive Back
  | jumped (st : RetStatus)
  | returned (st : RetStatus)
  deriving DecidableEq

variable (conf : Conf) (env : Env)

def backToMain (s : Thread) (st : RetStatus) : Back :=
  if s.lastCall.srvThread then .returned .none
  else if conf.noLongJump then .returned st else .jumped st

def qSend (m : Msg) (s : Thread) : Bool × Thread :=
  (env.send s.trace, s.add (.sent m (env.send s.trace)))

def failureReply (rcode : Int) : Reply := ⟨0, rcode, true, none, false, none⟩

def replyWithFailure (noreply : Bool) (rcode : Int) (s : Thread) : Thread :=
  if noreply || !env.fillReplyQueue then s else (qSend env (.reply (failureReply rcode)) s).2

def initiatedTranAttached (s : Thread) : Bool :=
  match s.txinfo with
  | none => false
  | some t => t.initiator && !s.lastCall.autotran

def abortOwn (s : Thread) : Thread :=
  if initiatedTranAttached s then (ndrxTpabort env.xa true s).2 else s

def inAutotran (s : Thread) : Bool := s.lastCall.autotran && s.txinfo.isSome

def finishAuto (rval : Int) (s : Thread) : Bool × Thread :=
  if rval = tpsuccess then ndrxTpcommit env.xa s else ndrxTpabort env.xa true s

def prepareReply (a : ReturnArgs) (cvt : Cvt) (r : Reply) : Reply × Bool :=
  if a.rval = tpfail ∨ a.rval = tpsuccess ∨ a.rval = tpexit then
    if !a.known then ({r with replyError := true, rcode := tpesvcerr}, false)
    else if cvt.anySet && !env.xcvtBack then ({r with replyError := true, rcode := tpesvcerr}, false)
    else match env.encode with
      | none => ({r with replyError := true, rcode := tpesystem}, false)
      | some d => ({r with data := some d}, true)
  else (r, true)

def softErrors (f : Soft) (r : Reply × Bool) : Reply × Bool :=
  if f.timeout then ({r.1 with replyError := true, rcode := tpetime}, false)
  else if f.enoent then ({r.1 with replyError := true, rcode := tpenoent}, false)
  else if f.err then ({r.1 with replyError := true}, false)
  else r

/-- The thread leaves the transaction before its message is sent, and marks the transaction in it
as abort only if it was that or `xa_end` failed. -/
def leaveTran (marked : Bool) (s : Thread) : Bool × Thread :=
  match s.txinfo with
  | none => (marked, s)
  | some t =>
    let r := tpSrvDisassocTx env.xa false s
    (marked || t.abortOnly || r.1, r.2)

/-- `tpreturn` up to `out_send`: the reply without its return value, whether all went well so far,
and the thread. -/
def endTran (a : ReturnArgs) (rcode : Int) (s : Thread) : (Reply × Bool) × Thread :=
  let r : Reply := ⟨0, rcode, false, none, false, none⟩
  if inAutotran s then
    let f := finishAuto env a.rval s
    if !f.1 then (({r with replyError := true, rcode := tpesvcerr}, false), f.2)
    else (prepareReply env a s.lastCall.cvt r, f.2)
  else match s.txinfo with
    | none => (prepareReply env a s.lastCall.cvt r, s)
    | some t =>
      (prepareReply env a s.lastCall.cvt {r with tmxid := some t.tmxid, abortOnly := t.abortOnly}, s)

def sendReply (a : ReturnArgs) (flags : Soft) (r : Reply × Bool) (s : Thread) : Back × Thread :=
  let r := softErrors flags ({r.1 with rval := if a.rval = tpexit then tpfail else a.rval}, r.2)
  let st : RetStatus := ⟨true, false, !r.2, decide (a.rval ≠ tpsuccess)⟩
  if !env.fillReplyQueue then (backToMain conf s st, s)
  else
    let l := leaveTran env r.1.abortOnly s
    (backToMain conf s st, (qSend env (.reply {r.1 with abortOnly := l.1}) l.2).2)

def tpreturn (a : ReturnArgs) (s : Thread) : Back × Thread :=
  if s.lastCall.noreply then
    let s' := if inAutotran s then (finishAuto env a.rval s).2 else s
    (backToMain conf s ⟨true, false, false, false⟩, abortOwn env s')
  else
    let own := initiatedTranAttached s
    let r := endTran env a (if own then tpesvcerr else a.rcode) (abortOwn env s)
    sendReply conf env a (if own then ⟨false, false, true⟩ else a.flags) r.1 r.2

def forwardFailed (s : Thread) : Back × Thread := (backToMain conf s ⟨false, true, true, false⟩, s)

def sendForward (f : Forward) (s : Thread) : Back × Thread :=
  if !env.getSvc then forwardFailed conf (replyWithFailure env s.lastCall.noreply tpesvcerr s)
  else
    let l := leaveTran env f.abortOnly s
    let q := qSend env (.forward {f with abortOnly := l.1}) l.2
    if q.1 then (backToMain conf s ⟨false, true, false, false⟩, q.2)
    else forwardFailed conf (replyWithFailure env s.lastCall.noreply tpesvcerr q.2)

def forwardEncoded (s : Thread) : Back × Thread :=
  match env.encode with
  | none => forwardFailed conf s
  | some d =>
    sendForward conf env ⟨s.lastCall.autotran, s.txinfo.map TxInfo.tmxid,
      (s.txinfo.map TxInfo.abortOnly).getD false, d⟩ s

/-- `_tpforward`; `inConv` for a conversation. In one nothing is jumped to: the service goes on. -/
def tpforward (inConv known : Bool) (s : Thread) : Back × Thread :=
  if initiatedTranAttached s then
    tpreturn conf env ⟨tpfail, tpesvcerr, known, ⟨false, false, true⟩⟩ s
  else if !env.ddr then forwardFailed conf s
  else if inConv || env.haveOpenConnection then (.returned .none, s)
  else if !known then forwardFailed conf s
  else if s.lastCall.cvt.anySet && !env.xcvtBack then forwardFailed conf s
  else forwardEncoded conf env s

/-- What a service does with transactions before it ends. `work` is the first work of a resource
manager in the transaction; `calls` are calls of other services, after which descriptors may be
open, the transaction may be abort only and more resource managers are known. -/
inductive SvcOp
  | tpopen | tpclose | tpbegin | tpcommit | tpabort | tpsuspend
  | tpresume (resume noOptim : Bool) (t : TxInfo)
  | work
  | calls (rms : KnownRms) (callCds convCds abortOnly : Bool)
  deriving DecidableEq

inductive Ending
  | tpreturn (a : ReturnArgs)
  | tpforward (known : Bool)
  | noReturn
  deriving DecidableEq

structure Service where
  ops : List SvcOp
  ending : Ending

def SvcOp.run (s : Thread) : SvcOp → Option Thread
  | .tpopen => some {s with isXaOpen := true}
  -- refused within a transaction
  | .tpclose => some (if s.txinfo.isSome then s else {s with isXaOpen := false})
  | .tpbegin => some (ndrxTpbegin env.xa s).2
  | .tpcommit => some (ndrxTpcommit env.xa s).2
  | .tpabort => some (ndrxTpabort env.xa true s).2
  | .tpsuspend => some (ndrxTpsuspend env.xa s)
  | .tpresume resume noOptim t => ndrxTpresume env.xa resume noOptim t s
  | .work => some (axReg env.xa s)
  | .calls rms callCds convCds abortOnly =>
    some {s with txinfo := s.txinfo.map fun t =>
      {t with tmknownrms := rms, callCds := callCds, convCds := convCds,
              abortOnly := t.abortOnly || abortOnly}}

def runOps (ops : List SvcOp) (s : Thread) : Option Thread := ops.foldlM (SvcOp.run env) s

def Ending.run (inConv : Bool) (s : Thread) : Ending → Back × Thread
  | .tpreturn a => Srv.tpreturn conf env a s
  | .tpforward known => Srv.tpforward conf env inConv known s
  | .noReturn => (.returned .none, s)

/-- The result of serving: whether the service index was set, whether the status is `EXSUCCEED`. -/
structure Served where
  service : Bool
  status : Bool
  thread : Thread
  deriving DecidableEq

def joinCall (x : CallTx) (s : Thread) : Option (Bool × Thread) :=
  if conf.autojoin then tpSrvJoinOrNew env.xa false x.info s else some (true, s)

/-- The server becomes the initiator of an automatic transaction that is forwarded to it; there is
none to mark where it has not joined it. -/
def markInitiator (call : Call) (j : Bool × Thread) : Option (Bool × Thread) :=
  if j.1 && call.last.autotran then
    j.2.txinfo.map fun t => (true, {j.2 with txinfo := some {t with initiator := true}})
  else some j

def beginAuto (s : Thread) : Bool × Thread :=
  let b := ndrxTpbegin env.xa s
  if b.1 = .exfail then (false, b.2)
  else (true, {b.2 with lastCall := {b.2.lastCall with autotran := true}})

/-- The transaction of a call is joined, or an automatic one begun. Only a call, not a conversation,
makes the server the initiator. -/
def startTran (call : Call) (marks : Bool) (s : Thread) : Option (Bool × Thread) :=
  match call.tx with
  | some x => (joinCall conf env x s).bind (if marks then markInitiator call else some)
  | none => some (if conf.autotran then beginAuto env s else (true, s))

def RetStatus.succeeded (st : RetStatus) : Bool := !(st.failed || st.svcFail)

def noReturn (call : Call) (s : Thread) : Served :=
  ⟨true, call.last.noreply, if inAutotran s then (ndrxTpabort env.xa true s).2 else s⟩

def afterService (call : Call) (s : Thread) : Back → Served
  | .jumped st => ⟨true, st.succeeded, s⟩
  | .returned st =>
    if conf.noLongJump && (st.tpreturn || st.tpforward) then ⟨true, st.succeeded, s⟩
    else noReturn env call s

def callService (call : Call) (svc : Service) (inConv : Bool) (s : Thread) : Option Served :=
  (runOps env svc.ops s).map fun s' =>
    afterService conf env call (svc.ending.run conf env inConv s').2
      (svc.ending.run conf env inConv s').1

def convertIn (call : Call) (s : Thread) : Bool × Thread :=
  if conf.xcvtflags.wanted call.bufType then
    (env.xcvtIn, {s with lastCall := {s.lastCall with cvt := s.lastCall.cvt.or conf.xcvtflags}})
  else (true, s)

def serveCallIn (call : Call) (svc : Service) (b : Bool × Thread) : Option Served :=
  let fail := replyWithFailure env call.last.noreply
  let c := convertIn conf env call b.2
  if !b.1 then some ⟨false, false, fail tpetran b.2⟩
  else if !c.1 then some ⟨true, false, fail tpesvcerr c.2⟩
  else callService conf env call svc false c.2

def svServeCall (call : Call) (svc : Service) (s : Thread) : Option Served :=
  if call.expired then some ⟨false, false, s⟩
  else if !env.prepareIncoming then
    some ⟨false, false, replyWithFailure env call.last.noreply tpeitype s⟩
  else (startTran conf env call true {s with lastCall := call.last}).bind
    (serveCallIn conf env call svc)

def serveConnectIn (call : Call) (svc : Service) (b : Bool × Thread) : Option Served :=
  if !b.1 || !env.acceptConnection then some ⟨false, false, b.2⟩
  else callService conf env call svc true b.2

/-- `sv_serve_connect`. A rejected connection answers on the conversation's own queue. -/
def svServeConnect (call : Call) (svc : Service) (s : Thread) : Option Served :=
  if call.expired || !env.prepareIncoming then some ⟨false, false, s⟩
  else (startTran conf env call false {s with lastCall := call.last}).bind
    (serveConnectIn conf env call svc)

inductive Request
  | call (c : Call) (svc : Service)
  | connect (c : Call) (svc : Service)
  | other

def svServe (req : Request) (s : Thread) : Option Served :=
  match req with
  | .call c svc => svServeCall conf env c svc s
  | .connect c svc => svServeConnect conf env c svc s
  | .other => some ⟨false, true, s⟩

def svServerRequest (req : Request) (s : Thread) : Option Thread :=
  if conf.bridge then some s
  else (svServe conf env req s).map fun r =>
    if r.service && conf.shmAttached then (tpSrvDisassocTx env.xa true r.thread).2 else r.thread

end Endurox.Srv
