import Endurox.Service

/-! What is sent while a call is served. -/

namespace Endurox.Srv
open List

def Event.msg? : Event → Option Msg
  | .sent m _ => some m
  | _ => none

def Event.msg : Event → Option Msg
  | .sent m true => some m
  | _ => none

def messages (tr : List Event) : List Msg := tr.filterMap Event.msg

def Grown (s s' : Thread) : Prop := ∃ new, s'.trace = new ++ s.trace ∧ ∀ e ∈ new, e.msg? = none

section

variable {s s' s'' : Thread} {e : Event}

theorem Event.msg_eq_none (h : e.msg? = none) : e.msg = none := by
  cases e with
  | sent => cases h
  | _ => rfl

theorem Grown.refl (s : Thread) : Grown s s := ⟨[], rfl, by simp⟩

theorem Grown.trans (h : Grown s s') (h' : Grown s' s'') : Grown s s'' := by
  obtain ⟨new, htr, hnew⟩ := h
  obtain ⟨new', htr', hnew'⟩ := h'
  refine ⟨new' ++ new, by rw [htr', htr, append_assoc], ?_⟩
  intro e he
  exact (mem_append.mp he).elim (hnew' e) (hnew e)

theorem Grown.add (h : Grown s s') (he : e.msg? = none) : Grown s (s'.add e) := by
  obtain ⟨new, htr, hnew⟩ := h
  refine ⟨e :: new, by rw [Thread.add, htr]; rfl, ?_⟩
  intro e' he'
  obtain rfl | hmem := mem_cons.mp he'
  · exact he
  · exact hnew e' hmem

theorem Grown.messages (h : Grown s s') : messages s'.trace = messages s.trace := by
  obtain ⟨new, htr, hnew⟩ := h
  have hnone : new.filterMap Event.msg = [] := by
    rw [filterMap_eq_nil_iff]
    intro e he
    exact Event.msg_eq_none (hnew e he)
  rw [Srv.messages, htr, filterMap_append, hnone]
  rfl

theorem Grown.msg_mem (h : Grown s s') {m : Msg} {ok : Bool} (he : .sent m ok ∈ s'.trace) :
    .sent m ok ∈ s.trace := by
  obtain ⟨_, htr, hnew⟩ := h
  rw [htr] at he
  obtain hmem | hmem := mem_append.mp he
  · cases hnew _ hmem
  · exact hmem

end

structure Quiet (s s' : Thread) : Prop where
  lastCall : s'.lastCall = s.lastCall
  grown : Grown s s'

section

variable {xa : Xa} {s s' s'' : Thread} {t : TxInfo}

theorem Quiet.refl (s : Thread) : Quiet s s := ⟨rfl, .refl s⟩

theorem Quiet.trans (h : Quiet s s') (h' : Quiet s' s'') : Quiet s s'' :=
  ⟨h'.lastCall.trans h.lastCall, h.grown.trans h'.grown⟩

theorem Quiet.add {e : Event} (h : Quiet s s') (he : e.msg? = none) : Quiet s (s'.add e) :=
  ⟨h.lastCall, h.grown.add he⟩

theorem Quiet.setTx (h : Quiet s s') (tx : Option TxInfo) : Quiet s {s' with txinfo := tx} :=
  ⟨h.lastCall, h.grown⟩

theorem Quiet.reset (h : Quiet s s') : Quiet s s'.reset := h.setTx none

theorem quiet_endWork : Quiet s (endWork xa t s).2 := by
  unfold endWork
  split
  · exact (Quiet.refl s).add rfl
  · exact .refl s

theorem quiet_callTm {cmd : TmCmd} {id : ℕ} : Quiet s (callTm xa cmd id s).2 := (Quiet.refl s).add rfl

theorem quiet_joinFail {force : Bool} : Quiet s (ndrxXaJoinFail xa force t s) := by
  unfold ndrxXaJoinFail
  split
  · exact .refl s
  · exact quiet_callTm

theorem quiet_tpabort {callXaEnd : Bool} : Quiet s (ndrxTpabort xa callXaEnd s).2 := by
  unfold ndrxTpabort
  split
  · exact .refl s
  cases s.txinfo with
  | none => exact .refl s
  | some =>
    dsimp only
    split
    · exact .refl s
    · apply Quiet.reset
      apply Quiet.trans _ quiet_callTm
      cases callXaEnd
      · exact .refl s
      · exact quiet_endWork

theorem quiet_tpcommit : Quiet s (ndrxTpcommit xa s).2 := by
  unfold ndrxTpcommit
  split
  · exact .refl s
  cases s.txinfo with
  | none => exact .refl s
  | some =>
    dsimp only
    split
    · exact .refl s
    · split
      · exact quiet_endWork.trans quiet_tpabort
      · exact (quiet_endWork.trans quiet_callTm).reset

theorem quiet_tpbegin : Quiet s (ndrxTpbegin xa s).2 := by
  unfold ndrxTpbegin
  split
  · exact .refl s
  dsimp only
  split
  · exact quiet_callTm
  split
  · exact quiet_callTm
  split
  · split
    · exact quiet_callTm.setTx _
    · dsimp only
      exact quiet_callTm.trans quiet_joinFail
  have hstart : Quiet s (xaStartEntry xa (begunTx xa s.trace)
      (callTm xa .tpbegin (begunTx xa s.trace).tmxid s).2).2 := quiet_callTm.add rfl
  split
  · exact hstart.setTx _
  · dsimp only
    exact hstart.trans quiet_joinFail

theorem quiet_started {st : StartRc × Thread} (h : Quiet s st.2) : Quiet s (started xa t st).2 := by
  unfold started
  split
  · exact h.setTx _
  · exact (h.trans quiet_joinFail).reset

theorem quiet_registerNew : Quiet s (registerNew xa t s).2 := by
  unfold registerNew
  dsimp only
  split
  · exact quiet_callTm.reset
  · split
    · exact quiet_callTm.setTx _
    · split
      · exact quiet_started ((quiet_callTm.add rfl).add rfl)
      · exact quiet_started (quiet_callTm.add rfl)

theorem quiet_joinBranch {resume : Bool} : Quiet s (joinBranch xa resume t s).2 := by
  unfold joinBranch addKnown
  split
  · split
    · exact (Quiet.refl s).setTx _
    · exact quiet_started ((Quiet.refl s).add rfl)
  · split
    · exact quiet_registerNew
    · split
      · exact quiet_registerNew.reset
      · exact quiet_registerNew.setTx _

theorem quiet_joinOrNew {resume : Bool} {r : Bool × Thread}
    (h : tpSrvJoinOrNew xa resume t s = some r) : Quiet s r.2 := by
  unfold tpSrvJoinOrNew at h
  split at h
  · cases h
    exact quiet_joinBranch
  split at h
  · cases h
    exact (Quiet.refl s).setTx _
  · split at h
    · cases h
    · cases h
      exact quiet_joinFail.reset

theorem quiet_tpsuspend : Quiet s (ndrxTpsuspend xa s) := by
  unfold ndrxTpsuspend
  cases s.txinfo with
  | none => exact .refl s
  | some =>
    dsimp only
    split
    · exact .refl s
    · split
      · exact quiet_endWork.reset
      · exact quiet_endWork.trans quiet_joinFail

theorem quiet_axReg : Quiet s (axReg xa s) := by
  unfold axReg
  cases s.txinfo with
  | none => exact .refl s
  | some =>
    dsimp only
    split
    · exact .refl s
    · split
      · exact quiet_joinBranch.add rfl
      · exact quiet_joinBranch

theorem quiet_op {env : Env} {op : SvcOp} (h : op.run env s = some s') : Quiet s s' := by
  cases op with
  | tpopen => cases h; exact ⟨rfl, (Quiet.refl s).grown⟩
  | tpclose =>
    cases h
    split
    · exact .refl s
    · exact ⟨rfl, (Quiet.refl s).grown⟩
  | tpbegin => cases h; exact quiet_tpbegin
  | tpcommit => cases h; exact quiet_tpcommit
  | tpabort => cases h; exact quiet_tpabort
  | tpsuspend => cases h; exact quiet_tpsuspend
  | tpresume =>
    rw [SvcOp.run, ndrxTpresume] at h
    split at h
    · cases h
      exact .refl s
    · obtain ⟨_, hr, rfl⟩ := Option.map_eq_some_iff.mp h
      exact quiet_joinOrNew hr
  | work => cases h; exact quiet_axReg
  | calls => cases h; exact (Quiet.refl s).setTx _

theorem quiet_runOps {env : Env} {ops : List SvcOp} (h : runOps env ops s = some s') : Quiet s s' := by
  induction ops generalizing s with
  | nil =>
    cases h
    exact .refl _
  | cons op ops ih =>
    obtain ⟨_, h1, h2⟩ := Option.bind_eq_some_iff.mp h
    exact (quiet_op h1).trans (ih h2)

end

section

variable {conf : Conf} {env : Env} {s : Thread}

theorem quiet_leaveTran {marked : Bool} : Quiet s (leaveTran env marked s).2 := by
  unfold leaveTran tpSrvDisassocTx
  cases s.txinfo with
  | none => exact .refl s
  | some => exact quiet_endWork.reset

theorem quiet_finishAuto {rval : Int} : Quiet s (finishAuto env rval s).2 := by
  unfold finishAuto
  split
  · exact quiet_tpcommit
  · exact quiet_tpabort

theorem quiet_abortOwn : Quiet s (abortOwn env s) := by
  unfold abortOwn
  split
  · exact quiet_tpabort
  · exact .refl s

theorem quiet_endTran {a : ReturnArgs} {rcode : Int} : Quiet s (endTran env a rcode s).2 := by
  unfold endTran
  dsimp only
  split
  · split
    · exact quiet_finishAuto
    · exact quiet_finishAuto
  · cases s.txinfo with
    | none => exact .refl s
    | some => exact .refl s

def SentIf (n : Bool) (s s' : Thread) : Prop :=
  ∃ m, messages s'.trace = if n then m :: messages s.trace else messages s.trace

theorem SentIf.of_grown {n : Bool} {s s' s'' : Thread} (h : Grown s s') (h' : SentIf n s' s'') :
    SentIf n s s'' := by
  obtain ⟨m, hm⟩ := h'
  exact ⟨m, by rw [hm, h.messages]⟩

theorem SentIf.grown {n : Bool} {s s' s'' : Thread} (h : SentIf n s s') (h' : Grown s' s'') :
    SentIf n s s'' := by
  obtain ⟨m, hm⟩ := h
  exact ⟨m, by rw [h'.messages, hm]⟩

variable (hsend : ∀ tr, env.send tr = true)

include hsend

theorem messages_qSend (m : Msg) : messages (qSend env m s).2.trace = m :: messages s.trace := by
  rw [qSend, hsend]
  exact filterMap_cons_some rfl

theorem sent_replyWithFailure (rcode : Int) :
    SentIf env.fillReplyQueue s (replyWithFailure env false rcode s) := by
  refine ⟨.reply (failureReply rcode), ?_⟩
  unfold replyWithFailure
  cases env.fillReplyQueue
  · rfl
  · exact messages_qSend hsend _

theorem sent_sendReply (a : ReturnArgs) (flags : Soft) (p : Reply × Bool) :
    SentIf env.fillReplyQueue s (sendReply conf env a flags p s).2 := by
  unfold sendReply
  cases hq : env.fillReplyQueue
  · exact ⟨.reply p.1, rfl⟩
  · exact .of_grown quiet_leaveTran.grown ⟨_, messages_qSend hsend _⟩

theorem sent_tpreturn (a : ReturnArgs) (hno : s.lastCall.noreply = false) :
    SentIf env.fillReplyQueue s (tpreturn conf env a s).2 := by
  unfold tpreturn
  rw [hno]
  exact .of_grown (quiet_abortOwn.trans quiet_endTran).grown (sent_sendReply hsend _ _ _)

theorem sent_sendForward (f : Forward) (hno : s.lastCall.noreply = false) :
    SentIf (env.getSvc || env.fillReplyQueue) s (sendForward conf env f s).2 := by
  unfold sendForward
  cases hget : env.getSvc
  · rw [hno]
    exact sent_replyWithFailure hsend tpesvcerr
  · have hq (m : Msg) (s : Thread) : (qSend env m s).1 = true := hsend s.trace
    simp only [hq]
    exact .of_grown quiet_leaveTran.grown ⟨_, messages_qSend hsend _⟩

/-- The request can be forwarded: it can be routed, the thread has no conversation open, and the
data is known, converted and encoded. -/
def canForward (env : Env) (known : Bool) (s : Thread) : Bool :=
  env.ddr && !env.haveOpenConnection && known && (!s.lastCall.cvt.anySet || env.xcvtBack) &&
    env.encode.isSome

theorem sent_tpforward (known : Bool) (hno : s.lastCall.noreply = false) :
    SentIf (if initiatedTranAttached s then env.fillReplyQueue
      else canForward env known s && (env.getSvc || env.fillReplyQueue)) s
      (tpforward conf env false known s).2 := by
  have hnone {s' : Thread} (h : s' = s) : SentIf false s s' := ⟨.reply (failureReply 0), by rw [h]; rfl⟩
  unfold tpforward
  cases initiatedTranAttached s
  · simp only [canForward]
    cases env.ddr
    · exact hnone rfl
    cases env.haveOpenConnection
    swap
    · exact hnone rfl
    cases known
    · exact hnone rfl
    have hready : SentIf (env.encode.isSome && (env.getSvc || env.fillReplyQueue)) s
        (forwardEncoded conf env s).2 := by
      unfold forwardEncoded
      cases env.encode with
      | none => exact hnone rfl
      | some => exact sent_sendForward hsend _ hno
    cases s.lastCall.cvt.anySet
    · exact hready
    cases env.xcvtBack
    · exact hnone rfl
    · exact hready
  · exact sent_tpreturn hsend _ hno

omit hsend in
theorem quiet_afterService {call : Call} {b : Back} : Quiet s (afterService conf env call s b).thread := by
  have hno : Quiet s (noReturn env call s).thread := by
    unfold noReturn
    dsimp only
    split
    · exact quiet_tpabort
    · exact .refl _
  cases b with
  | jumped => exact .refl _
  | returned =>
    rw [afterService]
    split
    · exact .refl _
    · exact hno

omit hsend in
theorem afterService_none {call : Call} {b : Back} (h : s.txinfo = none) :
    (afterService conf env call s b).thread = s := by
  have hno : (noReturn env call s).thread = s := by
    rw [noReturn, inAutotran, h, Option.isSome_none, Bool.and_false, if_neg Bool.false_ne_true]
  cases b with
  | jumped => rfl
  | returned =>
    rw [afterService]
    split
    · rfl
    · exact hno

end

section

variable (conf : Conf) (env : Env) (call : Call) (s : Thread)

def reached (b : Bool × Thread) : Option Thread :=
  if b.1 && (convertIn conf env call b.2).1 then some (convertIn conf env call b.2).2 else none

def atService : Option Thread :=
  if call.expired || !env.prepareIncoming then none
  else (startTran conf env call true {s with lastCall := call.last}).bind (reached conf env call)

def atEnd (ops : List SvcOp) : Option Thread := (atService conf env call s).bind (runOps env ops)

def Ending.answers (s : Thread) : Ending → Bool
  | .tpreturn _ => env.fillReplyQueue
  | .tpforward known =>
    if initiatedTranAttached s then env.fillReplyQueue
    else canForward env known s && (env.getSvc || env.fillReplyQueue)
  | .noReturn => false

/-- The request is answered: the dispatcher finds the queue of the caller, or the service ends so
that the request is answered. -/
def answersFrom (svc : Service) : Option Thread → Bool
  | none => env.fillReplyQueue
  | some s => svc.ending.answers env s

def answered (svc : Service) : Bool := answersFrom env svc (atEnd conf env call s svc.ops)

variable {conf env call s}

def Silent (s s' : Thread) : Prop := Grown s s' ∧ s'.lastCall.noreply = s.lastCall.noreply

theorem Quiet.silent {s s' : Thread} (h : Quiet s s') : Silent s s' :=
  ⟨h.grown, congrArg _ h.lastCall⟩

theorem joinCall_quiet {x : CallTx} {j : Bool × Thread} (h : joinCall conf env x s = some j) :
    Quiet s j.2 := by
  unfold joinCall at h
  split at h
  · exact quiet_joinOrNew h
  · cases h
    exact .refl s

theorem markInitiator_quiet {j b : Bool × Thread} (h : markInitiator call j = some b) :
    Quiet j.2 b.2 := by
  unfold markInitiator at h
  split at h
  · obtain ⟨_, -, rfl⟩ := Option.map_eq_some_iff.mp h
    exact (Quiet.refl _).setTx _
  · cases h
    exact .refl _

theorem beginAuto_silent : Silent s (beginAuto env s).2 := by
  have hq : Quiet s (ndrxTpbegin env.xa s).2 := quiet_tpbegin
  unfold beginAuto
  dsimp only
  split
  · exact hq.silent
  · exact hq.silent

theorem startTran_silent {marks : Bool} {b : Bool × Thread}
    (h : startTran conf env call marks s = some b) : Silent s b.2 := by
  unfold startTran at h
  cases htx : call.tx with
  | some =>
    simp only [htx] at h
    obtain ⟨_, hj, h⟩ := Option.bind_eq_some_iff.mp h
    apply Quiet.silent
    apply (joinCall_quiet hj).trans
    cases marks
    · cases h
      exact .refl _
    · exact markInitiator_quiet h
  | none =>
    simp only [htx] at h
    cases h
    split
    · exact beginAuto_silent
    · exact (Quiet.refl s).silent

theorem convertIn_silent : Silent s (convertIn conf env call s).2 := by
  unfold convertIn
  split
  · exact ⟨.refl s, rfl⟩
  · exact (Quiet.refl s).silent

theorem sent_ending (hsend : ∀ tr, env.send tr = true) (e : Ending)
    (hno : s.lastCall.noreply = false) : SentIf (e.answers env s) s (e.run conf env false s).2 := by
  cases e with
  | tpreturn a => exact sent_tpreturn hsend a hno
  | tpforward known => exact sent_tpforward hsend known hno
  | noReturn => exact ⟨.reply (failureReply 0), rfl⟩

/-- What serving a call comes to: it is dropped, the dispatcher tells the caller of a failure, or
the service runs to its end. -/
theorem svServeCall_cases {svc : Service} {r : Served}
    (hrun : svServeCall conf env call svc s = some r) :
    (call.expired = true ∧ r.thread = s ∧ atEnd conf env call s svc.ops = none) ∨
    (call.expired = false ∧ atEnd conf env call s svc.ops = none ∧ ∃ s' rcode, Grown s s' ∧
      r.thread = replyWithFailure env call.last.noreply rcode s') ∨
    (call.expired = false ∧ ∃ s', atEnd conf env call s svc.ops = some s' ∧ Grown s s' ∧
      s'.lastCall.noreply = call.last.noreply ∧
      r.thread = (afterService conf env call (svc.ending.run conf env false s').2
        (svc.ending.run conf env false s').1).thread) := by
  unfold svServeCall at hrun
  unfold atEnd atService
  cases hexp : call.expired with
  | true =>
    rw [hexp] at hrun
    cases hrun
    exact .inl ⟨rfl, rfl, rfl⟩
  | false =>
    rw [hexp] at hrun
    right
    cases hin : env.prepareIncoming with
    | false =>
      rw [hin] at hrun
      cases hrun
      exact .inl ⟨rfl, rfl, s, tpeitype, .refl s, rfl⟩
    | true =>
      rw [hin] at hrun
      obtain ⟨b, hb, hrun⟩ := Option.bind_eq_some_iff.mp hrun
      have hsil := startTran_silent hb
      have hsilc : Silent b.2 (convertIn conf env call b.2).2 := convertIn_silent
      rw [hb]
      unfold serveCallIn at hrun
      unfold reached
      cases hb1 : b.1 with
      | false =>
        simp only [hb1] at hrun
        cases hrun
        refine .inl ⟨rfl, ?_, b.2, tpetran, hsil.1, rfl⟩
        simp [hb1]
      | true =>
        cases hc : (convertIn conf env call b.2).1 with
        | false =>
          simp only [hb1, hc] at hrun
          cases hrun
          refine .inl ⟨rfl, ?_, _, tpesvcerr, hsil.1.trans hsilc.1, rfl⟩
          simp [hc]
        | true =>
          simp only [hb1, hc] at hrun
          obtain ⟨s', hops, rfl⟩ := Option.map_eq_some_iff.mp hrun
          have hq := quiet_runOps hops
          refine .inr ⟨rfl, s', ?_, (hsil.1.trans hsilc.1).trans hq.grown, ?_, rfl⟩
          · simp [hb1, hc, hops]
          · rw [hq.lastCall, hsilc.2, hsil.2]

theorem sent_svServeCall (hsend : ∀ tr, env.send tr = true) (hno : call.last.noreply = false)
    (hlive : call.expired = false) {svc : Service} {r : Served}
    (hrun : svServeCall conf env call svc s = some r) :
    SentIf (answered conf env call s svc) s r.thread := by
  unfold answered
  obtain ⟨hexp, -⟩ | ⟨-, hend, s', rcode, hs', hr⟩ | ⟨-, s', hend, hs', hno', hr⟩ :=
    svServeCall_cases hrun
  · rw [hlive] at hexp
    cases hexp
  · rw [hend, hr, hno]
    exact .of_grown hs' (sent_replyWithFailure hsend rcode)
  · rw [hend, hr]
    apply SentIf.grown _ quiet_afterService.grown
    exact .of_grown hs' (sent_ending hsend svc.ending (hno'.trans hno))

/-- Exactly one message answers the call, if and only if it is answered. -/
theorem answered_once_iff (hsend : ∀ tr, env.send tr = true) (hno : call.last.noreply = false)
    (hlive : call.expired = false) (svc : Service) {r : Served}
    (hrun : svServeCall conf env call svc s = some r) :
    (∃ m, messages r.thread.trace = m :: messages s.trace) ↔ answered conf env call s svc = true := by
  obtain ⟨m, hm⟩ := sent_svServeCall hsend hno hlive hrun
  cases hans : answered conf env call s svc with
  | true =>
    rw [hans] at hm
    exact ⟨fun _ => rfl, fun _ => ⟨m, hm⟩⟩
  | false =>
    rw [hans, if_neg Bool.false_ne_true] at hm
    constructor
    · rintro ⟨_, hm'⟩
      have hlen := congrArg length (hm.symm.trans hm')
      rw [length_cons] at hlen
      omega
    · intro h
      cases h

end

def sampleXa : Xa where
  isDynamicReg := false
  nojoin := false
  rmid := 0
  reconnect _ := true
  xaStart _ := .ok
  xaEnd _ := true
  tm _ := true
  readTxInfo _ := true
  begun _ := 1
  begunRms _ := .empty
  rmidKnown _ := true

def sampleConf : Conf := ⟨false, true, false, ⟨false, false, false, false⟩, true, false⟩

def sampleEnv : Env where
  xa := sampleXa
  prepareIncoming := true
  xcvtIn := true
  xcvtBack := true
  encode := some [1]
  ddr := true
  haveOpenConnection := false
  getSvc := true
  fillReplyQueue := true
  acceptConnection := true
  send _ := true

def sampleCall : Call :=
  ⟨⟨false, false, false, ⟨false, false, false, false⟩⟩, false, 0, 0, none, .ubf⟩

def sampleThread : Thread := ⟨none, true, ⟨false, false, false, ⟨false, false, false, false⟩⟩, []⟩

def sampleReturn : ReturnArgs := ⟨tpsuccess, 0, true, ⟨false, false, false⟩⟩

theorem answered_once_return :
    ∃ r, svServeCall sampleConf sampleEnv sampleCall ⟨[], .tpreturn sampleReturn⟩ sampleThread = some r ∧
      ((∃ m, messages r.thread.trace = m :: messages sampleThread.trace) ↔
        answered sampleConf sampleEnv sampleCall sampleThread ⟨[], .tpreturn sampleReturn⟩ = true) :=
  ⟨_, rfl, @answered_once_iff sampleConf sampleEnv sampleCall sampleThread (fun _ => rfl) rfl rfl
    ⟨[], .tpreturn sampleReturn⟩ _ rfl⟩

/-- A service that returns without `tpreturn`, and one that forwards a buffer the system does not
know, leave the caller without an answer. -/
theorem left_without_answer :
    (sampleCall.last.noreply = false ∧ sampleCall.expired = false ∧ ∀ tr, sampleEnv.send tr = true) ∧
      (svServeCall sampleConf sampleEnv sampleCall ⟨[], .noReturn⟩ sampleThread).map
        (fun r => messages r.thread.trace) = some [] ∧
      (svServeCall sampleConf sampleEnv sampleCall ⟨[], .tpforward false⟩ sampleThread).map
        (fun r => messages r.thread.trace) = some [] :=
  ⟨⟨rfl, rfl, fun _ => rfl⟩, rfl, rfl⟩

end Endurox.Srv
