import Endurox.ServiceReply
import Endurox.XaHeld

/-! Work that is bound to a transaction is unbound again before the next request. -/

namespace Endurox.Srv

open Base.Trace List

section

variable {conf : Conf} {env : Env} {s s' : Thread} {call : Call}

/-- No operation of a service binds a branch that its transaction does not know. -/
theorem held_op {op : SvcOp} (h : Held env.xa s) (hop : op.run env s = some s') : Held env.xa s' := by
  cases op with
  | tpopen =>
    cases hop
    exact h
  | tpclose =>
    cases hop
    split
    · exact h
    · exact h
  | tpbegin =>
    cases hop
    exact held_tpbegin h
  | tpcommit =>
    cases hop
    exact held_tpcommit h
  | tpabort =>
    cases hop
    exact held_tpabort h
  | tpsuspend =>
    cases hop
    exact held_tpsuspend h
  | tpresume => exact held_tpresume h hop
  | work =>
    cases hop
    exact held_axReg h
  | calls =>
    cases hop
    exact held_map h (fun _ => rfl) (fun _ => rfl)

theorem held_runOps {ops : List SvcOp} (h : Held env.xa s) (hops : runOps env ops s = some s') :
    Held env.xa s' := by
  induction ops generalizing s with
  | nil =>
    cases hops
    exact h
  | cons op ops ih =>
    obtain ⟨_, h1, h2⟩ := Option.bind_eq_some_iff.mp hops
    exact ih (held_op h h1) h2

/-- The id that goes with the mark. The reply in an automatic transaction that could be neither
committed nor aborted has none. -/
def Names (auto : Bool) (id : ℕ) (tmxid : Option ℕ) : Prop :=
  tmxid = some id ∨ auto = true ∧ tmxid = none

def Marked (s : Thread) : Prop :=
  ∃ front id old, s.trace = front ++ .xaEnd id false :: old ∧ (∀ e ∈ front, e.msg?.isSome = true) ∧
    (∃ m ok, .sent m ok ∈ front ∧ m.abortOnly = true ∧ Names s.lastCall.autotran id m.tmxid) ∧
    ∀ i, bound s i = true → i = id

def Gone (s : Thread) : Prop := s.txinfo = none ∧ (Unbound s ∨ Marked s)

def Leaving (tx : Option TxInfo) (marked : Bool) (s : Thread) : Prop :=
  s.txinfo = none ∧ (Unbound s ∨ marked = true ∧ ∃ t old, tx = some t ∧
    s.trace = .xaEnd t.tmxid false :: old ∧ ∀ i, bound s i = true → i = t.tmxid)

variable {marked : Bool}

theorem leaveTran_some {t : TxInfo} (ht : s.txinfo = some t) :
    leaveTran env marked s = (marked || t.abortOnly || !(endWork env.xa t s).1,
      (endWork env.xa t s).2.reset) := by
  unfold leaveTran tpSrvDisassocTx
  simp [ht]

theorem leaving_leaveTran (h : Held env.xa s) :
    Leaving s.txinfo (leaveTran env marked s).1 (leaveTran env marked s).2 := by
  cases ht : s.txinfo with
  | none =>
    rw [leaveTran, ht]
    exact ⟨ht, .inl ((held_none ht).mp h)⟩
  | some t =>
    have honly : Only env.xa t s := (held_some ht).mp h
    rw [leaveTran_some ht]
    refine ⟨rfl, ?_⟩
    cases hok : (endWork env.xa t s).1 with
    | true => exact .inl (honly.endWork_ok hok)
    | false =>
      refine .inr ⟨by simp, t, s.trace, rfl, ?_, fun i hi => (honly.endWork i hi).1⟩
      rw [endWork_failed hok]
      rfl

theorem Leaving.send {tx : Option TxInfo} {m : Msg} (h : Leaving tx marked s) (hm : m.abortOnly = marked)
    (hnames : ∀ t, tx = some t → Names s.lastCall.autotran t.tmxid m.tmxid) :
    Gone (qSend env m s).2 := by
  obtain ⟨hout, hun | ⟨rfl, t, old, rfl, htr, hid⟩⟩ := h
  · exact ⟨hout, .inl (hun.add fun _ => rfl)⟩
  refine ⟨hout, .inr ⟨[.sent m (env.send s.trace)], t.tmxid, old, ?_, ?_, ?_, ?_⟩⟩
  · rw [qSend, Thread.add, htr]
    rfl
  · simp [Event.msg?]
  · exact ⟨m, _, mem_singleton_self _, hm, hnames t rfl⟩
  · intro i hi
    exact hid i (bound_add_neutral rfl hi)

theorem Gone.send {m : Msg} (h : Gone s) : Gone (qSend env m s).2 := by
  obtain ⟨hout, hun | ⟨front, id, old, htr, hfront, ⟨m', ok, hm', hmark⟩, hid⟩⟩ := h
  · exact ⟨hout, .inl (hun.add fun _ => rfl)⟩
  refine ⟨hout, .inr ⟨.sent m (env.send s.trace) :: front, id, old, ?_, ?_, ?_, ?_⟩⟩
  · rw [qSend, Thread.add, htr]
    rfl
  · intro e he
    obtain rfl | he := mem_cons.mp he
    · rfl
    · exact hfront e he
  · exact ⟨m', ok, mem_cons_of_mem _ hm', hmark⟩
  · intro i hi
    exact hid i (bound_add_neutral rfl hi)

theorem held_send {m : Msg} (h : Held env.xa s) : Held env.xa (qSend env m s).2 := by
  cases ht : s.txinfo with
  | none =>
    have hun : Unbound (qSend env m s).2 := ((held_none ht).mp h).add fun _ => rfl
    exact hun.held
  | some t =>
    have honly : Only env.xa t (qSend env m s).2 := ((held_some ht).mp h).add fun _ => rfl
    exact (held_some (show (qSend env m s).2.txinfo = some t from ht)).mpr honly

variable {rcode : Int}

theorem held_replyWithFailure {noreply : Bool} (h : Held env.xa s) :
    Held env.xa (replyWithFailure env noreply rcode s) := by
  unfold replyWithFailure
  split
  · exact h
  · exact held_send h

theorem Gone.replyWithFailure {noreply : Bool} (h : Gone s) :
    Gone (replyWithFailure env noreply rcode s) := by
  unfold Srv.replyWithFailure
  split
  · exact h
  · exact h.send

theorem held_abortOwn (h : Held env.xa s) : Held env.xa (abortOwn env s) := by
  unfold abortOwn
  split
  · exact held_tpabort h
  · exact h

theorem held_finishAuto {rval : Int} (h : Held env.xa s) : Held env.xa (finishAuto env rval s).2 := by
  unfold finishAuto
  split
  · exact held_tpcommit h
  · exact held_tpabort h

variable {a : ReturnArgs}

theorem held_endTran (h : Held env.xa s) : Held env.xa (endTran env a rcode s).2 := by
  unfold endTran
  dsimp only
  split
  · split
    · exact held_finishAuto h
    · exact held_finishAuto h
  · split
    · exact h
    · exact h

def Ended (xa : Xa) (s : Thread) : Prop := Held xa s ∨ Gone s

theorem prepareReply_tmxid {cvt : Cvt} {r : Reply} : (prepareReply env a cvt r).1.tmxid = r.tmxid := by
  unfold prepareReply
  split
  · split
    · rfl
    split
    · rfl
    split
    · rfl
    · rfl
  · rfl

theorem softErrors_tmxid {f : Soft} {r : Reply × Bool} : (softErrors f r).1.tmxid = r.1.tmxid := by
  unfold softErrors
  split
  · rfl
  split
  · rfl
  split
  · rfl
  · rfl

theorem endTran_names {t : TxInfo} (ht : (endTran env a rcode s).2.txinfo = some t) :
    Names s.lastCall.autotran t.tmxid (endTran env a rcode s).1.1.tmxid := by
  unfold endTran at ht ⊢
  dsimp only at ht ⊢
  split at ht
  · rename_i hauto
    have hauto' := (Bool.and_eq_true_iff.mp hauto).1
    rw [if_pos hauto]
    split
    · exact .inr ⟨hauto', rfl⟩
    · exact .inr ⟨hauto', prepareReply_tmxid⟩
  · rename_i hauto
    rw [if_neg hauto]
    split at ht
    · rename_i hnone
      rw [hnone] at ht
      cases ht
    · rename_i hsome
      rw [hsome] at ht
      cases ht
      exact .inl prepareReply_tmxid

theorem ended_sendReply {flags : Soft} {r : Reply × Bool} (h : Held env.xa s)
    (hr : ∀ t, s.txinfo = some t → Names s.lastCall.autotran t.tmxid r.1.tmxid) :
    Ended env.xa (sendReply conf env a flags r s).2 := by
  unfold sendReply
  dsimp only
  split
  · exact .inl h
  · refine .inr ((leaving_leaveTran h).send rfl fun t ht => ?_)
    rw [quiet_leaveTran.lastCall, Msg.tmxid, softErrors_tmxid]
    exact hr t ht

theorem ended_tpreturn (h : Held env.xa s) : Ended env.xa (tpreturn conf env a s).2 := by
  unfold tpreturn
  split
  · left
    apply held_abortOwn
    split
    · exact held_finishAuto h
    · exact h
  · refine ended_sendReply (held_endTran (held_abortOwn h)) fun t ht => ?_
    rw [quiet_endTran.lastCall]
    exact endTran_names ht

theorem ended_sendForward {f : Forward} (h : Held env.xa s)
    (hf : f.tmxid = s.txinfo.map TxInfo.tmxid) : Ended env.xa (sendForward conf env f s).2 := by
  unfold sendForward
  split
  · exact .inl (held_replyWithFailure h)
  have hgone : Gone (qSend env (.forward {f with abortOnly := (leaveTran env f.abortOnly s).1})
      (leaveTran env f.abortOnly s).2).2 := by
    refine (leaving_leaveTran h).send rfl fun t ht => .inl ?_
    rw [Msg.tmxid, hf, ht]
    rfl
  dsimp only
  split
  · exact .inr hgone
  · exact .inr hgone.replyWithFailure

theorem ended_tpforward {inConv known : Bool} (h : Held env.xa s) :
    Ended env.xa (tpforward conf env inConv known s).2 := by
  unfold tpforward
  split
  · exact ended_tpreturn h
  split
  · exact .inl h
  split
  · exact .inl h
  split
  · exact .inl h
  split
  · exact .inl h
  unfold forwardEncoded
  split
  · exact .inl h
  · exact ended_sendForward h rfl

theorem ended_ending {inConv : Bool} {e : Ending} (h : Held env.xa s) :
    Ended env.xa (e.run conf env inConv s).2 := by
  cases e with
  | tpreturn => exact ended_tpreturn h
  | tpforward => exact ended_tpforward h
  | noReturn => exact .inl h

theorem ended_afterService {b : Back} (h : Ended env.xa s) :
    Ended env.xa (afterService conf env call s b).thread := by
  obtain hheld | hgone := h
  · have hno : Held env.xa (noReturn env call s).thread := by
      unfold noReturn
      split
      · exact held_tpabort hheld
      · exact hheld
    left
    cases b with
    | jumped => exact hheld
    | returned =>
      rw [afterService]
      split
      · exact hheld
      · exact hno
  · rw [afterService_none hgone.1]
    exact .inr hgone

theorem afterService_service {b : Back} : (afterService conf env call s b).service = true := by
  cases b with
  | jumped => rfl
  | returned =>
    rw [afterService]
    split
    · rfl
    · rfl

structure Leaves (xa : Xa) (r : Served) : Prop where
  withService : r.service = true → Ended xa r.thread
  without : r.service = false → Gone r.thread

theorem leaves_with {st : Bool} (h : Ended env.xa s) : Leaves env.xa ⟨true, st, s⟩ :=
  ⟨fun _ => h, fun h => Bool.noConfusion h⟩

theorem leaves_without {st : Bool} (h : Gone s) : Leaves env.xa ⟨false, st, s⟩ :=
  ⟨fun h => Bool.noConfusion h, fun _ => h⟩

variable {r : Served} {svc : Service}

theorem leaves_callService {inConv : Bool} (h : Held env.xa s)
    (hr : callService conf env call svc inConv s = some r) : Leaves env.xa r := by
  obtain ⟨_, hops, rfl⟩ := Option.map_eq_some_iff.mp hr
  refine ⟨fun _ => ended_afterService (ended_ending (held_runOps h hops)), ?_⟩
  intro hno
  rw [afterService_service] at hno
  cases hno

structure Starts (xa : Xa) (b : Bool × Thread) : Prop where
  started : b.1 = true → Held xa b.2
  failed : b.1 = false → Unbound b.2 ∧ b.2.txinfo = none

theorem Joins.starts {xa : Xa} {t : TxInfo} {r : Bool × Thread} (h : Joins xa t r) : Starts xa r :=
  ⟨fun _ => h.held, h.failed⟩

theorem tpbegin_exfail {xa : Xa} (hout : s.txinfo = none) (hrc : (ndrxTpbegin xa s).1 = .exfail) :
    (ndrxTpbegin xa s).2.txinfo = none := by
  unfold ndrxTpbegin at hrc ⊢
  split
  · exact hout
  rename_i hopen
  rw [if_neg hopen] at hrc
  dsimp only at hrc ⊢
  split
  · exact hout
  rename_i hok
  rw [if_neg hok] at hrc
  split
  · exact hout
  rename_i hread
  rw [if_neg hread] at hrc
  split
  · rename_i hdyn
    rw [if_pos hdyn] at hrc
    split
    · rename_i hrec
      rw [if_pos hrec] at hrc
      cases hrc
    · exact joinFail_txinfo.trans hout
  · rename_i hdyn
    rw [if_neg hdyn] at hrc
    split
    · rename_i hstart
      rw [if_pos hstart] at hrc
      cases hrc
    · exact joinFail_txinfo.trans hout

theorem starts_beginAuto (h : Unbound s) (hout : s.txinfo = none) :
    Starts env.xa (beginAuto env s) := by
  have hheld : Held env.xa (ndrxTpbegin env.xa s).2 := held_tpbegin h.held
  unfold beginAuto
  dsimp only
  split
  · rename_i hrc
    have hnone := tpbegin_exfail hout hrc
    exact ⟨fun h => Bool.noConfusion h, fun _ => ⟨(held_none hnone).mp hheld, hnone⟩⟩
  · exact ⟨fun _ => hheld, fun h => Bool.noConfusion h⟩

theorem starts_joinCall {x : CallTx} {j : Bool × Thread} (h : Unbound s) (hout : s.txinfo = none)
    (hj : joinCall conf env x s = some j) : Starts env.xa j := by
  unfold joinCall at hj
  split at hj
  · exact (joins_joinOrNew h hout hj).starts
  · cases hj
    exact ⟨fun _ => h.held, fun h => Bool.noConfusion h⟩

variable {b : Bool × Thread}

theorem starts_markInitiator {j : Bool × Thread} (h : Starts env.xa j)
    (hb : markInitiator call j = some b) : Starts env.xa b := by
  unfold markInitiator at hb
  split at hb
  · rename_i hmark
    obtain ⟨t, ht, rfl⟩ := Option.map_eq_some_iff.mp hb
    have honly : Only env.xa t j.2 :=
      (held_some ht).mp (h.started (Bool.and_eq_true_iff.mp hmark).1)
    exact ⟨fun _ => honly, fun h => Bool.noConfusion h⟩
  · cases hb
    exact h

theorem starts_startTran {marks : Bool} (h : Unbound s) (hout : s.txinfo = none)
    (hb : startTran conf env call marks s = some b) : Starts env.xa b := by
  unfold startTran at hb
  cases htx : call.tx with
  | some =>
    simp only [htx] at hb
    obtain ⟨_, hj, hb⟩ := Option.bind_eq_some_iff.mp hb
    have hstart := starts_joinCall h hout hj
    cases marks
    · cases hb
      exact hstart
    · exact starts_markInitiator hstart hb
  | none =>
    simp only [htx] at hb
    cases hb
    split
    · exact starts_beginAuto h hout
    · exact ⟨fun _ => h.held, fun h => Bool.noConfusion h⟩

theorem held_convertIn (h : Held env.xa s) : Held env.xa (convertIn conf env call s).2 := by
  unfold convertIn
  split
  · exact h
  · exact h

theorem leaves_serveCallIn (h : Starts env.xa b) (hr : serveCallIn conf env call svc b = some r) :
    Leaves env.xa r := by
  unfold serveCallIn at hr
  dsimp only at hr
  split at hr
  · rename_i hb
    cases hr
    obtain ⟨hun, hout⟩ := h.failed (by simpa using hb)
    exact leaves_without (Gone.replyWithFailure ⟨hout, .inl hun⟩)
  rename_i hb
  have hheld : Held env.xa b.2 := h.started (by simpa using hb)
  split at hr
  · cases hr
    exact leaves_with (.inl (held_replyWithFailure (held_convertIn hheld)))
  · exact leaves_callService (held_convertIn hheld) hr

theorem leaves_serveConnectIn (haccept : env.acceptConnection = true) (h : Starts env.xa b)
    (hr : serveConnectIn conf env call svc b = some r) : Leaves env.xa r := by
  unfold serveConnectIn at hr
  rw [haccept] at hr
  split at hr
  · rename_i hb
    cases hr
    obtain ⟨hun, hout⟩ := h.failed (by simpa using hb)
    exact leaves_without ⟨hout, .inl hun⟩
  · rename_i hb
    exact leaves_callService (h.started (by simpa using hb)) hr

theorem leaves_svServe {req : Request} (haccept : env.acceptConnection = true) (h : Unbound s)
    (hout : s.txinfo = none) (hr : svServe conf env req s = some r) : Leaves env.xa r := by
  have hgone : Gone s := ⟨hout, .inl h⟩
  cases req with
  | call c =>
    rw [svServe, svServeCall] at hr
    split at hr
    · cases hr
      exact leaves_without hgone
    split at hr
    · cases hr
      exact leaves_without hgone.replyWithFailure
    obtain ⟨b, hb, hr⟩ := Option.bind_eq_some_iff.mp hr
    exact leaves_serveCallIn (starts_startTran (s := {s with lastCall := c.last}) h hout hb) hr
  | connect c =>
    rw [svServe, svServeConnect] at hr
    split at hr
    · cases hr
      exact leaves_without hgone
    obtain ⟨_, hb, hr⟩ := Option.bind_eq_some_iff.mp hr
    exact leaves_serveConnectIn haccept (starts_startTran (s := {s with lastCall := c.last}) h hout hb) hr
  | other =>
    cases hr
    exact leaves_without hgone

theorem gone_disassoc (h : Ended env.xa s) : Gone (tpSrvDisassocTx env.xa true s).2 := by
  unfold tpSrvDisassocTx
  cases ht : s.txinfo with
  | none =>
    obtain hheld | hgone := h
    · exact ⟨ht, .inl ((held_none ht).mp hheld)⟩
    · exact hgone
  | some =>
    obtain hheld | hgone := h
    · exact ⟨rfl, .inl ((held_some ht).mp hheld).endWork.joinFail_force⟩
    · rw [hgone.1] at ht
      cases ht

theorem gone_svServerRequest {req : Request} (hshm : conf.shmAttached = true)
    (haccept : env.acceptConnection = true) (h : Unbound s) (hout : s.txinfo = none)
    (hr : svServerRequest conf env req s = some s') : Gone s' := by
  unfold svServerRequest at hr
  split at hr
  · cases hr
    exact ⟨hout, .inl h⟩
  obtain ⟨r, hserve, rfl⟩ := Option.map_eq_some_iff.mp hr
  have hleaves := leaves_svServe haccept h hout hserve
  rw [hshm]
  cases hsvc : r.service with
  | true => exact gone_disassoc (hleaves.withService hsvc)
  | false => exact hleaves.without hsvc

end

section

variable {s s' : Thread} {e : Event} {id : ℕ} {newer older : List Event}

theorem Event.closes_of_opens (h : e.opens id = true) : e.closes id = false := by
  cases e with
  | xaStart => rfl
  | axReg => rfl
  | xaEnd => cases h
  | tm => cases h
  | sent => cases h

/-- Work that was bound to a transaction was ended, or the manager was asked for the abort, or the
message that was sent after a failed `xa_end` marks the transaction. -/
def Settled (auto : Bool) (id : ℕ) (newer : List Event) : Prop :=
  .xaEnd id true ∈ newer ∨ (∃ ok, .tm .tpabort id ok ∈ newer) ∨
    .xaEnd id false ∈ newer ∧
      ∃ m ok, .sent m ok ∈ newer ∧ m.abortOnly = true ∧ Names auto id m.tmxid

theorem settled_of_closes {auto : Bool} (he : e ∈ newer) (hc : e.closes id = true) :
    Settled auto id newer := by
  cases e with
  | xaStart => cases hc
  | axReg => cases hc
  | xaEnd i ok =>
    cases ok with
    | true =>
      obtain rfl : i = id := beq_iff_eq.mp hc
      exact .inl he
    | false => cases hc
  | tm cmd i ok =>
    cases cmd with
    | tpabort =>
      obtain rfl : i = id := beq_iff_eq.mp hc
      exact .inr (.inl ⟨ok, he⟩)
    | tpbegin | tpcommit | tmregister => cases hc
  | sent => cases hc

/-- What was opened under a marked thread is ended, aborted, or told to the caller. -/
theorem Marked.settled (h : Marked s) (hb : bound s id = true) (htr : s.trace = newer ++ e :: older)
    (ho : e.opens id = true) : Settled s.lastCall.autotran id newer := by
  obtain ⟨front, _, _, hfront, hmsgs, ⟨m, ok, hm, hmark⟩, hid⟩ := h
  obtain rfl := hid id hb
  -- the binding event is neither a message nor the failed `xa_end`, so it is older than both
  have hne : e ≠ .xaEnd id false := by
    rintro rfl
    cases ho
  have hmem : e ∉ front := by
    intro he
    have hmsg := hmsgs e he
    cases e with
    | sent => cases ho
    | _ => cases hmsg
  obtain ⟨as, hnew, has⟩ | ⟨bs, hfr, hbs⟩ := append_eq_append_iff.mp (hfront.symm.trans htr)
  · cases as with
    | nil => exact absurd (List.cons.inj has).1.symm hne
    | cons =>
      obtain ⟨rfl, -⟩ := List.cons.inj has
      refine .inr (.inr ⟨?_, m, ok, ?_, hmark⟩)
      · rw [hnew]
        simp
      · rw [hnew]
        exact mem_append_left _ hm
  · cases bs with
    | nil => exact absurd (List.cons.inj hbs).1 hne
    | cons =>
      obtain ⟨rfl, -⟩ := List.cons.inj hbs
      refine absurd ?_ hmem
      rw [hfr]
      simp

theorem Gone.settled (h : Gone s) (htr : s.trace = newer ++ e :: older) (ho : e.opens id = true) :
    Settled s.lastCall.autotran id newer := by
  cases hb : bound s id with
  | false =>
    obtain ⟨_, he', hc⟩ := closed_after hb htr ho (Event.closes_of_opens ho)
    exact settled_of_closes he' hc
  | true =>
    obtain ⟨-, hun | hmarked⟩ := h
    · rw [hun id] at hb
      cases hb
    · exact hmarked.settled hb htr ho

structure Job where
  conf : Conf
  env : Env
  req : Request

def Job.serve (s : Thread) (j : Job) : Option Thread :=
  svServerRequest j.conf j.env j.req {s with trace := []}

theorem gone_serve {j : Job} (hshm : j.conf.shmAttached = true)
    (haccept : j.env.acceptConnection = true) (hout : s.txinfo = none) (hr : j.serve s = some s') :
    Gone s' :=
  gone_svServerRequest (s := {s with trace := []}) hshm haccept (fun _ => rfl) hout hr

theorem out_after_all {jobs : List Job}
    (hjobs : ∀ j ∈ jobs, j.conf.shmAttached = true ∧ j.env.acceptConnection = true)
    (hout : s.txinfo = none) (hr : jobs.foldlM Job.serve s = some s') : s'.txinfo = none := by
  induction jobs generalizing s with
  | nil =>
    cases hr
    exact hout
  | cons j jobs ih =>
    obtain ⟨_, h1, h2⟩ := Option.bind_eq_some_iff.mp hr
    obtain ⟨hshm, haccept⟩ := hjobs j mem_cons_self
    have hgone := gone_serve hshm haccept hout h1
    exact ih (fun k hk => hjobs k (mem_cons_of_mem _ hk)) hgone.1 h2

/-- Whatever requests the thread has served, after the next one it is in no transaction, and work
that was bound to one during that request is settled. -/
theorem no_transaction_left {jobs : List Job} {j : Job} {s'' : Thread}
    (hjobs : ∀ k ∈ jobs ++ [j], k.conf.shmAttached = true ∧ k.env.acceptConnection = true)
    (hout : s.txinfo = none) (hall : jobs.foldlM Job.serve s = some s') (hr : j.serve s' = some s'') :
    s''.txinfo = none ∧ ∀ newer e older id, s''.trace = newer ++ e :: older → e.opens id = true →
      Settled s''.lastCall.autotran id newer := by
  have hbefore := out_after_all (fun k hk => hjobs k (mem_append_left _ hk)) hout hall
  obtain ⟨hshm, haccept⟩ := hjobs j (by simp)
  have hgone := gone_serve hshm haccept hbefore hr
  exact ⟨hgone.1, fun newer e older id htr ho => hgone.settled htr ho⟩

end

def tranCall : Call := {sampleCall with tx := some ⟨7, .empty, false⟩}

def sampleJob (env : Env) : Job := ⟨sampleConf, env, .call tranCall ⟨[], .tpreturn sampleReturn⟩⟩

theorem no_transaction_left_twice :
    ∃ s, [sampleJob sampleEnv, sampleJob sampleEnv].foldlM Job.serve sampleThread = some s ∧
      s.txinfo = none ∧ ∀ newer e older id, s.trace = newer ++ e :: older → e.opens id = true →
        Settled s.lastCall.autotran id newer := by
  have hjobs : ∀ k ∈ [sampleJob sampleEnv] ++ [sampleJob sampleEnv],
      k.conf.shmAttached = true ∧ k.env.acceptConnection = true := by
    intro k hk
    obtain rfl : k = sampleJob sampleEnv := by simpa using hk
    exact ⟨rfl, rfl⟩
  exact ⟨_, rfl, no_transaction_left hjobs (s := sampleThread) rfl rfl rfl⟩

/-- `xa_end` fails in `tpreturn`: the transaction manager is not told, only the caller. -/
theorem only_caller_told :
    ((sampleJob {sampleEnv with xa := {sampleXa with xaEnd := fun _ => false}}).serve sampleThread).map
        Thread.trace =
      some [.sent (.reply ⟨tpsuccess, 0, false, some 7, true, some [1]⟩) true, .xaEnd 7 false,
        .xaStart 7 .ok, .tm .tmregister 7 true] :=
  rfl

-- a conversation that is not accepted: the thread goes on in its transaction
example :
    ((⟨sampleConf, {sampleEnv with acceptConnection := false},
      .connect tranCall ⟨[], .noReturn⟩⟩ : Job).serve sampleThread).map (fun s => s.txinfo.isSome) =
      some true := rfl

end Endurox.Srv
