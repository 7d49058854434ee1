import Endurox.ServiceReply

/-! What a reply says about the transactions of the call. -/

namespace Endurox.Srv

def Happens (e : Event) (s s' : Thread) : Prop := ∃ new, s'.trace = new ++ s.trace ∧ e ∈ new

section

variable {e : Event} {s s' s'' : Thread}

theorem Grown.happens_add (h : Grown s s') (e : Event) : Happens e s (s'.add e) := by
  obtain ⟨new, htr, -⟩ := h
  exact ⟨e :: new, by rw [Thread.add, htr]; rfl, List.mem_cons_self⟩

theorem Happens.later (h : Happens e s s') (h' : s'.trace <:+ s''.trace) : Happens e s s'' := by
  obtain ⟨new, htr, he⟩ := h
  obtain ⟨more, hmore⟩ := h'
  refine ⟨more ++ new, ?_, List.mem_append_right _ he⟩
  rw [← hmore, htr, List.append_assoc]

theorem Grown.suffix (h : Grown s s') : s.trace <:+ s'.trace := by
  obtain ⟨new, htr, -⟩ := h
  exact ⟨new, htr.symm⟩

end

section

variable {xa : Xa} {s : Thread} {t : TxInfo}

theorem tpcommit_answered (ht : s.txinfo = some t) (h : (ndrxTpcommit xa s).1 = true) :
    Happens (.tm .tpcommit t.tmxid true) s (ndrxTpcommit xa s).2 := by
  unfold ndrxTpcommit at h ⊢
  cases hopen : s.isXaOpen with
  | false =>
    simp only [hopen] at h
    cases h
  | true =>
    simp only [hopen, ht, Bool.not_true, Bool.false_eq_true, if_false] at h ⊢
    split at h
    · cases h
    rename_i hinit
    rw [if_neg hinit]
    split at h
    · cases h
    rename_i habort
    rw [if_neg habort]
    have hok : xa.tm (endWork xa t s).2.trace = true := h
    have hq : Quiet s (endWork xa t s).2 := quiet_endWork
    rw [callTm, hok]
    exact hq.grown.happens_add _

theorem tpabort_asked {callXaEnd : Bool} (ht : s.txinfo = some t) (hinit : t.initiator = true)
    (hopen : s.isXaOpen = true) :
    (∃ ok, Happens (.tm .tpabort t.tmxid ok) s (ndrxTpabort xa callXaEnd s).2) ∧
      (ndrxTpabort xa callXaEnd s).2.txinfo = none := by
  have hq : Quiet s (if callXaEnd then (endWork xa t s).2 else s) := by
    split
    · exact quiet_endWork
    · exact .refl s
  unfold ndrxTpabort
  simp only [hopen, ht, hinit]
  exact ⟨⟨_, hq.grown.happens_add _⟩, rfl⟩

end

section

variable {conf : Conf} {env : Env} {s : Thread} {t : TxInfo} {a : ReturnArgs}

theorem prepareReply_ok {cvt : Cvt} {r : Reply} (hs : a.rval = tpsuccess)
    (h : (prepareReply env a cvt r).1.replyError = false) :
    ∃ d, env.encode = some d ∧ (prepareReply env a cvt r).1.data = some d := by
  unfold prepareReply at h ⊢
  rw [if_pos (Or.inr (Or.inl hs))] at h ⊢
  split at h
  · cases h
  rename_i hknown
  rw [if_neg hknown]
  split at h
  · cases h
  rename_i hcvt
  rw [if_neg hcvt]
  cases henc : env.encode with
  | none =>
    simp only [henc] at h
    cases h
  | some d => exact ⟨d, rfl, rfl⟩

theorem prepareReply_rcode {cvt : Cvt} {r : Reply} (hr : r.rcode = tpesvcerr)
    (henc : env.encode.isSome = true) : (prepareReply env a cvt r).1.rcode = tpesvcerr := by
  unfold prepareReply
  split
  · split
    · rfl
    · split
      · rfl
      · obtain ⟨_, hd⟩ := Option.isSome_iff_exists.mp henc
        simp only [hd]
        exact hr
  · exact hr

theorem softErrors_ok {f : Soft} {r : Reply × Bool} (h : (softErrors f r).1.replyError = false) :
    f.any = false ∧ softErrors f r = r := by
  unfold softErrors at h ⊢
  unfold Soft.any
  cases hto : f.timeout with
  | true => simp [hto] at h
  | false =>
    cases hno : f.enoent with
    | true => simp [hto, hno] at h
    | false =>
      cases herr : f.err with
      | true => simp [hto, hno, herr] at h
      | false => simp

theorem endTran_none {rcode : Int} (h : s.txinfo = none) :
    endTran env a rcode s =
      (prepareReply env a s.lastCall.cvt ⟨0, rcode, false, none, false, none⟩, s) := by
  unfold endTran inAutotran
  rw [h, Option.isSome_none, Bool.and_false, if_neg Bool.false_ne_true]

/-- A success without a reply error has committed the transaction begun for the call. -/
theorem endTran_ok {rcode : Int} (hs : a.rval = tpsuccess)
    (h : (endTran env a rcode s).1.1.replyError = false) :
    (∀ t, s.txinfo = some t → s.lastCall.autotran = true →
      Happens (.tm .tpcommit t.tmxid true) s (endTran env a rcode s).2) ∧
      ∃ d, env.encode = some d ∧ (endTran env a rcode s).1.1.data = some d := by
  unfold endTran at h ⊢
  cases hauto : inAutotran s with
  | true =>
    simp only [hauto] at h ⊢
    cases hf : (finishAuto env a.rval s).1 with
    | false =>
      simp only [hf] at h
      cases h
    | true =>
      simp only [hf] at h ⊢
      refine ⟨?_, prepareReply_ok hs h⟩
      intro t ht _
      rw [finishAuto, if_pos hs] at hf ⊢
      exact tpcommit_answered ht hf
  | false =>
    simp only [hauto] at h ⊢
    cases ht : s.txinfo with
    | none =>
      simp only [ht] at h ⊢
      refine ⟨?_, prepareReply_ok hs h⟩
      intro t h
      cases h
    | some =>
      simp only [ht] at h ⊢
      refine ⟨?_, prepareReply_ok hs h⟩
      intro t' _ hat
      rw [inAutotran, hat, ht] at hauto
      cases hauto

def replyOf (env : Env) (a : ReturnArgs) (s : Thread) : Reply × Thread :=
  let own := initiatedTranAttached s
  let r := endTran env a (if own then tpesvcerr else a.rcode) (abortOwn env s)
  ((softErrors (if own then ⟨false, false, true⟩ else a.flags)
    ({r.1.1 with rval := if a.rval = tpexit then tpfail else a.rval}, r.1.2)).1, r.2)

theorem tpreturn_trace (hno : s.lastCall.noreply = false) : (tpreturn conf env a s).2 =
      if env.fillReplyQueue then
        (qSend env (.reply {(replyOf env a s).1 with
          abortOnly := (leaveTran env (replyOf env a s).1.abortOnly (replyOf env a s).2).1})
          (leaveTran env (replyOf env a s).1.abortOnly (replyOf env a s).2).2).2
      else (replyOf env a s).2 := by
  unfold tpreturn
  rw [hno]
  unfold sendReply
  cases env.fillReplyQueue
  · rfl
  · rfl

theorem quiet_replyOf : Quiet s (replyOf env a s).2 := quiet_abortOwn.trans quiet_endTran

/-- What a reply without an error says about the state `s` that the service has left, with the
thread in `s'` after it. -/
structure Safe (env : Env) (a : ReturnArgs) (q : Reply) (s s' : Thread) : Prop where
  success : a.rval = tpsuccess
  flags : a.flags.any = false
  own : initiatedTranAttached s = false
  committed : ∀ t, s.txinfo = some t → s.lastCall.autotran = true →
    Happens (.tm .tpcommit t.tmxid true) s s'
  encoded : ∃ d, env.encode = some d ∧ q.data = some d

theorem replyOf_safe (hs : (replyOf env a s).1.rval = tpsuccess)
    (herr : (replyOf env a s).1.replyError = false) :
    Safe env a (replyOf env a s).1 s (replyOf env a s).2 := by
  unfold replyOf at hs herr ⊢
  cases hown : initiatedTranAttached s with
  | true =>
    simp only [hown] at herr
    obtain ⟨hany, -⟩ := softErrors_ok herr
    cases hany
  | false =>
    have hsame : abortOwn env s = s := by rw [abortOwn, hown, if_neg Bool.false_ne_true]
    simp only [hown, hsame] at hs herr ⊢
    obtain ⟨hany, heq⟩ := softErrors_ok herr
    rw [heq] at hs herr ⊢
    have hval : a.rval = tpsuccess := by
      by_cases hexit : a.rval = tpexit
      · rw [if_pos hexit] at hs
        cases hs
      · rw [if_neg hexit] at hs
        exact hs
    obtain ⟨hcommit, henc⟩ := endTran_ok hval herr
    exact ⟨hval, hany, hown, hcommit, henc⟩

theorem replyOf_own (ht : s.txinfo = some t) (hown : initiatedTranAttached s = true)
    (hopen : s.isXaOpen = true) :
    (∃ ok, Happens (.tm .tpabort t.tmxid ok) s (replyOf env a s).2) ∧
      (replyOf env a s).2.txinfo = none ∧
      (replyOf env a s).1.replyError = true ∧
      (env.encode.isSome = true → (replyOf env a s).1.rcode = tpesvcerr) := by
  have hinit : t.initiator = true := by
    rw [initiatedTranAttached, ht] at hown
    exact (Bool.and_eq_true_iff.mp hown).1
  have hsame : abortOwn env s = (ndrxTpabort env.xa true s).2 := by rw [abortOwn, hown, if_pos rfl]
  have hasked : (∃ ok, Happens (.tm .tpabort t.tmxid ok) s (abortOwn env s)) ∧
      (abortOwn env s).txinfo = none := by
    rw [hsame]
    exact tpabort_asked ht hinit hopen
  unfold replyOf
  simp only [hown, endTran_none hasked.2]
  refine ⟨hasked.1, hasked.2, rfl, ?_⟩
  intro henc
  exact prepareReply_rcode rfl henc

theorem quiet_tpreturn_noreply (hno : s.lastCall.noreply = true) :
    Quiet s (tpreturn conf env a s).2 := by
  unfold tpreturn
  rw [if_pos hno]
  refine Quiet.trans ?_ quiet_abortOwn
  split
  · exact quiet_finishAuto
  · exact .refl s

theorem suffix_qSend (env : Env) (m : Msg) (s : Thread) : s.trace <:+ (qSend env m s).2.trace :=
  List.suffix_cons _ _

theorem tpreturn_sends (hnew : ∀ m ok, .sent m ok ∉ s.trace) {q : Reply} {ok : Bool}
    (h : .sent (.reply q) ok ∈ (tpreturn conf env a s).2.trace) :
    ∃ marked, q = {(replyOf env a s).1 with abortOnly := marked} ∧
      (replyOf env a s).2.trace <:+ (tpreturn conf env a s).2.trace := by
  cases hno : s.lastCall.noreply with
  | true => exact absurd ((quiet_tpreturn_noreply hno).grown.msg_mem h) (hnew _ _)
  | false =>
    have hq : Quiet s (replyOf env a s).2 := quiet_replyOf
    have hl (marked : Bool) : Quiet (replyOf env a s).2 (leaveTran env marked (replyOf env a s).2).2 :=
      quiet_leaveTran
    rw [tpreturn_trace hno] at h ⊢
    cases hfill : env.fillReplyQueue with
    | false =>
      rw [hfill] at h
      exact absurd (hq.grown.msg_mem h) (hnew _ _)
    | true =>
      rw [hfill] at h
      obtain heq | hmem := List.mem_cons.mp h
      · cases heq
        exact ⟨_, rfl, (hl _).grown.suffix.trans (suffix_qSend _ _ _)⟩
      · exact absurd (hq.grown.msg_mem ((hl _).grown.msg_mem hmem)) (hnew _ _)

/-- A return with a transaction of its own left open aborts it and answers with an error. -/
theorem tpreturn_own (ht : s.txinfo = some t) (hown : initiatedTranAttached s = true)
    (hopen : s.isXaOpen = true) :
    (∃ ok, Happens (.tm .tpabort t.tmxid ok) s (tpreturn conf env a s).2) ∧
      (tpreturn conf env a s).2.txinfo = none ∧
      (s.lastCall.noreply = false → env.fillReplyQueue = true → env.encode.isSome = true →
        ∃ q ok, .sent (.reply q) ok ∈ (tpreturn conf env a s).2.trace ∧ q.replyError = true ∧
          q.rcode = tpesvcerr) := by
  have hboth : t.initiator = true ∧ (!s.lastCall.autotran) = true := by
    rw [initiatedTranAttached, ht] at hown
    exact Bool.and_eq_true_iff.mp hown
  cases hno : s.lastCall.noreply with
  | true =>
    have hat : s.lastCall.autotran = false := by simpa using hboth.2
    have hsame : (tpreturn conf env a s).2 = (ndrxTpabort env.xa true s).2 := by
      unfold tpreturn abortOwn inAutotran
      simp [hno, hat, hown]
    rw [hsame]
    refine ⟨(tpabort_asked ht hboth.1 hopen).1, (tpabort_asked ht hboth.1 hopen).2, ?_⟩
    intro h
    cases h
  | false =>
    have hreply : _ ∧ (replyOf env a s).2.txinfo = none ∧ _ := replyOf_own ht hown hopen
    obtain ⟨⟨ok, hasked⟩, hout, herr, hcode⟩ := hreply
    have hstay (marked : Bool) : leaveTran env marked (replyOf env a s).2 = (marked, (replyOf env a s).2) := by
      rw [leaveTran, hout]
    rw [tpreturn_trace hno, hstay]
    cases hfill : env.fillReplyQueue with
    | false =>
      refine ⟨⟨ok, hasked⟩, hout, ?_⟩
      intro _ h
      cases h
    | true =>
      refine ⟨⟨ok, hasked.later (suffix_qSend _ _ _)⟩, hout, ?_⟩
      intro _ _ henc
      exact ⟨_, _, List.mem_cons_self, herr, hcode henc⟩

/-- A reply without an error says that the work is safe, and a transaction that the service has left
open is aborted. -/
theorem success_is_safe {call : Call} {ops : List SvcOp} {r : Served} (htrace : s.trace = [])
    (hrun : svServeCall conf env call ⟨ops, .tpreturn a⟩ s = some r) :
    (∀ q ok, .sent (.reply q) ok ∈ r.thread.trace → q.rval = tpsuccess → q.replyError = false →
      ∃ s', atEnd conf env call s ops = some s' ∧ Safe env a q s' r.thread) ∧
    (∀ s' t, atEnd conf env call s ops = some s' → s'.txinfo = some t →
      initiatedTranAttached s' = true → s'.isXaOpen = true →
      (∃ ok, Happens (.tm .tpabort t.tmxid ok) s' r.thread) ∧ r.thread.txinfo = none ∧
        (call.last.noreply = false → env.fillReplyQueue = true → env.encode.isSome = true →
          ∃ q ok, .sent (.reply q) ok ∈ r.thread.trace ∧ q.replyError = true ∧ q.rcode = tpesvcerr)) := by
  have hnew {s' : Thread} (h : Grown s s') (m : Msg) (ok : Bool) : .sent m ok ∉ s'.trace := by
    intro hmem
    have := h.msg_mem hmem
    rw [htrace] at this
    cases this
  obtain ⟨-, hr, hend⟩ | ⟨-, hend, s', _, hs', hr⟩ | ⟨-, s', hend, hs', hno, hr⟩ :=
    svServeCall_cases hrun
  · rw [hend, hr]
    constructor
    · intro q ok hmem
      exact absurd hmem (hnew (.refl s) _ _)
    · intro s' t h
      cases h
  · rw [hend, hr]
    constructor
    · intro q ok hmem _ herr
      -- the dispatcher's own replies carry an error
      unfold replyWithFailure at hmem
      split at hmem
      · exact absurd hmem (hnew hs' _ _)
      · obtain heq | hmem := List.mem_cons.mp hmem
        · cases heq
          cases herr
        · exact absurd hmem (hnew hs' _ _)
    · intro s' t h
      cases h
  · have hafter : Quiet (tpreturn conf env a s').2 r.thread := by
      rw [hr]
      exact quiet_afterService
    constructor
    · intro q ok hmem hval herr
      obtain ⟨_, rfl, hsuf⟩ := tpreturn_sends (hnew hs') (hafter.grown.msg_mem hmem)
      have hsafe : Safe env a (replyOf env a s').1 s' (replyOf env a s').2 := replyOf_safe hval herr
      refine ⟨s', hend, hsafe.success, hsafe.flags, hsafe.own, ?_, hsafe.encoded⟩
      intro t ht hat
      exact (hsafe.committed t ht hat).later (hsuf.trans hafter.grown.suffix)
    · intro s'' t hs'' ht hown hopen
      have hsame : s'' = s' := Option.some.inj (hs''.symm.trans hend)
      rw [hsame] at ht hown hopen
      have hret : _ ∧ (tpreturn conf env a s').2.txinfo = none ∧ _ := tpreturn_own ht hown hopen
      rw [hsame, hr, show Ending.run conf env false s' _ = tpreturn conf env a s' from rfl,
        afterService_none hret.2.1]
      refine ⟨hret.1, hret.2.1, ?_⟩
      intro hn
      exact hret.2.2 (hno.trans hn)

end

def autoConf : Conf := {sampleConf with autotran := true}

theorem success_is_safe_committed :
    ∃ r, svServeCall autoConf sampleEnv sampleCall ⟨[], .tpreturn sampleReturn⟩ sampleThread = some r ∧
      (∀ q ok, .sent (.reply q) ok ∈ r.thread.trace → q.rval = tpsuccess → q.replyError = false →
        ∃ s', atEnd autoConf sampleEnv sampleCall sampleThread [] = some s' ∧
          Safe sampleEnv sampleReturn q s' r.thread) :=
  ⟨_, rfl, (@success_is_safe autoConf sampleEnv sampleThread sampleReturn sampleCall [] _ rfl rfl).1⟩

/-- A service aborts the automatic transaction of its call and returns `TPSUCCESS`: the reply carries
no error. One it then begins by itself takes its place and is committed. -/
theorem ended_by_service :
    (svServeCall autoConf sampleEnv sampleCall ⟨[.tpabort], .tpreturn sampleReturn⟩ sampleThread).map
        (fun r => r.thread.trace) =
      some [.sent (.reply ⟨tpsuccess, 0, false, none, false, some [1]⟩) true, .tm .tpabort 1 true,
        .xaEnd 1 true, .xaStart 1 .ok, .tm .tpbegin 1 true] ∧
    (svServeCall autoConf sampleEnv sampleCall ⟨[.tpabort, .tpbegin], .tpreturn sampleReturn⟩
        sampleThread).map (fun r => r.thread.trace) =
      some [.sent (.reply ⟨tpsuccess, 0, false, none, false, some [1]⟩) true, .tm .tpcommit 1 true,
        .xaEnd 1 true, .xaStart 1 .ok, .tm .tpbegin 1 true, .tm .tpabort 1 true, .xaEnd 1 true,
        .xaStart 1 .ok, .tm .tpbegin 1 true] :=
  ⟨rfl, rfl⟩

end Endurox.Srv
