import Endurox.TmqRuns

/-! The order in which a queue gives its messages. -/

namespace Endurox.Tmq
open Base Function Option

variable {conf : String → Option Qconf} {s s' s1 : State} {p : ℕ} {m : MemMsg} {e e' : Entry} {t now later : Int}
  {cmp : Loc → ℕ → ℕ → Int}

def Qhash.rest (h : Qhash) : List ℕ × ℕ × ℕ := (h.inflight, h.numenq, h.numdeq)

theorem Qhash.rest_eq {h : Qhash} {r : List ℕ × ℕ × ℕ} (heq : h.rest = r) :
    h.inflight = r.1 ∧ h.numenq = r.2.1 ∧ h.numdeq = r.2.2 := by
  subst heq
  exact ⟨rfl, rfl, rfl⟩

theorem Qhash.rest_setNodes {h : Qhash} {loc : Loc} {l : List ℕ} (hloc : loc ≠ .infl) :
    (h.setNodes loc l).rest = h.rest := by
  cases loc with
  | infl => exact absurd rfl hloc
  | _ => rfl

theorem Entry.rest_rbtInsert {loc : Loc} (h : e.rbtInsert cmp p loc = .ok e') (hloc : loc ≠ .infl) :
    e'.h.rest = e.h.rest := by
  rw [Entry.rbtInsert] at h
  cases hins : Tree.insert (cmp loc) p (e.h.nodes loc) with
  | none =>
    rw [hins] at h
    cases h
  | some =>
    rw [hins] at h
    cases h
    exact Qhash.rest_setNodes hloc

theorem Entry.rest_toFut {ok : Bool} (h : e.toFut cmp p = .ok (e', ok)) : e'.h.rest = e.h.rest := by
  obtain ⟨_, hins, h⟩ := bind_eq_ok.mp h
  cases h
  exact Entry.rest_rbtInsert hins (by decide)

theorem Entry.rest_corMsgAdd {alloc ok : Bool} (h : e.corMsgAdd cmp p alloc = .ok (e', ok)) :
    e'.h.rest = e.h.rest := by
  rw [Entry.corMsgAdd] at h
  split_ifs at h
  · cases h
    rfl
  cases hins : e.rbtInsert cmp p (.cor e.m.msg.corrid) with
  | error =>
    rw [hins] at h
    cases h
  | ok =>
    rw [hins] at h
    cases h
    exact Entry.rest_rbtInsert hins (fun hc => by cases hc)

theorem Entry.rest_toCur {alloc ok : Bool} (h : e.toCur cmp p alloc = .ok (e', ok)) :
    e'.h.rest = e.h.rest := by
  obtain ⟨e1, hins, h⟩ := bind_eq_ok.mp h
  have hrest : e1.h.rest = e.h.rest := Entry.rest_rbtInsert hins (by decide)
  replace h : (if e1.m.msg.hasCorrid then e1.corMsgAdd cmp p alloc else .ok (e1, true)) = .ok (e', ok) := h
  split_ifs at h
  · exact (Entry.rest_corMsgAdd h).trans hrest
  · cases h
    exact hrest

theorem Entry.rest_mov2infl (h : e.mov2infl p = .ok e') :
    e'.h.rest = (e.h.inflight ++ [p], e.h.numenq, e.h.numdeq) := by
  have happend (e1 : Entry) (hrest : e1.h.rest = e.h.rest) :
      (e1.append p).h.rest = (e.h.inflight ++ [p], e.h.numenq, e.h.numdeq) := by
    obtain ⟨hinfl, henq, hdeq⟩ := Qhash.rest_eq hrest.symm
    rw [hinfl, henq, hdeq]
    rfl
  rw [Entry.mov2infl] at h
  split_ifs at h
  · cases h
    exact happend _ (Qhash.rest_setNodes (by decide))
  have hleave : ((e.take p .cur).leaveCor p).bind (fun e => .ok (e.append p)) = .ok e' := h
  have hrest : (e.take p .cur).h.rest = e.h.rest := Qhash.rest_setNodes (by decide)
  obtain ⟨_, hcor, hleave⟩ := bind_eq_ok.mp hleave
  cases hleave
  apply happend
  rw [Entry.leaveCor, Entry.corMsgDel] at hcor
  split_ifs at hcor
  · split at hcor
    · cases hcor
      exact (Qhash.rest_setNodes (fun hc => by cases hc)).trans hrest
    · cases hcor
  · cases hcor
    exact hrest

theorem Entry.rest_mov2cur {alloc ok : Bool} (h : e.mov2cur cmp p alloc now = .ok (e', ok)) :
    e'.h.rest = (e.h.inflight.erase p, e.h.numenq, e.h.numdeq) := by
  rw [Entry.mov2cur] at h
  split_ifs at h
  replace h : (if (e.take p .infl).m.msg.waits now then (e.take p .infl).toFut cmp p
    else (e.take p .infl).toCur cmp p alloc) = .ok (e', ok) := h
  split_ifs at h
  · exact Entry.rest_toFut h
  · exact Entry.rest_toCur h

theorem Qhash.Full.corhash_ext {h h' : Qhash} (hfull : h.Full) (hfull' : h'.Full)
    (hnodes : ∀ c, h.nodes (.cor c) = h'.nodes (.cor c)) : h.corhash = h'.corhash := by
  ext1 c
  have hc := hnodes c
  rw [nodes, nodes] at hc
  cases hl : h.corhash c with
  | none =>
    cases hl' : h'.corhash c with
    | none => rfl
    | some =>
      rw [hl, hl'] at hc
      exact absurd (hl'.trans (congrArg some hc.symm)) (hfull' c)
  | some =>
    cases hl' : h'.corhash c with
    | none =>
      rw [hl, hl'] at hc
      exact absurd (hl.trans (congrArg some hc)) (hfull c)
    | some =>
      rw [hl, hl'] at hc
      exact congrArg some hc

variable {qname : String}

theorem PlaceInv.queue_ext (h : PlaceInv True s) (h' : PlaceInv True s') (hmem : s'.mem = s.mem)
    (hrest : (s'.queue qname).rest = (s.queue qname).rest) : s'.queue qname = s.queue qname := by
  have hkey : s'.key = s.key := by
    ext loc a
    rw [State.key, State.get, hmem, State.key, State.get]
  have hnodes (loc : Loc) (hloc : loc ≠ .infl) : (s'.queue qname).nodes loc = (s.queue qname).nodes loc := by
    have hsorted := h'.sorted trivial qname loc hloc
    rw [hkey] at hsorted
    apply hsorted.ext (h.sorted trivial qname loc hloc)
    intro a
    rw [h'.nodes_iff, h.nodes_iff, hmem]
  have hcorhash : (s'.queue qname).corhash = (s.queue qname).corhash :=
    (h'.full qname).corhash_ext (h.full qname) fun c => hnodes (.cor c) fun hc => by cases hc
  have hq : (s'.queue qname).q = (s.queue qname).q := hnodes .cur (by decide)
  have hfut : (s'.queue qname).fut = (s.queue qname).fut := hnodes .fut (by decide)
  obtain ⟨hinfl, henq, hdeq⟩ := Qhash.rest_eq hrest
  exact Qhash.ext hinfl hq hfut hcorhash henq hdeq

def Available (s : State) (qname : String) (now : Int) (p : ℕ) : Prop :=
  ∃ m, s.mem p = some m ∧ m.msg.qname = qname ∧ m.msg.lockthreadid = 0 ∧ m.msg.waits now = false

theorem Inv.current (h : Inv True t s) (hin : p ∈ s.nodes qname .cur) :
    ∃ m, s.mem p = some m ∧ m.msg.qname = qname ∧ m.msg.lockthreadid = 0 ∧ m.msg.waits t = false ∧
      m = curOf m.msg true := by
  obtain ⟨m, hp, hqname, hin⟩ := (h.places.nodes_iff qname .cur p).mp hin
  rcases h.placed p m hp with ⟨_, hplace⟩ | ⟨_, _, hplace⟩ | ⟨hlock, hwaits, hplace⟩
  · rw [hplace] at hin
    cases hin
  · rw [hplace] at hin
    cases hin
  · exact ⟨m, hp, hqname, hlock, hwaits trivial, hplace⟩

/-- After the promotion the available messages are those of the current tree. -/
theorem Inv.available_iff (hinv : Inv True now s1) (hprom : Promoted s s1)
    (hfut : ∀ a ∈ s1.nodes qname .fut, now < (s1.get a).msg.deqTime) :
    Available s qname now p ↔ p ∈ s1.nodes qname .cur := by
  have hmsg (o o' : Option MemMsg) (h : o'.map MemMsg.msg = o.map MemMsg.msg) {m : MemMsg} (hm : o = some m) :
      ∃ m', o' = some m' ∧ m'.msg = m.msg := by
    rw [hm] at h
    exact map_eq_some_iff.mp h
  constructor
  · rw [hinv.places.nodes_iff]
    rintro ⟨m, hm, hqname, hlock, hwaits⟩
    obtain ⟨m', hm', heq⟩ := hmsg _ _ (hprom.msgs p) hm
    rw [← heq] at hqname hlock hwaits
    refine ⟨m', hm', hqname, ?_⟩
    rcases hinv.placed p m' hm' with ⟨hne, _⟩ | ⟨_, htime, hplace⟩ | ⟨_, _, hplace⟩
    · exact absurd hlock hne
    · -- the promotion has left nothing behind that is due
      have hin : p ∈ s1.nodes qname .fut := by
        rw [hinv.places.nodes_iff]
        exact ⟨m', hm', hqname, by rw [hplace]; rfl⟩
      have hlate := hfut p hin
      rw [State.get_of_mem hm'] at hlate
      rw [Msg.waits, htime, Bool.true_and, decide_eq_false_iff_not] at hwaits
      exact absurd hlate hwaits
    · rw [hplace]
      rfl
  · intro hin
    obtain ⟨_, hm', hqname, hlock, hwaits, -⟩ := hinv.current hin
    obtain ⟨m, hm, heq⟩ := hmsg _ _ (hprom.msgs p).symm hm'
    rw [← heq] at hqname hlock hwaits
    exact ⟨m, hm, hqname, hlock, hwaits⟩

def Msg.Before (lifo : Bool) (a b : Msg) : Prop := if lifo then b.key < a.key else a.key < b.key

theorem PlaceInv.endOf_before {lifo : Bool} {loc : Loc} (h : PlaceInv True s)
    (hinfl : loc ≠ .infl) (hfut : loc ≠ .fut) (hend : endOf lifo (s.nodes qname loc) = some p)
    {a : ℕ} (ha : a ∈ s.nodes qname loc) (hne : a ≠ p) :
    Msg.Before lifo (s.get p).msg (s.get a).msg := by
  have hsorted := h.sorted trivial qname loc hinfl
  have hkey {a b : ℕ} (hlt : s.key loc a < s.key loc b) : (s.get a).msg.key < (s.get b).msg.key := by
    cases loc with
    | infl => exact absurd rfl hinfl
    | fut => exact absurd rfl hfut
    | _ =>
      rcases lex_lt.mp hlt with h0 | ⟨_, hlt⟩
      · exact absurd h0 (lt_irrefl 0)
      · exact hlt
  cases lifo with
  | true => exact hkey (hsorted.lt_getLast hend a ha hne)
  | false => exact hkey (hsorted.head_lt hend a ha hne)

/-- A lock that could not be logged is undone, and the state is as before. -/
theorem Inv.lockUndone_eq {tid : ℕ} {command written alloc : Bool} (h : Inv True t s) (hp : s.mem p = some m)
    (hcur : m = curOf m.msg true) (hlock : m.msg.lockthreadid = 0) (hwaits : m.msg.waits later = false)
    (htid : tid ≠ 0) (hundone : (command && !written) = true) (halloc : alloc = true) (hle : t ≤ later) :
    Tmq.lockAndDelete s p tid command written alloc later = .ok (s, none, .os) := by
  obtain ⟨e, e', hmov, hqname, hback, hrun, hem', hinv⟩ :=
    h.lockUndone hp hlock htid hundone halloc fun _ => hle
  have hm' : e'.m = m := by
    rcases hem' with ⟨hw, _⟩ | ⟨_, hem'⟩
    · exact Bool.noConfusion (hwaits.symm.trans hw)
    · exact hem'.trans hcur.symm
  have hmem : ((s.put p e).put p e').mem = s.mem := by
    show update (update s.mem p _) p (some e'.m) = s.mem
    rw [update_idem, hm', ← hp, update_eq_self]
  -- the queue of the message, first what does not follow from the messages
  have hself : ((s.put p e).put p e').queue m.msg.qname = e'.h := by
    rw [← hm', State.queue_put_self]
  have hrest : e'.h.rest = (s.queue m.msg.qname).rest := by
    have hnot : p ∉ (s.queue m.msg.qname).inflight := by
      intro hin
      have hinfl : m.In .infl := ((h.places.entryOk hp).place .infl).mp hin
      rw [hcur] at hinfl
      cases hinfl
    obtain ⟨hinfl, henq, hdeq⟩ := Qhash.rest_eq (Entry.rest_mov2infl hmov)
    rw [Entry.rest_mov2cur hback, hinfl, henq, hdeq, List.erase_append_right _ hnot, List.erase_cons_head,
      List.append_nil]
    rfl
  have hqueue : e'.h = s.queue m.msg.qname := by
    rw [← hself]
    exact h.places.queue_ext hinv.places hmem (by rw [hself, hrest])
  have hopen : s.qhash m.msg.qname = some (s.queue m.msg.qname) := by
    cases hq : s.qhash m.msg.qname with
    | some => rw [State.queue, hq, getD_some]
    | none =>
      have hin : p ∈ s.nodes m.msg.qname .cur := ((h.places.entryOk hp).place .cur).mpr (by rw [hcur]; rfl)
      rw [State.nodes, State.queue, hq] at hin
      cases hin
  have hqhash : ((s.put p e).put p e').qhash = s.qhash := by
    show update (update s.qhash e.m.msg.qname _) e'.m.msg.qname (some e'.h) = s.qhash
    rw [hm', hqname, update_idem, hqueue, ← hopen, update_eq_self]
  have hsame : (s.put p e).put p e' = s := State.ext hmem rfl hqhash
  rw [hrun, hsame]

theorem Inv.timed {x y : State × Int} (hx : Inv True x.2 x.1)
    (hrun : Relation.ReflTransGen (Timed conf) x y) : Inv True y.2 y.1 := by
  induction hrun with
  | refl => exact hx
  | tail _ hstep ih =>
    obtain ⟨_, now, hmeets, hnow, hlater, hop⟩ := hstep
    obtain ⟨_, hs', hinv⟩ := ih.step hmeets conf now _ (fun _ => hnow) (fun _ => hlater)
    rw [hop] at hs'
    cases hs'
    exact hinv

def LockedBy (tid p : ℕ) (s s' : State) : Prop :=
  (∀ m, s.mem p = some m → (s'.mem p).map MemMsg.msg = some {m.msg with lockthreadid := tid}) ∧
    ∀ a, a ≠ p → (s'.mem a).map MemMsg.msg = (s.mem a).map MemMsg.msg

theorem Promoted.get_msg (h : Promoted s s1) (a : ℕ) : (s1.get a).msg = (s.get a).msg := by
  have hmsgs := h.msgs a
  rw [State.get, State.get]
  cases hm : s.mem a with
  | none =>
    rw [hm] at hmsgs
    rw [map_eq_none_iff.mp hmsgs]
  | some =>
    rw [hm] at hmsgs
    obtain ⟨_, hm1, heq⟩ := map_eq_some_iff.mp hmsgs
    rw [hm1, getD_some, getD_some, heq]

/-- What a dequeue gives that looks for the messages `A`: the first of them, or that there is none. When the
storage fails, the state is that of the promotion, which changes no message. -/
def Gives (A : ℕ → Prop) (s : State) (qname : String) (lifo failed : Bool) (tid : ℕ) (alloc : ℕ → Bool)
    (now : Int) (r : Except Abort (State × Option ℕ × Diag)) : Prop :=
  (∃ s', r = .ok (s', none, .nomsg)) ∧ (∀ p, ¬ A p) ∨
  ∃ p, A p ∧ (∀ a, A a → a ≠ p → Msg.Before lifo (s.get p).msg (s.get a).msg) ∧
    ∃ s1, s.inflFut2cur qname alloc now = .ok s1 ∧
      (∀ a, (s1.mem a).map MemMsg.msg = (s.mem a).map MemMsg.msg) ∧
      if failed then r = .ok (s1, none, .os)
      else ∃ s', r = .ok (s', some p, .succeed) ∧ LockedBy tid p s s'

section

variable {qname : String} {tid : ℕ} {alloc : ℕ → Bool}

theorem Inv.not_available (h : Inv True t s) (hq : s.qhash qname = none) (a : ℕ) :
    ¬ Available s qname now a := by
  rintro ⟨m, hm, hqname, _⟩
  have hin (loc : Loc) : ¬ m.In loc := by
    rw [← (h.places.entryOk hm).place loc, hqname, State.queue, hq]
    cases loc <;> exact List.not_mem_nil
  rcases h.placed a m hm with ⟨_, hplace⟩ | ⟨_, _, hplace⟩ | ⟨_, _, hplace⟩
  · exact hin .infl (by rw [hplace]; rfl)
  · exact hin .fut (by rw [hplace]; rfl)
  · exact hin .cur (by rw [hplace]; rfl)

theorem Inv.gives {A : ℕ → Prop} {loc : Loc} {lifo command written : Bool} (hinv : Inv True now s1)
    (hfut : s.inflFut2cur qname alloc now = .ok s1) (hprom : Promoted s s1)
    (hA : ∀ a, A a ↔ a ∈ s1.nodes qname loc) (hinfl : loc ≠ .infl) (hnfut : loc ≠ .fut)
    (hcur : ∀ a ∈ s1.nodes qname loc, a ∈ s1.nodes qname .cur)
    (hend : endOf lifo (s1.nodes qname loc) = some p) (hlater : now ≤ later) (htid : tid ≠ 0)
    (halloc : ∀ a, alloc a = true) :
    Gives A s qname lifo (command && !written) tid alloc now
      (Tmq.lockAndDelete s1 p tid command written (alloc p) later) := by
  right
  have hmem : p ∈ s1.nodes qname loc := mem_of_endOf hend
  obtain ⟨_, hp, -, hlock, hwaits, hplace⟩ := hinv.current (hcur p hmem)
  refine ⟨p, (hA p).mpr hmem, fun a ha hne => ?_, s1, hfut, hprom.msgs, ?_⟩
  · have hbefore := hinv.places.endOf_before hinfl hnfut hend ((hA a).mp ha) hne
    rw [hprom.get_msg, hprom.get_msg] at hbefore
    exact hbefore
  cases hfailed : command && !written with
  | true =>
    exact hinv.lockUndone_eq hp hplace hlock (Msg.waits_mono hwaits hlater) htid hfailed (halloc p) hlater
  | false =>
    obtain ⟨_, hkept, hem, _⟩ := hinv.lockKept hp hlock htid hfailed (alloc p) later
    refine ⟨_, hkept, fun m0 hm0 => ?_, fun a ha => ?_⟩
    · rw [State.mem_put_self, hem]
      have hsame := hprom.msgs p
      rw [hp, hm0] at hsame
      rw [← some.inj hsame]
      rfl
    · rw [State.mem_put_of_ne ha]
      exact hprom.msgs a

end

theorem Inv.givesFirst {qconf : Qconf} {tid : ℕ} {alloc : ℕ → Bool} (h : Inv True t s)
    (hconf : conf qname = some qconf) (hnow : t ≤ now) (hlater : now ≤ later) (htid : tid ≠ 0)
    (halloc : ∀ a, alloc a = true) (peek isAuto written : Bool) :
    Gives (Available s qname now) s qname qconf.lifo (!peek && !isAuto && !written) tid alloc now
      (tmqMsgDequeue conf s qname peek isAuto none tid written alloc now later) := by
  obtain ⟨s1, hfut, hinv, hprom, hlate⟩ := h.inflFut2cur qname halloc fun _ => hnow
  have havail (a : ℕ) : Available s qname now a ↔ a ∈ s1.nodes qname .cur :=
    hinv.available_iff hprom (hlate trivial)
  cases hq : s.qhash qname with
  | none =>
    left
    refine ⟨⟨s, ?_⟩, h.not_available hq⟩
    unfold tmqMsgDequeue
    rw [hconf, hq]
  | some =>
  rw [tmqMsgDequeue_none hconf hq hfut]
  cases hend : endOf qconf.lifo (s1.nodes qname .cur) with
  | none =>
    left
    refine ⟨⟨s1, rfl⟩, fun a ha => ?_⟩
    obtain ⟨_, hb⟩ := endOf_of_mem qconf.lifo ((havail a).mp ha)
    rw [hend] at hb
    cases hb
  | some =>
    exact hinv.gives hfut hprom havail (by decide) (by decide) (fun _ ha => ha) hend hlater htid halloc

/-- A dequeue without a correlator gives the first of the messages that are available. -/
theorem dequeue_order {t0 : Int} {qname : String} {qconf : Qconf} {tid : ℕ} {alloc : ℕ → Bool}
    (hrun : Relation.ReflTransGen (Timed conf) (.start, t0) (s, t)) (hconf : conf qname = some qconf)
    (hnow : t ≤ now) (hlater : now ≤ later) (htid : tid ≠ 0) (halloc : ∀ a, alloc a = true)
    (peek isAuto written : Bool) :
    Gives (Available s qname now) s qname qconf.lifo (!peek && !isAuto && !written) tid alloc now
      (tmqMsgDequeue conf s qname peek isAuto none tid written alloc now later) :=
  (Inv.start.timed hrun).givesFirst hconf hnow hlater htid halloc peek isAuto written

theorem dequeue_order_two : ∃ s, Relation.ReflTransGen (Timed oneQueue) (.start, 100) (s, 100) ∧
    Available s "Q" 200 0 ∧ Available s "Q" 200 1 ∧
    Gives (Available s "Q" 200) s "Q" false false 7 (fun _ => true) 200
      (tmqMsgDequeue oneQueue s "Q" false false none 7 true (fun _ => true) 200 200) := by
  obtain ⟨s, hrun, h0, h1, -⟩ := two_messages
  have hconf : oneQueue "Q" = some ⟨false, false⟩ := rfl
  exact ⟨s, hrun, ⟨_, h0, rfl, rfl, rfl⟩, ⟨_, h1, rfl, rfl, rfl⟩,
    dequeue_order hrun hconf (by decide) le_rfl (by decide) (fun _ => rfl) false false true⟩

theorem dequeue_misses :
    (∃ s1 s, (Op.add (timedMsg "A" 0 200) (some 0) true true true true).run oneQueue 100 100 .start = .ok s1 ∧
      (Op.add (timedMsg "B" 1 (200+2^31)) (some 1) true true true true).run oneQueue 100 100 s1 = .ok s ∧
      ¬ Gives (Available s "Q" 300) s "Q" false false 7 (fun _ => true) 300
        (tmqMsgDequeue oneQueue s "Q" false false none 7 true (fun _ => true) 300 300)) ∧
    (∃ s1 s2 s,
      (Op.add (timedMsg "A" 0 200) (some 0) true true true true).run oneQueue 100 100 .start = .ok s1 ∧
      (Op.dequeue "Q" true false none 7 true fun _ => true).run oneQueue 300 300 s1 = .ok s2 ∧
      (Op.unlockByMsgid "A" fun _ => true).run oneQueue 300 300 s2 = .ok s ∧
      ¬ Gives (Available s "Q" 150) s "Q" false false 7 (fun _ => true) 150
        (tmqMsgDequeue oneQueue s "Q" false false none 7 true (fun _ => true) 150 150)) ∧
    (∃ s1 s,
      (Op.add {timedMsg "A" 1 200 with hasCorrid := true, corrid := "C"} (some 0) true true true true).run
        oneQueue 100 100 .start = .ok s1 ∧
      (Op.add (timedMsg "B" 0 250) (some 1) true true true true).run oneQueue 100 100 s1 = .ok s ∧
      ¬ Gives (Available s "Q" 300) s "Q" false false 7 (fun _ => false) 300
        (tmqMsgDequeue oneQueue s "Q" false false none 7 true (fun _ => false) 300 300)) := by
  refine ⟨⟨_, _, rfl, rfl, ?_⟩, ⟨_, _, _, rfl, rfl, rfl, ?_⟩, _, _, rfl, rfl, ?_⟩
  · rintro (⟨_, hnone⟩ | ⟨_, _, _, _, _, _, _, hr, _⟩)
    · exact hnone 0 ⟨_, rfl, rfl, rfl, rfl⟩
    · cases hr
  · rintro (⟨⟨s', hr⟩, _⟩ | ⟨_, ⟨_, hm, _, _, hwaits⟩, _, _, _, _, s', hr, _⟩)
    · cases hr
    · cases hr
      cases hm
      cases hwaits
  · rintro (⟨_, hnone⟩ | ⟨_, _, hfirst, _, _, _, _, hr, _⟩)
    · exact hnone 0 ⟨_, rfl, rfl, rfl, rfl⟩
    · cases hr
      have hlt : (toLex (100, toLex (0, 1)) : Int ×ₗ Int ×ₗ Int) < toLex (100, toLex (0, 0)) :=
        hfirst 1 ⟨_, rfl, rfl, rfl, rfl⟩ (by decide)
      rw [lex_lt, lex_lt] at hlt
      omega

def AvailableBy (s : State) (qname c : String) (now : Int) (p : ℕ) : Prop :=
  Available s qname now p ∧ ∃ m, s.mem p = some m ∧ m.msg.hasCorrid = true ∧ m.msg.corrid = c

theorem MemMsg.in_cor_iff {msg : Msg} {hash : Bool} {c : String} :
    (curOf msg hash).In (.cor c) ↔ msg.hasCorrid = true ∧ msg.corrid = c := by
  show (if msg.hasCorrid then some msg.corrid else none) = some c ↔ _
  cases msg.hasCorrid <;> simp

theorem Inv.availableBy_iff {c : String} (hinv : Inv True now s1) (hprom : Promoted s s1)
    (hfut : ∀ a ∈ s1.nodes qname .fut, now < (s1.get a).msg.deqTime) :
    AvailableBy s qname c now p ↔ p ∈ s1.nodes qname (.cor c) := by
  have hmsg {m m1 : MemMsg} (hm : s.mem p = some m) (hm1 : s1.mem p = some m1) : m1.msg = m.msg := by
    have hsame := hprom.msgs p
    rw [hm, hm1] at hsame
    exact some.inj hsame
  rw [AvailableBy, hinv.available_iff hprom hfut]
  constructor
  · rintro ⟨hcur, m, hm, hhas, hcorrid⟩
    obtain ⟨m1, hm1, hqname, -, -, hplace⟩ := hinv.current hcur
    refine (hinv.places.nodes_iff qname (.cor c) p).mpr ⟨m1, hm1, hqname, ?_⟩
    rw [hplace, MemMsg.in_cor_iff, hmsg hm hm1]
    exact ⟨hhas, hcorrid⟩
  · intro hcor
    obtain ⟨m1, hm1, hqname, hin⟩ := (hinv.places.nodes_iff qname (.cor c) p).mp hcor
    obtain ⟨m, hm, heq⟩ := Option.map_eq_some_iff.mp
      ((hprom.msgs p).symm.trans (congrArg (Option.map MemMsg.msg) hm1))
    -- only what is current has a correlator entry
    rcases hinv.placed p m1 hm1 with ⟨_, hplace⟩ | ⟨_, _, hplace⟩ | ⟨_, _, hplace⟩
    · rw [hplace] at hin
      cases hin
    · rw [hplace] at hin
      cases hin
    · refine ⟨(hinv.places.nodes_iff qname .cur p).mpr ⟨m1, hm1, hqname, by rw [hplace]; rfl⟩, m, hm, ?_⟩
      rw [hplace, MemMsg.in_cor_iff] at hin
      rw [heq]
      exact hin

/-- The first available message of the correlator is given out exactly when its entry is there before the
messages that have become due are promoted, or no message is available. -/
theorem correlated_dequeue_iff {t0 : Int} {qname c : String} {qconf : Qconf} {tid : ℕ} {alloc : ℕ → Bool}
    (hrun : Relation.ReflTransGen (Timed conf) (.start, t0) (s, t)) (hconf : conf qname = some qconf)
    (hnow : t ≤ now) (hlater : now ≤ later) (htid : tid ≠ 0) (halloc : ∀ a, alloc a = true)
    (peek isAuto written : Bool) :
    Gives (AvailableBy s qname c now) s qname qconf.lifo (!peek && !isAuto && !written) tid alloc now
        (tmqMsgDequeue conf s qname peek isAuto (some c) tid written alloc now later) ↔
      ((∃ p, AvailableBy s qname c now p) → (s.queue qname).corhash c ≠ none) := by
  have h : Inv True t s := Inv.start.timed hrun
  obtain ⟨s1, hfut, hinv, hprom, hlate⟩ := h.inflFut2cur qname halloc fun _ => hnow
  have havail (a : ℕ) : AvailableBy s qname c now a ↔ a ∈ s1.nodes qname (.cor c) :=
    hinv.availableBy_iff hprom (hlate trivial)
  cases hq : s.qhash qname with
  | none =>
    have hnot (a : ℕ) : ¬ AvailableBy s qname c now a := fun ha => h.not_available hq a ha.1
    refine iff_of_true (.inl ⟨⟨s, ?_⟩, hnot⟩) (fun hsome => hsome.elim fun a ha => absurd ha (hnot a))
    unfold tmqMsgDequeue
    rw [hconf, hq]
  | some q =>
  have hqueue : s.queue qname = q := by rw [State.queue, hq, getD_some]
  rw [hqueue]
  by_cases hc : q.corhash c = none
  · have hnomsg : tmqMsgDequeue conf s qname peek isAuto (some c) tid written alloc now later =
        .ok (s, none, .nomsg) := by
      unfold tmqMsgDequeue
      rw [hconf, hq]
      exact if_pos hc
    rw [hnomsg]
    constructor
    · rintro (⟨-, hnot⟩ | ⟨p, -, -, _, -, -, hr⟩) ⟨a, ha⟩
      · exact absurd ha (hnot a)
      · split at hr
        · cases hr
        · obtain ⟨_, hr, -⟩ := hr
          cases hr
    · intro hnot
      exact .inl ⟨⟨s, rfl⟩, fun a ha => hnot ⟨a, ha⟩ hc⟩
  · refine iff_of_true ?_ fun _ => hc
    rw [tmqMsgDequeue_some hconf hq hc hfut]
    obtain ⟨a, ha⟩ := h.places.node_of_corhash hq hc
    obtain ⟨_, hend⟩ := endOf_of_mem qconf.lifo (hprom.stay qname (.cor c) (fun hc => by cases hc) a ha)
    rw [hend]
    exact hinv.gives hfut hprom havail (fun hc => by cases hc) (fun hc => by cases hc)
      (fun a ha => (hinv.available_iff hprom (hlate trivial)).mp ((havail a).mpr ha).1) hend hlater htid halloc

theorem correlated_dequeue_two : ∃ s, Relation.ReflTransGen (Timed oneQueue) (.start, 100) (s, 100) ∧
    AvailableBy s "Q" "C" 200 0 ∧ AvailableBy s "Q" "C" 200 1 ∧
    Gives (AvailableBy s "Q" "C" 200) s "Q" false false 7 (fun _ => true) 200
      (tmqMsgDequeue oneQueue s "Q" false false (some "C") 7 true (fun _ => true) 200 200) := by
  obtain ⟨s, hrun, h0, h1, -, hentry⟩ := two_messages
  have hconf : oneQueue "Q" = some ⟨false, false⟩ := rfl
  refine ⟨s, hrun, ⟨⟨_, h0, rfl, rfl, rfl⟩, _, h0, rfl, rfl⟩, ⟨⟨_, h1, rfl, rfl, rfl⟩, _, h1, rfl, rfl⟩, ?_⟩
  apply (correlated_dequeue_iff hrun hconf (by decide) le_rfl (by decide) (fun _ => rfl) false false true).mpr
  intro _
  rw [hentry]
  exact some_ne_none _

/-- A message for the time 200, the only one of its correlator: at 300 it is not found. -/
theorem correlated_dequeue_misses : ∃ s,
    (Op.add {timedMsg "A" 0 200 with hasCorrid := true, corrid := "C"} (some 0) true true true true).run
      oneQueue 100 100 .start = .ok s ∧
    AvailableBy s "Q" "C" 300 0 ∧
    tmqMsgDequeue oneQueue s "Q" false false (some "C") 7 true (fun _ => true) 300 300 =
      .ok (s, none, .nomsg) :=
  ⟨_, rfl, ⟨⟨_, rfl, rfl, rfl, rfl⟩, _, rfl, rfl, rfl⟩, rfl⟩

end Endurox.Tmq
