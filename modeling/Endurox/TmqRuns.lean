import Endurox.TmqInv

/-! The operations of a queue space keep every index, over whole runs. -/

namespace Endurox.Tmq
open List Function

variable {conf : String → Option Qconf} {strict : Prop} {s s' : State} {p : ℕ} {m : MemMsg} {e : Entry}
  {t now later : Int}

theorem Msg.Apart.symm {a b : Msg} (h : a.Apart b) : b.Apart a :=
  ⟨h.2.1, h.1, fun hb ha => (h.2.2 ha hb).symm⟩

theorem PlaceInv.inflAddmsg {msg : Msg} (h : PlaceInv strict s) (hp : s.mem p = some (noneOf msg false))
    (hcmp : Compares strict s.cmp s.key p ⟨noneOf msg false, s.queue msg.qname⟩)
    (hid : s.msgidHash msg.msgid = none) (alloc : Bool) (now : Int) :
    ∃ s' ok m', s.inflAddmsg p alloc now = .ok (s', ok) ∧ PlaceInv strict s' ∧
      s'.mem = update s.mem p (some m') ∧ m'.msg = msg ∧
      m'.qstate.cor = m'.corhash.isSome ∧ (ok = true → Placed strict now m') := by
  obtain ⟨e, ok, hadd, hok, hb, hem⟩ := (h.entryOk hp).addmsg hcmp rfl alloc now
  have hput : PlaceInv strict (s.put p e) :=
    h.put hp hok (by rw [hb.msg]) hb.msgidHash hb.others
  have hcase : s.inflAddmsg p alloc now = .ok (if ok then (s.put p e).hashAdd p else s.put p e, ok) := by
    rw [State.inflAddmsg, State.entry_of_mem hp, hadd]
    rfl
  rw [hcase]
  rcases hem with ⟨rfl, hem⟩ | ⟨rfl, hbare⟩
  · have hmsgid : e.m.msg.msgid = msg.msgid := by rw [hb.msg]; rfl
    have hhash : PlaceInv strict ((s.put p e).hashAdd p) :=
      hput.hashAdd State.mem_put_self hb.msgidHash (by rw [hmsgid]; exact hid)
    have hmem : ((s.put p e).hashAdd p).mem =
        update s.mem p (some {e.m with qstate := {e.m.qstate with msgidHash := true}}) := by
      show update (update s.mem p (some e.m)) p _ = _
      rw [update_idem, State.get_put_self]
    have hplaced : Placed strict now {e.m with qstate := {e.m.qstate with msgidHash := true}} := by
      rcases hem with ⟨hlock, hm⟩ | ⟨hlock, hwaits, hm⟩ | ⟨hlock, hwaits, hm⟩
      · left
        rw [hm]
        exact ⟨hlock, rfl⟩
      · right; left
        rw [hm]
        exact ⟨hlock, (Bool.and_eq_true_iff.mp hwaits).1, rfl⟩
      · right; right
        rw [hm]
        exact ⟨hlock, fun _ => hwaits, rfl⟩
    exact ⟨_, true, _, rfl, hhash, hmem, hb.msg, hplaced.cor, fun _ => hplaced⟩
  · refine ⟨_, false, e.m, rfl, hput, rfl, hb.msg, ?_, Bool.noConfusion⟩
    rw [hbare]
    rfl

theorem Inv.extend (h : Inv strict t s) (hplaces : PlaceInv strict s')
    (hmem : s'.mem = update s.mem p (some m)) (hplaced : Placed strict t m)
    (hdistinct : ∀ a m', s.mem a = some m' → m'.msg.qname = m.msg.qname →
      m.msg.Apart m'.msg ∧ (strict → m.msg.Close m'.msg)) : Inv strict t s' := by
  have hself : s'.mem p = some m := by rw [hmem, update_self]
  have hne {a : ℕ} (ha : a ≠ p) : s'.mem a = s.mem a := by rw [hmem, update_of_ne ha]
  refine ⟨hplaces, ?_, ?_⟩
  · intro b a mb ma hb ha hab hqname
    by_cases hbp : b = p
    · subst hbp
      rw [hself] at hb
      cases hb
      rw [hne hab] at ha
      exact hdistinct a ma ha hqname
    · rw [hne hbp] at hb
      by_cases hap : a = p
      · subst hap
        rw [hself] at ha
        cases ha
        obtain ⟨hapart, hclose⟩ := hdistinct b mb hb hqname.symm
        exact ⟨hapart.symm, fun hstrict => (hclose hstrict).symm⟩
      · rw [hne hap] at ha
        exact h.distinct b a mb ma hb ha hab hqname
  · intro a ma ha
    by_cases hap : a = p
    · rw [hap, hself] at ha
      cases ha
      exact hplaced
    · rw [hne hap] at ha
      exact h.placed a ma ha

/-- No `abort` is reached, and the invariant holds at the time `t` of the state that is left. -/
def Keeps (strict : Prop) (t : Int) {α : Type} (x : Except Abort (State × α)) : Prop :=
  ∃ s' r, x = .ok (s', r) ∧ Inv strict t s'

theorem Inv.keeps {α : Type} {r : α} (h : Inv strict t s) (hle : strict → t ≤ now) :
    Keeps strict now (.ok (s, r)) := ⟨s, r, rfl, h.mono hle⟩

theorem Keeps.state {α : Type} {x : Except Abort (State × α)} (h : Keeps strict t x)
    (hle : strict → t ≤ now) : ∃ s', x.map Prod.fst = .ok s' ∧ Inv strict now s' := by
  obtain ⟨s', _, rfl, hinv⟩ := h
  exact ⟨s', rfl, hinv.mono hle⟩

/-- An enqueue keeps the invariant, whatever fails in it. -/
theorem Inv.add {msg : Msg} {mmsg : Option ℕ} (h : Inv strict t s)
    (hfresh : ∀ p, mmsg = some p → s.mem p = none)
    (hdistinct : ∀ a m', s.mem a = some m' → m'.msg.qname = msg.qname →
      msg.Apart m'.msg ∧ (strict → msg.Close m'.msg)) (hle : strict → t ≤ now)
    (conf : String → Option Qconf) (newQ isRecovery written alloc : Bool) :
    Keeps strict now (tmqMsgAdd conf s msg mmsg newQ isRecovery written alloc now) := by
  unfold tmqMsgAdd
  split
  · next p qconf hconf =>
    split_ifs with hid hnew
    · exact h.keeps hle
    · exact h.keeps hle
    · have hp : s.mem p = none := hfresh p rfl
      -- the queue is there and the message is allocated
      set s1 := (s.openQ msg.qname).alloc p msg with hs1
      have hplaces1 : PlaceInv strict s1 := (h.places.openQ msg.qname).alloc hp msg
      have hmem1 : s1.mem = update s.mem p (some (noneOf msg false)) := rfl
      have hself1 : s1.mem p = some (noneOf msg false) := by rw [hmem1, update_self]
      have hcmp : Compares strict s1.cmp s1.key p ⟨noneOf msg false, s1.queue msg.qname⟩ := by
        apply hplaces1.compares hself1
        · intro a m' ha hm'
          rw [hmem1, update_of_ne ha] at hm'
          exact hdistinct a m' hm'
        · intro a m' ha hm'
          rw [hmem1, update_of_ne ha] at hm'
          exact (h.placed a m' hm').timeAbs
        · rfl
        · rfl
      obtain ⟨s2, ok, m2, hadd, hplaces2, hmem2, hmsg2, hcor2, hplaced2⟩ :=
        hplaces1.inflAddmsg hself1 hcmp (not_not.mp hid) alloc now
      rw [hmem1, update_idem] at hmem2
      rw [hadd]
      show Keeps strict now (if (ok && (qconf.memonly || isRecovery || written)) = true then _ else _)
      split_ifs with hdone
      · refine ⟨_, true, rfl, ?_⟩
        have hok : ok = true := (Bool.and_eq_true_iff.mp hdone).1
        apply (h.mono hle).extend (hplaces2.countEnq msg.qname) hmem2 (hplaced2 hok)
        rw [hmsg2]
        exact hdistinct
      · have hself2 : s2.mem p = some m2 := by rw [hmem2, update_self]
        obtain ⟨s3, hdel, hplaces3, hmem3⟩ := hplaces2.inflDelmsg hself2 hcor2
        have hself3 : s3.mem p = some (noneOf m2.msg false) := by rw [hmem3, update_self]
        refine ⟨s3.free p, false, ?_, ?_⟩
        · rw [hdel]
          rfl
        · refine (h.mono hle).restrict (hplaces3.free hself3) ?_
          intro a ma ha
          replace ha : update s3.mem p none a = some ma := ha
          rw [hmem3, hmem2, update_idem] at ha
          exact update_none_sub ha
  · exact h.keeps hle

/-- What the promotion of due messages leaves: the same messages, with nothing gone but from the future
tree. -/
structure Promoted (s s' : State) : Prop where
  msgs : ∀ a, (s'.mem a).map MemMsg.msg = (s.mem a).map MemMsg.msg
  stay : ∀ qname loc, loc ≠ .fut → ∀ a ∈ s.nodes qname loc, a ∈ s'.nodes qname loc

theorem Promoted.refl : Promoted s s := ⟨fun _ => rfl, fun _ _ _ _ h => h⟩

theorem Promoted.trans {s'' : State} (h : Promoted s s') (h' : Promoted s' s'') : Promoted s s'' :=
  ⟨fun a => (h'.msgs a).trans (h.msgs a),
    fun qname loc hloc a ha => h'.stay qname loc hloc a (h.stay qname loc hloc a ha)⟩

variable {qname : String}

/-- A message that is due moves from the future to the current tree. -/
theorem Inv.promote {alloc : Bool} (h : Inv strict now s) (halloc : alloc = true)
    (hmem : p ∈ s.nodes qname .fut) (hdue : (s.get p).msg.deqTime ≤ now) :
    ∃ e, Entry.toCur s.cmp p alloc ((s.entry p).take p .fut) = .ok (e, true) ∧ Inv strict now (s.put p e) ∧
      Promoted s (s.put p e) ∧
      ((s.put p e).nodes qname .fut).length+1 = (s.nodes qname .fut).length := by
  obtain ⟨m, hp, hqname, hin⟩ := (h.places.nodes_iff qname .fut p).mp hmem
  obtain ⟨hlock, htime, hm⟩ : m.msg.lockthreadid = 0 ∧ m.msg.timeAbs = true ∧ m = futOf m.msg true := by
    rcases h.placed p m hp with ⟨_, hm⟩ | hm | ⟨_, _, hm⟩
    · rw [hm] at hin
      cases hin
    · exact hm
    · rw [hm] at hin
      cases hin
  have hwaits : m.msg.waits now = false := by
    rw [State.get_of_mem hp] at hdue
    rw [Msg.waits, decide_eq_false (not_lt.mpr hdue), Bool.and_false]
  obtain ⟨hok1, hb1⟩ := (h.places.entryOk hp).take .fut (fun _ hc => by cases hc)
  have hcmp : Compares strict s.cmp s.key p (Entry.take p .fut ⟨m, s.queue m.msg.qname⟩) :=
    (h.compares (e := ⟨m, s.queue m.msg.qname⟩) hp rfl rfl).beside hb1
  have hm1 : (Entry.take p .fut ⟨m, s.queue m.msg.qname⟩).m = noneOf m.msg true := by
    rw [hm]
    rfl
  obtain ⟨e, ok, hcur, hok, hb2, hem⟩ := hok1.toCur hcmp hm1 alloc
  obtain ⟨hflag, hem⟩ : ok = true ∧ e.m = curOf m.msg true := by
    rcases hem with hem | ⟨_, hshort, _⟩
    · exact hem
    · exact Bool.noConfusion (hshort.symm.trans halloc)
  have hb := hb1.trans hb2
  have hplaced : Placed strict now e.m := by
    right; right
    rw [hem]
    exact ⟨hlock, fun _ => hwaits, rfl⟩
  have hinv : Inv strict now (s.put p e) := h.put hp hok (by rw [hb.msg]) hb.others hplaced
  have hmsgp : e.m.msg = m.msg := hb.msg
  have hnodes (loc : Loc) : (s.put p e).nodes m.msg.qname loc = e.h.nodes loc := by
    rw [State.nodes, ← hmsgp, State.queue_put_self]
  rw [State.entry_of_mem hp]
  refine ⟨e, by rw [hcur, hflag], hinv, ⟨?_, ?_⟩, ?_⟩
  · intro a
    by_cases ha : a = p
    · rw [ha, State.mem_put_self, hp, Option.map_some, Option.map_some, hmsgp]
    · rw [State.mem_put_of_ne ha]
  · intro q loc hloc a ha
    by_cases hq : q = m.msg.qname
    · rw [hq] at ha ⊢
      rw [hnodes]
      by_cases hap : a = p
      · -- the message was in the future tree only
        obtain ⟨_, hm', _, hin'⟩ := (h.places.nodes_iff _ loc a).mp ha
        rw [hap, hp] at hm'
        cases hm'
        rw [hm] at hin'
        cases loc with
        | fut => exact absurd rfl hloc
        | _ => cases hin'
      · exact (hb.others loc a hap).mpr ha
    · rw [← hmsgp] at hq
      rw [State.nodes, State.queue_put_of_ne hq]
      exact ha
  · have hperm : (p :: (s.put p e).nodes qname .fut).Perm (s.nodes qname .fut) := by
      have hnot : p ∉ (s.put p e).nodes qname .fut := by
        rw [← hqname, hnodes, hok.place, hem]
        exact Bool.noConfusion
      apply (perm_ext_iff_of_nodup (nodup_cons.mpr ⟨hnot, hinv.places.nodup _ _⟩)
        (h.places.nodup _ _)).mpr
      intro a
      rw [mem_cons]
      by_cases ha : a = p
      · exact iff_of_true (.inl ha) (ha ▸ hmem)
      · rw [or_iff_right ha, ← hqname, hnodes]
        exact hb.others .fut a ha
    exact hperm.length_eq

theorem Inv.fut_of_head (h : Inv strict t s) (hstrict : strict)
    (hhead : (s.nodes qname .fut).head? = some p) (hlater : now < (s.get p).msg.deqTime) :
    ∀ a ∈ s.nodes qname .fut, now < (s.get a).msg.deqTime := by
  intro a ha
  by_cases hap : a = p
  · rw [hap]
    exact hlater
  · have hlt := (h.places.sorted hstrict qname .fut (by decide)).head_lt hhead a ha hap
    rcases lex_lt.mp hlt with hlt | ⟨heq, _⟩
    · exact hlater.trans hlt
    · exact hlater.trans_le heq.le

variable {alloc : ℕ → Bool}

theorem Inv.fut2curLoop (halloc : ∀ a, alloc a = true) {fuel : ℕ} (h : Inv strict now s)
    (hfuel : (s.nodes qname .fut).length ≤ fuel) :
    ∃ s', State.fut2curLoop qname alloc now fuel s = .ok s' ∧ Inv strict now s' ∧ Promoted s s' ∧
      (strict → ∀ a ∈ s'.nodes qname .fut, now < (s'.get a).msg.deqTime) := by
  induction fuel generalizing s with
  | zero =>
    refine ⟨s, rfl, h, .refl, fun _ a ha => ?_⟩
    rw [length_eq_zero_iff.mp (Nat.le_zero.mp hfuel)] at ha
    cases ha
  | succ fuel ih =>
    rw [State.fut2curLoop]
    cases hhead : (s.nodes qname .fut).head? with
    | none =>
      refine ⟨s, rfl, h, .refl, fun _ a ha => ?_⟩
      rw [head?_eq_none_iff.mp hhead] at ha
      cases ha
    | some p =>
      show ∃ s', (if (s.get p).msg.deqTime ≤ now then _ else _) = _ ∧ _
      split_ifs with hdue
      · obtain ⟨_, hcur, hinv, hprom, _⟩ :=
          h.promote (halloc p) (mem_of_mem_head? hhead) hdue
        obtain ⟨s', hloop, hinv', hprom', hlater⟩ := ih hinv (by omega)
        refine ⟨s', ?_, hinv', hprom.trans hprom', hlater⟩
        rw [hcur]
        exact hloop
      · exact ⟨s, rfl, h, .refl, fun hstrict => h.fut_of_head hstrict hhead (not_le.mp hdue)⟩

theorem Inv.inflFut2cur (h : Inv strict t s) (qname : String) (halloc : ∀ a, alloc a = true)
    (hle : strict → t ≤ now) :
    ∃ s', s.inflFut2cur qname alloc now = .ok s' ∧ Inv strict now s' ∧ Promoted s s' ∧
      (strict → ∀ a ∈ s'.nodes qname .fut, now < (s'.get a).msg.deqTime) :=
  (h.mono hle).fut2curLoop halloc le_rfl

variable {tid : ℕ}

section

variable (h : Inv strict t s) (hp : s.mem p = some m) (hlock : m.msg.lockthreadid = 0)
  (htid : tid ≠ 0)
include h hp hlock htid

theorem Inv.lockKept {command written : Bool} (hkept : (command && !written) = false)
    (alloc : Bool) (later : Int) :
    ∃ e, lockAndDelete s p tid command written alloc later = .ok (s.put p e, some p, .succeed) ∧
      e.m = inflOf (m.lock tid).msg true ∧ Inv strict t (s.put p e) := by
  obtain ⟨e, hmov, hem, hinv⟩ := h.mov2infl hp hlock htid
  refine ⟨e, ?_, hem, hinv⟩
  rw [lockAndDelete, State.entry_of_mem hp]
  rw [hmov]
  rw [hkept]
  rfl

theorem Inv.lockUndone {command written alloc : Bool} (hundone : (command && !written) = true)
    (halloc : alloc = true) (hle : strict → t ≤ later) :
    ∃ e e', Entry.mov2infl p ⟨m.lock tid, s.queue m.msg.qname⟩ = .ok e ∧ e.m.msg.qname = m.msg.qname ∧
      Entry.mov2cur (s.put p e).cmp p alloc later ⟨e.m.lock 0, e.h⟩ = .ok (e', true) ∧
      lockAndDelete s p tid command written alloc later = .ok ((s.put p e).put p e', none, .os) ∧
      (m.msg.waits later = true ∧ e'.m = futOf m.msg true ∨
        m.msg.waits later = false ∧ e'.m = curOf m.msg true) ∧
      Inv strict later ((s.put p e).put p e') := by
  obtain ⟨e, hmov, hem, hinv⟩ := h.mov2infl hp hlock htid
  have hback : (e.m.lock 0).msg = m.msg := by
    rw [hem]
    show {m.msg with lockthreadid := 0} = m.msg
    rw [← hlock]
  have hqueue : (s.put p e).queue e.m.msg.qname = e.h := State.queue_put_self
  have hlocked : e.m.msg.lockthreadid ≠ 0 := by
    rw [hem]
    exact htid
  obtain ⟨e', hcur, hem', hinv'⟩ := hinv.mov2cur (e.m.lock 0).msg State.mem_put_self hlocked rfl rfl
    halloc hle
  rw [hqueue] at hcur
  replace hcur : Entry.mov2cur (s.put p e).cmp p alloc later ⟨e.m.lock 0, e.h⟩ = .ok (e', true) := hcur
  rw [hback] at hem'
  refine ⟨e, e', hmov, by rw [hem]; rfl, hcur, ?_, hem', hinv'⟩
  rw [lockAndDelete, State.entry_of_mem hp]
  rw [hmov]
  show (if (command && !written) = true then _ else _) = _
  rw [hundone]
  refine (congrArg (· >>= _) hcur).trans ?_
  rfl

theorem Inv.lockAndDelete {command written alloc : Bool} (halloc : alloc = true)
    (hle : strict → t ≤ later) :
    Keeps strict later (Tmq.lockAndDelete s p tid command written alloc later) := by
  cases hcase : command && !written with
  | false =>
    obtain ⟨e, hrun, _, hinv⟩ := h.lockKept hp hlock htid hcase alloc later
    exact ⟨_, _, hrun, hinv.mono hle⟩
  | true =>
    obtain ⟨_, _, _, _, _, hrun, _, hinv⟩ := h.lockUndone hp hlock htid hcase halloc hle
    exact ⟨_, _, hrun, hinv⟩

end

theorem Inv.unlock {m' : MemMsg} {alloc : Bool} (h : Inv strict t s) (hp : s.mem p = some m)
    (hlock : m.msg.lockthreadid ≠ 0) (hm' : m' = ⟨m'.msg, m.corhash, m.qstate⟩)
    (hcore : m'.msg.core = m.msg.core) (halloc : alloc = true) (hle : strict → t ≤ now) :
    ∃ s', unlockEntry s p m' alloc now = .ok s' ∧ Inv strict now s' := by
  obtain ⟨e, hcur, _, hinv⟩ := h.mov2cur (m'.lock 0).msg hp hlock hcore rfl halloc hle
  refine ⟨s.put p e, ?_, hinv⟩
  have hentry : (⟨m'.lock 0, s.queue m'.msg.qname⟩ : Entry) =
      ⟨⟨(m'.lock 0).msg, m.corhash, m.qstate⟩, s.queue m.msg.qname⟩ := by
    rw [Msg.qname_of_core hcore, MemMsg.lock]
    congr 1
    rw [hm']
  rw [unlockEntry, hentry, hcur]
  rfl

theorem Inv.unlocked_of_tree {loc : Loc} (h : Inv strict t s) (hloc : loc ≠ .infl)
    (hmem : p ∈ s.nodes qname loc) :
    ∃ m, s.mem p = some m ∧ m.msg.qname = qname ∧ m.msg.lockthreadid = 0 := by
  obtain ⟨m, hp, hqname, hin⟩ := (h.places.nodes_iff qname loc p).mp hmem
  refine ⟨m, hp, hqname, ?_⟩
  rcases h.placed p m hp with ⟨_, hm⟩ | ⟨hlock, _⟩ | ⟨hlock, _⟩
  · rw [hm] at hin
    cases loc with
    | infl => exact absurd rfl hloc
    | _ => cases hin
  · exact hlock
  · exact hlock

theorem mem_of_endOf {lifo : Bool} {l : List ℕ} (h : endOf lifo l = some p) : p ∈ l := by
  cases lifo with
  | true => exact mem_of_getLast? h
  | false => exact mem_of_mem_head? h

theorem endOf_of_mem (lifo : Bool) {l : List ℕ} (h : p ∈ l) : ∃ a, endOf lifo l = some a := by
  have hne : l ≠ [] := ne_nil_of_mem h
  cases lifo with
  | true => exact ⟨_, getLast?_eq_some_getLast hne⟩
  | false => exact ⟨_, head?_eq_some_head hne⟩

section

variable {qname : String} {peek isAuto written : Bool} {tid : ℕ} {alloc : ℕ → Bool} {qconf : Qconf}
  {q : Qhash} {s1 : State}

theorem tmqMsgDequeue_none (hconf : conf qname = some qconf) (hq : s.qhash qname = some q)
    (hfut : s.inflFut2cur qname alloc now = .ok s1) :
    tmqMsgDequeue conf s qname peek isAuto none tid written alloc now later =
      match endOf qconf.lifo (s1.nodes qname .cur) with
      | none => .ok (s1, none, .nomsg)
      | some p => lockAndDelete s1 p tid (!peek && !isAuto) written (alloc p) later := by
  unfold tmqMsgDequeue
  rw [hconf, hq]
  rw [hfut]
  rfl

theorem tmqMsgDequeue_some {c : String} (hconf : conf qname = some qconf) (hq : s.qhash qname = some q)
    (hc : q.corhash c ≠ none) (hfut : s.inflFut2cur qname alloc now = .ok s1) :
    tmqMsgDequeue conf s qname peek isAuto (some c) tid written alloc now later =
      match endOf qconf.lifo (s1.nodes qname (.cor c)) with
      | none => .error .noNode
      | some p => lockAndDelete s1 p tid (!peek && !isAuto) written (alloc p) later := by
  unfold tmqMsgDequeue
  rw [hconf, hq]
  show (if q.corhash c = none then _ else do let s ← s.inflFut2cur qname alloc now; _) = _
  rw [if_neg hc, hfut]
  rfl

theorem PlaceInv.node_of_corhash {c : String} (h : PlaceInv strict s) (hq : s.qhash qname = some q)
    (hc : q.corhash c ≠ none) : ∃ a, a ∈ s.nodes qname (.cor c) := by
  have hqueue : s.queue qname = q := by rw [State.queue, hq, Option.getD_some]
  obtain ⟨l, hl⟩ := Option.ne_none_iff_exists'.mp hc
  have hne : l ≠ [] := by
    rintro rfl
    exact h.full qname c (by rw [hqueue]; exact hl)
  obtain ⟨a, ha⟩ := exists_mem_of_ne_nil l hne
  refine ⟨a, ?_⟩
  rw [State.nodes, hqueue, Qhash.nodes, hl]
  exact ha

/-- A dequeue keeps the invariant, as long as there is memory. -/
theorem Inv.dequeue (h : Inv strict t s) (htid : tid ≠ 0) (halloc : ∀ a, alloc a = true)
    (hnow : strict → t ≤ now) (hlater : strict → now ≤ later) (conf : String → Option Qconf) (qname : String)
    (peek isAuto written : Bool) (corrid : Option String) :
    Keeps strict later
      (tmqMsgDequeue conf s qname peek isAuto corrid tid written alloc now later) := by
  have hle (hstrict : strict) : t ≤ later := (hnow hstrict).trans (hlater hstrict)
  cases hconf : conf qname with
  | none =>
    unfold tmqMsgDequeue
    rw [hconf]
    exact h.keeps hle
  | some qconf =>
  cases hq : s.qhash qname with
  | none =>
    unfold tmqMsgDequeue
    rw [hconf, hq]
    exact h.keeps hle
  | some q =>
  obtain ⟨s1, hfut, hinv1, hprom, _⟩ := h.inflFut2cur qname halloc hnow
  -- the end of a tree is locked
  have hnode {loc : Loc} {a : ℕ} (hloc : loc ≠ .infl)
      (hend : endOf qconf.lifo (s1.nodes qname loc) = some a) :
      Keeps strict later
        (Tmq.lockAndDelete s1 a tid (!peek && !isAuto) written (alloc a) later) := by
    obtain ⟨_, hm, _, hlock⟩ := hinv1.unlocked_of_tree hloc (mem_of_endOf hend)
    exact hinv1.lockAndDelete hm hlock htid (halloc a) hlater
  cases corrid with
  | none =>
    rw [tmqMsgDequeue_none hconf hq hfut]
    cases hend : endOf qconf.lifo (s1.nodes qname .cur) with
    | none => exact hinv1.keeps hlater
    | some => exact hnode (by decide) hend
  | some c =>
    by_cases hc : q.corhash c = none
    · unfold tmqMsgDequeue
      rw [hconf, hq]
      show Keeps strict later (if q.corhash c = none then _ else _)
      rw [if_pos hc]
      exact h.keeps hle
    rw [tmqMsgDequeue_some hconf hq hc hfut]
    obtain ⟨a, ha⟩ := h.places.node_of_corhash hq hc
    have hstay : a ∈ s1.nodes qname (.cor c) := hprom.stay qname (.cor c) (fun hc => by cases hc) a ha
    obtain ⟨_, hend⟩ := endOf_of_mem qconf.lifo hstay
    rw [hend]
    exact hnode (fun hc => by cases hc) hend

end

variable {msgid : String}

theorem PlaceInv.mem_of_hash (h : PlaceInv strict s) (hid : s.msgidHash msgid = some p) :
    ∃ m, s.mem p = some m := by
  obtain ⟨m, hm, _⟩ := (h.hash_iff msgid p).mp hid
  exact ⟨m, hm⟩

theorem Inv.dequeueByMsgid (h : Inv strict t s) (htid : tid ≠ 0) (halloc : ∀ a, alloc a = true)
    (hle : strict → t ≤ later) (msgid : String) (peek written : Bool) :
    Keeps strict later (tmqMsgDequeueByMsgid s msgid peek tid written alloc later) := by
  rw [tmqMsgDequeueByMsgid]
  cases hid : s.msgidHash msgid with
  | none => exact h.keeps hle
  | some p =>
    obtain ⟨_, hp⟩ := h.places.mem_of_hash hid
    show Keeps strict later (if (s.get p).msg.lockthreadid ≠ 0 then _ else _)
    rw [State.get_of_mem hp]
    split_ifs with hlock
    · exact h.keeps hle
    · exact h.lockAndDelete hp (not_not.mp hlock) htid (halloc p) hle

inductive Op
  | add (msg : Msg) (mmsg : Option ℕ) (newQ isRecovery written alloc : Bool)
  | dequeue (qname : String) (peek isAuto : Bool) (corrid : Option String) (tid : ℕ) (written : Bool)
    (alloc : ℕ → Bool)
  | dequeueByMsgid (msgid : String) (peek : Bool) (tid : ℕ) (written : Bool) (alloc : ℕ → Bool)
  | unlock (command : Command) (msgid : String) (alloc : ℕ → Bool)
  | unlockByMsgid (msgid : String) (alloc : ℕ → Bool)
  | lock (msgid : String) (tid : ℕ)

/-- An operation that is called at the time `now` and whose storage answers at the time `later`. -/
def Op.run (conf : String → Option Qconf) (now later : Int) (s : State) : Op → Except Abort State
  | .add msg mmsg newQ isRecovery written alloc =>
    (tmqMsgAdd conf s msg mmsg newQ isRecovery written alloc now).map Prod.fst
  | .dequeue qname peek isAuto corrid tid written alloc =>
    (tmqMsgDequeue conf s qname peek isAuto corrid tid written alloc now later).map Prod.fst
  | .dequeueByMsgid msgid peek tid written alloc =>
    (tmqMsgDequeueByMsgid s msgid peek tid written alloc later).map Prod.fst
  | .unlock command msgid alloc => (tmqUnlockMsg s command msgid alloc now).map Prod.fst
  | .unlockByMsgid msgid alloc => (tmqUnlockMsgByMsgid s msgid alloc now).map Prod.fst
  | .lock msgid tid => (tmqLockMsg s msgid tid).map Prod.fst

def LockedIn (s : State) (msgid : String) : Prop :=
  ∀ p m, s.msgidHash msgid = some p → s.mem p = some m → m.msg.lockthreadid ≠ 0

/-- What an operation needs: memory is not given twice and a thread has a number; messages of a queue do not
compare equal; only a locked message is unlocked and only an unlocked one locked; and there is memory for a
correlator entry when a message moves. With `strict` messages compare as their keys do. -/
def Op.Meets (strict : Prop) (s : State) : Op → Prop
  | .add msg mmsg _ _ _ _ =>
    (∀ p, mmsg = some p → s.mem p = none) ∧
      ∀ a m, s.mem a = some m → m.msg.qname = msg.qname → msg.Apart m.msg ∧ (strict → msg.Close m.msg)
  | .dequeue _ _ _ _ tid _ alloc => tid ≠ 0 ∧ ∀ a, alloc a = true
  | .dequeueByMsgid _ _ tid _ alloc => tid ≠ 0 ∧ ∀ a, alloc a = true
  | .unlock command msgid alloc =>
    match command with
    | .del | .dum | .unknown => True
    | .newmsg | .upd _ | .unlock => LockedIn s msgid ∧ ∀ a, alloc a = true
  | .unlockByMsgid msgid alloc => LockedIn s msgid ∧ ∀ a, alloc a = true
  | .lock msgid tid =>
    tid ≠ 0 ∧ ∀ p m, s.msgidHash msgid = some p → s.mem p = some m → m.msg.lockthreadid = 0

/-- The commands that unlock the message, changed by `f` or not. -/
theorem Inv.unlockFound (h : Inv strict t s) (hle : strict → t ≤ now) (hid : s.msgidHash msgid = some p)
    (hmeets : LockedIn s msgid ∧ ∀ a, alloc a = true) (f : MemMsg → MemMsg)
    (hf : ∀ m, f m = ⟨(f m).msg, m.corhash, m.qstate⟩ ∧ (f m).msg.core = m.msg.core) :
    Keeps strict now (do return (← unlockEntry s p (f (s.get p)) (alloc p) now, true)) := by
  obtain ⟨m, hp⟩ := h.places.mem_of_hash hid
  obtain ⟨s', hrun, hinv⟩ := h.unlock hp (hmeets.1 p m hid hp) (hf m).1 (hf m).2 (hmeets.2 p) hle
  rw [State.get_of_mem hp, hrun]
  exact ⟨s', true, rfl, hinv⟩

theorem Inv.unlockMsg {command : Command} (h : Inv strict t s)
    (hmeets : (Op.unlock command msgid alloc).Meets strict s) (hle : strict → t ≤ now) :
    Keeps strict now (tmqUnlockMsg s command msgid alloc now) := by
  unfold tmqUnlockMsg
  cases hid : s.msgidHash msgid with
  | none => cases command <;> exact h.keeps hle
  | some p =>
    cases command with
    | dum | unknown => exact h.keeps hle
    | del =>
      obtain ⟨m, hp⟩ := h.places.mem_of_hash hid
      obtain ⟨s', hrun, hinv⟩ := h.remove hp
      show Keeps strict now (do return (← tmqRemoveMsg s p, true))
      rw [hrun]
      exact hinv.keeps hle
    | upd u => exact h.unlockFound hle hid hmeets u.apply fun m => ⟨rfl, rfl⟩
    | newmsg | unlock => exact h.unlockFound hle hid hmeets id fun m => ⟨rfl, rfl⟩

theorem Inv.unlockMsgByMsgid (h : Inv strict t s)
    (hmeets : (Op.unlockByMsgid msgid alloc).Meets strict s) (hle : strict → t ≤ now) :
    Keeps strict now (tmqUnlockMsgByMsgid s msgid alloc now) := by
  rw [tmqUnlockMsgByMsgid]
  cases hid : s.msgidHash msgid with
  | none => exact h.keeps hle
  | some => exact h.unlockFound hle hid hmeets id fun m => ⟨rfl, rfl⟩

theorem Inv.lockMsg (h : Inv strict t s) (hmeets : (Op.lock msgid tid).Meets strict s) :
    Keeps strict t (tmqLockMsg s msgid tid) := by
  rw [tmqLockMsg]
  cases hid : s.msgidHash msgid with
  | none => exact ⟨s, false, rfl, h⟩
  | some p =>
    obtain ⟨m, hp⟩ := h.places.mem_of_hash hid
    obtain ⟨e, hmov, _, hinv⟩ := h.mov2infl hp (hmeets.2 p m hid hp) hmeets.1
    refine ⟨s.put p e, true, ?_, hinv⟩
    show (do let e ← Entry.mov2infl p ⟨(s.get p).lock tid, s.queue (s.get p).msg.qname⟩; _) = _
    rw [State.get_of_mem hp, hmov]
    rfl

theorem Inv.step {op : Op} (h : Inv strict t s) (hmeets : op.Meets strict s) (conf : String → Option Qconf)
    (now later : Int) (hnow : strict → t ≤ now) (hlater : strict → now ≤ later) :
    ∃ s', op.run conf now later s = .ok s' ∧ Inv strict later s' := by
  have hle (hstrict : strict) : t ≤ later := (hnow hstrict).trans (hlater hstrict)
  cases op with
  | add msg mmsg newQ isRecovery written alloc =>
    exact (h.add hmeets.1 hmeets.2 hnow conf newQ isRecovery written alloc).state hlater
  | dequeue qname peek isAuto corrid tid written =>
    exact (h.dequeue hmeets.1 hmeets.2 hnow hlater conf qname peek isAuto written corrid).state
      fun _ => le_rfl
  | dequeueByMsgid msgid peek tid written =>
    exact (h.dequeueByMsgid hmeets.1 hmeets.2 hle msgid peek written).state fun _ => le_rfl
  | unlock => exact (h.unlockMsg hmeets hnow).state hlater
  | unlockByMsgid => exact (h.unlockMsgByMsgid hmeets hnow).state hlater
  | lock => exact (h.lockMsg hmeets).state hle

structure Indexed (s : State) : Prop where
  once : ∀ p m, s.mem p = some m → (s.nodes m.msg.qname .infl).count p+
    (s.nodes m.msg.qname .cur).count p+(s.nodes m.msg.qname .fut).count p = 1
  own : ∀ qname loc p, p ∈ s.nodes qname loc → ∃ m, s.mem p = some m ∧ m.msg.qname = qname
  locked : ∀ p m, s.mem p = some m → (p ∈ s.nodes m.msg.qname .infl ↔ m.msg.lockthreadid ≠ 0)
  correlated : ∀ p m c, s.mem p = some m → (p ∈ s.nodes m.msg.qname (.cor c) ↔
    p ∈ s.nodes m.msg.qname .cur ∧ m.msg.hasCorrid = true ∧ m.msg.corrid = c)
  nodup : ∀ qname loc, (s.nodes qname loc).Nodup
  full : ∀ qname h c, s.qhash qname = some h → h.corhash c ≠ some []
  hashed : ∀ msgid p, s.msgidHash msgid = some p ↔ ∃ m, s.mem p = some m ∧ m.msg.msgid = msgid

theorem Placed.correlated {c : String} (h : Placed strict t m) :
    m.In (.cor c) ↔ m.In .cur ∧ m.msg.hasCorrid = true ∧ m.msg.corrid = c := by
  rcases h with ⟨_, h⟩ | ⟨_, _, h⟩ | ⟨_, _, h⟩
  · rw [h]
    exact iff_of_false (fun hin => by cases hin) (fun hin => by cases hin.1)
  · rw [h]
    exact iff_of_false (fun hin => by cases hin) (fun hin => by cases hin.1)
  · have hcor : m.In (.cor c) ↔ (if m.msg.hasCorrid then some m.msg.corrid else none) = some c := by
      rw [h]
      rfl
    have hcur : m.In .cur := by
      rw [h]
      rfl
    rw [hcor]
    cases hcorrid : m.msg.hasCorrid with
    | false => exact iff_of_false (fun hin => by cases hin) (fun hin => by cases hin.2.1)
    | true => exact ⟨fun hin => ⟨hcur, rfl, Option.some.inj hin⟩, fun hin => congrArg some hin.2.2⟩

/-- Under the invariant each message is in one of the three places and under its ids. -/
theorem Inv.indexed (h : Inv strict t s) : Indexed s := by
  have hnode {m : MemMsg} (p : ℕ) (hp : s.mem p = some m) (loc : Loc) :
      p ∈ s.nodes m.msg.qname loc ↔ m.In loc :=
    (h.places.entryOk hp).place loc
  have hcount {m : MemMsg} (p : ℕ) (hp : s.mem p = some m) (loc : Loc) {b : Bool}
      (hb : m.In loc ↔ b = true) : (s.nodes m.msg.qname loc).count p = if b then 1 else 0 := by
    cases b with
    | true => exact count_eq_one_of_mem (h.places.nodup _ loc) ((hnode p hp loc).mpr (hb.mpr rfl))
    | false =>
      apply count_eq_zero_of_not_mem
      rw [hnode p hp loc, hb]
      exact Bool.noConfusion
  constructor
  · intro p m hp
    have hinfl := hcount p hp .infl (b := m.qstate.infl) Iff.rfl
    have hcur := hcount p hp .cur (b := m.qstate.cur) Iff.rfl
    have hfut := hcount p hp .fut (b := m.qstate.fut) Iff.rfl
    rw [hinfl, hcur, hfut]
    rcases h.placed p m hp with ⟨_, hm⟩ | ⟨_, _, hm⟩ | ⟨_, _, hm⟩ <;> rw [hm] <;> rfl
  · intro qname loc p hmem
    obtain ⟨m, hm, hqname, _⟩ := (h.places.nodes_iff qname loc p).mp hmem
    exact ⟨m, hm, hqname⟩
  · intro p m hp
    rw [hnode p hp]
    exact (h.placed p m hp).infl_iff
  · intro p m c hp
    rw [hnode p hp, hnode p hp]
    exact (h.placed p m hp).correlated
  · exact h.places.nodup
  · intro qname q c hq
    have hfull := h.places.full qname c
    rw [State.queue, hq] at hfull
    exact hfull
  · intro msgid p
    rw [h.places.hash_iff]
    exact exists_congr fun m => and_congr_right fun hm =>
      and_iff_left (h.placed p m hm).msgidHash

/-- A step at the clock of a pair, which ends with that of the next. -/
def Timed (conf : String → Option Qconf) (x y : State × Int) : Prop :=
  ∃ (op : Op) (now : Int), op.Meets True x.1 ∧ x.2 ≤ now ∧ now ≤ y.2 ∧ op.run conf now y.2 x.1 = .ok y.1

def Moves (conf : String → Option Qconf) (s s' : State) : Prop :=
  ∃ (op : Op) (now later : Int), op.Meets False s ∧ op.run conf now later s = .ok s'

theorem Op.Meets.weaken {op : Op} (h : op.Meets True s) : op.Meets False s := by
  cases op with
  | add => exact ⟨h.1, fun a m hm hq => ⟨(h.2 a m hm hq).1, False.elim⟩⟩
  | _ => exact h

theorem moves_of_timed {x y : State × Int} (hrun : Relation.ReflTransGen (Timed conf) x y) :
    Relation.ReflTransGen (Moves conf) x.1 y.1 := by
  apply hrun.lift
  rintro _ b ⟨op, now, hmeets, -, -, hop⟩
  exact ⟨op, now, b.2, hmeets.weaken, hop⟩

theorem Inv.run (hrun : Relation.ReflTransGen (Moves conf) .start s) : Inv False t s := by
  induction hrun with
  | refl => exact Inv.start
  | tail _ hmove ih =>
    obtain ⟨_, now, later, hmeets, hop⟩ := hmove
    obtain ⟨_, hstep, hinv⟩ := ih.step hmeets conf now later False.elim False.elim
    rw [hop] at hstep
    cases hstep
    exact hinv.mono False.elim

/-- Every index holds exactly the right messages and no `abort` is reached. -/
theorem indexes_exact (hrun : Relation.ReflTransGen (Moves conf) .start s) :
    Indexed s ∧ ∀ (op : Op) (now later : Int), op.Meets False s → ∃ s', op.run conf now later s = .ok s' := by
  have hinv : Inv False 0 s := Inv.run hrun
  refine ⟨hinv.indexed, fun op now later hmeets => ?_⟩
  obtain ⟨s', hop, _⟩ := hinv.step hmeets conf now later False.elim False.elim
  exact ⟨s', hop⟩

def plainMsg (msgid : String) (cntr : Int) : Msg :=
  ⟨"Q", msgid, 100, 0, cntr, false, 0, false, "", 0, ' ', 0, 0, 0⟩

def timedMsg (msgid : String) (cntr deqTime : Int) : Msg :=
  {plainMsg msgid cntr with timeAbs := true, deqTime := deqTime}

def oneQueue : String → Option Qconf := fun qname => if qname = "Q" then some ⟨false, false⟩ else none

def sharedMsg (msgid : String) (cntr : Int) : Msg :=
  {plainMsg msgid cntr with hasCorrid := true, corrid := "C"}

/-- A run that leaves two messages of one correlator: the second has the smaller key, and the
first was added locked and is unlocked again. -/
theorem two_messages : ∃ s, Relation.ReflTransGen (Timed oneQueue) (.start, 100) (s, 100) ∧
    s.mem 0 = some (curOf (sharedMsg "A" 1) true) ∧ s.mem 1 = some (curOf (sharedMsg "B" 0) true) ∧
    s.nodes "Q" .cur = [1, 0] ∧ (s.queue "Q").corhash "C" = some [1, 0] := by
  obtain ⟨s1, s2, s, h1, h2, h3, hend, hmem1, hmem2, hlock⟩ : ∃ s1 s2 s,
      (Op.add {sharedMsg "A" 1 with lockthreadid := 7} (some 0) true false true true).run oneQueue
        100 100 .start = .ok s1 ∧
      (Op.add (sharedMsg "B" 0) (some 1) true true true true).run oneQueue 100 100 s1 = .ok s2 ∧
      (Op.unlock .newmsg "A" fun _ => true).run oneQueue 100 100 s2 = .ok s ∧
      (s.mem 0 = some (curOf (sharedMsg "A" 1) true) ∧
        s.mem 1 = some (curOf (sharedMsg "B" 0) true) ∧
        s.nodes "Q" .cur = [1, 0] ∧ (s.queue "Q").corhash "C" = some [1, 0]) ∧
      s1.mem 1 = none ∧ (∀ a m, s1.mem a = some m → m.msg = {sharedMsg "A" 1 with lockthreadid := 7}) ∧
      LockedIn s2 "A" := by
    refine ⟨_, _, _, rfl, rfl, rfl, ⟨rfl, rfl, rfl, rfl⟩, rfl, fun a m hm => ?_, fun p m hp hm => ?_⟩
    · cases a with
      | zero =>
        cases hm
        rfl
      | succ => cases hm
    · cases hp
      cases hm
      decide
  have hadd : (Op.add {sharedMsg "A" 1 with lockthreadid := 7} (some 0) true false true true).Meets
      True .start := ⟨fun _ _ => rfl, fun _ _ hb => by cases hb⟩
  have hnext : (Op.add (sharedMsg "B" 0) (some 1) true true true true).Meets True s1 := by
    refine ⟨fun p hp => by cases hp; exact hmem1, fun a m hm _ => ?_⟩
    rw [hmem2 a m hm]
    have hplain : (sharedMsg "B" 0).timeAbs ≠ true := by decide
    exact ⟨⟨by decide, by decide, fun h => absurd h hplain⟩, fun _ =>
      ⟨by decide, by decide, by decide, by decide, fun h => absurd h hplain⟩⟩
  have hunlock : (Op.unlock .newmsg "A" fun _ => true).Meets True s2 := ⟨hlock, fun _ => rfl⟩
  have ht1 : Timed oneQueue (.start, 100) (s1, 100) := ⟨_, 100, hadd, le_rfl, le_rfl, h1⟩
  have ht2 : Timed oneQueue (s1, 100) (s2, 100) := ⟨_, 100, hnext, le_rfl, le_rfl, h2⟩
  exact ⟨s, ((Relation.ReflTransGen.single ht1).tail ht2).tail
    ⟨_, 100, hunlock, le_rfl, le_rfl, h3⟩, hend⟩

theorem indexes_exact_two : ∃ s, Relation.ReflTransGen (Moves oneQueue) .start s ∧
    s.nodes "Q" .cur = [1, 0] ∧ Indexed s := by
  obtain ⟨s, hrun, -, -, hcur, -⟩ := two_messages
  have hmoves : Relation.ReflTransGen (Moves oneQueue) .start s := moves_of_timed hrun
  exact ⟨s, hmoves, hcur, (indexes_exact hmoves).1⟩

theorem indexes_fail :
    (∃ s, (Op.add (timedMsg "A" 0 200) (some 0) true false true true).run oneQueue 100 100 .start = .ok s ∧
      (Op.add (timedMsg "B" 1 (200+2^32)) (some 1) true false true true).run oneQueue 100 100 s =
        .error (.combine .fut)) ∧
    (∃ s s', (Op.add {plainMsg "A" 0 with hasCorrid := true, corrid := "C", lockthreadid := 7} (some 0) true
        false true true).run oneQueue 100 100 .start = .ok s ∧
      (Op.unlock .newmsg "A" fun _ => false).run oneQueue 100 100 s = .ok s' ∧ ¬ Indexed s') ∧
    (∃ s, (Op.add (plainMsg "A" 0) (some 0) true true true true).run oneQueue 100 100 .start = .ok s ∧
      (Op.unlock .newmsg "A" fun _ => true).run oneQueue 100 100 s = .error .mov2cur) := by
  refine ⟨⟨_, rfl, rfl⟩, ⟨_, _, rfl, rfl, fun h => ?_⟩, _, rfl, rfl⟩
  have hcor := (h.correlated 0 _ "C" rfl).mpr ⟨by decide, rfl, rfl⟩
  exact absurd hcor (by decide)

end Endurox.Tmq
