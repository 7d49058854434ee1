import Endurox.TmqIndex

/-! One message in the lists and trees of its queue. Each move of the message keeps the other messages where
they are, and the flags of the message tell where it is. -/

namespace Endurox.Tmq
open Base List

abbrev Key : Type := Int ×ₗ Int ×ₗ Int ×ₗ Int

namespace Msg

def key (m : Msg) : Int ×ₗ Int ×ₗ Int := toLex (m.msgtstamp, toLex (m.msgtstampUsec, m.msgtstampCntr))

def core (m : Msg) : Msg :=
  {m with lockthreadid := 0, status := ' ', trycounter := 0, trytstamp := 0, trytstampUsec := 0}

def Apart (a b : Msg) : Prop :=
  a.cmpCur b ≠ 0 ∧ b.cmpCur a ≠ 0 ∧
    (a.timeAbs = true → b.timeAbs = true → a.cmpFut b ≠ 0 ∧ b.cmpFut a ≠ 0)

end Msg

def Near (a b : Int) : Prop := a-b < 2147483648 ∧ b-a < 2147483648

instance (a b : Int) : Decidable (Near a b) := inferInstanceAs (Decidable (_ ∧ _))

def Msg.Close (a b : Msg) : Prop :=
  a.key ≠ b.key ∧ Near a.msgtstamp b.msgtstamp ∧ Near a.msgtstampUsec b.msgtstampUsec ∧
    Near a.msgtstampCntr b.msgtstampCntr ∧
    (a.timeAbs = true → b.timeAbs = true → Near a.deqTime b.deqTime)

def Loc.key : Loc → Msg → Key
  | .fut, m => toLex (m.deqTime, m.key)
  | _, m => toLex (0, m.key)

theorem wrap32_wrap64_of_near {a b : Int} (h : Near a b) : wrap32 (wrap64 (a-b)) = a-b := by
  have h64 : wrap64 (a-b) = a-b := wrap64_of_mem (by have := h.2; omega) (by have := h.1; omega)
  rw [h64, wrap32_of_mem (by have := h.2; omega) (by have := h.1; omega)]

theorem wrap64_of_near {a b : Int} (h : Near a b) : wrap64 (a-b) = a-b :=
  wrap64_of_mem (by have := h.2; omega) (by have := h.1; omega)

theorem lex_lt {α β : Type*} [PartialOrder α] [Preorder β] {a c : α} {b d : β} :
    toLex (a, b) < toLex (c, d) ↔ a < c ∨ a = c ∧ b < d :=
  Prod.Lex.toLex_lt_toLex

theorem lex_eq {α β : Type*} {a c : α} {b d : β} : toLex (a, b) = toLex (c, d) ↔ a = c ∧ b = d := by
  rw [toLex_inj, Prod.mk.injEq]

theorem compare3_near {a1 a2 a3 b1 b2 b3 : Int} (h1 : Near a1 b1) (h2 : Near a2 b2) (h3 : Near a3 b3) :
    (compare3 a1 a2 a3 b1 b2 b3 < 0 ↔ toLex (a1, toLex (a2, a3)) < toLex (b1, toLex (b2, b3))) ∧
    (compare3 a1 a2 a3 b1 b2 b3 = 0 ↔ toLex (a1, toLex (a2, a3)) = toLex (b1, toLex (b2, b3))) := by
  rw [compare3, wrap32_wrap64_of_near h1, wrap32_wrap64_of_near h2, wrap32_wrap64_of_near h3,
    wrap64_of_near h1, wrap64_of_near h2]
  simp only [lex_lt, lex_eq]
  split_ifs <;> constructor <;> omega

theorem compare4_near {a1 a2 a3 a4 b1 b2 b3 b4 : Int} (h1 : Near a1 b1) (h2 : Near a2 b2)
    (h3 : Near a3 b3) (h4 : Near a4 b4) :
    (compare4 a1 a2 a3 a4 b1 b2 b3 b4 < 0 ↔
      toLex (a1, toLex (a2, toLex (a3, a4))) < toLex (b1, toLex (b2, toLex (b3, b4)))) ∧
    (compare4 a1 a2 a3 a4 b1 b2 b3 b4 = 0 ↔
      toLex (a1, toLex (a2, toLex (a3, a4))) = toLex (b1, toLex (b2, toLex (b3, b4)))) := by
  rw [compare4, wrap32_wrap64_of_near h1, wrap32_wrap64_of_near h2, wrap32_wrap64_of_near h3,
    wrap32_wrap64_of_near h4, wrap64_of_near h1, wrap64_of_near h2, wrap64_of_near h3]
  simp only [lex_lt, lex_eq]
  split_ifs <;> constructor <;> omega

theorem Near.symm {a b : Int} (h : Near a b) : Near b a := ⟨h.2, h.1⟩

namespace Msg.Close

variable {a b : Msg}

theorem symm (h : a.Close b) : b.Close a := by
  obtain ⟨hne, h1, h2, h3, h4⟩ := h
  exact ⟨hne.symm, h1.symm, h2.symm, h3.symm, fun hb ha => (h4 ha hb).symm⟩

theorem cmpCur (h : a.Close b) :
    (a.cmpCur b < 0 ↔ a.key < b.key) ∧ (a.cmpCur b = 0 ↔ a.key = b.key) :=
  compare3_near h.2.1 h.2.2.1 h.2.2.2.1

theorem cmpFut (h : a.Close b) (ha : a.timeAbs = true) (hb : b.timeAbs = true) :
    (a.cmpFut b < 0 ↔ Loc.key .fut a < Loc.key .fut b) ∧
      (a.cmpFut b = 0 ↔ Loc.key .fut a = Loc.key .fut b) :=
  compare4_near (h.2.2.2.2 ha hb) h.2.1 h.2.2.1 h.2.2.2.1

end Msg.Close

namespace Qhash

variable {h : Qhash} {loc loc' : Loc} {l : List ℕ}

@[simp] theorem nodes_setNodes_self : (h.setNodes loc l).nodes loc = l := by
  cases loc with
  | cor =>
    simp only [setNodes, nodes, Function.update_self]
    split_ifs with hl
    · rw [hl, Option.getD_none]
    · rfl
  | _ => rfl

theorem nodes_setNodes_of_ne (hne : loc' ≠ loc) : (h.setNodes loc l).nodes loc' = h.nodes loc' := by
  cases loc <;> cases loc' <;> first | rfl | exact absurd rfl hne | skip
  case cor.cor c c' =>
    have hc : c' ≠ c := fun hc => hne (congrArg Loc.cor hc)
    simp [setNodes, nodes, Function.update_of_ne hc]

def Full (h : Qhash) : Prop := ∀ c, h.corhash c ≠ some []

theorem Full.setNodes (hfull : h.Full) : (h.setNodes loc l).Full := by
  intro c'
  cases loc with
  | cor c =>
    show Function.update h.corhash c _ c' ≠ some []
    by_cases hc : c' = c
    · rw [hc, Function.update_self]
      split_ifs with hl
      · exact (Option.some_ne_none _).symm
      · exact fun heq => hl (Option.some.inj heq)
    · rw [Function.update_of_ne hc]
      exact hfull c'
  | _ => exact hfull c'

end Qhash

namespace MemMsg

def In (m : MemMsg) : Loc → Prop
  | .infl => m.qstate.infl = true
  | .fut => m.qstate.fut = true
  | .cur => m.qstate.cur = true
  | .cor c => m.corhash = some c

variable {m : MemMsg} {loc loc' : Loc} {b : Bool}

theorem in_mark_self : (m.mark loc b).In loc ↔ b = true := by
  cases loc with
  | cor =>
    cases b with
    | true => exact iff_of_true rfl rfl
    | false => exact iff_of_false (fun hin => by cases hin) Bool.noConfusion
  | _ => rfl

theorem in_mark_of_ne (hne : loc' ≠ loc) (hcor : ∀ c, loc = .cor c → ∀ c', m.corhash = some c' → c' = c) :
    (m.mark loc b).In loc' ↔ m.In loc' := by
  cases loc <;> cases loc' <;> first | rfl | exact absurd rfl hne | skip
  case cor.cor c c' =>
    have hc : c' ≠ c := fun hc => hne (congrArg Loc.cor hc)
    constructor
    · intro hin
      cases b with
      | true => exact absurd (Option.some.inj hin).symm hc
      | false => cases hin
    · intro hin
      exact absurd (hcor c rfl c' hin) hc

@[simp] theorem mark_msg : (m.mark loc b).msg = m.msg := by
  cases loc <;> rfl

@[simp] theorem mark_msgidHash : (m.mark loc b).qstate.msgidHash = m.qstate.msgidHash := by
  cases loc <;> rfl

theorem in_lock {tid : ℕ} : (m.lock tid).In loc ↔ m.In loc := by
  cases loc <;> rfl

end MemMsg

variable {strict : Prop} {key : Loc → ℕ → Key} {cmp : Loc → ℕ → ℕ → Int} {p : ℕ} {e e' e'' : Entry}

structure EntryOk (strict : Prop) (key : Loc → ℕ → Key) (p : ℕ) (e : Entry) : Prop where
  place : ∀ loc, p ∈ e.h.nodes loc ↔ e.m.In loc
  nodup : ∀ loc, (e.h.nodes loc).Nodup
  sorted : strict → ∀ loc, loc ≠ .infl → Tree.Sorted (key loc) (e.h.nodes loc)
  full : e.h.Full

structure Beside (p : ℕ) (e e' : Entry) : Prop where
  msg : e'.m.msg = e.m.msg
  msgidHash : e'.m.qstate.msgidHash = e.m.qstate.msgidHash
  others : ∀ loc a, a ≠ p → (a ∈ e'.h.nodes loc ↔ a ∈ e.h.nodes loc)

theorem Beside.trans (h : Beside p e e') (h' : Beside p e' e'') : Beside p e e'' :=
  ⟨h'.msg.trans h.msg, h'.msgidHash.trans h.msgidHash,
    fun loc a ha => (h'.others loc a ha).trans (h.others loc a ha)⟩

theorem Beside.refl : Beside p e e := ⟨rfl, rfl, fun _ _ _ => Iff.rfl⟩

def Compares (strict : Prop) (cmp : Loc → ℕ → ℕ → Int) (key : Loc → ℕ → Key) (p : ℕ) (e : Entry) : Prop :=
  ∀ loc a, a ≠ p → a ∈ e.h.nodes loc → loc ≠ .infl → (loc = .fut → e.m.msg.timeAbs = true) →
    cmp loc p a ≠ 0 ∧ (strict → Tree.Follows (cmp loc) (key loc) p a)

theorem Compares.beside (h : Compares strict cmp key p e) (hb : Beside p e e') :
    Compares strict cmp key p e' := by
  intro loc a ha hmem hinfl htime
  apply h loc a ha ((hb.others loc a ha).mp hmem) hinfl
  intro hfut
  rw [← hb.msg]
  exact htime hfut

/-- Marking a message for a place and listing it there keeps the entry. -/
theorem EntryOk.change {loc : Loc} {l : List ℕ} {b : Bool} (h : EntryOk strict key p e)
    (hcor : ∀ c, loc = .cor c → ∀ c', e.m.corhash = some c' → c' = c) (hp : p ∈ l ↔ b = true)
    (hothers : ∀ a, a ≠ p → (a ∈ l ↔ a ∈ e.h.nodes loc)) (hnodup : l.Nodup)
    (hsorted : strict → loc ≠ .infl → Tree.Sorted (key loc) l) :
    EntryOk strict key p ⟨e.m.mark loc b, e.h.setNodes loc l⟩ ∧
      Beside p e ⟨e.m.mark loc b, e.h.setNodes loc l⟩ := by
  refine ⟨⟨?_, ?_, ?_, h.full.setNodes⟩, ⟨MemMsg.mark_msg, MemMsg.mark_msgidHash, ?_⟩⟩
  · intro loc'
    by_cases hloc : loc' = loc
    · rw [hloc, Qhash.nodes_setNodes_self, hp]
      exact MemMsg.in_mark_self.symm
    · rw [Qhash.nodes_setNodes_of_ne hloc, h.place loc']
      exact (MemMsg.in_mark_of_ne hloc hcor).symm
  · intro loc'
    by_cases hloc : loc' = loc
    · rw [hloc, Qhash.nodes_setNodes_self]
      exact hnodup
    · rw [Qhash.nodes_setNodes_of_ne hloc]
      exact h.nodup loc'
  · intro hstrict loc' hinfl
    by_cases hloc : loc' = loc
    · rw [hloc] at hinfl
      rw [hloc, Qhash.nodes_setNodes_self]
      exact hsorted hstrict hinfl
    · rw [Qhash.nodes_setNodes_of_ne hloc]
      exact h.sorted hstrict loc' hinfl
  · intro loc' a ha
    by_cases hloc : loc' = loc
    · rw [hloc, Qhash.nodes_setNodes_self]
      exact hothers a ha
    · rw [Qhash.nodes_setNodes_of_ne hloc]

theorem EntryOk.take (h : EntryOk strict key p e) (loc : Loc)
    (hcor : ∀ c, loc = .cor c → ∀ c', e.m.corhash = some c' → c' = c) :
    EntryOk strict key p (e.take p loc) ∧ Beside p e (e.take p loc) := by
  apply h.change hcor
  · rw [(h.nodup loc).mem_erase_iff]
    exact iff_of_false (fun hp => hp.1 rfl) Bool.noConfusion
  · intro a ha
    exact mem_erase_of_ne ha
  · exact (h.nodup loc).erase p
  · exact fun hstrict hinfl => (h.sorted hstrict loc hinfl).erase p

theorem EntryOk.append (h : EntryOk strict key p e) (hnot : e.m.qstate.infl = false) :
    EntryOk strict key p (e.append p) ∧ Beside p e (e.append p) := by
  have hp : p ∉ e.h.nodes .infl := by
    rw [h.place]
    intro hin
    exact Bool.noConfusion (hnot.symm.trans hin)
  apply h.change (fun _ hc => by cases hc)
  · exact iff_of_true (mem_append_right _ mem_cons_self) rfl
  · intro a ha
    rw [mem_append, mem_singleton, or_iff_left ha]
  · rw [nodup_append]
    refine ⟨h.nodup .infl, nodup_singleton p, ?_⟩
    intro a ha b hb hab
    rw [mem_singleton.mp hb] at hab
    rw [hab] at ha
    exact hp ha
  · exact fun _ hinfl => absurd rfl hinfl

theorem EntryOk.rbtInsert (h : EntryOk strict key p e) (hcmp : Compares strict cmp key p e) (loc : Loc)
    (hinfl : loc ≠ .infl) (htime : loc = .fut → e.m.msg.timeAbs = true) (hnot : ¬ e.m.In loc)
    (hcor : ∀ c, loc = .cor c → ∀ c', e.m.corhash = some c' → c' = c) :
    ∃ e', e.rbtInsert cmp p loc = .ok e' ∧ e'.m = e.m.mark loc true ∧
      EntryOk strict key p e' ∧ Beside p e e' := by
  have hp : p ∉ e.h.nodes loc := fun hmem => hnot ((h.place loc).mp hmem)
  have hnode (a : ℕ) (ha : a ∈ e.h.nodes loc) :
      cmp loc p a ≠ 0 ∧ (strict → Tree.Follows (cmp loc) (key loc) p a) := by
    refine hcmp loc a ?_ ha hinfl htime
    rintro rfl
    exact hp ha
  obtain ⟨l, hl, hperm⟩ := Tree.insert_isSome fun a ha => (hnode a ha).1
  refine ⟨⟨e.m.mark loc true, e.h.setNodes loc l⟩, ?_, rfl, ?_⟩
  · rw [Entry.rbtInsert, hl]
  apply h.change hcor
  · exact iff_of_true (hperm.mem_iff.mpr mem_cons_self) rfl
  · intro a ha
    rw [hperm.mem_iff, mem_cons, or_iff_right ha]
  · exact hperm.nodup_iff.mpr (nodup_cons.mpr ⟨hp, h.nodup loc⟩)
  · intro hstrict _
    exact Tree.sorted_insert (fun a ha => (hnode a ha).2 hstrict) (h.sorted hstrict loc hinfl) hl hperm

def inflOf (msg : Msg) (hash : Bool) : MemMsg := ⟨msg, none, ⟨true, false, false, false, hash⟩⟩

def futOf (msg : Msg) (hash : Bool) : MemMsg := ⟨msg, none, ⟨false, true, false, false, hash⟩⟩

def curOf (msg : Msg) (hash : Bool) : MemMsg :=
  ⟨msg, if msg.hasCorrid then some msg.corrid else none, ⟨false, false, true, msg.hasCorrid, hash⟩⟩

def noneOf (msg : Msg) (hash : Bool) : MemMsg := ⟨msg, none, ⟨false, false, false, false, hash⟩⟩

def bareOf (msg : Msg) (hash : Bool) : MemMsg := ⟨msg, none, ⟨false, false, true, false, hash⟩⟩

variable {msg : Msg} {hash : Bool}

variable (h : EntryOk strict key p e)
include h

theorem EntryOk.toFut (hcmp : Compares strict cmp key p e)
    (hm : e.m = noneOf msg hash) (htime : msg.timeAbs = true) :
    ∃ e', e.toFut cmp p = .ok (e', true) ∧ e'.m = futOf msg hash ∧
      EntryOk strict key p e' ∧ Beside p e e' := by
  obtain ⟨e', hins, hm', hok⟩ := h.rbtInsert hcmp .fut (by decide)
    (fun _ => by rw [hm]; exact htime) (by rw [hm]; exact Bool.noConfusion) (fun _ hc => by cases hc)
  refine ⟨e', ?_, ?_, hok⟩
  · rw [Entry.toFut, hins]
    rfl
  · rw [hm', hm]
    rfl

theorem EntryOk.toCur (hcmp : Compares strict cmp key p e)
    (hm : e.m = noneOf msg hash) (alloc : Bool) :
    ∃ e' ok, e.toCur cmp p alloc = .ok (e', ok) ∧ EntryOk strict key p e' ∧ Beside p e e' ∧
      (ok = true ∧ e'.m = curOf msg hash ∨ ok = false ∧ alloc = false ∧ e'.m = bareOf msg hash) := by
  obtain ⟨e1, hins, hm1, hok1, hb1⟩ := h.rbtInsert hcmp .cur (by decide)
    (fun hc => by cases hc) (by rw [hm]; exact Bool.noConfusion) (fun _ hc => by cases hc)
  have hbare : e1.m = bareOf msg hash := by
    rw [hm1, hm]
    rfl
  have hcur : e.toCur cmp p alloc =
      if msg.hasCorrid then e1.corMsgAdd cmp p alloc else .ok (e1, true) := by
    rw [Entry.toCur, hins]
    show (if e1.m.msg.hasCorrid then _ else _) = _
    rw [hbare]
    rfl
  rw [hcur]
  cases hcorrid : msg.hasCorrid with
  | false =>
    refine ⟨e1, true, rfl, hok1, hb1, .inl ⟨rfl, ?_⟩⟩
    rw [hbare, curOf, hcorrid]
    rfl
  | true =>
    rw [if_pos rfl, Entry.corMsgAdd]
    split_ifs with hshort
    · exact ⟨e1, false, rfl, hok1, hb1, .inr ⟨rfl, hshort.2, hbare⟩⟩
    have hnone : e1.m.corhash = none := by rw [hbare]; rfl
    obtain ⟨e2, hins2, hm2, hok2, hb2⟩ :=
      hok1.rbtInsert (hcmp.beside hb1) (.cor e1.m.msg.corrid) (by intro hc; cases hc)
        (fun hc => by cases hc) (fun hin => by rw [MemMsg.In, hnone] at hin; cases hin)
        (fun c hc c' hc' => by rw [hnone] at hc'; cases hc')
    refine ⟨e2, true, ?_, hok2, hb1.trans hb2, .inl ⟨rfl, ?_⟩⟩
    · rw [hins2]
      rfl
    · rw [hm2, hbare, curOf, hcorrid]
      rfl

theorem EntryOk.lock {tid : ℕ} :
    EntryOk strict key p {e with m := e.m.lock tid} :=
  ⟨fun loc => (h.place loc).trans MemMsg.in_lock.symm, h.nodup, h.sorted, h.full⟩

/-- A new message goes to the one place its lock and time say; only an allocation can fail. -/
theorem EntryOk.addmsg (hcmp : Compares strict cmp key p e)
    (hm : e.m = noneOf msg hash) (alloc : Bool) (now : Int) :
    ∃ e' ok, e.addmsg cmp p alloc now = .ok (e', ok) ∧ EntryOk strict key p e' ∧ Beside p e e' ∧
      (ok = true ∧ (msg.lockthreadid ≠ 0 ∧ e'.m = inflOf msg hash ∨
          msg.lockthreadid = 0 ∧ msg.waits now = true ∧ e'.m = futOf msg hash ∨
          msg.lockthreadid = 0 ∧ msg.waits now = false ∧ e'.m = curOf msg hash) ∨
        ok = false ∧ e'.m = bareOf msg hash) := by
  have hcase : e.addmsg cmp p alloc now = if msg.lockthreadid ≠ 0 then .ok (e.append p, true)
      else if msg.waits now then e.toFut cmp p else e.toCur cmp p alloc := by
    rw [Entry.addmsg, hm]
    rfl
  rw [hcase]
  by_cases hlock : msg.lockthreadid ≠ 0
  · rw [if_pos hlock]
    obtain ⟨hok, hb⟩ := h.append (by rw [hm]; rfl)
    refine ⟨_, true, rfl, hok, hb, .inl ⟨rfl, .inl ⟨hlock, ?_⟩⟩⟩
    rw [Entry.append, hm]
    rfl
  · rw [if_neg hlock]
    cases hwaits : msg.waits now with
    | true =>
      have htime : msg.timeAbs = true := (Bool.and_eq_true_iff.mp hwaits).1
      obtain ⟨e', hfut, hm', hok, hb⟩ := h.toFut hcmp hm htime
      exact ⟨e', true, hfut, hok, hb, .inl ⟨rfl, .inr (.inl ⟨not_not.mp hlock, rfl, hm'⟩)⟩⟩
    | false =>
      obtain ⟨e', ok, hcur, hok, hb, hm'⟩ := h.toCur hcmp hm alloc
      refine ⟨e', ok, hcur, hok, hb, ?_⟩
      rcases hm' with ⟨htrue, hm'⟩ | ⟨hfalse, _, hm'⟩
      · exact .inl ⟨htrue, .inr (.inr ⟨not_not.mp hlock, rfl, hm'⟩)⟩
      · exact .inr ⟨hfalse, hm'⟩

theorem EntryOk.leaveCor (hcor : e.m.qstate.cor = e.m.corhash.isSome) :
    ∃ e', e.leaveCor p = .ok e' ∧
      e'.m = ⟨e.m.msg, none, ⟨e.m.qstate.infl, e.m.qstate.fut, e.m.qstate.cur, false,
        e.m.qstate.msgidHash⟩⟩ ∧
      EntryOk strict key p e' ∧ Beside p e e' := by
  cases hc : e.m.corhash with
  | none =>
    replace hcor : e.m.qstate.cor = false := by
      rw [hcor, hc]
      rfl
    refine ⟨e, ?_, ?_, h, .refl⟩
    · rw [Entry.leaveCor, hcor]
      rfl
    · rw [← hc, ← hcor]
  | some c =>
    replace hcor : e.m.qstate.cor = true := by
      rw [hcor, hc]
      rfl
    obtain ⟨hok, hb⟩ := h.take (.cor c) fun c1 hc1 c2 hc2 => by
      cases hc1
      rw [hc] at hc2
      exact (Option.some.inj hc2).symm
    refine ⟨e.take p (.cor c), ?_, rfl, hok, hb⟩
    rw [Entry.leaveCor, if_pos hcor, Entry.corMsgDel, hc]

theorem EntryOk.mov2infl
    (hm : e.m = futOf msg hash ∨ e.m = curOf msg hash) :
    ∃ e', e.mov2infl p = .ok e' ∧ e'.m = inflOf msg hash ∧ EntryOk strict key p e' ∧ Beside p e e' := by
  rcases hm with hm | hm
  · obtain ⟨hok1, hb1⟩ := h.take .fut (fun _ hc => by cases hc)
    have hm1 : (e.take p .fut).m = noneOf msg hash := by
      rw [Entry.take, hm]
      rfl
    obtain ⟨hok2, hb2⟩ := hok1.append (by rw [hm1]; rfl)
    refine ⟨_, ?_, ?_, hok2, hb1.trans hb2⟩
    · rw [Entry.mov2infl, hm]
      rfl
    · rw [Entry.append, hm1]
      rfl
  · obtain ⟨hok1, hb1⟩ := h.take .cur (fun _ hc => by cases hc)
    have hm1 : (e.take p .cur).m = (curOf msg hash).mark .cur false := by
      rw [Entry.take, hm]
    have hcor : (e.take p .cur).m.qstate.cor = (e.take p .cur).m.corhash.isSome := by
      rw [hm1]
      cases hcorrid : msg.hasCorrid <;> simp [curOf, MemMsg.mark, hcorrid]
    obtain ⟨e2, hleave, hm2, hok2, hb2⟩ := hok1.leaveCor hcor
    have hnone : e2.m = noneOf msg hash := by
      rw [hm2, hm1]
      rfl
    obtain ⟨hok3, hb3⟩ := hok2.append (by rw [hnone]; rfl)
    refine ⟨_, ?_, ?_, hok3, (hb1.trans hb2).trans hb3⟩
    · have hcase : e.mov2infl p = (do
          let e ← (e.take p .cur).leaveCor p
          return e.append p) := by
        rw [Entry.mov2infl, hm]
        rfl
      rw [hcase, hleave]
      rfl
    · rw [Entry.append, hnone]
      rfl

theorem EntryOk.mov2cur {alloc : Bool} {now : Int}
    (hcmp : Compares strict cmp key p e) (hm : e.m = inflOf msg hash) (halloc : alloc = true) :
    ∃ e', e.mov2cur cmp p alloc now = .ok (e', true) ∧ EntryOk strict key p e' ∧ Beside p e e' ∧
      (msg.waits now = true ∧ e'.m = futOf msg hash ∨ msg.waits now = false ∧ e'.m = curOf msg hash) := by
  obtain ⟨hok1, hb1⟩ := h.take .infl (fun _ hc => by cases hc)
  have hm1 : (e.take p .infl).m = noneOf msg hash := by
    rw [Entry.take, hm]
    rfl
  have hcase : e.mov2cur cmp p alloc now =
      if msg.waits now then (e.take p .infl).toFut cmp p else (e.take p .infl).toCur cmp p alloc := by
    rw [Entry.mov2cur, hm]
    show (if (e.take p .infl).m.msg.waits now then _ else _) = _
    rw [hm1]
    rfl
  rw [hcase]
  cases hwaits : msg.waits now with
  | true =>
    have htime : msg.timeAbs = true := (Bool.and_eq_true_iff.mp hwaits).1
    obtain ⟨e', hfut, hm', hok', hb'⟩ := hok1.toFut (hcmp.beside hb1) hm1 htime
    exact ⟨e', hfut, hok', hb1.trans hb', .inl ⟨rfl, hm'⟩⟩
  | false =>
    obtain ⟨e', _, hcur, hok', hb', hm'⟩ := hok1.toCur (hcmp.beside hb1) hm1 alloc
    rcases hm' with ⟨hok, hm'⟩ | ⟨_, hshort, _⟩
    · refine ⟨e', ?_, hok', hb1.trans hb', .inr ⟨rfl, hm'⟩⟩
      rw [hok] at hcur
      exact hcur
    · rw [halloc] at hshort
      cases hshort

theorem EntryOk.takeIf {loc : Loc} {b : Bool} (hloc : ∀ c, loc ≠ .cor c) :
    EntryOk strict key p (if b then e.take p loc else e) ∧ Beside p e (if b then e.take p loc else e) := by
  cases b with
  | true => exact h.take loc fun c hc => absurd hc (hloc c)
  | false => exact ⟨h, .refl⟩

theorem EntryOk.delmsg (hcor : e.m.qstate.cor = e.m.corhash.isSome) :
    ∃ e', e.delmsg p = .ok e' ∧ e'.m = noneOf e.m.msg e.m.qstate.msgidHash ∧
      EntryOk strict key p e' ∧ Beside p e e' := by
  obtain ⟨e1, hdel, hm1, hok1, hb1⟩ := h.leaveCor hcor
  -- then the three places of which at most one holds
  obtain ⟨hok2, hb2⟩ := hok1.takeIf (b := e1.m.qstate.infl) (fun c => (nomatch · : Loc.infl ≠ .cor c))
  set e2 := if e1.m.qstate.infl then e1.take p .infl else e1 with he2
  obtain ⟨hok3, hb3⟩ := hok2.takeIf (b := e2.m.qstate.fut) (fun c => (nomatch · : Loc.fut ≠ .cor c))
  set e3 := if e2.m.qstate.fut then e2.take p .fut else e2 with he3
  obtain ⟨hok4, hb4⟩ := hok3.takeIf (b := e3.m.qstate.cur) (fun c => (nomatch · : Loc.cur ≠ .cor c))
  refine ⟨_, ?_, ?_, hok4, ((hb1.trans hb2).trans hb3).trans hb4⟩
  · rw [Entry.delmsg, hdel]
    rfl
  have hflag {e : Entry} {loc : Loc} {b : Bool} :
      (if b then e.take p loc else e).m = if b then e.m.mark loc false else e.m := by
    cases b <;> rfl
  rw [hflag, hflag, hflag, hm1]
  obtain ⟨⟨_, _, ⟨infl, fut, cur, _, _⟩⟩, _⟩ := e
  cases infl <;> cases fut <;> cases cur <;> rfl

end Endurox.Tmq
