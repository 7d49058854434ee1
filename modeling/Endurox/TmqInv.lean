import Endurox.TmqPlaces

/-! All messages of a queue space in their indexes, over every run of the operations. -/

namespace Endurox.Tmq
open Base Function

namespace State

variable {s : State} {p a : ℕ} {e : Entry} {m : MemMsg} {qname : String} {loc : Loc}

def key (s : State) (loc : Loc) (p : ℕ) : Key := loc.key (s.get p).msg

theorem get_of_mem (h : s.mem p = some m) : s.get p = m := by rw [get, h, Option.getD_some]

theorem exists_mem (h : s.mem p = some m) {P : MemMsg → Prop} :
    (∃ m', s.mem p = some m' ∧ P m') ↔ P m := by
  simp [h]

theorem mem_put_self : (s.put p e).mem p = some e.m := update_self _ _ _

theorem mem_put_of_ne (h : a ≠ p) : (s.put p e).mem a = s.mem a := update_of_ne h _ _

theorem queue_setQ_self {h : Qhash} : (s.setQ qname h).queue qname = h := by
  show (update s.qhash qname (some h) qname).getD .empty = h
  rw [update_self, Option.getD_some]

theorem queue_setQ_of_ne {h : Qhash} {q : String} (hq : q ≠ qname) :
    (s.setQ qname h).queue q = s.queue q := by
  show (update s.qhash qname (some h) q).getD .empty = s.queue q
  rw [update_of_ne hq, queue]

theorem queue_put_self : (s.put p e).queue e.m.msg.qname = e.h := queue_setQ_self

theorem queue_put_of_ne (h : qname ≠ e.m.msg.qname) : (s.put p e).queue qname = s.queue qname :=
  queue_setQ_of_ne h

theorem get_put_self : (s.put p e).get p = e.m := get_of_mem mem_put_self

theorem get_put_of_ne (h : a ≠ p) : (s.put p e).get a = s.get a := by rw [get, mem_put_of_ne h, get]

end State

theorem Msg.qname_of_core {a b : Msg} (h : a.core = b.core) : a.qname = b.qname :=
  (congrArg Msg.qname h : a.core.qname = b.core.qname)

theorem Msg.msgid_of_core {a b : Msg} (h : a.core = b.core) : a.msgid = b.msgid :=
  (congrArg Msg.msgid h : a.core.msgid = b.core.msgid)

theorem Loc.key_core (loc : Loc) (m : Msg) : loc.key m.core = loc.key m := by
  cases loc <;> rfl

variable {strict : Prop} {s s' : State} {p : ℕ} {m : MemMsg} {e : Entry} {t now : Int}

structure PlaceInv (strict : Prop) (s : State) : Prop where
  nodes_iff : ∀ qname loc p, p ∈ s.nodes qname loc ↔
    ∃ m, s.mem p = some m ∧ m.msg.qname = qname ∧ m.In loc
  nodup : ∀ qname loc, (s.nodes qname loc).Nodup
  sorted : strict → ∀ qname loc, loc ≠ .infl → Tree.Sorted (s.key loc) (s.nodes qname loc)
  full : ∀ qname, (s.queue qname).Full
  hash_iff : ∀ msgid p, s.msgidHash msgid = some p ↔
    ∃ m, s.mem p = some m ∧ m.msg.msgid = msgid ∧ m.qstate.msgidHash = true

theorem PlaceInv.start : PlaceInv strict .start where
  nodes_iff := by
    intro qname loc p
    refine iff_of_false ?_ (fun ⟨m, hm, _⟩ => by cases hm)
    cases loc <;> exact List.not_mem_nil
  nodup := by
    intro qname loc
    cases loc <;> exact List.nodup_nil
  sorted := by
    intro _ qname loc _
    cases loc <;> exact List.Pairwise.nil
  full := by
    intro qname c hc
    cases hc
  hash_iff := by
    intro msgid p
    exact iff_of_false (fun h => by cases h) (fun ⟨m, hm, _⟩ => by cases hm)

section

variable (h : PlaceInv strict s)
include h

theorem PlaceInv.entryOk (hp : s.mem p = some m) :
    EntryOk strict s.key p ⟨m, s.queue m.msg.qname⟩ where
  place := by
    intro loc
    rw [show (s.queue m.msg.qname).nodes loc = s.nodes m.msg.qname loc from rfl, h.nodes_iff,
      State.exists_mem hp]
    exact and_iff_right rfl
  nodup := h.nodup _
  sorted := fun hstrict => h.sorted hstrict _
  full := h.full _

/-- Putting a sound entry back keeps every message in its place. -/
theorem PlaceInv.put (hp : s.mem p = some m) (hok : EntryOk strict s.key p e)
    (hcore : e.m.msg.core = m.msg.core) (hhash : e.m.qstate.msgidHash = m.qstate.msgidHash)
    (hothers : ∀ loc a, a ≠ p → (a ∈ e.h.nodes loc ↔ a ∈ s.nodes m.msg.qname loc)) :
    PlaceInv strict (s.put p e) := by
  have hqname : e.m.msg.qname = m.msg.qname := Msg.qname_of_core hcore
  have hmsgid : e.m.msg.msgid = m.msg.msgid := Msg.msgid_of_core hcore
  have hself (loc : Loc) : (s.put p e).nodes m.msg.qname loc = e.h.nodes loc := by
    rw [State.nodes, ← hqname, State.queue_put_self]
  have hother {qname : String} (hq : qname ≠ m.msg.qname) (loc : Loc) :
      (s.put p e).nodes qname loc = s.nodes qname loc := by
    rw [← hqname] at hq
    rw [State.nodes, State.queue_put_of_ne hq, State.nodes]
  have hkey : (s.put p e).key = s.key := by
    ext loc a
    by_cases ha : a = p
    · rw [ha, State.key, State.get_put_self, State.key, State.get_of_mem hp, ← Loc.key_core, hcore,
        Loc.key_core]
    · rw [State.key, State.get_put_of_ne ha, State.key]
  constructor
  · intro qname loc a
    by_cases ha : a = p
    · subst ha
      rw [State.exists_mem State.mem_put_self, hqname]
      by_cases hq : qname = m.msg.qname
      · subst hq
        rw [hself, hok.place]
        exact (and_iff_right rfl).symm
      rw [hother hq, h.nodes_iff, State.exists_mem hp]
      -- the message is in its own queue, before and after
      exact iff_of_false (fun hin => hq hin.1.symm) (fun hin => hq hin.1.symm)
    · rw [State.mem_put_of_ne ha, ← h.nodes_iff]
      by_cases hq : qname = m.msg.qname
      · rw [hq, hself]
        exact hothers loc a ha
      · rw [hother hq]
  · intro qname loc
    by_cases hq : qname = m.msg.qname
    · rw [hq, hself]
      exact hok.nodup loc
    · rw [hother hq]
      exact h.nodup qname loc
  · intro hstrict qname loc hinfl
    rw [hkey]
    by_cases hq : qname = m.msg.qname
    · rw [hq, hself]
      exact hok.sorted hstrict loc hinfl
    · rw [hother hq]
      exact h.sorted hstrict qname loc hinfl
  · intro qname
    by_cases hq : qname = e.m.msg.qname
    · rw [hq, State.queue_put_self]
      exact hok.full
    · rw [State.queue_put_of_ne hq]
      exact h.full qname
  · intro msgid a
    show s.msgidHash msgid = some a ↔ _
    rw [h.hash_iff]
    by_cases ha : a = p
    · rw [ha, State.exists_mem hp, State.exists_mem State.mem_put_self, hmsgid, hhash]
    · rw [State.mem_put_of_ne ha]

/-- A place is a list of a queue with the messages whose flags say so. It stays as it is while the
lists, what the messages say of it and their keys do. -/
theorem PlaceInv.congr
    (hqueue : ∀ qname, (∀ loc, (s'.queue qname).nodes loc = (s.queue qname).nodes loc) ∧
      (s'.queue qname).corhash = (s.queue qname).corhash)
    (hin : ∀ qname loc a, (∃ m, s'.mem a = some m ∧ m.msg.qname = qname ∧ m.In loc) ↔
      ∃ m, s.mem a = some m ∧ m.msg.qname = qname ∧ m.In loc)
    (hkey : ∀ qname loc, ∀ a ∈ s.nodes qname loc, s'.key loc a = s.key loc a)
    (hhash : ∀ msgid a, s'.msgidHash msgid = some a ↔
      ∃ m, s'.mem a = some m ∧ m.msg.msgid = msgid ∧ m.qstate.msgidHash = true) :
    PlaceInv strict s' := by
  have hnodes (qname : String) (loc : Loc) : s'.nodes qname loc = s.nodes qname loc :=
    (hqueue qname).1 loc
  refine ⟨?_, ?_, ?_, ?_, hhash⟩
  · intro qname loc a
    rw [hnodes, hin]
    exact h.nodes_iff qname loc a
  · intro qname loc
    rw [hnodes]
    exact h.nodup qname loc
  · intro hstrict qname loc hinfl
    rw [hnodes]
    exact (h.sorted hstrict qname loc hinfl).congr (hkey qname loc)
  · intro qname c
    rw [(hqueue qname).2]
    exact h.full qname c

theorem PlaceInv.setQ {q : Qhash} {qname : String}
    (hnodes : ∀ loc, q.nodes loc = (s.queue qname).nodes loc) (hcor : q.corhash = (s.queue qname).corhash) :
    PlaceInv strict (s.setQ qname q) := by
  refine h.congr ?_ (fun _ _ _ => Iff.rfl) (fun _ _ _ _ => rfl) h.hash_iff
  intro qname'
  by_cases hq : qname' = qname
  · rw [hq, State.queue_setQ_self]
    exact ⟨hnodes, hcor⟩
  · rw [State.queue_setQ_of_ne hq]
    exact ⟨fun _ => rfl, rfl⟩

theorem PlaceInv.openQ (qname : String) : PlaceInv strict (s.openQ qname) :=
  h.setQ (fun _ => rfl) rfl

theorem PlaceInv.countEnq (qname : String) : PlaceInv strict (s.countEnq qname) :=
  h.setQ (fun loc => by cases loc <;> rfl) rfl

theorem PlaceInv.countDeq (qname : String) : PlaceInv strict (s.countDeq qname) :=
  h.setQ (fun loc => by cases loc <;> rfl) rfl

omit h in
theorem State.queue_congr (hqhash : s'.qhash = s.qhash) (qname : String) :
    (∀ loc, (s'.queue qname).nodes loc = (s.queue qname).nodes loc) ∧
      (s'.queue qname).corhash = (s.queue qname).corhash := by
  rw [State.queue, hqhash]
  exact ⟨fun _ => rfl, rfl⟩

/-- A message that is in no place can be put in, taken out or exchanged. -/
theorem PlaceInv.swap {o : Option MemMsg} (hmem : s'.mem = update s.mem p o)
    (hqhash : s'.qhash = s.qhash) (hhash : s'.msgidHash = s.msgidHash)
    (hold : ∀ m, s.mem p = some m → (∀ loc, ¬ m.In loc) ∧ m.qstate.msgidHash = false)
    (hnew : ∀ m, o = some m → (∀ loc, ¬ m.In loc) ∧ m.qstate.msgidHash = false) : PlaceInv strict s' := by
  have hself : s'.mem p = o := by rw [hmem, update_self]
  have hne {a : ℕ} (ha : a ≠ p) : s'.mem a = s.mem a := by rw [hmem, update_of_ne ha]
  have hnot (qname : String) (loc : Loc) : p ∉ s.nodes qname loc := by
    rw [h.nodes_iff]
    rintro ⟨m, hm, _, hin⟩
    exact (hold m hm).1 loc hin
  refine h.congr (State.queue_congr hqhash) ?_ ?_ ?_
  · intro qname loc a
    by_cases ha : a = p
    · subst ha
      refine iff_of_false ?_ ((h.nodes_iff qname loc a).not.mp (hnot qname loc))
      rintro ⟨m, hm, _, hin⟩
      rw [hself] at hm
      exact (hnew m hm).1 loc hin
    · rw [hne ha]
  · intro qname loc a ha
    have hap : a ≠ p := by
      rintro rfl
      exact hnot qname loc ha
    rw [State.key, State.get, hne hap, State.key, State.get]
  · intro msgid a
    rw [hhash, h.hash_iff]
    by_cases ha : a = p
    · subst ha
      refine iff_of_false ?_ ?_
      · rintro ⟨m, hm, _, hbit⟩
        rw [(hold m hm).2] at hbit
        cases hbit
      · rintro ⟨m, hm, _, hbit⟩
        rw [hself] at hm
        rw [(hnew m hm).2] at hbit
        cases hbit
    · rw [hne ha]

end

theorem not_in_noneOf (msg : Msg) (hash : Bool) (loc : Loc) : ¬ (noneOf msg hash).In loc := by
  cases loc with
  | cor => exact fun hin => by cases hin
  | _ => exact Bool.noConfusion

section

variable (h : PlaceInv strict s)
include h

theorem PlaceInv.alloc (hp : s.mem p = none) (msg : Msg) :
    PlaceInv strict (s.alloc p msg) := by
  refine h.swap rfl rfl rfl ?_ ?_
  · intro m hm
    rw [hp] at hm
    cases hm
  · intro m hm
    cases hm
    exact ⟨not_in_noneOf msg false, rfl⟩

theorem PlaceInv.free {msg : Msg} (hp : s.mem p = some (noneOf msg false)) :
    PlaceInv strict (s.free p) := by
  refine h.swap rfl rfl rfl ?_ ?_
  · intro m hm
    rw [hp] at hm
    cases hm
    exact ⟨not_in_noneOf msg false, rfl⟩
  · intro m hm
    cases hm

theorem PlaceInv.rehash {b : Bool} (hp : s.mem p = some m)
    (hmem : s'.mem = update s.mem p (some {m with qstate := {m.qstate with msgidHash := b}}))
    (hqhash : s'.qhash = s.qhash)
    (hhash : ∀ msgid a, s'.msgidHash msgid = some a ↔
      ∃ m, s'.mem a = some m ∧ m.msg.msgid = msgid ∧ m.qstate.msgidHash = true) :
    PlaceInv strict s' := by
  have hself : s'.mem p = some {m with qstate := {m.qstate with msgidHash := b}} := by
    rw [hmem, update_self]
  have hne {a : ℕ} (ha : a ≠ p) : s'.mem a = s.mem a := by rw [hmem, update_of_ne ha]
  have hin (loc : Loc) : {m with qstate := {m.qstate with msgidHash := b}}.In loc ↔ m.In loc := by
    cases loc <;> rfl
  refine h.congr (State.queue_congr hqhash) ?_ ?_ hhash
  · intro qname loc a
    by_cases ha : a = p
    · rw [ha, State.exists_mem hself, State.exists_mem hp, hin]
    · rw [hne ha]
  · intro _ loc a _
    by_cases ha : a = p
    · rw [ha, State.key, State.get_of_mem hself, State.key, State.get_of_mem hp]
    · rw [State.key, State.get, hne ha, State.key, State.get]

theorem PlaceInv.hashAdd (hp : s.mem p = some m) (hbit : m.qstate.msgidHash = false)
    (hfree : s.msgidHash m.msg.msgid = none) : PlaceInv strict (s.hashAdd p) := by
  have hget : s.get p = m := State.get_of_mem hp
  refine h.rehash (b := true) hp (by rw [State.hashAdd, hget]) rfl ?_
  intro msgid a
  have hhash : (s.hashAdd p).msgidHash = update s.msgidHash m.msg.msgid (some p) := by
    rw [State.hashAdd, hget]
  have hmem : (s.hashAdd p).mem =
      update s.mem p (some {m with qstate := {m.qstate with msgidHash := true}}) := by
    rw [State.hashAdd, hget]
  by_cases ha : a = p
  · subst ha
    rw [State.exists_mem (by rw [hmem, update_self]), hhash]
    by_cases hid : msgid = m.msg.msgid
    · rw [hid, update_self]
      exact iff_of_true rfl ⟨rfl, rfl⟩
    rw [update_of_ne hid, h.hash_iff, State.exists_mem hp, hbit]
    -- the flag was not set before
    exact iff_of_false (fun hold => by cases hold.2) (fun hnew => hid hnew.1.symm)
  · rw [hhash, hmem, update_of_ne ha, ← h.hash_iff]
    by_cases hid : msgid = m.msg.msgid
    · rw [hid, update_self, hfree]
      exact iff_of_false (fun heq => ha (Option.some.inj heq).symm) (fun heq => by cases heq)
    · rw [update_of_ne hid]

theorem PlaceInv.hashDel (hp : s.mem p = some m) (hbit : m.qstate.msgidHash = true) :
    PlaceInv strict (s.hashDel p) := by
  have hget : s.get p = m := State.get_of_mem hp
  have hself : s.msgidHash m.msg.msgid = some p := (h.hash_iff _ _).mpr ⟨m, hp, rfl, hbit⟩
  refine h.rehash (b := false) hp (by rw [State.hashDel, hget]) rfl ?_
  intro msgid a
  have hhash : (s.hashDel p).msgidHash = update s.msgidHash m.msg.msgid none := by
    rw [State.hashDel, hget]
  have hmem : (s.hashDel p).mem =
      update s.mem p (some {m with qstate := {m.qstate with msgidHash := false}}) := by
    rw [State.hashDel, hget]
  by_cases ha : a = p
  · subst ha
    rw [State.exists_mem (by rw [hmem, update_self]), hhash]
    refine iff_of_false ?_ (fun hnew => by cases hnew.2)
    by_cases hid : msgid = m.msg.msgid
    · rw [hid, update_self]
      exact fun hfind => by cases hfind
    · rw [update_of_ne hid, h.hash_iff, State.exists_mem hp]
      exact fun hfind => hid hfind.1.symm
  · rw [hhash, hmem, update_of_ne ha, ← h.hash_iff]
    by_cases hid : msgid = m.msg.msgid
    · rw [hid, update_self, hself]
      exact iff_of_false (fun heq => by cases heq) (fun heq => ha (Option.some.inj heq).symm)
    · rw [update_of_ne hid]

end

/-! What holds of every message. With `strict` the keys are close and the clock, now at `t`, does not go
back. -/

theorem State.follows_cur {a b : ℕ} {ma mb : Msg} (h : ma.Close mb) (loc : Loc)
    (hloc : loc ≠ .fut) (ha : (s.get a).msg = ma) (hb : (s.get b).msg = mb) :
    Tree.Follows (s.cmp loc) (s.key loc) a b := by
  have hcmp : s.cmp loc a b = ma.cmpCur mb := by
    cases loc with
    | fut => exact absurd rfl hloc
    | _ => rw [State.cmp, ha, hb]; exact Loc.noConfusion
  have hkey (c : ℕ) : s.key loc c = toLex (0, (s.get c).msg.key) := by
    cases loc with
    | fut => exact absurd rfl hloc
    | _ => rfl
  rw [Tree.Follows, hcmp, hkey, hkey, ha, hb, lex_lt]
  obtain ⟨hlt, heq⟩ := h.cmpCur
  exact ⟨by simp [hlt], by simp [heq]⟩

theorem State.follows_fut {a b : ℕ} {ma mb : Msg} (h : ma.Close mb) (hta : ma.timeAbs = true)
    (htb : mb.timeAbs = true) (ha : (s.get a).msg = ma) (hb : (s.get b).msg = mb) :
    Tree.Follows (s.cmp .fut) (s.key .fut) a b := by
  rw [Tree.Follows, State.cmp, State.key, State.key, ha, hb]
  exact h.cmpFut hta htb

theorem PlaceInv.compares (h : PlaceInv strict s) (hp : s.mem p = some m)
    (hdistinct : ∀ a m', a ≠ p → s.mem a = some m' → m'.msg.qname = m.msg.qname →
      m.msg.Apart m'.msg ∧ (strict → m.msg.Close m'.msg))
    (hfut : ∀ a m', a ≠ p → s.mem a = some m' → m'.In .fut → m'.msg.timeAbs = true)
    (hh : e.h = s.queue m.msg.qname) (htime : e.m.msg.timeAbs = m.msg.timeAbs) :
    Compares strict s.cmp s.key p e := by
  intro loc a ha hmem hinfl htimeAbs
  rw [hh] at hmem
  obtain ⟨m', hm', hqname, hin⟩ := (h.nodes_iff _ loc a).mp hmem
  obtain ⟨hapart, hclose⟩ := hdistinct a m' ha hm' hqname
  have hgetp : (s.get p).msg = m.msg := by rw [State.get_of_mem hp]
  have hgeta : (s.get a).msg = m'.msg := by rw [State.get_of_mem hm']
  by_cases hloc : loc = .fut
  · subst hloc
    have hta : m.msg.timeAbs = true := htime ▸ htimeAbs rfl
    have htb : m'.msg.timeAbs = true := hfut a m' ha hm' hin
    refine ⟨?_, fun hstrict => State.follows_fut (hclose hstrict) hta htb hgetp hgeta⟩
    rw [State.cmp, hgetp, hgeta]
    exact (hapart.2.2 hta htb).1
  · refine ⟨?_, fun hstrict => State.follows_cur (hclose hstrict) loc hloc hgetp hgeta⟩
    have hcmp : s.cmp loc p a = (s.get p).msg.cmpCur (s.get a).msg := by
      cases loc with
      | fut => exact absurd rfl hloc
      | _ => rfl
    rw [hcmp, hgetp, hgeta]
    exact hapart.1

def Placed (strict : Prop) (t : Int) (m : MemMsg) : Prop :=
  m.msg.lockthreadid ≠ 0 ∧ m = inflOf m.msg true ∨
  m.msg.lockthreadid = 0 ∧ m.msg.timeAbs = true ∧ m = futOf m.msg true ∨
  m.msg.lockthreadid = 0 ∧ (strict → m.msg.waits t = false) ∧ m = curOf m.msg true

theorem Placed.msgidHash (h : Placed strict t m) : m.qstate.msgidHash = true := by
  rcases h with ⟨_, h⟩ | ⟨_, _, h⟩ | ⟨_, _, h⟩ <;> rw [h] <;> rfl

theorem Placed.cor (h : Placed strict t m) : m.qstate.cor = m.corhash.isSome := by
  rcases h with ⟨_, h⟩ | ⟨_, _, h⟩ | ⟨_, _, h⟩
  · rw [h]
    rfl
  · rw [h]
    rfl
  · rw [h, curOf]
    cases m.msg.hasCorrid <;> rfl

theorem Placed.timeAbs (h : Placed strict t m) (hin : m.In .fut) : m.msg.timeAbs = true := by
  rcases h with ⟨_, h⟩ | ⟨_, htime, _⟩ | ⟨_, _, h⟩
  · rw [h] at hin
    cases hin
  · exact htime
  · rw [h] at hin
    cases hin

theorem Msg.waits_mono {msg : Msg} (h : msg.waits t = false) (hle : t ≤ now) : msg.waits now = false := by
  rw [Msg.waits, Bool.and_eq_false_iff, decide_eq_false_iff_not] at h ⊢
  rcases h with h | h
  · exact .inl h
  · right
    omega

theorem Placed.mono (h : Placed strict t m) (hle : strict → t ≤ now) : Placed strict now m := by
  rcases h with h | h | ⟨hlock, hwaits, hm⟩
  · exact .inl h
  · exact .inr (.inl h)
  · exact .inr (.inr ⟨hlock, fun hstrict => Msg.waits_mono (hwaits hstrict) (hle hstrict), hm⟩)

structure Inv (strict : Prop) (t : Int) (s : State) : Prop where
  places : PlaceInv strict s
  distinct : ∀ p a m m', s.mem p = some m → s.mem a = some m' → a ≠ p → m'.msg.qname = m.msg.qname →
    m.msg.Apart m'.msg ∧ (strict → m.msg.Close m'.msg)
  placed : ∀ p m, s.mem p = some m → Placed strict t m

theorem Inv.start : Inv strict t .start where
  places := .start
  distinct := by
    intro p a m m' hm
    cases hm
  placed := by
    intro p m hm
    cases hm

theorem Inv.mono (h : Inv strict t s) (hle : strict → t ≤ now) : Inv strict now s :=
  {h with placed := fun p m hm => (h.placed p m hm).mono hle}

theorem Inv.compares (h : Inv strict t s) (hp : s.mem p = some m) (hh : e.h = s.queue m.msg.qname)
    (htime : e.m.msg.timeAbs = m.msg.timeAbs) : Compares strict s.cmp s.key p e :=
  h.places.compares hp (fun a m' ha hm' => h.distinct p a m m' hp hm' ha)
    (fun a m' _ hm' => (h.placed a m' hm').timeAbs) hh htime

theorem Msg.apart_core (a b : Msg) : a.core.Apart b.core ↔ a.Apart b := Iff.rfl

theorem Msg.close_core (a b : Msg) : a.core.Close b.core ↔ a.Close b := Iff.rfl

theorem Inv.put (h : Inv strict t s) (hp : s.mem p = some m) (hok : EntryOk strict s.key p e)
    (hcore : e.m.msg.core = m.msg.core)
    (hothers : ∀ loc a, a ≠ p → (a ∈ e.h.nodes loc ↔ a ∈ s.nodes m.msg.qname loc))
    (hplaced : Placed strict t e.m) : Inv strict t (s.put p e) := by
  have hhash : e.m.qstate.msgidHash = m.qstate.msgidHash :=
    hplaced.msgidHash.trans (h.placed p m hp).msgidHash.symm
  -- what a message is compared by does not change
  have hold (a : ℕ) (ma : MemMsg) (ha : (s.put p e).mem a = some ma) :
      ∃ mb, s.mem a = some mb ∧ mb.msg.core = ma.msg.core := by
    by_cases hap : a = p
    · rw [hap, State.mem_put_self] at ha
      cases ha
      exact ⟨m, hap ▸ hp, hcore.symm⟩
    · rw [State.mem_put_of_ne hap] at ha
      exact ⟨ma, ha, rfl⟩
  refine ⟨h.places.put hp hok hcore hhash hothers, ?_, ?_⟩
  · intro b a mb ma hb ha hab hqname
    obtain ⟨ma', ha', hcorea⟩ := hold a ma ha
    obtain ⟨mb', hb', hcoreb⟩ := hold b mb hb
    rw [← Msg.apart_core, ← Msg.close_core, ← hcorea, ← hcoreb]
    apply h.distinct b a mb' ma' hb' ha' hab
    rw [Msg.qname_of_core hcorea, Msg.qname_of_core hcoreb, hqname]
  · intro a ma ha
    by_cases hap : a = p
    · rw [hap, State.mem_put_self] at ha
      cases ha
      exact hplaced
    · rw [State.mem_put_of_ne hap] at ha
      exact h.placed a ma ha

theorem Placed.unlocked (h : Placed strict t m) (hlock : m.msg.lockthreadid = 0) :
    m = futOf m.msg true ∨ m = curOf m.msg true := by
  rcases h with ⟨hne, _⟩ | ⟨_, _, h⟩ | ⟨_, _, h⟩
  · exact absurd hlock hne
  · exact .inl h
  · exact .inr h

theorem Placed.locked (h : Placed strict t m) (hlock : m.msg.lockthreadid ≠ 0) : m = inflOf m.msg true := by
  rcases h with ⟨_, h⟩ | ⟨h0, _, _⟩ | ⟨h0, _, _⟩
  · exact h
  · exact absurd h0 hlock
  · exact absurd h0 hlock

theorem Placed.infl_iff (h : Placed strict t m) : m.In .infl ↔ m.msg.lockthreadid ≠ 0 := by
  rcases h with ⟨hlock, h⟩ | ⟨hlock, _, h⟩ | ⟨hlock, _, h⟩ <;> rw [h]
  · exact iff_of_true rfl hlock
  · exact iff_of_false Bool.noConfusion (not_not_intro hlock)
  · exact iff_of_false Bool.noConfusion (not_not_intro hlock)

theorem Inv.mov2infl {tid : ℕ} (h : Inv strict t s) (hp : s.mem p = some m) (hlock : m.msg.lockthreadid = 0)
    (htid : tid ≠ 0) :
    ∃ e, Entry.mov2infl p ⟨m.lock tid, s.queue m.msg.qname⟩ = .ok e ∧
      e.m = inflOf (m.lock tid).msg true ∧ Inv strict t (s.put p e) := by
  have hok : EntryOk strict s.key p ⟨m.lock tid, s.queue m.msg.qname⟩ := (h.places.entryOk hp).lock
  have hm : m.lock tid = futOf (m.lock tid).msg true ∨ m.lock tid = curOf (m.lock tid).msg true := by
    rcases (h.placed p m hp).unlocked hlock with hm | hm
    · exact .inl (by rw [hm]; rfl)
    · exact .inr (by rw [hm]; rfl)
  obtain ⟨e, hmov, hem, hok', hb⟩ := hok.mov2infl hm
  refine ⟨e, hmov, hem, h.put hp hok' ?_ hb.others ?_⟩
  · rw [hem]
    rfl
  · left
    rw [hem]
    exact ⟨htid, rfl⟩

theorem Inv.mov2cur (msg : Msg) {alloc : Bool} (h : Inv strict t s) (hp : s.mem p = some m)
    (hlock : m.msg.lockthreadid ≠ 0) (hcore : msg.core = m.msg.core) (hmsg : msg.lockthreadid = 0)
    (halloc : alloc = true) (hle : strict → t ≤ now) :
    ∃ e, Entry.mov2cur s.cmp p alloc now ⟨⟨msg, m.corhash, m.qstate⟩, s.queue m.msg.qname⟩ = .ok (e, true) ∧
      (msg.waits now = true ∧ e.m = futOf msg true ∨ msg.waits now = false ∧ e.m = curOf msg true) ∧
      Inv strict now (s.put p e) := by
  have hinfl : m = inflOf m.msg true := (h.placed p m hp).locked hlock
  have hplace := h.places.entryOk hp
  have hok : EntryOk strict s.key p ⟨⟨msg, m.corhash, m.qstate⟩, s.queue m.msg.qname⟩ := by
    refine ⟨fun loc => (hplace.place loc).trans ?_, hplace.nodup, hplace.sorted, hplace.full⟩
    cases loc <;> rfl
  have hm : (⟨msg, m.corhash, m.qstate⟩ : MemMsg) = inflOf msg true := by
    rw [hinfl]
    rfl
  have htime : msg.timeAbs = m.msg.timeAbs := (congrArg Msg.timeAbs hcore : msg.core.timeAbs = _)
  obtain ⟨e, hmov, hok', hb, hem⟩ := hok.mov2cur (h.compares hp rfl htime) hm halloc
  refine ⟨e, hmov, hem, (h.mono hle).put hp hok' ?_ hb.others ?_⟩
  · rw [hb.msg]
    exact hcore
  right
  rcases hem with ⟨hwaits, hem⟩ | ⟨hwaits, hem⟩
  · left
    rw [hem]
    exact ⟨hmsg, (Bool.and_eq_true_iff.mp hwaits).1, rfl⟩
  · right
    rw [hem]
    exact ⟨hmsg, fun _ => hwaits, rfl⟩

theorem State.entry_of_mem (hp : s.mem p = some m) : s.entry p = ⟨m, s.queue m.msg.qname⟩ := by
  rw [State.entry, State.get_of_mem hp]

theorem PlaceInv.inflDelmsg (h : PlaceInv strict s) (hp : s.mem p = some m)
    (hcor : m.qstate.cor = m.corhash.isSome) :
    ∃ s', s.inflDelmsg p = .ok s' ∧ PlaceInv strict s' ∧
      s'.mem = update s.mem p (some (noneOf m.msg false)) := by
  obtain ⟨e, hdel, hem, hok, hb⟩ := (h.entryOk hp).delmsg hcor
  have hput : PlaceInv strict (s.put p e) :=
    h.put hp hok (by rw [hem]; rfl) (by rw [hem]; rfl) hb.others
  have hcase : s.inflDelmsg p =
      .ok (if m.qstate.msgidHash then (s.put p e).hashDel p else s.put p e) := by
    rw [State.inflDelmsg, State.entry_of_mem hp, hdel]
    show Except.ok (if e.m.qstate.msgidHash then _ else _) = _
    rw [hem]
    rfl
  rw [hcase]
  refine ⟨_, rfl, ?_⟩
  cases hhash : m.qstate.msgidHash with
  | false =>
    refine ⟨hput, ?_⟩
    rw [hhash] at hem
    rw [← hem]
    rfl
  | true =>
    rw [hhash] at hem
    refine ⟨hput.hashDel State.mem_put_self (by rw [hem]; rfl), ?_⟩
    show update (update s.mem p (some e.m)) p _ = _
    rw [update_idem, State.get_put_self, hem]
    rfl

theorem Inv.restrict (h : Inv strict t s) (hplaces : PlaceInv strict s')
    (hsub : ∀ a m, s'.mem a = some m → s.mem a = some m) : Inv strict t s' :=
  ⟨hplaces, fun b a mb ma hb ha => h.distinct b a mb ma (hsub b mb hb) (hsub a ma ha),
    fun a m hm => h.placed a m (hsub a m hm)⟩

theorem update_none_sub {f : ℕ → Option MemMsg} {o : Option MemMsg} {a : ℕ} {m' : MemMsg}
    (h : update (update f p o) p none a = some m') : f a = some m' := by
  rw [update_idem] at h
  by_cases ha : a = p
  · rw [ha, update_self] at h
    cases h
  · rw [update_of_ne ha] at h
    exact h

theorem Inv.remove (h : Inv strict t s) (hp : s.mem p = some m) :
    ∃ s', tmqRemoveMsg s p = .ok s' ∧ Inv strict t s' := by
  obtain ⟨s1, hs1, hplaces1, hmem1⟩ : ∃ s1,
      (if s.qhash (s.get p).msg.qname = none then s else s.countDeq (s.get p).msg.qname) = s1 ∧
      PlaceInv strict s1 ∧ s1.mem = s.mem := by
    split_ifs
    · exact ⟨s, rfl, h.places, rfl⟩
    · exact ⟨_, rfl, h.places.countDeq _, rfl⟩
  obtain ⟨s2, hdel, hplaces2, hmem2⟩ :=
    hplaces1.inflDelmsg (by rw [hmem1]; exact hp) (h.placed p m hp).cor
  have hself : s2.mem p = some (noneOf m.msg false) := by rw [hmem2, update_self]
  refine ⟨s2.free p, ?_, h.restrict (hplaces2.free hself) ?_⟩
  · show (do let s ← State.inflDelmsg (if _ then _ else _) p; return s.free p) = _
    rw [hs1, hdel]
    rfl
  · intro a ma ha
    replace ha : update s2.mem p none a = some ma := ha
    rw [hmem2, hmem1] at ha
    exact update_none_sub ha

end Endurox.Tmq
