import Endurox.TmqDequeue

/-! The tries of a message of an automatic queue: the forwarder (`forward.c`) schedules the next one, the
commit of its update (`UPD_MSG`) changes the message in memory and its file, and a restart reads the file. -/

namespace Endurox.Tmq
open Base

structure RetryConf where
  tries : CInt
  waitinit : CInt
  waitretry : CInt
  waitretrymax : CInt

def retryInc (conf : RetryConf) (trycounter : Int) : Int :=
  let retryInc := wrap32 (conf.waitretry.val*trycounter)
  if retryInc > conf.waitretrymax.val then conf.waitretrymax.val else retryInc

def reschedule (conf : RetryConf) (now : Int) (m : Msg) : Msg :=
  {m with
    timeAbs := true
    deqTime := now+(if m.trycounter = 0 then conf.waitinit.val else retryInc conf m.trycounter)}

def Msg.upd (m : Msg) : Upd := ⟨m.status, m.trycounter, m.trytstamp, m.trytstampUsec⟩

structure Held where
  mem : MemMsg
  file : MemMsg

inductive Try
  | forward (tid : ℕ)
  | fail (trytstamp trytstampUsec : Int)
  | restart

def Held.start (m : Msg) : Held :=
  let m : MemMsg := ⟨{m with lockthreadid := 0, trycounter := 0}, none, default⟩
  ⟨m, m⟩

/-- What can happen to the message at the time `now`: the forwarder is given it; its service call fails,
and the update is committed unless that was the last try; the server is started again. -/
def Held.step (conf : RetryConf) (s : Held) (now : Int) : Try → Option Held
  | .forward tid =>
    if s.mem.msg.lockthreadid = 0 ∧ s.mem.msg.waits now = false then some {s with mem := s.mem.lock tid}
    else none
  | .fail trytstamp trytstampUsec =>
    let m := {s.mem.msg with
      trycounter := s.mem.msg.trycounter+1, trytstamp := trytstamp, trytstampUsec := trytstampUsec}
    if s.mem.msg.lockthreadid = 0 ∨ conf.tries.val ≤ m.trycounter then none
    else
      let m := reschedule conf now m
      some ⟨(m.upd.apply {s.mem with msg := m}).lock 0, m.upd.apply s.file⟩
  | .restart => some {s with mem := s.file}

def Held.run (conf : RetryConf) : Held → List (Int × Try) → Option Held
  | s, [] => some s
  | s, (now, e) :: es => (s.step conf now e).bind (fun s' => s'.run conf es)

theorem Inv.forward_isSome {s s' : State} {t now later : Int} {conf : String → Option Qconf} {qconf : Qconf}
    {qname : String} {tid p : ℕ} {written : Bool} {alloc : ℕ → Bool} (h : Inv True t s)
    (hconf : conf qname = some qconf) (hnow : t ≤ now) (hlater : now ≤ later) (htid : tid ≠ 0)
    (halloc : ∀ a, alloc a = true)
    (hdeq : tmqMsgDequeue conf s qname false true none tid written alloc now later =
      .ok (s', some p, .succeed)) (rconf : RetryConf) (file : MemMsg) :
    ((⟨s.get p, file⟩ : Held).step rconf now (.forward tid)).isSome := by
  rcases h.givesFirst hconf hnow hlater htid halloc false true written with ⟨⟨s1, hnone⟩, _⟩ |
    ⟨q, ⟨m, hm, _, hlock, hwaits⟩, _, s1, _, _, hgive⟩
  · rw [hnone] at hdeq
    cases hdeq
  · obtain ⟨_, hs2, _⟩ := hgive
    rw [hs2] at hdeq
    cases hdeq
    rw [Held.step, State.get_of_mem hm, if_pos ⟨hlock, hwaits⟩]
    rfl

def Try.isFail : Try → Bool
  | .fail _ _ => true
  | _ => false

def fails (es : List (Int × Try)) : ℕ := es.countP (fun e => e.2.isFail)

/-- After `k` failed tries of the message `m`: the file has the counter, and the time as it was. -/
structure Held.Tried (m : Msg) (k : ℕ) (s : Held) : Prop where
  timeAbs : s.file.msg.timeAbs = m.timeAbs
  deqTime : s.file.msg.deqTime = m.deqTime
  unlocked : s.file.msg.lockthreadid = 0
  counted : s.file.msg.trycounter = k
  same : s.mem.msg.trycounter = k

section

variable {conf : RetryConf} {m : Msg} {k : ℕ} {s s' : Held} {now : Int}

theorem Held.fail_eq (h : s.Tried m k) (hlock : s.mem.msg.lockthreadid ≠ 0)
    (hk : ((k+1 : ℕ) : Int) < conf.tries.val) (now trytstamp trytstampUsec : Int) :
    ∃ s', s.step conf now (.fail trytstamp trytstampUsec) = some s' ∧ s'.Tried m (k+1) ∧
      s'.mem.msg.lockthreadid = 0 ∧ s'.mem.msg.timeAbs = true ∧
      s'.mem.msg.deqTime = now+retryInc conf (k+1 : ℕ) := by
  have hcount : s.mem.msg.trycounter+1 = ((k+1 : ℕ) : Int) := by
    rw [h.same]
    rfl
  refine ⟨_, if_neg ?_, ⟨h.timeAbs, h.deqTime, h.unlocked, hcount, hcount⟩, rfl, rfl, ?_⟩
  · rintro (hzero | hlast)
    · exact hlock hzero
    · change conf.tries.val ≤ s.mem.msg.trycounter+1 at hlast
      omega
  · show now+(if s.mem.msg.trycounter+1 = 0 then _ else retryInc conf (s.mem.msg.trycounter+1)) = _
    rw [hcount, if_neg (by omega)]

theorem Held.Tried.step {e : Try} (h : s.Tried m k) (hs : s.step conf now e = some s') :
    s'.Tried m (k+if e.isFail then 1 else 0) := by
  cases e with
  | forward =>
    rw [Held.step] at hs
    split at hs
    · cases hs
      exact {h with}
    · cases hs
  | fail trytstamp trytstampUsec =>
    have hopen : ¬(s.mem.msg.lockthreadid = 0 ∨ conf.tries.val ≤ s.mem.msg.trycounter+1) := by
      intro hc
      rw [Held.step, if_pos hc] at hs
      cases hs
    rw [h.same] at hopen
    obtain ⟨_, hs1, htried, _⟩ := Held.fail_eq h (fun hz => hopen (.inl hz))
      (not_le.mp fun hle => hopen (.inr hle)) now trytstamp trytstampUsec
    rw [hs1] at hs
    cases hs
    exact htried
  | restart =>
    cases hs
    exact {h with same := h.counted}

theorem Held.Tried.run {es : List (Int × Try)} (h : s.Tried m k) (hrun : s.run conf es = some s') :
    s'.Tried m (k+fails es) := by
  induction es generalizing s k with
  | nil =>
    cases hrun
    exact h
  | cons e es ih =>
    obtain ⟨_, hs1, hrun⟩ := Option.bind_eq_some_iff.mp hrun
    have htried := ih (h.step hs1) hrun
    rw [fails, List.countP_cons, ← fails, Nat.add_comm (fails es), ← Nat.add_assoc]
    exact htried

theorem Msg.due_iff (m : Msg) (b : Int) :
    (∀ now, m.waits now = false → b ≤ now) ↔ m.timeAbs = true ∧ b ≤ m.deqTime := by
  constructor
  · intro h
    cases htime : m.timeAbs with
    | false =>
      have hany := h (b-1) (by rw [Msg.waits, htime, Bool.false_and])
      omega
    | true =>
      refine ⟨rfl, h m.deqTime ?_⟩
      rw [Msg.waits, htime]
      exact decide_eq_false (lt_irrefl _)
  · rintro ⟨htime, _⟩ _ hwaits
    rw [Msg.waits, htime, Bool.true_and, decide_eq_false_iff_not] at hwaits
    omega

theorem Held.run_restarts (s : Held) (rs : List Int) (now : Int) (tid : ℕ) :
    s.run conf (rs.map (fun r => (r, .restart)) ++ [(now, .forward tid)]) =
      (if rs = [] then s else ⟨s.file, s.file⟩).step conf now (.forward tid) := by
  induction rs generalizing s with
  | nil => exact Option.bind_fun_some _
  | cons r rs ih =>
    have hstart : (⟨s.file, s.file⟩ : Held).run conf (rs.map (fun r => (r, .restart)) ++
        [(now, .forward tid)]) = (⟨s.file, s.file⟩ : Held).step conf now (.forward tid) := by
      rw [ih, ite_self]
    exact hstart

theorem Held.forward_ne_none {tid : ℕ} (h : s.mem.msg.lockthreadid = 0) :
    s.step conf now (.forward tid) ≠ none ↔ s.mem.msg.waits now = false := by
  rw [Held.step]
  split
  · rename_i hc
    exact iff_of_true (by nofun) hc.2
  · rename_i hc
    exact iff_of_false (fun hne => hne rfl) (fun hwaits => hc ⟨h, hwaits⟩)

end

def retryWait (conf : RetryConf) (k : ℕ) : Int := min (conf.waitretry.val*k) conf.waitretrymax.val

theorem retryWait_le_inc_iff {conf : RetryConf} (hretry : 0 ≤ conf.waitretry.val) (k : ℕ) :
    retryWait conf k ≤ retryInc conf k ↔
      conf.waitretry.val*k < 2147483648 ∨ conf.waitretrymax.val ≤ wrap32 (conf.waitretry.val*k) := by
  have hpos : 0 ≤ conf.waitretry.val*k := Int.mul_nonneg hretry (Int.natCast_nonneg k)
  have hmax := conf.waitretrymax.property.2
  have hwrap : conf.waitretry.val*k < 2147483648 → wrap32 (conf.waitretry.val*k) = conf.waitretry.val*k :=
    wrap32_of_mem (by omega)
  rw [retryWait, retryInc]
  generalize conf.waitretry.val*(k : Int) = x at hpos hwrap ⊢
  generalize wrap32 x = w at hwrap ⊢
  constructor
  · intro h
    by_contra hnot
    split at h <;> omega
  · intro h
    split <;> omega

/-- In a run in which the message has failed `k` times, is with the forwarder again and fails at the time
`t`, it is not given out too early: without a restart in between, unless the product overflows; with one,
only if the time it was enqueued with is late enough. -/
theorem retry_honoured_iff (conf : RetryConf) (m : Msg) (es : List (Int × Try)) (s : Held)
    (hretry : 0 ≤ conf.waitretry.val) (hrun : (Held.start m).run conf es = some s)
    (hlock : s.mem.msg.lockthreadid ≠ 0) (hk : ((fails es+1 : ℕ) : Int) < conf.tries.val)
    (t trytstamp trytstampUsec : Int) (restarts : List Int) :
    (∀ now tid, s.run conf ((t, .fail trytstamp trytstampUsec) ::
        (restarts.map (fun r => (r, .restart)) ++ [(now, .forward tid)])) ≠ none →
      t+retryWait conf (fails es+1) ≤ now) ↔
    if restarts = [] then
      conf.waitretry.val*(fails es+1 : ℕ) < 2147483648 ∨
        conf.waitretrymax.val ≤ wrap32 (conf.waitretry.val*(fails es+1 : ℕ))
    else m.timeAbs = true ∧ t+retryWait conf (fails es+1) ≤ m.deqTime := by
  have hstart : (Held.start m).Tried m 0 := ⟨rfl, rfl, rfl, rfl, rfl⟩
  have htried : s.Tried m (fails es) := by
    rw [← Nat.zero_add (fails es)]
    exact hstart.run hrun
  obtain ⟨s1, hs1, htried1, hfree, htime, hdeq⟩ := Held.fail_eq htried hlock hk t trytstamp trytstampUsec
  have hgiven (now : Int) (tid : ℕ) : s.run conf ((t, .fail trytstamp trytstampUsec) ::
      (restarts.map (fun r => (r, .restart)) ++ [(now, .forward tid)])) ≠ none ↔
        (if restarts = [] then s1 else ⟨s1.file, s1.file⟩).mem.msg.waits now = false := by
    rw [Held.run, hs1, Option.bind_some, Held.run_restarts]
    apply Held.forward_ne_none
    split
    · exact hfree
    · exact htried1.unlocked
  simp only [hgiven, forall_const, Msg.due_iff]
  split
  · rw [htime, hdeq, ← retryWait_le_inc_iff hretry]
    simp
  · rw [htried1.timeAbs, htried1.deqTime]

def minuteConf : RetryConf := ⟨.ofInt 5, .ofInt 0, .ofInt 10, .ofInt 60⟩

theorem retry_honoured_first :
    ∃ s, (Held.start default).run minuteConf [(100, .forward 7)] = some s ∧
      ∀ now tid, s.run minuteConf [(100, .fail 0 0), (now, .forward tid)] ≠ none → 100+10 ≤ now :=
  ⟨_, rfl, (retry_honoured_iff minuteConf default [(100, .forward 7)] _ (by decide) rfl (by decide)
    (by decide) 100 0 0 []).mpr (.inl (by decide))⟩

/-- The first try fails at the time 100, and a restart at 101 gives the message out at once. And with a
wait of 2^30 seconds the second failed try is followed by the third without any. -/
theorem retry_too_early :
    ((Held.start default).run minuteConf [(100, .forward 7), (100, .fail 0 0), (101, .restart),
      (101, .forward 7)]).isSome ∧ ¬100+retryWait minuteConf 1 ≤ 101 ∧
    ((Held.start default).run {minuteConf with waitretry := .ofInt 1073741824} [(100, .forward 7),
      (100, .fail 0 0), (160, .forward 7), (160, .fail 0 0), (160, .forward 7)]).isSome ∧
    ¬160+retryWait {minuteConf with waitretry := .ofInt 1073741824} 2 ≤ 160 := by
  decide

end Endurox.Tmq
