import Endurox.BaseCInt
import Mathlib.Order.ConditionallyCompleteLattice.Basic
import Mathlib.Data.Int.ConditionallyCompleteOrder
import Mathlib.Data.Prod.Lex
import Mathlib.Data.List.Pairwise

/-! The key of an enqueued message, `tmq_enqueue`: the time read from the clock, and a counter that
tells messages of the same time apart. Calls of any number of threads run at once. -/

namespace Endurox.Tmq.Keys

open Base List

abbrev Tstamp := Int ×ₗ Int

structure Statics where
  first : Bool
  tstamp : Tstamp
  tCntr : Int

def Statics.init : Statics := ⟨true, toLex (0, 0), 0⟩

/-- The part of `tmq_enqueue` under the lock, for a message stamped `t`. `draws` are the values that
`ndrx_rand` gives; the message gets the new `t_cntr`. -/
def tstampLocked (s : Statics) (draws : ℕ × ℕ) (t : Tstamp) : Statics :=
  let cntr : Int := if s.first then (draws.1 % 2500000 : ℕ) else s.tCntr
  if t = s.tstamp then ⟨false, t, wrap32 (cntr+1)⟩ else ⟨false, t, (draws.2 % 2500000 : ℕ)⟩

structure Call where
  began : ℕ
  read : ℕ
  locked : ℕ
  returned : ℕ
  deriving DecidableEq

structure Msg where
  call : Call
  cntr : Int
  deriving DecidableEq

/-- Calls that run at once, the last to get the lock first. The lock is held by one at a time, and the
clock never goes back. -/
structure Interleaving where
  clock : ℕ → Tstamp
  monotone : Monotone clock
  calls : List Call
  inOrder : ∀ c ∈ calls, c.began ≤ c.read ∧ c.read < c.locked ∧ c.locked < c.returned
  alone : calls.Pairwise (fun a b => b.locked < a.locked)

section

variable (clock : ℕ → Tstamp) (rand : ℕ → ℕ × ℕ)

def Msg.key (m : Msg) : Tstamp ×ₗ Int := toLex (clock m.call.read, m.cntr)

def enqueued : List Call → Statics × List Msg
  | [] => (.init, [])
  | c :: cs =>
    let s := tstampLocked (enqueued cs).1 (rand c.locked) (clock c.read)
    (s, ⟨c, s.tCntr⟩ :: (enqueued cs).2)

/-- No key is given twice, and a message whose call began after that of another had returned has the
greater key. -/
structure Good (ms : List Msg) : Prop where
  unique : ms.Pairwise (fun a b => a.key clock ≠ b.key clock)
  ordered : ∀ a ∈ ms, ∀ b ∈ ms, a.call.returned < b.call.began → a.key clock < b.key clock

/-- A call gets the lock with the time of the call before it, or with one that no call had. -/
def InBlocks : List Call → Prop
  | [] => True
  | c :: cs =>
    (cs.head?.map (fun d => clock d.read) = some (clock c.read) ∨
      ∀ d ∈ cs, clock d.read ≠ clock c.read) ∧ InBlocks cs

def Few (cs : List Call) : Prop :=
  ∀ t, cs.countP (fun c => clock c.read = t) + 2499999 < 2147483648

end

section

variable {clock : ℕ → Tstamp} {rand : ℕ → ℕ × ℕ} {c : Call} {cs : List Call}

theorem enqueued_calls (clock : ℕ → Tstamp) (rand : ℕ → ℕ × ℕ) (cs : List Call) :
    (enqueued clock rand cs).2.map Msg.call = cs := by
  induction cs with
  | nil => rfl
  | cons c cs ih => rw [enqueued, map_cons, ih]

theorem call_mem {m : Msg} (hm : m ∈ (enqueued clock rand cs).2) : m.call ∈ cs := by
  rw [← enqueued_calls clock rand cs]
  exact mem_map_of_mem hm

theorem statics_cons : (enqueued clock rand (c :: cs)).1 =
    ⟨false, clock c.read, (enqueued clock rand (c :: cs)).1.tCntr⟩ := by
  rw [enqueued]
  simp only [tstampLocked]
  split <;> rfl

structure Counted (clock : ℕ → Tstamp) (cs : List Call) (ms : List Msg) : Prop where
  range : ∀ m ∈ ms, 0 ≤ m.cntr ∧
    m.cntr ≤ cs.countP (fun c => clock c.read = clock m.call.read) + 2499999
  rising : ms.Pairwise (fun a b => clock b.call.read = clock a.call.read → b.cntr < a.cntr)

theorem countP_cons_self : (c :: cs).countP (fun d => clock d.read = clock c.read) =
    cs.countP (fun d => clock d.read = clock c.read) + 1 :=
  countP_cons_of_pos (by simp)

theorem Few.tail (h : Few clock (c :: cs)) : Few clock cs := fun t => by
  have hle : cs.countP (fun c => clock c.read = t) ≤ (c :: cs).countP (fun c => clock c.read = t) :=
    (sublist_cons_self c cs).countP_le
  have := h t
  omega

theorem Counted.cons {ms : List Msg} {k : Int} (h : Counted clock cs ms)
    (h0 : 0 ≤ k) (hk : k ≤ cs.countP (fun d => clock d.read = clock c.read) + 2500000)
    (hrise : ∀ m ∈ ms, clock m.call.read = clock c.read → m.cntr < k) :
    Counted clock (c :: cs) (⟨c, k⟩ :: ms) := by
  refine ⟨?_, pairwise_cons.mpr ⟨hrise, h.rising⟩⟩
  intro m hm
  rcases mem_cons.mp hm with rfl | hm
  · refine ⟨h0, ?_⟩
    rw [countP_cons_self]
    push_cast
    omega
  · have hle : cs.countP (fun d => clock d.read = clock m.call.read) ≤
        (c :: cs).countP (fun d => clock d.read = clock m.call.read) :=
      (sublist_cons_self c cs).countP_le
    have := h.range m hm
    omega

theorem tstampLocked_new {s : Statics} {draws : ℕ × ℕ} {t : Tstamp} (h : t ≠ s.tstamp) :
    (tstampLocked s draws t).tCntr = (draws.2 % 2500000 : ℕ) := by
  rw [tstampLocked, if_neg h]

theorem tstampLocked_same {draws : ℕ × ℕ} {t : Tstamp} {k : Int} :
    (tstampLocked ⟨false, t, k⟩ draws t).tCntr = wrap32 (k+1) := by
  rw [tstampLocked, if_pos rfl]
  rfl

theorem tstampLocked_init (draws : ℕ × ℕ) (t : Tstamp) :
    (tstampLocked .init draws t).tCntr = (draws.1 % 2500000 : ℕ)+1 ∨
      (tstampLocked .init draws t).tCntr = (draws.2 % 2500000 : ℕ) := by
  by_cases h : t = Statics.init.tstamp
  · have hlt := Nat.mod_lt draws.1 (show 0 < 2500000 by decide)
    left
    rw [tstampLocked, if_pos h]
    show wrap32 ((draws.1 % 2500000 : ℕ)+1) = _
    exact wrap32_of_mem (by omega) (by omega)
  · exact .inr (tstampLocked_new h)

/-- In blocks of one time the keys of the messages count up. -/
theorem enqueued_counted (hblocks : InBlocks clock cs) (hfew : Few clock cs) :
    Counted clock cs (enqueued clock rand cs).2 := by
  induction cs with
  | nil => exact ⟨by simp [enqueued], by simp [enqueued]⟩
  | cons c cs ih =>
    have hc := ih hblocks.2 hfew.tail
    have hfewc := hfew (clock c.read)
    rw [countP_cons_self] at hfewc
    rw [enqueued]
    cases cs with
    | nil =>
      have hk := tstampLocked_init (rand c.locked) (clock c.read)
      show Counted clock [c] [⟨c, (tstampLocked .init (rand c.locked) (clock c.read)).tCntr⟩]
      exact hc.cons (by omega) (by rw [countP_nil]; omega) (by simp [enqueued])
    | cons d ds =>
      rw [statics_cons]
      by_cases ht : clock c.read = clock d.read
      · -- the counter goes on from the message before
        obtain ⟨hk0, hk⟩ : 0 ≤ (enqueued clock rand (d :: ds)).1.tCntr ∧
            (enqueued clock rand (d :: ds)).1.tCntr ≤
              (d :: ds).countP (fun e => clock e.read = clock d.read) + 2499999 :=
          hc.range ⟨d, _⟩ mem_cons_self
        rw [← ht] at hk ⊢
        rw [tstampLocked_same, wrap32_of_mem (by omega) (by omega)]
        apply hc.cons (by omega) (by omega)
        intro m hm he
        rcases mem_cons.mp hm with rfl | hm
        · exact Int.lt_succ _
        · have hrise := (pairwise_cons.mp hc.rising).1 m hm (he.trans ht)
          exact hrise.trans (Int.lt_succ _)
      · rw [tstampLocked_new ht]
        apply hc.cons (by omega) (by omega)
        intro m hm he
        rcases hblocks.1 with hhead | hnew
        · exact absurd (Option.some.inj hhead).symm ht
        · exact absurd he (hnew m.call (call_mem hm))

/-- Unique keys need the reads of the clock to come in blocks. -/
theorem blocks_of_unique
    (h : (enqueued clock (fun _ => (0, 1)) cs).2.Pairwise (fun a b => a.key clock ≠ b.key clock)) :
    InBlocks clock cs ∧
      ∀ c ∈ cs, ∃ m ∈ (enqueued clock (fun _ => (0, 1)) cs).2, m.key clock = toLex (clock c.read, 1) := by
  induction cs with
  | nil => exact ⟨trivial, by simp⟩
  | cons c cs ih =>
    obtain ⟨hnew, hold⟩ := pairwise_cons.mp h
    obtain ⟨hblocks, hone⟩ := ih hold
    -- either the new message has the counter 1, or its time is that of the message before
    have hnext : (tstampLocked (enqueued clock (fun _ => (0, 1)) cs).1 (0, 1) (clock c.read)).tCntr = 1 ∨
        cs.head?.map (fun d => clock d.read) = some (clock c.read) := by
      cases cs with
      | nil => exact .inl (by rcases tstampLocked_init (0, 1) (clock c.read) with h | h <;> exact h)
      | cons d =>
        rw [statics_cons]
        by_cases ht : clock c.read = clock d.read
        · exact .inr (congrArg some ht.symm)
        · exact .inl (tstampLocked_new ht)
    have hkeep (d : Call) (hd : d ∈ cs) (m : Msg) : ∃ m' ∈ m :: (enqueued clock (fun _ => (0, 1)) cs).2,
        m'.key clock = toLex (clock d.read, 1) :=
      (hone d hd).imp fun _ hm => ⟨mem_cons_of_mem _ hm.1, hm.2⟩
    rcases hnext with hk | hhead
    · refine ⟨⟨.inr ?_, hblocks⟩, ?_⟩
      · intro d hd he
        obtain ⟨m, hm, hkey⟩ := hone d hd
        apply hnew m hm
        rw [hkey, he, ← hk]
        rfl
      · intro d hd
        rcases mem_cons.mp hd with rfl | hd
        · exact ⟨_, mem_cons_self, by rw [← hk]; rfl⟩
        · exact hkeep d hd _
    · refine ⟨⟨.inl hhead, hblocks⟩, ?_⟩
      intro d hd
      rcases mem_cons.mp hd with rfl | hd
      · obtain ⟨e, he, ht⟩ := Option.map_eq_some_iff.mp hhead
        rw [← ht]
        exact hkeep e (mem_of_mem_head? he) _
      · exact hkeep d hd _

end

theorem good_of_blocks (i : Interleaving) (rand : ℕ → ℕ × ℕ) (hblocks : InBlocks i.clock i.calls)
    (hfew : Few i.clock i.calls) : Good i.clock (enqueued i.clock rand i.calls).2 := by
  have hcounted : Counted i.clock i.calls (enqueued i.clock rand i.calls).2 := enqueued_counted hblocks hfew
  have hrise := hcounted.rising
  have halone := i.alone
  rw [← enqueued_calls i.clock rand i.calls, pairwise_map] at halone
  refine ⟨?_, ?_⟩
  · apply hrise.imp
    intro a b hab he
    have h := Prod.mk.inj (toLex_inj.mp he)
    exact absurd h.2 (hab h.1.symm).ne'
  -- of two messages the one that got the lock later has the greater counter
  let Later (a b : Msg) : Prop := a.call.locked < b.call.locked →
    i.clock a.call.read = i.clock b.call.read → a.cntr < b.cntr
  have hlater : ∀ a ∈ (enqueued i.clock rand i.calls).2, ∀ b ∈ (enqueued i.clock rand i.calls).2,
      Later a b ∧ Later b a := by
    have : Std.Symm (fun a b => Later a b ∧ Later b a) := ⟨fun _ _ h => h.symm⟩
    apply List.Pairwise.forall_of_forall
    · exact fun a _ => ⟨fun h => absurd h (lt_irrefl _), fun h => absurd h (lt_irrefl _)⟩
    · exact (halone.and hrise).imp fun h => ⟨fun hlt => absurd h.1 hlt.not_gt, fun _ => h.2⟩
  intro a ha b hb hlt
  have hoa := i.inOrder a.call (call_mem ha)
  have hob := i.inOrder b.call (call_mem hb)
  have hread := i.monotone (show a.call.read ≤ b.call.read by omega)
  rw [Msg.key, Msg.key, Prod.Lex.toLex_lt_toLex]
  rcases hread.lt_or_eq with h | h
  · exact .inl h
  · exact .inr ⟨h, (hlater a ha b hb).1 (by omega) h⟩

/-- The keys are unique and in order, whatever the random values, exactly when a time never comes up
again after another one. -/
theorem keys_good_iff (i : Interleaving) (hfew : Few i.clock i.calls) :
    (∀ rand, Good i.clock (enqueued i.clock rand i.calls).2) ↔ InBlocks i.clock i.calls := by
  constructor
  · intro h
    exact (blocks_of_unique (h _).unique).1
  · intro h rand
    exact good_of_blocks i rand h hfew

def lateClock (tick n : ℕ) : Tstamp := if n < tick then toLex (1, 0) else toLex (1, 1)

/-- The first call reads the clock, and then waits while the second one takes its key. The third
begins after both have returned. -/
def lateCalls : List Call := [⟨8, 9, 10, 11⟩, ⟨0, 1, 6, 7⟩, ⟨2, 3, 4, 5⟩]

theorem lateClock_monotone (tick : ℕ) : Monotone (lateClock tick) := by
  intro a b h
  rw [lateClock, lateClock]
  split <;> split
  · exact le_rfl
  · decide
  · omega
  · exact le_rfl

theorem lateCalls_inOrder :
    ∀ c ∈ lateCalls, c.began ≤ c.read ∧ c.read < c.locked ∧ c.locked < c.returned := by decide

theorem lateCalls_alone : lateCalls.Pairwise (fun a b => b.locked < a.locked) := by decide

def late (tick : ℕ) : Interleaving :=
  ⟨lateClock tick, lateClock_monotone tick, lateCalls, lateCalls_inOrder, lateCalls_alone⟩

theorem late_few (tick : ℕ) : Few (late tick).clock (late tick).calls := by
  intro t
  have h : (late tick).calls.countP (fun c => (late tick).clock c.read = t) ≤ 3 := countP_le_length
  omega

theorem keys_good_late : InBlocks (late 8).clock (late 8).calls ∧
    ∀ rand, Good (late 8).clock (enqueued (late 8).clock rand (late 8).calls).2 := by
  have hblocks : InBlocks (late 8).clock (late 8).calls :=
    ⟨.inr (by decide), .inl rfl, .inr (by decide), trivial⟩
  exact ⟨hblocks, (keys_good_iff (late 8) (late_few 8)).mpr hblocks⟩

/-- The clock goes on before the second call reads it: that message and the third get the same key. -/
theorem key_given_twice :
    (enqueued (late 3).clock (fun _ => (7, 7)) (late 3).calls).2.map (Msg.key (late 3).clock) =
        [toLex (toLex (1, 1), 7), toLex (toLex (1, 0), 7), toLex (toLex (1, 1), 7)] ∧
      ¬Good (late 3).clock (enqueued (late 3).clock (fun _ => (7, 7)) (late 3).calls).2 := by
  refine ⟨by decide, ?_⟩
  intro h
  have hne := pairwise_cons.mp h.unique
  exact hne.1 ⟨⟨2, 3, 4, 5⟩, 7⟩ (by decide) rfl

end Endurox.Tmq.Keys
