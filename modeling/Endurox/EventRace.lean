import Endurox.EventPost

/-! Posts, subscriptions and their removal on several threads. A thread that posts gives up its read
lock to remove a subscription whose service cannot be called, and keeps two entries meanwhile. -/

namespace Endurox.Ev

open List Function

/-- Where a thread is without the lock: in no request, or on its way from the read lock to the
write lock with `elt` and `tmp` of the loop. -/
inductive Pc
  | idle
  | gap (p : Post) (elt : EventEntry) (tmp : Option EventEntry) (r : Run)

structure Server where
  subs : Subscribers
  pc : ℕ → Pc
  freed : List EventEntry

def Server.init : Server := ⟨.init, fun _ => .idle, []⟩

inductive Request
  | post (p : Post)
  | subscribe (req : SubsReq)
  | unsubscribe (subscriberNr : Int) (myId : String)

def unsubscribing (p : Post) (elt : EventEntry) (r : Run) : Bool :=
  p.regexec elt && filterPasses p elt = some true && elt.tpevservice && elt.name1 ∉ r.dupChk &&
    match p.tpacallex elt with
    | .failed tperrno => tperrno ≠ tpeblock
    | .ok => false

/-- The loop up to where the lock is given up, at the end or before. -/
def walk (p : Post) : List EventEntry → Run → Pc
  | [], _ => .idle
  | elt :: rest, r =>
    if unsubscribing p elt r then .gap p elt rest.head? r
    else
      match postEntry p elt r with
      | .ok r => walk p rest r
      | .error _ => .idle

def Server.remove (s : Server) (subscription : Int) (myId : Option String) (pc : ℕ → Pc) : Server where
  subs := s.subs.restrict _ (removeByMyId_sublist subscription myId s.subs.list)
  pc := pc
  freed := s.freed ++ s.subs.list.filter (unsubscribes subscription myId)

def Server.goOn (s : Server) (t : ℕ) (p : Post) (elt : EventEntry) (tmp : Option EventEntry) (r : Run) :
    Except Fault Server :=
  let subs := (removeByMyId elt.subscriberNr none s.subs.list).1
  let fin (pc : Pc) := s.remove elt.subscriberNr none (update s.pc t pc)
  if elt ∉ s.subs.list then .error .usedAfterFree
  else
    match tmp with
    | none => .ok (fin .idle)
    | some e =>
      if e ∉ subs then .error .usedAfterFree else .ok (fin (walk p (subs.dropWhile (· ≠ e)) r))

/-- What a thread does between two releases of `M_subscribers_lock`: it takes the request, or goes
on with the one it has. -/
def step (s : Server) (t : ℕ) (a : Request) : Except Fault Server :=
  match s.pc t with
  | .gap p elt tmp r => s.goOn t p elt tmp r
  | .idle =>
    match a with
    | .post p => .ok {s with pc := update s.pc t (walk p s.subs.list ⟨s.subs.list, [], 0, []⟩)}
    | .subscribe req => .ok {s with subs := (tpevsubs req s.subs).1}
    | .unsubscribe subscriberNr myId => .ok (s.remove subscriberNr (some myId) s.pc)

def run : Server → List (ℕ × Request) → Except Fault Server
  | s, [] => .ok s
  | s, (t, a) :: acts => (step s t a).bind (run · acts)

def Pc.Holds (e : EventEntry) : Pc → Prop
  | .idle => False
  | .gap _ elt tmp _ => e = elt ∨ tmp = some e

def removes (e : EventEntry) : Pc → Request → Bool
  | .gap _ elt _ _, _ => e = elt
  | .idle, .unsubscribe subscriberNr myId => unsubscribes subscriberNr (some myId) e
  | .idle, _ => false

/-- No thread that is between the locks loses one of its entries to another thread. -/
def RunOk : Server → List (ℕ × Request) → Prop
  | _, [] => True
  | s, (t, a) :: acts => (∀ t' ≠ t, ∀ e, (s.pc t').Holds e → removes e (s.pc t) a = false) ∧
    ∀ s', step s t a = .ok s' → RunOk s' acts

def Pc.Keeps (subs : List EventEntry) : Pc → Prop
  | .idle => True
  | .gap _ elt tmp _ => elt ∈ subs ∧ ∀ e, tmp = some e → e ∈ subs ∧ e ≠ elt

structure Server.Ok (s : Server) : Prop where
  held : ∀ t, (s.pc t).Keeps s.subs.list
  below : ∀ e ∈ s.freed, e.subscriberNr < s.subs.next
  gone : ∀ e ∈ s.freed, e ∉ s.subs.list
  once : s.freed.Nodup

variable {s : Server} {t : ℕ}

theorem Pc.Keeps.mono {l l' : List EventEntry} {pc : Pc} (h : pc.Keeps l)
    (hsub : ∀ e ∈ l, pc.Holds e → e ∈ l') : pc.Keeps l' := by
  cases pc with
  | idle => trivial
  | gap p elt =>
    refine ⟨hsub elt h.1 (.inl rfl), fun e he => ?_⟩
    exact ⟨hsub e (h.2 e he).1 (.inr he), (h.2 e he).2⟩

theorem keeps_update {l : List EventEntry} {f : ℕ → Pc} {pc : Pc} (hpc : pc.Keeps l)
    (hf : ∀ t' ≠ t, (f t').Keeps l) (t' : ℕ) : (update f t pc t').Keeps l := by
  by_cases ht : t' = t
  · rw [ht, update_self]
    exact hpc
  · rw [update_of_ne ht]
    exact hf t' ht

theorem walk_keeps (p : Post) {l : List EventEntry} (hnd : l.Nodup) (r : Run) :
    (walk p l r).Keeps l := by
  induction l generalizing r with
  | nil => trivial
  | cons elt rest ih =>
    obtain ⟨hnot, hnd⟩ := nodup_cons.mp hnd
    rw [walk]
    split
    · refine ⟨mem_cons_self, fun e he => ?_⟩
      have hin : e ∈ rest := mem_of_head? he
      exact ⟨mem_cons_of_mem _ hin, fun heq => hnot (heq ▸ hin)⟩
    · split
      · exact (ih hnd _).mono (fun _ he _ => mem_cons_of_mem _ he)
      · trivial

theorem Server.Ok.remove (h : s.Ok) {subscription : Int} {myId : Option String} {pc : ℕ → Pc}
    (hpc : ∀ t, (pc t).Keeps (removeByMyId subscription myId s.subs.list).1) :
    (s.remove subscription myId pc).Ok where
  held := hpc
  below := by
    intro e he
    rcases mem_append.mp he with he | he
    · exact h.below e he
    · exact s.subs.below e (mem_of_mem_filter he)
  gone := by
    intro e he hin
    obtain ⟨hin, hno⟩ := mem_filter.mp hin
    rcases mem_append.mp he with he | he
    · exact h.gone e he hin
    · rw [of_mem_filter he] at hno
      cases hno
  once := by
    refine h.once.append (s.subs.nodup.filter _) ?_
    intro e he hin
    exact h.gone e he (mem_of_mem_filter hin)

theorem Server.Ok.subscribe (h : s.Ok) (req : SubsReq) :
    Server.Ok {s with subs := (tpevsubs req s.subs).1} := by
  rw [tpevsubs]
  split
  · rename_i e he
    refine ⟨fun t => (h.held t).mono fun _ he _ => mem_append_left _ he, ?_, ?_, h.once⟩
    · exact fun e' he' => Nat.lt_succ_of_lt (h.below e' he')
    · intro e' he' hin
      rcases mem_append.mp hin with hin | hin
      · exact h.gone e' he' hin
      · have hlt := h.below e' he'
        rw [mem_singleton.mp hin, SubsReq.accepted_number he] at hlt
        exact absurd hlt (Nat.lt_irrefl _)
  · exact h

theorem Server.Ok.goOn (h : s.Ok) {p : Post} {elt : EventEntry} {tmp : Option EventEntry} {r : Run}
    (hpc : s.pc t = .gap p elt tmp r) (hok : ∀ t' ≠ t, ∀ e, (s.pc t').Holds e → e ≠ elt) :
    ∃ s', s.goOn t p elt tmp r = .ok s' ∧ s'.Ok := by
  have hkeep := h.held t
  rw [hpc] at hkeep
  obtain ⟨helt, htmp⟩ := hkeep
  have hown (e : EventEntry) (he : e ∈ s.subs.list) (hne : e ≠ elt) :
      e ∈ (removeByMyId elt.subscriberNr none s.subs.list).1 := by
    refine mem_filter.mpr ⟨he, ?_⟩
    rw [unsubscribes_own, Bool.not_eq_true', decide_eq_false_iff_not]
    exact fun hnr => hne (s.subs.eq_of_number he helt hnr)
  have hnext (pc : Pc) (hnew : pc.Keeps (removeByMyId elt.subscriberNr none s.subs.list).1) :
      (s.remove elt.subscriberNr none (update s.pc t pc)).Ok := by
    refine h.remove (keeps_update hnew fun t' ht => ?_)
    exact (h.held t').mono fun e he hheld => hown e he (hok t' ht e hheld)
  simp only [Server.goOn, if_neg (not_not.mpr helt)]
  cases tmp with
  | none => exact ⟨_, rfl, hnext _ trivial⟩
  | some e =>
    have he := hown e (htmp e rfl).1 (htmp e rfl).2
    simp only [if_neg (not_not.mpr he)]
    refine ⟨_, rfl, hnext _ ?_⟩
    have hsub := dropWhile_sublist (l := (removeByMyId elt.subscriberNr none s.subs.list).1) (· ≠ e)
    refine (walk_keeps p ?_ r).mono fun _ he _ => hsub.subset he
    exact s.subs.nodup.sublist (hsub.trans (removeByMyId_sublist _ _ _))

theorem Server.Ok.step (h : s.Ok) {a : Request}
    (hok : ∀ t' ≠ t, ∀ e, (s.pc t').Holds e → removes e (s.pc t) a = false) :
    ∃ s', step s t a = .ok s' ∧ s'.Ok := by
  unfold Ev.step
  cases hpc : s.pc t with
  | gap =>
    rw [hpc] at hok
    exact h.goOn hpc fun t' ht e he => decide_eq_false_iff_not.mp (hok t' ht e he)
  | idle =>
    rw [hpc] at hok
    cases a with
    | post p =>
      refine ⟨_, rfl, ?_, h.below, h.gone, h.once⟩
      exact keeps_update (walk_keeps p s.subs.nodup _) fun t' _ => h.held t'
    | subscribe req => exact ⟨_, rfl, h.subscribe req⟩
    | unsubscribe =>
      refine ⟨_, rfl, h.remove fun t' => (h.held t').mono fun e he hheld => ?_⟩
      have ht : t' ≠ t := by
        rintro rfl
        rw [hpc] at hheld
        exact hheld
      exact mem_filter.mpr ⟨he, by rw [Bool.not_eq_true']; exact hok t' ht e hheld⟩

theorem Server.Ok.run {acts : List (ℕ × Request)} (h : s.Ok) (hok : RunOk s acts) :
    ∃ s', run s acts = .ok s' ∧ s'.Ok := by
  induction acts generalizing s with
  | nil => exact ⟨s, rfl, h⟩
  | cons act acts ih =>
    obtain ⟨s1, hs1, h1⟩ := h.step hok.1
    rw [Ev.run, hs1]
    exact ih h1 (hok.2 s1 hs1)

/-- However the threads interleave: as long as no thread between its two locks loses an entry to
another one, nobody uses an entry that was freed, and none is removed twice. -/
theorem threads_do_not_trip (acts : List (ℕ × Request)) (hok : RunOk .init acts) :
    ∃ s, run .init acts = .ok s ∧ s.freed.Nodup ∧ ∀ e ∈ s.freed, e ∉ s.subs.list := by
  have h : Server.init.Ok := ⟨fun _ => trivial, forall_mem_nil _, forall_mem_nil _, nodup_nil⟩
  obtain ⟨s, hs, h'⟩ := h.run hok
  exact ⟨s, hs, h'.once, h'.gone⟩

def anyReq : SubsReq := ⟨some (some "EV"), none, some true, false, some "SVC", "me", true⟩

def failedPost : Post :=
  ⟨none, fun _ => true, fun _ => true, fun _ => none, fun _ => 0, fun _ => true, fun _ => .failed 6,
    fun _ => true, false, none, fun _ => true, fun _ => none⟩

/-- While thread 0 is between its locks, at the first entry and with the second one next, thread 1
removes the third. -/
theorem threads_do_not_trip_two : ∃ s, run .init [(0, .subscribe anyReq), (1, .subscribe anyReq),
    (0, .subscribe anyReq), (0, .post failedPost), (1, .unsubscribe 2 "me"), (0, .post failedPost)] =
      .ok s ∧ s.freed.map EventEntry.subscriberNr = [2, 0] ∧ s.freed.Nodup := by
  have hok : RunOk .init [(0, .subscribe anyReq), (1, .subscribe anyReq), (0, .subscribe anyReq),
      (0, .post failedPost), (1, .unsubscribe 2 "me"), (0, .post failedPost)] := by
    -- up to the first post nobody is between the locks
    iterate 4
      refine ⟨fun _ _ _ he => he.elim, ?_⟩
      rintro _ ⟨⟩
    refine ⟨fun t' ht e he => ?_, ?_⟩
    · cases t' with
      | zero =>
        rcases he with rfl | he
        · rfl
        · cases he
          rfl
      | succ => exact he.elim
    rintro _ ⟨⟩
    refine ⟨fun t' ht e he => ?_, fun _ _ => trivial⟩
    cases t' with
    | zero => exact absurd rfl ht
    | succ => exact he.elim
  obtain ⟨s, hs, hnd, -⟩ := threads_do_not_trip _ hok
  refine ⟨s, hs, ?_, hnd⟩
  cases hs
  rfl

/-- The subscription is removed by another thread in between; the poster then reads its number. -/
theorem entry_read_after_free : run .init [(0, .subscribe anyReq), (0, .post failedPost),
    (1, .unsubscribe 0 "me"), (0, .post failedPost)] = .error .usedAfterFree := rfl

variable {acts : List (ℕ × Request)}

end Endurox.Ev
