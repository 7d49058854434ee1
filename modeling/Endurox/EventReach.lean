import Endurox.EventPost

/-! Whom a posted event reaches: the run of the loop over the subscriptions, the calls it makes,
what it counts and which subscriptions it drops. -/

namespace Endurox.Ev

open Base List

variable {p : Post}

def sentOk (p : Post) (e : EventEntry) : Bool := p.tpacallex e == .ok

def dropped (p : Post) (e : EventEntry) : Bool :=
  match p.tpacallex e with
  | .ok => false
  | .failed tperrno => tperrno != tpeblock

def served (p : Post) (done : List String) (l : List EventEntry) : List EventEntry :=
  once (delivers p) (sentOk p) (·.name1) done l

variable {elt : EventEntry} {r : Run}

theorem served_cons (rest : List EventEntry) (hd : delivers p elt) (hdup : elt.name1 ∉ r.dupChk) :
    served p r.dupChk (elt :: rest) = elt :: served p (r.afterCall p elt).dupChk rest := by
  rw [served, once_cons_served hd hdup]
  simp [sentOk, Run.afterCall, served]

theorem afterCall_subscribers
    (hnum : ∀ e ∈ r.subscribers, e.subscriberNr = elt.subscriberNr → e = elt) :
    (r.afterCall p elt).subscribers =
      r.subscribers.filter (fun e => !(e == elt && dropped p e)) := by
  have hkeep (h : dropped p elt = false) :
      r.subscribers.filter (fun e => !(e == elt && dropped p e)) = r.subscribers := by
    refine filter_eq_self.mpr ?_
    intro e he
    by_cases heq : e = elt
    · simp [heq, h]
    · simp [heq]
  rw [Run.afterCall]
  cases hc : p.tpacallex elt with
  | ok => exact (hkeep (by simp [dropped, hc])).symm
  | failed tperrno =>
    by_cases he : tperrno = tpeblock
    · simpa [he] using (hkeep (by simp [dropped, hc, he])).symm
    have hd : dropped p elt = true := by simp [dropped, hc, he]
    simp only [ne_eq, he]
    rw [removeByMyId_own hnum]
    refine filter_congr ?_
    intro e _
    by_cases heq : e = elt
    · simp [heq, hd]
    · simp [heq]

variable {e : EventEntry}

theorem mem_afterCall (hnum : ∀ e ∈ r.subscribers, e.subscriberNr = elt.subscriberNr → e = elt) :
    e ∈ (r.afterCall p elt).subscribers ↔ e ∈ r.subscribers ∧ ¬ (e = elt ∧ dropped p e) := by
  rw [afterCall_subscribers hnum]
  simp [imp_iff_not_or]

theorem postEntry_ok {r1 : Run} (h : postEntry p elt r = .ok r1) :
    (p.regexec elt → elt.filter ≠ "" → p.descrTest ≠ none) ∧
    ((delivers p elt → elt.name1 ∈ r.dupChk) ∧ r1 = r ∨
      delivers p elt ∧ elt.name1 ∉ r.dupChk ∧ (sentOk p elt → p.hashAdd elt) ∧
        r1 = r.afterCall p elt) := by
  rcases postEntry_cases (p := p) elt r with ⟨-, -, -, he⟩ | ⟨ht, ⟨hd, he⟩ | ⟨hd, hdup, he⟩⟩
  · rw [he] at h
    cases h
  · rw [he] at h
    cases h
    exact ⟨ht, .inl ⟨hd, rfl⟩⟩
  · rw [he, callService_served hdup] at h
    split at h
    · cases h
    · rename_i hadd
      cases h
      refine ⟨ht, .inr ⟨hd, hdup, ?_, rfl⟩⟩
      intro hok
      simpa [sentOk] using fun ha => hadd ⟨by simpa [sentOk] using hok, ha⟩

variable {r' : Run} {rest : List EventEntry}

theorem postLoop_cons_ok (helt : elt ∈ r.subscribers) (h : postLoop p (elt :: rest) r = .ok r') :
    ∃ r1, postEntry p elt r = .ok r1 ∧ postLoop p rest r1 = .ok r' := by
  rw [postLoop, if_pos helt] at h
  cases he : postEntry p elt r with
  | error =>
    rw [he] at h
    cases h
  | ok r1 =>
    simp only [he] at h
    split at h
    · exact ⟨r1, rfl, h⟩
    · cases h

theorem postLoop_cons_of {r1 : Run} (helt : elt ∈ r.subscribers) (h : postEntry p elt r = .ok r1)
    (hkept : ∀ e ∈ rest, e ∈ r1.subscribers) : postLoop p (elt :: rest) r = postLoop p rest r1 := by
  have hnext : (rest.find? (· ∈ r.subscribers)).all (· ∈ r1.subscribers) = true := by
    cases hf : rest.find? (· ∈ r.subscribers) with
    | none => rfl
    | some tmp => simpa using hkept tmp (mem_of_find?_eq_some hf)
  simp [postLoop, if_pos helt, h, hnext]

/-- The subscriptions still to be visited are distinct ones of the list, and no two of that have one
number. -/
structure Listed (l : List EventEntry) (r : Run) : Prop where
  nodup : l.Nodup
  mem : ∀ e ∈ l, e ∈ r.subscribers
  number : ∀ e ∈ r.subscribers, ∀ e' ∈ r.subscribers, e.subscriberNr = e'.subscriberNr → e = e'

theorem Subscribers.listed (s : Subscribers) : Listed s.list ⟨s.list, [], 0, []⟩ :=
  ⟨s.nodup, fun _ he => he, fun _ he _ he' => s.eq_of_number he he'⟩

theorem Listed.tail (h : Listed (elt :: rest) r) : Listed rest r :=
  ⟨(nodup_cons.mp h.nodup).2, (forall_mem_cons.mp h.mem).2, h.number⟩

theorem Listed.own (h : Listed (elt :: rest) r) :
    ∀ e ∈ r.subscribers, e.subscriberNr = elt.subscriberNr → e = elt :=
  fun e he => h.number e he elt (h.mem elt mem_cons_self)

/-- A call drops at most the subscription it is made for. -/
theorem Listed.afterCall (h : Listed (elt :: rest) r) : Listed rest (r.afterCall p elt) := by
  refine ⟨h.tail.nodup, ?_, ?_⟩
  · intro e he
    refine (mem_afterCall h.own).mpr ⟨h.tail.mem e he, ?_⟩
    rintro ⟨rfl, -⟩
    exact (nodup_cons.mp h.nodup).1 he
  · intro e he e' he'
    exact h.number e ((mem_afterCall h.own).mp he).1 e' ((mem_afterCall h.own).mp he').1

structure Walked (p : Post) (l : List EventEntry) (r r' : Run) : Prop where
  called : r'.called = r.called ++ served p r.dupChk l
  numdisp : r'.numdisp = r.numdisp + ((served p r.dupChk l).countP (sentOk p) : ℕ)
  subscribers : r'.subscribers =
    r.subscribers.filter (fun e => !(decide (e ∈ served p r.dupChk l) && dropped p e))
  tested : ∀ e ∈ l, p.regexec e → e.filter ≠ "" → p.descrTest ≠ none
  added : ∀ e ∈ served p r.dupChk l, sentOk p e → p.hashAdd e

variable {l : List EventEntry}

/-- What the loop over the subscriptions has called when it returns. -/
theorem walked (hlist : Listed l r) (h : postLoop p l r = .ok r') : Walked p l r r' := by
  induction l generalizing r with
  | nil =>
    cases h
    constructor <;> simp [served, once]
  | cons elt rest ih =>
    obtain ⟨r1, hentry, hloop⟩ := postLoop_cons_ok (hlist.mem elt mem_cons_self) h
    obtain ⟨htest, ⟨hdup, rfl⟩ | ⟨hd, hdup, hadd, rfl⟩⟩ := postEntry_ok hentry
    · -- the subscription is passed over
      have hs : served p r1.dupChk (elt :: rest) = served p r1.dupChk rest := once_cons_passed hdup
      have hw := ih hlist.tail hloop
      constructor
      · rw [hs]
        exact hw.called
      · rw [hs]
        exact hw.numdisp
      · rw [hs]
        exact hw.subscribers
      · exact forall_mem_cons.mpr ⟨htest, hw.tested⟩
      · rw [hs]
        exact hw.added
    · -- its service is called
      have hs := served_cons rest hd hdup
      have hw := ih hlist.afterCall hloop
      constructor
      · rw [hs, hw.called, Run.afterCall, append_assoc]
        rfl
      · rw [hs, hw.numdisp]
        by_cases hok : p.tpacallex elt = .ok
        · simp [Run.afterCall, sentOk, hok]
          omega
        · simp [Run.afterCall, sentOk, hok]
      · rw [hs, hw.subscribers, afterCall_subscribers hlist.own, filter_filter]
        refine filter_congr ?_
        intro e _
        by_cases heq : e = elt <;> cases dropped p e <;> simp [heq]
      · exact forall_mem_cons.mpr ⟨htest, hw.tested⟩
      · rw [hs]
        exact forall_mem_cons.mpr ⟨hadd, hw.added⟩

def verdict (p : Post) (expr : String) : PfTest → Option Bool
  | .ubfTest => if p.bboolco expr then p.bboolev expr else none
  | .stringTest | .jsonTest => if p.regcomp expr = 0 then some (p.bufRegexec expr) else none
  | .carrayTest | .viewTest => some false

def filterTrue (p : Post) (e : EventEntry) : Prop :=
  ∃ t, p.descrTest = some t ∧ verdict p e.filter t = some true

def filterFails (p : Post) (e : EventEntry) : Prop :=
  e.filter ≠ "" ∧ ∃ t, p.descrTest = some t ∧ verdict p e.filter t = none

def Wants (p : Post) (e : EventEntry) : Prop :=
  p.regexec e ∧ e.tpevservice ∧ (e.filter = "" ∨ filterTrue p e)

theorem pfTest_ne_zero_iff (t : PfTest) (expr : String) :
    pfTest p t expr ≠ 0 ↔ verdict p expr t ≠ some false := by
  have hregex : regexTest p expr ≠ 0 ↔
      (if p.regcomp expr = 0 then some (p.bufRegexec expr) else none) ≠ some false := by
    rw [regexTest]
    by_cases hc : p.regcomp expr = 0
    · cases p.bufRegexec expr <;> simp [hc]
    · simp [hc]
  cases t with
  | ubfTest =>
    simp only [pfTest, ubfTest, verdict]
    cases p.bboolco expr with
    | false => simp
    | true =>
      cases p.bboolev expr with
      | none => simp
      | some b => cases b <;> simp
  | stringTest => exact hregex
  | jsonTest => exact hregex
  | carrayTest => simp [pfTest, carrayTest, verdict]
  | viewTest => simp [pfTest, viewTest, verdict]

theorem delivers_iff (e : EventEntry) :
    delivers p e ↔ Wants p e ∨ p.regexec e ∧ e.tpevservice ∧ filterFails p e := by
  have hpass : filterPasses p e = some true ↔ e.filter = "" ∨ filterTrue p e ∨ filterFails p e := by
    rw [filterPasses]
    by_cases hf : e.filter = ""
    · simp [hf]
    have hv (t : PfTest) : pfTest p t e.filter ≠ 0 ↔
        verdict p e.filter t = some true ∨ verdict p e.filter t = none := by
      rw [pfTest_ne_zero_iff]
      cases verdict p e.filter t with
      | none => simp
      | some b => cases b <;> simp
    simp [hf, hv, filterTrue, filterFails, and_or_left, exists_or]
  simp only [delivers, Wants, Bool.and_eq_true, beq_iff_eq]
  tauto

def ServedIn (p : Post) (pre : List EventEntry) (name1 : String) : Prop :=
  ∃ e ∈ pre, Wants p e ∧ sentOk p e ∧ e.name1 = name1

structure Sound (p : Post) (pre : List EventEntry) (e : EventEntry) : Prop where
  tested : p.regexec e → e.filter ≠ "" → p.descrTest ≠ none
  evaluated : p.regexec e → e.tpevservice → filterFails p e → ServedIn p pre e.name1
  added : Wants p e → sentOk p e → p.hashAdd e ∨ ServedIn p pre e.name1

variable {pre : List EventEntry}

theorem servedIn_concat {k : String} :
    ServedIn p (pre ++ [e]) k ↔ ServedIn p pre k ∨ Wants p e ∧ sentOk p e ∧ e.name1 = k := by
  simp [ServedIn]

theorem postLoop_returns (hlist : Listed l r)
    (hdup : ∀ k, k ∈ r.dupChk ↔ ServedIn p pre k)
    (hsound : ∀ mid e post, l = mid ++ e :: post → Sound p (pre ++ mid) e) :
    (∃ r', postLoop p l r = .ok r') ∧ ∀ e ∈ served p r.dupChk l, Wants p e := by
  induction l generalizing pre r with
  | nil => exact ⟨⟨r, rfl⟩, by simp [served, once]⟩
  | cons elt rest ih =>
    have helt := hlist.mem elt mem_cons_self
    have hS : Sound p pre elt := by simpa using hsound [] elt rest rfl
    have hsound' (mid : List EventEntry) (e : EventEntry) (post : List EventEntry)
        (h : rest = mid ++ e :: post) : Sound p (pre ++ [elt] ++ mid) e := by
      rw [append_assoc]
      exact hsound (elt :: mid) e post (by rw [h, cons_append])
    -- a service that was not called yet is called only for a subscription the event is for
    have hwant (hd : delivers p elt) (hk : elt.name1 ∉ r.dupChk) : Wants p elt := by
      rcases (delivers_iff elt).mp hd with hw | ⟨hre, hsv, hf⟩
      · exact hw
      · exact absurd ((hdup _).mpr (hS.evaluated hre hsv hf)) hk
    rcases postEntry_cases (p := p) elt r with ⟨hre, hf, ht, -⟩ | ⟨-, ⟨hd, he⟩ | ⟨hd, hk, he⟩⟩
    · exact absurd ht (hS.tested hre hf)
    · have hdup' (k : String) : k ∈ r.dupChk ↔ ServedIn p (pre ++ [elt]) k := by
        rw [servedIn_concat, hdup, iff_self_or]
        rintro ⟨hw, -, rfl⟩
        exact (hdup _).mp (hd ((delivers_iff elt).mpr (.inl hw)))
      have hs : served p r.dupChk (elt :: rest) = served p r.dupChk rest := once_cons_passed hd
      rw [postLoop_cons_of helt he hlist.tail.mem, hs]
      exact ih hlist.tail hdup' hsound'
    · have hw := hwant hd hk
      have hadd : sentOk p elt → p.hashAdd elt := by
        intro hok
        rcases hS.added hw hok with h | h
        · exact h
        · exact absurd ((hdup _).mpr h) hk
      have hcall : postEntry p elt r = .ok (r.afterCall p elt) := by
        rw [he, callService_served hk, if_neg]
        rintro ⟨hok, hno⟩
        simp [hno, sentOk, hok] at hadd
      have hdup' (k : String) :
          k ∈ (r.afterCall p elt).dupChk ↔ ServedIn p (pre ++ [elt]) k := by
        rw [servedIn_concat, ← hdup, Run.afterCall]
        by_cases hok : p.tpacallex elt = .ok
        · simp [sentOk, hok, hw, or_comm, eq_comm]
        · simp [sentOk, hok]
      rw [postLoop_cons_of helt hcall hlist.afterCall.mem, served_cons rest hd hk]
      obtain ⟨hr, hall⟩ := ih hlist.afterCall hdup' hsound'
      exact ⟨hr, forall_mem_cons.mpr ⟨hw, hall⟩⟩

theorem afterCall_count (h : r.numdisp = (r.called.countP (sentOk p) : ℕ)) :
    (r.afterCall p elt).numdisp = ((r.afterCall p elt).called.countP (sentOk p) : ℕ) := by
  by_cases hok : p.tpacallex elt = .ok
  · simp [Run.afterCall, sentOk, hok, h]
  · simp [Run.afterCall, sentOk, hok, h]

theorem postLoop_out (hcount : r.numdisp = (r.called.countP (sentOk p) : ℕ))
    (h : postLoop p l r = .error (.out r')) :
    r'.numdisp + 1 = (r'.called.countP (sentOk p) : ℕ) := by
  induction l generalizing r with
  | nil => cases h
  | cons elt rest ih =>
    rw [postLoop] at h
    split at h
    · rcases postEntry_cases (p := p) elt r with ⟨-, -, -, he⟩ | ⟨-, ⟨-, he⟩ | ⟨-, hk, he⟩⟩
      · rw [he] at h
        cases h
      · simp only [he] at h
        split at h
        · exact ih hcount h
        · cases h
      · rw [he, callService_served hk] at h
        by_cases hadd : p.tpacallex elt = .ok ∧ p.hashAdd elt = false
        · simp only [if_pos hadd] at h
          cases h
          simp [sentOk, hadd.1, hcount]
        · simp only [if_neg hadd] at h
          split at h
          · exact ih (afterCall_count hcount) h
          · cases h
    · exact ih hcount h

structure Exact (p : Post) (subs : List EventEntry) (r : Posted) : Prop where
  order : r.called.Sublist subs
  called : ∀ pre e post, subs = pre ++ e :: post → (e ∈ r.called ↔
    Wants p e ∧ ∀ e' ∈ pre, e' ∈ r.called → e'.name1 = e.name1 → ¬ sentOk p e')
  nodes : r.nodes = p.reached
  numdisp : r.numdisp = (r.called.countP (sentOk p) : ℕ) + returned r.nodes
  subscribers : r.subscribers = subs.filter (fun e => !(decide (e ∈ r.called) && dropped p e))

variable {post : List EventEntry}

theorem mem_served_iff (hnd : (pre ++ e :: post).Nodup) :
    e ∈ served p [] (pre ++ e :: post) ↔ delivers p e ∧ ∀ e' ∈ pre,
      e' ∈ served p [] (pre ++ e :: post) → e'.name1 = e.name1 → ¬ sentOk p e' := by
  rw [served, mem_once_iff hnd]
  simp

theorem not_wants_of_filterFails (h : filterFails p e) : ¬ Wants p e := by
  rintro ⟨-, -, hflt⟩
  obtain ⟨hne, _, ht, hnone⟩ := h
  rcases hflt with hempty | ⟨_, ht', htrue⟩
  · exact hne hempty
  · rw [ht] at ht'
    cases ht'
    rw [hnone] at htrue
    cases htrue

theorem sound_of_exact {s : Subscribers} {r : Posted} (hr : processPostage p s.list = .ok r)
    (hx : Exact p s.list r) (hsplit : s.list = pre ++ e :: post) : Sound p pre e := by
  rw [processPostage] at hr
  cases hl : postLoop p s.list ⟨s.list, [], 0, []⟩ with
  | error stop =>
    rw [hl] at hr
    cases stop with
    | fault => cases hr
    | out =>
      cases hr
      have hcount := postLoop_out (p := p) rfl hl
      have hn := hx.numdisp
      simp only [returned, foldl_nil] at hn
      omega
  | ok r0 =>
    rw [hl] at hr
    cases hr
    have hw := walked s.listed hl
    have hcalled : r0.called = served p [] s.list := by simpa using hw.called
    -- whoever is passed over by the code comes after a successful call of its service
    have hpast (hd : delivers p e) (hnot : e ∉ r0.called) : ServedIn p pre e.name1 := by
      rw [hcalled, hsplit, mem_served_iff (hsplit ▸ s.nodup), ← hsplit, ← hcalled] at hnot
      simp only [hd, true_and, not_forall, not_not] at hnot
      obtain ⟨b, hb, hbm, hbk, hbok⟩ := hnot
      obtain ⟨pre', post', rfl⟩ := append_of_mem hb
      have hbw := (hx.called pre' b (post' ++ e :: post) (by simp [hsplit])).mp hbm
      exact ⟨b, hb, hbw.1, hbok, hbk⟩
    refine ⟨hw.tested e (hsplit ▸ by simp), ?_, ?_⟩
    · intro hre hsv hf
      apply hpast ((delivers_iff e).mpr (.inr ⟨hre, hsv, hf⟩))
      intro hm
      exact not_wants_of_filterFails hf ((hx.called pre e post hsplit).mp hm).1
    · intro hwant hok
      by_cases hm : e ∈ r0.called
      · exact .inl (hw.added e (hcalled ▸ hm) hok)
      · exact .inr (hpast ((delivers_iff e).mpr (.inl hwant)) hm)

/-- A post for which every subscription is sound calls just those that want it. -/
theorem exact_of_sound {s : Subscribers}
    (hsound : ∀ pre e post, s.list = pre ++ e :: post → Sound p pre e) :
    ∃ r, processPostage p s.list = .ok r ∧ Exact p s.list r := by
  have hnone (k : String) : k ∈ ([] : List String) ↔ ServedIn p [] k := by simp [ServedIn]
  obtain ⟨⟨r0, hl⟩, hwant⟩ :=
    postLoop_returns s.listed hnone hsound
  have hw := walked s.listed hl
  have hcalled : r0.called = served p [] s.list := by simpa using hw.called
  refine ⟨⟨true, r0.numdisp + returned p.reached, r0.subscribers, r0.called, p.reached⟩,
    by rw [processPostage, hl], ?_⟩
  constructor
  · dsimp only
    rw [hcalled]
    exact once_sublist [] s.list
  · intro pre e post hsplit
    have hiff := mem_served_iff (p := p) (hsplit ▸ s.nodup)
    rw [← hsplit, ← hcalled] at hiff
    rw [hiff, delivers_iff]
    constructor
    · rintro ⟨hd, hpre⟩
      refine ⟨hwant e ?_, hpre⟩
      exact hcalled ▸ hiff.mpr ⟨(delivers_iff e).mpr hd, hpre⟩
    · rintro ⟨hd, hpre⟩
      exact ⟨.inl hd, hpre⟩
  · rfl
  · have hn := hw.numdisp
    simp [hn, hcalled]
  · have hs := hw.subscribers
    simp [hs, hcalled]

/-- An event reaches exactly its subscribers as long as every filter can be evaluated, or the
service was called before, and the table of called services can be extended. -/
theorem event_reaches_subscribers_iff (p : Post) (s : Subscribers) :
    (∃ r, processPostage p s.list = .ok r ∧ Exact p s.list r) ↔
      ∀ pre e post, s.list = pre ++ e :: post → Sound p pre e := by
  constructor
  · rintro ⟨_, hr, hx⟩ _ _ _ hsplit
    exact sound_of_exact hr hx hsplit
  · exact exact_of_sound

def filterReq : SubsReq where
  evMask := some (some ".*")
  evFilter := some (some "[")
  tpevservice := some true
  tpevpersist := false
  evSrvcnm := some "SVC"
  myId := "clt"
  compiles := true

def filterSubs : Subscribers := (tpevsubs filterReq .init).1

def samplePost (data : Option BufType) : Post where
  data := data
  regexec := fun _ => true
  bboolco := fun _ => true
  bboolev := fun _ => some true
  regcomp := fun _ => 7
  bufRegexec := fun _ => false
  tpacallex := fun _ => .ok
  hashAdd := fun _ => true
  dispatchOverBridges := false
  nodesconnected := none
  tpalloc := fun _ => true
  tpcallex := fun _ => none

/-- An event without data ends the broker at a filter; with a string, the service of a filter that
does not compile is called. -/
theorem filter_not_tested : processPostage (samplePost none) filterSubs.list = .error .nullCall ∧
    ¬ ∃ r, processPostage (samplePost (some .string)) filterSubs.list = .ok r ∧
      Exact (samplePost (some .string)) filterSubs.list r := by
  have hnull : processPostage (samplePost none) filterSubs.list = .error .nullCall := by decide
  refine ⟨hnull, ?_⟩
  rintro ⟨r, hr, hx⟩
  have hcalled : r.called = filterSubs.list := by
    have h : (processPostage (samplePost (some .string)) filterSubs.list).map (·.called) =
        .ok filterSubs.list := by decide
    rw [hr] at h
    exact Except.ok.inj h
  obtain ⟨hw, -⟩ := (hx.called [] (filterReq.entry ".*" "[" "SVC" 0) [] rfl).mp
    (hcalled ▸ mem_singleton_self _)
  refine not_wants_of_filterFails ⟨by decide, .stringTest, rfl, ?_⟩ hw
  decide

end Endurox.Ev
