import Endurox.BaseOnce

/-! The event broker (`tpevsrv/tpevsv.c`): the list of subscriptions and the posting of an event
to those that match it, on this node and over the bridges. -/

namespace Endurox.Ev

structure EventEntry where
  eventexpr : String
  filter : String
  name1 : String
  tpevservice : Bool
  tpevpersist : Bool
  subscriberNr : ℕ
  myId : String
  deriving DecidableEq

def unsubscribes (subscription : Int) (myId : Option String) (elt : EventEntry) : Bool :=
  (subscription == -1 && !elt.tpevpersist && (myId.isNone || myId == some elt.myId)) ||
    subscription == elt.subscriberNr

def removeByMyId (subscription : Int) (myId : Option String) (subs : List EventEntry) :
    List EventEntry × ℕ :=
  (subs.filter (fun elt => !unsubscribes subscription myId elt),
    subs.countP (unsubscribes subscription myId))

inductive PfTest
  | ubfTest
  | stringTest
  | carrayTest
  | jsonTest
  | viewTest
  deriving DecidableEq

inductive BufType
  | ubf
  | init
  | null
  | string
  | carray
  | json
  | view
  deriving DecidableEq

def BufType.typeId : BufType → ℕ
  | ubf => 0
  | init => 2
  | null => 3
  | string => 4
  | carray => 5
  | json => 6
  | view => 7

structure TypedBufferDescr where
  typeId : ℕ
  type : String
  pfTest : Option PfTest

def gBufDescr : List TypedBufferDescr :=
  [⟨0, "UBF", some .ubfTest⟩, ⟨0, "UBF32", some .ubfTest⟩, ⟨2, "TPINIT", none⟩, ⟨3, "NULL", none⟩,
   ⟨4, "STRING", some .stringTest⟩,
   ⟨5, "CARRAY", some .carrayTest⟩,
   ⟨6, "JSON", some .jsonTest⟩,
   ⟨7, "VIEW", some .viewTest⟩]

inductive Sent
  | ok
  | failed (tperrno : Int)
  deriving DecidableEq

def tpeblock : Int := 3

/-- A posted event: its buffer, and how masks, filters, calls and allocations come out for it. -/
structure Post where
  data : Option BufType
  regexec : EventEntry → Bool
  bboolco : String → Bool
  bboolev : String → Option Bool
  regcomp : String → Int
  bufRegexec : String → Bool
  tpacallex : EventEntry → Sent
  hashAdd : EventEntry → Bool
  dispatchOverBridges : Bool
  nodesconnected : Option (List ℕ)
  tpalloc : ℕ → Bool
  tpcallex : ℕ → Option Int

inductive Fault
  | nullCall
  | usedAfterFree
  deriving DecidableEq

structure Run where
  subscribers : List EventEntry
  dupChk : List String
  numdisp : Int
  called : List EventEntry
  deriving DecidableEq

inductive Stop
  | fault (f : Fault)
  | out (r : Run)
  deriving DecidableEq

structure Posted where
  success : Bool
  numdisp : Int
  subscribers : List EventEntry
  called : List EventEntry
  nodes : List (ℕ × Option Int)
  deriving DecidableEq

section

variable (p : Post)

def Post.bufType : BufType := p.data.getD .null

def Post.descrTest : Option PfTest := gBufDescr[p.bufType.typeId]?.bind (·.pfTest)

def ubfTest (expr : String) : Int :=
  -- Bboolev of a NULL tree is an error
  if p.bboolco expr then
    match p.bboolev expr with
    | some true => 1
    | some false => 0
    | none => -1
  else -1

def regexTest (expr : String) : Int :=
  if p.regcomp expr = 0 then
    if p.bufRegexec expr then 1 else 0
  else p.regcomp expr

def stringTest (expr : String) : Int := regexTest p expr

def jsonTest (expr : String) : Int := regexTest p expr

def carrayTest (_expr : String) : Int := 0

def viewTest (_expr : String) : Int := 0

def pfTest : PfTest → String → Int
  | .ubfTest => ubfTest p
  | .stringTest => stringTest p
  | .carrayTest => carrayTest
  | .jsonTest => jsonTest p
  | .viewTest => viewTest

/-- The filter condition of the loop; `none` is the call of a NULL function pointer. -/
def filterPasses (elt : EventEntry) : Option Bool :=
  if elt.filter = "" then some true
  else p.descrTest.map (fun t => pfTest p t elt.filter != 0)

def callService (elt : EventEntry) (r : Run) : Except Stop Run :=
  if elt.name1 ∈ r.dupChk then .ok r
  else
    match p.tpacallex elt with
    | .failed tperrno =>
      if tperrno ≠ tpeblock then
        .ok { r with
          called := r.called ++ [elt]
          subscribers := (removeByMyId elt.subscriberNr none r.subscribers).1 }
      else .ok { r with called := r.called ++ [elt] }
    | .ok =>
      if p.hashAdd elt then
        .ok { r with
          called := r.called ++ [elt]
          dupChk := elt.name1 :: r.dupChk
          numdisp := r.numdisp+1 }
      else .error (.out { r with called := r.called ++ [elt] })

def postEntry (elt : EventEntry) (r : Run) : Except Stop Run :=
  if p.regexec elt then
    match filterPasses p elt with
    | none => .error (.fault .nullCall)
    | some false => .ok r
    | some true => if elt.tpevservice then callService p elt r else .ok r
  else .ok r

/-- `DL_FOREACH_SAFE` over the subscriptions from `elt` on: the next one is taken before the body
runs and must still be there after it. -/
def postLoop : List EventEntry → Run → Except Stop Run
  | [], r => .ok r
  | elt :: rest, r =>
    if elt ∈ r.subscribers then
      match postEntry p elt r with
      | .error s => .error s
      | .ok r' =>
        if (rest.find? (· ∈ r.subscribers)).all (· ∈ r'.subscribers) then postLoop rest r'
        else .error (.fault .usedAfterFree)
    else postLoop rest r

def postNodes : List ℕ → List (ℕ × Option Int)
  | [] => []
  | nodeid :: nodes =>
    if p.tpalloc nodeid then (nodeid, p.tpcallex nodeid) :: postNodes nodes else []

def Post.reached : List (ℕ × Option Int) :=
  if p.dispatchOverBridges then postNodes p (p.nodesconnected.getD []) else []

def returned (nodes : List (ℕ × Option Int)) : Int :=
  nodes.foldl (fun numdisp node => numdisp + node.2.getD 0) 0

def processPostage (subs : List EventEntry) : Except Fault Posted :=
  match postLoop p subs ⟨subs, [], 0, []⟩ with
  | .ok r => .ok ⟨true, r.numdisp + returned p.reached, r.subscribers, r.called, p.reached⟩
  | .error (.out r) => .ok ⟨false, r.numdisp, r.subscribers, r.called, []⟩
  | .error (.fault f) => .error f

end

section

theorem unsubscribes_own (nr : ℕ) (elt : EventEntry) :
    unsubscribes nr none elt = decide (elt.subscriberNr = nr) := by
  have h : ((nr : Int) == -1) = false := beq_eq_false_iff_ne.mpr (by omega)
  have hnr : ((nr : Int) == elt.subscriberNr) = decide (elt.subscriberNr = nr) := by
    exact decide_eq_decide.mpr (Int.natCast_inj.trans eq_comm)
  rw [unsubscribes, h, Bool.false_and, Bool.false_and, Bool.false_or, hnr]

theorem removeByMyId_sublist (subscription : Int) (myId : Option String) (subs : List EventEntry) :
    (removeByMyId subscription myId subs).1.Sublist subs :=
  List.filter_sublist

theorem removeByMyId_own {subs : List EventEntry} {elt : EventEntry}
    (hnum : ∀ e ∈ subs, e.subscriberNr = elt.subscriberNr → e = elt) :
    (removeByMyId elt.subscriberNr none subs).1 = subs.filter (· ≠ elt) := by
  refine List.filter_congr ?_
  intro e he
  rw [unsubscribes_own]
  have : e.subscriberNr = elt.subscriberNr ↔ e = elt := ⟨hnum e he, fun h => h ▸ rfl⟩
  simp [this]

/-- The subscriptions and the counter of `TPEVSUBS`, which numbers them in the order of the list. -/
structure Subscribers where
  list : List EventEntry
  next : ℕ
  numbered : list.Pairwise (fun e e' => e.subscriberNr < e'.subscriberNr)
  below : ∀ e ∈ list, e.subscriberNr < next

def Subscribers.init : Subscribers := ⟨[], 0, List.Pairwise.nil, List.forall_mem_nil _⟩

def Subscribers.restrict (s : Subscribers) (l : List EventEntry) (h : l.Sublist s.list) :
    Subscribers :=
  ⟨l, s.next, s.numbered.sublist h, fun e he => s.below e (h.subset he)⟩

theorem Subscribers.eq_of_number (s : Subscribers) {e e' : EventEntry} (he : e ∈ s.list)
    (he' : e' ∈ s.list) (h : e.subscriberNr = e'.subscriberNr) : e = e' := by
  have hnd : (s.list.map (·.subscriberNr)).Nodup :=
    List.pairwise_map.mpr (s.numbered.imp Nat.ne_of_lt)
  exact List.inj_on_of_nodup_map hnd he he' h

theorem Subscribers.nodup (s : Subscribers) : s.list.Nodup :=
  s.numbered.imp (fun h e => absurd (e ▸ h) (Nat.lt_irrefl _))

/-- The fields of a request to `TPEVSUBS`; a present field that cannot be read is `some none`. -/
structure SubsReq where
  evMask : Option (Option String)
  evFilter : Option (Option String)
  tpevservice : Option Bool
  tpevpersist : Bool
  evSrvcnm : Option String
  myId : String
  compiles : Bool

def SubsReq.entry (req : SubsReq) (mask filter name1 : String) (nr : ℕ) : EventEntry :=
  ⟨mask, filter, name1, true, req.tpevpersist, nr, req.myId⟩

def SubsReq.accepted (req : SubsReq) (nr : ℕ) : Option EventEntry :=
  (req.evMask.getD (some "")).bind fun mask =>
    (req.evFilter.getD (some "")).bind fun filter =>
      req.tpevservice.bind fun tpevservice =>
        if tpevservice then
          req.evSrvcnm.bind fun name1 =>
            if req.compiles then some (req.entry mask filter name1 nr) else none
        else none

theorem SubsReq.accepted_number {req : SubsReq} {nr : ℕ} {e : EventEntry}
    (h : req.accepted nr = some e) : e.subscriberNr = nr := by
  simp only [SubsReq.accepted, Option.bind_eq_some_iff] at h
  obtain ⟨_, -, _, -, _, -, h⟩ := h
  split at h
  · obtain ⟨_, -, h⟩ := Option.bind_eq_some_iff.mp h
    split at h
    · cases h
      rfl
    · cases h
  · cases h

theorem numbered_append {l : List EventEntry} {e : EventEntry}
    (hl : l.Pairwise (fun e e' => e.subscriberNr < e'.subscriberNr))
    (he : ∀ e' ∈ l, e'.subscriberNr < e.subscriberNr) :
    (l ++ [e]).Pairwise (fun e e' => e.subscriberNr < e'.subscriberNr) := by
  refine List.pairwise_append.mpr ⟨hl, List.pairwise_singleton _ e, ?_⟩
  intro a ha b hb
  rw [List.mem_singleton.mp hb]
  exact he a ha

def Subscribers.append (s : Subscribers) (e : EventEntry) (h : e.subscriberNr = s.next) :
    Subscribers where
  list := s.list ++ [e]
  next := s.next+1
  numbered := numbered_append s.numbered (fun e' he' => h ▸ s.below e' he')
  below := by
    intro e' he'
    rcases List.mem_append.mp he' with he' | he'
    · exact Nat.lt_succ_of_lt (s.below e' he')
    · rw [List.mem_singleton.mp he', h]
      exact Nat.lt_succ_self s.next

def tpevsubs (req : SubsReq) (s : Subscribers) : Subscribers × Bool × ℕ :=
  match h : req.accepted s.next with
  | some e => (s.append e (SubsReq.accepted_number h), true, s.next)
  | none => (s, false, 0)

end

variable {p : Post}

def Run.afterCall (p : Post) (elt : EventEntry) (r : Run) : Run where
  subscribers :=
    match p.tpacallex elt with
    | .ok => r.subscribers
    | .failed e =>
      if e ≠ tpeblock then (removeByMyId elt.subscriberNr none r.subscribers).1 else r.subscribers
  dupChk := if p.tpacallex elt = .ok then elt.name1 :: r.dupChk else r.dupChk
  numdisp := if p.tpacallex elt = .ok then r.numdisp+1 else r.numdisp
  called := r.called ++ [elt]

def delivers (p : Post) (elt : EventEntry) : Bool :=
  p.regexec elt && elt.tpevservice && filterPasses p elt == some true

theorem callService_served {elt : EventEntry} {r : Run} (hdup : elt.name1 ∉ r.dupChk) :
    callService p elt r = if p.tpacallex elt = .ok ∧ p.hashAdd elt = false
        then .error (.out { r with called := r.called ++ [elt] })
      else .ok (r.afterCall p elt) := by
  rw [callService, if_neg hdup, Run.afterCall]
  cases hc : p.tpacallex elt with
  | ok => cases p.hashAdd elt <;> simp
  | failed e => by_cases he : e = tpeblock <;> simp [he]

/-- A subscription is skipped or its service is called; a filter for a buffer type that has no test
is a null call. -/
theorem postEntry_cases (elt : EventEntry) (r : Run) :
    (p.regexec elt ∧ elt.filter ≠ "" ∧ p.descrTest = none ∧
      postEntry p elt r = .error (.fault .nullCall)) ∨
    ((p.regexec elt → elt.filter ≠ "" → p.descrTest ≠ none) ∧
      ((delivers p elt → elt.name1 ∈ r.dupChk) ∧ postEntry p elt r = .ok r ∨
        delivers p elt ∧ elt.name1 ∉ r.dupChk ∧ postEntry p elt r = callService p elt r)) := by
  by_cases hre : p.regexec elt
  · cases hf : filterPasses p elt with
    | none =>
      left
      have hfilter : elt.filter ≠ "" := by
        intro h
        simp [filterPasses, h] at hf
      have htest : p.descrTest = none := by
        simpa [filterPasses, hfilter] using hf
      exact ⟨hre, hfilter, htest, by simp [postEntry, hre, hf]⟩
    | some b =>
      right
      have htest : elt.filter ≠ "" → p.descrTest ≠ none := by
        intro hfilter h
        simp [filterPasses, hfilter, h] at hf
      refine ⟨fun _ => htest, ?_⟩
      by_cases hs : b ∧ elt.tpevservice ∧ elt.name1 ∉ r.dupChk
      · right
        refine ⟨by simp [delivers, hre, hf, hs.1, hs.2.1], hs.2.2, ?_⟩
        simp [postEntry, hre, hf, hs.1, hs.2.1]
      left
      constructor
      · intro hd
        by_contra hdup
        simp only [delivers, hre, hf, Bool.true_and, Bool.and_eq_true, beq_iff_eq,
          Option.some.injEq] at hd
        exact hs ⟨hd.2, hd.1, hdup⟩
      · cases b with
        | false => simp [postEntry, hf]
        | true =>
          by_cases hsv : elt.tpevservice
          · have hdup : elt.name1 ∈ r.dupChk := by
              by_contra hdup
              exact hs ⟨rfl, hsv, hdup⟩
            simp [postEntry, hf, callService, hdup]
          · simp [postEntry, hf, hsv]
  · right
    refine ⟨fun h => absurd h hre, .inl ⟨?_, by simp [postEntry, hre]⟩⟩
    intro hd
    simp [delivers, hre] at hd

end Endurox.Ev
