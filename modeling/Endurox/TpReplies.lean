import Endurox.BaseCInt
import Mathlib.Data.List.Nodup
import Mathlib.Data.List.Pairwise
import Mathlib.Data.List.Perm.Basic

/-! Asynchronous calls and their replies, `tpcall.c`: the table of call descriptors of a thread, the
replies it keeps in memory, `tpacall` and `tpgetrply`. A reply's payload has type `α`, what the caller
gets of it type `β`. The request queues, the reply queue and the clock are the environment; the part
of a transaction in a call is left out, but for the registration that can fail. -/

namespace Endurox.TpCall
open List Function

def maxAsyncCalls : ℕ := 16384

def tpebaddesc : Int := 2
def tpeblock : Int := 3
def tpeinval : Int := 4
def tpeos : Int := 7
def tpesvcfail : Int := 11
def tpetime : Int := 13
def tpsuccess : Int := 2

inductive Status
  | notIssued | waitingForAns | canceled
  deriving DecidableEq

structure Slot where
  status : Status
  timestamp : Int
  callseq : BitVec 32
  notime : Bool
  toutEff : Int
  deriving DecidableEq

/-- What identifies a call in a request and in its reply. -/
structure Key where
  cd : ℕ
  timestamp : Int
  callseq : BitVec 32
  deriving DecidableEq

structure Reply (α : Type) where
  key : Key
  replyError : Bool
  rval : Int
  rcode : Int
  data : α
  deriving DecidableEq

structure Tls (α : Type) where
  gCallState : ℕ → Slot
  tpcallGetCd : ℕ
  memq : List (Reply α)

variable {α β : Type}

def Tls.waiting (s : Tls α) (cd : ℕ) : Prop := (s.gCallState cd).status = .waitingForAns

instance (s : Tls α) (cd : ℕ) : Decidable (s.waiting cd) := by
  unfold Tls.waiting
  infer_instance

def Tls.keyAt (s : Tls α) (cd : ℕ) : Key := ⟨cd, (s.gCallState cd).timestamp, (s.gCallState cd).callseq⟩

def unlockCallDescriptor (s : Tls α) (cd : ℕ) (status : Status) : Tls α :=
  {s with gCallState := update s.gCallState cd {s.gCallState cd with status := status}}

def nextCd (cd : ℕ) : ℕ := if cd+1 > maxAsyncCalls-1 then 1 else cd+1

def seekCd (s : Tls α) (startCd : ℕ) : ℕ → ℕ → ℕ
  | 0, cd => cd
  | fuel+1, cd =>
    if s.waiting cd then
      if startCd = nextCd cd then nextCd cd else seekCd s startCd fuel (nextCd cd)
    else cd

/-- The arguments of `ndrx_tpacall` that matter here, the time of the call, whether the descriptor can
be registered under the transaction, and whether the request queue takes the message. -/
structure AcallArgs where
  noreply : Bool
  notime : Bool
  toutEff : Int
  timestamp : Int
  registered : Bool
  queued : Bool

/-- What a call leaves behind: the descriptor returned, the thread, the shared counter, the key a
descriptor was locked with, and whether the request is on its way. -/
structure Acall (α : Type) where
  ret : Option ℕ
  tls : Tls α
  sharedCallseq : BitVec 32
  locked : Option Key
  sent : Bool

/-- `get_call_descriptor_and_lock`: without a free descriptor nothing is locked. -/
def getCallDescriptorAndLock (a : AcallArgs) (seq : BitVec 32) (s : Tls α) : Acall α :=
  let cd := seekCd s s.tpcallGetCd maxAsyncCalls s.tpcallGetCd
  let s := {s with tpcallGetCd := cd}
  if s.waiting cd then ⟨none, s, seq, none, false⟩
  else
    let slot : Slot := ⟨.waitingForAns, a.timestamp, seq+1, a.notime, a.toutEff⟩
    ⟨if a.registered then some cd else none,
      {s with gCallState := update s.gCallState cd slot}, seq+1,
      some ⟨cd, a.timestamp, seq+1⟩, false⟩

def ndrxTpacall (a : AcallArgs) (seq : BitVec 32) (s : Tls α) : Acall α :=
  if a.noreply then
    if a.queued then ⟨some 0, s, seq, none, true⟩
    else ⟨none, unlockCallDescriptor s 0 .notIssued, seq, none, false⟩
  else
    let r := getCallDescriptorAndLock a seq s
    match r.ret with
    | none => r
    | some cd =>
      if a.queued then {r with sent := true}
      else {r with ret := none, tls := unlockCallDescriptor r.tls cd .notIssued}

def callCheckTout (s : Tls α) (now : Int) (cd : ℕ) : Prop :=
  s.waiting cd ∧ (s.gCallState cd).notime = false ∧
    (s.gCallState cd).toutEff < Base.wrap32 (now-(s.gCallState cd).timestamp)

instance (s : Tls α) (now : Int) (cd : ℕ) : Decidable (callCheckTout s now cd) := by
  unfold callCheckTout
  infer_instance

/-- `call_scan_tout`: the expired call that is found first is cancelled. Nothing is looked at before
the scan is due; `now` is the clock at each of the checks. -/
def callScanTout (s : Tls α) (due : Bool) (now : ℕ → Int) (cds : List ℕ) : Tls α × Option ℕ :=
  if due then
    match cds.find? (fun cd => callCheckTout s (now cd) cd) with
    | some cd => (unlockCallDescriptor s cd .canceled, some cd)
    | none => (s, none)
  else (s, none)

/-- The arguments of `tpgetrply`; `prepare` is what `ndrx_mbuf_prepare_incoming` makes of a payload
with the caller's buffer and flags. -/
structure Args (α β : Type) where
  cd : ℕ
  getany : Bool
  noblock : Bool
  prepare : α → Except Int β

/-- What `tpgetrply` leaves behind: `cd` is the caller's variable, `rply` the reply it has taken as the
answer. -/
structure Out (α β : Type) where
  ok : Bool
  tperrno : Option Int
  cd : ℕ
  data : Option β
  rply : Option (Reply α)

inductive Incoming (α : Type)
  | notif (data : α)
  | reply (r : Reply α)

inductive Pass (α : Type)
  | got (m : Incoming α)
  | noData (due : Bool) (now : ℕ → Int)
  | timedOut (due : Bool) (now : ℕ → Int)
  | failed

def rmFrmMemq (a : Args α β) (memq : List (Reply α)) : Option (Reply α × List (Reply α)) :=
  if a.getany then
    match memq with
    | [] => none
    | r :: memq => some (r, memq)
  else
    (memq.find? (fun r => r.key.cd = a.cd)).map fun r => (r, memq.eraseP (fun r => r.key.cd = a.cd))

def Tls.expects (s : Tls α) (r : Reply α) : Prop := s.waiting r.key.cd ∧ s.keyAt r.key.cd = r.key

instance (s : Tls α) (r : Reply α) : Decidable (s.expects r) := by
  unfold Tls.expects
  infer_instance

def answer (a : Args α β) (r : Reply α) : Out α β :=
  if r.replyError then ⟨false, some r.rcode, r.key.cd, none, some r⟩
  else
    match a.prepare r.data with
    | .error err => ⟨false, some err, r.key.cd, none, some r⟩
    | .ok data =>
      if r.rval ≠ tpsuccess then ⟨false, some tpesvcfail, r.key.cd, some data, some r⟩
      else ⟨true, none, r.key.cd, some data, some r⟩

def handleReply (a : Args α β) (s : Tls α) (r : Reply α) : Option (Out α β) × Tls α :=
  if s.expects r then
    if a.getany = false ∧ r.key.cd ≠ a.cd then (none, {s with memq := s.memq ++ [r]})
    else (some (answer a r), unlockCallDescriptor s r.key.cd .notIssued)
  else (none, s)

def failure (err : Int) (cd : ℕ) : Out α β := ⟨false, some err, cd, none, none⟩

def Args.scanned (a : Args α β) : List ℕ :=
  if a.getany then range' 1 (maxAsyncCalls-1) else [a.cd]

/-- The loop of `ndrx_tpgetrply`: memory first, then the queue. Passes that are not needed are given
back, and when they run out the call still waits. -/
def getrplyLoop (a : Args α β) : ℕ → Tls α → List (Pass α) → Option (Out α β × Tls α × List (Pass α))
  | 0, _, _ => none
  | fuel+1, s, ps =>
    match rmFrmMemq a s.memq with
    | some (r, memq) =>
      match handleReply a {s with memq := memq} r with
      | (some out, s) => some (out, s, ps)
      | (none, s) => getrplyLoop a fuel s ps
    | none =>
      match ps with
      | [] => none
      | .got (.notif _) :: ps => getrplyLoop a fuel s ps
      | .got (.reply r) :: ps =>
        match handleReply a s r with
        | (some out, s) => some (out, s, ps)
        | (none, s) => getrplyLoop a fuel s ps
      | .noData due now :: ps =>
        match if a.noblock then callScanTout s due now a.scanned else (s, none) with
        | (s, some cd) => some (failure tpetime cd, s, ps)
        | (s, none) => some (failure tpeblock a.cd, s, ps)
      | .timedOut due now :: ps =>
        match callScanTout s due now a.scanned with
        | (s, some cd) => some (failure tpetime cd, s, ps)
        | (s, none) => some (failure tpetime a.cd, s, ps)
      | .failed :: ps => some (failure tpeos a.cd, s, ps)

/-- `tpgetrply`. Each turn of the loop uses up a reply kept in memory or a pass, which may put one
there. -/
def tpgetrply (a : Args α β) (s : Tls α) (ps : List (Pass α)) :
    Option (Out α β × Tls α × List (Pass α)) :=
  if a.getany = false ∧ (a.cd = 0 ∨ maxAsyncCalls ≤ a.cd) then some (failure tpeinval a.cd, s, ps)
  else if a.getany = false ∧ ¬ s.waiting a.cd then some (failure tpebaddesc a.cd, s, ps)
  else getrplyLoop a (s.memq.length+2*ps.length+1) s ps

/-- A call that has locked a descriptor: its number in the process, its key, and whether the request
is on its way. -/
structure Made where
  no : ℕ
  key : Key
  sent : Bool

/-- `seq` counts the calls of the process, `owner` tells which call has last locked a descriptor,
`replied` lists the calls that have been replied to, `net` the replies that are on their way or in the
queue, `returned` those that `tpgetrply` has returned. -/
structure Sys (α : Type) where
  tls : Tls α
  seq : ℕ
  calls : List Made
  owner : ℕ → ℕ
  replied : List ℕ
  net : List (Reply α)
  returned : List (Reply α)

def repliesOf (ps : List (Pass α)) : List (Reply α) :=
  ps.filterMap fun
    | .got (.reply r) => some r
    | _ => none

/-- After the counter has come to `n`, fewer than 2^32 calls have been made since any that is still
waiting or whose reply is on its way. -/
def Within (origin : α → Option ℕ) (s : Sys α) (n : ℕ) : Prop :=
  ∀ m ∈ s.calls, ((∃ cd, s.tls.waiting cd ∧ s.owner cd = m.no) ∨ ∃ r ∈ s.net, origin r.data = some m.no) →
    n < m.no+2^32

/-- What can happen. `origin` tells of a reply's payload which call of the thread it was sent to, if
any; `Foreign` are the keys of other replies. -/
inductive Step (origin : α → Option ℕ) (Foreign : Key → Prop) (s : Sys α) : Sys α → Prop
  /-- The counter is shared with the other threads. -/
  | others {n} (hn : s.seq ≤ n) (hwithin : Within origin s n) : Step origin Foreign s {s with seq := n}
  | acall {a : AcallArgs} {r : Acall α} (h : ndrxTpacall a (BitVec.ofNat 32 s.seq) s.tls = r)
      (hnone : r.locked = none) : Step origin Foreign s {s with tls := r.tls}
  | acallLocked {a : AcallArgs} {r : Acall α} {key} (h : ndrxTpacall a (BitVec.ofNat 32 s.seq) s.tls = r)
      (hsome : r.locked = some key) (hwithin : Within origin s (s.seq+1)) (hown : ¬ Foreign key) :
      Step origin Foreign s {s with
        tls := r.tls
        seq := s.seq+1
        calls := ⟨s.seq+1, key, r.sent⟩ :: s.calls
        owner := update s.owner key.cd (s.seq+1)}
  | reply {m : Made} {r : Reply α} (hm : m ∈ s.calls) (hsent : m.sent = true) (hfirst : m.no ∉ s.replied)
      (hkey : r.key = m.key) (horigin : origin r.data = some m.no) (hin : s.seq < m.no+2^32) :
      Step origin Foreign s {s with net := r :: s.net, replied := m.no :: s.replied}
  | foreign {r : Reply α} (horigin : origin r.data = none) (hkey : Foreign r.key) :
      Step origin Foreign s {s with net := r :: s.net}
  | getrply {β : Type} {a : Args α β} {ps out tls net} (h : tpgetrply a s.tls ps = some (out, tls, []))
      (hnet : s.net.Perm (repliesOf ps ++ net)) :
      Step origin Foreign s {s with tls := tls, net := net, returned := s.returned ++ out.rply.toList}

structure Start (s : Sys α) : Prop where
  getCd : s.tls.tpcallGetCd = maxAsyncCalls-2
  idle : ∀ cd, ¬ s.tls.waiting cd
  memq : s.tls.memq = []
  nothing : s.calls = [] ∧ s.replied = [] ∧ s.net = [] ∧ s.returned = []

structure Inv (origin : α → Option ℕ) (Foreign : Key → Prop) (s : Sys α) : Prop where
  getCd : 0 < s.tls.tpcallGetCd ∧ s.tls.tpcallGetCd < maxAsyncCalls
  range : ∀ cd, s.tls.waiting cd → 0 < cd ∧ cd < maxAsyncCalls
  numbered : ∀ m ∈ s.calls, m.no ≤ s.seq ∧ m.key.callseq = BitVec.ofNat 32 m.no ∧ ¬ Foreign m.key
  unique : ∀ m ∈ s.calls, ∀ m' ∈ s.calls, m.no = m'.no → m = m'
  owned : ∀ cd, s.tls.waiting cd →
    ∃ m ∈ s.calls, m.no = s.owner cd ∧ m.key = s.tls.keyAt cd ∧ s.seq < m.no+2^32
  replied : ∀ n ∈ s.replied, ∃ m ∈ s.calls, m.no = n
  net : ∀ r ∈ s.net, origin r.data = none ∧ Foreign r.key ∨
    ∃ m ∈ s.calls, origin r.data = some m.no ∧ r.key = m.key ∧ m.no ∈ s.replied ∧ s.seq < m.no+2^32
  memq : ∀ r ∈ s.tls.memq, s.tls.expects r ∧ origin r.data = some (s.owner r.key.cd) ∧
    s.owner r.key.cd ∈ s.replied
  returned : ∀ r ∈ s.returned, ∃ n ∈ s.replied, origin r.data = some n
  once : ((s.net ++ s.tls.memq ++ s.returned).filterMap (fun r => origin r.data)).Nodup
  kept : ∀ cd, s.tls.waiting cd → s.owner cd ∈ s.replied →
    ∃ r ∈ s.net ++ s.tls.memq, origin r.data = some (s.owner cd)

variable {cd : ℕ} {s : Tls α}

theorem waiting_unlock {c : ℕ} {st : Status} (hst : st ≠ .waitingForAns) :
    (unlockCallDescriptor s cd st).waiting c ↔ c ≠ cd ∧ s.waiting c := by
  unfold Tls.waiting unlockCallDescriptor
  by_cases h : c = cd
  · subst h
    simp [hst]
  · simp [h]

theorem keyAt_unlock (s : Tls α) (cd c : ℕ) (st : Status) :
    (unlockCallDescriptor s cd st).keyAt c = s.keyAt c := by
  unfold Tls.keyAt unlockCallDescriptor
  by_cases h : c = cd
  · subst h
    simp
  · simp [update_of_ne h]

theorem expects_unlock {st : Status} {r : Reply α} (hst : st ≠ .waitingForAns) :
    (unlockCallDescriptor s cd st).expects r ↔ r.key.cd ≠ cd ∧ s.expects r := by
  rw [Tls.expects, Tls.expects, waiting_unlock hst, keyAt_unlock, and_assoc]

variable {memq : List (Reply α)}

section

variable {origin : α → Option ℕ} {Foreign : Key → Prop} {s : Sys α} {r : Reply α}

theorem Inv.origin_of_expects (h : Inv origin Foreign s) (hr : r ∈ s.net) (he : s.tls.expects r) :
    origin r.data = some (s.owner r.key.cd) ∧ s.owner r.key.cd ∈ s.replied := by
  obtain ⟨m, hm, hno, hkey, _⟩ := h.owned r.key.cd he.1
  have hmr : m.key = r.key := hkey.trans he.2
  rcases h.net r hr with ⟨-, hforeign⟩ | ⟨m', hm', horigin, hkey', hrep, _⟩
  · exact absurd (hmr ▸ hforeign) (h.numbered m hm).2.2
  -- both numbers are among the last 2^32, and agree in 32 bits
  have hseq : BitVec.ofNat 32 m.no = BitVec.ofNat 32 m'.no := by
    rw [← (h.numbered m hm).2.1, ← (h.numbered m' hm').2.1, hmr, hkey']
  have hmod : m.no % 2^32 = m'.no % 2^32 := by
    have := congrArg BitVec.toNat hseq
    rwa [BitVec.toNat_ofNat, BitVec.toNat_ofNat] at this
  have hle := (h.numbered m hm).1
  have hle' := (h.numbered m' hm').1
  have heq : m.no = m'.no := by omega
  rw [← hno, heq]
  exact ⟨horigin, hrep⟩

theorem Inv.expects_of_origin (h : Inv origin Foreign s) (hr : r ∈ s.net)
    (hw : s.tls.waiting cd) (horigin : origin r.data = some (s.owner cd)) : s.tls.expects r := by
  obtain ⟨m, hm, hno, hkey, -⟩ := h.owned cd hw
  rcases h.net r hr with ⟨hnone, -⟩ | ⟨m', hm', horigin', hkey', -, -⟩
  · rw [hnone] at horigin
    cases horigin
  · have hmm : m' = m := h.unique m' hm' m hm
      (Option.some.inj (horigin'.symm.trans horigin) |>.trans hno.symm)
    have hrkey : r.key = s.tls.keyAt cd := by rw [hkey', hmm, hkey]
    have hcd : r.key.cd = cd := congrArg Key.cd hrkey
    exact ⟨hcd ▸ hw, hcd ▸ hrkey.symm⟩

theorem Inv.replied_of_origin (h : Inv origin Foreign s) (hr : r ∈ s.net ++ s.tls.memq ++ s.returned) {n : ℕ}
    (ho : origin r.data = some n) : n ∈ s.replied := by
  rcases mem_append.mp hr with hr | hr
  · rcases mem_append.mp hr with hr | hr
    · rcases h.net r hr with ⟨hnone, -⟩ | ⟨_, -, hm, -, hrep, -⟩
      · rw [hnone] at ho
        cases ho
      · cases hm.symm.trans ho
        exact hrep
    · obtain ⟨-, hown, hrep⟩ := h.memq r hr
      cases hown.symm.trans ho
      exact hrep
  · obtain ⟨_, hrep, hn'⟩ := h.returned r hr
    cases hn'.symm.trans ho
    exact hrep

variable {net : List (Reply α)}

variable (h : Inv origin Foreign s)
include h

theorem Inv.of_perm (hnet : s.net.Perm net) :
    Inv origin Foreign {s with net := net} := by
  refine {h with net := ?_, once := ?_, kept := ?_}
  · exact fun r hr => h.net r (hnet.mem_iff.mpr hr)
  · apply (List.Perm.filterMap _ _).nodup_iff.mp h.once
    exact (hnet.append_right _).append_right _
  · intro cd hw hrep
    obtain ⟨r, hr, ho⟩ := h.kept cd hw hrep
    exact ⟨r, (hnet.append_right _).mem_iff.mp hr, ho⟩

theorem Inv.unlock {st : Status} (hst : st ≠ .waitingForAns)
    (hfree : ∀ r ∈ s.tls.memq, r.key.cd ≠ cd) :
    Inv origin Foreign {s with tls := unlockCallDescriptor s.tls cd st} := by
  refine {h with range := ?_, owned := ?_, memq := ?_, kept := ?_}
  · exact fun c hc => h.range c ((waiting_unlock hst).mp hc).2
  · intro c hc
    rw [keyAt_unlock]
    exact h.owned c ((waiting_unlock hst).mp hc).2
  · intro r hr
    obtain ⟨he, ho⟩ := h.memq r hr
    exact ⟨(expects_unlock hst).mpr ⟨hfree r hr, he⟩, ho⟩
  · exact fun c hc => h.kept c ((waiting_unlock hst).mp hc).2

theorem Inv.drop (hnet : s.net = r :: net) (hne : ¬ s.tls.expects r) :
    Inv origin Foreign {s with net := net} := by
  refine {h with net := ?_, once := ?_, kept := ?_}
  · exact fun r' hr' => h.net r' (by rw [hnet]; exact mem_cons_of_mem _ hr')
  · have hsub : (net ++ s.tls.memq ++ s.returned).Sublist (s.net ++ s.tls.memq ++ s.returned) := by
      rw [hnet]
      exact sublist_cons_self _ _
    exact h.once.sublist (hsub.filterMap _)
  · intro cd hw hrep
    obtain ⟨r', hr', ho⟩ := h.kept cd hw hrep
    rw [hnet] at hr'
    rcases mem_cons.mp hr' with rfl | hr'
    · -- it would be the reply to a call that waits
      exact absurd (h.expects_of_origin (by rw [hnet]; exact mem_cons_self) hw ho) hne
    · exact ⟨r', hr', ho⟩

theorem Inv.park (hnet : s.net = r :: net) (he : s.tls.expects r) :
    Inv origin Foreign {s with tls := {s.tls with memq := s.tls.memq ++ [r]}, net := net} := by
  refine {h with net := ?_, memq := ?_, once := ?_, kept := ?_}
  · exact fun r' hr' => h.net r' (by rw [hnet]; exact mem_cons_of_mem _ hr')
  · intro r' hr'
    rcases mem_append.mp hr' with hr' | hr'
    · exact h.memq r' hr'
    · cases mem_singleton.mp hr'
      exact ⟨he, h.origin_of_expects (by rw [hnet]; exact mem_cons_self) he⟩
  · have hperm : (s.net ++ s.tls.memq).Perm (net ++ (s.tls.memq ++ [r])) := by
      rw [hnet, ← append_assoc]
      exact (perm_append_singleton r (net ++ s.tls.memq)).symm
    exact ((hperm.append_right s.returned).filterMap _).nodup_iff.mp h.once
  · intro cd hw hrep
    obtain ⟨r', hr', ho⟩ := h.kept cd hw hrep
    refine ⟨r', ?_, ho⟩
    rw [hnet] at hr'
    simp only [mem_cons, mem_append] at hr' ⊢
    tauto

theorem Inv.accept
    (hsplit : (s.net ++ s.tls.memq).Perm (r :: (net ++ memq))) (hsubn : net ⊆ s.net)
    (hsubm : memq ⊆ s.tls.memq) (he : s.tls.expects r)
    (ho : origin r.data = some (s.owner r.key.cd)) (hrep : s.owner r.key.cd ∈ s.replied) :
    Inv origin Foreign {s with
      tls := unlockCallDescriptor {s.tls with memq := memq} r.key.cd .notIssued
      net := net
      returned := s.returned ++ [r]} := by
  have hst : Status.notIssued ≠ .waitingForAns := by decide
  have hperm : (s.net ++ s.tls.memq ++ s.returned).Perm (net ++ memq ++ (s.returned ++ [r])) := by
    rw [← append_assoc]
    refine (hsplit.append_right s.returned).trans ?_
    exact (perm_append_singleton r (net ++ memq ++ s.returned)).symm
  have honce := (hperm.filterMap fun r => origin r.data).nodup_iff.mp h.once
  -- no other reply to this call
  have hother : ∀ r' ∈ net ++ memq, origin r'.data ≠ some (s.owner r.key.cd) := by
    intro r' hr' heq
    rw [filterMap_append, nodup_append] at honce
    refine honce.2.2 (s.owner r.key.cd) (mem_filterMap.mpr ⟨r', hr', heq⟩) (s.owner r.key.cd) ?_ rfl
    exact mem_filterMap.mpr ⟨r, mem_append_right _ mem_cons_self, ho⟩
  refine ⟨h.getCd, ?_, h.numbered, h.unique, ?_, h.replied, ?_, ?_, ?_, honce, ?_⟩
  · intro c hc
    exact h.range c ((waiting_unlock hst).mp hc).2
  · intro c hc
    rw [keyAt_unlock]
    exact h.owned c ((waiting_unlock hst).mp hc).2
  · intro r' hr'
    exact h.net r' (hsubn hr')
  · intro r' hr'
    obtain ⟨he', ho'⟩ := h.memq r' (hsubm hr')
    refine ⟨(expects_unlock hst).mpr ⟨?_, he'⟩, ho'⟩
    intro hcd
    exact hother r' (mem_append_right _ hr') (hcd ▸ ho'.1)
  · intro r' hr'
    rcases mem_append.mp hr' with hr' | hr'
    · exact h.returned r' hr'
    · cases mem_singleton.mp hr'
      exact ⟨_, hrep, ho⟩
  · intro c hc hrepc
    obtain ⟨hne, hw⟩ := (waiting_unlock hst).mp hc
    obtain ⟨r', hr', ho'⟩ := h.kept c hw hrepc
    rcases mem_cons.mp (hsplit.mem_iff.mp hr') with rfl | hr'
    · -- the reply taken is to another call
      obtain ⟨m, hm, hno, hkey, -⟩ := h.owned c hw
      obtain ⟨m', hm', hno', hkey', -⟩ := h.owned r'.key.cd he.1
      have hmm : m = m' := h.unique m hm m' hm' (by
        rw [hno, hno']
        exact Option.some.inj (ho'.symm.trans ho))
      have hcd : (s.tls.keyAt c).cd = (s.tls.keyAt r'.key.cd).cd := by rw [← hkey, hmm, hkey']
      exact absurd hcd hne
    · exact ⟨r', hr', ho'⟩

end

theorem rmFrmMemq_some {a : Args α β} {memq' : List (Reply α)} {r : Reply α}
    (h : rmFrmMemq a memq = some (r, memq')) :
    memq.Perm (r :: memq') ∧ (a.getany = false → r.key.cd = a.cd) := by
  unfold rmFrmMemq at h
  split at h
  · rename_i hany
    split at h
    · cases h
    · cases h
      exact ⟨List.Perm.refl _, fun hf => absurd (hf.symm.trans hany) (by decide)⟩
  · obtain ⟨_, hfind, heq⟩ := Option.map_eq_some_iff.mp h
    cases heq
    obtain ⟨hp, as, bs, hsplit, has⟩ := find?_eq_some_iff_append.mp hfind
    have herase : memq.eraseP (fun r => r.key.cd = a.cd) = as ++ bs := by
      rw [hsplit, eraseP_append_right _ (by simpa using has), eraseP_cons, hp, cond_true]
    refine ⟨?_, fun _ => by simpa using hp⟩
    rw [herase, hsplit]
    exact perm_middle

theorem rmFrmMemq_none {a : Args α β} (h : rmFrmMemq a memq = none) :
    ∀ r ∈ memq, a.getany = false ∧ r.key.cd ≠ a.cd := by
  unfold rmFrmMemq at h
  intro r hr
  split at h
  · split at h
    · cases hr
    · cases h
  · rename_i hany
    have hfind := Option.map_eq_none_iff.mp h
    exact ⟨by simpa using hany, by simpa using find?_eq_none.mp hfind r hr⟩

theorem callScanTout_cases {s' : Tls α} {due : Bool} {now : ℕ → Int} {cds : List ℕ}
    {found : Option ℕ} (h : callScanTout s due now cds = (s', found)) :
    (found = none ∧ s' = s ∧ (due = true → ∀ cd ∈ cds, ¬ callCheckTout s (now cd) cd)) ∨
      ∃ cd ∈ cds, found = some cd ∧ s' = unlockCallDescriptor s cd .canceled ∧
        callCheckTout s (now cd) cd := by
  unfold callScanTout at h
  split at h
  · split at h
    · rename_i cd hfind
      cases h
      exact .inr ⟨cd, mem_of_find?_eq_some hfind, rfl, rfl, by simpa using find?_some hfind⟩
    · rename_i hfind
      cases h
      exact .inl ⟨rfl, rfl, fun _ cd hcd => by simpa using find?_eq_none.mp hfind cd hcd⟩
  · rename_i hdue
    cases h
    exact .inl ⟨rfl, rfl, fun htrue => absurd htrue hdue⟩

/-- The caller gets this reply: the call succeeds exactly when the service did and the payload could
be put into the caller's buffer, and the data is made of the reply's payload. -/
def HandsOver (a : Args α β) (r : Reply α) (out : Out α β) : Prop :=
  out.rply = some r ∧ out.cd = r.key.cd ∧
    (out.ok = true ↔ r.replyError = false ∧ r.rval = tpsuccess ∧ ∃ d, a.prepare r.data = .ok d) ∧
    ∀ d, out.data = some d ↔ r.replyError = false ∧ a.prepare r.data = .ok d

theorem answer_handsOver (a : Args α β) (r : Reply α) : HandsOver a r (answer a r) := by
  unfold answer
  split
  · simp_all [HandsOver]
  · split
    · simp_all [HandsOver]
    · split <;> simp_all [HandsOver]

def Pass.scan (a : Args α β) : Pass α → Option (ℕ → Int)
  | .noData true now => if a.noblock then some now else none
  | .timedOut true now => some now
  | _ => none

/-- The call ends without a reply. No call stops waiting but one that it reports as timed out; and
where it scans for calls whose time has run out and there is one, it reports one. -/
def GivesUp (a : Args α β) (tls tls' : Tls α) (ps : List (Pass α)) (out : Out α β) : Prop :=
  out.ok = false ∧ out.rply = none ∧ (∀ cd, tls'.waiting cd → tls.waiting cd) ∧
    (∀ cd, tls.waiting cd → ¬ tls'.waiting cd → out.tperrno = some tpetime ∧ out.cd = cd) ∧
    ∀ p ∈ ps, ∀ now, p.scan a = some now → ∀ cd ∈ a.scanned, callCheckTout tls (now cd) cd →
      out.tperrno = some tpetime ∧ out.cd ∈ a.scanned ∧ callCheckTout tls (now out.cd) out.cd ∧
        ¬ tls'.waiting out.cd

theorem GivesUp.of_none {a : Args α β} {ps : List (Pass α)} {err : Int}
    (hscan : ∀ p ∈ ps, ∀ now, p.scan a = some now → ∀ cd ∈ a.scanned, ¬ callCheckTout s (now cd) cd) :
    GivesUp a s s ps (failure err cd) :=
  ⟨rfl, rfl, fun _ hw => hw, fun _ hw hnot => absurd hw hnot,
    fun p hp now hnow cd hcd hexp => absurd hexp (hscan p hp now hnow cd hcd)⟩

theorem GivesUp.of_found {a : Args α β} {p : Pass α} {now : ℕ → Int}
    (hnow : ∀ now', p.scan a = some now' → now' = now) (hcd : cd ∈ a.scanned)
    (hexp : callCheckTout s (now cd) cd) :
    GivesUp a s (unlockCallDescriptor s cd .canceled) [p] (failure tpetime cd) := by
  have hwait (c : ℕ) : (unlockCallDescriptor s cd .canceled).waiting c ↔ c ≠ cd ∧ s.waiting c :=
    waiting_unlock (by decide)
  refine ⟨rfl, rfl, fun c hw => ((hwait c).mp hw).2, fun c hw hnot => ⟨rfl, ?_⟩, ?_⟩
  · by_contra hne
    exact hnot ((hwait c).mpr ⟨fun he => hne he.symm, hw⟩)
  · intro p' hp now' hnow' _ _ _
    rw [mem_singleton.mp hp] at hnow'
    rw [hnow now' hnow']
    exact ⟨rfl, hcd, hexp, fun hw => ((hwait _).mp hw).1 rfl⟩

section

variable {origin : α → Option ℕ} {Foreign : Key → Prop} {s : Sys α} {a : Args α β} {net : List (Reply α)}

def Ends (origin : α → Option ℕ) (s : Sys α) (a : Args α β) (ps : List (Pass α)) (tls tls' : Tls α)
    (out : Out α β) : Prop :=
  GivesUp a tls tls' ps out ∨ ∃ r, HandsOver a r out ∧ (a.getany = false → r.key.cd = a.cd) ∧
    tls.waiting r.key.cd ∧ origin r.data = some (s.owner r.key.cd) ∧
    ∀ cd, tls'.waiting cd ↔ cd ≠ r.key.cd ∧ tls.waiting cd

variable {tls : Tls α} {r : Reply α}

theorem handleReply_taken (he : tls.expects r) (hcd : a.getany = false → r.key.cd = a.cd) :
    handleReply a tls r = (some (answer a r), unlockCallDescriptor tls r.key.cd .notIssued) := by
  rw [handleReply, if_pos he, if_neg]
  rintro ⟨hany, hne⟩
  exact hne (hcd hany)

theorem handleReply_parked (he : tls.expects r) (hany : a.getany = false) (hcd : r.key.cd ≠ a.cd) :
    handleReply a tls r = (none, {tls with memq := tls.memq ++ [r]}) := by
  rw [handleReply, if_pos he, if_pos ⟨hany, hcd⟩]

theorem handleReply_dropped (he : ¬ tls.expects r) : handleReply a tls r = (none, tls) := by
  rw [handleReply, if_neg he]

theorem Inv.scanned (h : Inv origin Foreign s) (hrm : ∀ r ∈ s.tls.memq, a.getany = false ∧ r.key.cd ≠ a.cd)
    {cd : ℕ} (hc : cd ∈ a.scanned) :
    Inv origin Foreign {s with tls := unlockCallDescriptor s.tls cd .canceled} := by
  apply h.unlock (by decide)
  intro r hr
  obtain ⟨hany, hne⟩ := hrm r hr
  rw [Args.scanned, hany, if_neg (by decide), mem_singleton] at hc
  rw [hc]
  exact hne

theorem Inv.taken_memq (h : Inv origin Foreign s) (hrm : rmFrmMemq a s.tls.memq = some (r, memq)) :
    handleReply a {s.tls with memq := memq} r =
        (some (answer a r), unlockCallDescriptor {s.tls with memq := memq} r.key.cd .notIssued) ∧
      Inv origin Foreign {s with
        tls := unlockCallDescriptor {s.tls with memq := memq} r.key.cd .notIssued
        returned := s.returned ++ [r]} ∧
      s.tls.expects r ∧ origin r.data = some (s.owner r.key.cd) ∧ (a.getany = false → r.key.cd = a.cd) := by
  obtain ⟨hperm, hcd⟩ := rmFrmMemq_some hrm
  obtain ⟨he, ho, hrep⟩ := h.memq r (hperm.mem_iff.mpr mem_cons_self)
  refine ⟨handleReply_taken he hcd, ?_, he, ho, hcd⟩
  refine h.accept ?_ (fun _ hx => hx) ?_ he ho hrep
  · exact (hperm.append_left s.net).trans perm_middle
  · intro r' hr'
    exact hperm.mem_iff.mpr (mem_cons_of_mem _ hr')

variable {ps : List (Pass α)}

theorem Ends.got {tls' : Tls α} {out : Out α β} {m : Incoming α} (h : Ends origin s a ps tls tls' out) :
    Ends origin s a (.got m :: ps) tls tls' out := by
  refine h.imp_left fun hup => ⟨hup.1, hup.2.1, hup.2.2.1, hup.2.2.2.1, ?_⟩
  refine forall_mem_cons.mpr ⟨fun _ hnow => ?_, hup.2.2.2.2⟩
  cases hnow

/-- A pass that makes the call scan for calls whose time has run out, the last one. -/
theorem Inv.ends_scan {p : Pass α} {due : Bool} {now : ℕ → Int} {tls' : Tls α} {found : Option ℕ}
    (h : Inv origin Foreign {s with tls := tls, net := repliesOf [p] ++ net})
    (hfree : ∀ r ∈ tls.memq, a.getany = false ∧ r.key.cd ≠ a.cd) (hnet : repliesOf [p] = [])
    (hp : ∀ now', p.scan a = some now' → due = true ∧ now' = now) (err : Int)
    (hscan : callScanTout tls due now a.scanned = (tls', found)) :
    Inv origin Foreign {s with tls := tls', net := net, returned := s.returned ++ []} ∧
      Ends origin s a [p] tls tls' (found.elim (failure err a.cd) (failure tpetime)) := by
  rw [hnet] at h
  rw [append_nil]
  rcases callScanTout_cases hscan with ⟨rfl, rfl, hnot⟩ | ⟨cd, hcd, rfl, rfl, hexp⟩
  · refine ⟨h, .inl (.of_none fun p' hp' now' hnow => ?_)⟩
    rw [mem_singleton.mp hp'] at hnow
    obtain ⟨hdue, rfl⟩ := hp _ hnow
    exact hnot hdue
  · exact ⟨h.scanned hfree hcd, .inl (.of_found (fun now' hnow => (hp now' hnow).2) hcd hexp)⟩

/-- The loop keeps the match of replies and calls, with what it hands out taken. -/
theorem getrplyLoop_inv {fuel : ℕ} {tls' : Tls α} {out : Out α β}
    (h : Inv origin Foreign {s with tls := tls, net := repliesOf ps ++ net})
    (hloop : getrplyLoop a fuel tls ps = some (out, tls', [])) :
    Inv origin Foreign {s with tls := tls', net := net, returned := s.returned ++ out.rply.toList} ∧
      Ends origin s a ps tls tls' out := by
  induction fuel generalizing tls ps with
  | zero => cases hloop
  | succ fuel ih =>
    -- a reply is taken
    have htake {r : Reply α} (memq : List (Reply α)) (he : tls.expects r)
        (ho : origin r.data = some (s.owner r.key.cd)) (hcd : a.getany = false → r.key.cd = a.cd) :
        Ends origin s a ps tls (unlockCallDescriptor {tls with memq := memq} r.key.cd .notIssued)
          (answer a r) :=
      .inr ⟨r, answer_handsOver a r, hcd, he.1, ho, fun _ => waiting_unlock (by decide)⟩
    unfold getrplyLoop at hloop
    cases hrm : rmFrmMemq a tls.memq with
    | some found =>
      obtain ⟨r, memq⟩ := found
      obtain ⟨htaken, hinv, he, ho, hcd⟩ := h.taken_memq hrm
      rw [hrm] at hloop
      dsimp only at hloop htaken
      rw [htaken] at hloop
      cases hloop
      refine ⟨?_, htake memq he ho hcd⟩
      rw [(answer_handsOver a r).1]
      exact hinv
    | none =>
      have hfree := rmFrmMemq_none hrm
      have hfail {err : Int} {cd : ℕ} (hnet : repliesOf ps = [])
          (hscan : ∀ p ∈ ps, p.scan a = none) :
          Inv origin Foreign {s with tls := tls, net := net, returned := s.returned ++ []} ∧
            Ends origin s a ps tls tls (failure err cd) := by
        rw [hnet] at h
        rw [append_nil]
        refine ⟨h, .inl (.of_none fun p hp now hnow => ?_)⟩
        rw [hscan p hp] at hnow
        cases hnow
      rw [hrm] at hloop
      dsimp only at hloop
      split at hloop
      · cases hloop
      · rename_i ps
        have h' : Inv origin Foreign {s with tls := tls, net := repliesOf ps ++ net} := h
        obtain ⟨hinv, hends⟩ := ih h' hloop
        exact ⟨hinv, hends.got⟩
      · rename_i r ps
        have h' : Inv origin Foreign {s with tls := tls, net := r :: (repliesOf ps ++ net)} := h
        by_cases he : tls.expects r
        · by_cases hcd : a.getany = false → r.key.cd = a.cd
          · rw [handleReply_taken he hcd] at hloop
            cases hloop
            obtain ⟨ho, hrep⟩ := h'.origin_of_expects mem_cons_self he
            refine ⟨?_, htake tls.memq he ho hcd⟩
            rw [(answer_handsOver a r).1]
            exact h'.accept (List.Perm.refl _) (subset_cons_self _ _) (fun _ hx => hx) he ho hrep
          · push Not at hcd
            rw [handleReply_parked he hcd.1 hcd.2] at hloop
            obtain ⟨hinv, hends⟩ := ih (h'.park rfl he) hloop
            exact ⟨hinv, Ends.got hends⟩
        · rw [handleReply_dropped he] at hloop
          obtain ⟨hinv, hends⟩ := ih (h'.drop rfl he) hloop
          exact ⟨hinv, hends.got⟩
      · rename_i due now ps
        by_cases hnb : a.noblock = true
        · rw [if_pos hnb] at hloop
          split at hloop <;>
          · rename_i hscan
            cases hloop
            exact h.ends_scan hfree rfl (by cases due <;> simp [Pass.scan]) tpeblock hscan
        · rw [if_neg hnb] at hloop
          cases hloop
          exact hfail rfl (by cases due <;> simp [Pass.scan, hnb])
      · rename_i due now ps
        split at hloop <;>
        · rename_i hscan
          cases hloop
          exact h.ends_scan hfree rfl (by cases due <;> simp [Pass.scan]) tpetime hscan
      · cases hloop
        exact hfail rfl (by simp [Pass.scan])

def Pass.stops : Pass α → Bool
  | .got _ => false
  | _ => true

theorem getrplyLoop_returns {fuel : ℕ}
    (hfuel : tls.memq.length+2*ps.length < fuel) (hstop : ∃ p ∈ ps, p.stops = true) :
    (getrplyLoop a fuel tls ps).isSome := by
  induction fuel generalizing tls ps with
  | zero => omega
  | succ fuel ih =>
    unfold getrplyLoop
    cases hrm : rmFrmMemq a tls.memq with
    | some found =>
      obtain ⟨r, memq⟩ := found
      obtain ⟨hperm, hcd⟩ := rmFrmMemq_some hrm
      have hlen := hperm.length_eq
      rw [length_cons] at hlen
      dsimp only
      by_cases he : Tls.expects {tls with memq := memq} r
      · rw [handleReply_taken he hcd]
        rfl
      · -- a reply in memory that has become stale is used up
        rw [handleReply_dropped he]
        exact ih (by dsimp only; omega) hstop
    | none =>
      dsimp only
      split
      · obtain ⟨p, hp, -⟩ := hstop
        cases hp
      · rename_i ps
        refine ih (by rw [length_cons] at hfuel; omega) ?_
        simpa [Pass.stops] using hstop
      · rename_i r ps
        rw [length_cons] at hfuel
        have hstop' : ∃ p ∈ ps, p.stops = true := by simpa [Pass.stops] using hstop
        by_cases he : tls.expects r
        · by_cases hcd : a.getany = false → r.key.cd = a.cd
          · rw [handleReply_taken he hcd]
            rfl
          · push Not at hcd
            rw [handleReply_parked he hcd.1 hcd.2]
            refine ih ?_ hstop'
            rw [length_append, length_singleton]
            omega
        · rw [handleReply_dropped he]
          exact ih (by omega) hstop'
      · split <;> rfl
      · split <;> rfl
      · rfl

/-- The loop always ends once the queue has no data, times out or fails: every turn uses up a reply
kept in memory or a message, and what a turn puts into memory is not taken up again. -/
theorem tpgetrply_returns (tls : Tls α) (hstop : ∃ p ∈ ps, p.stops = true) :
    (tpgetrply a tls ps).isSome := by
  rw [tpgetrply]
  split
  · rfl
  · split
    · rfl
    · exact getrplyLoop_returns (Nat.lt_succ_self _) hstop

theorem tpgetrply_inv {tls' : Tls α} {out : Out α β}
    (h : Inv origin Foreign s) (hnet : s.net.Perm (repliesOf ps ++ net))
    (hcall : tpgetrply a s.tls ps = some (out, tls', [])) :
    Inv origin Foreign {s with tls := tls', net := net, returned := s.returned ++ out.rply.toList} ∧
      Ends origin s a ps s.tls tls' out := by
  have h' := h.of_perm hnet
  have hrefused : s.returned ++ [] = s.returned := append_nil _
  rw [tpgetrply] at hcall
  split at hcall
  · cases hcall
    exact ⟨hrefused.symm ▸ h', .inl (.of_none (forall_mem_nil _))⟩
  split at hcall
  · cases hcall
    exact ⟨hrefused.symm ▸ h', .inl (.of_none (forall_mem_nil _))⟩
  · exact getrplyLoop_inv h' hcall

end

theorem seekCd_range {startCd fuel : ℕ} (h : 0 < cd ∧ cd < maxAsyncCalls) :
    0 < seekCd s startCd fuel cd ∧ seekCd s startCd fuel cd < maxAsyncCalls := by
  induction fuel generalizing cd with
  | zero => exact h
  | succ fuel ih =>
    have hnext : 0 < nextCd cd ∧ nextCd cd < maxAsyncCalls := by
      unfold nextCd maxAsyncCalls
      split <;> omega
    rw [seekCd]
    split
    · split
      · exact hnext
      · exact ih hnext
    · exact h

def lockedTls (a : AcallArgs) (seq : BitVec 32) (s : Tls α) (cd : ℕ) : Tls α :=
  ⟨update s.gCallState cd ⟨.waitingForAns, a.timestamp, seq+1, a.notime, a.toutEff⟩, cd, s.memq⟩

/-- A call locks no descriptor, and at most frees that of the calls without reply, or it locks one that
was free; that is freed again when the request cannot be sent. -/
theorem ndrxTpacall_cases (a : AcallArgs) (seq : BitVec 32)
    (hrange : 0 < s.tpcallGetCd ∧ s.tpcallGetCd < maxAsyncCalls) :
    ((ndrxTpacall a seq s).locked = none ∧
      ((∃ cd, (0 < cd ∧ cd < maxAsyncCalls) ∧ (ndrxTpacall a seq s).tls = {s with tpcallGetCd := cd}) ∨
        (ndrxTpacall a seq s).tls = unlockCallDescriptor s 0 .notIssued)) ∨
    ∃ cd, (0 < cd ∧ cd < maxAsyncCalls) ∧ ¬ s.waiting cd ∧
      (ndrxTpacall a seq s).locked = some ⟨cd, a.timestamp, seq+1⟩ ∧
      ((ndrxTpacall a seq s).tls = lockedTls a seq s cd ∨
        (ndrxTpacall a seq s).tls = unlockCallDescriptor (lockedTls a seq s cd) cd .notIssued) := by
  have hcd := @seekCd_range α _ s s.tpcallGetCd maxAsyncCalls hrange
  unfold ndrxTpacall
  split
  · left
    split
    · exact ⟨rfl, .inl ⟨_, hrange, rfl⟩⟩
    · exact ⟨rfl, .inr rfl⟩
  unfold getCallDescriptorAndLock
  generalize seekCd s s.tpcallGetCd maxAsyncCalls s.tpcallGetCd = cd at hcd
  by_cases hw : s.waiting cd
  · left
    rw [if_pos (show Tls.waiting {s with tpcallGetCd := cd} cd from hw)]
    exact ⟨rfl, .inl ⟨cd, hcd, rfl⟩⟩
  right
  refine ⟨cd, hcd, hw, ?_⟩
  rw [if_neg (show ¬ Tls.waiting {s with tpcallGetCd := cd} cd from hw)]
  cases a.registered with
  | false => exact ⟨rfl, .inl rfl⟩
  | true =>
    cases a.queued with
    | true => exact ⟨rfl, .inl rfl⟩
    | false => exact ⟨rfl, .inr rfl⟩

section

variable {origin : α → Option ℕ} {Foreign : Key → Prop} {s : Sys α}

theorem Inv.of_seq (h : Inv origin Foreign s) {n : ℕ} (hn : s.seq ≤ n) (hwithin : Within origin s n) :
    Inv origin Foreign {s with seq := n} := by
  refine {h with numbered := ?_, owned := ?_, net := ?_}
  · exact fun m hm => ⟨(h.numbered m hm).1.trans hn, (h.numbered m hm).2⟩
  · intro cd hw
    obtain ⟨m, hm, hno, hkey, -⟩ := h.owned cd hw
    exact ⟨m, hm, hno, hkey, hwithin m hm (.inl ⟨cd, hw, hno.symm⟩)⟩
  · intro r hr
    refine (h.net r hr).imp_right ?_
    rintro ⟨m, hm, ho, hkey, hrep, -⟩
    exact ⟨m, hm, ho, hkey, hrep, hwithin m hm (.inr ⟨r, hr, ho⟩)⟩

/-- A new call does not take a descriptor or a number that is waited for. -/
theorem Inv.lock (h : Inv origin Foreign s) {a : AcallArgs} {sent : Bool}
    (hrange : 0 < cd ∧ cd < maxAsyncCalls) (hfree : ¬ s.tls.waiting cd) (hwithin : Within origin s (s.seq+1))
    (hown : ¬ Foreign ⟨cd, a.timestamp, BitVec.ofNat 32 s.seq+1⟩) :
    Inv origin Foreign {s with
      tls := lockedTls a (BitVec.ofNat 32 s.seq) s.tls cd
      seq := s.seq+1
      calls := ⟨s.seq+1, ⟨cd, a.timestamp, BitVec.ofNat 32 s.seq+1⟩, sent⟩ :: s.calls
      owner := update s.owner cd (s.seq+1)} := by
  have h' := h.of_seq (Nat.le_succ s.seq) hwithin
  -- the other descriptors are as they were
  have hw {c : ℕ} (hc : c ≠ cd) : (lockedTls a (BitVec.ofNat 32 s.seq) s.tls cd).waiting c ↔ s.tls.waiting c := by
    unfold Tls.waiting lockedTls
    simp [update_of_ne hc]
  have hk {c : ℕ} (hc : c ≠ cd) : (lockedTls a (BitVec.ofNat 32 s.seq) s.tls cd).keyAt c = s.tls.keyAt c := by
    unfold Tls.keyAt lockedTls
    simp [update_of_ne hc]
  have hown' {c : ℕ} (hc : c ≠ cd) : update s.owner cd (s.seq+1) c = s.owner c :=
    update_of_ne hc _ _
  have hnew (n : ℕ) (hn : n ∈ s.replied) : n ≠ s.seq+1 := by
    obtain ⟨m, hm, rfl⟩ := h.replied n hn
    have := (h.numbered m hm).1
    omega
  have hmemq : ∀ r ∈ s.tls.memq, r.key.cd ≠ cd := by
    intro r hr hcd
    exact hfree (hcd ▸ (h.memq r hr).1.1)
  refine ⟨hrange, ?_, ?_, ?_, ?_, ?_, ?_, ?_, ?_, h.once, ?_⟩
  · intro c hc
    by_cases hcc : c = cd
    · rw [hcc]
      exact hrange
    · exact h.range c ((hw hcc).mp hc)
  · intro m hm
    rcases mem_cons.mp hm with rfl | hm
    · refine ⟨le_refl _, ?_, hown⟩
      rw [BitVec.ofNat_add]
      rfl
    · exact h'.numbered m hm
  · intro m hm m' hm' heq
    rcases mem_cons.mp hm with rfl | hm
    · rcases mem_cons.mp hm' with rfl | hm'
      · rfl
      · have := (h.numbered m' hm').1
        dsimp only at heq
        omega
    · rcases mem_cons.mp hm' with rfl | hm'
      · have := (h.numbered m hm).1
        dsimp only at heq
        omega
      · exact h.unique m hm m' hm' heq
  · intro c hc
    by_cases hcc : c = cd
    · subst hcc
      refine ⟨_, mem_cons_self, ?_, ?_, ?_⟩
      · show s.seq+1 = update s.owner c (s.seq+1) c
        rw [update_self]
      · unfold Tls.keyAt lockedTls
        simp
      · show s.seq+1 < s.seq+1+2^32
        omega
    · obtain ⟨m, hm, hno, hkey, hin⟩ := h'.owned c ((hw hcc).mp hc)
      exact ⟨m, mem_cons_of_mem _ hm, hno.trans (hown' hcc).symm, hkey.trans (hk hcc).symm, hin⟩
  · intro n hn
    obtain ⟨m, hm, hmn⟩ := h.replied n hn
    exact ⟨m, mem_cons_of_mem _ hm, hmn⟩
  · intro r hr
    refine (h'.net r hr).imp_right ?_
    rintro ⟨m, hm, hrest⟩
    exact ⟨m, mem_cons_of_mem _ hm, hrest⟩
  · intro r hr
    obtain ⟨⟨hwr, hkr⟩, ho, hrep⟩ := h.memq r hr
    have hcd := hmemq r hr
    refine ⟨⟨(hw hcd).mpr hwr, (hk hcd).trans hkr⟩, ?_, ?_⟩
    · exact ho.trans (congrArg some (hown' hcd).symm)
    · show update s.owner cd (s.seq+1) r.key.cd ∈ s.replied
      rw [hown' hcd]
      exact hrep
  · exact h.returned
  · intro c hc hrep
    by_cases hcc : c = cd
    · subst hcc
      have hself : update s.owner c (s.seq+1) c = s.seq+1 := update_self _ _ _
      exact absurd hself (hnew _ hrep)
    · have hrep' : s.owner c ∈ s.replied := by
        rw [← hown' hcc]
        exact hrep
      obtain ⟨r, hr, ho⟩ := h.kept c ((hw hcc).mp hc) hrep'
      exact ⟨r, hr, ho.trans (congrArg some (hown' hcc).symm)⟩

theorem Start.inv (h : Start s) : Inv origin Foreign s := by
  obtain ⟨hcalls, hreplied, hnet, hreturned⟩ := h.nothing
  refine ⟨?_, ?_, ?_, ?_, ?_, ?_, ?_, ?_, ?_, ?_, ?_⟩
  · rw [h.getCd]
    decide
  · exact fun cd hw => absurd hw (h.idle cd)
  · simp [hcalls]
  · simp [hcalls]
  · exact fun cd hw => absurd hw (h.idle cd)
  · simp [hreplied]
  · simp [hnet]
  · simp [h.memq]
  · simp [hreturned]
  · simp [hnet, h.memq, hreturned]
  · exact fun cd hw => absurd hw (h.idle cd)

/-- No call, reply or cancel breaks the match of replies and calls. -/
theorem Step.inv {s' : Sys α} (hstep : Step origin Foreign s s') (h : Inv origin Foreign s) :
    Inv origin Foreign s' := by
  cases hstep with
  | others hn hwithin => exact h.of_seq hn hwithin
  | @acall a r hcall hnone =>
    subst hcall
    rcases ndrxTpacall_cases a (BitVec.ofNat 32 s.seq) h.getCd with
      ⟨-, ⟨cd, hcd, htls⟩ | htls⟩ | ⟨cd, -, -, hsome, -⟩
    · rw [htls]
      exact ⟨hcd, h.range, h.numbered, h.unique, h.owned, h.replied, h.net, h.memq, h.returned, h.once, h.kept⟩
    · rw [htls]
      apply h.unlock (by decide)
      -- descriptor 0 is never waiting
      intro r hr hcd
      have := (h.range _ (h.memq r hr).1.1).1
      omega
    · rw [hsome] at hnone
      cases hnone
  | @acallLocked a r key hcall hsome hwithin hown =>
    subst hcall
    rcases ndrxTpacall_cases a (BitVec.ofNat 32 s.seq) h.getCd with ⟨hnone, -⟩ | ⟨cd, hcd, hfree, hkey, htls⟩
    · rw [hnone] at hsome
      cases hsome
    cases hkey.symm.trans hsome
    have hlock := @Inv.lock α cd origin Foreign s h a (ndrxTpacall a (BitVec.ofNat 32 s.seq) s.tls).sent
      hcd hfree hwithin hown
    rcases htls with htls | htls
    · rw [htls]
      exact hlock
    · rw [htls]
      apply hlock.unlock (by decide)
      intro r hr hc
      exact hfree (hc ▸ (h.memq r hr).1.1)
  | @reply m r hm hsent hfirst hkey horigin hin =>
    refine {h with replied := ?_, net := ?_, memq := ?_, returned := ?_, once := ?_, kept := ?_}
    · exact forall_mem_cons.mpr ⟨⟨m, hm, rfl⟩, h.replied⟩
    · intro r' hr'
      rcases mem_cons.mp hr' with rfl | hr'
      · exact .inr ⟨m, hm, horigin, hkey, mem_cons_self, hin⟩
      · refine (h.net r' hr').imp_right ?_
        rintro ⟨m', hm', ho, hk, hrep, hin'⟩
        exact ⟨m', hm', ho, hk, mem_cons_of_mem _ hrep, hin'⟩
    · intro r' hr'
      obtain ⟨he, ho, hrep⟩ := h.memq r' hr'
      exact ⟨he, ho, mem_cons_of_mem _ hrep⟩
    · intro r' hr'
      obtain ⟨n, hn, ho⟩ := h.returned r' hr'
      exact ⟨n, mem_cons_of_mem _ hn, ho⟩
    · -- every reply so far is to a call that has been replied to
      have hnew : m.no ∉ (s.net ++ s.tls.memq ++ s.returned).filterMap (fun r => origin r.data) := by
        intro hmem
        obtain ⟨r', hr', ho⟩ := mem_filterMap.mp hmem
        exact hfirst (h.replied_of_origin hr' ho)
      show (List.filterMap _ (r :: (s.net ++ s.tls.memq ++ s.returned))).Nodup
      simp only [filterMap_cons, horigin]
      exact nodup_cons.mpr ⟨hnew, h.once⟩
    · intro cd hw hrep
      rcases mem_cons.mp hrep with heq | hrep
      · exact ⟨r, mem_cons_self, horigin.trans (congrArg some heq.symm)⟩
      · obtain ⟨r', hr', ho⟩ := h.kept cd hw hrep
        exact ⟨r', mem_cons_of_mem _ hr', ho⟩
  | @foreign r horigin hkey =>
    refine {h with net := ?_, once := ?_, kept := ?_}
    · intro r' hr'
      rcases mem_cons.mp hr' with rfl | hr'
      · exact .inl ⟨horigin, hkey⟩
      · exact h.net r' hr'
    · show (List.filterMap _ (r :: (s.net ++ s.tls.memq ++ s.returned))).Nodup
      simp only [filterMap_cons, horigin]
      exact h.once
    · intro cd hw hrep
      obtain ⟨r', hr', ho⟩ := h.kept cd hw hrep
      exact ⟨r', mem_cons_of_mem _ hr', ho⟩
  | getrply hcall hnet => exact (tpgetrply_inv h hnet hcall).1

theorem run_inv {s' : Sys α} (h : Inv origin Foreign s)
    (hrun : Relation.ReflTransGen (Step origin Foreign) s s') : Inv origin Foreign s' := by
  induction hrun with
  | refl => exact h
  | tail _ hstep ih => exact hstep.inv ih

end

def sampleTls : Tls ℕ := ⟨fun _ => ⟨.notIssued, 0, 0, false, 0⟩, maxAsyncCalls-2, []⟩

def sampleStart : Sys ℕ := ⟨sampleTls, 0, [], fun _ => 0, [], [], []⟩

def sampleCall : AcallArgs := ⟨false, false, 60, 1000, true, true⟩

/-- Two calls are waiting, on the descriptors 16382 and 16383. -/
def waitingTls : Tls ℕ := lockedTls sampleCall 1 (lockedTls sampleCall 0 sampleTls 16382) 16383

def sampleReply : Reply ℕ := ⟨⟨16383, 1000, 2⟩, false, tpsuccess, 0, 2⟩

def sampleGet (cd : ℕ) : Args ℕ ℕ := ⟨cd, false, true, .ok⟩

theorem sampleStart_start : Start sampleStart :=
  ⟨rfl, fun _ => Status.noConfusion, rfl, ⟨rfl, rfl, rfl, rfl⟩⟩

theorem sample_run : ∃ s : Sys ℕ, Relation.ReflTransGen (Step some fun _ => False) sampleStart s ∧
    s.tls.memq = [sampleReply] := by
  let s1 : Sys ℕ := ⟨lockedTls sampleCall 0 sampleTls 16382, 1, [⟨1, ⟨16382, 1000, 1⟩, true⟩],
    update (fun _ => 0) 16382 1, [], [], []⟩
  let s2 : Sys ℕ := ⟨waitingTls, 2, ⟨2, ⟨16383, 1000, 2⟩, true⟩ :: s1.calls, update s1.owner 16383 2, [], [], []⟩
  let s3 : Sys ℕ := {s2 with net := [sampleReply], replied := [2]}
  have h1 : Step some (fun _ => False) sampleStart s1 :=
    @Step.acallLocked ℕ some _ sampleStart sampleCall _ _ rfl rfl (by simp [Within, sampleStart]) id
  have h2 : Step some (fun _ => False) s1 s2 :=
    @Step.acallLocked ℕ some _ s1 sampleCall _ _ rfl rfl (by simp [Within, s1]) id
  have h3 : Step some (fun _ => False) s2 s3 :=
    @Step.reply ℕ some _ s2 ⟨2, ⟨16383, 1000, 2⟩, true⟩ sampleReply mem_cons_self rfl (by simp [s2]) rfl rfl
      (by decide)
  have h4 : Step some (fun _ => False) s3 {s3 with tls := {s3.tls with memq := [sampleReply]}, net := []} :=
    @Step.getrply ℕ some _ s3 ℕ (sampleGet 16382) [.got (.reply sampleReply), .noData false fun _ => 1001]
      _ _ [] rfl (List.Perm.refl _)
  exact ⟨_, (((Relation.ReflTransGen.single h1).tail h2).tail h3).tail h4, rfl⟩

/-- A notification, the reply to another call, which is put away, and then the queue fails. -/
theorem tpgetrply_returns_failed :
    (tpgetrply (sampleGet 16382) waitingTls [.got (.notif 0), .got (.reply sampleReply), .failed]).isSome ∧
      (tpgetrply (sampleGet 16382) waitingTls [.got (.notif 0), .got (.reply sampleReply), .failed]).map
        (fun r => (r.2.1.memq, r.2.2.length)) = some ([sampleReply], 0) :=
  ⟨tpgetrply_returns waitingTls ⟨.failed, by simp, rfl⟩, rfl⟩

end Endurox.TpCall
