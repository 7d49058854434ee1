import Endurox.BaseRun
import Endurox.BaseCInt
import Endurox.BaseTree
import Mathlib.Data.Prod.Lex

/-! The messages of a queue space in memory: `inflight.c`, `corhandle.c`, `rbtsupp.c` and the functions of
`qspace.c` that use them. A message in memory is named by its address. A red-black tree is given by its
nodes from left to right. Each function runs under `M_q_lock`; the results of the storage and of the
allocator are inputs. -/

namespace Endurox.Tmq
open Base Function

structure Msg where
  qname : String
  msgid : String
  msgtstamp : Int
  msgtstampUsec : Int
  msgtstampCntr : Int
  timeAbs : Bool
  deqTime : Int
  hasCorrid : Bool
  corrid : String
  lockthreadid : ℕ
  status : Char
  trycounter : Int
  trytstamp : Int
  trytstampUsec : Int
  deriving DecidableEq, Inhabited

def compare3 (a1 a2 a3 b1 b2 b3 : Int) : Int :=
  if wrap64 (a1-b1) ≠ 0 then wrap32 (wrap64 (a1-b1))
  else if wrap64 (a2-b2) ≠ 0 then wrap32 (wrap64 (a2-b2))
  else wrap32 (wrap64 (a3-b3))

def compare4 (a1 a2 a3 a4 b1 b2 b3 b4 : Int) : Int :=
  if wrap64 (a1-b1) ≠ 0 then wrap32 (wrap64 (a1-b1))
  else if wrap64 (a2-b2) ≠ 0 then wrap32 (wrap64 (a2-b2))
  else if wrap64 (a3-b3) ≠ 0 then wrap32 (wrap64 (a3-b3))
  else wrap32 (wrap64 (a4-b4))

namespace Msg

def cmpCur (a b : Msg) : Int :=
  compare3 a.msgtstamp a.msgtstampUsec a.msgtstampCntr b.msgtstamp b.msgtstampUsec b.msgtstampCntr

def cmpFut (a b : Msg) : Int :=
  compare4 a.deqTime a.msgtstamp a.msgtstampUsec a.msgtstampCntr
    b.deqTime b.msgtstamp b.msgtstampUsec b.msgtstampCntr

def waits (m : Msg) (now : Int) : Bool := m.timeAbs && decide (m.deqTime > now)

end Msg

inductive Loc
  | infl
  | fut
  | cur
  | cor (corrid : String)
  deriving DecidableEq

structure Qstate where
  infl : Bool
  fut : Bool
  cur : Bool
  cor : Bool
  msgidHash : Bool
  deriving DecidableEq, Inhabited

structure MemMsg where
  msg : Msg
  corhash : Option String
  qstate : Qstate
  deriving DecidableEq, Inhabited

@[ext]
structure Qhash where
  inflight : List ℕ
  q : List ℕ
  fut : List ℕ
  corhash : String → Option (List ℕ)
  numenq : ℕ
  numdeq : ℕ

/-- The `abort` calls, and what would crash: a message that is to leave its correlator has no entry, an
entry has no node. -/
inductive Abort
  | mov2infl
  | mov2cur
  | combine (loc : Loc)
  | noCorhash
  | noNode
  deriving DecidableEq

namespace Qhash

def empty : Qhash := ⟨[], [], [], fun _ => none, 0, 0⟩

def nodes (h : Qhash) : Loc → List ℕ
  | .infl => h.inflight
  | .fut => h.fut
  | .cur => h.q
  | .cor c => (h.corhash c).getD []

def setNodes (h : Qhash) : Loc → List ℕ → Qhash
  | .infl, l => {h with inflight := l}
  | .fut, l => {h with fut := l}
  | .cur, l => {h with q := l}
  | .cor c, l => {h with corhash := update h.corhash c (if l = [] then none else some l)}

end Qhash

namespace MemMsg

def mark (m : MemMsg) : Loc → Bool → MemMsg
  | .infl, b => {m with qstate := {m.qstate with infl := b}}
  | .fut, b => {m with qstate := {m.qstate with fut := b}}
  | .cur, b => {m with qstate := {m.qstate with cur := b}}
  | .cor c, b => {m with corhash := if b then some c else none, qstate := {m.qstate with cor := b}}

def lock (m : MemMsg) (tid : ℕ) : MemMsg := {m with msg := {m.msg with lockthreadid := tid}}

end MemMsg

structure Entry where
  m : MemMsg
  h : Qhash

namespace Entry

variable (cmp : Loc → ℕ → ℕ → Int) (p : ℕ)

def take (loc : Loc) (e : Entry) : Entry :=
  ⟨e.m.mark loc false, e.h.setNodes loc ((e.h.nodes loc).erase p)⟩

def append (e : Entry) : Entry := ⟨e.m.mark .infl true, e.h.setNodes .infl (e.h.nodes .infl ++ [p])⟩

def rbtInsert (loc : Loc) (e : Entry) : Except Abort Entry :=
  match Tree.insert (cmp loc) p (e.h.nodes loc) with
  | none => .error (.combine loc)
  | some l => .ok ⟨e.m.mark loc true, e.h.setNodes loc l⟩

def corMsgAdd (alloc : Bool) (e : Entry) : Except Abort (Entry × Bool) :=
  if e.h.corhash e.m.msg.corrid = none ∧ alloc = false then .ok (e, false)
  else do
    let e ← e.rbtInsert cmp p (.cor e.m.msg.corrid)
    return (e, true)

def corMsgDel (e : Entry) : Except Abort Entry :=
  match e.m.corhash with
  | some c => .ok (e.take p (.cor c))
  | none => .error .noCorhash

def leaveCor (e : Entry) : Except Abort Entry := if e.m.qstate.cor then e.corMsgDel p else .ok e

/-- The part of `ndrx_infl_addmsg`, `ndrx_infl_mov2cur` and `ndrx_infl_fut2cur` that puts a message into the
current tree. -/
def toCur (alloc : Bool) (e : Entry) : Except Abort (Entry × Bool) := do
  let e ← e.rbtInsert cmp p .cur
  if e.m.msg.hasCorrid then e.corMsgAdd cmp p alloc else return (e, true)

def toFut (e : Entry) : Except Abort (Entry × Bool) := do
  let e ← e.rbtInsert cmp p .fut
  return (e, true)

def mov2infl (e : Entry) : Except Abort Entry :=
  if e.m.qstate.fut then .ok ((e.take p .fut).append p)
  else if e.m.qstate.cur then do
    let e ← (e.take p .cur).leaveCor p
    return e.append p
  else .error .mov2infl

def mov2cur (alloc : Bool) (now : Int) (e : Entry) : Except Abort (Entry × Bool) :=
  if e.m.qstate.infl then
    let e := e.take p .infl
    if e.m.msg.waits now then e.toFut cmp p else e.toCur cmp p alloc
  else .error .mov2cur

def addmsg (alloc : Bool) (now : Int) (e : Entry) : Except Abort (Entry × Bool) :=
  if e.m.msg.lockthreadid ≠ 0 then .ok (e.append p, true)
  else if e.m.msg.waits now then e.toFut cmp p
  else e.toCur cmp p alloc

def delmsg (e : Entry) : Except Abort Entry := do
  let e ← e.leaveCor p
  let e := if e.m.qstate.infl then e.take p .infl else e
  let e := if e.m.qstate.fut then e.take p .fut else e
  return if e.m.qstate.cur then e.take p .cur else e

end Entry

@[ext]
structure State where
  mem : ℕ → Option MemMsg
  msgidHash : String → Option ℕ
  qhash : String → Option Qhash

def State.start : State := ⟨fun _ => none, fun _ => none, fun _ => none⟩

/-- `tmq_qconfig_t`: what `tmq_qconf_get_with_default` finds for a queue. -/
structure Qconf where
  lifo : Bool
  memonly : Bool

namespace State

variable (s : State)

def get (p : ℕ) : MemMsg := (s.mem p).getD default

def queue (qname : String) : Qhash := (s.qhash qname).getD .empty

def nodes (qname : String) (loc : Loc) : List ℕ := (s.queue qname).nodes loc

def cmp : Loc → ℕ → ℕ → Int
  | .fut, a, b => (s.get a).msg.cmpFut (s.get b).msg
  | _, a, b => (s.get a).msg.cmpCur (s.get b).msg

def entry (p : ℕ) : Entry := ⟨s.get p, s.queue (s.get p).msg.qname⟩

def setQ (qname : String) (h : Qhash) : State :=
  {s with qhash := update s.qhash qname (some h)}

def put (p : ℕ) (e : Entry) : State :=
  {s.setQ e.m.msg.qname e.h with mem := update s.mem p (some e.m)}

def alloc (p : ℕ) (msg : Msg) : State :=
  {s with mem := update s.mem p (some ⟨msg, none, ⟨false, false, false, false, false⟩⟩)}

def free (p : ℕ) : State := {s with mem := update s.mem p none}

def openQ (qname : String) : State := s.setQ qname (s.queue qname)

def hashAdd (p : ℕ) : State :=
  let m := s.get p
  {s with
    mem := update s.mem p (some {m with qstate := {m.qstate with msgidHash := true}})
    msgidHash := update s.msgidHash m.msg.msgid (some p)}

def hashDel (p : ℕ) : State :=
  let m := s.get p
  {s with
    mem := update s.mem p (some {m with qstate := {m.qstate with msgidHash := false}})
    msgidHash := update s.msgidHash m.msg.msgid none}

def countEnq (qname : String) : State :=
  s.setQ qname {s.queue qname with numenq := (s.queue qname).numenq+1}

def countDeq (qname : String) : State :=
  s.setQ qname {s.queue qname with numdeq := (s.queue qname).numdeq+1}

def inflAddmsg (p : ℕ) (alloc : Bool) (now : Int) : Except Abort (State × Bool) := do
  let (e, ok) ← (s.entry p).addmsg s.cmp p alloc now
  return (if ok then (s.put p e).hashAdd p else s.put p e, ok)

def inflDelmsg (p : ℕ) : Except Abort State := do
  let e ← (s.entry p).delmsg p
  let s := s.put p e
  return if e.m.qstate.msgidHash then s.hashDel p else s

def fut2curLoop (qname : String) (alloc : ℕ → Bool) (now : Int) : ℕ → State → Except Abort State
  | 0, s => .ok s
  | fuel+1, s =>
    match (s.nodes qname .fut).head? with
    | none => .ok s
    | some p =>
      if (s.get p).msg.deqTime ≤ now then do
        let (e, ok) ← ((s.entry p).take p .fut).toCur s.cmp p (alloc p)
        if ok then fut2curLoop qname alloc now fuel (s.put p e) else return s.put p e
      else .ok s

def inflFut2cur (qname : String) (alloc : ℕ → Bool) (now : Int) : Except Abort State :=
  fut2curLoop qname alloc now (s.nodes qname .fut).length s

end State

variable (conf : String → Option Qconf) (s : State)

/-- `tmq_msg_add`: `mmsg` is the memory for the message, if there is any, `newQ` whether there is memory for a
new queue, `written` whether the storage took the message. -/
def tmqMsgAdd (msg : Msg) (mmsg : Option ℕ) (newQ isRecovery written alloc : Bool) (now : Int) :
    Except Abort (State × Bool) :=
  match mmsg, conf msg.qname with
  | some p, some qconf =>
    if s.msgidHash msg.msgid ≠ none then .ok (s, false)
    else if s.qhash msg.qname = none ∧ newQ = false then .ok (s, false)
    else do
      let (s, ok) ← ((s.openQ msg.qname).alloc p msg).inflAddmsg p alloc now
      if ok && (qconf.memonly || isRecovery || written) then return (s.countEnq msg.qname, true)
      else
        let s ← s.inflDelmsg p
        return (s.free p, false)
  | _, _ => .ok (s, false)

inductive Diag
  | succeed
  | badqueue
  | nomsg
  | os
  deriving DecidableEq

def endOf (lifo : Bool) (l : List ℕ) : Option ℕ := if lifo then l.getLast? else l.head?

/-- The message is locked and leaves its tree. Without a command to the storage, or when the storage takes
it, it stays so. -/
def lockAndDelete (p tid : ℕ) (command written alloc : Bool) (later : Int) :
    Except Abort (State × Option ℕ × Diag) := do
  let e := s.entry p
  let e ← Entry.mov2infl p {e with m := e.m.lock tid}
  let s := s.put p e
  if command && !written then
    let (e, _) ← Entry.mov2cur s.cmp p alloc later {e with m := e.m.lock 0}
    return (s.put p e, none, .os)
  else return (s, some p, .succeed)

/-- `tmq_msg_dequeue` by the thread `tid`: `now` is the time, `later` the time after the storage was asked. -/
def tmqMsgDequeue (qname : String) (peek isAuto : Bool) (corrid : Option String) (tid : ℕ) (written : Bool)
    (alloc : ℕ → Bool) (now later : Int) : Except Abort (State × Option ℕ × Diag) :=
  match conf qname, s.qhash qname with
  | none, _ => .ok (s, none, .badqueue)
  | some _, none => .ok (s, none, .nomsg)
  | some qconf, some h =>
    match corrid with
    | some c =>
      if h.corhash c = none then .ok (s, none, .nomsg)
      else do
        let s ← s.inflFut2cur qname alloc now
        match endOf qconf.lifo (s.nodes qname (.cor c)) with
        | none => .error .noNode
        | some p => lockAndDelete s p tid (!peek && !isAuto) written (alloc p) later
    | none => do
      let s ← s.inflFut2cur qname alloc now
      match endOf qconf.lifo (s.nodes qname .cur) with
      | none => return (s, none, .nomsg)
      | some p => lockAndDelete s p tid (!peek && !isAuto) written (alloc p) later

def tmqMsgDequeueByMsgid (msgid : String) (peek : Bool) (tid : ℕ) (written : Bool) (alloc : ℕ → Bool)
    (later : Int) : Except Abort (State × Option ℕ × Diag) :=
  match s.msgidHash msgid with
  | none => .ok (s, none, .nomsg)
  | some p =>
    if (s.get p).msg.lockthreadid ≠ 0 then .ok (s, none, .nomsg)
    else lockAndDelete s p tid (!peek) written (alloc p) later

def tmqRemoveMsg (p : ℕ) : Except Abort State := do
  let s := if s.qhash (s.get p).msg.qname = none then s else s.countDeq (s.get p).msg.qname
  let s ← s.inflDelmsg p
  return s.free p

structure Upd where
  status : Char
  trycounter : Int
  trytstamp : Int
  trytstampUsec : Int

def Upd.apply (u : Upd) (m : MemMsg) : MemMsg :=
  {m with msg := {m.msg with
    status := u.status, trycounter := u.trycounter, trytstamp := u.trytstamp,
    trytstampUsec := u.trytstampUsec}}

inductive Command
  | newmsg
  | upd (u : Upd)
  | del
  | unlock
  | dum
  | unknown

/-- `lockthreadid = 0` and `ndrx_infl_mov2cur`, whose result is not looked at. -/
def unlockEntry (p : ℕ) (m : MemMsg) (alloc : Bool) (now : Int) : Except Abort State := do
  let (e, _) ← Entry.mov2cur s.cmp p alloc now ⟨m.lock 0, s.queue m.msg.qname⟩
  return s.put p e

def tmqUnlockMsg (command : Command) (msgid : String) (alloc : ℕ → Bool) (now : Int) :
    Except Abort (State × Bool) :=
  match command, s.msgidHash msgid with
  | .dum, _ => .ok (s, true)
  | _, none => .ok (s, true)
  | .del, some p => do return (← tmqRemoveMsg s p, true)
  | .upd u, some p => do return (← unlockEntry s p (u.apply (s.get p)) (alloc p) now, true)
  | .newmsg, some p => do return (← unlockEntry s p (s.get p) (alloc p) now, true)
  | .unlock, some p => do return (← unlockEntry s p (s.get p) (alloc p) now, true)
  | .unknown, some _ => .ok (s, false)

def tmqUnlockMsgByMsgid (msgid : String) (alloc : ℕ → Bool) (now : Int) : Except Abort (State × Bool) :=
  match s.msgidHash msgid with
  | none => .ok (s, false)
  | some p => do return (← unlockEntry s p (s.get p) (alloc p) now, true)

def tmqLockMsg (msgid : String) (tid : ℕ) : Except Abort (State × Bool) :=
  match s.msgidHash msgid with
  | none => .ok (s, false)
  | some p => do
    let e := s.entry p
    let e ← Entry.mov2infl p {e with m := e.m.lock tid}
    return (s.put p e, true)

end Endurox.Tmq
