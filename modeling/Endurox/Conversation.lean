import Endurox.BaseSeq

/-! Conversations, `conversation.c`. A message's payload has type `α`, what the caller gets of it
type `β`. The answers of the message queue come in as the list of what the passes of the receive
loop see; allocation and the attributes of the queues are taken to work. -/

namespace Endurox.Conv
open Base.Seq List

inductive Command
  | tpreply | connect | convdata | connrply | disconn | connunsol
  deriving DecidableEq

inductive Event
  | disconimm | svcerr | svcfail | svcsucc | sendonly
  deriving DecidableEq

inductive Status
  | noInitated | inConversation
  deriving DecidableEq

def tpeblock : Int := 3
def tpeinval : Int := 4
def tpeos : Int := 7
def tpeproto : Int := 9
def tpesvcerr : Int := 10
def tpetime : Int := 13
def tpeevent : Int := 22
def tpsuccess : Int := 2

def ndrxConfMsgseqStart : BitVec 32 := 4294967294
def ndrxConvUpperCnt : Int := 1000
def ndrxMaxRms : ℕ := 32

structure Message (α : Type) where
  commandId : Command
  cd : Int
  msgseq : BitVec 32
  replyError : Bool
  rval : Int
  rcode : Int
  /-- The two bits of `flags` that are looked at. -/
  sendonly : Bool
  recvonly : Bool
  tmxid : List UInt8
  abortOnly : Bool
  tmknownrms : List UInt8
  data : α
  deriving DecidableEq

structure Control (α : Type) where
  status : Status
  cd : Int
  sendonly : Bool
  recvonly : Bool
  msgseqout : BitVec 32
  msgseqin : BitVec 32
  rval : Int
  rcode : Int
  revent : Option Event
  outOfOrderMsgs : List (BitVec 32 × Message α)

structure TxInfo where
  tmxid : List UInt8
  abortOnly : Bool
  tmknownrms : List UInt8

structure Thread (α : Type) where
  conv : Control α
  txinfo : Option TxInfo

/-- The arguments of `ndrx_tprecv`; `prepare` is what `ndrx_mbuf_prepare_incoming` makes of a
payload with the caller's buffer and flags. -/
structure Args (α β : Type) where
  cd : Int
  commandId : Command
  ignBlkerr : Bool
  notime : Bool
  prepare : α → Except Int β

structure Out (α β : Type) where
  ok : Bool
  tperrno : Option Int
  revent : Option Event
  commandId : Command
  data : Option β
  rply : Option (Message α)

structure Call (α β : Type) where
  args : Args α β
  txinfo : Option TxInfo
  out : Out α β

inductive Pass (α : Type)
  | expired
  | noData
  | failed
  | got (m : Message α)

variable {α β : Type}

def rcvHashCk (conv : Control α) (msgseq : BitVec 32) : Option (Message α) × Control α :=
  match conv.outOfOrderMsgs.find? (fun el => el.1 = msgseq) with
  | none => (none, conv)
  | some el =>
    (some el.2, {conv with outOfOrderMsgs := conv.outOfOrderMsgs.eraseP (fun el => el.1 = msgseq)})

def rcvHashAdd (conv : Control α) (msgseq : BitVec 32) (m : Message α) : Control α :=
  let conv := (rcvHashCk conv msgseq).2
  {conv with outOfOrderMsgs := (msgseq, m) :: conv.outOfOrderMsgs}

def normalConnectionShutdown (_ : Control α) : Control α :=
  ⟨.noInitated, 0, false, false, 0, 0, 0, 0, none, []⟩

/-- `get_current_connection` for the one record: a server's descriptor is beyond the upper count. -/
def getCurrentConnection (server : Bool) (conv : Control α) (cd : Int) : Option (Control α) :=
  if conv.status ≠ .inConversation then none
  else if server then if ndrxConvUpperCnt ≤ cd ∧ conv.cd = cd-ndrxConvUpperCnt then some conv else none
  else if 0 ≤ cd ∧ cd < ndrxConvUpperCnt ∧ conv.cd = cd then some conv else none

def Args.fail (a : Args α β) (err : Option Int) : Out α β := ⟨false, err, none, a.commandId, none, none⟩

def answer (a : Args α β) (conv : Control α) (rply : Message α) : Out α β × Control α :=
  let conv := {conv with msgseqin := conv.msgseqin+1, rcode := rply.rcode, rval := rply.rval}
  if rply.replyError then
    if rply.rcode = tpesvcerr then
      (⟨false, some tpeevent, some .svcerr, rply.commandId, none, some rply⟩, normalConnectionShutdown conv)
    else (⟨false, some rply.rcode, none, rply.commandId, none, some rply⟩, normalConnectionShutdown conv)
  else if rply.commandId = .disconn then
    (⟨false, some tpeevent, some .disconimm, rply.commandId, none, some rply⟩, normalConnectionShutdown conv)
  else
    match a.prepare rply.data with
    | .error err => (⟨false, some err, none, rply.commandId, none, some rply⟩, conv)
    | .ok data =>
      if rply.commandId = .tpreply then
        (⟨false, some tpeevent, some (if rply.rval ≠ tpsuccess then .svcfail else .svcsucc), rply.commandId,
          some data, some rply⟩, normalConnectionShutdown conv)
      else if rply.sendonly then
        (⟨false, some tpeevent, some .sendonly, rply.commandId, some data, some rply⟩,
          {conv with revent := some .sendonly, sendonly := true, recvonly := false})
      else (⟨true, none, none, rply.commandId, some data, some rply⟩, conv)

/-- The receive loop. `last` is the message in the system buffer, if it has been filled; passes that
are not needed are given back, and without an answer at the end the call still waits. -/
def recvLoop (a : Args α β) (conv : Control α) (last : Option (Message α)) :
    List (Pass α) → Option (Out α β × Control α × Option (Message α) × List (Pass α))
  | [] => none
  | .expired :: ps =>
    if a.notime then recvLoop a conv last ps else some (a.fail (some tpetime), conv, last, ps)
  | .noData :: ps => some (a.fail (if a.ignBlkerr then none else some tpeblock), conv, last, ps)
  | .failed :: ps => some (a.fail (some tpeos), conv, last, ps)
  | .got rply :: ps =>
    if conv.cd ≠ rply.cd then recvLoop a conv (some rply) ps
    else if rply.msgseq ≠ conv.msgseqin then
      -- parked with its buffer, a new buffer is taken for the next
      recvLoop a (rcvHashAdd conv rply.msgseq rply) none ps
    else
      let (out, conv) := answer a conv rply
      some (out, conv, some rply, ps)

def receive (server : Bool) (a : Args α β) (conv : Control α) (ps : List (Pass α)) :
    Option (Out α β × Control α × Option (Message α) × List (Pass α)) :=
  match getCurrentConnection server conv a.cd with
  | none => some (a.fail (some tpeinval), conv, none, ps)
  | some conv =>
    if a.commandId = .convdata ∧ conv.sendonly then some (a.fail (some tpeproto), conv, none, ps)
    else
      match rcvHashCk conv conv.msgseqin with
      | (some rply, conv) =>
        if rply.msgseq ≠ conv.msgseqin then recvLoop a (rcvHashAdd conv rply.msgseq rply) none ps
        else
          let (out, conv) := answer a conv rply
          some (out, conv, some rply, ps)
      | (none, conv) => recvLoop a conv none ps

def atmiXaUpdateKnownRms (dst : List UInt8) : List UInt8 → Bool × List UInt8
  | [] => (true, dst)
  | c :: src =>
    if c ∈ dst then atmiXaUpdateKnownRms dst src
    else if dst.length = ndrxMaxRms then (false, dst)
    else atmiXaUpdateKnownRms (dst ++ [c]) src

def markEvent (revent : Option Event) (tx : TxInfo) : TxInfo :=
  if revent = some .disconimm ∨ revent = some .svcerr ∨ revent = some .svcfail then
    {tx with abortOnly := true}
  else tx

def markReply (out : Out α β) (rply : Message α) (tx : TxInfo) : Out α β × TxInfo :=
  if tx.tmxid ≠ rply.tmxid then (out, tx)
  else if rply.abortOnly then (out, {tx with abortOnly := true})
  else
    let (fits, rms) := atmiXaUpdateKnownRms tx.tmknownrms rply.tmknownrms
    if fits then (out, {tx with tmknownrms := rms})
    else ({out with ok := false}, {tx with abortOnly := true, tmknownrms := rms})

def markTx (out : Out α β) (last : Option (Message α)) (tx : TxInfo) : Out α β × TxInfo :=
  match last with
  | none => (out, markEvent out.revent tx)
  | some rply => markReply out rply (markEvent out.revent tx)

def ndrxTprecv (server : Bool) (a : Args α β) (th : Thread α) (ps : List (Pass α)) :
    Option (Out α β × Thread α × List (Pass α)) :=
  (receive server a th.conv ps).map fun (out, conv, last, ps) =>
    match th.txinfo with
    | none => (out, ⟨conv, none⟩, ps)
    | some tx =>
      let (out, tx) := markTx out last tx
      (out, ⟨conv, some tx⟩, ps)

structure SendArgs (α β : Type) where
  cd : Int
  commandId : Command
  sendonly : Bool
  recvonly : Bool
  prepared : Except Int α
  queued : Except Int Unit
  prepare : α → Except Int β

structure Sent where
  ok : Bool
  tperrno : Option Int
  revent : Option Event

def SendArgs.unsolicited (b : SendArgs α β) (commandId : Command) : Args α β :=
  ⟨b.cd, commandId, true, false, b.prepare⟩

/-- The loop of `process_unsolicited_messages`, with the passes of each call; the calls are listed
with what they left behind. A call leaves its command in the variable for the next one. -/
def unsolicitedLoop (server : Bool) (b : SendArgs α β) (commandId : Command) (th : Thread α) :
    List (List (Pass α)) → Option (List (Call α β) × Out α β × Thread α × List (List (Pass α)))
  | [] => none
  | ps :: rest =>
    let txinfo := th.txinfo
    match ndrxTprecv server (b.unsolicited commandId) th ps with
    | some (out, th, []) =>
      if out.ok then
        (unsolicitedLoop server b out.commandId th rest).map fun (calls, fin) =>
          (⟨b.unsolicited commandId, txinfo, out⟩ :: calls, fin)
      else some ([⟨b.unsolicited commandId, txinfo, out⟩], out, th, rest)
    | _ => none

def fillCall (b : SendArgs α β) (th : Thread α) (data : α) : Message α where
  commandId := b.commandId
  cd := if ndrxConvUpperCnt ≤ th.conv.cd then th.conv.cd-ndrxConvUpperCnt else th.conv.cd
  msgseq := th.conv.msgseqout
  replyError := false
  rval := 0
  rcode := 0
  sendonly := !b.sendonly && b.recvonly
  recvonly := b.sendonly
  tmxid := th.txinfo.elim [] (·.tmxid)
  abortOnly := th.txinfo.elim false (·.abortOnly)
  tmknownrms := th.txinfo.elim [] (·.tmknownrms)
  data := data

def sendMessage (b : SendArgs α β) (th : Thread α) : Sent × Thread α × Option (Message α) :=
  if th.conv.status ≠ .inConversation then
    (⟨false, some tpeevent, if th.conv.revent = some .svcsucc then some .svcerr else th.conv.revent⟩,
      {th with conv := normalConnectionShutdown th.conv}, none)
  else
    match b.prepared with
    | .error err => (⟨false, some err, none⟩, th, none)
    | .ok data =>
      match b.queued with
      | .error err => (⟨false, some err, none⟩, th, none)
      | .ok () =>
        (⟨true, none, none⟩, {th with conv := {th.conv with msgseqout := th.conv.msgseqout+1}},
          some (fillCall b th data))

def ndrxTpsend (server : Bool) (b : SendArgs α β) (th : Thread α) (passes : List (List (Pass α))) :
    Option (Sent × Thread α × Option (Message α) × List (Call α β) × List (List (Pass α))) :=
  match getCurrentConnection server th.conv b.cd with
  | none => some (⟨false, some tpeinval, none⟩, th, none, [], passes)
  | some conv =>
    if b.commandId = .convdata ∧ conv.recvonly then
      some (⟨false, some tpeproto, none⟩, th, none, [], passes)
    else
      let conv := if b.recvonly then {conv with recvonly := true, sendonly := false} else conv
      match unsolicitedLoop server b .connunsol {th with conv := conv} passes with
      | none => none
      | some (calls, out, th, passes) =>
        if out.tperrno = some tpeevent ∧ out.revent ≠ some .sendonly then
          some (⟨false, out.tperrno, out.revent⟩, th, none, calls, passes)
        else
          let (sent, th, m) := sendMessage b th
          some (sent, th, m, calls, passes)

/-- `ndrx_tpdiscon` with the reply queue open: the record is cleared whether or not the other side
could be told. -/
def ndrxTpdiscon (server : Bool) (b : SendArgs α β) (th : Thread α) (passes : List (List (Pass α))) :
    Option (Thread α × Option (Message α) × List (Call α β) × List (List (Pass α))) :=
  match getCurrentConnection server th.conv b.cd with
  | none => some (th, none, [], passes)
  | some _ =>
    (ndrxTpsend server {b with commandId := .disconn, sendonly := false, recvonly := false} th passes).map
      fun (_, th, m, calls, passes) => ({th with conv := normalConnectionShutdown th.conv}, m, calls, passes)

/-- One end, the other, the messages on their way from the other end or in the queue, all messages
the other end has sent, and the receiving calls of this end. -/
structure Sys (α β : Type) where
  me : Thread α
  peer : Thread α
  net : List (Message α)
  sent : List (Message α)
  calls : List (Call α β)

def ownOf (cd : Int) (ps : List (Pass α)) : List (Message α) :=
  ps.filterMap fun
    | .got m => if m.cd = cd then some m else none
    | _ => none

def taken (calls : List (Call α β)) : List (Message α) := calls.filterMap (·.out.rply)

/-- What can happen. The queue gives the messages on their way in any order, and any messages of other
descriptors; what the other end receives is not restricted. -/
inductive Step (server : Bool) (cd : Int) (s : Sys α β) : Sys α β → Prop
  | recv {a ps out th net} (h : ndrxTprecv server a s.me ps = some (out, th, []))
      (hnet : s.net.Perm (ownOf cd ps ++ net)) :
      Step server cd s {s with me := th, net := net, calls := s.calls ++ [⟨a, s.me.txinfo, out⟩]}
  | send {b passes r th m calls net} (h : ndrxTpsend server b s.me passes = some (r, th, m, calls, []))
      (hnet : s.net.Perm (ownOf cd passes.flatten ++ net)) :
      Step server cd s {s with me := th, net := net, calls := s.calls ++ calls}
  | discon {b passes th m calls net} (h : ndrxTpdiscon server b s.me passes = some (th, m, calls, []))
      (hnet : s.net.Perm (ownOf cd passes.flatten ++ net)) :
      Step server cd s {s with me := th, net := net, calls := s.calls ++ calls}
  | peerRecv {a : Args α β} {ps out th rest} (h : ndrxTprecv (!server) a s.peer ps = some (out, th, rest)) :
      Step server cd s {s with peer := th}
  | peerSend {b : SendArgs α β} {passes r th m calls rest}
      (h : ndrxTpsend (!server) b s.peer passes = some (r, th, m, calls, rest))
      (hout : s.sent.length-(taken s.calls).length+1 < 2^32) :
      Step server cd s {s with peer := th, net := s.net ++ m.toList, sent := s.sent ++ m.toList}
  | peerDiscon {b : SendArgs α β} {passes th m calls rest}
      (h : ndrxTpdiscon (!server) b s.peer passes = some (th, m, calls, rest))
      (hout : s.sent.length-(taken s.calls).length+1 < 2^32) :
      Step server cd s {s with peer := th, net := s.net ++ m.toList, sent := s.sent ++ m.toList}

/-- Nothing is on its way, and the other end counts from the number that is expected. -/
structure Start (cd : Int) (s : Sys α β) : Prop where
  cd_lt : cd < ndrxConvUpperCnt
  me : s.me.conv.status = .inConversation ∧ s.me.conv.cd = cd ∧
    s.me.conv.outOfOrderMsgs = []
  peer : s.peer.conv.status = .inConversation ∧ s.peer.conv.cd = cd ∧
    s.peer.conv.msgseqout = s.me.conv.msgseqin
  nothing : s.net = [] ∧ s.sent = [] ∧ s.calls = []

def HandsOut (out : Out α β) : Prop := out.ok = true ∨ out.revent.isSome = true

instance (out : Out α β) : Decidable (HandsOut out) := by
  unfold HandsOut
  infer_instance

/-- Exactly `rest` is still to come to the end with `conv`, on its way or parked, and the number that
follows is `next`. -/
structure Pending (cd : Int) (next : BitVec 32) (conv : Control α) (net rest : List (Message α)) : Prop where
  cd_eq : conv.cd = cd
  seq : conv.msgseqin + BitVec.ofNat 32 rest.length = next
  numbered : Numbered Message.msgseq conv.msgseqin rest
  bound : rest.length ≤ 2^32
  keyed : ∀ el ∈ conv.outOfOrderMsgs, el.1 = el.2.msgseq
  perm : (net ++ conv.outOfOrderMsgs.map (·.2)).Perm rest

def NoneDue (conv : Control α) : Prop := ∀ el ∈ conv.outOfOrderMsgs, el.1 ≠ conv.msgseqin

variable {q : BitVec 32} {conv : Control α}

theorem rcvHashCk_none (h : ∀ el ∈ conv.outOfOrderMsgs, el.1 ≠ q) :
    rcvHashCk conv q = (none, conv) := by
  have hfind : conv.outOfOrderMsgs.find? (fun el => el.1 = q) = none := by
    apply find?_eq_none.mpr
    intro el hel
    simpa using h el hel
  rw [rcvHashCk, hfind]

variable {conv' : Control α}

theorem rcvHashCk_eq_none (h : rcvHashCk conv q = (none, conv')) :
    conv' = conv ∧ ∀ el ∈ conv.outOfOrderMsgs, el.1 ≠ q := by
  rw [rcvHashCk] at h
  split at h
  · rename_i hfind
    refine ⟨(Prod.mk.inj h).2.symm, ?_⟩
    intro el hel
    simpa using find?_eq_none.mp hfind el hel
  · exact absurd (Prod.mk.inj h).1 (by simp)

variable {m : Message α}

theorem rcvHashCk_eq_some (h : rcvHashCk conv q = (some m, conv')) :
    ∃ els, conv' = {conv with outOfOrderMsgs := els} ∧ conv.outOfOrderMsgs.Perm ((q, m) :: els) := by
  rw [rcvHashCk] at h
  split at h
  · exact absurd (Prod.mk.inj h).1 (by simp)
  rename_i el hfind
  obtain ⟨hm, hc⟩ := Prod.mk.inj h
  refine ⟨_, hc.symm, ?_⟩
  obtain ⟨hp, as, bs, hsplit, has⟩ := find?_eq_some_iff_append.mp hfind
  have hel : el = (q, m) := Prod.ext (by simpa using hp) (Option.some.inj hm)
  have herase : conv.outOfOrderMsgs.eraseP (fun el => el.1 = q) = as ++ bs := by
    rw [hsplit, eraseP_append_right _ (by simpa using has), eraseP_cons, hp, cond_true]
  rw [herase, hsplit, hel]
  exact perm_middle

section

variable {cd : Int} {next : BitVec 32} {conv : Control α} {net rest : List (Message α)} {m : Message α}

theorem Pending.head_seq (h : Pending cd next conv net rest) (hm : rest.head? = some m) :
    m.msgseq = conv.msgseqin := by
  obtain ⟨ms, rfl⟩ := head?_eq_some_iff.mp hm
  exact h.numbered.1

theorem Pending.mem_net (h : Pending cd next conv net rest) (hdue : NoneDue conv) (hm : rest.head? = some m) :
    m ∈ net := by
  have hseq := h.head_seq hm
  have hmem : m ∈ net ++ conv.outOfOrderMsgs.map (·.2) :=
    h.perm.mem_iff.mpr (mem_of_mem_head? hm)
  rcases mem_append.mp hmem with hnet | hparked
  · exact hnet
  · -- it would be parked under the expected number
    obtain ⟨el, hel, rfl⟩ := mem_map.mp hparked
    exact absurd ((h.keyed el hel).trans hseq) (hdue el hel)

theorem Pending.nodup (h : Pending cd next conv net rest) :
    ((net ++ conv.outOfOrderMsgs.map (·.2)).map Message.msgseq).Nodup := by
  apply (h.perm.map _).nodup_iff.mpr
  exact h.numbered.nodup h.bound

theorem Pending.park (h : Pending cd next conv (m :: net) rest) :
    rcvHashAdd conv m.msgseq m = {conv with outOfOrderMsgs := (m.msgseq, m) :: conv.outOfOrderMsgs} ∧
      Pending cd next (rcvHashAdd conv m.msgseq m) net rest := by
  -- no other message with this number is parked that would be dropped for it
  have hfree : ∀ el ∈ conv.outOfOrderMsgs, el.1 ≠ m.msgseq := by
    intro el hel heq
    have hnd := h.nodup
    rw [cons_append, map_cons, nodup_cons] at hnd
    apply hnd.1
    apply mem_map.mpr
    refine ⟨el.2, mem_append_right _ (mem_map.mpr ⟨el, hel, rfl⟩), ?_⟩
    rw [← h.keyed el hel, heq]
  have hadd : rcvHashAdd conv m.msgseq m =
      {conv with outOfOrderMsgs := (m.msgseq, m) :: conv.outOfOrderMsgs} := by
    rw [rcvHashAdd, rcvHashCk_none hfree]
  refine ⟨hadd, ?_⟩
  rw [hadd]
  refine {h with keyed := ?_, perm := ?_}
  · intro el hel
    rcases mem_cons.mp hel with rfl | hel
    · rfl
    · exact h.keyed el hel
  · exact perm_middle.trans h.perm

/-- A parked message is injected with the number of its entry. -/
theorem Pending.unpark (h : Pending cd next conv net rest)
    (hck : rcvHashCk conv conv.msgseqin = (some m, conv')) :
    m.msgseq = conv'.msgseqin ∧ Pending cd next conv' (m :: net) rest := by
  obtain ⟨els, rfl, hperm⟩ := rcvHashCk_eq_some hck
  refine ⟨(h.keyed (_, m) (hperm.mem_iff.mpr mem_cons_self)).symm, ?_⟩
  refine {h with keyed := ?_, perm := ?_}
  · intro el hel
    exact h.keyed el (hperm.mem_iff.mpr (mem_cons_of_mem _ hel))
  · have hmid : (net ++ m :: els.map (·.2)).Perm (m :: net ++ els.map (·.2)) := perm_middle
    have hall := (hperm.map (·.2)).append_left net
    exact hmid.symm.trans (hall.symm.trans h.perm)

theorem Pending.take (h : Pending cd next conv (m :: net) rest) (hseq : m.msgseq = conv.msgseqin) :
    ∃ rest', rest = m :: rest' ∧
      ∀ conv' : Control α, conv'.cd = conv.cd → conv'.msgseqin = conv.msgseqin+1 →
        conv'.outOfOrderMsgs = conv.outOfOrderMsgs → Pending cd next conv' net rest' := by
  have hmem : m ∈ rest := h.perm.mem_iff.mp mem_cons_self
  obtain ⟨rest', rfl, hnum⟩ := h.numbered.head_of_key h.bound hmem hseq
  refine ⟨rest', rfl, ?_⟩
  intro conv' hcd hin hooo
  refine ⟨hcd.trans h.cd_eq, ?_, ?_, ?_, ?_, ?_⟩
  · rw [hin, add_one_add_ofNat]
    exact h.seq
  · rw [hin]
    exact hnum
  · exact (Nat.le_succ _).trans h.bound
  · rw [hooo]
    exact h.keyed
  · rw [hooo]
    exact h.perm.cons_inv

end

def Keeps (conv conv' : Control α) : Prop :=
  conv'.status = .inConversation →
    conv.status = .inConversation ∧ conv'.cd = conv.cd ∧ conv'.msgseqout = conv.msgseqout

theorem Keeps.refl (conv : Control α) : Keeps conv conv := fun h => ⟨h, rfl, rfl⟩

theorem Keeps.trans {c1 c2 c3 : Control α} (h1 : Keeps c1 c2) (h2 : Keeps c2 c3) : Keeps c1 c3 := by
  intro h
  obtain ⟨ho2, hcd2, hout2⟩ := h2 h
  obtain ⟨ho1, hcd1, hout1⟩ := h1 ho2
  exact ⟨ho1, hcd2.trans hcd1, hout2.trans hout1⟩

theorem rcvHashAdd_eq (conv : Control α) (q : BitVec 32) (m : Message α) :
    ∃ els, rcvHashAdd conv q m = {conv with outOfOrderMsgs := els} := by
  unfold rcvHashAdd rcvHashCk
  split <;> exact ⟨_, rfl⟩

def Tracks (cd : Int) (next : BitVec 32) (conv : Control α) (net rest : List (Message α)) : Prop :=
  conv.status = .inConversation → Pending cd next conv net rest

variable {cd : Int} {next : BitVec 32}

theorem Tracks.of_perm {net net' rest : List (Message α)} (h : Tracks cd next conv net rest)
    (hnet : net.Perm net') : Tracks cd next conv net' rest := by
  intro hopen
  have hp := h hopen
  exact {hp with perm := (hnet.symm.append_right _).trans hp.perm}

def Said (a : Args α β) (m : Message α) (out : Out α β) : Prop :=
  out.rply = some m ∧ (HandsOut out → m.replyError = true ∨ m.commandId = .disconn ∨
      ∃ d, out.data = some d ∧ a.prepare m.data = .ok d) ∧
    (HandsOut out ∨ m.replyError = true ∨ ∃ e, a.prepare m.data = .error e)

theorem answer_said (a : Args α β) (conv : Control α) (m : Message α) : Said a m (answer a conv m).1 := by
  unfold answer
  split
  · split <;> simp_all [Said]
  split
  · simp_all [Said, HandsOut]
  · split
    · simp_all [Said, HandsOut]
    · split
      · simp_all [Said, HandsOut]
      · split <;> simp_all [Said, HandsOut]

variable {a : Args α β}

theorem answer_open (h : (answer a conv m).2.status = .inConversation) :
    conv.status = .inConversation ∧ (answer a conv m).2.cd = conv.cd ∧
      (answer a conv m).2.msgseqout = conv.msgseqout ∧
      (answer a conv m).2.msgseqin = conv.msgseqin+1 ∧
      (answer a conv m).2.outOfOrderMsgs = conv.outOfOrderMsgs := by
  revert h
  unfold answer
  split
  · split <;> (intro h; cases h)
  split
  · intro h
    cases h
  split
  · exact fun h => ⟨h, rfl, rfl, rfl, rfl⟩
  · split
    · intro h
      cases h
    · split <;> exact fun h => ⟨h, rfl, rfl, rfl, rfl⟩

theorem answer_tracks {net rest : List (Message α)} (h : Pending cd next conv (m :: net) rest)
    (hseq : m.msgseq = conv.msgseqin) :
    ∃ rest', rest = m :: rest' ∧ Tracks cd next (answer a conv m).2 net rest' := by
  obtain ⟨rest', hrest, hnext⟩ := h.take hseq
  refine ⟨rest', hrest, ?_⟩
  intro hopen
  obtain ⟨-, hcd, -, hin, hooo⟩ := answer_open hopen
  exact hnext _ hcd hin hooo

/-- How a call ends: without a message and with the expected one still on its way, or with the next
message. -/
def Ends (a : Args α β) (cd : Int) (next : BitVec 32) (net rest : List (Message α))
    (r : Out α β × Control α × Option (Message α) × List (Pass α)) : Prop :=
  (r.1.rply = none ∧ ¬ HandsOut r.1 ∧ NoneDue r.2.1 ∧
      Pending cd next r.2.1 (ownOf cd r.2.2.2 ++ net) rest) ∨
    ∃ m rest', Said a m r.1 ∧ r.2.2.1 = some m ∧ rest = m :: rest' ∧
      Tracks cd next r.2.1 (ownOf cd r.2.2.2 ++ net) rest'

theorem not_handsOut_fail (a : Args α β) (err : Option Int) : ¬ HandsOut (a.fail err) := by
  rintro (h | h) <;> cases h

variable {ps : List (Pass α)}

theorem ownOf_foreign (hcd : cd ≠ m.cd) : ownOf cd (.got m :: ps) = ownOf cd ps :=
  filterMap_cons_none (if_neg hcd.symm)

theorem ownOf_own (hcd : ¬ cd ≠ m.cd) : ownOf cd (.got m :: ps) = m :: ownOf cd ps :=
  filterMap_cons_some (if_pos (not_not.mp hcd).symm)

variable {r : Out α β × Control α × Option (Message α) × List (Pass α)}

/-- One induction over the passes: a foreign message changes nothing, an early one is parked, the
expected one ends the loop. -/
theorem recvLoop_ends {net rest : List (Message α)} {last : Option (Message α)}
    (hp : Pending cd next conv (ownOf cd ps ++ net) rest) (hdue : NoneDue conv)
    (h : recvLoop a conv last ps = some r) : Ends a cd next net rest r := by
  induction ps generalizing conv last with
  | nil => cases h
  | cons p ps ih =>
    -- a pass that ends the call without a message is the last one
    have hstop (err : Option Int) (hown : ownOf cd (p :: ps) = ownOf cd ps)
        (hr : some (a.fail err, conv, last, ps) = some r) : Ends a cd next net rest r := by
      cases hr
      rw [hown] at hp
      exact .inl ⟨rfl, not_handsOut_fail a err, hdue, hp⟩
    cases p with
    | expired =>
      rw [recvLoop] at h
      split at h
      · exact ih hp hdue h
      · exact hstop _ rfl h
    | noData => exact hstop _ rfl h
    | failed => exact hstop _ rfl h
    | got m =>
      rw [recvLoop, hp.cd_eq] at h
      split at h
      · -- of another descriptor
        rename_i hcd
        rw [ownOf_foreign hcd] at hp
        exact ih hp hdue h
      rename_i hcd
      rw [ownOf_own hcd] at hp
      split at h
      · rename_i hseq
        obtain ⟨hadd, hpark⟩ := hp.park
        refine ih hpark ?_ h
        rw [hadd]
        exact forall_mem_cons.mpr ⟨hseq, hdue⟩
      · rename_i hseq
        obtain ⟨rest', hrest, htracks⟩ := answer_tracks (a := a) hp (not_not.mp hseq)
        cases h
        exact .inr ⟨m, rest', answer_said a conv m, rfl, hrest, htracks⟩

variable {server : Bool}

theorem getCurrentConnection_eq (h : getCurrentConnection server conv cd = some conv') :
    conv' = conv ∧ conv.status = .inConversation := by
  unfold getCurrentConnection at h
  split at h
  · cases h
  · rename_i hopen
    refine ⟨?_, not_not.mp hopen⟩
    split at h <;> split at h <;> cases h <;> rfl

section

variable {P : Control α → Out α β → Control α → Prop}
  (hfail : ∀ c err, err ≠ some tpeevent → P c (a.fail err) c)
  (hpark : ∀ c els o c', P {c with outOfOrderMsgs := els} o c' → P c o c')
  (hanswer : ∀ c m, P c (answer a c m).1 (answer a c m).2)

include hfail hpark hanswer

/-- What a receiving call can do to its record: nothing, to move messages in and out of the hash, to
take one as the answer. -/
theorem recvLoop_induct {conv : Control α} {last : Option (Message α)}
    (h : recvLoop a conv last ps = some r) : P conv r.1 r.2.1 := by
  induction ps generalizing conv last with
  | nil => cases h
  | cons p ps ih =>
    cases p with
    | expired =>
      rw [recvLoop] at h
      split at h
      · exact ih h
      · cases h
        exact hfail conv _ (by decide)
    | noData =>
      cases h
      exact hfail conv _ (by split <;> decide)
    | failed =>
      cases h
      exact hfail conv _ (by decide)
    | got m =>
      rw [recvLoop] at h
      split at h
      · exact ih h
      split at h
      · obtain ⟨els, hels⟩ := rcvHashAdd_eq conv m.msgseq m
        rw [hels] at h
        exact hpark conv els _ _ (ih h)
      · cases h
        exact hanswer conv m

theorem receive_induct {server : Bool} {conv : Control α} (h : receive server a conv ps = some r) :
    P conv r.1 r.2.1 := by
  rw [receive] at h
  split at h
  · cases h
    exact hfail conv _ (by decide)
  rename_i conv' hget
  obtain ⟨rfl, -⟩ := getCurrentConnection_eq hget
  split at h
  · cases h
    exact hfail conv' _ (by decide)
  split at h
  · rename_i m conv1 hck
    obtain ⟨els, rfl, -⟩ := rcvHashCk_eq_some hck
    apply hpark conv' els
    split at h
    · obtain ⟨els', hels⟩ := rcvHashAdd_eq {conv' with outOfOrderMsgs := els} m.msgseq m
      rw [hels] at h
      exact hpark _ els' _ _ (recvLoop_induct hfail hpark hanswer h)
    · cases h
      exact hanswer _ m
  · rename_i conv1 hck
    obtain ⟨rfl, -⟩ := rcvHashCk_eq_none hck
    exact recvLoop_induct hfail hpark hanswer h

end

def Admitted (server : Bool) (a : Args α β) (conv : Control α) : Prop :=
  getCurrentConnection server conv a.cd = some conv ∧ ¬ (a.commandId = .convdata ∧ conv.sendonly = true)

/-- The pass does not end a call that still waits. -/
def Pass.Waits (a : Args α β) : Pass α → Prop
  | .expired => a.notime = true
  | .noData => False
  | .failed => False
  | .got _ => True

/-- The loop goes on to the expected message and returns with it. -/
theorem recvLoop_due {net rest : List (Message α)} {last : Option (Message α)}
    (hp : Pending cd next conv (ownOf cd ps ++ net) rest) (hm : rest.head? = some m)
    (hown : m ∈ ownOf cd ps) (hps : ∀ x ∈ ps, x.Waits a) :
    ∃ r, recvLoop a conv last ps = some r ∧ r.1.rply = some m := by
  induction ps generalizing conv last with
  | nil => cases hown
  | cons x ps ih =>
    rw [forall_mem_cons] at hps
    obtain ⟨hx, hps⟩ := hps
    cases x with
    | expired =>
      rw [recvLoop, if_pos (show a.notime = true from hx)]
      exact ih hp hown hps
    | noData => exact hx.elim
    | failed => exact hx.elim
    | got m1 =>
      rw [recvLoop, hp.cd_eq]
      split
      · rename_i hcd
        rw [ownOf_foreign hcd] at hp hown
        exact ih hp hown hps
      rename_i hcd
      rw [ownOf_own hcd] at hp hown
      split
      · rename_i hseq
        have hne : m ≠ m1 := fun he => hseq (he ▸ hp.head_seq hm)
        exact ih hp.park.2 ((mem_cons.mp hown).resolve_left hne) hps
      · rename_i hseq
        obtain ⟨_, rfl, -⟩ := hp.take (not_not.mp hseq)
        cases hm
        exact ⟨_, rfl, (answer_said a conv m).1⟩

theorem receive_due {net rest : List (Message α)} (hadm : Admitted server a conv)
    (hp : Pending cd next conv (ownOf cd ps ++ net) rest) (hm : rest.head? = some m) (hnet : m ∉ net)
    (hps : ∀ x ∈ ps, x.Waits a) : ∃ r, receive server a conv ps = some r ∧ r.1.rply = some m := by
  rw [receive, hadm.1]
  dsimp only
  rw [if_neg hadm.2]
  cases hck : rcvHashCk conv conv.msgseqin with
  | mk found conv1 =>
    cases found with
    | some =>
      obtain ⟨hseq, hp1⟩ := hp.unpark hck
      dsimp only
      rw [if_neg (not_not.mpr hseq)]
      obtain ⟨_, rfl, -⟩ := hp1.take hseq
      cases hm
      exact ⟨_, rfl, (answer_said a conv1 m).1⟩
    | none =>
      obtain ⟨rfl, hdue⟩ := rcvHashCk_eq_none hck
      have hmem := mem_append.mp (hp.mem_net hdue hm)
      exact recvLoop_due hp hm (hmem.resolve_right hnet) hps

/-- A receive hands out the next message in order, or nothing. -/
theorem receive_ends {net rest : List (Message α)}
    (ht : Tracks cd next conv (ownOf cd ps ++ net) rest) (h : receive server a conv ps = some r) :
    (r.1.rply = none ∧ ¬ HandsOut r.1 ∧ Tracks cd next r.2.1 (ownOf cd r.2.2.2 ++ net) rest ∧
      (Admitted server a conv → ∀ m, rest.head? = some m → m ∈ ownOf cd r.2.2.2 ++ net)) ∨
    ∃ m rest', Said a m r.1 ∧ r.2.2.1 = some m ∧ rest = m :: rest' ∧
      Tracks cd next r.2.1 (ownOf cd r.2.2.2 ++ net) rest' := by
  rw [receive] at h
  cases hget : getCurrentConnection server conv a.cd with
  | none =>
    rw [hget] at h
    cases h
    refine .inl ⟨rfl, not_handsOut_fail a _, ht, fun hadm => ?_⟩
    exact absurd (hadm.1.symm.trans hget) (Option.some_ne_none _)
  | some conv' =>
    obtain ⟨rfl, hopen⟩ := getCurrentConnection_eq hget
    rw [hget] at h
    dsimp only at h
    split at h
    · rename_i hproto
      cases h
      exact .inl ⟨rfl, not_handsOut_fail a _, ht, fun hadm => absurd hproto hadm.2⟩
    cases hck : rcvHashCk conv' conv'.msgseqin with
    | mk found conv1 =>
      rw [hck] at h
      cases found with
      | some rply =>
        obtain ⟨hseq, hp⟩ := (ht hopen).unpark hck
        dsimp only at h
        rw [if_neg (not_not.mpr hseq)] at h
        obtain ⟨rest', hrest, htracks⟩ := answer_tracks (a := a) hp hseq
        cases h
        exact .inr ⟨rply, rest', answer_said a conv1 rply, rfl, hrest, htracks⟩
      | none =>
        obtain ⟨rfl, hdue⟩ := rcvHashCk_eq_none hck
        rcases recvLoop_ends (ht hopen) hdue h with ⟨hnone, hno, hdue', hp⟩ | hsome
        · exact .inl ⟨hnone, hno, fun _ => hp, fun _ m hm => hp.mem_net hdue' hm⟩
        · exact .inr hsome

/-- The transaction can only turn a success into a failure, when its list of resource managers has no
room for those of the message. -/
theorem markTx_eq (out : Out α β) (last : Option (Message α)) (tx : TxInfo) :
    (markTx out last tx).1 = out ∨ (markTx out last tx).1 = {out with ok := false} ∧
      ∃ m, last = some m ∧ (atmiXaUpdateKnownRms tx.tmknownrms m.tmknownrms).1 = false := by
  have hrms : (markEvent out.revent tx).tmknownrms = tx.tmknownrms := by
    unfold markEvent
    split <;> rfl
  cases last with
  | none => exact .inl rfl
  | some m =>
    unfold markTx markReply
    dsimp only
    rw [hrms]
    split
    · exact .inl rfl
    split
    · exact .inl rfl
    · split
      · exact .inl rfl
      · rename_i hfull
        exact .inr ⟨rfl, m, rfl, by simpa using hfull⟩

def RmsFull (txinfo : Option TxInfo) (m : Message α) : Prop :=
  ∃ tx, txinfo = some tx ∧ (atmiXaUpdateKnownRms tx.tmknownrms m.tmknownrms).1 = false

variable {th th' : Thread α} {out : Out α β}

theorem ndrxTprecv_eq {ps' : List (Pass α)} (h : ndrxTprecv server a th ps = some (out, th', ps')) :
    ∃ out0 last, receive server a th.conv ps = some (out0, th'.conv, last, ps') ∧
      (out = out0 ∨ out = {out0 with ok := false} ∧ ∃ m, last = some m ∧ RmsFull th.txinfo m) := by
  rw [ndrxTprecv, Option.map_eq_some_iff] at h
  obtain ⟨⟨_, _, last, _⟩, hrec, heq⟩ := h
  dsimp only at heq
  split at heq
  · cases heq
    exact ⟨_, last, hrec, .inl rfl⟩
  · rename_i tx htx
    cases heq
    refine ⟨_, last, hrec, (markTx_eq _ last tx).imp_right ?_⟩
    rintro ⟨heq, m, hm, hfull⟩
    exact ⟨heq, m, hm, tx, htx, hfull⟩

theorem ndrxTprecv_of_receive (h : receive server a th.conv ps = some r) :
    ∃ out th', ndrxTprecv server a th ps = some (out, th', r.2.2.2) ∧ out.rply = r.1.rply := by
  rw [ndrxTprecv, h, Option.map_some]
  cases th.txinfo with
  | none => exact ⟨_, _, rfl, rfl⟩
  | some tx =>
    refine ⟨(markTx r.1 r.2.2.1 tx).1, _, rfl, ?_⟩
    rcases markTx_eq r.1 r.2.2.1 tx with heq | ⟨heq, -⟩
    · rw [heq]
    · rw [heq]

/-- What is said of any call: one that succeeds or reports an event hands out the message it has taken,
and one that has taken a message fails only for the reasons given. -/
def Told (c : Call α β) : Prop :=
  (HandsOut c.out → ∃ m, c.out.rply = some m ∧ (m.replyError = true ∨ m.commandId = .disconn ∨
      ∃ d, c.out.data = some d ∧ c.args.prepare m.data = .ok d)) ∧
    ∀ m, c.out.rply = some m → HandsOut c.out ∨ m.replyError = true ∨
      (∃ e, c.args.prepare m.data = .error e) ∨ RmsFull c.txinfo m

theorem ndrxTprecv_tracks {net rest : List (Message α)}
    (ht : Tracks cd next th.conv (ownOf cd ps ++ net) rest)
    (h : ndrxTprecv server a th ps = some (out, th', [])) :
    Told ⟨a, th.txinfo, out⟩ ∧ (∃ rest', rest = out.rply.toList ++ rest' ∧
      Tracks cd next th'.conv net rest') ∧
      (Admitted server a th.conv → out.rply = none → ∀ m, rest.head? = some m → m ∈ net) := by
  obtain ⟨out0, _, hrec, hout⟩ := ndrxTprecv_eq h
  -- a failure has no event that the transaction could have added
  have hless (hh : HandsOut {out0 with ok := false}) : HandsOut out0 :=
    .inr (hh.resolve_left Bool.false_ne_true)
  rcases receive_ends ht hrec with ⟨hnone, hno, htr, hadm⟩ | ⟨m, rest', hsaid, hlast, hrest, htr⟩
  · have hrply : out.rply = none ∧ ¬ HandsOut out := by
      rcases hout with rfl | ⟨rfl, -⟩
      · exact ⟨hnone, hno⟩
      · exact ⟨hnone, fun hh => hno (hless hh)⟩
    refine ⟨⟨fun hh => absurd hh hrply.2, fun m hm => ?_⟩, ⟨rest, ?_, htr⟩, fun ha _ => hadm ha⟩
    · exact absurd (hrply.1.symm.trans hm) (by simp)
    · rw [hrply.1]
      rfl
  · have hrply : out.rply = some m := by
      rcases hout with rfl | ⟨rfl, -⟩ <;> exact hsaid.1
    refine ⟨⟨?_, ?_⟩, ⟨rest', ?_, htr⟩, ?_⟩
    · intro hh
      refine ⟨m, hrply, ?_⟩
      rcases hout with rfl | ⟨rfl, -⟩
      · exact hsaid.2.1 hh
      · exact hsaid.2.1 (hless hh)
    · intro m1 hm1
      cases hrply.symm.trans hm1
      rcases hout with rfl | ⟨rfl, _, hm', hfull⟩
      · exact hsaid.2.2.imp_right (Or.imp_right .inl)
      · cases hlast.symm.trans hm'
        exact .inr (.inr (.inr hfull))
    · rw [hrply, hrest]
      rfl
    · intro _ hnone
      rw [hrply] at hnone
      cases hnone

theorem receive_keeps (h : receive server a conv ps = some r) : Keeps conv r.2.1 := by
  apply receive_induct (P := fun c _ c' => Keeps c c') _ _ _ h
  · exact fun c _ _ => Keeps.refl c
  · exact fun _ _ _ _ hk => hk
  · intro c m hopen
    obtain ⟨ho, hcd, hout, -, -⟩ := answer_open hopen
    exact ⟨ho, hcd, hout⟩

theorem ndrxTprecv_keeps {ps' : List (Pass α)}
    (h : ndrxTprecv server a th ps = some (out, th', ps')) : Keeps th.conv th'.conv := by
  obtain ⟨_, _, hrec, -⟩ := ndrxTprecv_eq h
  exact receive_keeps hrec

variable {calls : List (Call α β)}

section

variable {server : Bool} {b : SendArgs α β} {cd : Int} {next : BitVec 32} {net rest : List (Message α)}

theorem ownOf_append (cd : Int) (ps qs : List (Pass α)) : ownOf cd (ps ++ qs) = ownOf cd ps ++ ownOf cd qs :=
  filterMap_append

variable {passes passes' : List (List (Pass α))} {c : Command}

theorem unsolicitedLoop_cons
    (h : unsolicitedLoop server b c th (ps :: passes) = some (calls, out, th', passes')) :
    ∃ o th1, ndrxTprecv server (b.unsolicited c) th ps = some (o, th1, []) ∧
      (calls = [⟨b.unsolicited c, th.txinfo, o⟩] ∧ th' = th1 ∧ passes' = passes ∧ out = o ∨
        ∃ calls', calls = ⟨b.unsolicited c, th.txinfo, o⟩ :: calls' ∧
          unsolicitedLoop server b o.commandId th1 passes = some (calls', out, th', passes')) := by
  rw [unsolicitedLoop] at h
  split at h
  · rename_i o th1 hrecv
    refine ⟨o, th1, hrecv, ?_⟩
    split at h
    · obtain ⟨⟨calls', _⟩, hloop, heq⟩ := Option.map_eq_some_iff.mp h
      cases heq
      exact .inr ⟨calls', rfl, hloop⟩
    · cases h
      exact .inl ⟨rfl, rfl, rfl, rfl⟩
  · cases h

theorem taken_cons (e : Call α β) (calls : List (Call α β)) :
    taken (e :: calls) = e.out.rply.toList ++ taken calls := by
  cases he : e.out.rply <;> simp [taken, he]

theorem unsolicitedLoop_tracks (ht : Tracks cd next th.conv (ownOf cd passes.flatten ++ net) rest)
    (h : unsolicitedLoop server b c th passes = some (calls, out, th', [])) :
    (∀ e ∈ calls, Told e) ∧ ∃ rest', rest = taken calls ++ rest' ∧
      Tracks cd next th'.conv net rest' := by
  induction passes generalizing c th calls rest with
  | nil => cases h
  | cons ps _ ih =>
    obtain ⟨_, _, hrecv, hnext⟩ := unsolicitedLoop_cons h
    rw [flatten_cons, ownOf_append, append_assoc] at ht
    obtain ⟨htold, ⟨rest1, hrest1, ht1⟩, -⟩ := ndrxTprecv_tracks ht hrecv
    rcases hnext with ⟨rfl, rfl, rfl, -⟩ | ⟨_, rfl, hloop⟩
    · refine ⟨by simpa using htold, rest1, ?_, ?_⟩
      · rw [taken_cons, hrest1]
        exact congrArg (· ++ rest1) (append_nil _).symm
      · exact ht1
    · obtain ⟨htold', rest2, hrest2, ht2⟩ := ih ht1 hloop
      refine ⟨forall_mem_cons.mpr ⟨htold, htold'⟩, rest2, ?_, ht2⟩
      rw [taken_cons, hrest1, hrest2, append_assoc]

theorem unsolicitedLoop_keeps
    (h : unsolicitedLoop server b c th passes = some (calls, out, th', passes')) :
    Keeps th.conv th'.conv := by
  induction passes generalizing c th calls with
  | nil => cases h
  | cons ps _ ih =>
    obtain ⟨_, _, hrecv, hnext⟩ := unsolicitedLoop_cons h
    rcases hnext with ⟨-, rfl, -⟩ | ⟨_, -, hloop⟩
    · exact ndrxTprecv_keeps hrecv
    · exact (ndrxTprecv_keeps hrecv).trans (ih hloop)

theorem sendMessage_cases (b : SendArgs α β) (th : Thread α) :
    (sendMessage b th).2.2 = none ∧ ((sendMessage b th).2.1 = th ∨
        (sendMessage b th).2.1.conv = normalConnectionShutdown th.conv) ∨
      th.conv.status = .inConversation ∧ ∃ data, (sendMessage b th).2.2 = some (fillCall b th data) ∧
        (sendMessage b th).2.1.conv = {th.conv with msgseqout := th.conv.msgseqout+1} := by
  unfold sendMessage
  split
  · exact .inl ⟨rfl, .inr rfl⟩
  rename_i hopen
  split
  · exact .inl ⟨rfl, .inl rfl⟩
  · rename_i data _
    split
    · exact .inl ⟨rfl, .inl rfl⟩
    · exact .inr ⟨not_not.mp hopen, data, rfl, rfl⟩

theorem sendMessage_tracks (ht : Tracks cd next th.conv net rest) :
    Tracks cd next (sendMessage b th).2.1.conv net rest := by
  rcases sendMessage_cases b th with ⟨-, hth | hth⟩ | ⟨-, _, -, hth⟩
  · rw [hth]
    exact ht
  · rw [hth]
    intro h
    cases h
  · rw [hth]
    intro h
    exact {ht h with}

variable {m : Option (Message α)}

/-- How a call of `ndrx_tpsend` goes: refused, or with the flags of the record set and the unsolicited
messages thrown away before anything is sent. -/
theorem ndrxTpsend_cases {r : Sent}
    (h : ndrxTpsend server b th passes = some (r, th', m, calls, passes')) :
    th' = th ∧ m = none ∧ calls = [] ∧ passes' = passes ∨
      (b.commandId = .convdata → th.conv.recvonly = false) ∧
      ∃ snd out th1, unsolicitedLoop server b .connunsol {th with conv := {th.conv with
          sendonly := snd, recvonly := b.recvonly || th.conv.recvonly}} passes =
            some (calls, out, th1, passes') ∧
        ((out.tperrno = some tpeevent ∧ out.revent ≠ some .sendonly) ∧ th' = th1 ∧ m = none ∨
          th' = (sendMessage b th1).2.1 ∧ m = (sendMessage b th1).2.2) := by
  rw [ndrxTpsend] at h
  split at h
  · cases h
    exact .inl ⟨rfl, rfl, rfl, rfl⟩
  rename_i conv hget
  obtain ⟨rfl, -⟩ := getCurrentConnection_eq hget
  split at h
  · cases h
    exact .inl ⟨rfl, rfl, rfl, rfl⟩
  rename_i hmay
  have hflags : ∃ snd, (if b.recvonly then {th.conv with recvonly := true, sendonly := false}
      else th.conv) = {th.conv with sendonly := snd, recvonly := b.recvonly || th.conv.recvonly} := by
    cases b.recvonly
    · exact ⟨th.conv.sendonly, rfl⟩
    · exact ⟨false, rfl⟩
  obtain ⟨snd, hconv⟩ := hflags
  refine .inr ⟨fun hc => eq_false_of_ne_true fun hr => hmay ⟨hc, hr⟩, snd, ?_⟩
  dsimp only at h
  rw [hconv] at h
  split at h
  · cases h
  rename_i calls1 out th1 passes1 hloop
  split at h
  · rename_i hevent
    cases h
    exact ⟨_, _, hloop, .inl ⟨hevent, rfl, rfl⟩⟩
  · cases h
    exact ⟨_, _, hloop, .inr ⟨rfl, rfl⟩⟩

theorem ndrxTpsend_tracks {r : Sent}
    (ht : Tracks cd next th.conv (ownOf cd passes.flatten ++ net) rest)
    (h : ndrxTpsend server b th passes = some (r, th', m, calls, [])) :
    (∀ e ∈ calls, Told e) ∧ ∃ rest', rest = taken calls ++ rest' ∧
      Tracks cd next th'.conv net rest' := by
  rcases ndrxTpsend_cases h with ⟨rfl, -, rfl, rfl⟩ | ⟨-, snd, _, _, hloop, hend⟩
  · exact ⟨by simp, rest, rfl, ht⟩
  have ht0 : Tracks cd next {th.conv with sendonly := snd, recvonly := b.recvonly || th.conv.recvonly}
      (ownOf cd passes.flatten ++ net) rest := by
    intro hopen
    exact {ht hopen with}
  obtain ⟨htold, rest', hrest, ht1⟩ := unsolicitedLoop_tracks ht0 hloop
  refine ⟨htold, rest', hrest, ?_⟩
  rcases hend with ⟨-, rfl, -⟩ | ⟨rfl, -⟩
  · exact ht1
  · exact sendMessage_tracks ht1

theorem ndrxTpsend_sent {r : Sent}
    (h : ndrxTpsend server b th passes = some (r, th', m, calls, passes')) :
    m = none ∧ Keeps th.conv th'.conv ∨
      ∃ th1 data, Keeps th.conv th1.conv ∧ th1.conv.status = .inConversation ∧
        m = some (fillCall b th1 data) ∧ th'.conv = {th1.conv with msgseqout := th1.conv.msgseqout+1} := by
  rcases ndrxTpsend_cases h with ⟨rfl, rfl, -, -⟩ | ⟨-, _, _, th1, hloop, hend⟩
  · exact .inl ⟨rfl, Keeps.refl _⟩
  have hloopk := unsolicitedLoop_keeps hloop
  have hk : Keeps th.conv th1.conv := hloopk
  rcases hend with ⟨-, rfl, rfl⟩ | ⟨rfl, rfl⟩
  · exact .inl ⟨rfl, hk⟩
  rcases sendMessage_cases b th1 with ⟨hm, hth | hth⟩ | ⟨hopen, data, hm, hth⟩
  · rw [hth]
    exact .inl ⟨hm, hk⟩
  · refine .inl ⟨hm, ?_⟩
    rw [hth]
    intro hcon
    cases hcon
  · exact .inr ⟨th1, data, hk, hopen, hm, hth⟩

theorem ndrxTpdiscon_cases (h : ndrxTpdiscon server b th passes = some (th', m, calls, passes')) :
    th' = th ∧ m = none ∧ calls = [] ∧ passes' = passes ∨
      th'.conv.status = .noInitated ∧ ∃ b' r th1, ndrxTpsend server (b' : SendArgs α β) th passes =
        some (r, th1, m, calls, passes') := by
  rw [ndrxTpdiscon] at h
  split at h
  · cases h
    exact .inl ⟨rfl, rfl, rfl, rfl⟩
  · obtain ⟨⟨r, th1, _, _, _⟩, hsend, heq⟩ := Option.map_eq_some_iff.mp h
    cases heq
    exact .inr ⟨rfl, _, r, th1, hsend⟩

end

structure Inv (cd : Int) (s : Sys α β) : Prop where
  cd_lt : cd < ndrxConvUpperCnt
  split : ∃ next rest, s.sent = taken s.calls ++ rest ∧ rest.length < 2^32 ∧
    Tracks cd next s.me.conv s.net rest ∧ (s.peer.conv.status = .inConversation →
      s.peer.conv.cd = cd ∧ s.peer.conv.msgseqout = next)
  told : ∀ e ∈ s.calls, Told e
  clean : ∀ m ∈ s.sent, m.replyError = false

variable {server : Bool} {cd : Int} {s s' : Sys α β}

theorem Start.inv (h : Start cd s) : Inv cd s := by
  obtain ⟨hnet, hsent, hcalls⟩ := h.nothing
  obtain ⟨-, hcd, hooo⟩ := h.me
  refine ⟨h.cd_lt, ⟨s.me.conv.msgseqin, [], ?_, by simp, ?_, fun _ => h.peer.2⟩, ?_, ?_⟩
  · rw [hsent, hcalls]
    rfl
  · intro _
    refine ⟨hcd, by simp, trivial, by simp, ?_, ?_⟩
    · rw [hooo]
      simp
    · rw [hooo, hnet]
      exact List.Perm.refl []
  · rw [hcalls]
    simp
  · rw [hsent]
    simp

theorem taken_append (c1 c2 : List (Call α β)) : taken (c1 ++ c2) = taken c1 ++ taken c2 :=
  filterMap_append

theorem Inv.takes (h : Inv cd s) {net : List (Message α)}
    {own : List (Message α)} (hnet : s.net.Perm (own ++ net))
    (hstep : ∀ rest next, Tracks cd next s.me.conv (own ++ net) rest → (∀ e ∈ calls, Told e) ∧
      ∃ rest', rest = taken calls ++ rest' ∧ Tracks cd next th.conv net rest') :
    Inv cd {s with me := th, net := net, calls := s.calls ++ calls} := by
  obtain ⟨_, rest, hsent, hlen, ht, hpeer⟩ := h.split
  obtain ⟨htold, rest', hrest, ht2⟩ := hstep rest _ (ht.of_perm hnet)
  refine ⟨h.cd_lt, ⟨_, rest', ?_, ?_, ht2, hpeer⟩, ?_, h.clean⟩
  · show s.sent = taken (s.calls ++ calls) ++ rest'
    rw [taken_append, append_assoc, ← hrest, hsent]
  · rw [hrest, length_append] at hlen
    omega
  · exact forall_mem_append.mpr ⟨h.told, htold⟩

theorem Inv.peer_keeps (h : Inv cd s) (hk : Keeps s.peer.conv th.conv) :
    Inv cd {s with peer := th} := by
  obtain ⟨next, rest, hsent, hlen, ht, hpeer⟩ := h.split
  refine {h with split := ⟨next, rest, hsent, hlen, ht, ?_⟩}
  intro hopen
  obtain ⟨hopen', hcd, hout⟩ := hk hopen
  obtain ⟨hcd', hout'⟩ := hpeer hopen'
  exact ⟨hcd.trans hcd', hout.trans hout'⟩

theorem Inv.peer_sends (h : Inv cd s) {th1 : Thread α} {b : SendArgs α β} {data : α}
    (hout : s.sent.length-(taken s.calls).length+1 < 2^32) (hk : Keeps s.peer.conv th1.conv)
    (hopen : th1.conv.status = .inConversation) (hth : th.conv.status = .inConversation →
      th.conv = {th1.conv with msgseqout := th1.conv.msgseqout+1}) :
    Inv cd {s with
      peer := th, net := s.net ++ [fillCall b th1 data], sent := s.sent ++ [fillCall b th1 data]} := by
  obtain ⟨hopen0, hcd1, hout1⟩ := hk hopen
  obtain ⟨next, rest, hsent, _, ht, hpeer⟩ := h.split
  obtain ⟨hcd0, hout0⟩ := hpeer hopen0
  have hseq : th1.conv.msgseqout = next := hout1.trans hout0
  have hlen' : (rest ++ [fillCall b th1 data]).length < 2^32 := by
    rw [hsent, length_append, Nat.add_sub_cancel_left] at hout
    rw [length_append]
    exact hout
  refine ⟨h.cd_lt, ⟨next+1, rest ++ [fillCall b th1 data], ?_, hlen', ?_, ?_⟩, h.told, ?_⟩
  · show s.sent ++ [_] = taken s.calls ++ (rest ++ [_])
    rw [hsent, append_assoc]
  · intro hme
    have hp := ht hme
    refine ⟨hp.cd_eq, ?_, ?_, hlen'.le, hp.keyed, ?_⟩
    · rw [← hp.seq, length_append, BitVec.ofNat_add, ← BitVec.add_assoc]
      rfl
    · -- the sender's number is the receiver's, the pending messages on
      apply numbered_concat.mpr
      exact ⟨hp.numbered, hseq.trans hp.seq.symm⟩
    · have hmid : (s.net ++ [fillCall b th1 data] ++ s.me.conv.outOfOrderMsgs.map (·.2)).Perm
          (s.net ++ s.me.conv.outOfOrderMsgs.map (·.2) ++ [fillCall b th1 data]) := by
        rw [append_assoc, append_assoc]
        exact perm_append_comm.append_left _
      exact hmid.trans (hp.perm.append_right _)
  · intro hopen'
    show th.conv.cd = cd ∧ th.conv.msgseqout = next+1
    rw [hth hopen', ← hseq]
    exact ⟨hcd1.trans hcd0, rfl⟩
  · intro m hm
    rcases mem_append.mp hm with hm | hm
    · exact h.clean m hm
    · rw [mem_singleton.mp hm]
      rfl

/-- A step of either side keeps the order of the messages. -/
theorem Step.inv (hstep : Step server cd s s') (h : Inv cd s) : Inv cd s' := by
  cases hstep with
  | recv hrecv hnet =>
    apply h.takes hnet
    intro rest _ ht
    obtain ⟨htold, hrest, -⟩ := ndrxTprecv_tracks ht hrecv
    exact ⟨by simpa using htold, hrest⟩
  | send hsend hnet =>
    apply h.takes hnet
    intro rest _ ht
    exact ndrxTpsend_tracks ht hsend
  | discon hdis hnet =>
    apply h.takes hnet
    intro rest _ ht
    rcases ndrxTpdiscon_cases hdis with ⟨rfl, -, rfl, rfl⟩ | ⟨hclosed, b', r, th1, hsend⟩
    · exact ⟨by simp, rest, rfl, ht⟩
    · obtain ⟨htold, rest', hrest, -⟩ := ndrxTpsend_tracks ht hsend
      refine ⟨htold, rest', hrest, ?_⟩
      intro hopen
      rw [hclosed] at hopen
      cases hopen
  | peerRecv hrecv => exact h.peer_keeps (ndrxTprecv_keeps hrecv)
  | peerSend hsend hout =>
    rcases ndrxTpsend_sent hsend with ⟨rfl, hk⟩ | ⟨th1, data, hk, hopen, rfl, hth⟩
    · simpa using h.peer_keeps hk
    · exact h.peer_sends hout hk hopen (fun _ => hth)
  | peerDiscon hdis hout =>
    rcases ndrxTpdiscon_cases hdis with ⟨rfl, rfl, -, -⟩ | ⟨hclosed, _, _, _, hsend⟩
    · simpa using h
    · rcases ndrxTpsend_sent hsend with ⟨rfl, -⟩ | ⟨_, _, hk, hopen, rfl, -⟩
      · simpa using h.peer_keeps (fun hopen => by rw [hclosed] at hopen; cases hopen)
      · exact h.peer_sends hout hk hopen (fun hcon => by rw [hclosed] at hcon; cases hcon)

theorem run_inv (h0 : Inv cd s) (hrun : Relation.ReflTransGen (Step server cd) s s') : Inv cd s' := by
  induction hrun with
  | refl => exact h0
  | tail _ hstep ih => exact hstep.inv ih

/-- The messages taken are the first of those sent, in order. A call that succeeds or reports an event
hands out the one it has taken; a call that has taken one fails only when its payload could not be
put into the caller's buffer, or the list of resource managers is full. While the conversation is
open all others are on their way or parked, a receiving call ends without a message only when the
next one is still on its way, and a call that comes to the next one returns with it. -/
theorem received_in_order (h0 : Start cd s) (hrun : Relation.ReflTransGen (Step server cd) s s') :
    taken s'.calls <+: s'.sent ∧
    (∀ e ∈ s'.calls, HandsOut e.out → ∃ m, e.out.rply = some m ∧ (m.commandId = .disconn ∨
      ∃ d, e.out.data = some d ∧ e.args.prepare m.data = .ok d)) ∧
    (∀ e ∈ s'.calls, ∀ m, e.out.rply = some m →
      HandsOut e.out ∨ (∃ err, e.args.prepare m.data = .error err) ∨ RmsFull e.txinfo m) ∧
    (s'.me.conv.status = .inConversation → ∃ rest, s'.sent = taken s'.calls ++ rest ∧
      rest.Perm (s'.net ++ s'.me.conv.outOfOrderMsgs.map (·.2)) ∧
      (∀ (a : Args α β) ps out th net, ndrxTprecv server a s'.me ps = some (out, th, []) →
        s'.net.Perm (ownOf cd ps ++ net) → Admitted server a s'.me.conv → out.rply = none →
        ∀ m, rest.head? = some m → m ∈ net) ∧
      ∀ (a : Args α β) ps net m, s'.net.Perm (ownOf cd ps ++ net) → Admitted server a s'.me.conv →
        rest.head? = some m → m ∉ net → (∀ x ∈ ps, x.Waits a) →
        ∃ out th ps', ndrxTprecv server a s'.me ps = some (out, th, ps') ∧ out.rply = some m) := by
  have h := run_inv h0.inv hrun
  obtain ⟨_, rest, hsent, -, ht, -⟩ := h.split
  have hclean : ∀ e ∈ s'.calls, ∀ m, e.out.rply = some m → m.replyError = false := by
    intro e he m hm
    apply h.clean
    rw [hsent]
    exact mem_append_left _ (mem_filterMap.mpr ⟨e, he, hm⟩)
  refine ⟨⟨rest, hsent.symm⟩, ?_, ?_, ?_⟩
  · intro e he hh
    obtain ⟨m, hm, hdata⟩ := (h.told e he).1 hh
    rw [hclean e he m hm] at hdata
    exact ⟨m, hm, hdata.resolve_left (by decide)⟩
  · intro e he m hm
    have hfail := (h.told e he).2 m hm
    rw [hclean e he m hm] at hfail
    exact hfail.imp_right (fun hf => hf.resolve_left (by decide))
  · intro hopen
    refine ⟨rest, hsent, (ht hopen).perm.symm, ?_, ?_⟩
    · intro a ps out th net hrecv hnet hadm hnone m hm
      exact (ndrxTprecv_tracks (ht.of_perm hnet) hrecv).2.2 hadm hnone m hm
    · intro a ps net m hnet hadm hm hnot hps
      obtain ⟨_, hrec, hrply⟩ := receive_due hadm (ht.of_perm hnet hopen) hm hnot hps
      obtain ⟨out, th, hcall, hout⟩ := ndrxTprecv_of_receive hrec
      exact ⟨out, th, _, hcall, hout.trans hrply⟩

def sampleThread (msgseqout msgseqin : BitVec 32) (parked : List (BitVec 32 × Message ℕ)) : Thread ℕ :=
  ⟨⟨.inConversation, 0, false, false, msgseqout, msgseqin, 0, 0, none, parked⟩, none⟩

def sampleMessage (msgseq : BitVec 32) (data : ℕ) : Message ℕ :=
  ⟨.convdata, 0, msgseq, false, 0, 0, false, false, [], false, [], data⟩

def sampleSend (data : ℕ) : SendArgs ℕ ℕ :=
  ⟨1000, .convdata, false, false, .ok data, .ok (), .ok⟩

def sampleRecv (prepare : ℕ → Except Int ℕ) : Args ℕ ℕ := ⟨0, .convdata, false, false, prepare⟩

def sampleStart : Sys ℕ ℕ :=
  ⟨sampleThread 0xFFFFFFFE 0xFFFFFFFE [], sampleThread 0xFFFFFFFE 0xFFFFFFFE [], [], [], []⟩

def sampleM1 : Message ℕ := sampleMessage 0xFFFFFFFE 7

def sampleM2 : Message ℕ := sampleMessage 0xFFFFFFFF 8

theorem sampleStart_start : Start 0 sampleStart :=
  ⟨by decide, ⟨rfl, rfl, rfl⟩, ⟨rfl, rfl, rfl⟩, rfl, rfl, rfl⟩

/-- Two are sent; the first receiving call sees the second before the first, the second sees nothing. -/
theorem sample_run {prepare : ℕ → Except Int ℕ} {out1 out2 : Out ℕ ℕ}
    (h1 : ndrxTprecv false (sampleRecv prepare) (sampleThread 0xFFFFFFFE 0xFFFFFFFE [])
      [.got sampleM2, .got sampleM1] =
        some (out1, sampleThread 0xFFFFFFFE 0xFFFFFFFF [(0xFFFFFFFF, sampleM2)], []))
    (h2 : ndrxTprecv false (sampleRecv prepare)
      (sampleThread 0xFFFFFFFE 0xFFFFFFFF [(0xFFFFFFFF, sampleM2)]) [] =
        some (out2, sampleThread 0xFFFFFFFE 0 [], [])) :
    Relation.ReflTransGen (Step false 0) sampleStart
      ⟨sampleThread 0xFFFFFFFE 0 [], sampleThread 0 0xFFFFFFFE [], [], [sampleM1, sampleM2],
        [⟨sampleRecv prepare, none, out1⟩, ⟨sampleRecv prepare, none, out2⟩]⟩ := by
  -- the states after each of the steps
  let s1 : Sys ℕ ℕ := ⟨sampleThread 0xFFFFFFFE 0xFFFFFFFE [], sampleThread 0xFFFFFFFF 0xFFFFFFFE [],
    [sampleM1], [sampleM1], []⟩
  let s2 : Sys ℕ ℕ := ⟨sampleThread 0xFFFFFFFE 0xFFFFFFFE [], sampleThread 0 0xFFFFFFFE [],
    [sampleM1, sampleM2], [sampleM1, sampleM2], []⟩
  let s3 : Sys ℕ ℕ := ⟨sampleThread 0xFFFFFFFE 0xFFFFFFFF [(0xFFFFFFFF, sampleM2)],
    sampleThread 0 0xFFFFFFFE [], [], [sampleM1, sampleM2], [⟨sampleRecv prepare, none, out1⟩]⟩
  have hsend1 : ndrxTpsend true (sampleSend 7) sampleStart.peer [[.noData]] =
      some (⟨true, none, none⟩, s1.peer, some sampleM1, _, []) := rfl
  have hsend2 : ndrxTpsend true (sampleSend 8) (sampleThread 0xFFFFFFFF 0xFFFFFFFE []) [[.noData]] =
      some (⟨true, none, none⟩, sampleThread 0 0xFFFFFFFE [], some sampleM2, _, []) := rfl
  have hstep1 : Step false 0 sampleStart _ := .peerSend hsend1 (by decide)
  have hstep2 : Step false 0 s1 _ := .peerSend hsend2 (by decide)
  have hstep3 : Step false 0 s2 _ := .recv h1 (List.Perm.swap sampleM2 sampleM1 [])
  have hstep4 : Step false 0 s3 _ := .recv h2 (List.Perm.refl [])
  exact (((Relation.ReflTransGen.single hstep1).tail hstep2).tail hstep3).tail hstep4

theorem received_in_order_swapped :
    ∃ s' : Sys ℕ ℕ, s'.sent = [sampleM1, sampleM2] ∧ (taken s'.calls).length = 2 ∧
      taken s'.calls <+: s'.sent :=
  ⟨_, rfl, rfl, (received_in_order sampleStart_start (@sample_run .ok _ _ rfl rfl)).1⟩

/-- A call whose buffer the first payload cannot be put into: only the second is handed out. -/
theorem message_lost_to_conversion : ∃ s' : Sys ℕ ℕ, Start 0 sampleStart ∧
    Relation.ReflTransGen (Step false 0) sampleStart s' ∧ s'.sent = [sampleM1, sampleM2] ∧
    s'.calls.filterMap (fun c => if HandsOut c.out then c.out.rply else none) = [sampleM2] :=
  ⟨_, sampleStart_start,
    @sample_run (fun n => if n = 7 then .error 18 else .ok n) _ _ rfl rfl, rfl, rfl⟩

end Endurox.Conv
