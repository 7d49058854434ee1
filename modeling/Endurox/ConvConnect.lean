import Endurox.Conversation

/-! What a `tpconnect` that fails leaves behind: the slot, the listen queue, the parked messages and
the entry in the current global transaction. -/

namespace Endurox.Conv
open List

def maxConnections : ℕ := 10

/-- Below `NDRX_CONV_UPPER_CNT`. -/
abbrev Cd := Fin 1000

/-- A thread's connections. The listen queue of a connection is named after its descriptor. -/
structure Connections (α : Type) where
  slots : ℕ → Control α
  convCd : Cd
  /-- `conv_cds` of the current global transaction, if there is one. -/
  convCds : Option (List Cd)
  opened : List Cd
  linked : List Cd

/-- The arguments, and how the calls that can fail go. `reply` is the message with the first
sequence number, if it is received in time, and `early` are those parked before it. -/
structure Connect (α β : Type) where
  notran : Bool
  prepared : Bool
  listens : Bool
  sent : Bool
  early : List (BitVec 32 × Message α)
  reply : Option (Message α)
  args : Args α β
  /-- `atmi_xa_update_known_rms` of the reply, within a transaction. -/
  rmsFit : Bool
  replyOpens : Bool

variable {α β : Type}

def Connections.slot (p : Connections α) (cd : Cd) : Control α := p.slots (cd.val % maxConnections)

def Connections.setSlot (p : Connections α) (cd : Cd) (conv : Control α) : Connections α :=
  {p with slots := Function.update p.slots (cd.val % maxConnections) conv}

def convGetCdLoop : ℕ → Connections α → Option Cd × Connections α
  | 0, p => (none, p)
  | n+1, p =>
    -- the counter starts again from 0
    let next := {p with convCd := p.convCd+1}
    if (p.slot p.convCd).status = .noInitated then (some p.convCd, next) else convGetCdLoop n next

def convGetCd (notran : Bool) (p : Connections α) : Option Cd × Connections α :=
  match convGetCdLoop maxConnections p with
  | (none, p) => (none, p)
  | (some cd, p) => (some cd, if notran then p else {p with convCds := p.convCds.map (cd :: ·)})

/-- `normal_connection_shutdown`, with what it does outside of the record. -/
def shutdownConnection (p : Connections α) (killq : Bool) (cd : Cd) : Connections α :=
  {p.setSlot cd (normalConnectionShutdown (p.slot cd)) with
    convCds := p.convCds.map (·.erase cd)
    opened := p.opened.erase cd
    linked := if killq then p.linked.erase cd else p.linked }

/-- `ndrx_tpdiscon` while the reply queue is not open: nothing is sent. -/
def disconnect (p : Connections α) (cd : Cd) : Connections α :=
  match getCurrentConnection false (p.slot cd) cd.val with
  | none => p
  | some _ => shutdownConnection p true cd

def Connections.take (p : Connections α) (cd : Cd) : Connections α :=
  p.setSlot cd {p.slot cd with cd := cd.val}

def Connections.listen (p : Connections α) (cd : Cd) : Connections α :=
  {p with opened := cd :: p.opened, linked := cd :: p.linked}

def handshake (c : Connect α β) (p : Connections α) (cd : Cd) : Bool × Connections α :=
  let conv := {p.slot cd with
    status := .inConversation, msgseqin := ndrxConfMsgseqStart, outOfOrderMsgs := c.early }
  match c.reply with
  | none => (false, p.setSlot cd conv)
  | some m =>
    let (out, conv) := answer c.args conv m
    -- only a disconnect leaves the queue to the side that asked for it
    if conv.status ≠ .inConversation then (false, shutdownConnection p (out.revent ≠ some .disconimm) cd)
    else (out.ok && c.rmsFit && out.commandId = .connrply && c.replyOpens, p.setSlot cd conv)

/-- From the descriptor on, to `out`. -/
def connectBody (c : Connect α β) (p : Connections α) (cd : Cd) : Bool × Connections α :=
  if !c.prepared || !c.listens then (false, p.take cd)
  else if !c.sent then (false, (p.take cd).listen cd)
  else handshake c ((p.take cd).listen cd) cd

/-- The descriptor taken, whether it is returned, and the connections then. -/
def ndrxTpconnect (c : Connect α β) (p : Connections α) : Option Cd × Bool × Connections α :=
  match convGetCd c.notran p with
  | (none, p) => (none, false, p)
  | (some cd, p) =>
    let (ok, p) := connectBody c p cd
    (some cd, ok, if ok then p else disconnect p cd)

structure Clean (p : Connections α) (cd : Cd) : Prop where
  free : (p.slot cd).status = .noInitated
  parked : (p.slot cd).outOfOrderMsgs = []
  closed : cd ∉ p.opened
  unlinked : cd ∉ p.linked
  unregistered : ∀ cds ∈ p.convCds, cd ∉ cds

variable {p : Connections α} {cd : Cd} {c : Connect α β} {conv : Control α}

theorem convGetCdLoop_eq (n : ℕ) (p : Connections α) : ∃ k, (convGetCdLoop n p).2 = {p with convCd := k} := by
  induction n generalizing p with
  | zero => exact ⟨p.convCd, rfl⟩
  | succ n ih =>
    rw [convGetCdLoop]
    split
    · exact ⟨_, rfl⟩
    · exact ih _

theorem convGetCd_eq {notran : Bool} {q : Connections α} (h : convGetCd notran p = (some cd, q)) :
    q.slots = p.slots ∧ q.opened = p.opened ∧ q.linked = p.linked ∧
      q.convCds = if notran then p.convCds else p.convCds.map (cd :: ·) := by
  obtain ⟨_, hk⟩ := convGetCdLoop_eq maxConnections p
  rw [convGetCd] at h
  split at h
  · cases h
  · rename_i hloop
    rw [hloop] at hk
    subst hk
    cases h
    cases notran <;> exact ⟨rfl, rfl, rfl, rfl⟩

theorem slot_setSlot (p : Connections α) (cd : Cd) (conv : Control α) : (p.setSlot cd conv).slot cd = conv :=
  Function.update_self ..

/-- The queue is open, and nothing of the descriptor stands anywhere twice. -/
structure Begun (p : Connections α) (cd : Cd) : Prop where
  opened : cd ∉ p.opened.erase cd
  linked : cd ∈ p.linked ∧ cd ∉ p.linked.erase cd
  registered : ∀ cds ∈ p.convCds, cd ∉ cds.erase cd

theorem Begun.shutdown (h : Begun p cd) (killq : Bool) :
    Clean (shutdownConnection p killq cd) cd ↔ killq = true := by
  have hslot : (shutdownConnection p killq cd).slot cd = normalConnectionShutdown (p.slot cd) :=
    slot_setSlot p cd _
  constructor
  · intro hc
    by_contra hk
    have hlinked := hc.unlinked
    rw [eq_false_of_ne_true hk] at hlinked
    exact hlinked h.linked.1
  · rintro rfl
    refine ⟨by rw [hslot]; rfl, by rw [hslot]; rfl, h.opened, h.linked.2, ?_⟩
    intro cds hcds
    obtain ⟨cds', hcds', rfl⟩ := Option.map_eq_some_iff.mp hcds
    exact h.registered cds' hcds'

theorem disconnect_of_closed (h : (p.slot cd).status = .noInitated) : disconnect p cd = p := by
  rw [disconnect, getCurrentConnection, h]
  rfl

theorem disconnect_of_open (h : (p.slot cd).status = .inConversation) (hcd : (p.slot cd).cd = cd.val) :
    disconnect p cd = shutdownConnection p true cd := by
  have hlt : (cd.val : Int) < 1000 := by omega
  rw [disconnect, getCurrentConnection, h, hcd]
  simp [ndrxConvUpperCnt, hlt]

theorem answer_disconimm (a : Args α β) (conv : Control α) (m : Message α) :
    ((answer a conv m).1.revent = some .disconimm ↔ m.replyError = false ∧ m.commandId = .disconn) ∧
      ((answer a conv m).1.revent = some .disconimm →
        (answer a conv m).2 = normalConnectionShutdown conv) := by
  unfold answer
  split
  · split <;> simp_all
  · split
    · simp_all [normalConnectionShutdown]
    · split
      · simp_all
      · split
        · split <;> simp_all
        · split <;> simp_all

def Connect.Disconnected (c : Connect α β) : Prop :=
  ∃ m ∈ c.reply, m.replyError = false ∧ m.commandId = .disconn

theorem handshake_cleans (h : Begun p cd) (hcd : (p.slot cd).cd = cd.val) :
    Clean (disconnect (handshake c p cd).2 cd) cd ↔ ¬ c.Disconnected := by
  have hopen {conv : Control α} (ho : conv.status = .inConversation) (hc : conv.cd = cd.val) :
      Clean (disconnect (p.setSlot cd conv) cd) cd := by
    rw [disconnect_of_open (by rw [slot_setSlot, ho]) (by rw [slot_setSlot, hc])]
    have hbegun : Begun (p.setSlot cd conv) cd := ⟨h.opened, h.linked, h.registered⟩
    exact (hbegun.shutdown true).mpr rfl
  simp only [handshake, Connect.Disconnected]
  cases c.reply with
  | none => exact iff_of_true (hopen rfl hcd) (by simp)
  | some m =>
    have hdis := answer_disconimm c.args {p.slot cd with
      status := .inConversation, msgseqin := ndrxConfMsgseqStart, outOfOrderMsgs := c.early} m
    simp only [Option.mem_some_iff, exists_eq_left']
    rw [← hdis.1]
    split
    · rw [disconnect_of_closed (by rw [shutdownConnection]; exact congrArg _ (slot_setSlot p cd _)),
        h.shutdown, decide_eq_true_eq]
    · rename_i hstill
      have hstill := not_not.mp hstill
      refine iff_of_true (hopen hstill ((answer_open hstill).2.1.trans hcd)) ?_
      intro he
      rw [hdis.2 he] at hstill
      cases hstill

/-- A call that fails cleans up after itself when nothing was begun and the descriptor is not registered,
or the call was sent and is not answered by a disconnect; and only then. -/
theorem tpconnect_cleans_iff (hcd : (ndrxTpconnect c p).1 = some cd) (hfail : (ndrxTpconnect c p).2.1 = false)
    (hbefore : Clean p cd) : Clean (ndrxTpconnect c p).2.2 cd ↔
      if !c.prepared || !c.listens then c.notran = true ∨ p.convCds = none
      else c.sent = true ∧ ¬ c.Disconnected := by
  rcases hget : convGetCd c.notran p with ⟨_ | _, q⟩
  · rw [ndrxTpconnect, hget] at hcd
    cases hcd
  rw [ndrxTpconnect, hget] at hcd hfail ⊢
  cases hcd
  obtain ⟨hslots, hopened, hlinked, hcds⟩ := convGetCd_eq hget
  have hslot : q.slot cd = p.slot cd := congrFun hslots _
  dsimp only at hfail ⊢
  rw [hfail, if_neg Bool.false_ne_true, connectBody]
  have hset : (q.take cd).slot cd = {q.slot cd with cd := cd.val} := slot_setSlot q cd _
  have hfree : ((q.take cd).slot cd).status = .noInitated := by
    rw [hset]
    exact hslot ▸ hbefore.free
  split
  · -- nothing was begun, and nothing is undone
    rw [disconnect_of_closed hfree]
    have hreg : (∀ cds ∈ q.convCds, cd ∉ cds) ↔ c.notran = true ∨ p.convCds = none := by
      rw [hcds]
      cases c.notran with
      | true => simpa using hbefore.unregistered
      | false => cases p.convCds <;> simp
    rw [← hreg]
    constructor
    · exact fun hc => hc.unregistered
    · intro hno
      refine ⟨hfree, by rw [hset, hslot]; exact hbefore.parked, ?_, ?_, hno⟩
      · exact hopened ▸ hbefore.closed
      · exact hlinked ▸ hbefore.unlinked
  split
  · rename_i hsent
    have hkept : disconnect ((q.take cd).listen cd) cd = _ := disconnect_of_closed hfree
    rw [hkept]
    refine iff_of_false (fun hc => hc.closed mem_cons_self) ?_
    intro hc
    simp [hc.1] at hsent
  · rename_i hsent
    have hbegun : Begun ((q.take cd).listen cd) cd := by
      refine ⟨?_, ⟨mem_cons_self, ?_⟩, ?_⟩
      · rw [Connections.listen, erase_cons_head]
        exact hopened ▸ hbefore.closed
      · rw [Connections.listen, erase_cons_head]
        exact hlinked ▸ hbefore.unlinked
      · intro cds (hmem : cds ∈ q.convCds)
        have hold := hbefore.unregistered
        rw [hcds] at hmem
        split at hmem
        · exact fun hin => hold cds hmem (mem_of_mem_erase hin)
        · obtain ⟨cds', hcds', rfl⟩ := Option.map_eq_some_iff.mp hmem
          rw [erase_cons_head]
          exact hold cds' hcds'
    rw [handshake_cleans hbegun (congrArg Control.cd hset)]
    simpa using fun _ => hsent

def idle : Connections ℕ := ⟨fun _ => ⟨.noInitated, 0, false, false, 0, 0, 0, 0, none, []⟩, 0, some [], [], []⟩

theorem idle_clean : Clean idle 0 :=
  ⟨rfl, rfl, not_mem_nil, not_mem_nil, fun _ h => Option.some.inj h ▸ not_mem_nil⟩

def unanswered (sent : Bool) : Connect ℕ ℕ :=
  ⟨false, true, true, sent, [], none, ⟨0, .connect, false, false, .ok⟩, true, true⟩

theorem tpconnect_cleans_timeout : Clean (ndrxTpconnect (unanswered true) idle).2.2 0 :=
  (tpconnect_cleans_iff rfl rfl idle_clean).mpr ⟨rfl, nofun⟩

/-- The request cannot be sent: the queue stays open and linked, the descriptor registered. -/
theorem tpconnect_leaves_queue : Clean idle 0 ∧ ∃ p, ndrxTpconnect (unanswered false) idle = (some 0, false, p) ∧
    p.opened = [0] ∧ p.linked = [0] ∧ p.convCds = some [0] :=
  ⟨idle_clean, _, rfl, rfl, rfl, rfl⟩

end Endurox.Conv
