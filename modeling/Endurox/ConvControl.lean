import Endurox.Conversation

/-! The right to send in a conversation (`CONV_TARGET_FLAGS` of `conversation.c`): each end keeps a
flag of its own, and a message hands the right over. -/

namespace Endurox.Conv
open List

variable {α β : Type}

structure Turns (a : Args α β) (conv : Control α) (out : Out α β) (conv' : Control α) : Prop where
  same : (∀ m, out.rply = some m → m.sendonly = false) → conv'.recvonly = conv.recvonly
  gets : ∀ m d, out.rply = some m → m.sendonly = true → a.prepare m.data = .ok d →
    conv'.recvonly = false
  event : out.tperrno = some tpeevent → (∀ d, a.prepare d ≠ .error tpeevent) →
    out.revent = some .sendonly

variable {a : Args α β} {th th' : Thread α} {ps : List (Pass α)} {out : Out α β}

theorem answer_turns (conv : Control α) (m : Message α)
    (hopen : (answer a conv m).2.status = .inConversation) :
    Turns a conv (answer a conv m).1 (answer a conv m).2 := by
  revert hopen
  unfold answer
  split
  · split <;> (intro h; cases h)
  split
  · intro h
    cases h
  split
  · rename_i err herr
    intro _
    refine ⟨fun _ => rfl, ?_, ?_⟩
    · intro m' d hm' _ hd
      cases hm'
      rw [herr] at hd
      cases hd
    · intro he hno
      cases he
      exact absurd herr (hno _)
  · split
    · intro h
      cases h
    split
    · rename_i hs
      intro _
      refine ⟨fun h => ?_, fun _ _ _ _ _ => rfl, fun _ _ => rfl⟩
      rw [h m rfl] at hs
      cases hs
    · rename_i hs
      intro _
      refine ⟨fun _ => rfl, ?_, nofun⟩
      intro m' _ hm' hs'
      cases hm'
      exact absurd hs' hs

theorem ndrxTprecv_turns {server : Bool} {ps' : List (Pass α)}
    (h : ndrxTprecv server a th ps = some (out, th', ps'))
    (hopen : th'.conv.status = .inConversation) : Turns a th.conv out th'.conv := by
  obtain ⟨out0, _, hrec, hout⟩ := ndrxTprecv_eq h
  have hturns : Turns a th.conv out0 th'.conv := by
    revert hopen
    apply receive_induct (P := fun c o c' => c'.status = .inConversation → Turns a c o c') _ _ _ hrec
    · intro c err herr _
      exact ⟨fun _ => rfl, nofun, fun he => absurd he herr⟩
    · intro c els o c' hp hopen
      exact ⟨(hp hopen).same, (hp hopen).gets, (hp hopen).event⟩
    · exact answer_turns
  rcases hout with rfl | ⟨rfl, -⟩
  · exact hturns
  · exact ⟨hturns.same, hturns.gets, hturns.event⟩

variable {server : Bool} {b : SendArgs α β} {c : Command} {calls : List (Call α β)}
  {passes passes' : List (List (Pass α))}

theorem unsolicitedLoop_turns (h : unsolicitedLoop server b c th passes = some (calls, out, th', passes'))
    (hopen : th'.conv.status = .inConversation) (hnone : ∀ m ∈ taken calls, m.sendonly = false)
    (hprep : ∀ d, b.prepare d ≠ .error tpeevent) :
    th'.conv.recvonly = th.conv.recvonly ∧
      (out.tperrno = some tpeevent → out.revent = some .sendonly) := by
  induction passes generalizing c th calls with
  | nil => cases h
  | cons ps _ ih =>
    obtain ⟨o, th1, hrecv, hnext⟩ := unsolicitedLoop_cons h
    have hsame (hopen1 : th1.conv.status = .inConversation) (ho : ∀ m, o.rply = some m → m.sendonly = false) :
        th1.conv.recvonly = th.conv.recvonly :=
      (ndrxTprecv_turns hrecv hopen1).same ho
    rcases hnext with ⟨rfl, rfl, -, rfl⟩ | ⟨_, rfl, hloop⟩
    · refine ⟨hsame hopen fun m hm => hnone m (by simp [taken, hm]), ?_⟩
      intro he
      exact (ndrxTprecv_turns hrecv hopen).event he hprep
    · rw [taken_cons] at hnone
      obtain ⟨hrest, hevent⟩ := ih hloop fun m hm => hnone m (mem_append_right _ hm)
      refine ⟨hrest.trans (hsame (unsolicitedLoop_keeps hloop hopen).1 ?_), hevent⟩
      intro m hm
      exact hnone m (by simp [hm])

variable {m : Option (Message α)}

/-- What an end that stays open sends, and its flag afterwards. A call that hands over control does
so if its data can be prepared and sent. -/
theorem ndrxTpsend_turns {r : Sent} (hcmd : b.commandId = .convdata)
    (h : ndrxTpsend server b th passes = some (r, th', m, calls, passes'))
    (hopen : th'.conv.status = .inConversation) (hprep : ∀ d, b.prepare d ≠ .error tpeevent)
    (hnone : th.conv.recvonly = false → ∀ m ∈ taken calls, m.sendonly = false) :
    th' = th ∧ m = none ∧ calls = [] ∨ th.conv.recvonly = false ∧ th'.conv.recvonly = b.recvonly ∧
        (∀ x ∈ m, x.sendonly = (!b.sendonly && b.recvonly)) ∧
        ((∃ d, b.prepared = .ok d) → b.queued = .ok () → m.isSome) := by
  rcases ndrxTpsend_cases h with ⟨hth, hm, hcalls, -⟩ | ⟨hmay, _, _, th1, hloop, hend⟩
  · exact .inl ⟨hth, hm, hcalls⟩
  have hmay := hmay hcmd
  right
  refine ⟨hmay, ?_⟩
  have hturn (hopen1 : th1.conv.status = .inConversation) := unsolicitedLoop_turns hloop hopen1
    (hnone hmay) hprep
  rw [hmay, Bool.or_false] at hturn
  rcases hend with ⟨⟨he, hr⟩, rfl, -⟩ | ⟨rfl, rfl⟩
  · exact absurd ((hturn hopen).2 he) hr
  rcases sendMessage_cases b th1 with ⟨hm, hth | hth⟩ | ⟨hopen1, _, hm, hth⟩
  · rw [hth] at hopen ⊢
    rw [hm]
    refine ⟨(hturn hopen).1, nofun, ?_⟩
    rintro ⟨_, hd⟩ hq
    simp [sendMessage, hopen, hd, hq] at hm
  · rw [hth] at hopen
    cases hopen
  · rw [hth, hm]
    refine ⟨(hturn hopen1).1, ?_, fun _ _ => rfl⟩
    intro x hx
    cases hx
    rfl

/-- An end with the messages on their way to it, and what it has sent and received. -/
structure End (α β : Type) where
  th : Thread α
  net : List (Message α)
  sent : List (Message α)
  calls : List (Call α β)

abbrev Pair (α β : Type) := Bool → End α β

inductive Act (α β : Type)
  | recv (e : Bool) (a : Args α β)
  | send (e : Bool) (b : SendArgs α β)

inductive Pair.Step (cd : Int) (p : Pair α β) : Act α β → Pair α β → Prop
  | recv {e a ps out th net} (h : ndrxTprecv e a (p e).th ps = some (out, th, []))
      (hnet : (p e).net.Perm (ownOf cd ps ++ net)) :
      Pair.Step cd p (.recv e a) (Function.update p e
        {p e with th := th, net := net, calls := (p e).calls ++ [⟨a, (p e).th.txinfo, out⟩]})
  | send {e b passes r th m calls net} (hcmd : b.commandId = .convdata)
      (h : ndrxTpsend e b (p e).th passes = some (r, th, m, calls, []))
      (hnet : (p e).net.Perm (ownOf cd passes.flatten ++ net))
      (hout : (p e).sent.length-(taken (p !e).calls).length+1 < 2^32) :
      Pair.Step cd p (.send e b) (Function.update
        (Function.update p e ⟨th, net, (p e).sent ++ m.toList, (p e).calls ++ calls⟩)
        (!e) {p !e with net := (p !e).net ++ m.toList})

def Pair.view (p : Pair α β) (e : Bool) : Sys α β :=
  ⟨(p e).th, (p !e).th, (p e).net, (p !e).sent, (p e).calls⟩

def Pair.Connected (p : Pair α β) : Prop := ∀ e, (p e).th.conv.status = .inConversation

def held (conv : Control α) : ℕ := if conv.recvonly then 0 else 1

def End.undelivered (x : End α β) : List (Message α) := x.net ++ x.th.conv.outOfOrderMsgs.map (·.2)

def End.rights (x : End α β) : ℕ := held x.th.conv + x.undelivered.countP Message.sendonly

/-- A receiving call can prepare the data of a message that hands over control, and a call that hands
it over keeps nothing for itself, can prepare its data and send it. `ndrx_mbuf_prepare_incoming` never
fails with `TPEEVENT`. -/
def Act.Safe (p : Pair α β) : Act α β → Prop
  | .recv e a => ∀ m ∈ (p e).undelivered, m.sendonly = true → ∃ d, a.prepare m.data = .ok d
  | .send e b => (∀ d, b.prepare d ≠ .error tpeevent) ∧
      ((p e).th.conv.recvonly = false → b.recvonly = true →
        b.sendonly = false ∧ (∃ d, b.prepared = .ok d) ∧ b.queued = .ok ())

/-- `tpconnect` is complete. The client is the end `false`. The reply to its request was the first
message of the server, which the client has taken. -/
structure Pair.Start (cd : Int) (p : Pair α β) : Prop where
  view : ∀ e, Conv.Start cd (p.view e)
  client : (p false).th.conv.msgseqout = ndrxConfMsgseqStart
  server : (p true).th.conv.msgseqout = ndrxConfMsgseqStart+1
  turn : ∃ e, (p e).th.conv.recvonly = false ∧ (p !e).th.conv.recvonly = true

structure Pair.Inv (cd : Int) (p : Pair α β) : Prop where
  view : ∀ e, Conv.Inv cd (p.view e)
  one : p.Connected → ∀ e, (p e).rights + (p !e).rights = 1

variable {cd : Int} {p p' : Pair α β} {act : Act α β}

theorem Pair.Step.view (h : Pair.Step cd p act p') (e : Bool) : Conv.Step e cd (p.view e) (p'.view e) := by
  cases h with
  | @recv e0 _ _ _ _ _ h hnet =>
    by_cases he : e = e0
    · subst he
      have hstep := Conv.Step.recv (s := p.view e) h hnet
      simpa [Pair.view] using hstep
    · obtain rfl := Bool.eq_not_of_ne he
      have hstep : Conv.Step (!e0) cd (p.view (!e0)) _ := .peerRecv (by simpa [Pair.view] using h)
      simpa [Pair.view] using hstep
  | @send e0 _ _ _ _ _ _ _ _ h hnet hout =>
    by_cases he : e = e0
    · subst he
      have hstep := Conv.Step.send (s := p.view e) h hnet
      simpa [Pair.view] using hstep
    · obtain rfl := Bool.eq_not_of_ne he
      have hstep : Conv.Step (!e0) cd (p.view (!e0)) _ := .peerSend (by simpa [Pair.view] using h)
        (by simpa [Pair.view] using hout)
      simpa [Pair.view] using hstep

variable {next : BitVec 32} {rest net : List (Message α)}

theorem End.rights_eq {x : End α β} (h : Pending cd next x.th.conv x.net rest) :
    x.rights = held x.th.conv + rest.countP Message.sendonly := by
  rw [End.rights, End.undelivered, h.perm.countP_eq]

theorem recv_rights (ht : Tracks cd next th.conv (ownOf cd ps ++ net) rest)
    (h : ndrxTprecv server a th ps = some (out, th', [])) (hopen : th'.conv.status = .inConversation)
    (hsafe : ∀ m ∈ rest, m.sendonly = true → ∃ d, a.prepare m.data = .ok d)
    (hle : held th.conv + rest.countP Message.sendonly ≤ 1) :
    ∃ rest', Pending cd next th'.conv net rest' ∧
      held th'.conv + rest'.countP Message.sendonly = held th.conv + rest.countP Message.sendonly := by
  obtain ⟨-, ⟨rest', rfl, ht'⟩, -⟩ := ndrxTprecv_tracks ht h
  have hturns := ndrxTprecv_turns h hopen
  refine ⟨rest', ht' hopen, ?_⟩
  by_cases hno : ∀ m, out.rply = some m → m.sendonly = false
  · have hzero : out.rply.toList.countP Message.sendonly = 0 := by
      rw [countP_eq_zero]
      intro m hm
      rw [hno m (Option.mem_toList.mp hm)]
      decide
    rw [countP_append, hzero, Nat.zero_add, held, hturns.same hno, held]
  · -- the message that hands over is the only right there is
    push Not at hno
    obtain ⟨m, hm, hs⟩ := hno
    have hs : m.sendonly = true := eq_true_of_ne_false hs
    obtain ⟨d, hd⟩ := hsafe m (mem_append_left _ (by simp [hm])) hs
    rw [hm, Option.toList_some, singleton_append, countP_cons_of_pos hs] at hle ⊢
    rw [held, hturns.gets m d hm hs hd]
    simp only [Bool.false_eq_true, if_false]
    omega

/-- A send neither makes nor loses the right to send. -/
theorem send_rights {r : Sent} (hcmd : b.commandId = .convdata)
    (ht : Tracks cd next th.conv (ownOf cd passes.flatten ++ net) rest)
    (h : ndrxTpsend server b th passes = some (r, th', m, calls, []))
    (hopen : th'.conv.status = .inConversation) (hprep : ∀ d, b.prepare d ≠ .error tpeevent)
    (hsafe : th.conv.recvonly = false → b.recvonly = true →
      b.sendonly = false ∧ (∃ d, b.prepared = .ok d) ∧ b.queued = .ok ())
    (hle : held th.conv + rest.countP Message.sendonly ≤ 1) :
    ∃ rest', Pending cd next th'.conv net rest' ∧
      held th'.conv + rest'.countP Message.sendonly + m.toList.countP Message.sendonly =
        held th.conv + rest.countP Message.sendonly := by
  obtain ⟨-, rest', rfl, ht'⟩ := ndrxTpsend_tracks ht h
  have hnone (hmay : th.conv.recvonly = false) : (taken calls ++ rest').countP Message.sendonly = 0 := by
    rw [held, hmay] at hle
    simp only [Bool.false_eq_true, if_false] at hle
    omega
  refine ⟨rest', ht' hopen, ?_⟩
  have hturns := ndrxTpsend_turns hcmd h hopen hprep fun hmay x hx => by
    simpa using countP_eq_zero.mp (hnone hmay) x (mem_append_left _ hx)
  rcases hturns with ⟨rfl, rfl, rfl⟩ | ⟨hmay, hrecv, hsend, hsome⟩
  · rfl
  have hzero := hnone hmay
  rw [countP_append, Nat.add_eq_zero_iff] at hzero
  rw [countP_append, hzero.1, hzero.2, held, held, hmay, hrecv]
  cases hb : b.recvonly with
  | false =>
    have hm : m.toList.countP Message.sendonly = 0 := by
      rw [countP_eq_zero]
      intro x hx
      rw [hsend x (Option.mem_toList.mp hx), hb, Bool.and_false]
      decide
    rw [hm]
  | true =>
    obtain ⟨hkeep, hdata, hq⟩ := hsafe hmay hb
    obtain ⟨x, rfl⟩ := Option.isSome_iff_exists.mp (hsome hdata hq)
    have hx : x.sendonly = true := by
      rw [hsend x rfl, hkeep, hb]
      rfl
    rw [Option.toList_some, countP_cons_of_pos hx]
    rfl

theorem Pair.Connected.intro {e : Bool} (hme : (p e).th.conv.status = .inConversation)
    (hpeer : (p !e).th.conv.status = .inConversation) : p.Connected := by
  intro e'
  by_cases he : e' = e
  · rw [he]
    exact hme
  · rw [Bool.eq_not_of_ne he]
    exact hpeer

theorem Pair.Inv.intro {e : Bool} (hview : ∀ e, Conv.Inv cd (p.view e))
    (hone : p.Connected → (p e).rights + (p !e).rights = 1) : p.Inv cd := by
  refine ⟨hview, fun hconn e' => ?_⟩
  by_cases he : e' = e
  · rw [he]
    exact hone hconn
  · rw [Bool.eq_not_of_ne he, Bool.not_not, Nat.add_comm]
    exact hone hconn

/-- A safe step of either side keeps that one of them has the right to send. -/
theorem Pair.Step.inv (h : Pair.Step cd p act p') (hsafe : act.Safe p) (hi : p.Inv cd) : p'.Inv cd := by
  have hview e := (h.view e).inv (hi.view e)
  cases h with
  | @recv e a ps out th net h hnet =>
    apply Pair.Inv.intro (e := e) hview
    intro hconn
    have hme : th.conv.status = .inConversation := by simpa using hconn e
    have hopen := (ndrxTprecv_keeps h hme).1
    have hone := hi.one (.intro hopen (by simpa using hconn !e)) e
    obtain ⟨_, rest, -, -, ht, -⟩ := (hi.view e).split
    have hp : Pending cd _ (p e).th.conv (p e).net rest := ht hopen
    rw [End.rights_eq hp] at hone
    obtain ⟨rest', hp', hsame⟩ := recv_rights (ht.of_perm hnet) h hme
      (fun m hm => hsafe m (hp.perm.mem_iff.mpr hm)) (Nat.le.intro hone)
    rw [Function.update_self, Function.update_of_ne (Bool.not_ne_self e), End.rights_eq hp', hsame]
    exact hone
  | @send e b passes r th m calls net hcmd h hnet hout =>
    apply Pair.Inv.intro (e := e) hview
    intro hconn
    have hme : th.conv.status = .inConversation := by simpa using hconn e
    have hopen : (p e).th.conv.status = .inConversation := by
      rcases ndrxTpsend_sent h with ⟨-, hk⟩ | ⟨_, _, hk, hopen1, -, -⟩
      · exact (hk hme).1
      · exact (hk hopen1).1
    have hone := hi.one (.intro hopen (by simpa using hconn !e)) e
    obtain ⟨_, rest, -, -, ht, -⟩ := (hi.view e).split
    have hp : Pending cd _ (p e).th.conv (p e).net rest := ht hopen
    rw [End.rights_eq hp] at hone
    obtain ⟨rest', hp', hsame⟩ := send_rights hcmd (ht.of_perm hnet) h hme hsafe.1 hsafe.2
      (Nat.le.intro hone)
    have hpeer : End.rights (⟨(p !e).th, (p !e).net ++ m.toList, (p !e).sent, (p !e).calls⟩ : End α β) =
        (p !e).rights + m.toList.countP Message.sendonly := by
      simp only [End.rights, End.undelivered, countP_append]
      omega
    rw [Function.update_self, Function.update_of_ne (Bool.not_ne_self e).symm, Function.update_self,
      End.rights_eq hp', hpeer]
    calc
      held th.conv + rest'.countP Message.sendonly + ((p !e).rights + m.toList.countP Message.sendonly)
        = held th.conv + rest'.countP Message.sendonly + m.toList.countP Message.sendonly +
            (p !e).rights := by omega
      _ = 1 := by
        rw [hsame]
        exact hone

theorem Pair.Start.inv (h : p.Start cd) : p.Inv cd := by
  have hzero (e : Bool) : (p e).undelivered.countP Message.sendonly = 0 := by
    have hnet : (p e).net = [] := (h.view e).nothing.1
    have hooo : (p e).th.conv.outOfOrderMsgs = [] := (h.view e).me.2.2
    rw [End.undelivered, hnet, hooo]
    rfl
  obtain ⟨e, hmay, hmust⟩ := h.turn
  apply Pair.Inv.intro (e := e) fun e => (h.view e).inv
  intro _
  rw [End.rights, End.rights, hzero, hzero, held, held, hmay, hmust]
  rfl

/-- While both ends are connected there is one right to send: one end has it, or one undelivered
message carries it. -/
theorem control_kept (h0 : p.Start cd)
    (hrun : Relation.ReflTransGen (fun p p' => ∃ act : Act α β, act.Safe p ∧ Pair.Step cd p act p') p p')
    (hconn : p'.Connected) : (p' false).rights + (p' true).rights = 1 := by
  have hinv : p'.Inv cd := by
    clear hconn
    induction hrun with
    | refl => exact h0.inv
    | tail _ hstep ih =>
      obtain ⟨_, hsafe, hstep⟩ := hstep
      exact hstep.inv hsafe ih
  exact hinv.one hconn false

def samplePair : Pair ℕ ℕ := fun e =>
  ⟨⟨⟨.inConversation, 0, !e, e, if e then 0xFFFFFFFF else 0xFFFFFFFE,
    if e then 0xFFFFFFFE else 0xFFFFFFFF, 0, 0, none, []⟩, none⟩, [], [], []⟩

theorem samplePair_start : samplePair.Start 0 where
  view e := by
    refine ⟨by decide, ⟨rfl, rfl, rfl⟩, ⟨rfl, rfl, ?_⟩, rfl, rfl, rfl⟩
    cases e <;> rfl
  client := rfl
  server := rfl
  turn := ⟨false, rfl, rfl⟩

def handOver (queued : Except Int Unit) : SendArgs ℕ ℕ := ⟨0, .convdata, false, true, .ok 7, queued, .ok⟩

def takeOver : Args ℕ ℕ := ⟨1000, .convdata, false, false, .ok⟩

def handedMessage : Message ℕ :=
  ⟨.convdata, 0, 0xFFFFFFFE, false, 0, 0, true, false, [], false, [], 7⟩

theorem control_kept_handed : ∃ p' : Pair ℕ ℕ, p'.Connected ∧ (p' false).th.conv.recvonly = true ∧
    (p' true).th.conv.recvonly = false ∧ (p' false).rights + (p' true).rights = 1 := by
  obtain ⟨p1, hstep1, hopen, hgiven, hserver, hnet⟩ : ∃ p1 : Pair ℕ ℕ,
      Pair.Step 0 samplePair (.send false (handOver (.ok ()))) p1 ∧
      (p1 false).th.conv.status = .inConversation ∧ (p1 false).th.conv.recvonly = true ∧
      (p1 true).th = (samplePair true).th ∧ (p1 true).net = [handedMessage] :=
    ⟨_, .send rfl (show ndrxTpsend false (handOver (.ok ())) (samplePair false).th [[.noData]] =
      some (⟨true, none, none⟩, _, some handedMessage, _, []) from rfl) (List.Perm.refl [])
      (by decide), rfl, rfl, rfl, rfl⟩
  have hsafe1 : (Act.send false (handOver (.ok ()))).Safe samplePair :=
    ⟨nofun, fun _ _ => ⟨rfl, ⟨7, rfl⟩, rfl⟩⟩
  -- the server takes the message and with it the right
  have hrecv : ndrxTprecv true takeOver (p1 true).th [.got handedMessage] = some (⟨false,
      some tpeevent, some .sendonly, .convdata, some 7, some handedMessage⟩, _, []) :=
    (congrArg (fun th => ndrxTprecv true takeOver th [.got handedMessage]) hserver).trans rfl
  obtain ⟨p2, hstep2, hconn, hgave, hgot⟩ : ∃ p2 : Pair ℕ ℕ,
      Pair.Step 0 p1 (.recv true takeOver) p2 ∧ p2.Connected ∧
      (p2 false).th.conv.recvonly = true ∧ (p2 true).th.conv.recvonly = false :=
    ⟨_, .recv hrecv (by rw [hnet]; exact List.Perm.refl [handedMessage]),
      .intro (e := false) hopen rfl, hgiven, rfl⟩
  have hsafe2 : (Act.recv true takeOver).Safe p1 := fun m _ _ => ⟨m.data, rfl⟩
  exact ⟨p2, hconn, hgave, hgot, control_kept samplePair_start
    ((Relation.ReflTransGen.single ⟨_, hsafe1, hstep1⟩).tail ⟨_, hsafe2, hstep2⟩) hconn⟩

/-- A call that hands over control and finds the queue full leaves neither end with the right. -/
theorem control_lost : ∃ p' : Pair ℕ ℕ, samplePair.Start 0 ∧
    Pair.Step 0 samplePair (.send false (handOver (.error tpeblock))) p' ∧ p'.Connected ∧
    (p' false).rights + (p' true).rights = 0 := by
  have hsend : ndrxTpsend false (handOver (.error tpeblock)) (samplePair false).th [[.noData]] =
      some (⟨false, some tpeblock, none⟩, _, none, _, []) := rfl
  exact ⟨_, samplePair_start, .send rfl hsend (List.Perm.refl []) (by decide),
    Pair.Connected.intro (e := false) rfl rfl, rfl⟩

end Endurox.Conv
