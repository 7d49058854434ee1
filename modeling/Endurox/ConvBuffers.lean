import Endurox.Conversation

/-! The system buffers of `ndrx_tprecv`: each is taken from the pool, filled by one message, and given
back or parked with its message in `out_of_order_msgs`. -/

namespace Endurox.Conv
open List

variable {δ β : Type}

abbrev Filled (δ : Type) := Message (ℕ × δ)

def Message.fill (m : Message δ) (buf : ℕ) : Filled δ := {m with data := (buf, m.data)}

inductive Use (δ : Type)
  | malloc (buf : ℕ)
  | sysbufFree (buf : ℕ)
  | free (buf : ℕ)
  /-- The header of the reply is read; `none` if nothing was put where `rply` points. -/
  | read (rply : Option (Filled δ))
  deriving DecidableEq

/-- Which of the calls that can fail succeed; an allocation goes by the buffer it is for. -/
structure Memory where
  attrs : Bool
  sysbuf : ℕ → Bool
  element : ℕ → Bool

structure Buffers (δ : Type) where
  conv : Control (ℕ × δ)
  next : ℕ
  uses : List (Use δ)

def rcvHashDelall (conv : Control (ℕ × δ)) : List (Use δ) :=
  conv.outOfOrderMsgs.map fun el => .sysbufFree el.2.data.1

def leave (tx : Bool) (rply : Option (Filled δ)) (buf : Option ℕ) (s : Buffers δ) : Buffers δ :=
  {s with uses := s.uses ++ (if tx then [.read rply] else []) ++ (buf.map .sysbufFree).toList}

/-- From `inject_message` on: the call ends, or goes on with a new buffer. -/
def inject (mem : Memory) (tx : Bool) (a : Args (ℕ × δ) β) (s : Buffers δ) (rply : Filled δ) :
    Buffers δ × Option ℕ :=
  let buf := rply.data.1
  let uses := s.uses ++ [.read (some rply)]
  if rply.msgseq ≠ s.conv.msgseqin then
    let (old, conv) := rcvHashCk s.conv rply.msgseq
    let uses := uses ++ (old.map fun m => .free m.data.1).toList
    if !mem.element buf then (leave tx (some rply) (some buf) ⟨conv, s.next, uses⟩, none)
    else
      let conv := {conv with outOfOrderMsgs := (rply.msgseq, rply) :: conv.outOfOrderMsgs}
      if !mem.sysbuf s.next then (leave tx (some rply) none ⟨conv, s.next, uses⟩, none)
      else (⟨conv, s.next+1, uses ++ [.malloc s.next]⟩, some s.next)
  else
    let conv := (answer a s.conv rply).2
    let uses := if conv.status = .inConversation then uses else uses ++ rcvHashDelall s.conv
    (leave tx (some rply) (some buf) ⟨conv, s.next, uses⟩, none)

def recvUses (mem : Memory) (tx : Bool) (a : Args (ℕ × δ) β) (s : Buffers δ) (buf : ℕ)
    (last : Option (Filled δ)) : List (Pass δ) → Option (Buffers δ × List (Pass δ))
  | [] => none
  | .got m :: ps =>
    if s.conv.cd ≠ m.cd then
      recvUses mem tx a {s with uses := s.uses ++ [.read (some (m.fill buf))]} buf (some (m.fill buf)) ps
    else
      match inject mem tx a s (m.fill buf) with
      | (s, none) => some (s, ps)
      | (s, some buf) => recvUses mem tx a s buf none ps
  | .expired :: ps =>
    if a.notime then recvUses mem tx a s buf last ps else some (leave tx last (some buf) s, ps)
  | _ :: ps => some (leave tx last (some buf) s, ps)

def tprecvUses (server : Bool) (mem : Memory) (tx : Bool) (a : Args (ℕ × δ) β) (s : Buffers δ)
    (ps : List (Pass δ)) : Option (Buffers δ × List (Pass δ)) :=
  match getCurrentConnection server s.conv a.cd with
  | none => some (leave tx none none s, ps)
  | some conv =>
    if a.commandId = .convdata ∧ conv.sendonly ∨ !mem.attrs then some (leave tx none none s, ps)
    else
      match rcvHashCk conv conv.msgseqin with
      | (some rply, conv) =>
        match inject mem tx a {s with conv := conv} rply with
        | (s, none) => some (s, ps)
        | (s, some buf) => recvUses mem tx a s buf none ps
      | (none, _) =>
        if !mem.sysbuf s.next then some (leave tx none none s, ps)
        else recvUses mem tx a ⟨s.conv, s.next+1, s.uses ++ [.malloc s.next]⟩ s.next none ps

def mallocs (uses : List (Use δ)) : List ℕ :=
  uses.filterMap fun
    | .malloc buf => some buf
    | _ => none

def handedBack (uses : List (Use δ)) : List ℕ :=
  uses.filterMap fun
    | .sysbufFree buf => some buf
    | _ => none

def Use.Fine : Use δ → Prop
  | .free _ => False
  | .read rply => rply.isSome
  | _ => True

def parked (conv : Control (ℕ × δ)) : List ℕ := conv.outOfOrderMsgs.map (·.2.data.1)

def Keyed (conv : Control (ℕ × δ)) : Prop := ∀ el ∈ conv.outOfOrderMsgs, el.1 = el.2.msgseq

structure Owned (s : Buffers δ) (own : List ℕ) : Prop where
  keyed : Keyed s.conv
  fresh : mallocs s.uses = range s.next
  perm : (mallocs s.uses).Perm (handedBack s.uses ++ (own ++ parked s.conv))
  fine : ∀ x ∈ s.uses, x.Fine

theorem mallocs_append (u v : List (Use δ)) : mallocs (u ++ v) = mallocs u ++ mallocs v := filterMap_append

theorem handedBack_append (u v : List (Use δ)) : handedBack (u ++ v) = handedBack u ++ handedBack v :=
  filterMap_append

variable {mem : Memory} {tx : Bool} {a : Args (ℕ × δ) β} {s s' : Buffers δ} {own : List ℕ}
  {conv : Control (ℕ × δ)}

theorem Owned.uses (h : Owned s own) {u : List (Use δ)} {own' : List ℕ} (hkeyed : Keyed conv)
    (hnone : mallocs u = []) (hfine : ∀ x ∈ u, x.Fine)
    (hperm : (own ++ parked s.conv).Perm (handedBack u ++ (own' ++ parked conv))) :
    Owned ⟨conv, s.next, s.uses ++ u⟩ own' := by
  refine ⟨hkeyed, ?_, ?_, ?_⟩
  · rw [mallocs_append, hnone, append_nil, h.fresh]
  · rw [mallocs_append, hnone, append_nil, handedBack_append, append_assoc]
    exact h.perm.trans (hperm.append_left _)
  · intro x hx
    exact (mem_append.mp hx).elim (h.fine x) (hfine x)

theorem Owned.malloc (h : Owned s own) (hkeyed : Keyed conv)
    (hperm : (own ++ parked s.conv).Perm (parked conv)) :
    Owned ⟨conv, s.next+1, s.uses ++ [.malloc s.next]⟩ [s.next] := by
  refine ⟨hkeyed, ?_, ?_, ?_⟩
  · rw [mallocs_append, h.fresh, range_succ]
    rfl
  · have hback : handedBack [(.malloc s.next : Use δ)] = [] := rfl
    rw [mallocs_append, handedBack_append, hback, append_nil]
    refine (h.perm.append_right [s.next]).trans ?_
    rw [append_assoc]
    exact (perm_append_comm.trans (hperm.cons s.next)).append_left _
  · intro x hx
    rcases mem_append.mp hx with hx | hx
    · exact h.fine x hx
    · rw [mem_singleton.mp hx]
      trivial

theorem leave_owned {buf : Option ℕ} {rply : Option (Filled δ)} (h : Owned s buf.toList)
    (hreply : tx = true → rply.isSome) : Owned (leave tx rply buf s) [] := by
  rw [leave, append_assoc]
  apply h.uses h.keyed
  · cases tx <;> cases buf <;> rfl
  · intro x hx
    rcases mem_append.mp hx with hx | hx
    · cases tx
      · cases hx
      · rw [mem_singleton.mp hx]
        exact hreply rfl
    · cases buf
      · cases hx
      · rw [mem_singleton.mp hx]
        trivial
  · cases tx <;> cases buf <;> exact Perm.refl _

theorem delall_owned (h : Owned s own) (hempty : conv.outOfOrderMsgs = []) :
    Owned ⟨conv, s.next, s.uses ++ rcvHashDelall s.conv⟩ own := by
  have hback : handedBack (rcvHashDelall s.conv) = parked s.conv := by
    simp only [handedBack, rcvHashDelall, filterMap_map]
    exact congrFun filterMap_eq_map' _
  apply h.uses (by simp [Keyed, hempty])
  · simp [mallocs, rcvHashDelall]
  · intro x hx
    obtain ⟨_, -, rfl⟩ := mem_map.mp hx
    trivial
  · rw [hback, parked, parked, hempty]
    simpa using perm_append_comm

theorem answer_closed {m : Filled δ} (hopen : conv.status = .inConversation)
    (h : (answer a conv m).2.status ≠ .inConversation) :
    (answer a conv m).2.outOfOrderMsgs = [] := by
  revert h
  unfold answer
  split
  · split <;> exact fun _ => rfl
  split
  · exact fun _ => rfl
  · split
    · exact fun h => absurd hopen h
    · split
      · exact fun _ => rfl
      · split <;> exact fun h => absurd hopen h

theorem inject_owned {rply : Filled δ} (h : Owned s [rply.data.1])
    (hopen : s.conv.status = .inConversation)
    (hnew : rply.msgseq ≠ s.conv.msgseqin → ∀ el ∈ s.conv.outOfOrderMsgs, el.1 ≠ rply.msgseq) :
    Owned (inject mem tx a s rply).1 (inject mem tx a s rply).2.toList ∧
      ∀ buf ∈ (inject mem tx a s rply).2, (inject mem tx a s rply).1.conv =
        {s.conv with outOfOrderMsgs := (rply.msgseq, rply) :: s.conv.outOfOrderMsgs} := by
  have hread : Owned {s with uses := s.uses ++ [.read (some rply)]} [rply.data.1] :=
    h.uses h.keyed rfl (by simp [Use.Fine]) (Perm.refl _)
  have hadded : Keyed {s.conv with outOfOrderMsgs := (rply.msgseq, rply) :: s.conv.outOfOrderMsgs} :=
    forall_mem_cons.mpr ⟨rfl, h.keyed⟩
  simp only [inject]
  split
  · rename_i hseq
    rw [rcvHashCk_none (hnew hseq)]
    simp only [Option.map_none, Option.toList_none, append_nil]
    split
    · exact ⟨leave_owned hread (fun _ => rfl), nofun⟩
    · split
      · refine ⟨leave_owned ?_ (fun _ => rfl), nofun⟩
        exact ⟨hadded, hread.fresh, hread.perm, hread.fine⟩
      · exact ⟨hread.malloc hadded (Perm.refl _), fun _ _ => rfl⟩
  · refine ⟨leave_owned ?_ (fun _ => rfl), nofun⟩
    split
    · rename_i hstill
      have hkept := (answer_open hstill).2.2.2.2
      refine ⟨?_, hread.fresh, ?_, hread.fine⟩
      · rw [Keyed, hkept]
        exact h.keyed
      · rw [parked, hkept]
        exact hread.perm
    · rename_i hclosed
      exact delall_owned hread (answer_closed hopen hclosed)

def lastSeen (cd : Int) (full : Bool) : List (Pass δ) → Bool
  | [] => full
  | .got m :: ps => ps.isEmpty || lastSeen cd (m.cd ≠ cd) ps
  | _ :: ps => lastSeen cd full ps

/-- The passes of a receive hand back or park every buffer they take. -/
theorem recvUses_owned {ps : List (Pass δ)} {buf : ℕ} {last : Option (Filled δ)} (h : Owned s [buf])
    (hopen : s.conv.status = .inConversation)
    (hapart : (s.conv.outOfOrderMsgs.map (·.1) ++ (ownOf s.conv.cd ps).map Message.msgseq).Nodup)
    (hlast : tx = true → lastSeen s.conv.cd last.isSome ps = true)
    (hrun : recvUses mem tx a s buf last ps = some (s', [])) : Owned s' [] := by
  induction ps generalizing s buf last with
  | nil => cases hrun
  | cons p ps ih =>
    cases p with
    | got m =>
      rw [recvUses] at hrun
      -- the call goes on, so there is a pass left
      have hmore {s1 : Buffers δ} {b : ℕ} {l : Option (Filled δ)}
          (hgo : recvUses mem tx a s1 b l ps = some (s', [])) (htx : tx = true) :
          lastSeen s.conv.cd (m.cd ≠ s.conv.cd) ps = true := by
        have hseen := hlast htx
        cases ps with
        | nil => cases hgo
        | cons => exact hseen
      split at hrun
      · rename_i hcd
        have hread : Owned {s with uses := s.uses ++ [.read (some (m.fill buf))]} [buf] :=
          h.uses h.keyed rfl (by simp [Use.Fine]) (Perm.refl _)
        rw [ownOf_foreign hcd] at hapart
        refine ih hread hopen hapart (fun htx => ?_) hrun
        simpa [Ne.symm hcd] using hmore hrun htx
      · rename_i hcd
        rw [ownOf_own hcd] at hapart
        have hcd : m.cd = s.conv.cd := (not_not.mp hcd).symm
        have hinj : Owned (inject mem tx a s (m.fill buf)).1 _ ∧ _ := inject_owned h hopen fun _ el hel =>
          (nodup_append.mp hapart).2.2 _ (mem_map_of_mem hel) _ mem_cons_self
        split at hrun
        · rename_i s1 hs1
          cases hrun
          rw [hs1] at hinj
          exact hinj.1
        rename_i s1 b hs1
        rw [hs1] at hinj
        have hconv := hinj.2 b rfl
        refine ih hinj.1 (by rw [hconv]; exact hopen) ?_ ?_ hrun
        · rw [hconv]
          exact perm_middle.nodup_iff.mp hapart
        · intro htx
          rw [hconv]
          simpa [hcd] using hmore hrun htx
    | expired =>
      rw [recvUses] at hrun
      split at hrun
      · exact ih h hopen hapart hlast hrun
      · cases hrun
        exact leave_owned h hlast
    | noData | failed =>
      cases hrun
      exact leave_owned h hlast

/-- The messages that come do not repeat a sequence number, and a call made within a transaction has
a message in its buffer when it ends. -/
structure Fit (server : Bool) (mem : Memory) (tx : Bool) (a : Args (ℕ × δ) β) (s : Buffers δ)
    (ps : List (Pass δ)) : Prop where
  apart : (s.conv.outOfOrderMsgs.map (·.1) ++ (ownOf s.conv.cd ps).map Message.msgseq).Nodup
  reply : tx = true → (getCurrentConnection server s.conv a.cd).isSome ∧
    ¬ (a.commandId = .convdata ∧ s.conv.sendonly = true) ∧ mem.attrs = true ∧
    ((∃ el ∈ s.conv.outOfOrderMsgs, el.1 = s.conv.msgseqin) ∨
      mem.sysbuf s.next = true ∧ lastSeen s.conv.cd false ps = true)

/-- After a receive each buffer is handed back or parked, once. -/
theorem tprecvUses_owned {server : Bool} {ps : List (Pass δ)} (h : Owned s [])
    (hfit : Fit server mem tx a s ps) (hrun : tprecvUses server mem tx a s ps = some (s', [])) :
    Owned s' [] := by
  have hno (hbad : ¬ tx = true) : Owned (leave tx none none s) [] := by
    apply leave_owned h
    exact fun htx => absurd htx hbad
  simp only [tprecvUses] at hrun
  split at hrun
  · rename_i hget
    cases hrun
    refine hno fun htx => ?_
    have hsome := (hfit.reply htx).1
    rw [hget] at hsome
    cases hsome
  · rename_i conv hget
    obtain ⟨rfl, hopen⟩ := getCurrentConnection_eq hget
    split at hrun
    · rename_i hbad
      cases hrun
      refine hno fun htx => ?_
      obtain ⟨-, hmay, hattrs, -⟩ := hfit.reply htx
      simp [hmay, hattrs] at hbad
    · split at hrun
      · rename_i rply conv hck
        obtain ⟨els, rfl, hperm⟩ := rcvHashCk_eq_some hck
        have hseq : rply.msgseq = s.conv.msgseqin := (h.keyed _ (hperm.mem_iff.mpr mem_cons_self)).symm
        have hown : Owned {s with conv := {s.conv with outOfOrderMsgs := els}} [rply.data.1] := by
          refine ⟨fun el hel => h.keyed el (hperm.mem_iff.mpr (mem_cons_of_mem _ hel)), h.fresh, ?_, h.fine⟩
          exact h.perm.trans ((hperm.map (·.2.data.1)).append_left _)
        have hinj : Owned (inject mem tx a {s with conv := {s.conv with outOfOrderMsgs := els}} rply).1 _ ∧
          _ := inject_owned hown hopen (fun hne => absurd hseq hne)
        split at hrun
        · rename_i s1 hs1
          cases hrun
          rw [hs1] at hinj
          exact hinj.1
        · rename_i s1 b hs1
          simp [inject, hseq] at hs1
      · rename_i hck
        obtain ⟨-, hdue⟩ := rcvHashCk_eq_none hck
        have hfirst (htx : tx = true) := (hfit.reply htx).2.2.2.resolve_left
          fun ⟨el, hel, heq⟩ => hdue el hel heq
        split at hrun
        · rename_i hfail
          cases hrun
          refine hno fun htx => ?_
          simp [(hfirst htx).1] at hfail
        · have hseen (htx : tx = true) : lastSeen s.conv.cd (none : Option (Filled δ)).isSome ps = true :=
            (hfirst htx).2
          exact recvUses_owned (h.malloc h.keyed (Perm.refl _)) hopen hfit.apart hseen hrun

def Buffers.shutdown (s : Buffers δ) : Buffers δ :=
  ⟨normalConnectionShutdown s.conv, s.next, s.uses ++ rcvHashDelall s.conv⟩

/-- The connection is shut down, `ndrx_tpsend` sets its flags and its number (the calls it makes to
receive are steps of their own), or `ndrx_tprecv` is called. -/
def FitStep (β : Type) (server : Bool) (s s' : Buffers δ) : Prop :=
  s' = s.shutdown ∨ (∃ snd rcv msgseqout, s' = {s with conv := {s.conv with
    sendonly := snd, recvonly := rcv, msgseqout := msgseqout}}) ∨ ∃ mem tx, ∃ a : Args (ℕ × δ) β, ∃ ps,
    Fit server mem tx a s ps ∧ tprecvUses server mem tx a s ps = some (s', [])

/-- In a run whose calls are all fit, each read of a reply is of a message received or injected in
its call, nothing is freed as other memory, and each buffer taken is taken once and has been handed
back once or is parked. -/
theorem buffers_handed_back {server : Bool} (h0 : s.next = 0 ∧ s.uses = [] ∧ s.conv.outOfOrderMsgs = [])
    (hrun : Relation.ReflTransGen (FitStep β server) s s') :
    (∀ x ∈ s'.uses, x.Fine) ∧ (mallocs s'.uses).Nodup ∧
      (mallocs s'.uses).Perm (handedBack s'.uses ++ parked s'.conv) := by
  have howned : Owned s' [] := by
    induction hrun with
    | refl =>
      obtain ⟨hnext, huses, hooo⟩ := h0
      refine ⟨by simp [Keyed, hooo], ?_, ?_, by simp [huses]⟩
      · rw [huses, hnext]
        rfl
      · rw [huses, parked, hooo]
        exact Perm.refl _
    | tail _ hstep ih =>
      rcases hstep with rfl | ⟨_, _, _, rfl⟩ | ⟨_, _, _, _, hfit, hcall⟩
      · exact delall_owned ih rfl
      · exact {ih with}
      · exact tprecvUses_owned ih hfit hcall
  refine ⟨howned.fine, ?_, howned.perm⟩
  rw [howned.fresh]
  exact nodup_range

def freshBuffers : Buffers ℕ := ⟨⟨.inConversation, 0, false, true, 0, 0, 0, 0, none, []⟩, 0, []⟩

def soundMemory : Memory := ⟨true, fun _ => true, fun _ => true⟩

def plainRecv (cd : Int) : Args (ℕ × ℕ) ℕ := ⟨cd, .convdata, false, false, fun d => .ok d.2⟩

theorem buffers_handed_back_two : ∃ s' : Buffers ℕ, (mallocs s'.uses).length = 2 ∧
    (mallocs s'.uses).Perm (handedBack s'.uses ++ parked s'.conv) := by
  have hfit : Fit false soundMemory true (plainRecv 0) freshBuffers
      [.got (sampleMessage 1 8), .got (sampleMessage 0 7)] :=
    ⟨by decide, fun _ => ⟨rfl, by decide, rfl, .inr ⟨rfl, rfl⟩⟩⟩
  exact ⟨_, rfl, (buffers_handed_back ⟨rfl, rfl, rfl⟩
    (.single (.inr (.inr ⟨_, _, _, _, hfit, rfl⟩)))).2.2⟩

/-- Within a transaction a call with a descriptor that is not open reads a reply that was never set;
and a message that repeats a parked one has that one's buffer freed as other memory. -/
theorem buffers_misused :
    (∃ s', tprecvUses false soundMemory true (plainRecv 1) freshBuffers [] = some (s', []) ∧
      .read none ∈ s'.uses) ∧
    ∃ s', tprecvUses false soundMemory false (plainRecv 0) freshBuffers
      [.got (sampleMessage 1 8), .got (sampleMessage 1 8), .got (sampleMessage 0 7)] = some (s', []) ∧
      .malloc 0 ∈ s'.uses ∧ .free 0 ∈ s'.uses := by
  exact ⟨⟨_, rfl, mem_singleton_self _⟩, _, rfl, by decide, by decide⟩

end Endurox.Conv
