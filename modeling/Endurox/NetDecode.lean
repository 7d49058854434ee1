import Endurox.BaseRun
import Endurox.NetUbf

/-! The decoder of the bridge protocol as a whole: `_exproto_proto2ex` over all tables and
`_exproto_proto2ex_mbuf`. What is done to the C structures and buffers is a parameter; here it is
about which records are read, and whether the reading comes to an end. -/

namespace Endurox.NetProto

open Base Base.Tlv UBF List

/-- What of the values read so far decides how it goes on: `msg_type` and `command_id` of the
message, the tag of the entry of the master buffer, and the id of the UBF field. -/
structure Ctl where
  msgType : UInt8
  commandId : Int
  tag : ℕ
  bfldid : Int
  deriving DecidableEq

inductive Action
  | store (fld : Cproto) (value : List UInt8)
  | addField (bfldid : Int)
  | viewField (tag : Int)
  /-- before and after what is in a record: the place in the structure, a system buffer, `Binit` -/
  | enter (fld : Cproto)
  | leave (fld : Cproto) (bfldid : Int)
  /-- the header of a view was read: the view is looked up and initialised -/
  | openView
  | copy (fld : Cproto) (value : List UInt8)
  /-- an entry of the master buffer was read: its length is taken from `tlv_hdr->len` -/
  | entryEnd

/-- The receiving side. `entry` goes to the place of the next entry of the master buffer, `tagAt`
is the tag that memory has there. -/
structure Side (ρ : Type) where
  msgsizemax : Int
  act : Action → ρ → Except Stop ρ
  entry : ρ → ρ
  tagAt : ρ → ℕ

def intAfter (t : ExfType) (old : Int) (value : List UInt8) : Int :=
  match nettocInt t value (intBytes 4 old) 4 with
  | .ok r => if t.signed then signedAt 4 r.1 else leNat (r.1.take 4)
  | .error _ => old

def Ctl.note (c : Ctl) (fld : Cproto) (value : List UInt8) : Ctl :=
  if fld.type ≠ .fld then c
  else if fld.tag = 0x100F then {c with msgType := value.headD 0}
  else if fld.tag = 0x1019 then {c with commandId := intAfter .int c.commandId value}
  else if fld.tag = 0x132F then {c with tag := (intAfter .uint c.tag value).toNat}
  else if fld.tag = 0x10FF then {c with bfldid := wrap32 (intAfter .uint c.bfldid value)}
  else c

def classifyNetcall (c : Ctl) : Option (List Cproto) :=
  if c.msgType = 65 then some tpCommandCallX
  else if c.msgType = 78 ∧ (c.commandId = 13 ∨ c.commandId = 14) then some tpNotifCallX
  else if c.msgType = 88 ∧ c.commandId = 48 then some cmdBrTimeSyncX
  else if c.msgType = 88 ∧ c.commandId = 46 then some bridgeRefreshX
  else none

def includeOf (fld : Cproto) : List Cproto :=
  if fld.tag = 0x10A5 ∨ fld.tag = 0x10D7 then commandCallX
  else if fld.tag = 0x10F5 then bridgeRefreshSvcX
  else stdhdrX

inductive Content
  | value
  /-- records of a table; with `fb` the values go to a UBF buffer -/
  | table (t : List Cproto) (c : Ctl) (fb : Bool)
  | masterBuf
  | view
  | memory
  | invalid

def contentOf (fld : Cproto) (c : Ctl) : Content :=
  match fld.type with
  | .fld | .fldPtr | .sbl => .value
  | .sub | .subPtr =>
    match classifyNetcall c with
    | none => .invalid
    | some t => .table t c false
  | .inc | .loop => .table (includeOf fld) c false
  | .masterBuf => .masterBuf
  | .atmiBuf =>
    if mbufType c.tag = bufTypeUbf then .table ubfField {c with bfldid := 0} true
    else if mbufType c.tag = bufTypeView then .view
    else .memory
  | .atmiBufPtr =>
    match fldType c.bfldid with
    | some .ubf => .table ubfField {c with bfldid := 0} true
    | some .view => .view
    | _ => .invalid

/-- Why the decoder is not done: it failed, or it is still running when the steps it was given
are used up. -/
inductive Halt
  | stop (why : Stop)
  | running
  deriving DecidableEq

/-- What is seen of a run: each time the head of a record is read and each time the loop of the
master buffer begins, with the bytes that are left, and what the loop's round has read of them. -/
inductive Event
  | head (left : ℕ)
  | round (left : ℕ)
  | turn (left done : ℕ)
  deriving DecidableEq

def netTag (w : List UInt8) : Int := wrap 32768 (beNat (w.take 2))

def netLen (w : List UInt8) : Int := wrap32 (beNat ((w.drop 2).take 4))

variable {ρ : Type} (S : Side ρ)

def Side.run (a : Action) (x : ρ) : Run Event Halt ρ :=
  .lift ((S.act a x).mapError .stop)

def storeValue (fb : Bool) (tag : Int) (fld : Cproto) (c : Ctl) (value : List UInt8) (x : ρ) :
    Run Event Halt ρ :=
  (S.run (.store fld value) x).bind (fun x =>
    if fb ∧ ubfProtoTagMap .short ≤ tag ∧ tag ≤ ubfProtoTagMap .ptr then
      S.run (.addField c.bfldid) x
    else if fb ∧ 0x1360 ≤ tag ∧ tag ≤ 0x1367 then S.run (.viewField tag) x
    else .pure x)

section

-- the records of a table, on the level below
variable (inner : Bool → List Cproto → Ctl → List UInt8 → ρ → Run Event Halt (ℕ × ρ))

def roundsProto2ex : ℕ → Ctl → List UInt8 → ρ → Run Event Halt ρ
  | 0, _, _, _ => .fail .running
  | n+1, c, w, x =>
    .note (.round w.length)
      ((inner false mbufTlvX {c with tag := S.tagAt (S.entry x)} w (S.entry x)).bind (fun r =>
        .note (.turn w.length r.1)
          ((S.run .entryEnd r.2).bind (fun x =>
            if r.1 < w.length then roundsProto2ex n c (w.drop r.1) x else .pure x))))

def content (n : ℕ) (fb : Bool) (tag : Int) (fld : Cproto) (c : Ctl) (value : List UInt8) (x : ρ) :
    Run Event Halt ρ :=
  match contentOf fld c with
  | .value => storeValue S fb tag fld c value x
  | .table t c' fb' =>
    (S.run (.enter fld) x).bind (fun x =>
      (inner fb' t c' value x).bind (fun r => S.run (.leave fld c.bfldid) r.2))
  | .masterBuf =>
    (S.run (.enter fld) x).bind (fun x =>
      (roundsProto2ex S inner n c value x).bind (fun x => S.run (.leave fld c.bfldid) x))
  | .view =>
    (S.run (.enter fld) x).bind (fun x =>
      (inner false viewX c value x).bind (fun r =>
        (S.run .openView r.2).bind (fun x =>
          (inner true viewField c (value.drop r.1) x).bind (fun r =>
            S.run (.leave fld c.bfldid) r.2))))
  | .memory => S.run (.copy fld value) x
  | .invalid => .fail (.stop .exfail)

end

/-- The loop of `_exproto_proto2ex` over the records in `w`, at most `n` of them and `n` levels
deep: the number of bytes it got through. With `fb` there is a UBF buffer or view to fill. -/
def tableProto2ex : ℕ → Bool → List Cproto → Ctl → List UInt8 → ρ → Run Event Halt (ℕ × ρ)
  | 0, _, _, _, w, x =>
    if w.length < 6 then .pure (0, x) else .note (.head w.length) (.fail .running)
  | n+1, fb, table, c, w, x =>
    if w.length < 6 then .pure (0, x)
    else .note (.head w.length)
      (if netLen w < 0 ∨ (w.length:Int)-6 < netLen w then .fail (.stop .exfail)
      else
        let next := 6+(netLen w).toNat
        let value := (w.drop 6).take (netLen w).toNat
        match getDescrFromTag table (netTag w) with
        | none => (tableProto2ex n fb table c (w.drop next) x).map (fun r => (next+r.1, r.2))
        | some fld =>
          if !exprotoCklen S.msgsizemax fld value then .fail (.stop .exfail)
          else (content S (tableProto2ex n) n fb (netTag w) fld c value x).bind (fun x =>
            if fld.last then .pure (next, x)
            else (tableProto2ex n fb table (c.note fld value) (w.drop next) x).map
              (fun r => (next+r.1, r.2))))

def exprotoProto2ex (n : ℕ) (c : Ctl) (msg : List UInt8) (x : ρ) : Run Event Halt (ℕ × ρ) :=
  tableProto2ex S n false cmdBrNetCallX c msg x

def Event.Good : Event → Prop
  | .head left => 6 ≤ left
  | .round _ => True
  | .turn left done => 1 ≤ done ∨ done = left

def Event.isHead : Event → Bool
  | .head _ => true
  | _ => false

def Event.isRound : Event → Bool
  | .round _ => true
  | _ => false

def headCount (tr : List Event) : ℕ := tr.countP Event.isHead

def roundCount (tr : List Event) : ℕ := tr.countP Event.isRound

def steps (tr : List Event) : ℕ := headCount tr+roundCount tr

section

variable (tr tr' : List Event) (left : ℕ)

@[simp] theorem headCount_head : headCount (.head left :: tr) = headCount tr+1 := countP_cons_of_pos rfl
@[simp] theorem headCount_round : headCount (.round left :: tr) = headCount tr :=
  countP_cons_of_neg nofun
@[simp] theorem roundCount_head : roundCount (.head left :: tr) = roundCount tr :=
  countP_cons_of_neg nofun
@[simp] theorem roundCount_round : roundCount (.round left :: tr) = roundCount tr+1 :=
  countP_cons_of_pos rfl

theorem headCount_append : headCount (tr ++ tr') = headCount tr+headCount tr' := countP_append

theorem roundCount_append : roundCount (tr ++ tr') = roundCount tr+roundCount tr' := countP_append

end

def EvenRounds (tr : List Event) : Prop := ∀ left, .round left ∈ tr → left = 0 ∨ 6 ≤ left

variable {tr tr' : List Event}

theorem EvenRounds.of_subset (h : EvenRounds tr) (hsub : tr' ⊆ tr) : EvenRounds tr' :=
  fun left hmem => h left (hsub hmem)

/-- A trace is paid for by `w` bytes: six for each head, and two rounds go with a head, except for
`extra` of them. -/
structure Paid (tr : List Event) (w extra : ℕ) : Prop where
  good : ∀ e ∈ tr, e.Good
  heads : 6*headCount tr ≤ w
  rounds : roundCount tr ≤ 2*headCount tr+extra

theorem Paid.nil (w extra : ℕ) : Paid [] w extra :=
  ⟨fun _ h => absurd h not_mem_nil, Nat.zero_le _, Nat.zero_le _⟩

variable {w extra : ℕ}

theorem Paid.mono {w' extra' : ℕ} (h : Paid tr w extra) (hw : w ≤ w') (he : extra ≤ extra') :
    Paid tr w' extra' :=
  ⟨h.good, h.heads.trans hw, h.rounds.trans (Nat.add_le_add_left he _)⟩

theorem Paid.append {w' extra' : ℕ} (h : Paid tr w extra) (h' : Paid tr' w' extra') :
    Paid (tr ++ tr') (w+w') (extra+extra') := by
  obtain ⟨hgood, _, _⟩ := h
  obtain ⟨hgood', _, _⟩ := h'
  refine ⟨forall_mem_append.mpr ⟨hgood, hgood'⟩, ?_, ?_⟩
  · rw [headCount_append]
    omega
  · rw [headCount_append, roundCount_append]
    omega

theorem Paid.turn {left done : ℕ} (h : Paid tr w extra) (hturn : 1 ≤ done ∨ done = left) :
    Paid (.turn left done :: tr) w extra :=
  ⟨forall_mem_cons.mpr ⟨hturn, h.good⟩, h.heads, h.rounds⟩

theorem Paid.head {left : ℕ} (h : Paid tr w 1) (hleft : 6 ≤ left) :
    Paid (.head left :: tr) (w+6) 0 := by
  obtain ⟨hgood, _, _⟩ := h
  refine ⟨forall_mem_cons.mpr ⟨hleft, hgood⟩, ?_, ?_⟩
  · rw [headCount_head]
    omega
  · rw [headCount_head, roundCount_head]
    omega

variable {S}

theorem run_ends (a : Action) (x : ρ) : (S.run a x).result ≠ .error .running := by
  rw [Side.run]
  cases S.act a x <;> nofun

variable {α : Type}

theorem bind_ends {β : Type} {x : Run Event Halt α} {f : α → Run Event Halt β}
    (hx : x.result ≠ .error .running) (hf : ∀ a, x.result = .ok a → (f a).result ≠ .error .running) :
    (x.bind f).result ≠ .error .running := by
  cases h : x.result with
  | error =>
    rw [Run.bind_of_error h]
    intro he
    cases he
    exact hx h
  | ok a =>
    rw [Run.bind_of_ok h]
    exact hf a h

structure Frame (n w : ℕ) (r : Run Event Halt (ℕ × ρ)) : Prop where
  paid : Paid r.trace w 0
  opened : 6 ≤ w → roundCount r.trace+1 ≤ 2*headCount r.trace
  used : ∀ k x, r.result = .ok (k, x) → 6*headCount r.trace ≤ k ∧ k ≤ w ∧ (6 ≤ w → 6 ≤ k)
  ends : w < n → r.result ≠ .error .running

variable {r : Run Event Halt (ℕ × ρ)} {n : ℕ}

theorem Frame.round {m : ℕ} (h : Frame n w r) (hleft : w = 0 ∨ 6 ≤ w)
    (hm : 6*headCount r.trace ≤ m) : Paid (.round w :: r.trace) m (if w = 0 then 1 else 0) := by
  have hpaid := h.paid.rounds
  refine ⟨forall_mem_cons.mpr ⟨trivial, h.paid.good⟩, hm, ?_⟩
  rw [headCount_round, roundCount_round]
  rcases hleft with rfl | hge
  · rw [if_pos rfl]
    omega
  · have hopened := h.opened hge
    omega

section

variable {inner : Bool → List Cproto → Ctl → List UInt8 → ρ → Run Event Halt (ℕ × ρ)} {n : ℕ}
  (hinner : ∀ fb t c w x, EvenRounds (inner fb t c w x).trace → Frame n w.length (inner fb t c w x))
include hinner

/-- Each round of the master buffer's loop is paid for by a head that was read in it; the only round
that reads none is that of an empty buffer. -/
theorem roundsProto2ex_paid {k : ℕ} {c : Ctl} {w : List UInt8} {x : ρ}
    (heven : EvenRounds (roundsProto2ex S inner k c w x).trace) :
    Paid (roundsProto2ex S inner k c w x).trace w.length (if w.length = 0 then 1 else 0) ∧
      (w.length < n → w.length < k → (roundsProto2ex S inner k c w x).result ≠ .error .running) := by
  induction k generalizing w x with
  | zero => exact ⟨Paid.nil _ _, fun _ h => absurd h (Nat.not_lt_zero _)⟩
  | succ k ih =>
    rw [roundsProto2ex] at heven ⊢
    generalize hr : inner false mbufTlvX {c with tag := S.tagAt (S.entry x)} w (S.entry x) = r at heven ⊢
    have hleft := heven w.length mem_cons_self
    have hframe : Frame n w.length r := by
      rw [← hr]
      apply hinner
      rw [hr]
      exact fun left hmem => heven left (mem_cons_of_mem _ (Run.mem_trace_left hmem))
    cases hres : r.result with
    | error =>
      rw [Run.bind_of_error hres]
      refine ⟨hframe.round hleft hframe.paid.heads, ?_⟩
      intro hn _ he
      cases he
      exact hframe.ends hn hres
    | ok a =>
      obtain ⟨done, y⟩ := a
      obtain ⟨hpay, hle, _⟩ := hframe.used done y hres
      have hturn : 1 ≤ done ∨ done = w.length := by omega
      have hfirst := hframe.round hleft hpay
      rw [Run.bind_of_ok hres] at heven ⊢
      cases hend : (S.run .entryEnd y).result with
      | error =>
        have hne := run_ends (S := S) .entryEnd y
        rw [Run.bind_of_error hend] at heven ⊢
        refine ⟨(hfirst.append ((Paid.nil 0 0).turn hturn)).mono hle (le_refl _), ?_⟩
        intro _ _ he
        cases he
        exact hne hend
      | ok z =>
        rw [Run.bind_of_ok hend] at heven ⊢
        by_cases hmore : done < w.length
        · dsimp only at heven ⊢
          rw [if_pos hmore] at heven ⊢
          obtain ⟨hrest, hends⟩ := ih (w := w.drop done) (x := z) (heven.of_subset (fun e he =>
            mem_cons_of_mem _ (mem_append_right _ (mem_cons_of_mem _ he))))
          rw [length_drop] at hrest hends
          rw [if_neg (by omega)] at hrest
          refine ⟨(hfirst.append (hrest.turn hturn)).mono (by omega) (le_refl _), ?_⟩
          intro hn hk
          exact hends (by omega) (by omega)
        · dsimp only at heven ⊢
          rw [if_neg hmore] at heven ⊢
          refine ⟨(hfirst.append ((Paid.nil 0 0).turn hturn)).mono hle (le_refl _), ?_⟩
          intro _ _ he
          cases he

end

structure Covered {α : Type} (n w extra : ℕ) (r : Run Event Halt α) : Prop where
  paid : Paid r.trace w extra
  ends : w < n → r.result ≠ .error .running

theorem covered_run (n w extra : ℕ) (a : Action) (x : ρ) : Covered n w extra (S.run a x) :=
  ⟨Paid.nil _ _, fun _ => run_ends a x⟩

theorem covered_run_bind {a : Action} {x : ρ} {f : ρ → Run Event Halt α}
    (heven : EvenRounds ((S.run a x).bind f).trace)
    (hf : ∀ y, EvenRounds (f y).trace → Covered n w extra (f y)) :
    Covered n w extra ((S.run a x).bind f) := by
  cases h : (S.run a x).result with
  | error =>
    have hne := run_ends (S := S) a x
    rw [Run.bind_of_error h]
    refine ⟨Paid.nil _ _, ?_⟩
    intro _ he
    cases he
    exact hne h
  | ok y =>
    rw [Run.bind_of_ok h] at heven ⊢
    exact ⟨(hf y heven).paid, (hf y heven).ends⟩

theorem Frame.bind {f : ℕ × ρ → Run Event Halt α} (heven : EvenRounds (r.bind f).trace)
    (hr : EvenRounds r.trace → Frame n w r)
    (hf : ∀ a, a.1 ≤ w → EvenRounds (f a).trace → Covered n (w-a.1) extra (f a)) :
    Covered n w extra (r.bind f) := by
  have hframe := hr (heven.of_subset (fun _ he => Run.mem_trace_left he))
  cases h : r.result with
  | error =>
    rw [Run.bind_of_error h]
    refine ⟨hframe.paid.mono (le_refl _) (Nat.zero_le _), ?_⟩
    intro hn he
    cases he
    exact hframe.ends hn h
  | ok a =>
    obtain ⟨hpay, hle, -⟩ := hframe.used a.1 a.2 h
    have hrest := hf a hle (heven.of_subset (fun _ he => Run.mem_trace_right h he))
    have hfirst : Paid r.trace a.1 0 := ⟨hframe.paid.good, hpay, hframe.paid.rounds⟩
    rw [Run.bind_of_ok h]
    refine ⟨(hfirst.append hrest.paid).mono (by omega) (by omega), ?_⟩
    intro hn
    exact hrest.ends (by omega)

/-- The value of a record pays for all that is read in it, but for the round of an empty master
buffer. -/
theorem content_covered
    {inner : Bool → List Cproto → Ctl → List UInt8 → ρ → Run Event Halt (ℕ × ρ)}
    (hinner : ∀ fb t c w x, EvenRounds (inner fb t c w x).trace → Frame n w.length (inner fb t c w x))
    {fb : Bool} {tag : Int} {fld : Cproto} {c : Ctl} {value : List UInt8} {x : ρ}
    (heven : EvenRounds (content S inner n fb tag fld c value x).trace) :
    Covered n value.length 1 (content S inner n fb tag fld c value x) := by
  rw [content] at heven ⊢
  cases hc : contentOf fld c with
  | value =>
    simp only [hc] at heven ⊢
    apply covered_run_bind heven
    intro y _
    split
    · exact covered_run ..
    · split
      · exact covered_run ..
      · exact ⟨Paid.nil _ _, fun _ => nofun⟩
  | table =>
    simp only [hc] at heven ⊢
    apply covered_run_bind heven
    intro y heven
    exact Frame.bind heven (hinner _ _ _ _ _) (fun _ _ _ => covered_run ..)
  | masterBuf =>
    simp only [hc] at heven ⊢
    apply covered_run_bind heven
    intro y heven
    obtain ⟨hpaid, hends⟩ := roundsProto2ex_paid hinner (k := n) (c := c) (w := value) (x := y)
      (heven.of_subset (fun _ he => Run.mem_trace_left he))
    have hone : (if value.length = 0 then 1 else 0) ≤ 1 := by split <;> omega
    constructor
    · apply Run.trace_bind (P := (Paid · value.length 1))
      · intro _ _
        exact hpaid.mono (le_refl _) hone
      · intro z _
        exact ((hpaid.append (Paid.nil 0 0)).mono (le_refl _) hone)
    · intro hn
      exact bind_ends (hends hn hn) (fun z _ => run_ends _ _)
  | view =>
    simp only [hc] at heven ⊢
    apply covered_run_bind heven
    intro y heven
    apply Frame.bind heven (hinner _ _ _ _ _)
    intro a hle heven
    apply covered_run_bind heven
    intro z heven
    apply Frame.bind heven
    · intro h
      rw [← length_drop]
      exact hinner _ _ _ _ _ h
    · exact fun _ _ _ => covered_run ..
  | memory => exact covered_run ..
  | invalid => exact ⟨Paid.nil _ _, fun _ => nofun⟩

theorem frame_short (n : ℕ) (x : ρ) (hw : w < 6) :
    Frame n w (.pure (0, x) : Run Event Halt (ℕ × ρ)) := by
  refine ⟨Paid.nil _ _, fun h => absurd h (by omega), ?_, fun _ => nofun⟩
  intro k y h
  cases h
  exact ⟨Nat.zero_le _, Nat.zero_le _, fun h => absurd h (by omega)⟩

theorem frame_head (hw : 6 ≤ w) (hpaid : Paid r.trace (w-6) 1)
    (hused : ∀ k x, r.result = .ok (k, x) → 6*headCount r.trace+6 ≤ k ∧ k ≤ w)
    (hends : w < n → r.result ≠ .error .running) : Frame n w (.note (.head w) r) := by
  refine ⟨(hpaid.head hw).mono (by omega) (le_refl _), ?_, ?_, hends⟩
  · intro _
    have := hpaid.rounds
    rw [Run.note, headCount_head, roundCount_head]
    omega
  · intro k x h
    have := hused k x h
    rw [Run.note, headCount_head]
    omega

theorem frame_failed (hw : 6 ≤ w) (n : ℕ) : Frame n w (.note (.head w) (.fail (.stop .exfail)) :
    Run Event Halt (ℕ × ρ)) :=
  frame_head hw (Paid.nil _ _) nofun (fun _ => nofun)

theorem Frame.behind {next : ℕ} (h : Frame n (w-next) r) {k : ℕ} {x : ρ}
    (hok : (r.map (fun a => (next+a.1, a.2))).result = .ok (k, x)) (hnext : next ≤ w) :
    6*headCount r.trace+next ≤ k ∧ k ≤ w := by
  obtain ⟨⟨_, _⟩, hr, he⟩ := map_eq_ok.mp hok
  cases he
  obtain ⟨_, _, -⟩ := h.used _ _ hr
  omega

theorem Frame.map_ends {next : ℕ} (h : Frame n w r) (hn : w < n) :
    (r.map (fun a => (next+a.1, a.2))).result ≠ .error .running := by
  have hne := h.ends hn
  intro he
  rw [Run.map] at he
  cases hr : r.result with
  | error =>
    rw [hr] at he
    cases he
    exact hne hr
  | ok =>
    rw [hr] at he
    cases he

/-- With even rounds a run of the decoder pays each round with a header, and ends in its data. -/
theorem tableProto2ex_frame (n : ℕ) (fb : Bool) (table : List Cproto) (c : Ctl) (w : List UInt8) (x : ρ)
    (heven : EvenRounds (tableProto2ex S n fb table c w x).trace) :
    Frame n w.length (tableProto2ex S n fb table c w x) := by
  induction n generalizing fb table c w x with
  | zero =>
    rw [tableProto2ex]
    split
    · next hw => exact frame_short 0 x hw
    · next hw =>
      apply frame_head (by omega) (Paid.nil _ _)
      · nofun
      · exact fun h => absurd h (Nat.not_lt_zero _)
  | succ n ih =>
    rw [tableProto2ex] at heven ⊢
    by_cases hw : w.length < 6
    · rw [if_pos hw]
      exact frame_short _ x hw
    rw [if_neg hw] at heven ⊢
    have heven' := heven.of_subset (subset_cons_self _ _)
    by_cases hbad : netLen w < 0 ∨ (w.length:Int)-6 < netLen w
    · rw [if_pos hbad]
      exact frame_failed (by omega) _
    rw [if_neg hbad] at heven' ⊢
    obtain ⟨len, hlen⟩ : ∃ len : ℕ, (netLen w).toNat = len := ⟨_, rfl⟩
    have hle : 6+len ≤ w.length := by omega
    have hvalue : ((w.drop 6).take len).length = len := by
      rw [length_take, length_drop]
      omega
    have hrest : (w.drop (6+len)).length = w.length-(6+len) := length_drop
    rw [hlen] at heven' ⊢
    cases hfind : getDescrFromTag table (netTag w) with
    | none =>
      simp only [hfind] at heven' ⊢
      have htail := ih _ _ _ _ _ heven'
      rw [hrest] at htail
      apply frame_head (by omega)
      · exact htail.paid.mono (by omega) (Nat.zero_le _)
      · intro k y hok
        have := htail.behind hok hle
        show 6*headCount (tableProto2ex S n fb table c (w.drop (6+len)) x).trace+6 ≤ k ∧ _
        omega
      · exact fun hn => htail.map_ends (by omega)
    | some fld =>
      simp only [hfind] at heven' ⊢
      by_cases hck : (!exprotoCklen S.msgsizemax fld ((w.drop 6).take len)) = true
      · rw [if_pos hck]
        exact frame_failed (by omega) _
      rw [if_neg hck] at heven' ⊢
      have hcontent := content_covered ih (heven'.of_subset (fun _ he => Run.mem_trace_left he))
      cases hres : (content S (tableProto2ex S n) n fb (netTag w) fld c ((w.drop 6).take len) x).result with
      | error =>
        rw [Run.bind_of_error hres]
        apply frame_head (by omega) (hcontent.paid.mono (by omega) (le_refl _))
        · nofun
        · intro hn he
          cases he
          exact hcontent.ends (by omega) hres
      | ok y =>
        rw [Run.bind_of_ok hres] at heven' ⊢
        have hheads := hcontent.paid.heads
        by_cases hlast : fld.last = true
        · rw [if_pos hlast]
          apply frame_head (by omega)
          · exact (hcontent.paid.append (Paid.nil 0 0)).mono (by omega) (le_refl _)
          · intro k z hok
            cases hok
            rw [headCount_append]
            show 6*(_+0)+6 ≤ 6+len ∧ _
            omega
          · exact fun _ => nofun
        · rw [if_neg hlast] at heven' ⊢
          have htail := ih fb table (c.note fld ((w.drop 6).take len)) (w.drop (6+len)) y
            (heven'.of_subset (subset_append_right _ _))
          rw [hrest] at htail
          apply frame_head (by omega)
          · exact (hcontent.paid.append htail.paid).mono (by omega) (le_refl _)
          · intro k z hok
            have := htail.behind hok hle
            rw [headCount_append]
            show 6*(_+headCount (tableProto2ex S n fb table _ (w.drop (6+len)) y).trace)+6 ≤ k ∧ _
            omega
          · exact fun hn => htail.map_ends (by omega)

def ShortTurns (tr : List Event) : Prop := ∀ left < 6, .round left ∈ tr → .turn left 0 ∈ tr

theorem ShortTurns.nil : ShortTurns [] := fun _ _ h => absurd h not_mem_nil

theorem ShortTurns.append (h : ShortTurns tr) (h' : ShortTurns tr') : ShortTurns (tr ++ tr') := by
  intro left hlt hmem
  rcases mem_append.mp hmem with hmem | hmem
  · exact mem_append_left _ (h left hlt hmem)
  · exact mem_append_right _ (h' left hlt hmem)

theorem ShortTurns.cons {e : Event} (h : ShortTurns tr)
    (he : ∀ left < 6, e = .round left → .turn left 0 ∈ tr) : ShortTurns (e :: tr) := by
  intro left hlt hmem
  rcases mem_cons.mp hmem with hmem | hmem
  · exact mem_cons_of_mem _ (he left hlt hmem.symm)
  · exact mem_cons_of_mem _ (h left hlt hmem)

theorem ShortTurns.bind {β : Type} {x : Run Event Halt α} {f : α → Run Event Halt β}
    (hx : ShortTurns x.trace) (hf : ∀ a, ShortTurns (f a).trace) : ShortTurns (x.bind f).trace :=
  Run.trace_bind (P := ShortTurns) (fun _ _ => hx) (fun a _ => hx.append (hf a))

section

variable {inner : Bool → List Cproto → Ctl → List UInt8 → ρ → Run Event Halt (ℕ × ρ)}
  (hinner : ∀ fb t c w x, ShortTurns (inner fb t c w x).trace)
  (hshort : ∀ fb t c w x, w.length < 6 → inner fb t c w x = .pure (0, x))
include hinner hshort

theorem roundsProto2ex_shortTurns (k : ℕ) (c : Ctl) (w : List UInt8) (x : ρ) :
    ShortTurns (roundsProto2ex S inner k c w x).trace := by
  induction k generalizing w x with
  | zero => exact ShortTurns.nil
  | succ k ih =>
    apply ShortTurns.cons
    · apply (hinner _ _ _ _ _).bind
      intro a
      apply ShortTurns.cons
      · apply ShortTurns.nil.bind
        intro y
        split
        · exact ih _ _
        · exact ShortTurns.nil
      · nofun
    · intro left hlt he
      cases he
      rw [hshort _ _ _ _ _ hlt]
      exact mem_cons_self

theorem content_shortTurns (n : ℕ) (fb : Bool) (tag : Int) (fld : Cproto) (c : Ctl)
    (value : List UInt8) (x : ρ) : ShortTurns (content S inner n fb tag fld c value x).trace := by
  rw [content]
  cases contentOf fld c with
  | value =>
    apply ShortTurns.nil.bind
    intro y
    split
    · exact ShortTurns.nil
    · split <;> exact ShortTurns.nil
  | table =>
    apply ShortTurns.nil.bind
    intro y
    exact (hinner _ _ _ _ _).bind (fun _ => ShortTurns.nil)
  | masterBuf =>
    apply ShortTurns.nil.bind
    intro y
    exact (roundsProto2ex_shortTurns hinner hshort _ _ _ _).bind (fun _ => ShortTurns.nil)
  | view =>
    apply ShortTurns.nil.bind
    intro y
    apply (hinner _ _ _ _ _).bind
    intro a
    apply ShortTurns.nil.bind
    intro z
    exact (hinner _ _ _ _ _).bind (fun _ => ShortTurns.nil)
  | memory => exact ShortTurns.nil
  | invalid => exact ShortTurns.nil

end

theorem tableProto2ex_short (n : ℕ) (fb : Bool) (table : List Cproto) (c : Ctl) (w : List UInt8) (x : ρ)
    (hw : w.length < 6) : tableProto2ex S n fb table c w x = .pure (0, x) := by
  cases n <;> rw [tableProto2ex, if_pos hw]

theorem tableProto2ex_shortTurns (n : ℕ) (fb : Bool) (table : List Cproto) (c : Ctl)
    (w : List UInt8) (x : ρ) : ShortTurns (tableProto2ex S n fb table c w x).trace := by
  induction n generalizing fb table c w x with
  | zero =>
    rw [tableProto2ex]
    split
    · exact ShortTurns.nil
    · exact ShortTurns.nil.cons nofun
  | succ n ih =>
    rw [tableProto2ex]
    split
    · exact ShortTurns.nil
    refine ShortTurns.cons ?_ nofun
    split
    · exact ShortTurns.nil
    dsimp only
    split
    · exact ih _ _ _ _ _
    split
    · exact ShortTurns.nil
    · apply (content_shortTurns ih (tableProto2ex_short n) _ _ _ _ _ _ _).bind
      intro y
      split
      · exact ShortTurns.nil
      · exact ih _ _ _ _ _

/-- However many steps are given, the decoder reads heads inside of the records around them, every
turn of a loop gets on or ends the loop, and there are no more turns than bytes; with more steps
than bytes it comes to an end. -/
def Ends (S : Side ρ) (c : Ctl) (msg : List UInt8) (x : ρ) : Prop :=
  ∀ n, (∀ e ∈ (exprotoProto2ex S n c msg x).trace, e.Good) ∧
    steps (exprotoProto2ex S n c msg x).trace ≤ msg.length ∧
    (msg.length < n → (exprotoProto2ex S n c msg x).result ≠ .error .running)

/-- The decoder ends exactly on the messages on which no round of the master buffer's loop begins
with one to five bytes. -/
theorem decoding_ends_iff (S : Side ρ) (c : Ctl) (msg : List UInt8) (x : ρ) :
    Ends S c msg x ↔ ∀ n, EvenRounds (exprotoProto2ex S n c msg x).trace := by
  constructor
  · intro h n left hmem
    by_contra hleft
    have hturn := tableProto2ex_shortTurns n false cmdBrNetCallX c msg x left (by omega) hmem
    have hgood : 1 ≤ 0 ∨ 0 = left := (h n).1 _ hturn
    omega
  · intro h n
    have hframe := tableProto2ex_frame n false cmdBrNetCallX c msg x (h n)
    have hheads := hframe.paid.heads
    have hrounds := hframe.paid.rounds
    refine ⟨hframe.paid.good, ?_, hframe.ends⟩
    rw [exprotoProto2ex, steps]
    omega

theorem net_frame {tag : ℕ} {body : List UInt8} (htag : tag < 65536) (hbody : body.length < 2147483648)
    (after : List UInt8) :
    netTag (frame tag body ++ after) = wrap 32768 tag ∧
      netLen (frame tag body ++ after) = body.length ∧
      ((frame tag body ++ after).drop 6).take body.length = body ∧
      (frame tag body ++ after).drop (6+body.length) = after := by
  obtain ⟨h1, h2, h3⟩ := Base.Tlv.frame_head htag hbody after
  refine ⟨?_, h2, ?_, ?_⟩
  · rw [netTag, h1]
  · rw [h3, take_left]
  · rw [← frame_length tag body, drop_left]

section

variable {tag n : ℕ} {body after : List UInt8} {table : List Cproto} {fb : Bool} {c : Ctl} {x : ρ}
  (htag : tag < 65536) (hbody : body.length < 2147483648)
include htag hbody

theorem tableProto2ex_unknown (hfind : getDescrFromTag table (wrap 32768 tag) = none) :
    tableProto2ex S (n+1) fb table c (frame tag body ++ after) x =
      .note (.head (frame tag body ++ after).length)
        ((tableProto2ex S n fb table c after x).map (fun r => (6+body.length+r.1, r.2))) := by
  obtain ⟨h1, h2, -, h4⟩ := net_frame htag hbody after
  have hlen : (frame tag body ++ after).length = 6+body.length+after.length := by
    rw [length_append, frame_length]
  rw [tableProto2ex, if_neg (by omega), h1, h2, if_neg (by omega)]
  simp [hfind, h4]

theorem tableProto2ex_checked {fld : Cproto} (hfind : getDescrFromTag table (wrap 32768 tag) = some fld) :
    tableProto2ex S (n+1) fb table c (frame tag body ++ after) x =
      .note (.head (frame tag body ++ after).length)
        (if !exprotoCklen S.msgsizemax fld body then .fail (.stop .exfail)
        else (content S (tableProto2ex S n) n fb (wrap 32768 tag) fld c body x).bind (fun y =>
          if fld.last then .pure (6+body.length, y)
          else (tableProto2ex S n fb table (c.note fld body) after y).map
            (fun r => (6+body.length+r.1, r.2)))) := by
  obtain ⟨h1, h2, h3, h4⟩ := net_frame htag hbody after
  have hlen : (frame tag body ++ after).length = 6+body.length+after.length := by
    rw [length_append, frame_length]
  rw [tableProto2ex, if_neg (by omega), h1, h2, if_neg (by omega)]
  simp [hfind, h3, h4]

theorem tableProto2ex_known {fld : Cproto} (hfind : getDescrFromTag table (wrap 32768 tag) = some fld)
    (hck : exprotoCklen S.msgsizemax fld body = true) :
    tableProto2ex S (n+1) fb table c (frame tag body ++ after) x =
      .note (.head (frame tag body ++ after).length)
        ((content S (tableProto2ex S n) n fb (wrap 32768 tag) fld c body x).bind (fun y =>
          if fld.last then .pure (6+body.length, y)
          else (tableProto2ex S n fb table (c.note fld body) after y).map
            (fun r => (6+body.length+r.1, r.2)))) := by
  rw [tableProto2ex_checked htag hbody hfind, hck]
  rfl

end

def anySide : Side Unit where
  msgsizemax := 65552
  act _ _ := .ok ()
  entry := id
  tagAt _ := 0

theorem roundsProto2ex_running
    {inner : Bool → List Cproto → Ctl → List UInt8 → Unit → Run Event Halt (ℕ × Unit)}
    (hshort : ∀ fb t c w x, w.length < 6 → inner fb t c w x = .pure (0, x)) (k : ℕ) (c : Ctl)
    (b : UInt8) :
    (roundsProto2ex anySide inner k c [b] ()).result = .error .running := by
  induction k with
  | zero => rfl
  | succ k ih =>
    have hone : [b].length < 6 := show 1 < 6 by decide
    rw [roundsProto2ex, hshort _ _ _ _ _ hone]
    exact ih

theorem masterBuf_running (k : ℕ) (c : Ctl) :
    (tableProto2ex anySide k false tpCommandCallX c (frame 0x11F9 [0] ++ []) ()).result =
      .error .running := by
  cases k with
  | zero => rfl
  | succ k =>
    have hcontent : (content anySide (tableProto2ex anySide k) k false (wrap 32768 (0x11F9:ℕ))
        (row 0x11F9 .none .masterBuf 0 pmsgmax) c [0] ()).result = .error .running := by
      show ((roundsProto2ex anySide (tableProto2ex anySide k) k c [0] ()).bind
        (fun x => anySide.run _ x)).result = _
      rw [Run.result_bind, roundsProto2ex_running (tableProto2ex_short k)]
      rfl
    have hfind : getDescrFromTag tpCommandCallX (wrap 32768 (0x11F9:ℕ)) =
        some (row 0x11F9 .none .masterBuf 0 pmsgmax) := by decide
    rw [tableProto2ex_known (by decide) (by decide) hfind (by decide)]
    show (Run.bind _ _).result = _
    rw [Run.result_bind, hcontent]
    rfl

theorem call_running (k : ℕ) : (tableProto2ex anySide k false cmdBrNetCallX ⟨65, 0, 0, 0⟩
      (frame 0x102D (frame 0x11F9 [0] ++ []) ++ []) ()).result = .error .running := by
  cases k with
  | zero => rfl
  | succ k =>
    have hcontent : (content anySide (tableProto2ex anySide k) k false (wrap 32768 (0x102D:ℕ))
        (row 0x102D .none .subPtr 0 pmsgmax) ⟨65, 0, 0, 0⟩ (frame 0x11F9 [0] ++ []) ()).result =
          .error .running := by
      show ((tableProto2ex anySide k false tpCommandCallX ⟨65, 0, 0, 0⟩ (frame 0x11F9 [0] ++ []) ()).bind
        (fun x => anySide.run _ x.2)).result = _
      rw [Run.result_bind, masterBuf_running]
      rfl
    have hfind : getDescrFromTag cmdBrNetCallX (wrap 32768 (0x102D:ℕ)) =
        some (row 0x102D .none .subPtr 0 pmsgmax) := by decide
    rw [tableProto2ex_known (by decide) (by decide) hfind (by decide)]
    show (Run.bind _ _).result = _
    rw [Run.result_bind, hcontent]
    rfl

/-- A call whose master buffer is one byte: the decoder never comes to an end, and reads the byte in
no round. -/
theorem remainder_never_ends :
    ¬Ends anySide ⟨0, 0, 0, 0⟩ (frame 0x100F [65] ++ frame 0x102D (frame 0x11F9 [0])) () ∧
      ∀ n, (exprotoProto2ex anySide n ⟨0, 0, 0, 0⟩
        (frame 0x100F [65] ++ frame 0x102D (frame 0x11F9 [0])) ()).result = .error .running := by
  have hrun (n : ℕ) : (exprotoProto2ex anySide n ⟨0, 0, 0, 0⟩
      (frame 0x100F [65] ++ frame 0x102D (frame 0x11F9 [0])) ()).result = .error .running := by
    cases n with
    | zero => rfl
    | succ n =>
      have hrest := call_running n
      rw [append_nil, append_nil] at hrest
      have hfind : getDescrFromTag cmdBrNetCallX (wrap 32768 (0x100F:ℕ)) =
          some (row 0x100F .char .fld 1 1) := by decide
      rw [exprotoProto2ex, tableProto2ex_known (by decide) (by decide) hfind (by decide)]
      show Except.map _ (tableProto2ex anySide n false cmdBrNetCallX ⟨65, 0, 0, 0⟩ _ ()).result = _
      rw [hrest]
      rfl
  refine ⟨?_, hrun⟩
  intro h
  exact (h 21).2.2 (by decide) (hrun 21)

end Endurox.NetProto
