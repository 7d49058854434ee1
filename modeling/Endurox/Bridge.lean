import Endurox.BaseCInt
import Endurox.BaseHash

/-! The services a node shows to its peers (`ndrxd/bridge.c`, `ndrxd/cmd_bridge.c`): the current
view and the pending difference that the daemon keeps, the refresh messages it sends over a bridge,
and the table of a peer that applies them. -/

namespace Endurox.Bridge

open Base List Function Option

abbrev Svc := {s : List Char // s.length ≤ 30}

instance : LawfulBEq Svc := inferInstance

abbrev Svcs := Hash Svc Int

-- the system services are named by their format strings, with the number not filled in
def evSubs : List Char := "@TPEVSUBS%03hd".toList
def evUnsubs : List Char := "@TPEVUNSUBS%03hd".toList
def evPost : List Char := "@TPEVPOST%03hd".toList
def evDoPost : List Char := "@TPEVDOPOST%03hd".toList
def svcBridge : List Char := "@TPBRIDGE".toList
def svcRecover : List Char := "@TPRECOVER".toList
def svcTmib : List Char := ".TMIB".toList

def addIgnores (svc : Svc) : Bool :=
  svcBridge.isPrefixOf svc.val || evSubs.isPrefixOf svc.val || evUnsubs.isPrefixOf svc.val ||
    evPost.isPrefixOf svc.val || svc.val == svcRecover || svc.val == svcTmib

def delIgnores (svc : Svc) : Bool :=
  svcBridge.isPrefixOf svc.val || svc.val == evSubs || svc.val == evUnsubs ||
    svc.val == evPost || svc.val == evDoPost || svc.val == svcTmib

def exported (svc : Svc) : Bool := !addIgnores svc

def addSvcToHashG (svcs : Svcs) (svc : Svc) : Svcs :=
  match svcs.find svc with
  | some count => svcs.set svc (wrap32 (count+1))
  | none => svcs.set svc 1

/-- `brd_del_svc_from_hash_g`: a difference may run below zero, the view may not. -/
def delSvcFromHashG (svcs : Svcs) (svc : Svc) (diff : Bool) : Svcs :=
  match svcs.find svc with
  | some count =>
    if diff || 1 < count then svcs.set svc (wrap32 (count-1)) else svcs.erase svc
  | none => if diff then svcs.set svc (-1) else svcs

structure Ndrxd where
  svcHash : Svcs
  svcDiff : Svcs
  buildDiff : Bool
  connected : Bool

def Ndrxd.init : Ndrxd := ⟨Hash.empty, Hash.empty, false, false⟩

def addSvcToHash (d : Ndrxd) (svc : Svc) : Ndrxd :=
  if addIgnores svc then d
  else { d with
    svcDiff := addSvcToHashG d.svcDiff svc
    svcHash := addSvcToHashG d.svcHash svc }

def delSvcFromHash (d : Ndrxd) (svc : Svc) : Ndrxd :=
  if delIgnores svc then d
  else { d with
    svcDiff := if d.buildDiff then delSvcFromHashG d.svcDiff svc true else d.svcDiff
    svcHash := delSvcFromHashG d.svcHash svc false }

inductive Mode
  | full
  | diff
  deriving DecidableEq

structure Refresh where
  mode : Mode
  svcs : List (Svc × Int)
  deriving DecidableEq

/-- `brd_build_refresh_msg`, which appends to what the buffer holds. -/
def buildRefreshMsg (svcs : Svcs) (buf : List (Svc × Int)) (mode : Mode) : Refresh :=
  ⟨mode, buf ++ svcs.entries⟩

def beginDiff (d : Ndrxd) : Ndrxd := { d with buildDiff := true, svcDiff := Hash.empty }

/-- `brd_end_diff`: nothing is sent when the difference has no entry. -/
def endDiff (d : Ndrxd) : Ndrxd × List Refresh :=
  let refresh := buildRefreshMsg d.svcDiff [] .diff
  ({ d with buildDiff := false, svcDiff := Hash.empty },
    if d.connected && !refresh.svcs.isEmpty then [refresh] else [])

def brdConnected (d : Ndrxd) : Ndrxd × List Refresh :=
  ({ d with connected := true }, [buildRefreshMsg d.svcHash [] .full])

/-- `brd_send_periodrefresh` for this bridge when its time has come. The buffer is not cleared
between the bridges, so it holds the view once more for each bridge refreshed `before` this one. -/
def sendPeriodrefresh (d : Ndrxd) (before : Nat) : Ndrxd × List Refresh :=
  (d, if d.connected then
    [buildRefreshMsg d.svcHash (replicate before d.svcHash.entries).flatten .full] else [])

inductive Op
  | add (svc : Svc)
  | del (svc : Svc)

def applyOp (d : Ndrxd) : Op → Ndrxd
  | .add svc => addSvcToHash d svc
  | .del svc => delSvcFromHash d svc

inductive Step
  | block (ops : List Op)
  | connect
  | period (before : Nat)

def step (d : Ndrxd) : Step → Ndrxd × List Refresh
  | .block ops => endDiff (ops.foldl applyOp (beginDiff d))
  | .connect => brdConnected d
  | .period before => sendPeriodrefresh d before

def newCount (mode : Mode) (old count : Int) : Int :=
  match mode with
  | .full => count
  | .diff => wrap32 (old+count)

def applyEntry (mode : Mode) (theyr : Svcs) (e : Svc × Int) : Svcs :=
  match theyr.find e.1 with
  | some count =>
    if newCount mode count e.2 = 0 then theyr.erase e.1
    else theyr.set e.1 (newCount mode count e.2)
  | none => if 0 < e.2 then theyr.set e.1 e.2 else theyr

/-- The loop of `cmd_brrefresh`. It stops at the first entry that `brd_lock_and_update_shm` cannot
put into the shared memory; `shm` says for which entries it can. -/
def applyEntries (shm : Svc × Int → Mode → Bool) (mode : Mode) :
    Svcs → List (Svc × Int) → Except Svcs Svcs
  | theyr, [] => .ok theyr
  | theyr, e :: es =>
    if shm e mode then applyEntries shm mode (applyEntry mode theyr e) es else .error theyr

/-- `cmd_brrefresh`: after a full list, the services it did not name go. -/
def cmdBrrefresh (shm : Svc × Int → Mode → Bool) (theyr : Svcs) (r : Refresh) : Svcs :=
  match applyEntries shm r.mode theyr r.svcs with
  | .error theyr => theyr
  | .ok theyr =>
    match r.mode with
    | .diff => theyr
    | .full =>
      let svcref := r.svcs.map Prod.fst
      (theyr.entries.map Prod.fst).foldl
        (fun t svc => if svc ∈ svcref then t else t.erase svc) theyr

abbrev Offers := Svc → Int

def offer (off : Offers) : Op → Offers
  | .add svc => update off svc (off svc+1)
  | .del svc => update off svc (off svc-1)

def offers (off : Offers) : Step → Offers
  | .block ops => ops.foldl offer off
  | .connect => off
  | .period _ => off

def run (d : Ndrxd) (off : Offers) : List Step → List (Refresh × Offers)
  | [] => []
  | s :: steps =>
    (step d s).2.map (fun r => (r, offers off s)) ++ run (step d s).1 (offers off s) steps

/-- An operation on a service that both ignore rules treat alike, with the number of its servers
in range: none is removed that was not added, and the counter does not overflow. -/
def OpOk (off : Offers) : Op → Prop
  | .add svc => addIgnores svc = delIgnores svc ∧ off svc+1 < 2^31
  | .del svc => addIgnores svc = delIgnores svc ∧ 0 < off svc

def OpsOk (off : Offers) : List Op → Prop
  | [] => True
  | op :: ops => OpOk off op ∧ OpsOk (offer off op) ops

def StepsOk (off : Offers) : List Step → Prop
  | [] => True
  | .block ops :: steps => OpsOk off ops ∧ StepsOk (offers off (.block ops)) steps
  | s :: steps => StepsOk (offers off s) steps

def Shows (off : Offers) (t : Svcs) : Prop :=
  ∀ svc, t.find svc = if exported svc ∧ 0 < off svc then some (off svc) else none

def InRange (off : Offers) : Prop := ∀ svc, 0 ≤ off svc ∧ off svc < 2147483648

variable (t : Svcs)

theorem find_addSvcToHashG (svc k : Svc) : (addSvcToHashG t svc).find k =
      if k = svc then some (wrap32 ((t.find svc).getD 0+1)) else t.find k := by
  unfold addSvcToHashG
  cases h : t.find svc with
  | some => rw [Hash.find_set, getD_some]
  | none =>
    rw [Hash.find_set]
    rfl

theorem find_delSvcFromHashG_diff (svc k : Svc) : (delSvcFromHashG t svc true).find k =
      if k = svc then some (wrap32 ((t.find svc).getD 0-1)) else t.find k := by
  unfold delSvcFromHashG
  cases h : t.find svc with
  | some =>
    simp only [Bool.true_or, if_true, getD_some]
    rw [Hash.find_set]
  | none =>
    rw [if_pos rfl, Hash.find_set]
    rfl

theorem find_delSvcFromHashG_view (svc k : Svc) : (delSvcFromHashG t svc false).find k =
      if k = svc then ((t.find svc).filter (1 < ·)).map (fun c => wrap32 (c-1)) else t.find k := by
  unfold delSvcFromHashG
  cases h : t.find svc with
  | none =>
    by_cases hk : k = svc
    · simp [hk, h]
    · simp [hk]
  | some c =>
    by_cases hc : 1 < c
    · simp only [Bool.false_or, hc, decide_true, if_true, Hash.find_set]
      simp [Option.filter, hc]
    · simp only [Bool.false_or, hc, decide_false, Bool.false_eq_true, if_false, Hash.find_erase]
      simp [Option.filter, hc]

variable {off : Offers} {t : Svcs} {svc : Svc}

theorem Shows.add (ht : Shows off t) (hr : InRange off)
    (he : exported svc) (hlt : off svc+1 < 2^31) :
    Shows (offer off (.add svc)) (addSvcToHashG t svc) := by
  intro k
  rw [find_addSvcToHashG, offer]
  by_cases hk : k = svc
  · subst hk
    have h0 := (hr k).1
    have hcount : (t.find k).getD 0 = off k := by
      rw [ht k]
      by_cases hpos : 0 < off k
      · rw [if_pos ⟨he, hpos⟩, getD_some]
      · rw [if_neg (fun h => hpos h.2), getD_none]
        omega
    rw [if_pos rfl, hcount, update_self, if_pos ⟨he, by omega⟩, wrap32_of_mem (by omega) (by omega)]
  · rw [if_neg hk, update_of_ne hk, ht k]

theorem Shows.del (ht : Shows off t) (hr : InRange off) (he : exported svc) (hpos : 0 < off svc) :
    Shows (offer off (.del svc)) (delSvcFromHashG t svc false) := by
  intro k
  rw [find_delSvcFromHashG_view, offer]
  by_cases hk : k = svc
  · subst hk
    have hlt := (hr k).2
    rw [if_pos rfl, ht k, if_pos ⟨he, hpos⟩, update_self]
    by_cases h1 : 1 < off k
    · rw [if_pos ⟨he, by omega⟩]
      simp only [Option.filter, h1, decide_true, if_true, Option.map_some]
      rw [wrap32_of_mem (by omega) (by omega)]
    · rw [if_neg (fun h => h1 (by omega))]
      simp [Option.filter, h1]
  · rw [if_neg hk, update_of_ne hk, ht k]

variable {op : Op}

theorem Shows.hidden
    (hop : op = .add svc ∨ op = .del svc) (ht : Shows off t) (he : exported svc = false) :
    Shows (offer off op) t := by
  intro k
  by_cases hk : k = svc
  · subst hk
    rw [ht k, he]
    simp
  · have hoff : offer off op k = off k := by
      rcases hop with rfl | rfl
      · exact update_of_ne hk _ _
      · exact update_of_ne hk _ _
    rw [ht k, hoff]

theorem InRange.offer (hr : InRange off) (hop : OpOk off op) : InRange (offer off op) := by
  intro k
  have hk := hr k
  cases op with
  | add svc =>
    have hlt := hop.2
    by_cases h : k = svc
    · subst h
      simp only [Bridge.offer, update_self]
      omega
    · rw [Bridge.offer, update_of_ne h]
      exact hk
  | del svc =>
    have hpos := hop.2
    by_cases h : k = svc
    · subst h
      simp only [Bridge.offer, update_self]
      omega
    · rw [Bridge.offer, update_of_ne h]
      exact hk

/-- Between `brd_begin_diff` and `brd_end_diff`: the view is what is offered now, the difference
what has changed since `base`. -/
structure InBlock (base off : Offers) (d : Ndrxd) : Prop where
  view : Shows off d.svcHash
  building : d.buildDiff = true
  range : InRange off
  named : ∀ svc, d.svcDiff.find svc ≠ none → exported svc
  changed : ∀ svc, exported svc → (d.svcDiff.find svc).getD 0 = off svc-base svc

variable {d : Ndrxd}

theorem beginDiff_inBlock (hd : Shows off d.svcHash)
    (hr : InRange off) : InBlock off off (beginDiff d) where
  view := hd
  building := rfl
  range := hr
  named := fun _ h => absurd rfl h
  changed := fun svc _ => (sub_self (off svc)).symm

variable {base : Offers}

section

variable (h : InBlock base off d)
include h

theorem InBlock.changed_step (hb : InRange base) {delta : Int}
    (hoff : offer off op = update off svc (off svc+delta)) (hok : OpOk off op)
    (he : exported svc) (ht : ∀ k, t.find k =
      if k = svc then some (wrap32 ((d.svcDiff.find svc).getD 0+delta)) else d.svcDiff.find k) :
    ∀ k, exported k → (t.find k).getD 0 = offer off op k-base k := by
  intro k hk
  rw [ht k]
  by_cases hks : k = svc
  · subst hks
    have hnow := h.range.offer hok k
    rw [hoff, update_self] at hnow ⊢
    have hbase := hb k
    rw [if_pos rfl, getD_some, h.changed k he, wrap32_of_mem (by omega) (by omega)]
    omega
  · rw [if_neg hks, hoff, update_of_ne hks, h.changed k hk]

theorem InBlock.named_step {c : Int} (he : exported svc)
    (ht : ∀ k, t.find k = if k = svc then some c else d.svcDiff.find k) :
    ∀ k, t.find k ≠ none → exported k := by
  intro k hk
  by_cases hks : k = svc
  · exact hks ▸ he
  · rw [ht k, if_neg hks] at hk
    exact h.named k hk

theorem InBlock.hidden
    (hop : op = .add svc ∨ op = .del svc) (hok : OpOk off op)
    (he : exported svc = false) : InBlock base (offer off op) d where
  view := h.view.hidden hop he
  building := h.building
  range := h.range.offer hok
  named := h.named
  changed := by
    intro k hk
    have hks : k ≠ svc := by
      rintro rfl
      rw [he] at hk
      cases hk
    have hoff : offer off op k = off k := by
      rcases hop with rfl | rfl
      · exact update_of_ne hks _ _
      · exact update_of_ne hks _ _
    rw [hoff, h.changed k hk]

theorem InBlock.applyOp (hb : InRange base) (hok : OpOk off op) :
    InBlock base (offer off op) (applyOp d op) := by
  cases op with
  | add svc =>
    rw [Bridge.applyOp, addSvcToHash]
    by_cases hi : addIgnores svc = true
    · rw [if_pos hi]
      exact h.hidden (.inl rfl) hok (by simp [exported, hi])
    have he : exported svc := by simpa [exported] using hi
    rw [if_neg hi]
    exact {
      view := h.view.add h.range he hok.2
      building := h.building
      range := h.range.offer hok
      named := h.named_step he (find_addSvcToHashG _ svc)
      changed := h.changed_step hb rfl hok he (find_addSvcToHashG _ svc) }
  | del svc =>
    rw [Bridge.applyOp, delSvcFromHash, ← hok.1]
    by_cases hi : addIgnores svc = true
    · rw [if_pos hi]
      exact h.hidden (.inr rfl) hok (by simp [exported, hi])
    have he : exported svc := by simpa [exported] using hi
    rw [if_neg hi, if_pos h.building]
    exact {
      view := h.view.del h.range he hok.2
      building := h.building
      range := h.range.offer hok
      named := h.named_step he (find_delSvcFromHashG_diff _ svc)
      changed := h.changed_step hb rfl hok he (find_delSvcFromHashG_diff _ svc) }

theorem InBlock.foldl {ops : List Op}
    (hb : InRange base) (hok : OpsOk off ops) :
    InBlock base (ops.foldl offer off) (ops.foldl Bridge.applyOp d) := by
  induction ops generalizing off d with
  | nil => exact h
  | cons op ops ih => exact ih (h.applyOp hb hok.1) hok.2

end

def entryCount (mode : Mode) (old : Option Int) (count : Int) : Option Int :=
  match old with
  | some c => if newCount mode c count = 0 then none else some (newCount mode c count)
  | none => if 0 < count then some count else none

variable (mode : Mode)

theorem find_applyEntry (e : Svc × Int) (k : Svc) : (applyEntry mode t e).find k =
      if k = e.1 then entryCount mode (t.find e.1) e.2 else t.find k := by
  unfold applyEntry entryCount
  cases h : t.find e.1 with
  | some =>
    simp only
    split
    · rw [Hash.find_erase]
    · rw [Hash.find_set]
  | none =>
    simp only
    split
    · rw [Hash.find_set]
    · by_cases hk : k = e.1
      · rw [if_pos hk, hk, h]
      · rw [if_neg hk]

variable {es : List (Svc × Int)}

theorem find_foldl_of_not_mem {k : Svc} (hk : k ∉ es.map Prod.fst) (t : Svcs) :
    (es.foldl (applyEntry mode) t).find k = t.find k := by
  induction es generalizing t with
  | nil => rfl
  | cons e es ih =>
    rw [map_cons, mem_cons, not_or] at hk
    rw [foldl_cons, ih hk.2, find_applyEntry, if_neg hk.1]

theorem find_foldl_of_mem (hnd : (es.map Prod.fst).Nodup) {k : Svc} {c : Int} (hk : (k, c) ∈ es)
    (t : Svcs) : (es.foldl (applyEntry mode) t).find k = entryCount mode (t.find k) c := by
  induction es generalizing t with
  | nil => cases hk
  | cons e es ih =>
    rw [map_cons, nodup_cons] at hnd
    rw [foldl_cons]
    rcases mem_cons.mp hk with rfl | hk
    · rw [find_foldl_of_not_mem mode hnd.1, find_applyEntry, if_pos rfl]
    · have hne : k ≠ e.1 := by
        rintro rfl
        exact hnd.1 (mem_map.mpr ⟨_, hk, rfl⟩)
      rw [ih hnd.2 hk, find_applyEntry, if_neg hne]

theorem find_foldl_full (hes : ∀ e ∈ es, e.2 = off e.1 ∧ 0 < e.2) {k : Svc} (t : Svcs)
    (hk : k ∈ es.map Prod.fst ∨ t.find k = some (off k)) :
    (es.foldl (applyEntry .full) t).find k = some (off k) := by
  induction es generalizing t with
  | nil =>
    rcases hk with hk | hk
    · cases hk
    · exact hk
  | cons e es ih =>
    obtain ⟨hcount, he⟩ := hes e mem_cons_self
    apply ih (fun e he => hes e (mem_cons_of_mem _ he))
    by_cases hke : k = e.1
    · right
      rw [find_applyEntry, if_pos hke, hke, ← hcount]
      cases t.find e.1 with
      | some => exact if_neg (show e.2 ≠ 0 by omega)
      | none => exact if_pos he
    · rcases hk with hk | hk
      · left
        exact (mem_cons.mp hk).resolve_left hke
      · right
        rw [find_applyEntry, if_neg hke, hk]

variable {shm : Svc × Int → Mode → Bool}

theorem applyEntries_ok (hshm : ∀ e mode, shm e mode) (mode : Mode) (t : Svcs)
    (es : List (Svc × Int)) : applyEntries shm mode t es = .ok (es.foldl (applyEntry mode) t) := by
  induction es generalizing t with
  | nil => rfl
  | cons e es ih => rw [applyEntries, if_pos (hshm e mode), ih, foldl_cons]

theorem find_dropped (svcref names : List Svc) (t : Svcs) (k : Svc) :
    (names.foldl (fun t svc => if svc ∈ svcref then t else t.erase svc) t).find k =
      if k ∈ names ∧ k ∉ svcref then none else t.find k := by
  induction names generalizing t with
  | nil => simp
  | cons n _ ih =>
    rw [foldl_cons, ih]
    by_cases hn : n ∈ svcref
    · rw [if_pos hn]
      by_cases hkn : k = n
      · subst hkn
        simp [hn]
      · simp [hkn]
    · rw [if_neg hn, Hash.find_erase]
      by_cases hkn : k = n
      · subst hkn
        simp [hn]
      · simp [hkn]

/-- Each message, applied after those before it, leaves the peer with what the node offered when
it was sent, and a difference names exported services only. -/
def Follows (shm : Svc × Int → Mode → Bool) (theyr : Svcs) : List (Refresh × Offers) → Prop
  | [] => True
  | (r, off) :: sent =>
    Shows off (cmdBrrefresh shm theyr r) ∧ (r.mode = .diff → ∀ e ∈ r.svcs, exported e.1) ∧
      Follows shm (cmdBrrefresh shm theyr r) sent

variable {theyr : Svcs}

theorem Follows.at {before later : List (Refresh × Offers)} {r : Refresh}
    (h : Follows shm theyr (before ++ (r, off) :: later)) :
    Shows off ((before.map Prod.fst ++ [r]).foldl (cmdBrrefresh shm) theyr) ∧
      (r.mode = .diff → ∀ e ∈ r.svcs, exported e.1) := by
  induction before generalizing theyr with
  | nil => exact ⟨h.1, h.2.1⟩
  | cons m _ ih => exact ih h.2.2

theorem connected_foldl (ops : List Op) (d : Ndrxd) :
    (ops.foldl applyOp d).connected = d.connected := by
  induction ops generalizing d with
  | nil => rfl
  | cons op ops ih =>
    rw [foldl_cons, ih]
    cases op with
    | add =>
      rw [applyOp, addSvcToHash]
      split <;> rfl
    | del =>
      rw [applyOp, delSvcFromHash]
      split <;> rfl

theorem mem_repeated {α : Type} (l : List α) (n : ℕ) (a : α) :
    a ∈ (replicate n l).flatten ++ l ↔ a ∈ l := by
  rw [mem_append, mem_flatten]
  constructor
  · rintro (⟨_, hl', ha⟩ | ha)
    · exact (mem_replicate.mp hl').2 ▸ ha
    · exact ha
  · exact Or.inr

section

variable {shm : Svc × Int → Mode → Bool} (hshm : ∀ e mode, shm e mode)
include hshm

/-- A full refresh makes the peer show what is offered. -/
theorem cmdBrrefresh_full (ht : Shows off t) (hes : ∀ e, e ∈ es ↔ e ∈ t.entries) :
    Shows off (cmdBrrefresh shm theyr ⟨.full, es⟩) := by
  have hentry (e : Svc × Int) (he : e ∈ es) : exported e.1 ∧ e.2 = off e.1 ∧ 0 < e.2 := by
    have hfind := Hash.find_eq_some.mpr ((hes e).mp he)
    rw [ht e.1] at hfind
    split at hfind
    · rename_i h
      have hc : off e.1 = e.2 := by simpa using hfind
      exact ⟨h.1, hc.symm, hc ▸ h.2⟩
    · cases hfind
  intro k
  rw [cmdBrrefresh, applyEntries_ok hshm]
  simp only
  rw [find_dropped]
  by_cases hk : exported k ∧ 0 < off k
  · have hmem : k ∈ es.map Prod.fst := by
      have hfind : t.find k = some (off k) := by rw [ht k, if_pos hk]
      exact mem_map.mpr ⟨_, (hes _).mpr (Hash.find_eq_some.mp hfind), rfl⟩
    rw [if_pos hk, if_neg (fun h => h.2 hmem)]
    exact find_foldl_full (fun e he => (hentry e he).2) theyr (.inl hmem)
  · have hmem : k ∉ es.map Prod.fst := by
      intro h
      obtain ⟨e, he, rfl⟩ := mem_map.mp h
      obtain ⟨hex, hc, hpos⟩ := hentry e he
      exact hk ⟨hex, hc ▸ hpos⟩
    split
    · rfl
    · rename_i h
      exact Hash.find_eq_none.mpr (fun hin => h ⟨hin, hmem⟩)

/-- The differences of a block take the peer from the offers before it to those after it. -/
theorem cmdBrrefresh_diff (h : InBlock base off d) (hb : InRange base) (ht : Shows base theyr) :
    Shows off (cmdBrrefresh shm theyr ⟨.diff, d.svcDiff.entries⟩) := by
  intro k
  rw [cmdBrrefresh, applyEntries_ok hshm]
  simp only
  have hnow := h.range k
  have hbase := hb k
  cases hfind : d.svcDiff.find k with
  | none =>
    rw [find_foldl_of_not_mem .diff (Hash.find_eq_none.mp hfind), ht k]
    by_cases he : exported k = true
    · have hsame : off k = base k := by
        have := h.changed k he
        rw [hfind, getD_none] at this
        omega
      rw [hsame]
    · simp [he]
  | some c =>
    have he : exported k := h.named k (by simp [hfind])
    have hc : c = off k-base k := by
      have := h.changed k he
      rwa [hfind, getD_some] at this
    rw [find_foldl_of_mem .diff d.svcDiff.nodup (Hash.find_eq_some.mp hfind), ht k]
    by_cases hpos : 0 < base k
    · rw [if_pos ⟨he, hpos⟩]
      simp only [entryCount]
      have hsum : newCount .diff (base k) c = off k := by
        rw [newCount, wrap32_of_mem (by omega) (by omega)]
        omega
      rw [hsum]
      by_cases hz : off k = 0
      · rw [if_pos hz, if_neg (by omega)]
      · rw [if_neg hz, if_pos ⟨he, by omega⟩]
    · rw [if_neg (fun h => hpos h.2)]
      simp only [entryCount]
      have hoff : c = off k := by omega
      rw [hoff]
      by_cases hz : 0 < off k
      · rw [if_pos hz, if_pos ⟨he, hz⟩]
      · rw [if_neg hz, if_neg (fun h => hz h.2)]

theorem follows_block {ops : List Op}
    {rest : List (Refresh × Offers)} (hd : Shows off d.svcHash) (hr : InRange off)
    (hok : OpsOk off ops) (ht : d.connected = true → Shows off theyr)
    (hrest : ∀ theyr', (d.connected = true → Shows (ops.foldl offer off) theyr') →
      Follows shm theyr' rest) :
    Follows shm theyr
      ((step d (.block ops)).2.map (fun r => (r, ops.foldl offer off)) ++ rest) := by
  have h : InBlock off (ops.foldl offer off) (ops.foldl applyOp (beginDiff d)) :=
    (beginDiff_inBlock hd hr).foldl hr hok
  have hcon : (ops.foldl applyOp (beginDiff d)).connected = d.connected :=
    connected_foldl ops (beginDiff d)
  rw [step]
  generalize ops.foldl applyOp (beginDiff d) = d' at h hcon
  simp only [endDiff, buildRefreshMsg, nil_append, hcon]
  by_cases hsend : (d.connected && !d'.svcDiff.entries.isEmpty) = true
  · rw [if_pos hsend]
    have hc : d.connected = true := (Bool.and_eq_true _ _ ▸ hsend).1
    have hshow := cmdBrrefresh_diff hshm h hr (ht hc)
    refine ⟨hshow, ?_, hrest _ (fun _ => hshow)⟩
    intro _ e he
    exact h.named e.1 (by rw [Hash.find_eq_some.mpr he]; exact some_ne_none _)
  · -- nothing sent, since nothing that is exported has changed
    rw [if_neg hsend]
    apply hrest
    intro hc k
    have hempty : d'.svcDiff.entries = [] := by simpa [hc] using hsend
    have hnone : d'.svcDiff.find k = none := Hash.find_eq_none.mpr (by simp [hempty])
    rw [ht hc k]
    by_cases he : exported k = true
    · have hsame := h.changed k he
      rw [hnone, getD_none] at hsame
      have : ops.foldl offer off k = off k := by omega
      rw [this]
    · simp [he]

theorem run_follows {steps : List Step}
    (hd : Shows off d.svcHash) (hr : InRange off) (hok : StepsOk off steps)
    (ht : d.connected = true → Shows off theyr) : Follows shm theyr (run d off steps) := by
  induction steps generalizing d off theyr with
  | nil => trivial
  | cons s _ ih =>
    rw [run]
    cases s with
    | block ops =>
      have h := (beginDiff_inBlock hd hr).foldl hr hok.1
      apply follows_block hshm hd hr hok.1 ht
      intro theyr' ht'
      refine ih h.view h.range hok.2 ?_
      intro hc
      exact ht' ((connected_foldl ops (beginDiff d)).symm.trans hc)
    | connect =>
      have hshow : Shows off (cmdBrrefresh shm theyr ⟨.full, d.svcHash.entries⟩) :=
        cmdBrrefresh_full hshm hd (fun _ => Iff.rfl)
      exact ⟨hshow, (fun h => nomatch h), ih hd hr hok (fun _ => hshow)⟩
    | period before =>
      simp only [step, sendPeriodrefresh]
      by_cases hc : d.connected = true
      · rw [if_pos hc]
        have hshow : Shows off (cmdBrrefresh shm theyr _) :=
          cmdBrrefresh_full hshm hd (mem_repeated d.svcHash.entries before)
        exact ⟨hshow, (fun h => nomatch h), ih hd hr hok (fun _ => hshow)⟩
      · rw [if_neg hc]
        exact ih hd hr hok ht

end

/-- After every message of a run the peer holds what is exported and offered. -/
theorem peer_sees_exports (shm : Svc × Int → Mode → Bool) (hshm : ∀ e mode, shm e mode)
    (steps : List Step) (hok : StepsOk (fun _ => 0) steps) (theyr : Svcs)
    (before : List (Refresh × Offers)) (r : Refresh) (off : Offers)
    (later : List (Refresh × Offers))
    (hsent : run Ndrxd.init (fun _ => 0) steps = before ++ (r, off) :: later) :
    (∀ svc n, 0 < n →
      (((before.map Prod.fst ++ [r]).foldl (cmdBrrefresh shm) theyr).find svc = some n ↔
        exported svc ∧ off svc = n)) ∧
    (r.mode = .diff → ∀ e ∈ r.svcs, exported e.1) := by
  have hinit : Shows (fun _ => 0) Ndrxd.init.svcHash := by
    intro svc
    simp [Ndrxd.init]
  have hfollows : Follows shm theyr (before ++ (r, off) :: later) := by
    rw [← hsent]
    exact run_follows hshm hinit (fun _ => by decide) hok (fun h => by cases h)
  obtain ⟨hshow, hnamed⟩ := hfollows.at
  refine ⟨?_, hnamed⟩
  intro svc n hn
  rw [hshow svc]
  constructor
  · intro h
    split at h
    · rename_i hoff
      exact ⟨hoff.1, by simpa using h⟩
    · cases h
  · rintro ⟨he, rfl⟩
    rw [if_pos ⟨he, hn⟩]

theorem peer_sees_exports_refreshed : ∃ off : Offers, off ⟨"A".toList, by decide⟩ = 1 ∧
      (((run Ndrxd.init (fun _ => 0) [.connect,
        .block [.add ⟨"A".toList, by decide⟩, .add ⟨"A".toList, by decide⟩],
        .block [.del ⟨"A".toList, by decide⟩]]).map Prod.fst).foldl
          (cmdBrrefresh fun _ _ => true) Hash.empty).find ⟨"A".toList, by decide⟩ = some 1 := by
  let a : Svc := ⟨"A".toList, by decide⟩
  let steps : List Step := [.connect, .block [.add a, .add a], .block [.del a]]
  let off : Offers := offer (offer (offer (fun _ => 0) (.add a)) (.add a)) (.del a)
  have hok : StepsOk (fun _ => 0) steps := by
    simp [steps, StepsOk, OpsOk, OpOk]
    decide
  refine ⟨off, by decide, ?_⟩
  have h := (peer_sees_exports (fun _ _ => true) (fun _ _ => rfl) steps hok Hash.empty
    ((run Ndrxd.init (fun _ => 0) steps).take 2) ⟨.diff, [(a, -1)]⟩ off [] rfl).1 a 1 (by decide)
  exact h.mpr ⟨by decide, by decide⟩

/-- The recovery service is not exported, yet its removal is sent as a difference. The service
named by the text of the event post format is exported, and its removal never reaches a peer. -/
theorem ignore_rules_differ : let recover : Svc := ⟨svcRecover, by decide⟩
    let doPost : Svc := ⟨evDoPost, by decide⟩
    let sent (steps : List Step) := (run Ndrxd.init (fun _ => 0) steps).map Prod.fst
    exported recover = false ∧
    sent [.connect, .block [.add recover], .block [.del recover]] =
      [⟨.full, []⟩, ⟨.diff, [(recover, -1)]⟩] ∧
    exported doPost = true ∧
    offers (offers (fun _ => 0) (.block [.add doPost])) (.block [.del doPost]) doPost = 0 ∧
    ((sent [.connect, .block [.add doPost], .block [.del doPost], .period 0]).foldl
      (cmdBrrefresh fun _ _ => true) Hash.empty).find doPost = some 1 := by
  decide +kernel

end Endurox.Bridge
