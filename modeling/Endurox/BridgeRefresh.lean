import Endurox.Bridge
import Mathlib.Data.List.Infix

/-! The full refresh messages that `brd_connected` and `brd_send_periodrefresh` (`ndrxd/bridge.c`)
send to the bridges: the one buffer they are built in, and the filters of each bridge server. -/

namespace Endurox.Bridge

open List

structure Conf where
  exportsvcs : List Char
  blacklistsvcs : List Char

/-- A `bridgedef_t`, with the configuration that `get_pm_from_srvid` finds for its server. -/
structure Node where
  connected : Bool
  sendRefersh : Bool
  lastrefreshSent : Int
  conf : Option Conf

def Conf.passes (c : Conf) (svc : Svc) : Bool :=
  let searchSvc := ',' :: svc.val ++ [',']
  if c.blacklistsvcs ≠ [] ∧ searchSvc <:+: c.blacklistsvcs then false
  else decide (c.exportsvcs = [] ∨ searchSvc <:+: c.exportsvcs)

/-- The message that `brd_send_update` hands to `cmd_generic_call`. -/
def Conf.update (c : Conf) (refresh : Refresh) : Refresh :=
  if c.exportsvcs ≠ [] ∨ c.blacklistsvcs ≠ [] then
    ⟨refresh.mode, refresh.svcs.filter (fun e => c.passes e.1)⟩
  else refresh

/-- What a call leaves behind: the places of `svcs[]` it wrote, and what it sent under which
configuration. -/
structure Out where
  writes : List ℕ
  sent : List (Conf × Refresh)

/-- Builds the full view behind what `buf` holds and sends it to `n`. -/
def refreshNode (svcs : Svcs) (buf : List (Svc × Int)) (n : Node) : Out :=
  ⟨range' buf.length svcs.entries.length,
    n.conf.toList.map (fun c => (c, c.update (buildRefreshMsg svcs buf .full)))⟩

/-- `brd_connected` for a known node. Its server's record is used before it is tested, so there is
no result without one. -/
def connectNode (svcs : Svcs) (call : Conf → Refresh → Bool) (n : Node) : Option (Node × Out) := do
  let c ← n.conf
  if n.sendRefersh then
    let ok := call c (c.update (buildRefreshMsg svcs [] .full))
    pure ({ n with connected := true, lastrefreshSent := if ok then 0 else n.lastrefreshSent },
      refreshNode svcs [] n)
  else pure ({ n with connected := true }, ⟨[], []⟩)

def Node.due (brrefresh : Int) (n : Node) : Bool :=
  n.connected && n.sendRefersh && brrefresh ≤ n.lastrefreshSent+1

/-- The loop of `brd_send_periodrefresh`. The buffer is cleared before the loop only. -/
def periodLoop (svcs : Svcs) (brrefresh : Int) (call : Conf → Refresh → Bool) :
    List (Svc × Int) → List Node → List Node × Out
  | _, [] => ([], ⟨[], []⟩)
  | buf, n :: ns =>
    if n.due brrefresh then
      let refresh := buildRefreshMsg svcs buf .full
      let ok := n.conf.any (fun c => call c (c.update refresh))
      let rest := periodLoop svcs brrefresh call refresh.svcs ns
      let out := refreshNode svcs buf n
      ({ n with lastrefreshSent := if ok then 0 else n.lastrefreshSent+1 } :: rest.1,
        ⟨out.writes ++ rest.2.writes, out.sent ++ rest.2.sent⟩)
    else
      let rest := periodLoop svcs brrefresh call buf ns
      ({ n with lastrefreshSent := n.lastrefreshSent+1 } :: rest.1, rest.2)

def periodNodes (svcs : Svcs) (clustered : Bool) (brrefresh : Int)
    (call : Conf → Refresh → Bool) (ns : List Node) : List Node × Out :=
  if !clustered || brrefresh = 0 then (ns, ⟨[], []⟩)
  else periodLoop svcs brrefresh call [] ns

/-- Each service of the view that the filters let through is listed once, and no other. -/
def Exact (svcs : Svcs) (c : Conf) (refresh : Refresh) : Prop :=
  ∀ svc, (refresh.svcs.map Prod.fst).count svc =
    if svc ∈ svcs.entries.map Prod.fst ∧ c.passes svc then 1 else 0

/-- `svcs[i]` lies inside the buffer: `start` is the offset of `svcs`, `size` the system buffer, and
an entry takes 36 bytes. -/
def Inside (start size i : ℕ) : Prop := start + 36*(i+1) ≤ size

def Out.Good (svcs : Svcs) (start size : ℕ) (o : Out) : Prop :=
  (∀ m ∈ o.sent, Exact svcs m.1 m.2) ∧ ∀ i ∈ o.writes, Inside start size i

def Node.nothingFor (svcs : Svcs) (n : Node) : Prop :=
  ∀ c ∈ n.conf, ∀ svc ∈ svcs.entries.map Prod.fst, c.passes svc = false

variable {svcs : Svcs} {c : Conf}

theorem update_svcs (r : Refresh) :
    (c.update r).svcs.map Prod.fst = (r.svcs.map Prod.fst).filter c.passes := by
  rw [filter_map]
  unfold Conf.update
  split
  · rfl
  · rename_i h
    rw [not_or, not_not] at h
    have hall (svc : Svc) : c.passes svc = true := by simp [Conf.passes, h]
    simp [Function.comp_def, hall]

theorem count_update (k : ℕ) (svc : Svc) :
    ((c.update (buildRefreshMsg svcs (replicate k svcs.entries).flatten .full)).svcs.map
      Prod.fst).count svc =
      if svc ∈ svcs.entries.map Prod.fst ∧ c.passes svc then k+1 else 0 := by
  have hone : (svcs.entries.map Prod.fst).count svc =
      if svc ∈ svcs.entries.map Prod.fst then 1 else 0 := svcs.nodup.count
  have hcopies : (((replicate k svcs.entries).flatten ++ svcs.entries).map Prod.fst).count svc =
      (k+1) * (svcs.entries.map Prod.fst).count svc := by
    simp [count_flatten, Nat.succ_mul]
  rw [update_svcs]
  by_cases hp : c.passes svc
  · rw [count_filter hp]
    simp only [buildRefreshMsg, hcopies, hone, hp, and_true]
    split <;> simp
  · rw [count_eq_zero_of_not_mem (by simp [hp])]
    simp [hp]

theorem exact_iff (k : ℕ) :
    Exact svcs c (c.update (buildRefreshMsg svcs (replicate k svcs.entries).flatten .full)) ↔
      k = 0 ∨ ∀ svc ∈ svcs.entries.map Prod.fst, c.passes svc = false := by
  simp only [Exact, count_update]
  constructor
  · intro h
    by_contra hno
    push Not at hno
    obtain ⟨_, svc, hm, hp⟩ := hno
    have hlisted : svc ∈ svcs.entries.map Prod.fst ∧ c.passes svc := ⟨hm, by simpa using hp⟩
    have hs := h svc
    rw [if_pos hlisted, if_pos hlisted] at hs
    omega
  · rintro (rfl | hnone) svc
    · rfl
    · rw [if_neg, if_neg]
      all_goals
        rintro ⟨hm, hp⟩
        rw [hnone svc hm] at hp
        contradiction

theorem inside_range (start size s len : ℕ) :
    (∀ i ∈ range' s len, Inside start size i) ↔ 0 < len → start + 36*(s+len) ≤ size := by
  simp only [Inside, mem_range'_1]
  constructor
  · intro h hl
    have := h (s+len-1) (by omega)
    omega
  · intro h i hi
    omega

section

variable {brrefresh : Int} {call : Conf → Refresh → Bool}

theorem append_copy (k : ℕ) : (buildRefreshMsg svcs (replicate k svcs.entries).flatten .full).svcs =
      (replicate (k+1) svcs.entries).flatten := by
  simp [buildRefreshMsg, replicate_succ']

theorem periodLoop_writes (ns : List Node) (k : ℕ) :
    (periodLoop svcs brrefresh call (replicate k svcs.entries).flatten ns).2.writes =
      range' (k * svcs.entries.length)
        ((ns.filter (Node.due brrefresh)).length * svcs.entries.length) := by
  induction ns generalizing k with
  | nil => simp [periodLoop]
  | cons n ns ih =>
    simp only [periodLoop, append_copy]
    by_cases hd : n.due brrefresh
    · rw [if_pos hd, filter_cons_of_pos hd]
      simp only [ih, refreshNode, length_flatten, map_replicate, sum_replicate_nat, length_cons,
        Nat.succ_mul]
      rw [range'_append_1, Nat.add_comm svcs.entries.length]
    · rw [if_neg hd, filter_cons_of_neg hd]
      exact ih k

theorem refreshNode_exact (k : ℕ) (n : Node) :
    (∀ m ∈ (refreshNode svcs (replicate k svcs.entries).flatten n).sent, Exact svcs m.1 m.2) ↔
      k = 0 ∨ n.nothingFor svcs := by
  simp only [refreshNode, mem_map, forall_exists_index, and_imp,
    forall_apply_eq_imp_iff₂, exact_iff, Node.nothingFor]
  by_cases hk : k = 0
  · simp [hk]
  · simp [hk]

/-- From the second copy on, a due bridge has to have nothing to be sent. -/
theorem periodLoop_later (ns : List Node) (k : ℕ) :
    (∀ m ∈ (periodLoop svcs brrefresh call (replicate (k+1) svcs.entries).flatten ns).2.sent,
      Exact svcs m.1 m.2) ↔ ∀ n ∈ ns.filter (Node.due brrefresh), n.nothingFor svcs := by
  induction ns generalizing k with
  | nil => simp [periodLoop]
  | cons n ns ih =>
    simp only [periodLoop, append_copy]
    by_cases hd : n.due brrefresh
    · rw [if_pos hd, filter_cons_of_pos hd]
      rw [forall_mem_append, refreshNode_exact, ih]
      simp
    · rw [if_neg hd, filter_cons_of_neg hd]
      exact ih k

theorem periodLoop_exact (ns : List Node) :
    (∀ m ∈ (periodLoop svcs brrefresh call [] ns).2.sent, Exact svcs m.1 m.2) ↔
      ∀ n ∈ (ns.filter (Node.due brrefresh)).tail, n.nothingFor svcs := by
  induction ns with
  | nil => simp [periodLoop]
  | cons n ns ih =>
    by_cases hd : n.due brrefresh
    · have hfirst : ∀ m ∈ (refreshNode svcs [] n).sent, Exact svcs m.1 m.2 :=
        (refreshNode_exact 0 n).mpr (.inl rfl)
      simp only [periodLoop, if_pos hd, filter_cons_of_pos hd, forall_mem_append]
      rw [and_iff_right hfirst, show (buildRefreshMsg svcs [] .full).svcs = _ from append_copy 0]
      exact periodLoop_later ns 0
    · simp only [periodLoop, if_neg hd, filter_cons_of_neg hd]
      exact ih

end

/-- When the refresh of a connected bridge and the periodic round are exact and stay inside the
system buffer: the first when the view fits, the second when the view fits once for each due bridge
and no due bridge but the first has a service to be sent. -/
theorem refresh_good_iff (svcs : Svcs) (call : Conf → Refresh → Bool) (start size : ℕ) :
    (∀ n, (∀ o ∈ connectNode svcs call n, o.2.Good svcs start size) ↔
      (n.conf.isSome ∧ n.sendRefersh ∧ 0 < svcs.entries.length →
        start + 36*svcs.entries.length ≤ size)) ∧
    ∀ clustered brrefresh ns,
      (periodNodes svcs clustered brrefresh call ns).2.Good svcs start size ↔
        (clustered ∧ brrefresh ≠ 0 →
          (∀ n ∈ (ns.filter (Node.due brrefresh)).tail, n.nothingFor svcs) ∧
          (0 < (ns.filter (Node.due brrefresh)).length * svcs.entries.length →
            start + 36*((ns.filter (Node.due brrefresh)).length * svcs.entries.length) ≤ size)) := by
  constructor
  · intro n
    have hex : ∀ m ∈ (refreshNode svcs [] n).sent, Exact svcs m.1 m.2 :=
      (refreshNode_exact 0 n).mpr (.inl rfl)
    have hin := inside_range start size 0 svcs.entries.length
    rw [Nat.zero_add] at hin
    cases hc : n.conf with
    | none => simp [connectNode, hc]
    | some =>
      by_cases hs : n.sendRefersh
      · have hgood : (refreshNode svcs [] n).Good svcs start size ↔
            (0 < svcs.entries.length → start + 36*svcs.entries.length ≤ size) :=
          (and_iff_right hex).trans hin
        simpa [connectNode, hc, hs] using hgood
      · simp [connectNode, hc, hs, Out.Good]
  · intro clustered brrefresh ns
    unfold periodNodes
    by_cases hon : clustered ∧ brrefresh ≠ 0
    · rw [if_neg (by simpa using hon), imp_iff_right hon]
      refine and_congr (periodLoop_exact ns) ?_
      rw [show ([] : List (Svc × Int)) = (replicate 0 svcs.entries).flatten from rfl,
        periodLoop_writes, Nat.zero_mul, inside_range, Nat.zero_add]
    · rw [if_pos (by grind)]
      simp [hon, Out.Good]

def oneSvc : Svcs := ⟨[(⟨"BALANCE".toList, by decide⟩, 1)], by decide⟩

def openNode : Node := ⟨true, true, 4, some ⟨[], []⟩⟩

/-- Two bridges are due and one service is exported: the second bridge gets it twice. -/
theorem second_bridge_gets_doubled :
    ¬ (periodNodes oneSvc true 5 (fun _ _ => true) [openNode, openNode]).2.Good oneSvc 200 65536 := by
  intro h
  have hex := h.1 (⟨[], []⟩, ⟨.full, oneSvc.entries ++ oneSvc.entries⟩) (by simp [periodNodes,
    periodLoop, Node.due, openNode, refreshNode, Conf.update, buildRefreshMsg])
  have htwo := hex ⟨"BALANCE".toList, by decide⟩
  revert htwo
  decide

end Endurox.Bridge
