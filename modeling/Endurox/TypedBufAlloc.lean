import Endurox.TypedBufOnce

/-! Whole runs of allocations, reallocations and frees of typed buffers (`libatmi/typed_buf.c`,
`libubf/ubf_impl.c`): the registry `ndrx_G_buffers` next to the buffers that are allocated. -/

namespace Endurox.TypedBuf

open List

structure Heap where
  live : List Addr
  registered : List Addr
  deriving DecidableEq

/-- What the type's `pf_realloc` returns, and what has become of the old memory. -/
inductive Callback
  | moved (p : Addr)
  | freed  -- NULL, the buffer was given to `Bfree`
  | kept  -- NULL, the old memory is still there
  deriving DecidableEq

/-- `ndrx_Brealloc` takes no length below what is used or above `MAXUBFLEN`. -/
def refused (used len : Int) : Bool := len < used || 4294967295 < len

/-- The buffer's type, for UBF with the bytes it uses. STRING, CARRAY, JSON and VIEW do the same. -/
inductive Kind
  | ubf (used : Int)
  | plain
  | tpinit

/-- `mem` is what `NDRX_REALLOC` returns. TPINIT has no `pf_realloc`: the call is through a null
pointer. -/
def pfRealloc (kind : Kind) (len : Int) (mem : Option Addr) : Option Callback :=
  let reallocated := match mem with
    | some p => .moved p
    | none => .kept
  match kind with
  | .ubf used => some (if refused used (max 1024 len) then .freed else reallocated)
  | .plain => some reallocated
  | .tpinit => none

inductive Op
  | tpalloc (mem : Option Addr) (node : Bool)
  | tprealloc (buf : Option Addr) (kind : Kind) (len : Int) (mem : Option Addr)
  | tpfree (buf : Addr) (g : Registry) (fuel : ℕ)
  | invalByKey (group : Option Addr)

/-- One call. There is no next state when the allocator would hand out memory in use, when a
`tpfree` does not return and when a `tprealloc` crashes. -/
def Heap.step (h : Heap) : Op → Option Heap
  | .tpalloc none _ => some h
  | .tpalloc (some p) node =>
    if p ∈ h.live then none
    else some ⟨p :: h.live, if node then p :: h.registered else h.registered⟩
  | .tprealloc none _ _ _ => some h
  | .tprealloc (some b) kind len mem =>
    if b ∈ h.registered then
      -- the entry is taken out first
      let registered := h.registered.erase b
      match pfRealloc kind len mem with
      | none => none
      | some (.moved p) =>
        if p ∈ h.live.erase b then none else some ⟨p :: h.live.erase b, p :: registered⟩
      | some .freed => some ⟨h.live.erase b, registered⟩
      | some .kept => some ⟨h.live, registered⟩
    else some h
  | .tpfree buf g fuel =>
    if (start g).registered = h.registered then
      match tpfree g fuel buf (start g) with
      | .ok m => some ⟨h.live.filter (· ∉ m.freed), h.registered.filter (· ∈ m.registered)⟩
      | .error _ => none
    else none
  | .invalByKey none => some h
  -- `ndrx_cache_keygrp_inval_by_key` gives the group it has read to `NDRX_FREE`
  | .invalByKey (some p) => if p ∈ h.live then none else some ⟨h.live, p :: h.registered⟩

def Heap.run (h : Heap) (ops : List Op) : Option Heap := ops.foldlM Heap.step h

/-- One entry for each buffer that is allocated, and no other. -/
structure Heap.Exact (h : Heap) : Prop where
  perm : h.registered.Perm h.live
  nodup : h.live.Nodup

/-- The registry node can be allocated, a reallocation that is not refused gets its memory, and no
stored group is read to be dropped. -/
def Op.Clean (h : Heap) : Op → Prop
  | .tpalloc mem node => mem = none ∨ node
  | .tprealloc buf kind len mem => ∀ b ∈ buf, b ∈ h.registered → pfRealloc kind len mem ≠ some .kept
  | .tpfree .. => True
  | .invalByKey group => group = none

def CleanRun : Heap → List Op → Prop
  | _, [] => True
  | h, op :: ops => op.Clean h ∧ ∀ h', h.step op = some h' → CleanRun h' ops

variable {h h' : Heap} {op : Op}

theorem Heap.Exact.tpfree {g : Registry} {m : Mem} {buf : Addr} {fuel : ℕ} (he : h.Exact)
    (hg : (start g).registered = h.registered) (hm : tpfree g fuel buf (start g) = .ok m) :
    Heap.Exact ⟨h.live.filter (· ∉ m.freed), h.registered.filter (· ∈ m.registered)⟩ where
  perm := by
    have hs := (ran_of_ok (start_good g) hm).shrinks
    have hsame : h.registered.filter (· ∈ m.registered) = h.registered.filter (· ∉ m.freed) := by
      apply filter_congr
      intro a ha
      have hfreed := hs.freed a
      rw [hg] at hfreed
      simp only [start, not_mem_nil, false_or, ha, true_and] at hfreed
      simp [hfreed]
    rw [hsame]
    exact he.perm.filter _
  nodup := he.nodup.filter _

theorem Heap.not_exact {live registered : List Addr} (hne : registered.length ≠ live.length) :
    ¬ Heap.Exact ⟨live, registered⟩ := fun he => hne he.perm.length_eq

/-- A call keeps the registry exact exactly when it is clean. -/
theorem Heap.Exact.step_iff (he : h.Exact) (hs : h.step op = some h') : h'.Exact ↔ op.Clean h := by
  have hlen := he.perm.length_eq
  cases op with
  | tpalloc mem node =>
    cases mem with
    | none =>
      cases hs
      exact iff_of_true he (.inl rfl)
    | some p =>
      rw [Heap.step] at hs
      split at hs
      · cases hs
      next hp =>
      cases hs
      cases node with
      | true => exact iff_of_true ⟨he.perm.cons p, nodup_cons.mpr ⟨hp, he.nodup⟩⟩ (.inr rfl)
      | false =>
        refine iff_of_false (Heap.not_exact ?_) (by simp [Op.Clean])
        simp [hlen]
  | tprealloc buf kind len mem =>
    cases buf with
    | none =>
      cases hs
      exact iff_of_true he (by simp [Op.Clean])
    | some b =>
      rw [Heap.step] at hs
      split at hs
      · rename_i hb
        rcases hc : pfRealloc kind len mem with _ | p | _ | _
        · simp only [hc] at hs
          cases hs
        · simp only [hc] at hs
          split at hs
          · cases hs
          next hp =>
          cases hs
          exact iff_of_true ⟨(he.perm.erase b).cons p, nodup_cons.mpr ⟨hp, he.nodup.erase b⟩⟩
            (by simp [Op.Clean, hc])
        · simp only [hc] at hs
          cases hs
          exact iff_of_true ⟨he.perm.erase b, he.nodup.erase b⟩ (by simp [Op.Clean, hc])
        · simp only [hc] at hs
          cases hs
          refine iff_of_false (Heap.not_exact ?_) (by simp [Op.Clean, hb, hc])
          have hpos := length_pos_of_mem hb
          rw [length_erase_of_mem hb]
          omega
      · rename_i hb
        cases hs
        exact iff_of_true he (by simp [Op.Clean, hb])
  | tpfree =>
    rw [Heap.step] at hs
    split at hs
    · rename_i hg
      split at hs
      · rename_i m hm
        cases hs
        exact iff_of_true (he.tpfree hg hm) trivial
      · cases hs
    · cases hs
  | invalByKey group =>
    cases group with
    | none =>
      cases hs
      exact iff_of_true he rfl
    | some =>
      rw [Heap.step] at hs
      split at hs
      · cases hs
      · cases hs
        refine iff_of_false (Heap.not_exact ?_) (by simp [Op.Clean])
        simp [hlen]

theorem Heap.Exact.run {ops : List Op} (he : h.Exact) (hc : CleanRun h ops)
    (hrun : h.run ops = some h') : h'.Exact := by
  induction ops generalizing h with
  | nil =>
    cases hrun
    exact he
  | cons op ops ih =>
    obtain ⟨h₁, hs, hrun⟩ := Option.bind_eq_some_iff.mp hrun
    exact ih ((he.step_iff hs).mpr hc.1) (hc.2 h₁ hs) hrun

/-- In every run of clean calls the registry is exact after each call. -/
theorem registry_exact {ops : List Op} (hc : CleanRun ⟨[], []⟩ ops)
    (hrun : Heap.run ⟨[], []⟩ ops = some h) : h.Exact :=
  Heap.Exact.run ⟨.nil, nodup_nil⟩ hc hrun

def allocAndMove : List Op := [.tpalloc (some 1) true, .tprealloc (some 1) (.ubf 60) 2000 (some 2)]

theorem registry_exact_moved :
    Heap.run ⟨[], []⟩ allocAndMove = some ⟨[2], [2]⟩ ∧ Heap.Exact ⟨[2], [2]⟩ := by
  have hrun : Heap.run ⟨[], []⟩ allocAndMove = some ⟨[2], [2]⟩ := by decide
  have hclean : CleanRun ⟨[], []⟩ allocAndMove := by
    refine ⟨.inr rfl, fun h hs => ⟨?_, fun _ _ => trivial⟩⟩
    simp [Op.Clean, pfRealloc, refused]
  exact ⟨hrun, registry_exact hclean hrun⟩

/-- A reallocation that gets no memory loses the buffer, and the entry of a dropped group stays. -/
theorem registry_not_exact :
    Heap.run ⟨[], []⟩ [.tpalloc (some 1) true, .tprealloc (some 1) (.ubf 60) 2000 none] =
      some ⟨[1], []⟩ ∧
    Heap.run ⟨[], []⟩ [.invalByKey (some 1)] = some ⟨[], [1]⟩ := by
  decide

end Endurox.TypedBuf
