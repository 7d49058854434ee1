import Mathlib.Data.List.Perm.Basic
import Mathlib.Data.List.Nodup
import Mathlib.Data.List.Pairwise
import Mathlib.Order.Lattice

/-! Search trees, given by their nodes from left to right. The comparison is a C function, which need
not be an order. -/

namespace Endurox.Base.Tree
open List

variable {α κ : Type*} [LinearOrder κ]

/-- A node is put in front of the first node that it compares less to. A node that compares equal to
another is not put in. -/
def insert (cmp : α → α → Int) (x : α) : List α → Option (List α)
  | [] => some [x]
  | y :: ys =>
    if cmp x y < 0 then some (x :: y :: ys)
    else if cmp x y = 0 then none
    else (insert cmp x ys).map (y :: ·)

def Sorted (key : α → κ) (l : List α) : Prop := l.Pairwise fun a b => key a < key b

def Follows (cmp : α → α → Int) (key : α → κ) (x y : α) : Prop :=
  (cmp x y < 0 ↔ key x < key y) ∧ (cmp x y = 0 ↔ key x = key y)

variable {cmp : α → α → Int} {key : α → κ} {x : α} {l : List α}

theorem insert_isSome (hne : ∀ y ∈ l, cmp x y ≠ 0) :
    ∃ l', insert cmp x l = some l' ∧ l'.Perm (x :: l) := by
  induction l with
  | nil => exact ⟨[x], rfl, .refl _⟩
  | cons y ys ih =>
    rw [insert]
    by_cases hlt : cmp x y < 0
    · exact ⟨_, if_pos hlt, .refl _⟩
    · rw [if_neg hlt, if_neg (hne y mem_cons_self)]
      obtain ⟨l', hl', hperm⟩ := ih fun z hz => hne z (mem_cons_of_mem _ hz)
      refine ⟨y :: l', by rw [hl']; rfl, ?_⟩
      exact (hperm.cons y).trans (.swap x y ys)

/-- An insert by a comparison that follows the keys keeps the tree sorted. -/
theorem sorted_insert {l' : List α} (hcmp : ∀ y ∈ l, Follows cmp key x y) (hs : Sorted key l)
    (h : insert cmp x l = some l') (hperm : l'.Perm (x :: l)) : Sorted key l' := by
  induction l generalizing l' with
  | nil =>
    cases h
    exact pairwise_singleton _ _
  | cons y ys ih =>
    obtain ⟨hfirst, hrest⟩ := pairwise_cons.mp hs
    obtain ⟨hlt, heq⟩ := hcmp y mem_cons_self
    rw [insert] at h
    split_ifs at h with hcase hzero
    · cases h
      have hxy : key x < key y := hlt.mp hcase
      refine pairwise_cons.mpr ⟨?_, hs⟩
      intro z hz
      rcases mem_cons.mp hz with rfl | hz
      · exact hxy
      · exact lt_trans hxy (hfirst z hz)
    · have hyx : key y < key x :=
        lt_of_le_of_ne (not_lt.mp fun hxy => hcase (hlt.mpr hxy)) fun hkey => hzero (heq.mpr hkey.symm)
      cases hins : insert cmp x ys with
      | none =>
        rw [hins] at h
        cases h
      | some r =>
        rw [hins] at h
        cases h
        have hr : r.Perm (x :: ys) := (hperm.trans (.swap y x ys)).cons_inv
        refine pairwise_cons.mpr ⟨?_, ih (fun z hz => hcmp z (mem_cons_of_mem _ hz)) hrest hins hr⟩
        intro z hz
        rcases mem_cons.mp (hr.mem_iff.mp hz) with rfl | hz
        · exact hyx
        · exact hfirst z hz

theorem Sorted.erase [DecidableEq α] (hs : Sorted key l) (x : α) : Sorted key (l.erase x) :=
  List.Pairwise.sublist erase_sublist hs

theorem Sorted.congr {key' : α → κ} (hs : Sorted key l) (hkey : ∀ a ∈ l, key' a = key a) :
    Sorted key' l := by
  refine hs.imp_of_mem ?_
  intro a b ha hb hlt
  rw [hkey a ha, hkey b hb]
  exact hlt

theorem Sorted.ext {l' : List α} (hs : Sorted key l) (hs' : Sorted key l')
    (hmem : ∀ a, a ∈ l ↔ a ∈ l') : l = l' := by
  have hne {r : List α} (hr : Sorted key r) : r.Nodup := hr.imp fun h => ne_of_apply_ne key (ne_of_lt h)
  have hperm : l.Perm l' := (perm_ext_iff_of_nodup (hne hs) (hne hs')).mpr hmem
  refine hperm.eq_of_pairwise ?_ hs hs'
  intro a b _ _ hab hba
  exact absurd hab (lt_asymm hba)

theorem Sorted.head_lt {a : α} (hs : Sorted key l) (hhead : l.head? = some a) :
    ∀ b ∈ l, b ≠ a → key a < key b := by
  intro b hb hne
  cases l with
  | nil => cases hb
  | cons =>
    cases hhead
    rcases mem_cons.mp hb with rfl | hb
    · exact absurd rfl hne
    · exact (pairwise_cons.mp hs).1 b hb

theorem Sorted.lt_getLast {a : α} (hs : Sorted key l) (hlast : l.getLast? = some a) :
    ∀ b ∈ l, b ≠ a → key b < key a := by
  intro b hb hne
  obtain ⟨_, rfl⟩ := getLast?_eq_some_iff.mp hlast
  rcases mem_append.mp hb with hb | hb
  · exact (pairwise_append.mp hs).2.2 b hb a mem_cons_self
  · rcases mem_singleton.mp hb with rfl
    exact absurd rfl hne

end Endurox.Base.Tree
