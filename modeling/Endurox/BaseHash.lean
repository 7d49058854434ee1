import Mathlib.Data.List.Nodup

/-! Hash tables that keep the order of insertion, with one entry for each key. -/

namespace Endurox.Base
open List

structure Hash (K V : Type) where
  entries : List (K × V)
  nodup : (entries.map Prod.fst).Nodup

namespace Hash

variable {K V : Type}

def empty : Hash K V := ⟨[], nodup_nil⟩

variable [DecidableEq K]

def find (h : Hash K V) (k : K) : Option V := (h.entries.find? (fun e => e.1 = k)).map Prod.snd

def setEntries (es : List (K × V)) (k : K) (v : V) : List (K × V) :=
  if k ∈ es.map Prod.fst then es.map (fun e => if e.1 = k then (k, v) else e) else es ++ [(k, v)]

theorem keys_setEntries (es : List (K × V)) (k : K) (v : V) : (setEntries es k v).map Prod.fst =
      if k ∈ es.map Prod.fst then es.map Prod.fst else es.map Prod.fst ++ [k] := by
  unfold setEntries
  split
  · rw [map_map]
    apply map_congr_left
    intro e _
    by_cases h : e.1 = k
    · simp [h]
    · simp [h]
  · simp

def set (h : Hash K V) (k : K) (v : V) : Hash K V where
  entries := setEntries h.entries k v
  nodup := by
    rw [keys_setEntries]
    split
    · exact h.nodup
    · rename_i hk
      rw [← concat_eq_append]
      exact h.nodup.concat hk

def erase (h : Hash K V) (k : K) : Hash K V where
  entries := h.entries.filter (fun e => e.1 ≠ k)
  nodup := h.nodup.sublist (filter_sublist.map Prod.fst)

@[simp] theorem find_empty (k : K) : (empty : Hash K V).find k = none := rfl

theorem find_eq_some {h : Hash K V} {k : K} {v : V} : h.find k = some v ↔ (k, v) ∈ h.entries := by
  obtain ⟨es, hnd⟩ := h
  simp only [find]
  induction es with
  | nil => simp
  | cons e es ih =>
    rw [map_cons, nodup_cons] at hnd
    by_cases he : e.1 = k
    · rw [find?_cons_of_pos (by simpa using he)]
      constructor
      · intro hv
        have hv : e.2 = v := by simpa using hv
        rw [← he, ← hv]
        exact mem_cons_self
      · intro hm
        rcases mem_cons.mp hm with rfl | hm
        · rfl
        · exact absurd (mem_map_of_mem hm) (he ▸ hnd.1)
    · rw [find?_cons_of_neg (by simpa using he), ih hnd.2]
      constructor
      · exact mem_cons_of_mem e
      · intro hm
        rcases mem_cons.mp hm with rfl | hm
        · exact absurd rfl he
        · exact hm

theorem find_eq_none {h : Hash K V} {k : K} : h.find k = none ↔ k ∉ h.entries.map Prod.fst := by
  rw [find, Option.map_eq_none_iff, find?_eq_none]
  simp only [mem_map, decide_eq_true_eq, not_exists, not_and]

theorem find_congr_of_mem {h h' : Hash K V} {k : K}
    (hiff : ∀ w, (k, w) ∈ h'.entries ↔ (k, w) ∈ h.entries) : h'.find k = h.find k := by
  cases hf : h.find k with
  | some => rw [find_eq_some, hiff, ← find_eq_some, hf]
  | none =>
    cases hs : h'.find k with
    | none => rfl
    | some =>
      rw [find_eq_some, hiff, ← find_eq_some, hf] at hs
      cases hs

/-- A set changes what is found under its key alone. -/
theorem find_set (h : Hash K V) (k k' : K) (v : V) :
    (h.set k v).find k' = if k' = k then some v else h.find k' := by
  have hin (hk : k ∈ h.entries.map Prod.fst) : (h.set k v).entries =
      h.entries.map (fun e => if e.1 = k then (k, v) else e) := if_pos hk
  have hout (hk : k ∉ h.entries.map Prod.fst) : (h.set k v).entries =
      h.entries ++ [(k, v)] := if_neg hk
  by_cases hkk : k' = k
  · rw [if_pos hkk, hkk, find_eq_some]
    by_cases hk : k ∈ h.entries.map Prod.fst
    · rw [hin hk]
      obtain ⟨e, he, hke⟩ := mem_map.mp hk
      exact mem_map.mpr ⟨e, he, if_pos hke⟩
    · rw [hout hk]
      simp
  · -- the entries of another key are those from before
    have hiff (w : V) : (k', w) ∈ (h.set k v).entries ↔ (k', w) ∈ h.entries := by
      by_cases hk : k ∈ h.entries.map Prod.fst
      · rw [hin hk, mem_map]
        constructor
        · rintro ⟨e, he, heq⟩
          by_cases hek : e.1 = k
          · rw [if_pos hek] at heq
            cases heq
            exact absurd rfl hkk
          · rw [if_neg hek] at heq
            exact heq ▸ he
        · intro hw
          exact ⟨_, hw, if_neg hkk⟩
      · rw [hout hk]
        simp [hkk]
    rw [if_neg hkk]
    exact find_congr_of_mem hiff

theorem find_erase (h : Hash K V) (k k' : K) :
    (h.erase k).find k' = if k' = k then none else h.find k' := by
  by_cases hkk : k' = k
  · rw [if_pos hkk, hkk, find_eq_none]
    simp [erase]
  · rw [if_neg hkk]
    have hiff (w : V) : (k', w) ∈ (h.erase k).entries ↔ (k', w) ∈ h.entries := by
      simp [erase, hkk]
    exact find_congr_of_mem hiff

end Hash

end Endurox.Base
