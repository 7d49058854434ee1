import Mathlib.Data.List.Induction

/-! A table that may hold several entries of one key, filled with those that are new or rank
higher than the entry found. -/

namespace Endurox.Base
open List

variable {α κ : Type} [DecidableEq κ]

def entriesOf (key : α → κ) (k : κ) (l : List α) : List α := l.filter (fun a => key a = k)

/-- A search that gives some entry of the key if there is one; which one, is left open. -/
structure Finder (key : α → κ) where
  find : List α → κ → Option α
  of_some : ∀ l k a, find l k = some a → a ∈ entriesOf key k l
  of_none : ∀ l k, find l k = none → entriesOf key k l = []

variable {key : α → κ} (F : Finder key) (rank : α → ℕ)

def put (table : List α) (a : α) : List α :=
  match F.find table (key a) with
  | none => table ++ [a]
  | some b => if rank b < rank a then table ++ [a] else table

variable {F rank} {k : κ} {a b : α} {l table : List α}

theorem entriesOf_append (l l' : List α) :
    entriesOf key k (l ++ l') = entriesOf key k l ++ entriesOf key k l' :=
  filter_append l l'

theorem entriesOf_singleton_self (a : α) : entriesOf key (key a) [a] = [a] := by
  simp [entriesOf]

theorem entriesOf_singleton_ne (h : key a ≠ k) : entriesOf key k [a] = [] := by
  simp [entriesOf, h]

theorem mem_entriesOf : a ∈ entriesOf key k l ↔ a ∈ l ∧ key a = k := by
  simp [entriesOf]

theorem entriesOf_put_ne (h : key a ≠ k) :
    entriesOf key k (put F rank table a) = entriesOf key k table := by
  have hadd : entriesOf key k (table ++ [a]) = entriesOf key k table := by
    rw [entriesOf_append, entriesOf_singleton_ne h, append_nil]
  rw [put]
  split
  · exact hadd
  · split
    · exact hadd
    · rfl

def FirstHighest (key : α → κ) (rank : α → ℕ) (k : κ) (l : List α) : Prop :=
  ∀ b, (entriesOf key k l).head? = some b → ∀ a ∈ entriesOf key k l, rank a ≤ rank b

structure KeyState (key : α → κ) (rank : α → ℕ) (k : κ) (l table : List α) : Prop where
  head : (entriesOf key k table).head? = (entriesOf key k l).head?
  single : (entriesOf key k table).length ≤ 1 ↔ FirstHighest key rank k l

theorem keyState_put_ne (h : KeyState key rank k l table) (hk : key a ≠ k) :
    KeyState key rank k (l ++ [a]) (put F rank table a) := by
  have hl : entriesOf key k (l ++ [a]) = entriesOf key k l := by
    rw [entriesOf_append, entriesOf_singleton_ne hk, append_nil]
  constructor
  · rw [entriesOf_put_ne hk, hl]
    exact h.head
  · rw [entriesOf_put_ne hk, FirstHighest, hl]
    exact h.single

theorem firstHighest_concat (hb : (entriesOf key (key a) l).head? = some b) :
    FirstHighest key rank (key a) (l ++ [a]) ↔
      FirstHighest key rank (key a) l ∧ rank a ≤ rank b := by
  have hhead : (entriesOf key (key a) (l ++ [a])).head? = some b := by
    rw [entriesOf_append, head?_append, hb]
    rfl
  simp only [FirstHighest, hhead, hb, Option.some.injEq, forall_eq']
  simp only [entriesOf_append, entriesOf_singleton_self, mem_append, mem_singleton,
    or_imp, forall_and, forall_eq]

theorem keyState_put_self (h : KeyState key rank (key a) l table) :
    KeyState key rank (key a) (l ++ [a]) (put F rank table a) := by
  have hcons : entriesOf key (key a) (table ++ [a]) = entriesOf key (key a) table ++ [a] := by
    rw [entriesOf_append, entriesOf_singleton_self]
  cases hf : F.find table (key a) with
  | none =>
    -- the key is new
    have ht := F.of_none table (key a) hf
    have hl : entriesOf key (key a) l = [] := by
      rw [← head?_eq_none_iff, ← h.head, ht]
      rfl
    have hl' : entriesOf key (key a) (l ++ [a]) = [a] := by
      rw [entriesOf_append, hl, entriesOf_singleton_self, nil_append]
    rw [put, hf]
    constructor
    · rw [hcons, ht, hl']
      rfl
    · simp [hcons, ht, FirstHighest, hl']
  | some b =>
    have hb := F.of_some table (key a) b hf
    obtain ⟨c, hc⟩ : ∃ c, (entriesOf key (key a) table).head? = some c :=
      ⟨_, head?_eq_some_head (ne_nil_of_mem hb)⟩
    have hcl : (entriesOf key (key a) l).head? = some c := h.head ▸ hc
    have hhead : (entriesOf key (key a) (l ++ [a])).head? = some c := by
      rw [entriesOf_append, head?_append, hcl]
      rfl
    -- a single entry is the one found
    have hone (hs : (entriesOf key (key a) table).length ≤ 1) : b = c := by
      cases ht : entriesOf key (key a) table with
      | nil =>
        rw [ht] at hb
        exact absurd hb not_mem_nil
      | cons x xs =>
        rw [ht] at hs hb hc
        have hxs : xs = [] := length_eq_zero_iff.mp (by simpa using hs)
        rw [hxs, mem_singleton] at hb
        rw [hb]
        exact Option.some.inj hc
    rw [put, hf]
    by_cases hr : rank b < rank a
    · simp only [if_pos hr]
      constructor
      · rw [hcons, head?_append, hc, hhead]
        rfl
      rw [hcons, firstHighest_concat hcl, ← h.single]
      have hpos : 0 < (entriesOf key (key a) table).length := length_pos_of_mem hb
      simp only [length_append, length_singleton]
      constructor
      · intro hle
        omega
      · rintro ⟨hs, _⟩
        have := hone hs
        subst this
        omega
    · simp only [if_neg hr]
      constructor
      · rw [hc, hhead]
      · rw [firstHighest_concat hcl, ← h.single]
        refine ⟨fun hs => ⟨hs, ?_⟩, And.left⟩
        have := hone hs
        subst this
        omega

/-- A table filled from nothing holds, of each key, the first entry first, and only that one iff
no other ranks higher. -/
theorem keyState_foldl_put (k : κ) (l : List α) :
    KeyState key rank k l (l.foldl (put F rank) []) := by
  induction l using List.reverseRecOn with
  | nil => exact ⟨rfl, by simp [FirstHighest, entriesOf]⟩
  | append_singleton l a ih =>
    rw [foldl_append]
    by_cases hk : key a = k
    · subst hk
      exact keyState_put_self ih
    · exact keyState_put_ne ih hk

end Endurox.Base
