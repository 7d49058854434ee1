import Mathlib.Data.List.Sort

/-!
Ordered multimaps as lists sorted by a key. A key's entries form one run, so that every
update of one key replaces that run and keeps what lies below and above it.
-/

namespace Endurox.Base
open List

variable {α κ : Type*} [LinearOrder κ] (key : α → κ)

def occs (k : κ) (l : List α) : List α := l.filter (fun a => key a = k)

def below (k : κ) (l : List α) : List α := l.filter (fun a => key a < k)

def above (k : κ) (l : List α) : List α := l.filter (fun a => k < key a)

def setOccs (k : κ) (es l : List α) : List α := below key k l ++ es ++ above key k l

def Ordered (l : List α) : Prop := l.Pairwise (fun a b => key a ≤ key b)

variable {key} {k k' : κ} {l l' es pre suf : List α} {a : α}

@[simp] theorem mem_occs : a ∈ occs key k l ↔ a ∈ l ∧ key a = k := by simp [occs]

@[simp] theorem mem_below : a ∈ below key k l ↔ a ∈ l ∧ key a < k := by simp [below]

@[simp] theorem mem_above : a ∈ above key k l ↔ a ∈ l ∧ k < key a := by simp [above]

@[simp] theorem occs_nil : occs key k [] = [] := rfl

@[simp] theorem occs_append : occs key k (l ++ l') = occs key k l ++ occs key k l' := by
  simp [occs]

@[simp] theorem below_append : below key k (l ++ l') = below key k l ++ below key k l' := by
  simp [below]

theorem occs_cons : occs key k (a :: l) = if key a = k then a :: occs key k l else occs key k l := by
  by_cases h : key a = k <;> simp [occs, h]

theorem occs_eq_nil (h : ∀ a ∈ l, key a ≠ k) : occs key k l = [] := by
  simpa [occs] using h

theorem occs_eq_self (h : ∀ a ∈ l, key a = k) : occs key k l = l := by
  simpa [occs] using h

theorem below_eq_nil (h : ∀ a ∈ l, k ≤ key a) : below key k l = [] := by
  simpa [below] using h

theorem below_eq_self (h : ∀ a ∈ l, key a < k) : below key k l = l := by
  simpa [below] using h

theorem above_eq_nil (h : ∀ a ∈ l, key a ≤ k) : above key k l = [] := by
  simpa [above] using h

theorem above_eq_self (h : ∀ a ∈ l, k < key a) : above key k l = l := by
  simpa [above] using h

theorem Ordered.append (hl : Ordered key l) (hl' : Ordered key l')
    (h : ∀ a ∈ l, ∀ b ∈ l', key a ≤ key b) : Ordered key (l ++ l') :=
  pairwise_append.mpr ⟨hl, hl', h⟩

theorem Ordered.left (h : Ordered key (l ++ l')) : Ordered key l :=
  (pairwise_append.mp h).1

theorem Ordered.right (h : Ordered key (l ++ l')) : Ordered key l' :=
  (pairwise_append.mp h).2.1

theorem Ordered.cross (h : Ordered key (l ++ l')) : ∀ a ∈ l, ∀ b ∈ l', key a ≤ key b :=
  (pairwise_append.mp h).2.2

theorem Ordered.filter (h : Ordered key l) (p : α → Bool) : Ordered key (l.filter p) :=
  List.Pairwise.filter p h

theorem ordered_of_const (h : ∀ a ∈ l, key a = k) : Ordered key l := by
  rw [Ordered, pairwise_iff_forall_sublist]
  intro a b hab
  have ha := h a (hab.subset (by simp))
  have hb := h b (hab.subset (by simp))
  rw [ha, hb]

/-- In key order the occurrences of a key stand together. -/
theorem Ordered.split (h : Ordered key l) (k : κ) :
    below key k l ++ occs key k l ++ above key k l = l := by
  induction l with
  | nil => rfl
  | cons a l ih =>
    obtain ⟨ha, hl⟩ := pairwise_cons.mp h
    have ih := ih hl
    rcases lt_trichotomy (key a) k with hk | hk | hk
    · simpa [below, occs, above, hk, hk.ne, hk.not_gt] using ih
    · have hb : below key k l = [] := below_eq_nil (fun b hb => hk ▸ ha b hb)
      have hb' : below key k (a :: l) = [] :=
        below_eq_nil (fun b hb => hk ▸ (mem_cons.mp hb).elim (fun e => e ▸ le_rfl) (ha b))
      have ha' : above key k (a :: l) = above key k l := by simp [above, hk]
      rw [hb, nil_append] at ih
      rw [hb', ha', occs_cons, if_pos hk, nil_append, cons_append, ih]
    · have hgt : ∀ b ∈ a :: l, k < key b := by
        intro b hb
        rcases mem_cons.mp hb with rfl | hb
        · exact hk
        · exact hk.trans_le (ha b hb)
      rw [below_eq_nil (fun b hb => (hgt b hb).le), occs_eq_nil (fun b hb => (hgt b hb).ne'),
        above_eq_self hgt]
      rfl

theorem Ordered.key_getElem (h : Ordered key l) (k : κ) {i : ℕ} (hi : i < l.length) :
    (i < (below key k l).length ∧ key l[i] < k) ∨
    ((below key k l).length ≤ i ∧ i < (below key k l).length+(occs key k l).length ∧ key l[i] = k) ∨
    ((below key k l).length+(occs key k l).length ≤ i ∧ k < key l[i]) := by
  have hlt : ∀ a ∈ below key k l, key a < k := fun a ha => (mem_below.mp ha).2
  have heq : ∀ a ∈ occs key k l, key a = k := fun a ha => (mem_occs.mp ha).2
  have hgt : ∀ a ∈ above key k l, k < key a := fun a ha => (mem_above.mp ha).2
  have hl := h.split k
  generalize below key k l = lt at hlt hl ⊢
  generalize occs key k l = eq at heq hl ⊢
  generalize above key k l = gt at hgt hl
  subst hl
  by_cases h1 : i < lt.length
  · left
    refine ⟨h1, hlt _ ?_⟩
    rw [getElem_append_left (by simp; omega), getElem_append_left h1]
    exact getElem_mem h1
  right
  by_cases h2 : i < lt.length+eq.length
  · left
    refine ⟨by omega, h2, heq _ ?_⟩
    rw [getElem_append_left (by simp; omega), getElem_append_right (by omega)]
    exact getElem_mem _
  · right
    refine ⟨by omega, hgt _ ?_⟩
    rw [getElem_append_right (by simp; omega)]
    exact getElem_mem _

theorem Ordered.below_occs (h : Ordered key (pre ++ suf)) (hpre : ∀ a ∈ pre, key a ≤ k)
    (hsuf : ∀ a ∈ suf, k < key a) :
    below key k (pre ++ suf) ++ occs key k (pre ++ suf) = pre := by
  have hs := h.left.split k
  rw [above_eq_nil hpre, append_nil] at hs
  rw [below_append, occs_append, below_eq_nil (fun a ha => (hsuf a ha).le),
    occs_eq_nil (fun a ha => (hsuf a ha).ne'), append_nil, append_nil, hs]

theorem Ordered.setOccs (h : Ordered key l) (hes : ∀ a ∈ es, key a = k) :
    Ordered key (setOccs key k es l) := by
  refine ((h.filter _).append (ordered_of_const hes) ?_).append (h.filter _) ?_
  · intro a ha b hb
    rw [hes b hb]
    exact (mem_below.mp ha).2.le
  · intro a ha b hb
    have hb := (mem_above.mp hb).2
    rcases mem_append.mp ha with ha | ha
    · exact (mem_below.mp ha).2.le.trans hb.le
    · exact (hes a ha).le.trans hb.le

theorem occs_setOccs_self (hes : ∀ a ∈ es, key a = k) : occs key k (setOccs key k es l) = es := by
  rw [setOccs, occs_append, occs_append, occs_eq_self hes,
    occs_eq_nil (fun a ha => (mem_below.mp ha).2.ne),
    occs_eq_nil (fun a ha => (mem_above.mp ha).2.ne')]
  simp

theorem occs_setOccs_of_ne (h : Ordered key l) (hes : ∀ a ∈ es, key a = k) (hk : k' ≠ k) :
    occs key k' (setOccs key k es l) = occs key k' l := by
  conv => rhs; rw [← h.split k]
  simp only [setOccs, occs_append]
  rw [occs_eq_nil (l := es) (fun a ha => (hes a ha).trans_ne hk.symm),
    occs_eq_nil (l := occs key k l) (fun a ha => (mem_occs.mp ha).2.trans_ne hk.symm)]

/-- Two ordered lists with the same occurrences of every key are one list. -/
theorem Ordered.ext (h : Ordered key l) (h' : Ordered key l')
    (ho : ∀ k, occs key k l = occs key k l') : l = l' := by
  induction l generalizing l' with
  | nil =>
    cases l' with
    | nil => rfl
    | cons b => simpa [occs_cons] using ho (key b)
  | cons a l ih =>
    cases l' with
    | nil => simpa [occs_cons] using ho (key a)
    | cons b l' =>
      obtain ⟨ha, hl⟩ := pairwise_cons.mp h
      obtain ⟨hb, hl'⟩ := pairwise_cons.mp h'
      -- each head occurs in the other list, so neither key is smaller
      have hba : key b ≤ key a := by
        have hm : a ∈ occs key (key a) (b :: l') := by rw [← ho]; simp
        rcases mem_cons.mp (mem_occs.mp hm).1 with rfl | hm
        · exact le_rfl
        · exact hb a hm
      have hab : key a ≤ key b := by
        have hm : b ∈ occs key (key b) (a :: l) := by rw [ho]; simp
        rcases mem_cons.mp (mem_occs.mp hm).1 with rfl | hm
        · exact le_rfl
        · exact ha b hm
      have hk : key b = key a := le_antisymm hba hab
      have hh := ho (key a)
      rw [occs_cons, occs_cons, if_pos rfl, if_pos hk] at hh
      obtain ⟨rfl, -⟩ := List.cons.inj hh
      congr 1
      apply ih hl hl'
      intro k
      have := ho k
      rw [occs_cons, occs_cons] at this
      split at this
      · exact (List.cons.inj this).2
      · exact this

end Endurox.Base
