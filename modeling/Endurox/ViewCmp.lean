import Endurox.BaseCmp
import Endurox.View

/-! Comparing two instances of a view (`libubf/view_cmp.c`). -/

namespace Endurox.View

open Base List

/-- An occurrence with its bytes filling the element, its length inside it and, for a string, a
terminating zero. -/
structure Occ (f : Field) where
  elem : Elem
  bytes_length : elem.bytes.length = f.dimSize
  len_le : elem.len ≤ f.dimSize
  terminated : f.typ = .string → (0:UInt8) ∈ elem.bytes

structure Vals (f : Field) where
  cnt : ℕ
  occs : List (Occ f)
  length_eq : occs.length = f.count
  cnt_le : cnt ≤ f.count

inductive Inst : List Field → Type
  | nil : Inst []
  | cons {f : Field} {fs : List Field} (x : Vals f) (xs : Inst fs) : Inst (f :: fs)

def Vals.count {f : Field} (x : Vals f) : ℕ := if f.elemcntInd then x.cnt else f.count

def memcmp (a b : List UInt8) (n : ℕ) : Ordering := strcmp (a.take n) (b.take n)

def cmpElem (f : Field) (x y : Elem) : Ordering :=
  match f.typ with
  | .short | .int | .long | .char => compare x.num y.num
  | .string => strcmp (cstr x.bytes) (cstr y.bytes)
  | .carray =>
    if f.lenInd then (compare x.len y.len).then (memcmp x.bytes y.bytes x.len)
    else memcmp x.bytes y.bytes f.dimSize

def cmpOccs (f : Field) (cnt1 cnt2 : ℕ) : ℕ → List (Occ f) → List (Occ f) → Ordering
  | occ, x :: xs, y :: ys =>
    (if bvnullInt f cnt1 occ x.elem && bvnullInt f cnt2 occ y.elem then .eq
      else cmpElem f x.elem y.elem).then (cmpOccs f cnt1 cnt2 (occ+1) xs ys)
  | _, _, _ => .eq

def cmpField {f : Field} (x y : Vals f) : Ordering :=
  (compare x.count y.count).then
    (cmpOccs f x.cnt y.cnt 0 (x.occs.take x.count) (y.occs.take x.count))

def cmpFields : {v : List Field} → Inst v → Inst v → Ordering
  | _, .nil, .nil => .eq
  | _, .cons x xs, .cons y ys => (cmpField x y).then (cmpFields xs ys)

def bvcmp {v : List Field} (a b : Inst v) : Int :=
  match cmpFields a b with
  | .lt => -1
  | .eq => 0
  | .gt => 1

def occNull (f : Field) (x : Occ f) : Bool := !f.nullvalNone && valueNull f x.elem

theorem bvnullInt_eq {f : Field} {cnt occ : ℕ} (x : Occ f)
    (h : f.elemcntInd = true → occ < cnt) : bvnullInt f cnt occ x.elem = occNull f x := by
  unfold bvnullInt occNull
  cases hn : f.nullvalNone with
  | true => rfl
  | false =>
    have hc : (f.elemcntInd && decide ((cnt:Int) ≤ (occ:Int))) = false := by
      cases hi : f.elemcntInd with
      | false => rfl
      | true =>
        have := h hi
        simp
        omega
    rw [hc]
    rfl

theorem transCmp_on {α β : Type} (g : α → β) (cmp : β → β → Ordering) [Std.TransCmp cmp] :
    Std.TransCmp (fun a b => cmp (g a) (g b)) where
  eq_swap := Std.OrientedCmp.eq_swap
  isLE_trans := Std.TransCmp.isLE_trans

theorem carray_lex (x y : Elem) : (compare x.len y.len).then (memcmp x.bytes y.bytes x.len) =
      compareLex (compareOn Elem.len)
        (fun x y => strcmp (x.bytes.take x.len) (y.bytes.take y.len)) x y := by
  simp only [compareLex, compareOn, memcmp]
  cases h : compare x.len y.len with
  | lt => rfl
  | gt => rfl
  | eq => rw [Nat.compare_eq_eq.mp h]

section

variable {f : Field}

theorem cmpElem_num (ht : f.typ ≠ .string) (ht' : f.typ ≠ .carray) :
    cmpElem f = fun x y => compare x.num y.num := by
  funext x y
  unfold cmpElem
  split
  · rfl
  · rfl
  · rfl
  · rfl
  · contradiction
  · contradiction

theorem cmpElem_string (ht : f.typ = .string) :
    cmpElem f = fun x y => strcmp (cstr x.bytes) (cstr y.bytes) := by
  funext x y
  rw [cmpElem, ht]

theorem cmpElem_carray (ht : f.typ = .carray) (hl : f.lenInd = false) :
    cmpElem f = fun x y => strcmp (x.bytes.take f.dimSize) (y.bytes.take f.dimSize) := by
  funext x y
  simp [cmpElem, ht, hl, memcmp]

theorem cmpElem_carray_len (ht : f.typ = .carray) (hl : f.lenInd = true) :
    cmpElem f = compareLex (compareOn Elem.len)
      (fun x y => strcmp (x.bytes.take x.len) (y.bytes.take y.len)) := by
  funext x y
  rw [← carray_lex, cmpElem, ht]
  simp [hl]

theorem cmpElem_transCmp (f : Field) : Std.TransCmp (cmpElem f) := by
  by_cases hs : f.typ = .string
  · rw [cmpElem_string hs]
    exact transCmp_on (fun x : Elem => cstr x.bytes) strcmp
  by_cases hc : f.typ = .carray
  · cases hl : f.lenInd with
    | false =>
      rw [cmpElem_carray hc hl]
      exact transCmp_on (fun x : Elem => x.bytes.take f.dimSize) strcmp
    | true =>
      have : Std.TransCmp (fun x y : Elem => strcmp (x.bytes.take x.len) (y.bytes.take y.len)) :=
        transCmp_on (fun x : Elem => x.bytes.take x.len) strcmp
      rw [cmpElem_carray_len hc hl]
      infer_instance
  · rw [cmpElem_num hs hc]
    exact transCmp_on Elem.num compare

end

def cmpOcc (f : Field) (x y : Occ f) : Ordering := cmpElem f x.elem y.elem

instance (f : Field) : Std.TransCmp (cmpOcc f) :=
  have := cmpElem_transCmp f
  transCmp_on Occ.elem (cmpElem f)

def NullOrdered (f : Field) : Prop :=
  f.typ = .carray → f.lenInd = true →
    f.nullvalNone = true ∨ f.nullvalBin = [] ∨ f.dimSize < f.nullvalBin.length

theorem cstr_eq_of_take {a b : List UInt8} {n : ℕ} (ha : a.length = n+1) (hb : b.length = n+1)
    (hza : (0:UInt8) ∈ a) (hzb : (0:UInt8) ∈ b) (h : a.take n = b.take n) : cstr a = cstr b := by
  have hsplit (l : List UInt8) (hl : l.length = n+1) (hz : (0:UInt8) ∈ l) :
      cstr l = cstr (l.take n ++ [0]) := by
    obtain ⟨x, hx⟩ : ∃ x, l.drop n = [x] := by
      apply length_eq_one_iff.mp
      rw [length_drop]
      omega
    have hl' : l = l.take n ++ [x] := by rw [← hx, take_append_drop]
    by_cases hzt : (0:UInt8) ∈ l.take n
    · have hstop (r : List UInt8) : cstr (l.take n ++ r) = cstr (l.take n) := by
        unfold cstr
        rw [takeWhile_append, if_neg]
        intro hlen
        have hsub := takeWhile_sublist (l := l.take n) (· ≠ (0:UInt8))
        have heq := hsub.eq_of_length hlen
        have hne := all_takeWhile (p := (· ≠ (0:UInt8))) (l := l.take n)
        rw [heq, all_eq_true] at hne
        simpa using hne 0 hzt
      rw [hstop, ← hstop [x], ← hl']
    · have hx0 : x = 0 := by
        rw [hl', mem_append, mem_singleton] at hz
        exact (hz.resolve_left hzt).symm
      rw [← hx0, ← hl']
  rw [hsplit a ha hza, hsplit b hb hzb, h]

section

variable {f : Field}

theorem null_convex_num (ht : f.typ ≠ .string) (ht' : f.typ ≠ .carray) :
    Convex (occNull f) (cmpOcc f) := by
  have hnull (x : Occ f) (hx : occNull f x) : x.elem.num = f.nullvalNum := by
    unfold occNull valueNull at hx
    revert hx
    split
    all_goals simp_all
  apply convex_of_single
  intro x y hx hy
  rw [cmpOcc, cmpElem_num ht ht']
  simp only [hnull x hx, hnull y hy]
  exact Std.ReflCmp.compare_self

/-- Only nulls lie between two null strings. -/
theorem null_convex_string (ht : f.typ = .string) : Convex (occNull f) (cmpOcc f) := by
  by_cases hp : f.nullfiller = true
  · by_cases hnil : f.nullvalBin = []
    · intro a b c ha _ _ _
      left
      simp only [occNull, valueNull, ht, hp, hnil, Bool.and_eq_true] at ha ⊢
      exact ⟨ha.1, by simp [fillerTest_nil]⟩
    apply convex_of_single
    intro x y hx hy
    simp only [occNull, valueNull, ht, hp, Bool.and_eq_true] at hx hy
    by_cases hshort : f.dimSize-1 < f.nullvalBin.length
    · rw [if_pos hshort] at hx
      cases hx.2
    rw [if_neg hshort] at hx hy
    have hdim := f.dim_pos
    have hlx := x.bytes_length
    have hly := y.bytes_length
    have htake := fillerTest_unique hnil (by omega) (by omega) hx.2 hy.2
    rw [cmpOcc, cmpElem_string ht]
    simp only
    rw [cstr_eq_of_take (by omega) (by omega) (x.terminated ht) (y.terminated ht) htake]
    exact strcmp_self _
  · apply convex_of_single
    intro x y hx hy
    simp only [occNull, valueNull, ht, hp, if_false, Bool.and_eq_true, beq_iff_eq,
      Bool.false_eq_true] at hx hy
    rw [cmpOcc, cmpElem_string ht]
    simp only
    rw [hx.2, hy.2]
    exact strcmp_self _

theorem null_convex_carray (ht : f.typ = .carray) (hl : f.lenInd = false) :
    Convex (occNull f) (cmpOcc f) := by
  intro a b c ha hc hab hbc
  rw [cmpOcc, cmpElem_carray ht hl] at hab hbc ⊢
  simp only [occNull, valueNull_carray ht, Bool.and_eq_true] at ha hc ⊢
  have hfull (x : Occ f) : x.elem.bytes.take f.dimSize = x.elem.bytes := by
    rw [← x.bytes_length, take_length]
  simp only [hfull] at hab hbc ⊢
  by_cases hnil : f.nullvalBin = []
  · left
    rw [hnil]
    exact ⟨ha.1, rfl⟩
  have hlong : f.nullvalBin.length ≤ f.dimSize := by
    by_contra h
    rw [fillerTest_short (by omega)] at ha
    cases ha.2
  cases hp : f.nullfiller with
  | true =>
    rw [hp] at ha hc
    right
    have htake := fillerTest_unique hnil (by rw [a.bytes_length]) (by rw [c.bytes_length]) ha.2 hc.2
    rw [hfull, hfull] at htake
    rw [htake]
    exact strcmp_self _
  | false =>
    rw [hp] at ha hc
    left
    have htest (x : Occ f) :
        fillerTest false f.nullvalBin x.elem.bytes f.dimSize ↔ f.nullvalBin <+: x.elem.bytes := by
      rw [← x.bytes_length]
      apply fillerTest_prefix
      rw [x.bytes_length]
      exact hlong
    refine ⟨ha.1, (htest b).mpr ?_⟩
    exact prefix_of_between ((htest a).mp ha.2) ((htest c).mp hc.2)
      (by rw [b.bytes_length]; exact hlong) hab hbc

theorem null_convex (h : NullOrdered f) : Convex (occNull f) (cmpOcc f) := by
  by_cases hs : f.typ = .string
  · exact null_convex_string hs
  by_cases hc : f.typ = .carray
  · cases hl : f.lenInd with
    | false => exact null_convex_carray hc hl
    | true =>
      intro a b c ha _ _ _
      simp only [occNull, valueNull_carray hc, Bool.and_eq_true] at ha ⊢
      rcases h hc hl with hnone | hnil | hlong
      · rw [hnone] at ha
        cases ha.1
      · rw [hnil]
        exact .inl ⟨ha.1, rfl⟩
      · rw [fillerTest_short hlong] at ha
        cases ha.2
  · exact null_convex_num hs hc

end

section

variable {f : Field}

theorem cmpOccs_eq {cnt1 cnt2 occ : ℕ} {xs ys : List (Occ f)} (hlen : xs.length = ys.length)
    (h1 : f.elemcntInd = true → occ+xs.length ≤ cnt1)
    (h2 : f.elemcntInd = true → occ+xs.length ≤ cnt2) :
    cmpOccs f cnt1 cnt2 occ xs ys = List.compareLex (collapse (occNull f) (cmpOcc f)) xs ys := by
  induction xs generalizing occ ys with
  | nil =>
    cases ys with
    | nil => rfl
    | cons => cases hlen
  | cons x xs ih =>
    cases ys with
    | nil => cases hlen
    | cons y =>
      simp only [List.length_cons] at hlen h1 h2
      rw [cmpOccs, List.compareLex_cons_cons, bvnullInt_eq x (fun h => by have := h1 h; omega),
        bvnullInt_eq y (fun h => by have := h2 h; omega),
        ih (by omega) (fun h => by have := h1 h; omega) (fun h => by have := h2 h; omega)]
      rfl

theorem count_le (x : Vals f) : x.count ≤ f.count := by
  unfold Vals.count
  split
  · exact x.cnt_le
  · exact le_rfl

theorem cmpField_eq (x y : Vals f) : cmpField x y = compareLex (compareOn Vals.count) (fun x y =>
      List.compareLex (collapse (occNull f) (cmpOcc f)) (x.occs.take x.count)
        (y.occs.take y.count)) x y := by
  simp only [cmpField, compareLex, compareOn]
  cases hcmp : compare x.count y.count with
  | lt => rfl
  | gt => rfl
  | eq =>
    have hcount : x.count = y.count := Nat.compare_eq_eq.mp hcmp
    have hx : (x.occs.take x.count).length = x.count := by
      rw [length_take, x.length_eq]
      exact min_eq_left (count_le x)
    have hy : (y.occs.take x.count).length = x.count := by
      rw [length_take, y.length_eq, hcount]
      exact min_eq_left (count_le y)
    have hind (z : Vals f) (hi : f.elemcntInd = true) : z.count = z.cnt := if_pos hi
    have hloop : cmpOccs f x.cnt y.cnt 0 (x.occs.take x.count) (y.occs.take x.count) =
        List.compareLex (collapse (occNull f) (cmpOcc f)) (x.occs.take x.count)
          (y.occs.take x.count) := by
      apply cmpOccs_eq (hx.trans hy.symm)
      · intro hi
        rw [hx, hind x hi]
        omega
      · intro hi
        rw [hx, hcount, hind y hi]
        omega
    rw [hloop, hcount]

theorem cmpField_transCmp (h : NullOrdered f) :
    Std.TransCmp (cmpField : Vals f → Vals f → Ordering) := by
  have := collapse_transCmp (null_convex h)
  have : Std.TransCmp (fun x y : Vals f =>
      List.compareLex (collapse (occNull f) (cmpOcc f)) (x.occs.take x.count)
        (y.occs.take y.count)) :=
    transCmp_on (fun x : Vals f => x.occs.take x.count) _
  have heq : (cmpField : Vals f → Vals f → Ordering) = compareLex (compareOn Vals.count) (fun x y =>
        List.compareLex (collapse (occNull f) (cmpOcc f)) (x.occs.take x.count)
          (y.occs.take y.count)) := by
    funext x y
    exact cmpField_eq x y
  rw [heq]
  infer_instance

end

def Inst.head {f : Field} {fs : List Field} : Inst (f :: fs) → Vals f
  | .cons x _ => x

def Inst.tail {f : Field} {fs : List Field} : Inst (f :: fs) → Inst fs
  | .cons _ xs => xs

variable {v : List Field}

theorem cmpFields_transCmp (h : ∀ f ∈ v, NullOrdered f) :
    Std.TransCmp (cmpFields : Inst v → Inst v → Ordering) := by
  induction v with
  | nil =>
    have heq (a b : Inst []) : cmpFields a b = .eq := by
      cases a
      cases b
      rfl
    have : Std.OrientedCmp (cmpFields : Inst [] → Inst [] → Ordering) :=
      ⟨by intro a b; rw [heq, heq]; rfl⟩
    exact ⟨by intro a b c _ _; rw [heq]; rfl⟩
  | cons f fs ih =>
    have := cmpField_transCmp (h f mem_cons_self)
    have := ih (fun g hg => h g (mem_cons_of_mem f hg))
    have hhead : Std.TransCmp (fun a b : Inst (f :: fs) => cmpField a.head b.head) :=
      transCmp_on Inst.head cmpField
    have htail : Std.TransCmp (fun a b : Inst (f :: fs) => cmpFields a.tail b.tail) :=
      transCmp_on Inst.tail cmpFields
    have heq : (cmpFields : Inst (f :: fs) → Inst (f :: fs) → Ordering) =
        compareLex (fun a b => cmpField a.head b.head) (fun a b => cmpFields a.tail b.tail) := by
      funext a b
      cases a
      cases b
      rfl
    rw [heq]
    infer_instance

theorem bvcmp_le (a b : Inst v) : bvcmp a b ≤ 0 ↔ (cmpFields a b).isLE := by
  unfold bvcmp
  cases cmpFields a b <;> simp

theorem bvcmp_of_transCmp (h : Std.TransCmp (cmpFields : Inst v → Inst v → Ordering))
    (a b c : Inst v) :
    bvcmp a a = 0 ∧ bvcmp b a = -bvcmp a b ∧ (bvcmp a b ≤ 0 → bvcmp b c ≤ 0 → bvcmp a c ≤ 0) := by
  refine ⟨?_, ?_, ?_⟩
  · have hself : cmpFields a a = .eq := Std.ReflCmp.compare_self
    rw [bvcmp, hself]
  · have hswap : cmpFields b a = (cmpFields a b).swap := Std.OrientedCmp.eq_swap
    unfold bvcmp
    rw [hswap]
    cases cmpFields a b <;> rfl
  · rw [bvcmp_le, bvcmp_le, bvcmp_le]
    exact Std.TransCmp.isLE_trans

section

variable {f : Field}

instance : Std.ReflCmp (collapse (occNull f) (cmpOcc f)) where
  compare_self := by
    intro x
    unfold collapse
    split
    · rfl
    · exact Std.ReflCmp.compare_self

def headVals (o rest : Occ f) : Vals f where
  cnt := f.count
  occs := o :: replicate (f.count-1) rest
  length_eq := by
    have := f.count_pos
    rw [length_cons, length_replicate]
    omega
  cnt_le := le_rfl

theorem cmpField_headVals (o o' rest : Occ f) :
    cmpField (headVals o rest) (headVals o' rest) = collapse (occNull f) (cmpOcc f) o o' := by
  have hcount (z : Occ f) : (headVals z rest).count = f.count := by
    unfold Vals.count
    split <;> rfl
  have htake (z : Occ f) : (headVals z rest).occs.take f.count =
      z :: replicate (f.count-1) rest := by
    apply take_of_length_le
    exact le_of_eq (headVals z rest).length_eq
  rw [cmpField_eq]
  simp only [compareLex, compareOn, hcount, htake, List.compareLex_cons_cons]
  have hrest : List.compareLex (collapse (occNull f) (cmpOcc f)) (replicate (f.count-1) rest)
      (replicate (f.count-1) rest) = .eq := Std.ReflCmp.compare_self
  rw [hrest, Nat.compare_eq_eq.mpr rfl, Ordering.then_eq]
  rfl

def zeroOcc (f : Field) : Occ f where
  elem := ⟨0, replicate f.dimSize 0, 0⟩
  bytes_length := length_replicate
  len_le := Nat.zero_le _
  terminated := fun _ => mem_replicate.mpr ⟨f.dim_pos.ne', rfl⟩

def instAt (post : List Field) (x : Vals f) : (pre : List Field) → Inst (pre ++ f :: post)
  | [] => .cons x (zeros post)
  | g :: pre => .cons (headVals (zeroOcc g) (zeroOcc g)) (instAt post x pre)
where
  zeros : (v : List Field) → Inst v
    | [] => .nil
    | g :: v => .cons (headVals (zeroOcc g) (zeroOcc g)) (zeros v)

theorem cmpFields_instAt (pre post : List Field) (x y : Vals f) :
    cmpFields (instAt post x pre) (instAt post y pre) = cmpField x y := by
  have hself (g : Field) : cmpField (headVals (zeroOcc g) (zeroOcc g))
      (headVals (zeroOcc g) (zeroOcc g)) = .eq := by
    rw [cmpField_headVals]
    exact Std.ReflCmp.compare_self
  have hzeros (v : List Field) : cmpFields (instAt.zeros v) (instAt.zeros v) = .eq := by
    induction v with
    | nil => rfl
    | cons g v ih =>
      rw [instAt.zeros, cmpFields, hself, ih]
      rfl
  induction pre with
  | nil =>
    rw [instAt, instAt, cmpFields, hzeros, Ordering.then_eq]
  | cons g pre ih =>
    show cmpFields (.cons _ (instAt post x pre)) (.cons _ (instAt post y pre)) = _
    rw [cmpFields, hself, ih]
    rfl

def nullBytes (f : Field) : List UInt8 :=
  (range f.dimSize).map fun j => f.nullvalBin.getD (min j (f.nullvalBin.length-1)) 0

theorem nullBytes_length : (nullBytes f).length = f.dimSize := by
  rw [nullBytes, length_map, length_range]

theorem fillerTest_nullBytes (filler : Bool) (hlen : f.nullvalBin.length ≤ f.dimSize) :
    fillerTest filler f.nullvalBin (nullBytes f) f.dimSize := by
  have hget (j : ℕ) (hj : j < f.dimSize) :
      (nullBytes f).getD j 0 = f.nullvalBin.getD (min j (f.nullvalBin.length-1)) 0 := by
    rw [getD_eq_getElem _ _ (by rw [nullBytes_length]; exact hj)]
    simp [nullBytes]
  rw [fillerTest_iff]
  intro i hi
  refine ⟨by omega, ?_⟩
  rintro j (rfl | ⟨_, _, _, hj⟩)
  · rw [hget j (by omega), min_eq_left (by omega)]
  · rw [hget j hj]
    congr 1
    omega

theorem fillerTest_other (filler : Bool) (hpos : f.nullvalBin ≠ []) :
    fillerTest filler f.nullvalBin (replicate f.dimSize (f.nullvalBin.getD 0 0+1)) f.dimSize =
      false := by
  rw [Bool.eq_false_iff, ne_eq, fillerTest_iff]
  intro h
  have hget := (h 0 (length_pos_iff.mpr hpos)).2 0 (.inl rfl)
  rw [getD_eq_getElem _ _ (by simpa using f.dim_pos)] at hget
  exact absurd hget (by simp)

/-- Three occurrences out of order: NULL of length 0 equals a value of length 0, and the same
NULL of length 1, which is greater than that value. -/
theorem collapse_breaks (ht : f.typ = .carray) (hl : f.lenInd = true)
    (hnone : f.nullvalNone = false) (hpos : f.nullvalBin ≠ [])
    (hlen : f.nullvalBin.length ≤ f.dimSize) :
    ∃ a b c : Occ f, collapse (occNull f) (cmpOcc f) c a = .eq ∧
      collapse (occNull f) (cmpOcc f) a b = .eq ∧ collapse (occNull f) (cmpOcc f) c b = .gt := by
  have hdim := f.dim_pos
  have hterm (l : List UInt8) (h : f.typ = .string) : (0:UInt8) ∈ l := by
    rw [ht] at h
    cases h
  let a : Occ f := ⟨⟨0, nullBytes f, 0⟩, nullBytes_length, Nat.zero_le _, hterm _⟩
  let b : Occ f := ⟨⟨0, replicate f.dimSize (f.nullvalBin.getD 0 0+1), 0⟩,
    length_replicate, Nat.zero_le _, hterm _⟩
  let c : Occ f := ⟨⟨0, nullBytes f, 1⟩, nullBytes_length, hdim, hterm _⟩
  have hnull (x : Occ f) (hx : x.elem.bytes = nullBytes f) : occNull f x = true := by
    rw [occNull, hnone, valueNull_carray ht, hx, fillerTest_nullBytes _ hlen]
    rfl
  have hb : occNull f b = false := by
    rw [occNull, hnone, valueNull_carray ht, fillerTest_other _ hpos]
    rfl
  refine ⟨a, b, c, ?_, ?_, ?_⟩
  · rw [collapse, hnull c rfl, hnull a rfl]
    rfl
  · rw [collapse, hb, if_neg (by simp), cmpOcc, cmpElem_carray_len ht hl]
    rfl
  · rw [collapse, hb, if_neg (by simp), cmpOcc, cmpElem_carray_len ht hl]
    rfl

end

/-- `Bvcmp` orders the instances of a view if and only if no CARRAY with a length member has a
NULL value that some values test as and others do not. -/
theorem bvcmp_orders_iff (v : List Field) :
    (∀ a b c : Inst v, bvcmp a a = 0 ∧ bvcmp b a = -bvcmp a b ∧
      (bvcmp a b ≤ 0 → bvcmp b c ≤ 0 → bvcmp a c ≤ 0)) ↔
    ∀ f ∈ v, NullOrdered f := by
  constructor
  · intro h f hf ht hl
    by_contra hbad
    simp only [not_or, Bool.not_eq_true, not_lt] at hbad
    obtain ⟨hnone, hpos, hlen⟩ := hbad
    obtain ⟨a, b, c, hca, hab, hcb⟩ := collapse_breaks ht hl hnone hpos hlen
    obtain ⟨pre, post, rfl⟩ := append_of_mem hf
    let inst (o : Occ f) : Inst (pre ++ f :: post) := instAt post (headVals o a) pre
    have hcmp (o o' : Occ f) :
        cmpFields (inst o) (inst o') = collapse (occNull f) (cmpOcc f) o o' := by
      rw [cmpFields_instAt, cmpField_headVals]
    have htrans := (h (inst c) (inst a) (inst b)).2.2
    rw [bvcmp_le, bvcmp_le, bvcmp_le, hcmp, hcmp, hcmp, hca, hab, hcb] at htrans
    exact absurd (htrans rfl rfl) (by decide)
  · intro h a b c
    exact bvcmp_of_transCmp (cmpFields_transCmp h) a b c

def carrayField : Field where
  typ := .carray
  count := 1
  dimSize := 2
  elemcntInd := false
  lenInd := true
  nullfiller := false
  ubf2c := false
  c2ubf := false
  ubfid := 0
  nullvalNone := false
  nullvalNum := 0
  nullvalBin := [0]
  count_pos := by decide
  dim_pos := by decide

def carrayInst (bytes : List UInt8) (len : ℕ) (h : bytes.length = 2) (hl : len ≤ 2) :
    Inst [carrayField] :=
  .cons ⟨1, [⟨⟨0, bytes, len⟩, h, hl, fun ht => by cases ht⟩], rfl, le_rfl⟩ .nil

/-- With lengths 2, 0 and 1: the first equals the second, which is less than the third, which is
less than the first. -/
theorem bvcmp_not_transitive : let a := carrayInst [0, 7] 2 rfl (by decide)
    let b := carrayInst [0, 7] 0 rfl (by decide)
    let c := carrayInst [5, 5] 1 rfl (by decide)
    bvcmp a b = 0 ∧ bvcmp b c = -1 ∧ bvcmp a c = 1 := by
  decide

end Endurox.View
