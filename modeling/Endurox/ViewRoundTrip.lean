import Mathlib.Data.List.TakeWhile
import Endurox.ViewUbf

/-! From a UBF buffer to a view structure and back: what `ndrx_Bvftos_int` fills in,
`ndrx_Bvstof_int` finds again. Where a field has no member for the count, the end of its
occurrences is the NULL value written behind them. -/

namespace Endurox.View

open Base List

theorem getD_set (bytes : List UInt8) (i j : ℕ) (c : UInt8) (hi : i < bytes.length) :
    (bytes.set i c).getD j 0 = if j = i then c else bytes.getD j 0 := by
  rw [getD_eq_getElem?_getD, getElem?_set]
  split
  · subst_vars
    simp
  · rw [if_neg (by omega), ← getD_eq_getElem?_getD]

variable {bytes : List UInt8} {i : ℕ}

theorem length_fillFrom {stop : ℕ} (c : UInt8) (hi : i ≤ stop)
    (hs : stop ≤ bytes.length) : (fillFrom bytes i stop c).length = bytes.length := by
  simp only [fillFrom, length_append, length_take, length_replicate, length_drop]
  omega

theorem getD_fillFrom {stop j : ℕ} {c : UInt8} (hi : i ≤ stop) (hs : stop ≤ bytes.length) :
    (fillFrom bytes i stop c).getD j 0 = if i ≤ j ∧ j < stop then c else bytes.getD j 0 := by
  have htake : (bytes.take i).length = i := by rw [length_take]; omega
  simp only [fillFrom, getD_eq_getElem?_getD]
  by_cases hj : j < i
  · rw [append_assoc, getElem?_append_left (by omega), getElem?_take_of_lt hj, if_neg (by omega)]
  by_cases hj' : j < stop
  · rw [getElem?_append_left (by simp; omega), getElem?_append_right (by omega),
      getElem?_replicate_of_lt (by omega), if_pos (by omega), Option.getD_some]
  · rw [getElem?_append_right (by simp; omega), getElem?_drop, if_neg (by omega)]
    congr 2
    simp only [length_append, length_replicate]
    omega

variable {nullval : List UInt8}

theorem fillerTest_initStringFiller {dim n : ℕ} (hn : i+n = nullval.length)
    (hfit : nullval.length ≤ dim-1) (hlen : bytes.length = dim)
    (hdone : ∀ j < i, bytes.getD j 0 = nullval.getD j 0) (hpos : 0 < n) :
    fillerTest true nullval (initStringFiller nullval dim n i bytes) (dim-1) := by
  induction n generalizing i bytes with
  | zero => omega
  | succ n ih =>
    rw [initStringFiller, if_neg (by omega)]
    split
    · rename_i hlast
      rw [fillerTest_iff]
      intro k hk
      refine ⟨by omega, ?_⟩
      intro j hj
      rw [getD_set _ _ _ _ (by rw [length_fillFrom] <;> omega), if_neg (by omega),
        getD_fillFrom (by omega) (by omega)]
      split
      · -- the last byte and its copies
        congr 1
        omega
      · obtain rfl : j = k := by omega
        exact hdone j (by omega)
    · apply ih (by omega) (by simpa using hlen) _ (by omega)
      intro j hj
      rw [getD_set _ _ _ _ (by omega)]
      split
      · subst_vars
        rfl
      · exact hdone j (by omega)

theorem fillerTest_initCarray {filler : Bool} {dim n : ℕ} (hn : i+n = nullval.length)
    (hfit : nullval.length ≤ dim) (hlen : bytes.length = dim)
    (hdone : ∀ k < i, ∀ j, (j = k ∨ filler = true ∧ k+1 = nullval.length ∧ k ≤ j ∧ j < dim) →
      bytes.getD j 0 = nullval.getD k 0) :
    fillerTest filler nullval (initCarray filler nullval dim n i bytes) dim := by
  induction n generalizing i bytes with
  | zero =>
    rw [fillerTest_iff]
    intro k hk
    exact ⟨by omega, hdone k (by omega)⟩
  | succ n ih =>
    rw [initCarray, if_neg (by omega)]
    split
    · rename_i hlast
      apply ih (by omega) (by rw [length_fillFrom] <;> omega)
      intro k hk j hj
      rw [getD_fillFrom (by omega) (by omega)]
      split
      · congr 1
        omega
      · exact hdone k (by omega) j (by omega)
    · rename_i hlast
      simp only [Bool.and_eq_true, beq_iff_eq] at hlast
      apply ih (by omega) (by simpa using hlen)
      intro k hk j hj
      rw [getD_set _ _ _ _ (by omega)]
      have hjk : j = k := by
        rcases hj with hj | ⟨hf, _, -⟩
        · exact hj
        · exact absurd ⟨hf, by omega⟩ hlast
      subst hjk
      split
      · subst_vars
        rfl
      · exact hdone j (by omega) j (.inl rfl)

structure Field.Loaded (f : Field) : Prop where
  string_fits : f.typ = .string → f.nullvalBin.length < f.dimSize ∨ f.nullvalBin = [0]
  carray_fits : f.typ = .carray → f.nullvalBin.length ≤ f.dimSize
  dim_le : f.dimSize ≤ 32767

def Field.FillerFits (f : Field) : Prop :=
  f.typ = .string → f.nullfiller = true → f.nullvalBin.length ≤ f.dimSize-1

theorem cstr_initString {dim : ℕ} (hlen : bytes.length = dim) (hpos : 0 < dim)
    (hfit : nullval.length < dim ∨ nullval = [0]) :
    cstr (initString nullval dim bytes) = cstr nullval := by
  have hdim : ¬ dim < nullval.length := by
    rcases hfit with h | rfl
    · omega
    · rw [length_singleton]
      omega
  simp only [initString, hdim, if_false]
  by_cases hz : (0:UInt8) ∈ nullval
  · -- the copy ends with the first zero, and what is set to zero lies behind it
    obtain ⟨s, t, rfl, hs⟩ := eq_append_cons_of_mem hz
    have hmin : min (s.length+1) (s ++ 0 :: t).length = s.length+1 := by simp
    rw [cstr_append_nul hs, hmin]
    have htake : (s ++ 0 :: t ++ [0]).take (s.length+1) = s ++ [0] := by
      simp [take_append]
    rw [htake, append_assoc, set_append_right _ _ (by simp)]
    have hrest : (s ++ 0 :: t).length-s.length = t.length+1 := by
      simp only [length_append, length_cons]
      omega
    rw [hrest, cons_append, set_cons_succ, cstr_append_nul hs]
  · have hall : cstr nullval = nullval := by
      rw [cstr, takeWhile_eq_self_iff]
      intro b hb
      rw [decide_eq_true_eq]
      rintro rfl
      exact hz hb
    have hlt : nullval.length < dim := by
      rcases hfit with h | rfl
      · exact h
      · simp at hz
    have hdrop : bytes.drop nullval.length ≠ [] := by
      rw [ne_eq, drop_eq_nil_iff]
      omega
    obtain ⟨_, _, hb⟩ := exists_cons_of_ne_nil hdrop
    rw [hall, min_eq_right (by omega), take_left, hb, set_append_right _ _ le_rfl,
      Nat.sub_self, set_cons_zero, cstr_append_nul hz]

theorem valueNull_initElem {f : Field} {e : Elem} (hf : f.Loaded) (hfill : f.FillerFits)
    (hlen : e.bytes.length = f.dimSize) : valueNull f (initElem f e) = true := by
  cases ht : f.typ with
  | short | int | long | char => simp [valueNull, initElem, ht]
  | string =>
    simp only [valueNull, initElem, ht]
    split
    · rename_i hp
      have hfit := hfill ht hp
      rw [if_neg (by omega)]
      by_cases hnil : f.nullvalBin = []
      · rw [hnil, fillerTest_nil]
      · apply fillerTest_initStringFiller (by omega) hfit hlen (by omega)
        exact length_pos_iff.mpr hnil
    · rw [cstr_initString hlen f.dim_pos (hf.string_fits ht), beq_self_eq_true]
  | carray =>
    rw [valueNull_carray ht]
    simp only [initElem, ht]
    exact fillerTest_initCarray (by omega) (hf.carray_fits ht) hlen (by omega)

theorem valueNull_bvselinitOcc {f : Field} {e : Elem} (hf : f.Loaded) (hfill : f.FillerFits)
    (hnone : f.nullvalNone = false) (hlen : e.bytes.length = f.dimSize) :
    valueNull f (bvselinitOcc f e) = true := by
  rw [bvselinitOcc, hnone]
  exact valueNull_initElem hf hfill hlen

variable {occ : ℕ} {temp : Ubf}

section

variable {env : Env} {f : Field} {u : Ubf}

theorem bchg_end {room : Ubf → Bool} {u' : Ubf} {id : ℕ} {v : UVal} (hu : Ordered Prod.fst u)
    (hocc : (occs Prod.fst id u).length = occ) (h : bchg env room u id occ v = .ok u') :
    Ordered Prod.fst u' ∧ occs Prod.fst id u' = occs Prod.fst id u ++ [(id, v)] ∧
      ∀ k ≠ id, occs Prod.fst k u' = occs Prod.fst k u := by
  have hu' : u' = setOccs Prod.fst id (occs Prod.fst id u ++ [(id, v)]) u := by
    subst hocc
    simp only [bchg, take_length, Nat.sub_self, replicate_zero, append_nil,
      drop_of_length_le (Nat.le_succ _)] at h
    split at h
    · exact (Except.ok.inj h).symm
    · cases h
  have hes : ∀ a ∈ occs Prod.fst id u ++ [(id, v)], a.1 = id := by
    intro a ha
    rcases mem_append.mp ha with ha | ha
    · exact (mem_occs.mp ha).2
    · rw [mem_singleton.mp ha]
  subst hu'
  exact ⟨hu.setOccs hes, occs_setOccs_self hes, fun k hk => occs_setOccs_of_ne hu hes hk⟩

structure Holds (env : Env) (f : Field) (e : Elem) (v : UVal) : Prop where
  value : elemVal env f e (occLen f e) = .ok v
  fits : ¬ (f.typ = .carray ∧ f.dimSize < occLen f e)

theorem stofOccs_null {cnt : Int} {nulls : List Elem}
    {r : List Elem × Ubf} (hnone : f.nullvalNone = false)
    (hnulls : ∀ e ∈ nulls, valueNull f e = true) (h : stofOccs env f cnt occ nulls temp = .ok r) :
    r.2 = temp := by
  cases nulls with
  | nil =>
    cases h
    rfl
  | cons e =>
    have hnull : bvnullInt f cnt occ e = true := by
      rw [bvnullInt, hnone, hnulls e (by simp)]
      simp
    rw [stofOccs] at h
    split at h
    · cases h
      rfl
    · split at h
      · cases h
      · cases h
        rfl

/-- The filled occurrences go back into the buffer, and the nulls behind them do not. -/
theorem stofOccs_spec {cnt : Int} {filled nulls : List Elem} {vs : List UVal}
    {r : List Elem × Ubf} (hnone : f.nullvalNone = false)
    (hfilled : Forall₂ (Holds env f) filled vs)
    (hvals : ∀ k e, filled[k]? = some e → bvnullInt f cnt (occ+k) e = false)
    (hnulls : ∀ e ∈ nulls, valueNull f e = true) (hcnt : occ+filled.length ≤ cnt)
    (htemp : Ordered Prod.fst temp) (hocc : (occs Prod.fst f.ubfid temp).length = occ)
    (h : stofOccs env f cnt occ (filled ++ nulls) temp = .ok r) :
    Ordered Prod.fst r.2 ∧
      occs Prod.fst f.ubfid r.2 = occs Prod.fst f.ubfid temp ++ vs.map (f.ubfid, ·) ∧
      ∀ k ≠ f.ubfid, occs Prod.fst k r.2 = occs Prod.fst k temp := by
  induction hfilled generalizing occ temp r with
  | nil =>
    rw [stofOccs_null hnone hnulls h]
    simpa using htemp
  | @cons e v filled vs he hrest ih =>
    rw [length_cons] at hcnt
    have hnn : bvnullInt f cnt occ e = false := hvals 0 e (by simp)
    rw [cons_append, stofOccs, if_neg (by omega), if_neg he.fits, hnn, he.value] at h
    obtain ⟨_, hv', h⟩ := bind_eq_ok.mp h
    cases hv'
    obtain ⟨temp', hchg, h⟩ := bind_eq_ok.mp h
    obtain ⟨_, hr', h⟩ := bind_eq_ok.mp h
    cases h
    obtain ⟨hord, hself, hother⟩ := bchg_end htemp hocc hchg
    have hvals' (k : ℕ) (e' : Elem) (hk : filled[k]? = some e') :
        bvnullInt f cnt (occ+1+k) e' = false := by
      have := hvals (k+1) e' (by simpa using hk)
      rwa [show occ+(k+1) = occ+1+k by omega] at this
    have hocc' : (occs Prod.fst f.ubfid temp').length = occ+1 := by
      rw [hself, length_append, hocc, length_singleton]
    obtain ⟨hord', hself', hother'⟩ := ih hvals' (by push_cast; omega) hord hocc' hr'
    refine ⟨hord', ?_, ?_⟩
    · rw [hself', hself, append_assoc, map_cons, singleton_append]
    · intro k hk
      rw [hother' k hk, hother k hk]

end

section

variable {env : Env} {f : Field} {u : Ubf}

def UVal.typ : UVal → Typ
  | .short _ => .short
  | .long _ => .long
  | .char _ => .char
  | .string _ => .string
  | .carray _ => .carray

def fieldVals (f : Field) (u : Ubf) : List UVal := (occs Prod.fst f.ubfid u).map Prod.snd

structure Field.Keeps (f : Field) (env : Env) : Prop where
  same_type : env.ftype f.ubfid = f.typ.ubf
  has_null : f.nullvalNone = false
  has_len : f.typ = .carray → f.lenInd = true

variable (e : Elem)

@[simp] theorem setLen_num (len : ℕ) : (setLen f e len).num = e.num := by
  rw [setLen]
  split <;> rfl

@[simp] theorem setLen_bytes (len : ℕ) : (setLen f e len).bytes = e.bytes := by
  rw [setLen]
  split <;> rfl

theorem setLen_len (len : ℕ) (ht : f.typ = .carray) (hl : f.lenInd = true) :
    (setLen f e len).len = len%65536 := by
  simp [setLen, hl, ht]

theorem resetLen_bytes : (resetLen f e).bytes = e.bytes := by
  rw [resetLen]
  split <;> rfl

theorem cbget_spec {v : UVal} (hk : f.Keeps env) (hf : f.Loaded)
    (hv : (fieldVals f u)[occ]? = some v) (htyp : v.typ = env.ftype f.ubfid)
    (hint : f.typ = .int → ∀ n, v = .long n → -2147483648 ≤ n ∧ n < 2147483648) :
    (∃ e' len, cbget env u f occ e = .ok (e', len) ∧ Holds env f (setLen f e' len) v) ∨
      cbget env u f occ e = .error .bnospace := by
  rw [fieldVals, getElem?_map] at hv
  rw [hk.same_type] at htyp
  simp only [cbget, hv]
  -- the type of the field leaves one form of the value
  cases ht : f.typ with
  | short | long | char =>
    cases v <;> simp only [UVal.typ, ht, Typ.ubf, reduceCtorEq] at htyp
    left
    exact ⟨_, _, rfl, by simp [elemVal, hk.same_type, ht], by simp [ht]⟩
  | int =>
    cases v <;> simp only [UVal.typ, ht, Typ.ubf, reduceCtorEq] at htyp
    rename_i n
    obtain ⟨hlo, hhi⟩ := hint ht n rfl
    left
    exact ⟨_, _, rfl, by simp [elemVal, hk.same_type, ht, wrap32_of_mem hlo hhi], by simp [ht]⟩
  | string =>
    cases v <;> simp only [UVal.typ, ht, Typ.ubf, reduceCtorEq] at htyp
    rename_i s
    simp only
    split
    · left
      refine ⟨_, _, rfl, ?_, by simp [ht]⟩
      have hs : cstr (s.val ++ 0 :: e.bytes.drop (s.val.length+1)) = s.val :=
        cstr_append_nul s.property _
      simp only [elemVal, hk.same_type, ht, setLen_bytes, hs]
      rfl
    · exact .inr rfl
  | carray =>
    cases v <;> simp only [UVal.typ, ht, Typ.ubf, reduceCtorEq] at htyp
    rename_i bs
    simp only
    split
    · rename_i hle
      have hdim := hf.dim_le
      have hlen (e1 : Elem) : occLen f (setLen f e1 bs.length) = bs.length := by
        rw [occLen, if_pos (hk.has_len ht), setLen_len _ _ ht (hk.has_len ht),
          Nat.mod_eq_of_lt (by omega)]
      left
      refine ⟨_, _, rfl, ?_, ?_⟩
      · simp [elemVal, hk.same_type, ht, hlen]
      · rw [hlen]
        omega
    · exact .inr rfl

/-- A member gets the occurrences of its field first and null values after them. -/
theorem ftosOccs_spec {es : List Elem} {cnt : Int} {r : List Elem × Int}
    (hk : f.Keeps env) (hf : f.Loaded) (hfill : f.FillerFits)
    (htyp : ∀ v ∈ fieldVals f u, v.typ = env.ftype f.ubfid)
    (hint : f.typ = .int → ∀ n, .long n ∈ fieldVals f u → -2147483648 ≤ n ∧ n < 2147483648)
    (hes : ∀ e ∈ es, e.bytes.length = f.dimSize)
    (hfits : ((fieldVals f u).drop occ).length ≤ es.length)
    (h : ftosOccs env u f occ es cnt = .ok r) :
    ∃ filled nulls, r.1 = filled ++ nulls ∧
      Forall₂ (Holds env f) filled ((fieldVals f u).drop occ) ∧
      (∀ e ∈ nulls, valueNull f e = true) ∧ r.2 = cnt+filled.length := by
  induction es generalizing occ cnt r with
  | nil =>
    cases h
    have hnil : (fieldVals f u).drop occ = [] := length_eq_zero_iff.mp (by simpa using hfits)
    exact ⟨[], [], rfl, hnil ▸ .nil, by simp, by simp⟩
  | cons e es ih =>
    have hes' : ∀ e ∈ es, e.bytes.length = f.dimSize := fun e' he' => hes e' (by simp [he'])
    rw [ftosOccs] at h
    cases hv : (fieldVals f u)[occ]? with
    | none =>
      have hle : (fieldVals f u).length ≤ occ := getElem?_eq_none_iff.mp hv
      have hget : cbget env u f occ (resetLen f e) = .error .bnotpres := by
        rw [fieldVals, getElem?_map] at hv
        simp [cbget, hv]
      rw [hget] at h
      obtain ⟨r', hr', h⟩ := bind_eq_ok.mp h
      cases h
      have hdrop : (fieldVals f u).drop (occ+1) = [] := drop_of_length_le (by omega)
      obtain ⟨filled, nulls, hr1, hfilled, hnulls, hr2⟩ := ih hes' (by simp [hdrop]) hr'
      rw [hdrop, List.forall₂_nil_right_iff] at hfilled
      subst hfilled
      rw [drop_of_length_le hle]
      refine ⟨[], bvselinitOcc f (resetLen f e) :: nulls, by rw [hr1]; rfl, .nil, ?_, hr2⟩
      intro e' he'
      rcases mem_cons.mp he' with rfl | he'
      · apply valueNull_bvselinitOcc hf hfill hk.has_null
        rw [resetLen_bytes]
        exact hes e (by simp)
      · exact hnulls e' he'
    | some v =>
      obtain ⟨hlt, hval⟩ := List.getElem?_eq_some_iff.mp hv
      have hmem : v ∈ fieldVals f u := List.mem_of_getElem? hv
      have hint' (ht : f.typ = .int) (n : Int) (hn : v = .long n) := hint ht n (hn ▸ hmem)
      rcases cbget_spec (resetLen f e) hk hf hv (htyp v hmem) hint' with
        ⟨e', len, hget, hhold⟩ | hget
      · rw [hget] at h
        obtain ⟨_, hr', h⟩ := bind_eq_ok.mp h
        cases h
        rw [drop_eq_getElem_cons hlt, hval] at hfits ⊢
        obtain ⟨filled, nulls, hr1, hfilled, hnulls, _⟩ :=
          ih hes' (by simpa using hfits) hr'
        refine ⟨setLen f e' len :: filled, nulls, by simp [hr1], .cons hhold hfilled, hnulls, ?_⟩
        rw [length_cons]
        omega
      · rw [hget] at h
        cases h

end

def Field.bothWays (f : Field) : Bool := f.ubf2c && f.c2ubf

def mapped (fs : List Field) (id : ℕ) : Bool := fs.any fun f => f.bothWays && f.ubfid == id

def projection (fs : List Field) (u : Ubf) : Ubf := u.filter fun p => mapped fs p.1

structure Mapped (env : Env) (fs : List Field) : Prop where
  loaded : ∀ f ∈ fs, f.Loaded
  distinct : ((fs.filter Field.bothWays).map Field.ubfid).Nodup
  keeps : ∀ f ∈ fs, f.bothWays = true → f.Keeps env

structure Fits (env : Env) (fs : List Field) (u : Ubf) : Prop where
  ordered : Ordered Prod.fst u
  typed : ∀ p ∈ u, p.2.typ = env.ftype p.1
  count_le : ∀ f ∈ fs, f.bothWays = true → (fieldVals f u).length ≤ f.count
  int_range : ∀ f ∈ fs, f.bothWays = true → f.typ = .int → ∀ n, .long n ∈ fieldVals f u →
    -2147483648 ≤ n ∧ n < 2147483648

structure Sized (f : Field) (m : Members) : Prop where
  occs : m.elems.length = f.count
  bytes : ∀ e ∈ m.elems, e.bytes.length = f.dimSize

def FilledNotNull (u : Ubf) (f : Field) (m : Members) : Prop :=
  f.bothWays = true → ∀ occ e, m.elems[occ]? = some e → occ < (fieldVals f u).length →
    bvnullInt f m.cnt occ e = false

section

variable {env : Env} {u : Ubf}

/-- What `Mapped` and `Fits` say of one field. -/
structure Ready (env : Env) (u : Ubf) (f : Field) : Prop where
  loaded : f.Loaded
  null : f.c2ubf = true → f.nullvalNone = false
  filler : f.c2ubf = true → f.FillerFits
  keeps : f.bothWays = true → f.Keeps env
  count_le : f.bothWays = true → (fieldVals f u).length ≤ f.count
  int_range : f.bothWays = true → f.typ = .int → ∀ n, .long n ∈ fieldVals f u →
    -2147483648 ≤ n ∧ n < 2147483648

theorem map_fieldVals (f : Field) : (fieldVals f u).map (f.ubfid, ·) = occs Prod.fst f.ubfid u := by
  rw [fieldVals, map_map]
  conv_rhs => rw [← map_id (occs Prod.fst f.ubfid u)]
  apply map_congr_left
  intro p hp
  rw [Function.comp_apply, ← (mem_occs.mp hp).2, id]

theorem bvnullInt_stofCount (f : Field) (m : Members) (occ : ℕ) (e : Elem) :
    bvnullInt f (stofCount f m) occ e = bvnullInt f m.cnt occ e := by
  cases hc : f.elemcntInd <;> simp [bvnullInt, stofCount, hc]

variable {r : Members × Ubf}

theorem stofField_bvselinit {f : Field} {m : Members} (hf : Ready env u f) (hm : Sized f m)
    (h : stofField env f (bvselinit f m) temp = .ok r) : r.2 = temp := by
  rw [stofField] at h
  split at h
  · rename_i hc
    have hnulls : ∀ e ∈ (bvselinit f m).elems, valueNull f e = true := by
      intro e he
      simp only [bvselinit, hf.null hc, Bool.false_eq_true, if_false, mem_map] at he
      obtain ⟨e0, he0, rfl⟩ := he
      exact valueNull_initElem hf.loaded (hf.filler hc) (hm.bytes e0 he0)
    split at h
    · cases h
    · obtain ⟨_, hr', h⟩ := bind_eq_ok.mp h
      cases h
      exact stofOccs_null (hf.null hc) hnulls hr'
  · cases h
    rfl

theorem stofField_filled {f : Field} {m m' : Members} (hf : Ready env u f)
    (hb : f.bothWays = true) (htyp : ∀ p ∈ u, p.2.typ = env.ftype p.1)
    (hm : Sized f m) (hftos : ftosField env u f m = .ok m') (hnn : FilledNotNull u f m')
    (htemp : Ordered Prod.fst temp) (hfree : occs Prod.fst f.ubfid temp = [])
    (h : stofField env f m' temp = .ok r) :
    Ordered Prod.fst r.2 ∧ occs Prod.fst f.ubfid r.2 = occs Prod.fst f.ubfid u ∧
      ∀ k ≠ f.ubfid, occs Prod.fst k r.2 = occs Prod.fst k temp := by
  obtain ⟨hs, hc⟩ := Bool.and_eq_true_iff.mp hb
  have hk := hf.keeps hb
  have hcount := hf.count_le hb
  have htyp' : ∀ v ∈ fieldVals f u, v.typ = env.ftype f.ubfid := by
    intro v hv
    obtain ⟨p, hp, rfl⟩ := mem_map.mp hv
    rw [htyp p (mem_occs.mp hp).1, (mem_occs.mp hp).2]
  rw [ftosField, if_pos hs] at hftos
  obtain ⟨r0, hr0, hftos⟩ := bind_eq_ok.mp hftos
  cases hftos
  obtain ⟨filled, _, hr1, hfilled, hnulls, hr2⟩ :=
    ftosOccs_spec hk hf.loaded (hf.filler hc) htyp' (hf.int_range hb) hm.bytes (by rw [hm.occs]; exact hcount) hr0
  rw [drop_zero] at hfilled
  have hlen := hfilled.length_eq
  set m' : Members := ⟨if f.elemcntInd then r0.2 else m.cnt, r0.1⟩ with hm'
  -- the count that ends the loop is not below the number of values
  have hcnt : ((0:ℕ):Int)+filled.length ≤ stofCount f m' := by
    rw [stofCount, hm']
    split
    · rw [hr2]
      simp
    · push_cast
      omega
  have hvals (k : ℕ) (e : Elem) (hk' : filled[k]? = some e) :
      bvnullInt f (stofCount f m') (0+k) e = false := by
    have hklt : k < filled.length := (List.getElem?_eq_some_iff.mp hk').1
    rw [bvnullInt_stofCount, Nat.zero_add]
    apply hnn hb k e _ (by omega)
    rw [hm', hr1, getElem?_append_left hklt, hk']
  rw [stofField, if_pos hc] at h
  split at h
  · cases h
  · obtain ⟨_, hr', h⟩ := bind_eq_ok.mp h
    cases h
    rw [hm', hr1] at hr'
    have hspec := stofOccs_spec hk.has_null hfilled hvals hnulls hcnt htemp (by simp [hfree]) hr'
    rwa [hfree, nil_append, map_fieldVals] at hspec

theorem stofField_oneWay {f : Field} {m m' : Members} (hf : Ready env u f)
    (hb : f.bothWays = false) (hm : Sized f m) (hftos : ftosField env u f m = .ok m')
    (h : stofField env f m' temp = .ok r) : r.2 = temp := by
  cases hs : f.ubf2c with
  | false =>
    rw [ftosField, hs] at hftos
    cases hftos
    exact stofField_bvselinit hf hm h
  | true =>
    have hc : f.c2ubf = false := by simpa [Field.bothWays, hs] using hb
    rw [stofField, hc] at h
    cases h
    rfl

/-- The mapped fields come back from the view as they were. -/
theorem stofFields_spec {fs : List Field} {ms ms' : List Members}
    {r : List Members × Ubf} (hd : ((fs.filter Field.bothWays).map Field.ubfid).Nodup)
    (hf : ∀ f ∈ fs, Ready env u f) (htyp : ∀ p ∈ u, p.2.typ = env.ftype p.1)
    (hms : Forall₂ Sized fs ms) (hftos : bvftosInt env u fs ms = .ok ms')
    (hnn : Forall₂ (FilledNotNull u) fs ms') (htemp : Ordered Prod.fst temp)
    (hfree : ∀ k, mapped fs k = true → occs Prod.fst k temp = [])
    (h : stofFields env fs ms' temp = .ok r) :
    Ordered Prod.fst r.2 ∧ ∀ k, occs Prod.fst k r.2 =
        if mapped fs k then occs Prod.fst k u else occs Prod.fst k temp := by
  induction hms generalizing ms' temp r with
  | nil =>
    cases hnn
    rw [stofFields] at h
    · cases h
      exact ⟨htemp, fun k => rfl⟩
    · simp
  | @cons f m fs ms hm hms ih =>
    obtain ⟨_, hm1, hftos⟩ := bind_eq_ok.mp hftos
    obtain ⟨_, hms1, hftos⟩ := bind_eq_ok.mp hftos
    cases hftos
    obtain ⟨hnn1, hnns⟩ := List.forall₂_cons.mp hnn
    obtain ⟨r1, hr₁, h⟩ := bind_eq_ok.mp h
    obtain ⟨_, hrs, h⟩ := bind_eq_ok.mp h
    cases h
    have hd' := List.Nodup.sublist (((sublist_cons_self f fs).filter _).map _) hd
    obtain ⟨hf1, hfs⟩ := forall_mem_cons.mp hf
    have hmapped (k : ℕ) : mapped (f :: fs) k = (f.bothWays && f.ubfid == k || mapped fs k) := rfl
    cases hb : f.bothWays with
    | false =>
      rw [stofField_oneWay hf1 hb hm hm1 hr₁] at hrs
      simp only [hmapped, hb] at hfree ⊢
      exact ih hd' hfs hms1 hnns htemp hfree hrs
    | true =>
      obtain ⟨hord, hself, hother⟩ := stofField_filled hf1 hb htyp hm hm1 hnn1 htemp
        (hfree f.ubfid (by simp [hmapped, hb])) hr₁
      -- the id is not met again
      have hnew : mapped fs f.ubfid = false := by
        rw [filter_cons_of_pos hb, map_cons, nodup_cons] at hd
        rw [mapped, any_eq_false]
        intro g hg hand
        simp only [Bool.and_eq_true, beq_iff_eq] at hand
        apply hd.1
        exact mem_map.mpr ⟨g, mem_filter.mpr ⟨hg, hand.1⟩, hand.2⟩
      have hfree' (k : ℕ) (hk : mapped fs k = true) : occs Prod.fst k r1.2 = [] := by
        have hne : k ≠ f.ubfid := by
          rintro rfl
          rw [hnew] at hk
          cases hk
        rw [hother k hne]
        exact hfree k (by simp [hmapped, hk])
      obtain ⟨hord', hocc'⟩ := ih hd' hfs hms1 hnns hord hfree' hrs
      refine ⟨hord', ?_⟩
      intro k
      rw [hocc' k, hmapped, hb]
      by_cases hk : k = f.ubfid
      · subst hk
        simp [hself]
      · rw [hother k hk]
        simp [Ne.symm hk]

theorem bupdateFrom_self {dst todo r : Ubf} (hord : Ordered Prod.fst (dst ++ todo))
    (h : bupdateFrom env dst dst todo = .ok r) : r = dst ++ todo := by
  induction todo generalizing dst with
  | nil =>
    cases h
    rw [append_nil]
  | cons p todo ih =>
    obtain ⟨id, v⟩ := p
    obtain ⟨dst', hchg, h⟩ := bind_eq_ok.mp h
    rw [append_cons] at hord ⊢
    have hdst' : dst' = dst ++ [(id, v)] := by
      obtain ⟨hord', hself, hother⟩ := bchg_end hord.left.left rfl hchg
      apply hord'.ext hord.left
      intro k
      by_cases hk : k = id
      · subst hk
        rw [hself, occs_append, occs_eq_self (l := [(k, v)]) (by simp)]
      · rw [hother k hk, occs_append, occs_eq_nil (l := [(id, v)]), append_nil]
        intro a ha
        rw [mem_singleton.mp ha]
        exact Ne.symm hk
    rw [hdst'] at h
    exact ih hord h

theorem occs_projection (fs : List Field) (k : ℕ) :
    occs Prod.fst k (projection fs u) = if mapped fs k then occs Prod.fst k u else [] := by
  rw [projection, occs, filter_filter]
  split
  · rename_i hk
    apply filter_congr
    intro p _
    by_cases hp : p.1 = k
    · simp [hp, hk]
    · simp [hp]
  · rename_i hk
    rw [filter_eq_nil_iff]
    intro p _
    simp only [Bool.and_eq_true, decide_eq_true_eq, not_and]
    rintro rfl
    exact hk

/-- A structure filled from a buffer gives back the buffer's mapped fields. -/
theorem bvstof_bvftos {fs : List Field} {ms ms' ms'' : List Members} {dst : Ubf}
    (hv : Mapped env fs) (hnone : ∀ f ∈ fs, f.c2ubf = true → f.nullvalNone = false)
    (hfill : ∀ f ∈ fs, f.c2ubf = true → f.FillerFits) (hu : Fits env fs u)
    (hms : Forall₂ Sized fs ms) (hftos : bvftosInt env u fs ms = .ok ms')
    (hnn : Forall₂ (FilledNotNull u) fs ms')
    (hstof : bvstofInt env fs ms' [] = .ok (ms'', dst)) : dst = projection fs u := by
  obtain ⟨r, hr, hstof⟩ := bind_eq_ok.mp hstof
  obtain ⟨_, hdst', hstof⟩ := bind_eq_ok.mp hstof
  cases hstof
  have hf : ∀ f ∈ fs, Ready env u f := fun f hf => ⟨hv.loaded f hf, hnone f hf, hfill f hf,
    hv.keeps f hf, hu.count_le f hf, hu.int_range f hf⟩
  obtain ⟨hord, hocc⟩ :=
    stofFields_spec hv.distinct hf hu.typed hms hftos hnn .nil (fun k _ => occs_nil) hr
  have hdst : dst = r.2 := by
    apply bupdateFrom_self _ hdst'
    exact hord
  rw [hdst]
  apply hord.ext (hu.ordered.filter _)
  intro k
  rw [hocc k, occs_nil, ← occs_projection, projection]

end

def plainEnv : Env where
  ftype := fun id => if id = 5 then .string else .short
  convGet := fun _ _ _ => .error .other
  convPut := fun _ _ _ => .error .other
  tempRoom := fun _ => true
  room := fun _ => true

def stringField (dimSize count : ℕ) (hdim : 0 < dimSize) (hcount : 0 < count) : Field where
  typ := .string
  count := count
  dimSize := dimSize
  elemcntInd := false
  lenInd := false
  nullfiller := true
  ubf2c := true
  c2ubf := true
  ubfid := 5
  nullvalNone := false
  nullvalNum := 0
  nullvalBin := [0]
  count_pos := hcount
  dim_pos := hdim

def outField (none : Bool) : Field where
  typ := .short
  count := 1
  dimSize := 2
  elemcntInd := false
  lenInd := false
  nullfiller := false
  ubf2c := false
  c2ubf := true
  ubfid := 7
  nullvalNone := none
  nullvalNum := 0
  nullvalBin := [0]
  count_pos := Nat.one_pos
  dim_pos := Nat.two_pos

def exampleView : List Field := [stringField 4 2 (Nat.succ_pos 3) Nat.two_pos, outField false]

def exampleUbf : Ubf := [(5, .string ⟨[97], by decide⟩), (9, .short 3)]

def exampleBlock : List Members :=
  [⟨0, [⟨0, [7, 7, 7, 7], 0⟩, ⟨0, [7, 7, 7, 7], 0⟩]⟩, ⟨0, [⟨8, [7, 7], 0⟩]⟩]

def exampleFilled : List Members :=
  [⟨0, [⟨0, [97, 0, 7, 7], 0⟩, ⟨0, [0, 0, 0, 0], 0⟩]⟩, ⟨0, [⟨0, [7, 7], 0⟩]⟩]

theorem outField_loaded (none : Bool) : (outField none).Loaded := by
  constructor <;> simp [outField]

theorem stringField_loaded {dimSize count : ℕ} {hdim : 0 < dimSize} {hcount : 0 < count}
    (hle : dimSize ≤ 32767) : (stringField dimSize count hdim hcount).Loaded :=
  ⟨fun _ => .inr rfl, nofun, hle⟩

theorem stringField_keeps {dimSize count : ℕ} {hdim : 0 < dimSize} {hcount : 0 < count} :
    (stringField dimSize count hdim hcount).Keeps plainEnv :=
  ⟨rfl, rfl, nofun⟩

theorem exampleView_mapped : Mapped plainEnv exampleView := by
  refine ⟨?_, by decide, ?_⟩
  · simp only [exampleView, forall_mem_cons]
    exact ⟨stringField_loaded (by decide), outField_loaded false, by simp⟩
  · simp only [exampleView, forall_mem_cons]
    exact ⟨fun _ => stringField_keeps, nofun, by simp⟩

theorem exampleUbf_fits : Fits plainEnv exampleView exampleUbf := by
  refine ⟨?_, by decide, by decide, ?_⟩
  · simp [Ordered, exampleUbf]
  · simp only [exampleView, forall_mem_cons]
    exact ⟨fun _ h => Typ.noConfusion h, fun _ h => Typ.noConfusion h, by simp⟩

theorem bvstof_bvftos_string :
    bvftosInt plainEnv exampleUbf exampleView exampleBlock = .ok exampleFilled ∧
      bvstofInt plainEnv exampleView exampleFilled [] =
        .ok (exampleFilled, [(5, .string ⟨[97], by decide⟩)]) ∧
      [(5, .string ⟨[97], by decide⟩)] = projection exampleView exampleUbf := by
  have hnone : ∀ f ∈ exampleView, f.c2ubf = true → f.nullvalNone = false := by decide
  have hfill : ∀ f ∈ exampleView, f.c2ubf = true → f.FillerFits := by
    simp only [exampleView, forall_mem_cons]
    exact ⟨fun _ _ _ => by decide, nofun, by simp⟩
  have hms : Forall₂ Sized exampleView exampleBlock :=
    .cons ⟨rfl, by decide⟩ (.cons ⟨rfl, by decide⟩ .nil)
  have hftos : bvftosInt plainEnv exampleUbf exampleView exampleBlock = .ok exampleFilled := rfl
  have hnn : Forall₂ (FilledNotNull exampleUbf) exampleView exampleFilled := by
    refine .cons ?_ (.cons nofun .nil)
    intro _ occ e he hocc
    obtain rfl : occ = 0 := by
      have hlen : (fieldVals (stringField 4 2 (by decide) (by decide)) exampleUbf).length = 1 := rfl
      omega
    cases he
    decide
  have hstof : bvstofInt plainEnv exampleView exampleFilled [] =
      .ok (exampleFilled, [(5, .string ⟨[97], by decide⟩)]) := rfl
  exact ⟨hftos, hstof,
    bvstof_bvftos exampleView_mapped hnone hfill exampleUbf_fits hms hftos hnn hstof⟩

/-- A buffer comes back from a view with other fields than those the view has of it. -/
def ComesBackOther (fs : List Field) (u : Ubf) : Prop :=
  Mapped plainEnv fs ∧ Fits plainEnv fs u ∧ ∃ (ms ms' ms'' : List Members) (dst : Ubf),
    Forall₂ Sized fs ms ∧ bvftosInt plainEnv u fs ms = .ok ms' ∧
      Forall₂ (FilledNotNull u) fs ms' ∧ bvstofInt plainEnv fs ms' [] = .ok (ms'', dst) ∧
      dst ≠ projection fs u

/-- A field without a NULL value that only goes out keeps what the memory held, and that
reaches the buffer. -/
theorem one_way_none_adds : ComesBackOther [outField true] [] := by
  refine ⟨⟨?_, by decide, ?_⟩, ⟨.nil, by simp, by decide, by simp [fieldVals]⟩,
    [⟨0, [⟨8, [7, 7], 0⟩]⟩], [⟨0, [⟨8, [7, 7], 0⟩]⟩], [⟨0, [⟨8, [7, 7], 0⟩]⟩], [(7, .short 8)],
    .cons ⟨rfl, by decide⟩ .nil, rfl, .cons nofun .nil, rfl, by decide⟩
  · simpa using outField_loaded true
  · simp only [forall_mem_cons]
    exact ⟨nofun, by simp⟩

-- a string of one byte with a filler is set to its NULL value, which does not test as NULL
example : ComesBackOther [stringField 1 1 Nat.one_pos Nat.one_pos] [] := by
  refine ⟨⟨?_, by decide, ?_⟩, ⟨.nil, by simp, by decide, by simp [fieldVals]⟩,
    [⟨0, [⟨0, [7], 0⟩]⟩], [⟨0, [⟨0, [0], 0⟩]⟩], [⟨0, [⟨0, [0], 0⟩]⟩], [(5, .string ⟨[], by decide⟩)],
    .cons ⟨rfl, by decide⟩ .nil, rfl, .cons (fun _ _ _ _ hocc => absurd hocc (by simp [fieldVals])) .nil,
    rfl, by decide⟩
  · simpa using stringField_loaded (by decide)
  · simpa using fun _ => stringField_keeps

end Endurox.View
