import Endurox.DdrRange

/-!
The walk over the blocks of a criterion, and what a routed call ends with: the first range in the
order of the configuration that contains the value.
-/

namespace Endurox.Ddr

open Base List

section

variable (fpu : Fpu) (buf : Buffer)

def sameType (r : Route) : Bool := r.bufferTypeId.val = buf.typeId

def Route.pick (r : Route) : Option Range :=
  (fieldValue buf r.fieldtypeid.val r.fldid.val).bind
    (fun v => r.ranges.find? (Range.contains fpu v))

def firstRange (routes : List Route) : Option Range :=
  routes.findSome? (fun r => if sameType buf r then r.pick fpu buf else none)

def endedOn (routes : List Route) : Ended :=
  match firstRange fpu buf routes with
  | some r => .found r.group
  | none => .noRange (routes.any (sameType buf))

/-- As far as the walk gets, no route of another buffer type stands before a route of the
buffer's type that has no range for the value. -/
def InStep (routes : List Route) : Prop :=
  ∀ before r after, routes = before ++ r :: after → firstRange fpu buf before = none →
    sameType buf r = true → r.pick fpu buf = none → ∀ a ∈ before, sameType buf a = true

end

section

variable {fpu : Fpu} {ft : Int} {v : Val} {mem : List UInt8}

/-- The loop over the ranges of a block ends on the first that contains the value. -/
theorem rangeLoop_eq {ranges : List Range} {seqs : List Routcritseq}
    (hb : Forall₂ (Built fpu ft) ranges seqs) (hv : v.Of ft) {pre post : List UInt8}
    (hm : mem = pre ++ seqsBytes seqs ++ post) {base step : Int} (hat : base+step = pre.length)
    (hstep : 0 ≤ step) (hfit : step+(seqsBytes seqs).length < 2147483648) :
    ∃ step' rd, rangeLoop fpu mem base v seqs.length step =
        .ok ((ranges.find? (Range.contains fpu v)).map Range.group, step', rd) ∧
      (ranges.find? (Range.contains fpu v) = none → step' = step+(seqsBytes seqs).length) ∧
      ∀ p ∈ rd, Within pre.length (pre.length+(seqsBytes seqs).length) p := by
  induction hb generalizing pre step with
  | nil => exact ⟨step, [], rfl, by simp [seqsBytes], by simp⟩
  | @cons r seq ranges seqs h hb ih =>
    have happ := seqsBytes_cons seq seqs
    have hlen : (seqsBytes (seq :: seqs)).length = seq.bytes.length+(seqsBytes seqs).length := by
      rw [happ, length_append]
    have hm1 : mem = pre ++ seq.bytes ++ (seqsBytes seqs ++ post) := by
      rw [hm, happ]
      simp
    have hseq := h.ok.bytes_bounds
    obtain ⟨rd, hin, hrd⟩ := h.inRange_eq hv hm1
    have hread : Within pre.length (pre.length+(seqsBytes (seq :: seqs)).length)
        (base+step, 60) := by
      simp only [Within]
      omega
    have hrd1 (p : Read) (hp : p ∈ rd) :
        Within pre.length (pre.length+(seqsBytes (seq :: seqs)).length) p :=
      (hrd p hp).mono le_rfl (by omega)
    by_cases hc : r.contains fpu v = true
    · refine ⟨step, (base+step, 60) :: rd, ?_, ?_, ?_⟩
      · have hgrp : (if has seq.view.flags flagDefaultGrp then none else some seq.view.grp) =
            r.group := by
          show (if has seq.flags flagDefaultGrp then none else some seq.grp.val) = _
          rw [h.dgrp, h.grp, Range.group]
          simp
        rw [length_cons, rangeLoop, hat, h.readSeq_eq hm1]
        simp [bind, Except.bind, hin, hc, hgrp]
      · intro hn
        rw [find?_cons_of_pos hc] at hn
        cases hn
      · exact forall_mem_cons.mpr ⟨hread, hrd1⟩
    · -- not in this range: the aligned length leads to the next one
      have hview : seq.view.len = seq.bytes.length := rfl
      have hnext : wrap32 (step+seq.view.len) = step+seq.bytes.length := by
        rw [hview, wrap32_of_mem (by omega) (by omega)]
      have hm2 : mem = (pre ++ seq.bytes) ++ seqsBytes seqs ++ post := by
        rw [hm1]
        simp
      have hat2 : base+(step+seq.bytes.length) = (pre ++ seq.bytes).length := by
        rw [length_append]
        omega
      obtain ⟨step', rd', hloop, hend, hrd'⟩ := ih hm2 hat2 (by omega) (by omega)
      refine ⟨step', (base+step, 60) :: (rd ++ rd'), ?_, ?_, ?_⟩
      · rw [← hnext] at hloop
        rw [length_cons, rangeLoop, find?_cons_of_neg hc, hat, h.readSeq_eq hm1]
        simp only [bind, Except.bind, hin, hc, hloop]
        rfl
      · intro hn
        rw [find?_cons_of_neg hc] at hn
        have := hend hn
        omega
      · refine forall_mem_cons.mpr ⟨hread, forall_mem_append.mpr ⟨hrd1, fun p hp => ?_⟩⟩
        apply (hrd' p hp).mono
        · simp
        · simp only [length_append]
          omega

end

structure BuiltRoute (fpu : Fpu) (r : Route) (t : RoutcritType) : Prop where
  bufferTypeId : t.routcrit.bufferTypeId = r.bufferTypeId
  fieldtypeid : t.routcrit.fieldtypeid = r.fieldtypeid
  fldid : t.routcrit.fldid = r.fldid
  rangesnr : t.routcrit.rangesnr = t.seq.length
  ranges : Forall₂ (Built fpu r.fieldtypeid.val) r.ranges t.seq

theorem ok_bind {α β ε : Type} (a : α) (f : α → Except ε β) : (Except.ok a >>= f) = f a := rfl

theorem forall₂_of_mapM {α β ε : Type} {f : α → Except ε β} {xs : List α} {ys : List β}
    (h : xs.mapM f = .ok ys) : Forall₂ (fun x y => f x = .ok y) xs ys := by
  induction xs generalizing ys with
  | nil =>
    cases h
    exact .nil
  | cons x xs ih =>
    rw [mapM_cons] at h
    obtain ⟨_, hx, h⟩ := bind_eq_ok.mp h
    obtain ⟨_, hxs, h⟩ := bind_eq_ok.mp h
    cases h
    exact .cons hx (ih hxs)

theorem exists_of_forall₂_right {α β : Type} {R : α → β → Prop} {xs : List α} {ys : List β}
    (h : Forall₂ R xs ys) {y : β} (hy : y ∈ ys) : ∃ x ∈ xs, R x y := by
  induction h with
  | nil => cases hy
  | cons hxy _ ih =>
    rcases mem_cons.mp hy with rfl | hy
    · exact ⟨_, by simp, hxy⟩
    · obtain ⟨x, hx, hr⟩ := ih hy
      exact ⟨x, mem_cons_of_mem _ hx, hr⟩

theorem Route.build_ok {fpu : Fpu} {c : CStr} {r : Route} {t : RoutcritType}
    (h : r.build fpu c = .ok t) : BuiltRoute fpu r t := by
  obtain ⟨_, hs, h⟩ := bind_eq_ok.mp h
  cases h
  exact ⟨rfl, rfl, rfl, rfl, (forall₂_of_mapM hs).imp (fun _ _ => Range.build_ok)⟩

theorem BuiltRoute.seqs_ok {fpu : Fpu} {r : Route} {t : RoutcritType} (h : BuiltRoute fpu r t) :
    ∀ seq ∈ t.seq, seq.Ok := by
  intro seq hseq
  obtain ⟨_, -, hx⟩ := exists_of_forall₂_right h.ranges hseq
  exact hx.ok

theorem Criterion.build_ok {fpu : Fpu} {c : Criterion} {el : RoutcritHash}
    (h : c.build fpu = .ok el) :
    el.criterion = c.criterion ∧ Forall₂ (BuiltRoute fpu) c.routes el.btypes := by
  obtain ⟨_, hs, h⟩ := bind_eq_ok.mp h
  cases h
  exact ⟨rfl, (forall₂_of_mapM hs).imp (fun _ _ => Route.build_ok)⟩

def Routcrit.view (t : Routcrit) : CritView where
  len := t.len
  field := t.field.val.take 30
  bufferTypeId := t.bufferTypeId.val
  fieldtypeid := t.fieldtypeid.val
  fldid := t.fldid.val
  rangesnr := t.rangesnr

variable {mem pre post : List UInt8}

theorem readCrit_eq {t : Routcrit} (hm : mem = pre ++ t.fields.flatten ++ post)
    (hlen : 0 ≤ t.len ∧ t.len < 2147483648)
    (hnr : 0 ≤ t.rangesnr ∧ t.rangesnr < 2147483648) :
    readCrit mem pre.length = .ok t.view := by
  have hpeek : peek (Abort.outside pre.length) mem pre.length 352 = .ok t.fields.flatten :=
    peek_eq (slice_eq_of_append hm rfl t.fields_length.symm)
  have hns : t.fields.map length = [16, 4, 4, 31, 1, 2, 257, 16, 1, 4, 4, 4, 8] := by
    simp [Routcrit.fields]
  have h2 : (t.fields.flatten.drop 20).take 4 = enc32 t.len := field_at hns 2 rfl rfl rfl
  have h3 : (t.fields.flatten.drop 24).take 31 = chars 31 t.field.val := field_at hns 3 rfl rfl rfl
  have h5 : (t.fields.flatten.drop 56).take 2 = enc16 t.bufferTypeId.val :=
    field_at hns 5 rfl rfl rfl
  have h9 : (t.fields.flatten.drop 332).take 4 = enc32 t.fieldtypeid.val :=
    field_at hns 9 rfl rfl rfl
  have h10 : (t.fields.flatten.drop 336).take 4 = enc32 t.fldid.val := field_at hns 10 rfl rfl rfl
  have h12 : (t.fields.flatten.drop 344).take 8 = enc64 t.rangesnr := field_at hns 12 rfl rfl rfl
  have hfield : cstr (chars 31 t.field.val) = t.field.val.take 30 :=
    cstr_chars (by decide) t.field.property
  simp only [readCrit, hpeek, bind, Except.bind, h2, h3, h5, h9, h10, h12, hfield, dec16_enc16,
    dec32_enc32_of_mem t.fieldtypeid.property.1 t.fieldtypeid.property.2,
    dec32_enc32_of_mem t.fldid.property.1 t.fldid.property.2,
    dec32_enc32_of_mem (show -2147483648 ≤ t.len by omega) hlen.2,
    dec64_enc64_of_mem (show -9223372036854775808 ≤ t.rangesnr by omega)
      (show t.rangesnr < 9223372036854775808 by omega)]
  rfl

theorem readId_eq {t : Routcrit} (hm : mem = pre ++ t.fields.flatten ++ post) :
    slice mem (pre.length+16) 4 = some (enc32 t.criterionid) := by
  have hm2 : mem = (pre ++ chars 16 t.criterion.val) ++ enc32 t.criterionid ++
      (enc32 t.len ++ t.tail ++ post) := by
    rw [hm, Routcrit.flatten_fields, Routcrit.head]
    simp
  exact slice_eq_of_append hm2 (by simp) (by simp)

variable {fpu : Fpu} {buf : Buffer} {id base : Int}

def RoutcritType.header (critid : Int) (t : RoutcritType) : Routcrit :=
  {t.routcrit with criterionid := critid, len := 352+(seqsBytes t.seq).length}

theorem RoutcritType.bytes_eq (critid : Int) (t : RoutcritType) :
    t.bytes critid = (t.header critid).fields.flatten ++ seqsBytes t.seq := rfl

theorem seqs_length_le {seqs : List Routcritseq} (hok : ∀ seq ∈ seqs, seq.Ok) :
    seqs.length ≤ (seqsBytes seqs).length := by
  induction seqs with
  | nil => simp
  | cons seq seqs ih =>
    have hseq := (hok seq (by simp)).bytes_bounds
    have hseqs := ih (fun s hs => hok s (by simp [hs]))
    rw [seqsBytes_cons, length_append, length_cons]
    omega

theorem BuiltRoute.readCrit_eq {r : Route} {t : RoutcritType} (h : BuiltRoute fpu r t)
    (hm : mem = pre ++ t.bytes id ++ post) (hsize : mem.length < 2147483648) :
    readCrit mem pre.length = .ok {
      len := (t.bytes id).length, field := t.routcrit.field.val.take 30
      bufferTypeId := r.bufferTypeId.val, fieldtypeid := r.fieldtypeid.val
      fldid := r.fldid.val, rangesnr := t.seq.length } := by
  have hlen := congrArg length hm
  have hbytes := t.bytes_length id
  have hcount := seqs_length_le h.seqs_ok
  simp only [length_append] at hlen
  have hm1 : mem = pre ++ (t.header id).fields.flatten ++ (seqsBytes t.seq ++ post) := by
    rw [hm, t.bytes_eq]
    simp
  have hl : (t.header id).len = (t.bytes id).length := by
    rw [hbytes]
    rfl
  have hnr : (t.header id).rangesnr = t.seq.length := h.rangesnr
  have hread := Ddr.readCrit_eq hm1 (by rw [hl]; omega) (by rw [hnr]; omega)
  rw [hread, Routcrit.view, hl, hnr, ← h.bufferTypeId, ← h.fieldtypeid, ← h.fldid]
  rfl

theorem firstRange_append {xs : List Route} (h : firstRange fpu buf xs = none) (ys : List Route) :
    firstRange fpu buf (xs ++ ys) = firstRange fpu buf ys := by
  rw [firstRange, findSome?_append]
  rw [firstRange] at h
  rw [h]
  rfl

theorem firstRange_cons (r : Route) (rs : List Route) : firstRange fpu buf (r :: rs) =
    (if sameType buf r then r.pick fpu buf else none).or (firstRange fpu buf rs) := by
  rw [firstRange, findSome?_cons]
  cases (if sameType buf r then r.pick fpu buf else none) <;> rfl

theorem more_iff {n : ℕ} {step : Int} (hn : base+step = n) (hsize : mem.length < 2147483648)
    (hle : n ≤ mem.length) : more mem base step = true ↔ n+352 < mem.length := by
  have h : usize (base+step+sizeofRoutcrit) = (n+352 : ℕ) := by
    simp only [usize, sizeofRoutcrit]
    omega
  rw [more, decide_eq_true_iff]
  omega

variable {ts : List RoutcritType}

/-- When the loop stops before it has seen all blocks, the rest is one block without ranges that
ends with the segment. -/
theorem unseen (buf : Buffer) {rest : List Route} (hb : Forall₂ (BuiltRoute fpu) rest ts)
    (hm : mem = pre ++ typesBytes id ts ++ post) (hstop : mem.length ≤ pre.length+352) :
    rest = [] ∨ ∃ r, rest = [r] ∧ r.pick fpu buf = none := by
  cases hb with
  | nil => exact .inl rfl
  | @cons r t rest ts h hb =>
    right
    have hlen := congrArg length hm
    have hbytes := t.bytes_length id
    simp only [length_append, typesBytes_cons] at hlen
    have hseqs : (seqsBytes t.seq).length = 0 := by omega
    have hts : (typesBytes id ts).length = 0 := by omega
    have hrest : rest = [] := by
      cases hb with
      | nil => rfl
      | @cons r2 t2 rest ts h2 hb =>
        have hbytes2 := t2.bytes_length id
        rw [typesBytes_cons, length_append] at hts
        omega
    have hnone : t.seq = [] := by
      cases hs : t.seq with
      | nil => rfl
      | cons seq =>
        have hseq := (h.seqs_ok seq (by simp [hs])).bytes_bounds
        rw [hs, seqsBytes_cons, length_append] at hseqs
        omega
    have hnil : r.ranges = [] := by
      have hr := h.ranges
      rw [hnone] at hr
      exact List.forall₂_nil_right_iff.mp hr
    refine ⟨r, by rw [hrest], ?_⟩
    rw [Route.pick, hnil]
    cases fieldValue buf r.fieldtypeid.val r.fldid.val <;> rfl

theorem id_behind (hm : mem = pre ++ post) (hroom : pre.length+352 < mem.length)
    (hpost : 352 < post.length → ∀ w, slice post 16 4 = some w → dec32 w ≠ id) :
    ∃ w, slice mem (pre.length+16) 4 = some w ∧ dec32 w ≠ id := by
  have hlen := congrArg length hm
  rw [length_append] at hlen
  have hw : slice post 16 4 = some ((post.drop 16).take 4) := if_pos (by omega)
  refine ⟨_, ?_, hpost (by omega) _ hw⟩
  rw [slice, if_pos (by omega), hm, drop_append, drop_eq_nil_of_le (by omega)]
  simp

/-- A read inside the blocks of the criterion, which end at `hi`, or of the id in the header that
follows them in the segment. -/
def InBlocks (size lo hi : ℕ) (rd : Read) : Prop :=
  Within lo hi rd ∨ rd = ((hi:Int)+16, 4) ∧ hi+352 < size

theorem InBlocks.mono {size lo lo' hi : ℕ} {rd : Read} (h : InBlocks size lo hi rd)
    (hlo : lo' ≤ lo) : InBlocks size lo' hi rd := by
  rcases h with h | h
  · exact .inl (h.mono hlo le_rfl)
  · exact .inr h

theorem firstRange_singleton (r : Route) :
    firstRange fpu buf [r] = if sameType buf r then r.pick fpu buf else none := by
  rw [firstRange_cons]
  exact Option.or_none

/-- One turn at a laid-out block. A range that contains the value ends the walk; a block without
one is stepped over, and the assertion holds where `chk_step` has come along. -/
theorem critLoop_turn {r : Route} {t : RoutcritType} (h : BuiltRoute fpu r t)
    (hubf : buf.typeId = bufTypeUbf) (hval : sameType buf r = true →
      (fieldValue buf r.fieldtypeid.val r.fldid.val).isSome = true)
    (hid : -2147483648 ≤ id ∧ id < 2147483648) (hm : mem = pre ++ t.bytes id ++ post)
    (hsize : mem.length < 2147483648) {step chk : Int} (hbase : 0 ≤ base) (hstep : 0 ≤ step)
    (hat : base+step = pre.length)
    (hchk : sameType buf r = true → r.pick fpu buf = none → chk = step) (fuel : ℕ) (had : Bool) :
    ∃ rd, (∀ p ∈ rd, Within pre.length (pre ++ t.bytes id).length p) ∧
      (∀ x, firstRange fpu buf [r] = some x →
        critLoop fpu mem buf id base (fuel+1) step chk had = .ok (.found x.group, rd)) ∧
      (firstRange fpu buf [r] = none → critLoop fpu mem buf id base (fuel+1) step chk had =
        if (pre ++ t.bytes id).length+352 < mem.length then
          (critLoop fpu mem buf id base fuel (step+(t.bytes id).length)
            (if sameType buf r then step+(t.bytes id).length else chk) (had || sameType buf r)).map
              (fun (res, rd') => (res, rd ++ rd'))
        else .ok (.noRange (had || sameType buf r), rd)) := by
  have hbytes := t.bytes_length id
  have hlen := congrArg length hm
  simp only [length_append] at hlen
  have hm1 : mem = pre ++ (t.header id).fields.flatten ++ (seqsBytes t.seq ++ post) := by
    rw [hm, t.bytes_eq]
    simp
  have hpeek : peek (Abort.outside (base+step+16)) mem (base+step+16) 4 = .ok (enc32 id) := by
    rw [show base+step+16 = (pre.length+16 : ℕ) by omega]
    exact peek_eq (readId_eq hm1)
  have hidread : dec32 (enc32 id) = id := dec32_enc32_of_mem hid.1 hid.2
  have hcrit := h.readCrit_eq hm hsize
  rw [← hat] at hcrit
  have hnext : wrap32 (step+(t.bytes id).length) = step+(t.bytes id).length :=
    wrap32_of_mem (by omega) (by omega)
  have hat2 : base+(step+(t.bytes id).length) = (pre ++ t.bytes id).length := by
    rw [length_append]
    omega
  have hmore := more_iff hat2 hsize (by rw [length_append]; omega)
  have hreads {rd : List Read} (hrd : ∀ p ∈ rd, Within pre.length (pre ++ t.bytes id).length p) :
      ∀ p ∈ (base+step+16, 4) :: (base+step, 352) :: rd,
        Within pre.length (pre ++ t.bytes id).length p := by
    simp only [forall_mem_cons, Within, length_append] at hrd ⊢
    exact ⟨by omega, by omega, hrd⟩
  rw [firstRange_singleton, critLoop, hpeek, ok_bind, hidread,
    if_neg (show ¬ id ≠ id by simp), hcrit, ok_bind]
  by_cases hs : sameType buf r = true
  · have htype : buf.typeId = r.bufferTypeId.val := (of_decide_eq_true hs).symm
    obtain ⟨v, hv⟩ := Option.isSome_iff_exists.mp (hval hs)
    have hpick : r.pick fpu buf = r.ranges.find? (Range.contains fpu v) := by
      rw [Route.pick, hv]
      rfl
    have hm2 : mem = (pre ++ (t.header id).fields.flatten) ++ seqsBytes t.seq ++ post := by
      rw [hm1]
      simp
    have hatr : base+(step+352) = (pre ++ (t.header id).fields.flatten).length := by
      rw [length_append, Routcrit.fields_length]
      omega
    have hwrap : wrap32 (step+sizeofRoutcrit) = step+352 := by
      rw [sizeofRoutcrit, wrap32_of_mem (by omega) (by omega)]
    obtain ⟨step', rd, hloop, hend, hrd⟩ := rangeLoop_eq h.ranges (fieldValue_of hv) hm2 hatr
      (by omega) (by omega)
    rw [← hwrap, ← hpick] at hloop
    refine ⟨_, hreads fun p hp => (hrd p hp).mono (by simp) ?_, ?_, ?_⟩
    · rw [length_append, Routcrit.fields_length, length_append]
      omega
    · intro x hx
      rw [if_pos hs] at hx
      rw [hx] at hloop
      rw [if_pos htype, if_neg (by simp [hubf]), hv]
      simp only [Int.toNat_natCast, hloop]
      rfl
    · intro hx
      rw [if_pos hs] at hx
      have hstep' : step' = step+(t.bytes id).length := by
        rw [hend (hpick ▸ hx)]
        omega
      rw [hx, hstep'] at hloop
      rw [if_pos htype, if_neg (by simp [hubf]), hv, hs, Bool.or_true]
      simp only [Int.toNat_natCast, hloop, ok_bind, Option.map_none, hchk hs hx, hnext, ne_eq,
        not_true, if_false, hmore]
      rfl
  · have htype : buf.typeId ≠ r.bufferTypeId.val := fun he => hs (decide_eq_true he.symm)
    refine ⟨_, hreads (forall_mem_nil _), fun x hx => ?_, fun _ => ?_⟩
    · rw [if_neg hs] at hx
      cases hx
    · rw [if_neg htype, eq_false_of_ne_true hs, Bool.or_false]
      simp only [hnext, hmore]
      rfl

/-- The walk over the blocks that are left. `seen` are the routes behind it; `had_type_match`
and the distance of `chk_step` from `offset_step` follow from them. -/
theorem critLoop_eq {seen rest : List Route} (hb : Forall₂ (BuiltRoute fpu) rest ts)
    (hubf : buf.typeId = bufTypeUbf) (hval : ∀ r ∈ rest, sameType buf r = true →
      (fieldValue buf r.fieldtypeid.val r.fldid.val).isSome = true)
    (hin : InStep fpu buf (seen ++ rest)) (hseen : firstRange fpu buf seen = none)
    (hid : -2147483648 ≤ id ∧ id < 2147483648) {pre : List UInt8}
    (hm : mem = pre ++ typesBytes id ts ++ post) (hsize : mem.length < 2147483648)
    (hpost : 352 < post.length → ∀ w, slice post 16 4 = some w → dec32 w ≠ id) {step chk : Int}
    (hbase : 0 ≤ base) (hstep : 0 ≤ step) (hat : base+step = pre.length)
    (hchk : (∀ r ∈ seen, sameType buf r = true) → chk = step)
    (henter : rest ≠ [] ∨ pre.length+352 < mem.length) {fuel : ℕ} (hfuel : rest.length < fuel) :
    ∃ rd, critLoop fpu mem buf id base fuel step chk (seen.any (sameType buf)) =
        .ok (endedOn fpu buf (seen ++ rest), rd) ∧
      ∀ p ∈ rd, InBlocks mem.length pre.length (pre.length+(typesBytes id ts).length) p := by
  obtain ⟨fuel, rfl⟩ : ∃ n, fuel = n+1 := ⟨fuel-1, by omega⟩
  induction hb generalizing seen pre step chk fuel with
  | nil =>
    -- behind the last block: only the id of what follows is read
    have hroom : pre.length+352 < mem.length := henter.resolve_left (by simp)
    have hm0 : mem = pre ++ post := by
      rw [hm]
      simp [typesBytes]
    obtain ⟨_, hread, hne⟩ := id_behind hm0 hroom hpost
    refine ⟨[(base+step+16, 4)], ?_, ?_⟩
    · rw [critLoop, show base+step+16 = (pre.length+16 : ℕ) by omega, peek_eq hread, ok_bind,
        if_pos hne, endedOn, append_nil, hseen]
    · intro p hp
      rw [mem_singleton.mp hp, hat]
      exact .inr ⟨rfl, hroom⟩
  | @cons r t rest ts h hb ih =>
    have happ := typesBytes_cons id t ts
    have hm1 : mem = pre ++ t.bytes id ++ (typesBytes id ts ++ post) := by
      rw [hm, happ]
      simp
    have hm3 : mem = (pre ++ t.bytes id) ++ typesBytes id ts ++ post := by
      rw [hm1]
      simp
    have hassoc : (seen ++ [r]) ++ rest = seen ++ r :: rest := by
      simp
    have hend : (pre ++ t.bytes id).length+(typesBytes id ts).length =
        pre.length+(typesBytes id (t :: ts)).length := by
      rw [happ]
      simp only [length_append]
      omega
    have hone := firstRange_append hseen [r]
    have hany : (seen ++ [r]).any (sameType buf) = (seen.any (sameType buf) || sameType buf r) := by
      simp
    -- nothing was stepped over before a block without a range, so the assertion holds
    obtain ⟨rd, hrd, hhit, hmiss⟩ := critLoop_turn h hubf (hval r (by simp)) hid hm1 hsize hbase
      hstep hat (fun hs hpick => hchk (hin seen r rest rfl hseen hs hpick)) fuel
      (seen.any (sameType buf))
    have hrd1 (p : Read) (hp : p ∈ rd) :
        InBlocks mem.length pre.length (pre.length+(typesBytes id (t :: ts)).length) p :=
      .inl ((hrd p hp).mono le_rfl (by omega))
    cases hx : firstRange fpu buf [r] with
    | some x =>
      refine ⟨rd, ?_, hrd1⟩
      rw [hhit x hx, endedOn, ← hassoc, firstRange, findSome?_append, ← firstRange, hone, hx]
      rfl
    | none =>
      rw [hx] at hone
      rw [hmiss hx, ← hany]
      split
      · -- the rest of the walk, with this route behind it
        rename_i hroom
        obtain ⟨fuel, rfl⟩ : ∃ n, fuel = n+1 := ⟨fuel-1, by rw [length_cons] at hfuel; omega⟩
        have hat2 : base+(step+(t.bytes id).length) = (pre ++ t.bytes id).length := by
          rw [length_append]
          omega
        have hskip : (∀ a ∈ seen ++ [r], sameType buf a = true) →
            (if sameType buf r then step+(t.bytes id).length else chk) =
              step+(t.bytes id).length := fun hall => if_pos (hall r (by simp))
        obtain ⟨rd', hrun, hrd'⟩ := ih (fun a ha => hval a (by simp [ha]))
          (by rw [hassoc]; exact hin) hone hm3 (by omega) hat2 hskip (.inr hroom) fuel
          (by rw [length_cons] at hfuel; omega)
        refine ⟨rd ++ rd', ?_, forall_mem_append.mpr ⟨hrd1, fun p hp => ?_⟩⟩
        · rw [hrun, hassoc]
          rfl
        · rw [← hend]
          exact (hrd' p hp).mono (by simp)
      · -- the loop stops here: what it has not seen changes nothing
        rename_i hroom
        refine ⟨rd, ?_, hrd1⟩
        rcases unseen buf hb hm3 (Nat.le_of_not_lt hroom) with rfl | ⟨r2, rfl, hpick⟩
        · rw [endedOn, hone]
        have hfirst : firstRange fpu buf (seen ++ [r, r2]) = none := by
          rw [← hassoc, firstRange_append hone, firstRange_singleton, hpick, ite_self]
        have hsame : (seen ++ [r, r2]).any (sameType buf) = (seen ++ [r]).any (sameType buf) := by
          by_cases hs2 : sameType buf r2 = true
          · have hall := hin (seen ++ [r]) r2 [] (by simp) hone hs2 hpick r (by simp)
            simp [hall]
          · simp [hs2]
        rw [endedOn, hfirst, hsame]

end Endurox.Ddr
