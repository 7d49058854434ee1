import Endurox.BaseSearch
import Endurox.UBFSeek

/-!
The fast lookup `get_fld_loc_binary_search` for types of one record size, and where it agrees
with the linear search.
-/

namespace Endurox.UBF

open Base List Option

inductive GetLast
  | none | last | chg
  deriving DecidableEq

/-- The return value and what was written to the output pointers; `none` is nothing. A caller
that passes NULL for an output ignores it. -/
structure BinLoc where
  ret : Option Int
  lastOcc : Option Int
  lastChecked : Option Int
  lastMatch : Option Int
  deriving DecidableEq

/-- `start + step * i`: the product of two `int`s wraps, the address does not. -/
def idxAddr (start step i : Int) : Int := start+wrap32 (step*i)

def occFromIdxLoop (b : UBFH) (start f step : Int) : ℕ → Int → Int → Int → Option Int
  | 0, _, _, _ => none
  | fuel+1, i, occ, curFld =>
    if curFld = f ∧ start ≤ idxAddr start step i then
      if start ≤ idxAddr start step (i-1) then
        (b.ld32 (idxAddr start step (i-1))).bind (occFromIdxLoop b start f step fuel (i-1) (occ+1))
      else occFromIdxLoop b start f step fuel (i-1) (occ+1) curFld
    else some occ

def getFldOccFromIdx (b : UBFH) (start f i step : Int) : Option Int :=
  (b.ld32 (idxAddr start step i)).bind (occFromIdxLoop b start f step (b.mem.length+1) i (-1))

/-- The loop behind the `get_last` label of `get_field`: the occurrence number and the address
of the last record of `f`, and the address looked at after it. -/
def getLastLoop (b : UBFH) (start stop f step : Int) : ℕ → Int → Int → Option (Int × Int × Int)
  | 0, _, _ => none
  | fuel+1, i, iocc =>
    if idxAddr start step i < stop then
      if stop ≤ idxAddr start step (i+1) then
        some (iocc, idxAddr start step i, idxAddr start step (i+1))
      else (b.ld32 (idxAddr start step (i+1))).bind (fun w =>
        if f < w then some (iocc, idxAddr start step i, idxAddr start step (i+1))
        else if w = f then getLastLoop b start stop f step fuel (i+1) (iocc+1)
        else getLastLoop b start stop f step fuel i iocc)
    else some (iocc, idxAddr start step i, idxAddr start step i)

def getFieldLast (b : UBFH) (start stop f i step iocc : Int) (getLast : GetLast) :
    Option BinLoc := do
  let (iocc, cur, tmp) ← getLastLoop b start stop f step (b.mem.length+1) i iocc
  let cur := if getLast = .chg then tmp else cur
  some ⟨none, some iocc, some cur, some cur⟩

def getField (b : UBFH) (start stop f i step reqOcc : Int) (getLast : GetLast) : Option BinLoc := do
  let iocc ← getFldOccFromIdx b start f i step
  if getLast = .last then getFieldLast b start stop f i step iocc getLast
  else if reqOcc ≤ iocc then
    some ⟨some (idxAddr start step (i-(iocc-reqOcc))), none, none, none⟩
  else
    let cur := idxAddr start step (i+reqOcc-iocc)
    if stop ≤ cur then
      if getLast = .chg then getFieldLast b start stop f i step iocc getLast
      else some ⟨none, none, none, none⟩
    else do
      let curFld ← b.ld32 cur
      if curFld = f then some ⟨some cur, none, none, none⟩
      else if getLast = .chg then getFieldLast b start stop f i step iocc getLast
      else some ⟨none, none, none, none⟩

def lookForward (b : UBFH) (start stop bfldid step : Int) : ℕ → Int → Option Int
  | 0, _ => none
  | fuel+1, i =>
    if idxAddr start step i < stop then
      (b.ld32 (idxAddr start step i)).bind (fun w =>
        if w < bfldid then lookForward b start stop bfldid step fuel (i+1)
        else some (idxAddr start step i))
    else some (idxAddr start step i)

def lookBack (b : UBFH) (start bfldid step : Int) : ℕ → Int → Int → Option Int
  | 0, _, _ => none
  | fuel+1, i, lastOk =>
    if start < idxAddr start step i then
      (b.ld32 (idxAddr start step i)).bind (fun w =>
        if bfldid < w then lookBack b start bfldid step fuel (i-1) (idxAddr start step i)
        else some lastOk)
    else some lastOk

def searchRegion (b : UBFH) (bfldid occ : Int) (getLast : GetLast) (start stop step : Int) :
    Option BinLoc := do
  let last := wrap32 ((stop-start).tdiv step-1)
  let (found, probe) ← bsearchLoop (fun i => b.ld32 (idxAddr start step i)) bfldid
    (b.mem.length+1) 0 last none
  match found, probe with
  | true, some (middle, _) => getField b start stop bfldid middle step occ getLast
  | false, some (lastMiddle, fldGot) =>
    if fldGot < bfldid then do
      let cur ← lookForward b start stop bfldid step (b.mem.length+1) lastMiddle
      some ⟨none, none, some cur, none⟩
    else do
      let cur ← lookBack b start bfldid step (b.mem.length+1) lastMiddle
        (idxAddr start step lastMiddle)
      some ⟨none, none, some cur, none⟩
  | _, none => some ⟨none, none, some start, none⟩

section

-- how the search goes on once the binary search is done
variable {b : UBFH} {bfldid occ start stop step m k cur : Int} {gl : GetLast} {found : Bool}
  (h : bsearchLoop (fun i => b.ld32 (idxAddr start step i)) bfldid (b.mem.length+1) 0
    (wrap32 ((stop-start).tdiv step-1)) none = some (found, some (m, k)))
include h

theorem searchRegion_hit (hfound : found = true) :
    searchRegion b bfldid occ gl start stop step = getField b start stop bfldid m step occ gl := by
  unfold searchRegion
  simp [h, hfound]

theorem searchRegion_forward (hfound : found = false) (hk : k < bfldid)
    (hc : lookForward b start stop bfldid step (b.mem.length+1) m = some cur) :
    searchRegion b bfldid occ gl start stop step = some ⟨none, none, some cur, none⟩ := by
  unfold searchRegion
  simp [h, hfound, if_pos hk, hc]

theorem searchRegion_back (hfound : found = false) (hk : ¬ k < bfldid)
    (hc : lookBack b start bfldid step (b.mem.length+1) m (idxAddr start step m) = some cur) :
    searchRegion b bfldid occ gl start stop step = some ⟨none, none, some cur, none⟩ := by
  unfold searchRegion
  simp [h, hfound, if_neg hk, hc]

end

def regionStart (b : UBFH) (t : FldType) : Option Int :=
  if t.code > 0 then b.hdr.cacheOff t else some 0

def getFldLocBinarySearch (b : UBFH) (bfldid occ : Int) (getLast : GetLast) : Option BinLoc := do
  let t ← fldType bfldid
  let start ← regionStart b t
  let next ← FldType.ofCode (t.code+1)
  let stop ← b.hdr.cacheOff next
  if stop-start ≤ 0 then some ⟨none, none, some start, none⟩
  else do
    let (step, _) ← pNext t b start
    searchRegion b bfldid occ getLast start stop step

structure Region (b : UBFH) (t : FldType) (start step : ℕ) (mid : List Rec) : Prop where
  lay : ∃ pre post, Layout b (pre ++ mid ++ post) ∧ recsSize pre = start
  ordered : Ordered Rec.id mid
  size : ∀ r ∈ mid, r.size = step
  step_pos : 8 ≤ step
  total : start+step*mid.length < 2147483592

section

variable {b : UBFH} {t : FldType} {start step : ℕ} {mid : List Rec} {bfldid occ : Int}

theorem recsSize_const {rs : List Rec} {n : ℕ} (h : ∀ r ∈ rs, r.size = n) :
    recsSize rs = n*rs.length := by
  induction rs with
  | nil => simp
  | cons r rs ih =>
    rw [recsSize_cons, h r (by simp), ih (fun s hs => h s (by simp [hs])), length_cons]
    ring

variable {i : ℕ}

theorem Region.idxAddr_nat (h : Region b t start step mid) (hi : i ≤ mid.length) :
    idxAddr start step i = ((start+step*i : ℕ) : Int) := by
  have h1 := h.total
  have h2 : step*i ≤ step*mid.length := Nat.mul_le_mul_left _ hi
  rw [idxAddr, ← Nat.cast_mul, wrap32_of_mem (by omega) (by omega), Nat.cast_add]

theorem Region.ld32_idx (h : Region b t start step mid) (hi : i < mid.length) :
    b.ld32 (idxAddr start step i) = some mid[i].id := by
  obtain ⟨pre, post, hlay, rfl⟩ := h.lay
  have hsplit : pre ++ mid ++ post = (pre ++ mid.take i) ++ mid[i] :: (mid.drop (i+1) ++ post) := by
    have hm : mid = mid.take i ++ mid[i] :: mid.drop (i+1) := by
      rw [← drop_eq_getElem_cons hi, take_append_drop]
    rw [append_assoc pre (mid.take i), ← cons_append, ← append_assoc (mid.take i),
      ← hm, append_assoc]
  have hsize : recsSize (pre ++ mid.take i) = recsSize pre+step*i := by
    rw [recsSize_append, recsSize_const (fun r hr => h.size r (mem_of_mem_take hr)),
      length_take, Nat.min_eq_left hi.le]
  rw [hsplit] at hlay
  rw [h.idxAddr_nat hi.le, ← hsize]
  exact hlay.ld32_id

theorem Region.idxAddr_neg_one (h : Region b t start step mid) (hm : 0 < mid.length) :
    idxAddr start step (-1) = (start:Int)-step := by
  have h1 := h.total
  have h2 : step*1 ≤ step*mid.length := Nat.mul_le_mul_left _ hm
  rw [idxAddr, wrap32_of_mem (by omega) (by omega)]
  omega

variable {fuel : ℕ}

/-- The occurrence is counted back from the field that was hit. -/
theorem occFromIdxLoop_spec (h : Region b t start step mid) (hi : i < mid.length)
    (hid : mid[i].id = bfldid) (hf : i+2 ≤ fuel) (occ : Int) :
    occFromIdxLoop b start bfldid step fuel i occ bfldid =
      some (occ+1+(i-(below Rec.id bfldid mid).length)) := by
  have hstep := h.step_pos
  obtain ⟨fuel, rfl⟩ : ∃ f, fuel = f+1 := ⟨fuel-1, by omega⟩
  induction i generalizing fuel occ with
  | zero =>
    obtain ⟨fuel, rfl⟩ : ∃ f, fuel = f+1 := ⟨fuel-1, by omega⟩
    have hfirst : (below Rec.id bfldid mid).length = 0 := by
      rcases h.ordered.key_getElem bfldid hi with ⟨_, hlt⟩ | ⟨hle, _⟩ | ⟨_, hgt⟩ <;> omega
    have h0 := h.idxAddr_nat (i := 0) (by omega)
    rw [occFromIdxLoop, if_pos ⟨rfl, by rw [h0]; omega⟩]
    have hneg : ¬ (start:Int) ≤ idxAddr start step (((0:ℕ):Int)-1) := by
      rw [show ((0:ℕ):Int)-1 = -1 by rfl, h.idxAddr_neg_one hi]
      omega
    rw [if_neg hneg, occFromIdxLoop, if_neg (fun hh => hneg hh.2), hfirst]
    simp
  | succ i ih =>
    have ha := h.idxAddr_nat (i := i+1) hi.le
    have ha' := h.idxAddr_nat (i := i) (by omega)
    have hprev : ((i+1 : ℕ) : Int)-1 = (i : ℕ) := by omega
    have hi' : i < mid.length := by omega
    rw [occFromIdxLoop, if_pos ⟨rfl, by rw [ha]; omega⟩, hprev, if_pos (by rw [ha']; omega),
      h.ld32_idx hi', bind_some]
    by_cases hid' : mid[i].id = bfldid
    · obtain ⟨fuel, rfl⟩ : ∃ f, fuel = f+1 := ⟨fuel-1, by omega⟩
      rw [hid', @ih hi' hid' (occ+1) fuel (by omega)]
      exact congrArg some (by omega)
    -- the record before is of a smaller id: the count ends here
    obtain ⟨fuel, rfl⟩ : ∃ f, fuel = f+1 := ⟨fuel-1, by omega⟩
    rw [occFromIdxLoop, if_neg (fun hh => hid' hh.1)]
    have hfirst : (below Rec.id bfldid mid).length = i+1 := by
      rcases h.ordered.key_getElem bfldid hi with ⟨_, _⟩ | ⟨_, _⟩ | ⟨_, _⟩
      · omega
      · rcases h.ordered.key_getElem bfldid hi' with ⟨_, _⟩ | ⟨hle', _, he⟩ | ⟨hle', _⟩
        · omega
        · exact absurd he hid'
        · omega
      · omega
    rw [hfirst]
    simp

theorem Region.mid_lt (h : Region b t start step mid) : mid.length+2 ≤ b.mem.length+1 ∨
    mid.length = 0 := by
  obtain ⟨_, _, hlay, -⟩ := h.lay
  have h1 := hlay.size_le
  have h2 := recsSize_const h.size
  have h3 := h.step_pos
  have h4 : 8*mid.length ≤ step*mid.length := Nat.mul_le_mul_right _ h3
  simp only [recsSize_append] at h1
  omega

theorem getFldOccFromIdx_spec (h : Region b t start step mid) (hi : i < mid.length)
    (hid : mid[i].id = bfldid) : getFldOccFromIdx b start bfldid i step =
      some ((i:Int)-(below Rec.id bfldid mid).length) := by
  have hm := h.mid_lt
  rw [getFldOccFromIdx, h.ld32_idx hi, bind_some, hid, occFromIdxLoop_spec h hi hid (by omega)]
  exact congrArg some (by ring)

section

variable {first n i : ℕ} (h : Region b t start step mid)
  (hfirst : first = (below Rec.id bfldid mid).length)
  (hn : n = (occs Rec.id bfldid mid).length) (hi0 : first ≤ i) (hi1 : i < first+n)
include h hfirst hn

theorem Region.run_le : first+n ≤ mid.length := by
  have := congrArg length (h.ordered.split bfldid)
  simp only [length_append] at this
  omega

theorem Region.run_id {j : ℕ} (hj : j < mid.length) :
    mid[j].id = bfldid ↔ first ≤ j ∧ j < first+n := by
  rcases h.ordered.key_getElem bfldid hj with ⟨h1, h2⟩ | ⟨h1, h2, h3⟩ | ⟨h1, h2⟩
  · exact iff_of_false (by omega) (by omega)
  · exact iff_of_true h3 (by omega)
  · exact iff_of_false (by omega) (by omega)

include hi0 hi1

/-- Which record of the id the search hit does not matter: the occurrence asked for is looked
up at index `first+occ`, as far as the `int` product goes. -/
theorem getField_seek (occ : Int) {gl : GetLast} (hgl : gl ≠ .last) {miss : Option BinLoc}
    (hmiss : miss = if gl = .chg
      then getFieldLast b start ((start+step*mid.length : ℕ) : Int) bfldid i step ((i:Int)-first) gl
      else some ⟨none, none, none, none⟩) :
    getField b start ((start+step*mid.length : ℕ) : Int) bfldid i step occ gl =
    if occ < n then some ⟨some (idxAddr start step (first+occ)), none, none, none⟩
    else if ((start+step*mid.length : ℕ) : Int) ≤ idxAddr start step (first+occ) then miss
    else (b.ld32 (idxAddr start step (first+occ))).bind (fun w =>
      if w = bfldid then some ⟨some (idxAddr start step (first+occ)), none, none, none⟩
      else miss) := by
  have hlen := h.run_le hfirst hn
  have hid : mid[i].id = bfldid := (h.run_id hfirst hn (by omega)).mpr ⟨hi0, hi1⟩
  have hocc := getFldOccFromIdx_spec h (show i < mid.length by omega) hid
  rw [← hfirst] at hocc
  have e1 : (i:Int)-((i:Int)-first-occ) = first+occ := by ring
  have e2 : (i:Int)+occ-((i:Int)-first) = first+occ := by ring
  simp only [getField, hocc, bind_eq_bind, bind_some, e1, e2, if_neg hgl, ← hmiss]
  by_cases hle : occ ≤ (i:Int)-first
  · rw [if_pos hle, if_pos (by omega)]
  rw [if_neg hle]
  by_cases hlt : occ < n
  · -- a later occurrence of the run
    obtain ⟨j, hj⟩ : ∃ j : ℕ, (first:Int)+occ = j := ⟨(first+occ).toNat, by omega⟩
    have hjl : j < mid.length := by omega
    have hjid : mid[j].id = bfldid := (h.run_id hfirst hn hjl).mpr (by omega)
    have hsz : step*j < step*mid.length :=
      Nat.mul_lt_mul_of_pos_left hjl (by have := h.step_pos; omega)
    rw [hj, if_neg (by rw [h.idxAddr_nat hjl.le]; omega), h.ld32_idx hjl, bind_some,
      if_pos hjid, if_pos hlt]
  · rw [if_neg hlt]

end

def midKey (mid : List Rec) (i : ℕ) : Int := (mid[i]?.map Rec.id).getD 0

theorem midKey_eq (hi : i < mid.length) : midKey mid i = mid[i].id := by
  simp [midKey, getElem?_eq_getElem hi]

variable (h : Region b t start step mid)
include h

theorem Region.bsearch (bfldid : Int) (hm : 0 < mid.length) :
    ∃ res, bsearchLoop (fun i => b.ld32 (idxAddr start step i)) bfldid (b.mem.length+1) 0
        (wrap32 ((((start+step*mid.length : ℕ) : Int)-start).tdiv step-1)) none = some res ∧
      SearchResult (midKey mid) mid.length bfldid res := by
  have htot := h.total
  have hstep := h.step_pos
  have hml := h.mid_lt
  have hle : 8*mid.length ≤ step*mid.length := Nat.mul_le_mul_right _ hstep
  have hlast : wrap32 ((((start+step*mid.length : ℕ) : Int)-start).tdiv step-1) =
      (mid.length:Int)-1 := by
    have hd : ((start+step*mid.length : ℕ) : Int)-start = step*mid.length := by
      push_cast
      ring
    rw [hd, Int.mul_tdiv_cancel_left _ (by omega), wrap32_of_mem (by omega) (by omega)]
  rw [hlast]
  have hkey (i : ℕ) (hi : i < mid.length) :
      b.ld32 (idxAddr start step i) = some (midKey mid i) := by
    rw [midKey_eq hi]
    exact h.ld32_idx hi
  have hmono (i j : ℕ) (hij : i ≤ j) (hj : j < mid.length) : midKey mid i ≤ midKey mid j := by
    rw [midKey_eq hj, midKey_eq (by omega)]
    rcases hij.lt_or_eq with hlt | rfl
    · exact pairwise_iff_getElem.mp h.ordered i j (by omega) hj hlt
    · exact le_rfl
  have hres := bsearchLoop_spec (fun i => b.ld32 (idxAddr start step i)) bfldid (midKey mid)
    mid.length hkey hmono (b.mem.length+1) 0 mid.length none (Nat.zero_le _) le_rfl
    (fun i hi => by omega) (fun i hi hi' => by omega) (by omega) (by omega)
  simpa using hres

theorem lookForward_spec {first m : ℕ} (hm : m+1 = first)
    (hlen : first ≤ mid.length) (hlt : ∀ j (hj : j < mid.length), j < first → mid[j].id < bfldid)
    (hgt : ∀ j (hj : j < mid.length), first ≤ j → bfldid < mid[j].id) (hf : 2 ≤ fuel) :
    lookForward b start ((start+step*mid.length : ℕ) : Int) bfldid step fuel m =
      some (idxAddr start step first) := by
  have hstep := h.step_pos
  obtain ⟨fuel, rfl⟩ : ∃ f, fuel = f+2 := ⟨fuel-2, by omega⟩
  have hsz : step*m < step*mid.length := Nat.mul_lt_mul_of_pos_left (by omega) (by omega)
  have hm1 : (m:Int)+1 = (first : ℕ) := by omega
  rw [lookForward, if_pos (by rw [h.idxAddr_nat (by omega)]; omega),
    h.ld32_idx (show m < mid.length by omega), bind_some,
    if_pos (hlt m (by omega) (by omega)), hm1, lookForward]
  by_cases hend : first = mid.length
  · rw [if_neg (by rw [h.idxAddr_nat hlen, hend]; omega)]
  · have hl : first < mid.length := by omega
    have hsz' : step*first < step*mid.length := Nat.mul_lt_mul_of_pos_left hl (by omega)
    have := hgt first hl le_rfl
    rw [if_pos (by rw [h.idxAddr_nat hlen]; omega), h.ld32_idx hl, bind_some, if_neg (by omega)]

theorem lookBack_spec {first : ℕ} (hlen : first < mid.length)
    (hlt : ∀ j (hj : j < mid.length), j < first → mid[j].id < bfldid)
    (hgt : ∀ j (hj : j < mid.length), first ≤ j → bfldid < mid[j].id) (hf : 2 ≤ fuel) :
    lookBack b start bfldid step fuel first (idxAddr start step first) =
      some (idxAddr start step first) := by
  have hstep := h.step_pos
  obtain ⟨fuel, rfl⟩ : ∃ f, fuel = f+2 := ⟨fuel-2, by omega⟩
  have ha := h.idxAddr_nat hlen.le
  by_cases h0 : first = 0
  · rw [lookBack, if_neg (by rw [ha, h0]; omega)]
  obtain ⟨m, hm⟩ : ∃ m : ℕ, first = m+1 := ⟨first-1, by omega⟩
  have hm1 : (first:Int)-1 = (m : ℕ) := by omega
  have hsz : 0 < step*first := Nat.mul_pos (by omega) (by omega)
  have hl : m < mid.length := by omega
  have := hlt m hl (by omega)
  rw [lookBack, if_pos (by rw [ha]; omega), h.ld32_idx hlen, bind_some,
    if_pos (hgt first hlen le_rfl), hm1, lookBack]
  split
  · rw [h.ld32_idx hl, bind_some, if_neg (by omega)]
  · rfl

/-- For an absent field the search gives the place to add it. -/
theorem searchRegion_absent (hm : 0 < mid.length)
    (hn : occs Rec.id bfldid mid = []) (gl : GetLast) :
    searchRegion b bfldid occ gl start ((start+step*mid.length : ℕ) : Int) step =
      some ⟨none, none, some (idxAddr start step ((below Rec.id bfldid mid).length : ℕ)), none⟩ := by
  have hml := h.mid_lt
  obtain ⟨⟨found, _⟩, hrun, hres⟩ := h.bsearch bfldid hm
  have hne (j : ℕ) (hj : j < mid.length) : mid[j].id ≠ bfldid := by
    intro he
    have : mid[j] ∈ occs Rec.id bfldid mid := mem_occs.mpr ⟨getElem_mem hj, he⟩
    rw [hn] at this
    cases this
  cases found with
  | true =>
    obtain ⟨i, hi, hki, -⟩ := hres
    rw [midKey_eq hi] at hki
    exact absurd hki (hne i hi)
  | false =>
    obtain ⟨ins, hins, hlo, hhi, hprobe⟩ := hres
    have hlo' (j : ℕ) (hj : j < mid.length) (hji : j < ins) : mid[j].id < bfldid := by
      rw [← midKey_eq hj]
      exact hlo j hji
    have hhi' (j : ℕ) (hj : j < mid.length) (hji : ins ≤ j) : bfldid < mid[j].id := by
      rw [← midKey_eq hj]
      exact hhi j hji hj
    have hbl : (below Rec.id bfldid mid).length ≤ mid.length := length_filter_le _ _
    have hfirst : (below Rec.id bfldid mid).length = ins := by
      rcases lt_trichotomy (below Rec.id bfldid mid).length ins with hlt | he | hgt
      · have hj : (below Rec.id bfldid mid).length < mid.length := by omega
        have h1 := hlo' _ hj hlt
        rcases h.ordered.key_getElem bfldid hj with ⟨h2, -⟩ | ⟨-, h2, -⟩ | ⟨-, h2⟩
        · omega
        · rw [hn, length_nil] at h2
          omega
        · omega
      · exact he
      · have hj : ins < mid.length := by omega
        have h1 := hhi' _ hj le_rfl
        rcases h.ordered.key_getElem bfldid hj with ⟨-, h2⟩ | ⟨h2, -⟩ | ⟨h2, -⟩ <;> omega
    rw [hfirst]
    obtain ⟨_, hml', hprobe, hcase⟩ := hprobe.resolve_left (by omega)
    subst hprobe
    rcases hcase with ⟨hmi, hlt⟩ | ⟨rfl, hgt⟩
    · exact searchRegion_forward hrun rfl hlt (lookForward_spec h hmi hins hlo' hhi' (by omega))
    · exact searchRegion_back hrun rfl (not_lt.mpr hgt.le) (lookBack_spec h hml' hlo' hhi' (by omega))

theorem searchRegion_present
    (hn : occs Rec.id bfldid mid ≠ []) (occ : Int) (gl : GetLast) :
    ∃ i, (below Rec.id bfldid mid).length ≤ i ∧
      i < (below Rec.id bfldid mid).length+(occs Rec.id bfldid mid).length ∧
      searchRegion b bfldid occ gl start ((start+step*mid.length : ℕ) : Int) step =
        getField b start ((start+step*mid.length : ℕ) : Int) bfldid i step occ gl := by
  obtain ⟨_, hr⟩ := exists_mem_of_ne_nil _ hn
  obtain ⟨hrm, hrid⟩ := mem_occs.mp hr
  obtain ⟨j, hj, rfl⟩ := getElem_of_mem hrm
  obtain ⟨⟨found, _⟩, hrun, hres⟩ := h.bsearch bfldid (by omega)
  cases found with
  | true =>
    obtain ⟨i, hi, hki, rfl⟩ := hres
    rw [midKey_eq hi] at hki
    obtain ⟨h1, h2⟩ := (h.run_id rfl rfl hi).mp hki
    exact ⟨i, h1, h2, searchRegion_hit hrun rfl⟩
  | false =>
    obtain ⟨ins, -, hlo, hhi, -⟩ := hres
    rw [← midKey_eq hj] at hrid
    rcases lt_or_ge j ins with hlt | hge
    · exact absurd hrid (hlo j hlt).ne
    · exact absurd hrid (hhi j hge hj).ne'

end

variable {b : UBFH} {rs : List Rec} {t : FldType} {bfldid occ : Int}

def stepOf (t : FldType) : ℕ := (alignedSize t.size).toNat

theorem stepOf_eq (ht : t.binarySearchOk) :
    alignedSize t.size = stepOf t ∧ 8 ≤ stepOf t ∧ stepOf t ≤ 12 := by
  cases t <;> first | decide | cases ht

theorem rec_size_eq_stepOf (ht : t.binarySearchOk) {r : Rec} (hr : r.type = t) :
    r.size = stepOf t := by
  obtain ⟨_, _, _⟩ := fixed_size ht
  have hd : (r.data.length:Int) = t.size := by
    rcases r.data_ok.cases with h | h | h | h | ⟨-, h⟩ <;> rw [hr] at h
    iterate 4
      · rw [h] at ht
        cases ht
    · exact h
  have hs := r.size_aligned
  have ha := alignedSize_of_mem (d := t.size) (by omega) (by omega)
  rw [hr] at hs
  have he := (stepOf_eq ht).1
  omega

theorem below_code_succ (h : Ordered Rec.id rs) (c : Int) :
    below Rec.code (c+1) rs = below Rec.code c rs ++ occs Rec.code c rs := by
  have hs := (ordered_code h).split c
  have h1 : below Rec.code (c+1) (below Rec.code c rs) = below Rec.code c rs :=
    below_eq_self (fun r hr => by have := (mem_below.mp hr).2; omega)
  have h2 : below Rec.code (c+1) (occs Rec.code c rs) = occs Rec.code c rs :=
    below_eq_self (fun r hr => by have := (mem_occs.mp hr).2; omega)
  have h3 : below Rec.code (c+1) (above Rec.code c rs) = [] :=
    below_eq_nil (fun r hr => by have := (mem_above.mp hr).2; omega)
  conv => lhs; rw [← hs]
  rw [below_append, below_append, h1, h2, h3, append_nil]

theorem Layout.region (h : Layout b rs) (ht : t.binarySearchOk) :
    Region b t (sizeBelow t rs) (stepOf t) (occs Rec.code t.code rs) := by
  have hsplit := (ordered_code h.ordered).split t.code
  have hty (r : Rec) (hr : r ∈ occs Rec.code t.code rs) : r.type = t := by
    have hc : r.type.code = t.code := (mem_occs.mp hr).2
    have := FldType.ofCode_code r.type
    rw [hc, FldType.ofCode_code] at this
    exact (some.inj this).symm
  have hsize (r : Rec) (hr : r ∈ occs Rec.code t.code rs) : r.size = stepOf t :=
    rec_size_eq_stepOf ht (hty r hr)
  refine ⟨⟨_, _, by rwa [hsplit], rfl⟩, h.ordered.filter _, hsize, (stepOf_eq ht).2.1, ?_⟩
  have hlt := h.size_lt
  rw [← hsplit, recsSize_append, recsSize_append, recsSize_const hsize] at hlt
  unfold sizeBelow
  omega

theorem Layout.region_bounds (h : Layout b rs) (ht : t.binarySearchOk) :
    regionStart b t = some (sizeBelow t rs : Int) ∧
      ∃ next, FldType.ofCode (t.code+1) = some next ∧ b.hdr.cacheOff next =
        some ((sizeBelow t rs+stepOf t*(occs Rec.code t.code rs).length : ℕ) : Int) := by
  have hstart : regionStart b t = some (sizeBelow t rs : Int) := by
    have hc (off : Int) (ho : b.hdr.cacheOff t = some off) :
        b.hdr.cacheOff t = some (sizeBelow t rs : Int) := by
      rw [ho, h.cache t off ho]
    cases t with
    | short =>
      have : below Rec.code 0 rs = [] := below_eq_nil (fun r _ => by
        have := r.id_pos
        rw [r.code_eq]
        omega)
      simp [regionStart, FldType.code, sizeBelow, this]
    | long | char | float | double | ptr => exact hc _ rfl
    | string | carray | int | rfu0 | ubf | view => cases ht
  have hnext : ∃ next, FldType.ofCode (t.code+1) = some next ∧
      ∃ off, b.hdr.cacheOff next = some off := by
    cases t <;> first | exact ⟨_, rfl, _, rfl⟩ | cases ht
  obtain ⟨next, hcode, off, hoff⟩ := hnext
  refine ⟨hstart, next, hcode, ?_⟩
  rw [hoff, h.cache next off hoff, sizeBelow, FldType.code_of_ofCode hcode,
    below_code_succ h.ordered, recsSize_append, recsSize_const (h.region ht).size, sizeBelow]

theorem Layout.below_id (h : Layout b rs) (hty : fldType bfldid = some t) : below Rec.id bfldid rs =
      below Rec.code t.code rs ++ below Rec.id bfldid (occs Rec.code t.code rs) ∧
    occs Rec.id bfldid rs = occs Rec.id bfldid (occs Rec.code t.code rs) := by
  have hs := (ordered_code h.ordered).split t.code
  have hcode := fldType_eq_some.mp hty
  have hlo (r : Rec) (hr : r ∈ below Rec.code t.code rs) : r.id < bfldid := by
    have := (mem_below.mp hr).2
    rw [r.code_eq] at this
    omega
  have hhi (r : Rec) (hr : r ∈ above Rec.code t.code rs) : bfldid < r.id := by
    have := (mem_above.mp hr).2
    rw [r.code_eq] at this
    omega
  constructor
  · conv => lhs; rw [← hs]
    rw [below_append, below_append, below_eq_self hlo, below_eq_nil (fun r hr => (hhi r hr).le),
      append_nil]
  · conv => lhs; rw [← hs]
    rw [occs_append, occs_append, occs_eq_nil (fun r hr => (hlo r hr).ne),
      occs_eq_nil (fun r hr => (hhi r hr).ne'), append_nil, nil_append]

section

variable (h : Layout b rs) (ht : t.binarySearchOk) (hty : fldType bfldid = some t)
include h ht hty

theorem Layout.run_addr {j : ℕ} (hj : j ≤ (occs Rec.id bfldid rs).length) :
    idxAddr (sizeBelow t rs) (stepOf t)
        (((below Rec.id bfldid (occs Rec.code t.code rs)).length+j : ℕ) : Int) =
      recsSize (below Rec.id bfldid rs ++ (occs Rec.id bfldid rs).take j) := by
  obtain ⟨hb, ho⟩ := h.below_id hty
  have hr := h.region ht
  have hle : _ ≤ _ := hr.run_le (show _ = (below Rec.id bfldid _).length from rfl) rfl
  have hsz (l : List Rec) (hl : ∀ r ∈ l, r ∈ occs Rec.code t.code rs) :
      recsSize l = stepOf t*l.length := recsSize_const (fun r hm => hr.size r (hl r hm))
  rw [hr.idxAddr_nat (by rw [ho] at hj; omega), hb, ho, recsSize_append, recsSize_append,
    hsz (below _ _ _) (fun r hm => (mem_below.mp hm).1),
    hsz (List.take _ _) (fun r hm => (mem_occs.mp (mem_of_mem_take hm)).1),
    length_take, Nat.min_eq_left (ho ▸ hj), sizeBelow]
  ring_nf

theorem getFldLocBinarySearch_region (gl : GetLast) (hne : 0 < (occs Rec.code t.code rs).length) :
    getFldLocBinarySearch b bfldid occ gl = searchRegion b bfldid occ gl (sizeBelow t rs)
      ((sizeBelow t rs+stepOf t*(occs Rec.code t.code rs).length : ℕ) : Int) (stepOf t) := by
  obtain ⟨hstart, _, hnext, hstop⟩ := h.region_bounds ht
  obtain ⟨hstep, _, -⟩ := stepOf_eq ht
  have hpos : 0 < stepOf t*(occs Rec.code t.code rs).length := Nat.mul_pos (by omega) hne
  generalize hS : ((sizeBelow t rs+stepOf t*(occs Rec.code t.code rs).length : ℕ) : Int) = stop
    at hstop ⊢
  have hlt : ¬ stop-(sizeBelow t rs:Int) ≤ 0 := by omega
  simp only [getFldLocBinarySearch, hty, hstart, hnext, hstop, bind_eq_bind,
    bind_some, if_neg hlt, pNext_fixed ht, hstep]

theorem getFldLocBinarySearch_absent (gl : GetLast) (hn : occs Rec.id bfldid rs = []) :
    getFldLocBinarySearch b bfldid occ gl =
      some ⟨none, none, some (recsSize (below Rec.id bfldid rs) : Int), none⟩ := by
  obtain ⟨hb, ho⟩ := h.below_id hty
  have haddr := h.run_addr ht hty (Nat.zero_le _)
  rw [take_zero, append_nil, Nat.add_zero] at haddr
  by_cases hm : 0 < (occs Rec.code t.code rs).length
  · rw [getFldLocBinarySearch_region h ht hty gl hm,
      searchRegion_absent (h.region ht) hm (by rw [← ho, hn]), haddr]
  -- no record of the type: start and stop coincide
  have hm0 : occs Rec.code t.code rs = [] := length_eq_zero_iff.mp (by omega)
  obtain ⟨hstart, _, hnext, hstop⟩ := h.region_bounds ht
  rw [hm0, length_nil, Nat.mul_zero, Nat.add_zero] at hstop
  have hb0 : recsSize (below Rec.id bfldid rs) = sizeBelow t rs := by
    rw [hb, hm0]
    simp [below, sizeBelow]
  rw [hb0]
  simp [getFldLocBinarySearch, hty, hstart, hnext, hstop]

end

def fastAddr (rs : List Rec) (t : FldType) (bfldid occ : Int) : Int :=
  idxAddr (sizeBelow t rs) (stepOf t)
    ((below Rec.id bfldid (occs Rec.code t.code rs)).length+occ)

def regionEnd (rs : List Rec) (t : FldType) : ℕ :=
  sizeBelow t rs+stepOf t*(occs Rec.code t.code rs).length

section

variable (h : Layout b rs) (ht : t.binarySearchOk) (hty : fldType bfldid = some t)
  (hn : occs Rec.id bfldid rs ≠ [])
include h ht hty hn

theorem getFldLocBinarySearch_present (occ : Int) (gl : GetLast) :
    ∃ i, (below Rec.id bfldid (occs Rec.code t.code rs)).length ≤ i ∧
      i < (below Rec.id bfldid (occs Rec.code t.code rs)).length+(occs Rec.id bfldid rs).length ∧
      getFldLocBinarySearch b bfldid occ gl =
        getField b (sizeBelow t rs) (regionEnd rs t : Int) bfldid i (stepOf t) occ gl := by
  obtain ⟨_, ho⟩ := h.below_id hty
  have hm : 0 < (occs Rec.code t.code rs).length := by
    obtain ⟨_, hrm⟩ := exists_mem_of_ne_nil _ hn
    rw [ho] at hrm
    exact length_pos_of_mem (mem_occs.mp hrm).1
  rw [ho] at hn ⊢
  obtain ⟨i, hi0, hi1, hi⟩ := searchRegion_present (h.region ht) hn occ gl
  exact ⟨i, hi0, hi1, by rw [getFldLocBinarySearch_region h ht hty gl hm, hi]; rfl⟩

theorem getFldLocBinarySearch_none :
    getFldLocBinarySearch b bfldid occ .none = if occ < (occs Rec.id bfldid rs).length then
        some ⟨some (fastAddr rs t bfldid occ), none, none, none⟩
      else if (regionEnd rs t : Int) ≤ fastAddr rs t bfldid occ then
        some ⟨none, none, none, none⟩
      else (b.ld32 (fastAddr rs t bfldid occ)).bind (fun w =>
        if w = bfldid then some ⟨some (fastAddr rs t bfldid occ), none, none, none⟩
        else some ⟨none, none, none, none⟩) := by
  obtain ⟨_, hi0, hi1, hi⟩ := getFldLocBinarySearch_present h ht hty hn occ .none
  rw [(h.below_id hty).2] at hi1 ⊢
  rw [hi]
  exact getField_seek (h.region ht) rfl rfl hi0 hi1 occ (by simp) rfl

theorem getFldLocBinarySearch_add :
    ∃ l, getFldLocBinarySearch b bfldid (-1) .chg = some l ∧ l.lastChecked = none := by
  obtain ⟨_, hi0, hi1, hi⟩ := getFldLocBinarySearch_present h ht hty hn (-1) .chg
  rw [(h.below_id hty).2] at hi1
  refine ⟨_, hi.trans ((getField_seek (h.region ht) rfl rfl hi0 hi1 (-1) (by simp) rfl).trans
    (if_pos (by omega))), rfl⟩

end

end Endurox.UBF
