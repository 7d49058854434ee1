import Endurox.UBFBinSearch

/-! The read-only calls: `Bfind`, `Bget`, `Bpres` and `Blen`. -/

namespace Endurox.UBF

open Base

def binarySearchOk (bfldid : Int) : Bool := bfldid/33554432 < 5 ∨ bfldid/33554432 = 9

def locateFast (b : UBFH) (bfldid occ : Int) : Option (Option Int × Option BErr) :=
  (getFldLocBinarySearch b bfldid occ .none).map (fun l => (l.ret, none))

def locateSlow (b : UBFH) (bfldid occ : Int) : Option (Option Int × Option BErr) :=
  (getFldLoc b bfldid occ none).map (fun l => (l.ret, l.err))

def locate (b : UBFH) (bfldid occ : Int) : Option (Option Int × Option BErr) :=
  if binarySearchOk bfldid then locateFast b bfldid occ else locateSlow b bfldid occ

-- The calls below are parameterised by the lookup they make; `locate` is the library's own.
section

variable (look : UBFH → Int → Int → Option (Option Int × Option BErr))

/-- `ndrx_Bfind`: the data pointer and the payload length. For VIEW the pointer is the `data`
member of the `BVIEWFLD` returned. -/
def ndrxBfind (b : UBFH) (bfldid occ : Int) : Option (Except BErr (Int × Int)) := do
  let (ret, err) ← look b bfldid occ
  match ret with
  | none => some (.error (err.getD .bnotpres))
  | some p =>
    let t ← fldType bfldid
    let (_, len) ← pNext t b p
    some (.ok (p+t.hdrSize, len))

def ndrxBget (b : UBFH) (bfldid occ : Int) (len : Option Int) :
    Option (Except BErr (List UInt8 × Int)) := do
  let (ret, err) ← look b bfldid occ
  match ret with
  | none => some (.error (err.getD .bnotpres))
  | some p =>
    let t ← fldType bfldid
    getData t b p len

def ndrxBpres (b : UBFH) (bfldid occ : Int) : Option Bool := do
  let (ret, _) ← look b bfldid occ
  some ret.isSome

def ndrxBlen (b : UBFH) (bfldid occ : Int) : Option (Except BErr Int) := do
  let (ret, err) ← look b bfldid occ
  match ret with
  | none => some (.error (err.getD .bnotpres))
  | some p =>
    let t ← fldType bfldid
    let (_, len) ← pNext t b p
    some (.ok len)

end

def bfind (b : UBFH) (bfldid occ : Int) : Option (Except BErr (Int × Int)) :=
  match validateEntry b bfldid occ false with
  | .fail e => some (.error e)
  | .succeed => ndrxBfind locate b bfldid occ

section

variable {b : UBFH} {rs : List Rec} {t : FldType} {bfldid occ : Int}

theorem binarySearchOk_eq (hty : fldType bfldid = some t) :
    binarySearchOk bfldid = t.binarySearchOk := by
  rw [binarySearchOk, FldType.binarySearchOk, fldType_eq_some.mp hty]

def occAddr (rs : List Rec) (bfldid : Int) (j : ℕ) : ℕ :=
  recsSize (below Rec.id bfldid rs ++ (occs Rec.id bfldid rs).take j)

theorem locateSlow_spec (h : Layout b rs) (hty : fldType bfldid = some t)
    (hne : t ≠ .int ∧ t ≠ .rfu0) :
    locateSlow b bfldid occ = some (if 0 ≤ occ ∧ occ < (occs Rec.id bfldid rs).length
        then some (occAddr rs bfldid occ.toNat : Int) else none, none) := by
  obtain ⟨_, hq, hstart⟩ := searchStart_none h hty hne
  obtain ⟨_, hloc, hchk, -, hret, herr, -⟩ := getFldLoc_spec h hq hstart rfl (show _ = passed occ _ from rfl)
  rw [locateSlow, hloc, Option.map_some, hret, herr, hchk]
  split
  · rename_i ho
    have hp : passed occ (occs Rec.id bfldid rs).length = occ.toNat := by
      unfold passed
      rw [if_neg (by omega)]
      omega
    rw [hp, occAddr]
  · rfl

/-- When the fast lookup is as good as the scan: the field is absent, or the occurrence is not
-1 and the computed address is not taken for a record of the field. -/
def FastLookupOk (b : UBFH) (rs : List Rec) (t : FldType) (bfldid occ : Int) : Prop :=
  occs Rec.id bfldid rs = [] ∨ 0 ≤ occ ∧ (occ < (occs Rec.id bfldid rs).length ∨
      (regionEnd rs t : Int) ≤ fastAddr rs t bfldid occ ∨
      ∃ w, b.ld32 (fastAddr rs t bfldid occ) = some w ∧ w ≠ bfldid)

theorem locateFast_eq_iff (h : Layout b rs) (hty : fldType bfldid = some t)
    (ht : t.binarySearchOk) (hocc : -1 ≤ occ) :
    locateFast b bfldid occ = locateSlow b bfldid occ ↔ FastLookupOk b rs t bfldid occ := by
  have hne : t ≠ .int ∧ t ≠ .rfu0 := by
    refine ⟨?_, ?_⟩ <;> rintro rfl <;> cases ht
  rw [locateSlow_spec h hty hne, locateFast, FastLookupOk]
  by_cases hn : occs Rec.id bfldid rs = []
  · rw [getFldLocBinarySearch_absent h ht hty .none hn, hn]
    simp
  rw [getFldLocBinarySearch_none h ht hty hn]
  by_cases hlt : occ < (occs Rec.id bfldid rs).length
  · rw [if_pos hlt]
    by_cases h0 : 0 ≤ occ
    · -- the occurrence exists: both addresses are its place
      have haddr := h.run_addr ht hty (j := occ.toNat) (by omega)
      have hj : ((below Rec.id bfldid (occs Rec.code t.code rs)).length+occ.toNat : ℕ) =
          ((below Rec.id bfldid (occs Rec.code t.code rs)).length : Int)+occ := by omega
      have hf : fastAddr rs t bfldid occ = (occAddr rs bfldid occ.toNat : Int) := by
        rw [fastAddr, occAddr, ← haddr, hj]
      rw [hf]
      simp [h0, hlt]
    · rw [if_neg (by omega)]
      simp [hn, h0]
  · have h0 : 0 ≤ occ := by omega
    simp only [hn, h0, hlt]
    by_cases hstop : (regionEnd rs t : Int) ≤ fastAddr rs t bfldid occ
    · rw [if_pos hstop]
      simp [hstop]
    cases b.ld32 (fastAddr rs t bfldid occ) with
    | none => simp [hstop]
    | some w =>
      simp only [hstop]
      by_cases hw : w = bfldid <;> simp [hw]

/-- The fast lookup and the linear scan return the same address, and with it every call that
reads through the lookup gives the same answer. -/
def LookupsAgree (b : UBFH) (bfldid occ : Int) : Prop :=
  locateFast b bfldid occ = locateSlow b bfldid occ ∧
    ndrxBfind locate b bfldid occ = ndrxBfind locateSlow b bfldid occ ∧
    (∀ len, ndrxBget locate b bfldid occ len = ndrxBget locateSlow b bfldid occ len) ∧
    ndrxBpres locate b bfldid occ = ndrxBpres locateSlow b bfldid occ ∧
    ndrxBlen locate b bfldid occ = ndrxBlen locateSlow b bfldid occ

/-- The calls that look a field up give what the scan gives just when the fast lookup is as good. -/
theorem lookups_agree_iff (h : Layout b rs) (hty : fldType bfldid = some t)
    (ht : t.binarySearchOk) (hocc : -1 ≤ occ) :
    LookupsAgree b bfldid occ ↔ FastLookupOk b rs t bfldid occ := by
  rw [← locateFast_eq_iff h hty ht hocc]
  constructor
  · intro hl
    exact hl.1
  intro he
  have hloc : locate b bfldid occ = locateSlow b bfldid occ := by
    rw [locate, binarySearchOk_eq hty, if_pos ht, he]
  refine ⟨he, ?_, ?_, ?_, ?_⟩
  · simp [ndrxBfind, hloc]
  · intro len
    simp [ndrxBget, hloc]
  · simp [ndrxBpres, hloc]
  · simp [ndrxBlen, hloc]

end

def stringRec (s : List UInt8) (hs : 0 ∉ s) : Rec :=
  ⟨167772161, .string, enc32 (List.length (s ++ [(0:UInt8)])), s ++ [0],
    List.replicate (padLen (s ++ [0]).length) 0, by decide, by decide, rfl, ⟨s, hs, rfl⟩,
    List.length_replicate⟩

theorem zero_not_mem_letter : (0:UInt8) ∉ [(65:UInt8)] := by decide

def shortRecs : List Rec :=
  [⟨1, .short, [], [5, 0], [0, 0], by decide, by decide, rfl, rfl, rfl⟩,
   ⟨1, .short, [], [7, 0], [0, 0], by decide, by decide, rfl, rfl, rfl⟩,
   ⟨2, .short, [], [9, 0], [0, 0], by decide, by decide, rfl, rfl, rfl⟩,
   stringRec [65] zero_not_mem_letter]

def shortBuf : UBFH where
  hdr := {((Header.init 108).mapCacheFrom .short (fun _ => 24)).mapCacheFrom .string (fun _ => 36) with
    bytesUsed := 92}
  mem := recBytes shortRecs ++ List.replicate 16 0

theorem shortBuf_layout : Layout shortBuf shortRecs where
  slack := ⟨_, rfl⟩
  used := by decide
  len := by decide
  len_lt := by decide
  magic := by decide
  ordered := by simp [Ordered, shortRecs, stringRec]
  cache := by
    intro t off h
    cases t <;> first | (cases h; decide) | cases h

theorem lookups_agree_iff_shortBuf :
    LookupsAgree shortBuf 1 1 ↔ FastLookupOk shortBuf shortRecs .short 1 1 :=
  lookups_agree_iff shortBuf_layout (by decide) (by decide) (by decide)

/-- Occurrence -1 of a present field: the scan finds nothing, the fast lookup returns the
address before the first record. Occurrence 2^29 wraps around to the first record. -/
theorem lookups_disagree_shortBuf : WellFormed shortBuf ∧ ¬ LookupsAgree shortBuf 1 (-1) ∧
    ¬ LookupsAgree shortBuf 1 536870912 := by
  refine ⟨⟨_, shortBuf_layout⟩, ?_, ?_⟩
  · intro h
    have : locateFast shortBuf 1 (-1) ≠ locateSlow shortBuf 1 (-1) := by decide
    exact this h.1
  · intro h
    have : locateFast shortBuf 1 536870912 ≠ locateSlow shortBuf 1 536870912 := by
      decide +kernel
    exact this h.1

end Endurox.UBF
