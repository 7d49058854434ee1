import Endurox.UBFLookup

/-!
The calls that change a buffer: `Badd`, `Baddfast`, `Bdel` and `Bchg`, and what `Badd` does to
the list of records.
-/

namespace Endurox.UBF

open Base List Option

def haveBufferSize (b : UBFH) (addSize : Int) : Bool :=
  addSize ≤ wrap32 (b.hdr.bufLen-b.hdr.bytesUsed)

/-- What an updating call returns: its status, the buffer, and the caller's remembered
position `last_start->last_checked` (`none` when `last_start` is NULL). -/
structure Upd where
  ret : Ret
  buf : UBFH
  lastStart : Option Int
  deriving DecidableEq

/-- Where `ndrx_Badd` starts to look for the place of insertion. `nextFld` is
`next_fld->last_checked`. The binary search leaves `p` at the first record when it writes no
position to it. -/
def addStart (b : UBFH) (bfldid : Int) (lastStart nextFld : Option Int) : Option Int :=
  match nextFld, lastStart with
  | some q, _ => some q
  | none, some q => some q
  | none, none =>
    if binarySearchOk bfldid then
      (getFldLocBinarySearch b bfldid (-1) .chg).map (fun l => l.lastChecked.getD 0)
    else (fldType bfldid).bind b.hdr.cacheOff

def addSeek (b : UBFH) (bfldid : Int) : ℕ → Int → Option Int → Option (Except BErr Int × Option Int)
  | 0, _, _ => none
  | fuel+1, p, lastStart =>
    if b.eof p then some (.ok p, lastStart)
    else do
      let cur ← b.ld32 p
      if cur ≤ bfldid then
        let lastStart ← rememberStart b lastStart p cur
        match fldType cur with
        | none => some (.error .balignerr, lastStart)
        | some t =>
          let (step, _) ← pNext t b p
          if b.checkAlign (p+step) then some (.error .balignerr, lastStart)
          else addSeek b bfldid fuel (p+step) lastStart
      else some (.ok p, lastStart)

def openGap (b : UBFH) (p n : Int) : Option UBFH :=
  if b.eof p then some b else b.memmove (p+n) p (b.usedEnd-p)

def addAt (b : UBFH) (t : FldType) (bfldid : Int) (data : List UInt8) (len p n : Int) :
    Option UBFH := do
  let b ← openGap b p n
  let b ← putData t b p bfldid data len
  some (b.grow bfldid n)

/-- `ndrx_Badd`; besides the usual results the position behind the new record, which is what
`next_fld->last_checked` becomes on success. -/
def ndrxBadd (b : UBFH) (bfldid : Int) (data : List UInt8) (len : Int)
    (lastStart nextFld : Option Int) : Option (Upd × Option Int) := do
  let t ← fldType bfldid
  let newDatSize ← getDSize t data len
  -- a failed validation or lookup has set an error here, a negative size does not
  if newDatSize < 0 then
    some (⟨.fail (if newDatSize = -1 then dSizeErr t else .bminval), b, lastStart⟩, nextFld)
  else if !haveBufferSize b newDatSize then some (⟨.fail .bnospace, b, lastStart⟩, nextFld)
  else do
    let p ← addStart b bfldid lastStart nextFld
    match ← addSeek b bfldid (b.mem.length+1) p lastStart with
    | (.error e, lastStart) => some (⟨.fail e, b, lastStart⟩, nextFld)
    | (.ok p, lastStart) =>
      let b ← addAt b t bfldid data len p newDatSize
      some (⟨.succeed, b, lastStart⟩, some (p+newDatSize))

def badd (b : UBFH) (bfldid : Int) (data : List UInt8) (len : Int) : Option Upd :=
  match validateEntry b bfldid 0 false with
  | .fail e => some ⟨.fail e, b, none⟩
  | .succeed => (ndrxBadd b bfldid data len none none).map Prod.fst

structure BfldLocInfo where
  lastChecked : Option Int
  lastBaddfast : Int
  deriving DecidableEq

def ndrxBaddfast (b : UBFH) (bfldid : Int) (data : List UInt8) (len : Int) (loc : BfldLocInfo) :
    Option (Upd × BfldLocInfo) :=
  if loc.lastBaddfast ≠ 0 ∧ bfldid < loc.lastBaddfast then
    some (⟨.fail .beinval, b, none⟩, loc)
  else do
    let (u, next) ← ndrxBadd b bfldid data len none loc.lastChecked
    some (u, ⟨next, if u.ret = .succeed then bfldid else loc.lastBaddfast⟩)

def baddfast (b : UBFH) (bfldid : Int) (data : List UInt8) (len : Int) (loc : BfldLocInfo) :
    Option (Upd × BfldLocInfo) :=
  match validateEntry b bfldid 0 false with
  | .fail e => some (⟨.fail e, b, none⟩, loc)
  | .succeed => ndrxBaddfast b bfldid data len loc

theorem gap_split {gap : List UInt8} {t : FldType} {n : ℕ} (hg : gap.length = recSize t n) :
    ∃ g0 g1 g2 pad, gap = g0 ++ g1 ++ g2 ++ pad ∧ g0.length = 4 ∧
      g1.length+4 = t.hdrSize.toNat ∧ g2.length = n ∧ pad.length = padLen n := by
  have hh := t.hdrSize_cases
  rw [recSize] at hg
  refine ⟨gap.take 4, (gap.drop 4).take (t.hdrSize.toNat-4),
    ((gap.drop 4).drop (t.hdrSize.toNat-4)).take n,
    ((gap.drop 4).drop (t.hdrSize.toNat-4)).drop n, ?_, ?_, ?_, ?_, ?_⟩
  · rw [append_assoc, take_append_drop, append_assoc, take_append_drop, take_append_drop]
  all_goals
    simp only [length_take, length_drop]
    omega

theorem Layout.validateEntry {b : UBFH} {rs : List Rec} {bfldid occ : Int} {t : FldType}
    (h : Layout b rs) (hid : 0 < bfldid) (hty : fldType bfldid = some t) (hocc : -1 ≤ occ) :
    UBF.validateEntry b bfldid occ false = .succeed := by
  rw [UBF.validateEntry, if_neg (by simp [h.magic]), if_neg (by simp; omega),
    if_neg (by simp [hty]), if_neg (by simp; omega)]

section

variable {b : UBFH} {rs : List Rec} {p bfldid len : Int} {t : FldType}
  {data v pre gap post : List UInt8}

theorem putData_rec (pre gap post : List UInt8) (hid : 0 < bfldid) (hty : fldType bfldid = some t)
    (hv : valueOf t data len = some v) (hlen : v.length < 2147483648)
    (hm : b.mem = pre ++ gap ++ post) (hp : p = (pre.length : ℕ))
    (hg : gap.length = recSize t v.length) :
    ∃ r : Rec, r.id = bfldid ∧ r.data = v ∧ r.size = gap.length ∧
      putData t b p bfldid data len = some {b with mem := pre ++ r.bytes ++ post} := by
  obtain ⟨_, _, _, pad, rfl, h0, h1, h2, h3⟩ := gap_split hg
  obtain ⟨head, hhead, hput⟩ : ∃ head, HeadOk t v.length head ∧ putData t b p bfldid data len =
      some {b with mem := pre ++ recImage bfldid head v pad ++ post} :=
    putData_gap hm hp h0 h1 h2 hv hlen
  let r : Rec := ⟨bfldid, t, head, v, pad, hid, hty, hhead, valueOf_ok hv, h3⟩
  refine ⟨r, rfl, rfl, ?_, hput⟩
  rw [hg, r.size_eq, recSize]

theorem UBFH.memmove_up {tail slack : List UInt8} {n : ℕ} {c : Int}
    (hm : b.mem = pre ++ tail ++ slack) (hp : p = (pre.length : ℕ)) (hc : c = (tail.length : ℕ))
    (hn : n ≤ slack.length) :
    b.memmove (p+n) p c =
      some {b with mem := pre ++ (tail ++ slack).take n ++ (tail ++ slack.drop n)} := by
  subst hp hc
  rw [UBFH.memmove]
  split
  · -- nothing to move: the gap is the head of the unused bytes
    have ht : tail = [] := length_eq_zero_iff.mp (by omega)
    subst ht
    have hmem : b.mem = pre ++ ([] ++ slack).take n ++ ([] ++ slack.drop n) := by
      rw [hm]
      simp
    rw [← hmem]
  · rw [← Nat.cast_add, Int.toNat_natCast, Int.toNat_natCast,
      Int.toNat_natCast, hm, move_up pre tail slack n hn]
    rfl

theorem Layout.slack_length (h : Layout b rs) {s : List UInt8} (hs : b.mem = recBytes rs ++ s) :
    (s.length:Int) = b.hdr.bufLen-b.hdr.bytesUsed := by
  have h1 := h.used
  have h2 := h.len
  rw [hs, length_append, ← recsSize] at h2
  omega

theorem Layout.memmove_up {A B : List Rec} (h : Layout b (A ++ B)) {n : ℕ}
    (hn : b.hdr.bytesUsed+n ≤ b.hdr.bufLen) :
    ∃ gap s, b.memmove ((recsSize A:Int)+n) (recsSize A) (b.usedEnd-recsSize A) =
        some {b with mem := recBytes A ++ gap ++ (recBytes B ++ s)} ∧ gap.length = n ∧
      (recBytes A ++ gap ++ (recBytes B ++ s)).length = b.mem.length := by
  obtain ⟨s, hs⟩ := h.slack
  have hslack := h.slack_length hs
  rw [recBytes_append] at hs
  have hcount : b.usedEnd-recsSize A = recsSize B := by
    rw [h.usedEnd, recsSize_append]
    omega
  refine ⟨(recBytes B ++ s).take n, s.drop n, ?_, ?_, ?_⟩
  · exact UBFH.memmove_up hs rfl hcount (by omega)
  · rw [length_take, length_append]
    omega
  · rw [hs]
    simp only [length_append, length_take, length_drop]
    omega

def Replaces (b b' : UBFH) (rs : List Rec) (bfldid : Int) (es : List Rec) : Prop :=
  Layout b' (setOccs Rec.id bfldid es rs) ∧ b'.hdr.bufLen = b.hdr.bufLen

theorem Layout.setOccs {es : List Rec} {d : Int} {m s : List UInt8} (h : Layout b rs)
    (hty : fldType bfldid = some t) (hne : t ≠ .int ∧ t ≠ .rfu0) (hes : ∀ e ∈ es, e.id = bfldid)
    (hd : d = (recsSize es:Int)-recsSize (occs Rec.id bfldid rs))
    (hm : m = recBytes (Base.setOccs Rec.id bfldid es rs) ++ s) (hl : m.length = b.mem.length) :
    Replaces b (UBFH.grow {b with mem := m} bfldid d) rs bfldid es := by
  refine ⟨?_, (Header.ubfCacheShift_frame _ bfldid d).2.1⟩
  have hlay : Layout b (below Rec.id bfldid rs ++ occs Rec.id bfldid rs ++
      above Rec.id bfldid rs) := by rwa [h.ordered.split]
  exact hlay.replace hty (fun r hr => (mem_occs.mp hr).2) hes (h.ordered.setOccs hes) hne hd
    ⟨s, hm⟩ hl

theorem Layout.haveBufferSize (h : Layout b rs) (n : Int) :
    UBF.haveBufferSize b n = decide (b.hdr.bytesUsed+n ≤ b.hdr.bufLen) := by
  have h1 := h.used
  have h2 := h.len
  have h3 := h.len_lt
  have h4 := h.size_le
  rw [UBF.haveBufferSize, wrap32_of_mem (by omega) (by omega)]
  apply decide_eq_decide.mpr
  omega

end

variable {b : UBFH} {rs pre rest : List Rec} {bfldid len : Int} {t : FldType}
  {data v : List UInt8} {ls nf : Option Int}

def AddOk (rs : List Rec) (bfldid q : Int) : Prop :=
  ∃ pre rest, rs = pre ++ rest ∧ q = recsSize pre ∧ ∀ y ∈ pre, y.id ≤ bfldid

/-- The seek stops behind the last field that is not larger. -/
theorem addSeek_spec (h : Layout b (pre ++ rest)) (hpre : ∀ y ∈ pre, y.id ≤ bfldid)
    (hrem : Remembered (pre ++ rest) pre bfldid ls) {fuel : ℕ} (hf : rest.length < fuel) :
    ∃ ls', addSeek b bfldid fuel (recsSize pre) ls =
        some (.ok ((recsSize (below Rec.id bfldid (pre ++ rest) ++
          occs Rec.id bfldid (pre ++ rest)) : ℕ) : Int), ls') ∧
      (ls' = none ↔ ls = none) ∧ (∀ q, ls' = some q → StartOk (pre ++ rest) bfldid q) := by
  obtain ⟨fuel, rfl⟩ : ∃ f, fuel = f+1 := ⟨fuel-1, by omega⟩
  induction rest generalizing pre ls fuel with
  | nil =>
    refine ⟨ls, ?_, Iff.rfl, hrem.startOk⟩
    rw [h.ordered.below_occs hpre (by simp)]
    rw [append_nil] at h
    rw [addSeek, if_pos h.eof_end]
  | cons r post ih =>
    by_cases hr : r.id ≤ bfldid
    · obtain ⟨ls1, hlast, hnone, hrem1⟩ := remember_step h hr hrem
      have hnext : (recsSize pre:Int)+r.size = recsSize (pre ++ [r]) := by simp
      have happ : pre ++ r :: post = (pre ++ [r]) ++ post := by simp
      have halign : b.checkAlign (recsSize (pre ++ [r])) = false := by
        rw [UBFH.checkAlign, h.usedEnd]
        simp
      obtain ⟨fuel, rfl⟩ : ∃ f, fuel = f+1 := ⟨fuel-1, by rw [length_cons] at hf; omega⟩
      have hpre1 : ∀ y ∈ pre ++ [r], y.id ≤ bfldid := by
        intro y hy
        rcases mem_append.mp hy with hy | hy
        · exact hpre y hy
        · rw [mem_singleton.mp hy]
          exact hr
      have hstep : addSeek b bfldid (fuel+1+1) (recsSize pre) ls =
          addSeek b bfldid (fuel+1) (recsSize (pre ++ [r])) ls1 := by
        rw [addSeek, if_neg (by simp [h.eof_pre])]
        simp only [h.ld32_id, bind_eq_bind, bind_some, if_pos hr, hlast]
        simp only [r.type_eq, h.pNext, bind_some, hnext, halign]
        rfl
      rw [happ] at h hrem1 ⊢
      obtain ⟨ls', hrun, hn', hs'⟩ := ih h hpre1 hrem1 fuel (by rw [length_cons] at hf; omega)
      exact ⟨ls', hstep.trans hrun, hn'.trans hnone, hs'⟩
    · refine ⟨ls, ?_, Iff.rfl, hrem.startOk⟩
      have hgt : ∀ y ∈ r :: post, bfldid < y.id := by
        intro y hy
        rcases mem_cons.mp hy with rfl | hy
        · omega
        · have := rel_of_pairwise_cons h.ordered.right hy
          omega
      rw [h.ordered.below_occs hpre hgt, addSeek, if_neg (by simp [h.eof_pre]), h.ld32_id]
      simp [if_neg hr]

/-- Every start the caller may give lies at or before the place to add. -/
theorem addStart_spec (h : Layout b rs) (hty : fldType bfldid = some t)
    (hne : t ≠ .int ∧ t ≠ .rfu0) (hls : ∀ q, ls = some q → StartOk rs bfldid q)
    (hnf : ∀ q, nf = some q → AddOk rs bfldid q) (hone : ls = none ∨ nf = none) :
    ∃ pre rest, rs = pre ++ rest ∧ addStart b bfldid ls nf = some (recsSize pre : Int) ∧
      (∀ y ∈ pre, y.id ≤ bfldid) ∧ Remembered rs pre bfldid ls := by
  cases nf with
  | some q =>
    obtain ⟨pre, rest, hrs, rfl, hle⟩ := hnf q rfl
    obtain rfl : ls = none := hone.resolve_right (by simp)
    exact ⟨pre, rest, hrs, rfl, hle, trivial⟩
  | none =>
    cases ls with
    | some q =>
      obtain ⟨pre, rest, hrs, rfl, hlt⟩ := hls q rfl
      exact ⟨pre, rest, hrs, rfl, fun y hy => (hlt y hy).le, pre, rest, hrs, rfl, hlt, Or.inl rfl⟩
    | none =>
      by_cases hb : t.binarySearchOk
      · have hb' : binarySearchOk bfldid = true := by rw [binarySearchOk_eq hty, hb]
        simp only [addStart, if_pos hb']
        by_cases hn : occs Rec.id bfldid rs = []
        · rw [getFldLocBinarySearch_absent h hb hty .chg hn]
          refine ⟨below Rec.id bfldid rs, above Rec.id bfldid rs, ?_, rfl, ?_, trivial⟩
          · have hs := h.ordered.split bfldid
            rw [hn, append_nil] at hs
            exact hs.symm
          · intro y hy
            exact (mem_below.mp hy).2.le
        · -- the search wrote no position, so the scan starts at the first record
          obtain ⟨_, hl, hchk⟩ := getFldLocBinarySearch_add h hb hty hn
          rw [hl, map_some, hchk]
          exact ⟨[], rs, rfl, rfl, by simp, trivial⟩
      · have hb' : ¬ binarySearchOk bfldid = true := by rwa [binarySearchOk_eq hty]
        have hs : searchStart b bfldid none = addStart b bfldid none none := by
          have hpos : bfldid/33554432 > 0 := by
            simp only [binarySearchOk, decide_eq_true_eq] at hb'
            omega
          simp [searchStart, if_pos hpos, addStart, if_neg hb']
        obtain ⟨_, hq, pre, rest, hrs, rfl, hlt⟩ := searchStart_none h hty hne
        exact ⟨pre, rest, hrs, hs ▸ hq, fun y hy => (hlt y hy).le, trivial⟩

theorem Layout.openGap {A B : List Rec} (h : Layout b (A ++ B)) (n : Int) :
    UBF.openGap b (recsSize A) n =
      b.memmove ((recsSize A:Int)+n) (recsSize A) (b.usedEnd-recsSize A) := by
  rw [UBF.openGap]
  split
  · rename_i he
    have hcount : b.usedEnd-recsSize A = 0 := by
      have hu := h.usedEnd
      rw [recsSize_append] at hu
      simp only [UBFH.eof, decide_eq_true_eq] at he
      omega
    rw [UBFH.memmove, if_pos hcount]
  · rfl

variable (h : Layout b rs) (hty : fldType bfldid = some t) (hv : valueOf t data len = some v)
  (hlen : v.length < 2147483648)
include h hty hv hlen

theorem addAt_spec (hid : 0 < bfldid) (hfit : b.hdr.bytesUsed+recSize t v.length ≤ b.hdr.bufLen) :
    ∃ r b', addAt b t bfldid data len
        (recsSize (below Rec.id bfldid rs ++ occs Rec.id bfldid rs)) (recSize t v.length) = some b' ∧
      r.id = bfldid ∧ r.data = v ∧ r.size = recSize t v.length ∧
      Replaces b b' rs bfldid (occs Rec.id bfldid rs ++ [r]) := by
  have hlay : Layout b ((below Rec.id bfldid rs ++ occs Rec.id bfldid rs) ++
      above Rec.id bfldid rs) := by rwa [h.ordered.split]
  obtain ⟨gap, s, hmove, hgap, hl⟩ := hlay.memmove_up hfit
  generalize hA : below Rec.id bfldid rs ++ occs Rec.id bfldid rs = A at *
  obtain ⟨r, hrid, hrdata, hrsize, hput⟩ := putData_rec
    (b := {b with mem := recBytes A ++ gap ++ (recBytes (above Rec.id bfldid rs) ++ s)})
    (p := (recsSize A : ℕ)) (recBytes A) gap _ hid hty hv hlen rfl rfl hgap
  have hrun : addAt b t bfldid data len (recsSize A) (recSize t v.length) =
      some (UBFH.grow {b with mem := recBytes A ++ r.bytes ++
        (recBytes (above Rec.id bfldid rs) ++ s)} bfldid (recSize t v.length)) := by
    rw [addAt, hlay.openGap, hmove]
    simp only [bind_eq_bind, bind_some, hput]
  refine ⟨r, _, hrun, hrid, hrdata, hrsize.trans hgap, ?_⟩
  apply h.setOccs (s := s) hty (valueOf_ok hv).ne
  · intro e he
    rcases mem_append.mp he with he | he
    · exact (mem_occs.mp he).2
    · rw [mem_singleton.mp he, hrid]
  · rw [recsSize_append, recsSize_cons, recsSize_nil]
    omega
  · rw [setOccs, ← append_assoc (below Rec.id bfldid rs), hA]
    simp
  · have hbytes : r.bytes.length = gap.length := hrsize
    rw [← hl]
    simp [hbytes]

/-- Where there is room a field is added behind its occurrences. -/
theorem ndrxBadd_fits (hid : 0 < bfldid) (hfit : b.hdr.bytesUsed+recSize t v.length ≤ b.hdr.bufLen)
    (hls : ∀ q, ls = some q → StartOk rs bfldid q)
    (hnf : ∀ q, nf = some q → AddOk rs bfldid q) (hone : ls = none ∨ nf = none) :
    ∃ r b' ls', ndrxBadd b bfldid data len ls nf =
        some (⟨.succeed, b', ls'⟩, some (recsSize (below Rec.id bfldid rs ++
          occs Rec.id bfldid rs ++ [r]) : Int)) ∧
      r.id = bfldid ∧ r.data = v ∧ r.size = recSize t v.length ∧
      Replaces b b' rs bfldid (occs Rec.id bfldid rs ++ [r]) ∧ (ls' = none ↔ ls = none) ∧
      (∀ q, ls' = some q → StartOk rs bfldid q) := by
  have hsz : (recSize t v.length : Int) < 2147483648 := by
    have h1 := h.used
    have h2 := h.len_lt
    omega
  have hget := getDSize_eq hv hlen
  rw [wrap32_of_mem (by omega) hsz] at hget
  obtain ⟨pre, rest, rfl, hq, hpre, hrem⟩ := addStart_spec h hty (valueOf_ok hv).ne hls hnf hone
  have hfuel : rest.length < b.mem.length+1 := by
    have h1 := h.size_le
    have h2 := length_le_recsSize rest
    rw [recsSize_append] at h1
    omega
  obtain ⟨ls', hseek, hnone, hstart⟩ := addSeek_spec h hpre hrem hfuel
  obtain ⟨r, b', hadd, hrid, hrdata, hrsize, hrep⟩ := addAt_spec h hty hv hlen hid hfit
  refine ⟨r, b', ls', ?_, hrid, hrdata, hrsize, hrep, hnone, hstart⟩
  have hhave : haveBufferSize b (recSize t v.length) = true := by
    rw [h.haveBufferSize, decide_eq_true hfit]
  rw [ndrxBadd]
  simp only [hty, hget, hq, hseek, hadd, hhave, bind_eq_bind, bind_some]
  have hend : ((recsSize (below Rec.id bfldid (pre ++ rest) ++
      occs Rec.id bfldid (pre ++ rest)) : ℕ) : Int)+recSize t v.length =
      recsSize (below Rec.id bfldid (pre ++ rest) ++ occs Rec.id bfldid (pre ++ rest) ++ [r]) := by
    rw [recsSize_append _ [r], recsSize_cons, recsSize_nil]
    omega
  rw [if_neg (by omega), if_neg (by simp), hend]

end Endurox.UBF
