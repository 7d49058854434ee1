import Endurox.BaseMultimap
import Endurox.UBFWrite

/-!
The representation invariant: the used bytes are a list of records in id order, and the
header's counters and type caches say where they lie.
-/

namespace Endurox.UBF

open Base

def recBytes (rs : List Rec) : List UInt8 := rs.flatMap Rec.bytes

def recsSize (rs : List Rec) : ℕ := (recBytes rs).length

@[simp] theorem recBytes_append (rs rs' : List Rec) :
    recBytes (rs ++ rs') = recBytes rs ++ recBytes rs' := by
  simp [recBytes]

@[simp] theorem recBytes_cons (r : Rec) (rs : List Rec) :
    recBytes (r :: rs) = r.bytes ++ recBytes rs := by
  simp [recBytes]

@[simp] theorem recsSize_nil : recsSize [] = 0 := rfl

@[simp] theorem recsSize_append (rs rs' : List Rec) :
    recsSize (rs ++ rs') = recsSize rs+recsSize rs' := by
  simp [recsSize]

@[simp] theorem recsSize_cons (r : Rec) (rs : List Rec) :
    recsSize (r :: rs) = r.size+recsSize rs := by
  simp [recsSize, Rec.size]

theorem length_le_recsSize (rs : List Rec) : rs.length ≤ recsSize rs := by
  induction rs with
  | nil => simp
  | cons r =>
    have := r.size_pos
    rw [List.length_cons, recsSize_cons]
    omega

def Rec.code (r : Rec) : Int := r.type.code

theorem Rec.code_eq (r : Rec) : r.code = r.id/33554432 := (fldType_eq_some.mp r.type_eq).symm

theorem Rec.code_le {r s : Rec} (h : r.id ≤ s.id) : r.code ≤ s.code := by
  rw [r.code_eq, s.code_eq]
  omega

theorem Rec.type_of_id {r : Rec} {bfldid : Int} {t : FldType} (h : r.id = bfldid)
    (ht : fldType bfldid = some t) : r.type = t := by
  have := r.type_eq
  rw [h, ht] at this
  exact (Option.some.inj this).symm

def sizeBelow (t : FldType) (rs : List Rec) : ℕ := recsSize (below Rec.code t.code rs)

structure Layout (b : UBFH) (rs : List Rec) : Prop where
  slack : ∃ s, b.mem = recBytes rs ++ s
  used : b.hdr.bytesUsed = 56+recsSize rs
  len : b.hdr.bufLen = 56+b.mem.length
  len_lt : b.hdr.bufLen < 2147483648
  magic : b.hdr.magic = ubfMagic
  ordered : Ordered Rec.id rs
  cache : ∀ t off, b.hdr.cacheOff t = some off → off = sizeBelow t rs

def WellFormed (b : UBFH) : Prop := ∃ rs, Layout b rs

namespace Header

variable (h : Header)

theorem mapCacheFrom_frame (t : FldType) (f : Int → Int) :
    (h.mapCacheFrom t f).bytesUsed = h.bytesUsed ∧ (h.mapCacheFrom t f).bufLen = h.bufLen ∧
      (h.mapCacheFrom t f).magic = h.magic :=
  ⟨rfl, rfl, rfl⟩

theorem cacheOff_mapCacheFrom {t : FldType} (ht : t ≠ .int ∧ t ≠ .rfu0) (f : Int → Int)
    (s : FldType) : (h.mapCacheFrom t f).cacheOff s =
      if t.code < s.code then (h.cacheOff s).map f else h.cacheOff s := by
  cases t <;> first | (exact absurd rfl ht.1) | (exact absurd rfl ht.2) |
    (cases s <;> simp [cacheOff, mapCacheFrom, FldType.code])

theorem ubfCacheShift_frame (bfldid d : Int) : (h.ubfCacheShift bfldid d).bytesUsed = h.bytesUsed ∧
      (h.ubfCacheShift bfldid d).bufLen = h.bufLen ∧
      (h.ubfCacheShift bfldid d).magic = h.magic := by
  unfold ubfCacheShift
  split
  · exact ⟨rfl, rfl, rfl⟩
  · exact mapCacheFrom_frame h _ _

end Header

theorem DataOk.ne {t : FldType} {v : List UInt8} (h : DataOk t v) : t ≠ .int ∧ t ≠ .rfu0 := by
  refine ⟨?_, ?_⟩ <;> rintro rfl <;> exact h

variable {b : UBFH} {rs pre post : List Rec} {r : Rec}

theorem Layout.usedEnd (h : Layout b rs) : b.usedEnd = recsSize rs := by
  rw [UBFH.usedEnd, h.used]
  omega

theorem Layout.size_le (h : Layout b rs) : recsSize rs ≤ b.mem.length := by
  obtain ⟨_, hs⟩ := h.slack
  rw [hs, recsSize, List.length_append]
  omega

theorem Layout.size_lt (h : Layout b rs) : recsSize rs < 2147483592 := by
  have h1 := h.size_le
  have h2 := h.len
  have h3 := h.len_lt
  omega

theorem Layout.rec_size_lt (h : Layout b (pre ++ r :: post)) : r.size < 2147483592 := by
  have := h.size_lt
  rw [recsSize_append, recsSize_cons] at this
  omega

theorem Layout.recAt (h : Layout b (pre ++ r :: post)) : RecAt b (recsSize pre) r := by
  obtain ⟨s, hs⟩ := h.slack
  refine ⟨recBytes pre, recBytes post ++ s, ?_, rfl⟩
  rw [hs]
  simp

theorem Layout.eof_pre (h : Layout b (pre ++ r :: post)) : b.eof (recsSize pre) = false := by
  have := r.size_pos
  rw [UBFH.eof, h.usedEnd, recsSize_append, recsSize_cons]
  simp only [decide_eq_false_iff_not]
  omega

theorem Layout.eof_end (h : Layout b rs) : b.eof (recsSize rs) = true := by
  rw [UBFH.eof, h.usedEnd]
  simp

theorem Layout.ld32_id (h : Layout b (pre ++ r :: post)) : b.ld32 (recsSize pre) = some r.id :=
  h.recAt.ld32_id

theorem Layout.pNext (h : Layout b (pre ++ r :: post)) :
    UBF.pNext r.type b (recsSize pre) = some ((r.size:Int), (r.data.length:Int)) :=
  h.recAt.pNext (by have := h.rec_size_lt; omega)

theorem ordered_code (h : Ordered Rec.id rs) : Ordered Rec.code rs :=
  List.Pairwise.imp (fun hab => Rec.code_le hab) h

theorem sizeBelow_replace (pre post : List Rec) {old new : List Rec} {bfldid : Int} {t : FldType}
    (ht : fldType bfldid = some t) (hold : ∀ r ∈ old, r.id = bfldid)
    (hnew : ∀ r ∈ new, r.id = bfldid) (s : FldType) :
    (sizeBelow s (pre ++ new ++ post) : Int) = sizeBelow s (pre ++ old ++ post) +
      (if t.code < s.code then (recsSize new:Int)-recsSize old else 0) := by
  have hcode {l : List Rec} (hl : ∀ r ∈ l, r.id = bfldid) : ∀ r ∈ l, r.code = t.code := by
    intro r hr
    rw [Rec.code, Rec.type_of_id (hl r hr) ht]
  simp only [sizeBelow, below_append, recsSize_append]
  split
  · rename_i hlt
    rw [below_eq_self (fun r hr => (hcode hnew r hr).trans_lt hlt),
      below_eq_self (fun r hr => (hcode hold r hr).trans_lt hlt)]
    omega
  · rename_i hge
    rw [below_eq_nil (fun r hr => (not_lt.mp hge).trans_eq (hcode hnew r hr).symm),
      below_eq_nil (fun r hr => (not_lt.mp hge).trans_eq (hcode hold r hr).symm)]
    simp

def UBFH.grow (b : UBFH) (bfldid n : Int) : UBFH :=
  {b with hdr := {b.hdr with bytesUsed := wrap32 (b.hdr.bytesUsed+n)}.ubfCacheShift bfldid n}

/-- The one way a buffer changes: the run of one id is replaced in the bytes, and the
counters move by the difference in size. -/
theorem Layout.replace {old new : List Rec} {bfldid d : Int} {t : FldType} {m : List UInt8}
    (h : Layout b (pre ++ old ++ post)) (ht : fldType bfldid = some t)
    (hold : ∀ r ∈ old, r.id = bfldid) (hnew : ∀ r ∈ new, r.id = bfldid)
    (ho : Ordered Rec.id (pre ++ new ++ post)) (hne : t ≠ .int ∧ t ≠ .rfu0)
    (hd : d = (recsSize new:Int)-recsSize old)
    (hm : ∃ s, m = recBytes (pre ++ new ++ post) ++ s) (hl : m.length = b.mem.length) :
    Layout (UBFH.grow {b with mem := m} bfldid d) (pre ++ new ++ post) := by
  have hused := h.used
  have hlen := h.len
  have hlt := h.len_lt
  have hsz : recsSize (pre ++ new ++ post) ≤ b.mem.length := by
    obtain ⟨s, hs⟩ := hm
    rw [← hl, hs, recsSize, List.length_append]
    omega
  have hdiff : (recsSize (pre ++ new ++ post):Int) = recsSize (pre ++ old ++ post)+d := by
    simp only [recsSize_append]
    omega
  obtain ⟨f1, f2, f3⟩ := Header.ubfCacheShift_frame
    {b.hdr with bytesUsed := wrap32 (b.hdr.bytesUsed+d)} bfldid d
  refine ⟨hm, ?_, ?_, ?_, ?_, ho, ?_⟩
  · show (Header.ubfCacheShift _ bfldid d).bytesUsed = _
    rw [f1]
    show wrap32 (b.hdr.bytesUsed+d) = _
    rw [wrap32_of_mem (by omega) (by omega)]
    omega
  · show (Header.ubfCacheShift _ bfldid d).bufLen = 56+(m.length:Int)
    rw [f2, hl]
    exact hlen
  · show (Header.ubfCacheShift _ bfldid d).bufLen < _
    rw [f2]
    exact hlt
  · show (Header.ubfCacheShift _ bfldid d).magic = _
    rw [f3]
    exact h.magic
  · intro s off hoff
    have hoff : (Header.ubfCacheShift {b.hdr with bytesUsed := wrap32 (b.hdr.bytesUsed+d)}
      bfldid d).cacheOff s = some off := hoff
    simp only [Header.ubfCacheShift, ht] at hoff
    rw [Header.cacheOff_mapCacheFrom _ hne] at hoff
    have hb := sizeBelow_replace pre post ht hold hnew s
    have hle (l : List Rec) : sizeBelow s l ≤ recsSize l := by
      exact (List.Sublist.flatMap List.filter_sublist _).length_le
    have hle2 := hle (pre ++ old ++ post)
    split at hoff
    · rename_i hcode
      obtain ⟨c, hc, rfl⟩ := Option.map_eq_some_iff.mp hoff
      have hc := h.cache s c hc
      rw [wrap32_of_mem (by omega) (by omega)]
      omega
    · rename_i hcode
      have hc := h.cache s off hoff
      omega

end Endurox.UBF
