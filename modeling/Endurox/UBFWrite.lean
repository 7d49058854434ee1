import Endurox.UBFRecord

/-!
Writing records: the value a caller's bytes stand for, and that `p_put_data` and
`p_put_empty` write exactly its record into a gap of the right size.
-/

namespace Endurox.UBF

open Base List Option

def valueOf (t : FldType) (data : List UInt8) (len : Int) : Option (List UInt8) :=
  match t with
  | .string => (cstr data).map (· ++ [0])
  | .carray => if 0 ≤ len then slice data 0 len.toNat else none
  | .ubf =>
    if (UBFH.ofBytes data).hdr.magic = ubfMagic ∧ 56 ≤ (UBFH.ofBytes data).hdr.bytesUsed then
      slice data 0 (UBFH.ofBytes data).hdr.bytesUsed.toNat
    else none
  | .view =>
    if 38 ≤ data.length then
      (cstr ((data.drop 4).take 34)).bind (fun _ =>
        (viewSize data len).bind (fun n => slice data 38 n.toNat))
    else none
  | .int | .rfu0 => none
  | t => slice data 0 t.size.toNat

def recSize (t : FldType) (n : ℕ) : ℕ := t.hdrSize.toNat+n+padLen n

theorem recSize_eq (t : FldType) (n : ℕ) : (recSize t n:Int) = (t.hdrSize+n+3)/4*4 := by
  have hh := t.hdrSize_cases
  rw [recSize, padLen]
  rcases hh with hh | hh | hh <;> rw [hh] <;> omega

theorem slice_zero {m : List UInt8} {n : ℕ} {v : List UInt8} (h : slice m 0 n = some v) :
    v = m.take n ∧ v.length = n := by
  unfold slice at h
  split at h
  · obtain rfl := some.inj h
    simp only [drop_zero, length_take, true_and]
    omega
  · cases h

theorem ofBytes_take_hdr (bs : List UInt8) {n : ℕ} (h : 56 ≤ n) :
    (UBFH.ofBytes (bs.take n)).hdr = (UBFH.ofBytes bs).hdr := by
  have hm (off : ℕ) (ho : off+4 ≤ 56) : Header.member (bs.take n) off = Header.member bs off := by
    rw [Header.member, Header.member, drop_take, take_take, Nat.min_eq_left (by omega)]
  have hg (i : ℕ) (hi : i < 56) : (bs.take n).getD i 0 = bs.getD i 0 := by
    rw [getD_eq_getElem?_getD, getD_eq_getElem?_getD, getElem?_take_of_lt (by omega)]
  simp only [UBFH.ofBytes, Header.ofBytes]
  rw [hm 8 (by decide), hm 12 (by decide), hm 16 (by decide), hm 20 (by decide),
    hm 24 (by decide), hm 28 (by decide), hm 32 (by decide), hm 36 (by decide),
    hm 40 (by decide), hm 44 (by decide), hm 48 (by decide), hm 52 (by decide),
    hg 0 (by decide), hg 1 (by decide), hg 2 (by decide), hg 3 (by decide), hg 4 (by decide),
    hg 5 (by decide), hg 6 (by decide), hg 7 (by decide)]

theorem ofBytes_bytesUsed (bs : List UInt8) :
    (UBFH.ofBytes bs).hdr.bytesUsed = dec32 ((bs.drop 52).take 4) := rfl

variable {len : Int}

theorem valueOf_ok {t : FldType} {data v : List UInt8} (h : valueOf t data len = some v) :
    DataOk t v := by
  cases t with
  | string =>
    simp only [valueOf, map_eq_some_iff] at h
    obtain ⟨s, hs, rfl⟩ := h
    exact ⟨s, (cstr_eq_some hs).1, rfl⟩
  | carray | view => trivial
  | ubf =>
    simp only [valueOf] at h
    split at h
    · rename_i hc
      obtain ⟨hv, hl⟩ := slice_zero h
      have hn : 56 ≤ (UBFH.ofBytes data).hdr.bytesUsed.toNat := by omega
      refine ⟨by omega, ?_, ?_⟩
      · rw [hl, hv, ofBytes_take_hdr data hn]
        omega
      · rw [hv, ofBytes_take_hdr data hn]
        exact hc.1
    · cases h
  | int | rfu0 => cases h
  | short | long | char | float | double | ptr => exact (slice_zero h).2

theorem valueOf_ubf {data v : List UInt8} (h : valueOf .ubf data len = some v) :
    56 ≤ data.length ∧ 56 ≤ (UBFH.ofBytes data).hdr.bytesUsed ∧
      slice data 0 (UBFH.ofBytes data).hdr.bytesUsed.toNat = some v := by
  simp only [valueOf] at h
  split at h
  · rename_i hc
    obtain ⟨hv, _⟩ := slice_zero h
    refine ⟨?_, hc.2, h⟩
    have := congrArg length hv
    rw [length_take] at this
    omega
  · cases h

theorem valueOf_view {data v : List UInt8} (h : valueOf .view data len = some v) :
    ∃ vname n, 38 ≤ data.length ∧ cstr ((data.drop 4).take 34) = some vname ∧
      viewSize data len = some n ∧ 0 ≤ n ∧ slice data 38 n.toNat = some v := by
  simp only [valueOf] at h
  split at h
  · rename_i hd
    obtain ⟨vname, hname, h⟩ := bind_eq_some_iff.mp h
    obtain ⟨n, hn, h⟩ := bind_eq_some_iff.mp h
    refine ⟨vname, n, hd, hname, hn, ?_, h⟩
    unfold viewSize at hn
    split at hn
    · exact (some.inj hn).le
    · split at hn
      · cases hn
      · have := some.inj hn
        omega
  · cases h

/-- The size that is reserved is that of the record. -/
theorem getDSize_eq {t : FldType} {data v : List UInt8} (h : valueOf t data len = some v)
    (hlen : v.length < 2147483648) : getDSize t data len = some (wrap32 (recSize t v.length)) := by
  have hr := recSize_eq t v.length
  rcases (valueOf_ok h).cases with rfl | rfl | rfl | rfl | ⟨ht, hsz⟩
  · simp only [valueOf, map_eq_some_iff] at h
    obtain ⟨s, hs, rfl⟩ := h
    rw [length_append, length_singleton] at hlen hr
    simp only [FldType.hdrSize] at hr
    have hw : wrap32 ((s.length:Int)+1) = s.length+1 := wrap32_of_mem (by omega) (by omega)
    have hu : usize (4+(4+((s.length:Int)+1))+3) = 4+(4+((s.length:Int)+1))+3 :=
      Int.emod_eq_of_lt (by omega) (by omega)
    simp only [getDSize, hs, map_some, hw, alignedSize, hu, length_append, length_singleton, hr]
    rw [show 4+(4+((s.length:Int)+1))+3 = 8+((s.length+1 : ℕ):Int)+3 by omega]
  · simp only [valueOf] at h
    split at h
    · have hl := (slice_zero h).2
      simp only [FldType.hdrSize] at hr
      have hu : usize (4+(4+len)+3) = 4+(4+len)+3 := Int.emod_eq_of_lt (by omega) (by omega)
      simp only [getDSize, alignedSize, hu, hr]
      rw [show 4+(4+len)+3 = 8+(v.length:Int)+3 by omega]
    · cases h
  · simp only [valueOf] at h
    split at h
    · rename_i hc
      obtain ⟨hv, hl⟩ := slice_zero h
      have hd : ¬ data.length < 56 := by
        have := congrArg length hv
        rw [length_take] at this
        omega
      have he : validateEntry (UBFH.ofBytes data) 0 0 true = .succeed := by
        simp [validateEntry, hc.1]
      simp only [FldType.hdrSize] at hr
      have hu : usize (4+(UBFH.ofBytes data).hdr.bytesUsed+3) =
          4+(UBFH.ofBytes data).hdr.bytesUsed+3 := Int.emod_eq_of_lt (by omega) (by omega)
      simp only [getDSize, if_neg hd, he, ne_eq, not_true, if_false, alignedSize, hu, hr]
      rw [show 4+(UBFH.ofBytes data).hdr.bytesUsed+3 = 4+(v.length:Int)+3 by omega]
    · cases h
  · obtain ⟨_, n, _, -, hn, h0, hs⟩ := valueOf_view h
    have hl := slice_length hs
    simp only [FldType.hdrSize] at hr
    have hu : usize (4+(52+n)+3) = 4+(52+n)+3 := Int.emod_eq_of_lt (by omega) (by omega)
    simp only [getDSize, if_neg (show ¬ data.length < 38 by omega), hn, alignedSize, hu, hr]
    rw [show 4+(52+n)+3 = 56+(v.length:Int)+3 by omega]
  · obtain ⟨_, _, h4⟩ := fixed_size ht
    rw [h4] at hr
    have hu : usize (4+t.size+3) = 4+t.size+3 := Int.emod_eq_of_lt (by omega) (by omega)
    rw [getDSize_fixed ht, alignedSize, hu, hr, hsz]

theorem store_part {b : UBFH} {p : Int} {bs : List UInt8} (pre old post : List UInt8)
    (hm : b.mem = pre ++ old ++ post) (hp : p = (pre.length : ℕ)) (h : old.length = bs.length) :
    b.store p bs = some {b with mem := pre ++ bs ++ post} := by
  rw [hp, UBFH.store_nat, splice_eq_of_append hm rfl h]
  rfl

def recImage (bfldid : Int) (head v pad : List UInt8) : List UInt8 :=
  enc32 bfldid ++ head ++ v ++ pad

-- a gap of a record's size, cut where the record's members will lie
variable {b : UBFH} {p bfldid len : Int} {v data pre g0 g1 g2 pad post : List UInt8}

theorem store_id_data (bfldid : Int) (v : List UInt8)
    (hm : b.mem = pre ++ (g0 ++ g2 ++ pad) ++ post)
    (hp : p = (pre.length : ℕ)) (h0 : g0.length = 4) (h2 : g2.length = v.length) :
    (b.store p (enc32 bfldid)).bind (fun b => b.store (p+4) v) =
      some {b with mem := pre ++ (enc32 bfldid ++ v ++ pad) ++ post} := by
  rw [store_part pre g0 (g2 ++ pad ++ post) (by rw [hm]; simp) hp (by simpa using h0), bind_some,
    store_part (pre ++ enc32 bfldid) g2 (pad ++ post) (by simp) (by simp; omega) h2]
  simp

theorem putData_string (hm : b.mem = pre ++ (g0 ++ g1 ++ g2 ++ pad) ++ post)
    (hp : p = (pre.length : ℕ)) (h0 : g0.length = 4) (h1 : g1.length = 4)
    (h2 : g2.length = v.length) (hv : valueOf .string data len = some v)
    (hlen : v.length < 2147483648) :
    putData .string b p bfldid data len =
      some {b with mem := pre ++ recImage bfldid (enc32 v.length) v pad ++ post} := by
  simp only [valueOf, map_eq_some_iff] at hv
  obtain ⟨s, hs, rfl⟩ := hv
  have hw : wrap32 ((s.length:Int)+1) = ((s ++ [0]).length : ℕ) := by
    rw [length_append, length_singleton] at hlen ⊢
    rw [wrap32_of_mem (by omega) (by omega)]
    omega
  -- the string is copied first, then its length is stored, then the id
  simp only [putData, hs, bind_eq_bind, bind_some, hw]
  rw [store_part (pre ++ g0 ++ g1) g2 (pad ++ post) (by rw [hm]; simp) (by simp; omega) h2, bind_some,
    store_part (pre ++ g0) g1 (s ++ [0] ++ (pad ++ post)) (by simp) (by simp; omega)
      (by rw [h1, enc32_length]), bind_some,
    store_part pre g0 (enc32 ((s ++ [0]).length : ℕ) ++ (s ++ [0] ++ (pad ++ post))) (by simp) hp
      (by rw [h0, enc32_length])]
  simp [recImage]

theorem putData_carray (hm : b.mem = pre ++ (g0 ++ g1 ++ g2 ++ pad) ++ post)
    (hp : p = (pre.length : ℕ)) (h0 : g0.length = 4) (h1 : g1.length = 4)
    (h2 : g2.length = v.length) (hv : valueOf .carray data len = some v) :
    putData .carray b p bfldid data len =
      some {b with mem := pre ++ recImage bfldid (enc32 v.length) v pad ++ post} := by
  simp only [valueOf] at hv
  split at hv
  · have hl := (slice_zero hv).2
    have hn : len = (v.length : ℕ) := by omega
    simp only [putData, bind_eq_bind, hv, bind_some]
    rw [store_part pre g0 (g1 ++ g2 ++ pad ++ post) (by rw [hm]; simp) hp (by rw [h0, enc32_length]),
      bind_some, store_part (pre ++ enc32 bfldid) g1 (g2 ++ pad ++ post) (by simp) (by simp; omega)
        (by rw [h1, enc32_length]), bind_some]
    split
    · rw [store_part (pre ++ enc32 bfldid ++ enc32 len) g2 (pad ++ post) (by simp) (by simp; omega) h2]
      simp [recImage, hn]
    · -- nothing is copied for an empty array
      have hv0 : v = [] := length_eq_zero_iff.mp (by omega)
      have hg2 : g2 = [] := length_eq_zero_iff.mp (by omega)
      simp [recImage, hn, hv0, hg2]
  · cases hv

theorem putData_ubf_eq {n : Int} (hu : (slice data 52 4).map dec32 = some n) (hn : 0 ≤ n)
    (hs : slice data 0 n.toNat = some v) :
    putData .ubf b p bfldid data len =
      (b.store p (enc32 bfldid)).bind (fun b => b.store (p+4) v) := by
  simp [putData, hu, if_pos hn, hs]

theorem putData_ubf (hm : b.mem = pre ++ (g0 ++ g2 ++ pad) ++ post)
    (hp : p = (pre.length : ℕ)) (h0 : g0.length = 4) (h2 : g2.length = v.length)
    (hv : valueOf .ubf data len = some v) :
    putData .ubf b p bfldid data len =
      some {b with mem := pre ++ recImage bfldid [] v pad ++ post} := by
  obtain ⟨hd, _, hs⟩ := valueOf_ubf hv
  have hu : (slice data 52 4).map dec32 = some (UBFH.ofBytes data).hdr.bytesUsed := by
    rw [slice, if_pos (show 52+4 ≤ data.length from hd), map_some, ofBytes_bytesUsed]
  rw [putData_ubf_eq hu (by omega) hs, store_id_data bfldid v hm hp h0 h2]
  simp [recImage]

theorem putData_view (hm : b.mem = pre ++ (g0 ++ g1 ++ g2 ++ pad) ++ post)
    (hp : p = (pre.length : ℕ)) (h0 : g0.length = 4) (h1 : g1.length = 52)
    (h2 : g2.length = v.length) (hv : valueOf .view data len = some v)
    (hlen : v.length < 2147483648) :
    ∃ head, HeadOk .view v.length head ∧ putData .view b p bfldid data len =
      some {b with mem := pre ++ recImage bfldid head v pad ++ post} := by
  obtain ⟨vname, n, _, hname, hn, _, hs⟩ := valueOf_view hv
  have hl := slice_length hs
  obtain ⟨-, _, hrest⟩ := cstr_eq_some hname
  have hk : vname.length+1 ≤ 34 := by
    have := congrArg length hrest
    simp only [length_append, length_cons, length_take, length_drop] at this
    omega
  have hnv : n = (v.length : ℕ) := by omega
  have hflags : slice data 0 4 = some (data.take 4) := by
    rw [slice, if_pos (by omega), drop_zero]
  -- the head cut at the members: name, its unused end, a gap, `dlen`, a gap, `vflags`
  obtain ⟨nm, g1, rfl, hnm, hg1⟩ := exists_cut (l := g1) (n := vname.length+1) (by omega)
  obtain ⟨nm', g1, rfl, _, hg1⟩ := exists_cut (l := g1) (n := 34-(vname.length+1)) (by omega)
  obtain ⟨a1, g1, rfl, _, hg1⟩ := exists_cut (l := g1) (n := 2) (by omega)
  obtain ⟨dl, g1, rfl, hdl, hg1⟩ := exists_cut (l := g1) (n := 4) (by omega)
  obtain ⟨a2, fl, rfl, _, _⟩ := exists_cut (l := g1) (n := 4) (by omega)
  have hfl : fl.length = (data.take 4 ++ [0, 0, 0, 0]).length := by
    simp only [length_append, length_take, length_cons, length_nil] at *
    omega
  refine ⟨vname ++ [0] ++ nm' ++ a1 ++ enc32 n ++ a2 ++ (data.take 4 ++ [0, 0, 0, 0]),
    ⟨?_, ?_, ?_⟩, ?_⟩
  · simp only [length_append, length_singleton, enc32_length, ← hfl]
    omega
  · have hx : (vname ++ [0] ++ nm' ++ a1).length = 36 := by
      simp only [length_append, length_singleton]
      omega
    rw [append_assoc (vname ++ [0] ++ nm' ++ a1 ++ enc32 n), append_assoc _ (enc32 n),
      drop_left' hx, take_left' (enc32_length n), hnv,
      dec32_enc32_of_mem (by omega) (by omega)]
  · have hx : (vname ++ [0] ++ nm').length = 34 := by
      simp only [length_append, length_singleton]
      omega
    rw [append_assoc _ (enc32 n), append_assoc _ (_ ++ _), append_assoc _ a1, take_left' hx]
    simp
  · simp only [putData, hn, hflags, hname, bind_eq_bind, hs, bind_some]
    rw [store_part pre g0 (nm ++ nm' ++ a1 ++ dl ++ a2 ++ fl ++ g2 ++ pad ++ post) (by rw [hm]; simp)
        hp (by simpa using h0), bind_some,
      store_part (pre ++ enc32 bfldid ++ nm ++ nm' ++ a1 ++ dl ++ a2) fl (g2 ++ pad ++ post) (by simp)
        (by simp; omega) hfl, bind_some,
      store_part (pre ++ enc32 bfldid ++ nm ++ nm' ++ a1) dl
        (a2 ++ (data.take 4 ++ [0, 0, 0, 0]) ++ (g2 ++ pad ++ post)) (by simp) (by simp; omega)
        (by rw [hdl, enc32_length]), bind_some,
      store_part (pre ++ enc32 bfldid) nm
        (nm' ++ a1 ++ enc32 n ++ (a2 ++ (data.take 4 ++ [0, 0, 0, 0]) ++ (g2 ++ pad ++ post)))
        (by simp) (by simp; omega) (by rw [hnm, length_append, length_singleton]), bind_some]
    split
    · rw [store_part (pre ++ enc32 bfldid ++ (vname ++ [0]) ++ nm' ++ a1 ++ enc32 n ++ a2 ++
          (data.take 4 ++ [0, 0, 0, 0])) g2 (pad ++ post) (by simp)
          (by simp only [length_append, length_singleton, enc32_length, ← hfl]; omega) h2]
      simp [recImage]
    · -- nothing is copied for an empty name
      have hv0 : v = [] := length_eq_zero_iff.mp (by omega)
      have hg2 : g2 = [] := length_eq_zero_iff.mp (by omega)
      simp [recImage, hv0, hg2]

/-- A value written into a gap of its size is the record of the value. -/
theorem putData_gap {t : FldType} (hm : b.mem = pre ++ (g0 ++ g1 ++ g2 ++ pad) ++ post)
    (hp : p = (pre.length : ℕ)) (h0 : g0.length = 4)
    (h1 : g1.length+4 = t.hdrSize.toNat) (h2 : g2.length = v.length)
    (hv : valueOf t data len = some v) (hlen : v.length < 2147483648) :
    ∃ head, HeadOk t v.length head ∧ putData t b p bfldid data len =
      some {b with mem := pre ++ recImage bfldid head v pad ++ post} := by
  rcases (valueOf_ok hv).cases with rfl | rfl | rfl | rfl | ⟨ht, _⟩
  · exact ⟨_, rfl, putData_string hm hp h0 (Nat.add_right_cancel h1) h2 hv hlen⟩
  · exact ⟨_, rfl, putData_carray hm hp h0 (Nat.add_right_cancel h1) h2 hv⟩
  · have hg1 : g1 = [] := length_eq_zero_iff.mp (Nat.add_right_cancel h1)
    subst hg1
    exact ⟨[], rfl, putData_ubf (by simpa using hm) hp h0 h2 hv⟩
  · exact putData_view hm hp h0 (Nat.add_right_cancel h1) h2 hv hlen
  · have hg1 : g1 = [] := length_eq_zero_iff.mp (by
      rw [(fixed_size ht).2.2] at h1
      exact Nat.add_right_cancel h1)
    subst hg1
    have hs : slice data 0 t.size.toNat = some v := by cases t <;> first | exact hv | cases ht
    have hm' : b.mem = pre ++ (g0 ++ g2 ++ pad) ++ post := by simpa using hm
    have he := store_id_data bfldid v hm' hp h0 h2
    refine ⟨[], headOk_fixed ht _, ?_⟩
    rw [putData_fixed ht]
    simp only [hs, bind_some, he]
    simp [recImage]

end Endurox.UBF
