import Endurox.Ddr

/-!
What the daemon writes: the bytes of ranges, blocks and criteria one after another, zeros behind
them, and what the routing walk reads back from a range or a block that lies in the segment.
-/

namespace Endurox.Ddr

open Base List

theorem enc32_congr {x y : Int} (h : x ≡ y [ZMOD 4294967296]) : enc32 x = enc32 y := by
  rw [enc32, enc32, h.eq]

def Routcrit.head (t : Routcrit) : List UInt8 := chars 16 t.criterion.val ++ enc32 t.criterionid

def Routcrit.tail (t : Routcrit) : List UInt8 := (t.fields.drop 3).flatten

variable (t : Routcrit)

theorem Routcrit.head_length : t.head.length = 20 := by
  simp [head]

theorem Routcrit.flatten_fields : t.fields.flatten = t.head ++ enc32 t.len ++ t.tail := by
  simp [fields, head, tail]

theorem Routcrit.fields_length : t.fields.flatten.length = 352 := by
  simp [fields]

theorem Routcritseq.fields_length (seq : Routcritseq) :
    seq.fields.flatten.length = 60+seq.strrange.length := by
  simp [fields]
  omega

/-- What holds of a range that was built: its length covers the struct and nothing that was not
allocated. -/
structure Routcritseq.Ok (seq : Routcritseq) : Prop where
  lo : 64 ≤ seq.len
  hi : seq.len ≤ 60+seq.strrange.length
  fits : seq.len < 2147483644

def Routcritseq.bytes (seq : Routcritseq) : List UInt8 :=
  ({seq with len := alignedGen seq.len}.fields.flatten).take seq.len.toNat ++
    replicate ((alignedGen seq.len).toNat-seq.len.toNat) 0

def seqsBytes (seqs : List Routcritseq) : List UInt8 := seqs.flatMap Routcritseq.bytes

def RoutcritType.bytes (critid : Int) (t : RoutcritType) : List UInt8 :=
  {t.routcrit with criterionid := critid, len := 352+(seqsBytes t.seq).length}.fields.flatten ++
    seqsBytes t.seq

def typesBytes (critid : Int) (ts : List RoutcritType) : List UInt8 :=
  ts.flatMap (RoutcritType.bytes critid)

theorem seqsBytes_cons (seq : Routcritseq) (seqs : List Routcritseq) :
    seqsBytes (seq :: seqs) = seq.bytes ++ seqsBytes seqs := flatMap_cons

theorem typesBytes_cons (critid : Int) (t : RoutcritType) (ts : List RoutcritType) :
    typesBytes critid (t :: ts) = t.bytes critid ++ typesBytes critid ts := flatMap_cons

def layout : ℕ → List RoutcritHash → List UInt8
  | _, [] => []
  | critid, el :: els => typesBytes critid el.btypes ++ layout (critid+1) els

def placed : ℕ → ℕ → List RoutcritHash → List RoutcritHash
  | _, _, [] => []
  | critid, pos, el :: els =>
    {el with criterionid := critid, offset := pos} ::
      placed (critid+1) (pos+(typesBytes critid el.btypes).length) els

theorem alignedGen_bounds {x : Int} (hx : 0 ≤ x) : x ≤ alignedGen x ∧ alignedGen x < x+4 := by
  have h : (x+4-1).tdiv 4 = (x+3)/4 := by
    rw [Int.tdiv_eq_ediv_of_nonneg (by omega)]
    congr 1
    omega
  rw [alignedGen]
  omega

theorem Routcritseq.Ok.bytes_length {seq : Routcritseq} (h : seq.Ok) :
    (seq.bytes.length : Int) = alignedGen seq.len := by
  have hlo := h.lo
  have hhi := h.hi
  have hal := alignedGen_bounds (x := seq.len) (by omega)
  have hf := fields_length {seq with len := alignedGen seq.len}
  simp only [bytes, length_append, length_take, length_replicate, hf]
  omega

theorem Routcritseq.Ok.bytes_bounds {seq : Routcritseq} (h : seq.Ok) :
    64 ≤ seq.bytes.length ∧ seq.bytes.length < 2147483648 := by
  have hlo := h.lo
  have hfits := h.fits
  have hal := alignedGen_bounds (x := seq.len) (by omega)
  have hlen := h.bytes_length
  omega

theorem RoutcritType.bytes_length (critid : Int) (t : RoutcritType) :
    (t.bytes critid).length = 352+(seqsBytes t.seq).length := by
  rw [bytes, length_append, Routcrit.fields_length]

theorem splice_zeros {done bs : List UInt8} {k : ℕ} (h : bs.length ≤ k) :
    splice (done ++ replicate k 0) done.length bs =
      some (done ++ bs ++ replicate (k-bs.length) 0) := by
  have hk : replicate k (0:UInt8) =
      replicate bs.length 0 ++ replicate (k-bs.length) 0 := by
    rw [← replicate_add]
    congr 1
    omega
  have hm : done ++ replicate k 0 =
      done ++ replicate bs.length 0 ++ replicate (k-bs.length) 0 := by
    rw [hk, append_assoc]
  exact splice_eq_of_append hm rfl length_replicate

theorem bump_len (len n : Int) (pre post : List UInt8) :
    peek CfgErr.outside (pre ++ {t with len}.fields.flatten ++ post) (pre.length+20) 4 =
        .ok (enc32 len) ∧
      poke CfgErr.outside (pre ++ {t with len}.fields.flatten ++ post) (pre.length+20)
          (enc32 (dec32 (enc32 len)+n)) =
        .ok (pre ++ {t with len := len+n}.fields.flatten ++ post) := by
  have hlen := Routcrit.head_length t
  have hsplit (x : Int) : pre ++ {t with len := x}.fields.flatten ++ post =
      (pre ++ t.head) ++ enc32 x ++ (t.tail ++ post) := by
    simp [Routcrit.head, Routcrit.tail, Routcrit.fields]
  have hpos : pre.length+20 = (pre ++ t.head).length := by simp [hlen]
  have hword : enc32 (dec32 (enc32 len)+n) = enc32 (len+n) := by
    apply enc32_congr
    rw [dec32_enc32]
    exact (wrap_modEq 2147483648 len).add_right n
  rw [hsplit, hsplit, hword]
  refine ⟨peek_eq (slice_eq_of_append rfl hpos (enc32_length _).symm), poke_eq ?_⟩
  exact splice_eq_of_append rfl hpos (by simp)

variable {t : Routcrit} {pre mid done bs bs' : List UInt8} {len : Int} {k : ℕ} {w w' : Seg}

def Seg.filled (done : List UInt8) (k : ℕ) : Seg := ⟨done ++ replicate k 0, done.length, k⟩

/-- Behind `done` the first of `k` zeros have become `bs`. -/
structure Fills (done bs : List UInt8) (k : ℕ) (w : Seg) : Prop where
  room : bs.length ≤ k
  eq : w = Seg.filled (done ++ bs) (k-bs.length)

theorem Fills.nil (done : List UInt8) (k : ℕ) : Fills done [] k (Seg.filled done k) :=
  ⟨Nat.zero_le _, by rw [append_nil]; rfl⟩

theorem Fills.append (h : Fills done bs k w) (h' : Fills (done ++ bs) bs' (k-bs.length) w') :
    Fills done (bs ++ bs') k w' := by
  have hroom := h.room
  have hroom' := h'.room
  refine ⟨by rw [length_append]; omega, ?_⟩
  rw [h'.eq, append_assoc, length_append, Nat.sub_sub]

/-- A range is put behind those of its block, which is longer by it then. -/
theorem putSeq_ok {seq : Routcritseq} (hok : seq.Ok)
    (h : putSeq pre.length (.filled (pre ++ {t with len}.fields.flatten ++ mid) k) seq = .ok w) :
    seq.bytes.length ≤ k ∧
      w = .filled (pre ++ {t with len := len+seq.bytes.length}.fields.flatten ++ (mid ++ seq.bytes))
        (k-seq.bytes.length) := by
  have hbump := bump_len t len (alignedGen seq.len) pre (mid ++ replicate k 0)
  simp only [← append_assoc] at hbump
  rw [Seg.filled] at h
  simp only [putSeq, hbump.1, hbump.2, bind, Except.bind] at h
  have hlen := hok.bytes_length
  split at h
  · cases h
  have hroom : seq.bytes.length ≤ k := by omega
  -- the copy, and the zeros it leaves up to the aligned length
  let front := {t with len := len+alignedGen seq.len}.fields.flatten
  let copied := ({seq with len := alignedGen seq.len}.fields.flatten).take seq.len.toNat
  have hbytes : seq.bytes =
      copied ++ replicate ((alignedGen seq.len).toNat-seq.len.toNat) 0 := rfl
  have hcopied : copied.length ≤ seq.bytes.length := by
    rw [hbytes, length_append]
    exact Nat.le_add_right _ _
  have hpos : (pre ++ {t with len}.fields.flatten ++ mid).length = (pre ++ front ++ mid).length := by
    simp only [length_append, front, Routcrit.fields_length]
  have hpoke : poke CfgErr.outside (pre ++ front ++ mid ++ replicate k 0)
      (pre ++ {t with len}.fields.flatten ++ mid).length copied =
      .ok (pre ++ front ++ mid ++ copied ++ replicate (k-copied.length) 0) := by
    rw [hpos]
    exact poke_eq (splice_zeros (by omega))
  have hpad : copied ++ replicate (k-copied.length) 0 =
      seq.bytes ++ replicate (k-seq.bytes.length) 0 := by
    have hk : k-copied.length =
        (alignedGen seq.len).toNat-seq.len.toNat+(k-seq.bytes.length) := by
      have hl := congrArg length hbytes
      rw [length_append, length_replicate] at hl
      omega
    rw [hbytes, append_assoc, ← replicate_add, hk, ← hbytes]
  rw [hpoke] at h
  cases h
  refine ⟨hroom, ?_⟩
  simp only [Seg.filled, Seg.mk.injEq]
  refine ⟨?_, ?_, ?_⟩
  · rw [append_assoc _ copied, hpad, hlen]
    simp [front]
  · simp only [length_append, Routcrit.fields_length]
    omega
  · omega

theorem putSeqs_ok {seqs : List Routcritseq} (hok : ∀ seq ∈ seqs, seq.Ok)
    (h : putSeqs pre.length (.filled (pre ++ {t with len}.fields.flatten ++ mid) k) seqs = .ok w) :
    (seqsBytes seqs).length ≤ k ∧
      w = .filled (pre ++ {t with len := len+(seqsBytes seqs).length}.fields.flatten ++
        (mid ++ seqsBytes seqs)) (k-(seqsBytes seqs).length) := by
  induction seqs generalizing mid len k with
  | nil =>
    cases h
    simp [seqsBytes]
  | cons seq seqs ih =>
    obtain ⟨_, hs, h⟩ := bind_eq_ok.mp h
    obtain ⟨_, rfl⟩ := putSeq_ok (hok seq (by simp)) hs
    obtain ⟨_, rfl⟩ := ih (fun s hs => hok s (by simp [hs])) h
    rw [seqsBytes_cons, length_append, Nat.cast_add, ← add_assoc, append_assoc mid, Nat.sub_sub]
    exact ⟨by omega, rfl⟩

/-- A block that is put fills the segment with its bytes. -/
theorem putBlock_ok {bt : RoutcritType} {critid : Int} (hok : ∀ seq ∈ bt.seq, seq.Ok)
    (h : putBlock critid (.filled done k) bt = .ok w) : Fills done (bt.bytes critid) k w := by
  rw [putBlock] at h
  split at h
  · cases h
  rename_i hroom
  simp only [sizeofRoutcrit, Seg.filled] at hroom
  set hd : Routcrit := {bt.routcrit with criterionid := critid} with hhd
  have hl : hd.fields.flatten.length = 352 := Routcrit.fields_length _
  have hcopy : poke CfgErr.outside (done ++ replicate k 0) done.length
      hd.fields.flatten = .ok (done ++ hd.fields.flatten ++ replicate (k-352) 0) := by
    rw [← hl]
    exact poke_eq (splice_zeros (by omega))
  -- storing the size of the header is counting up from the length copied with it
  have hset : poke CfgErr.outside (done ++ hd.fields.flatten ++ replicate (k-352) 0)
      (done.length+20) (enc32 sizeofRoutcrit) =
      .ok (done ++ {hd with len := 352}.fields.flatten ++ replicate (k-352) 0) := by
    have hb := (bump_len hd hd.len (352-wrap32 hd.len) done (replicate (k-352) 0)).2
    have hw : dec32 (enc32 hd.len)+(352-wrap32 hd.len) = sizeofRoutcrit := by
      rw [dec32_enc32]
      simp [sizeofRoutcrit]
    have hw2 : {hd with len := hd.len+(352-wrap32 hd.len)}.fields.flatten =
        {hd with len := 352}.fields.flatten := by
      have he : enc32 (hd.len+(352-wrap32 hd.len)) = enc32 352 := by
        apply enc32_congr
        have hm := (wrap_modEq 2147483648 hd.len).symm.add_right (352-wrap32 hd.len)
        have hz : wrap 2147483648 hd.len+(352-wrap32 hd.len) = 352 := by
          rw [wrap32]
          omega
        rwa [hz] at hm
      simp [Routcrit.fields, he]
    rw [hw, hw2] at hb
    exact hb
  simp only [Seg.filled, hcopy, hset, bind, Except.bind] at h
  have hseg : (⟨done ++ {hd with len := 352}.fields.flatten ++ replicate (k-352) 0,
      done.length+sizeofRoutcrit, k-sizeofRoutcrit⟩ : Seg) =
        .filled (done ++ {hd with len := 352}.fields.flatten ++ []) (k-352) := by
    simp only [Seg.filled, append_nil, length_append, Routcrit.fields_length, sizeofRoutcrit,
      Seg.mk.injEq, true_and]
    omega
  rw [hseg] at h
  obtain ⟨_, rfl⟩ := putSeqs_ok hok h
  have hbl := RoutcritType.bytes_length critid bt
  refine ⟨by omega, ?_⟩
  rw [nil_append, append_assoc, hbl, Nat.sub_sub]
  rfl

theorem putBlocks_ok {ts : List RoutcritType} {critid : Int}
    (hok : ∀ bt ∈ ts, ∀ seq ∈ bt.seq, seq.Ok)
    (h : putBlocks critid (.filled done k) ts = .ok w) : Fills done (typesBytes critid ts) k w := by
  induction ts generalizing done k with
  | nil =>
    cases h
    exact .nil done k
  | cons bt ts ih =>
    obtain ⟨_, hb, h⟩ := bind_eq_ok.mp h
    have hfirst := putBlock_ok (hok bt (by simp)) hb
    rw [hfirst.eq] at h
    rw [typesBytes_cons]
    exact hfirst.append (ih (fun b hb => hok b (by simp [hb])) h)

/-- The criteria fill the segment with their layout, and each gets its id and offset. -/
theorem criterionPut_ok {els els' : List RoutcritHash} {critid : ℕ}
    (hid : critid+els.length ≤ 2147483648)
    (hok : ∀ el ∈ els, ∀ bt ∈ el.btypes, ∀ seq ∈ bt.seq, seq.Ok)
    (h : ndrxDdrCriterionPut critid (.filled done k) els = .ok (w, els')) :
    Fills done (layout critid els) k w ∧ els' = placed critid done.length els := by
  induction els generalizing done k critid els' with
  | nil =>
    cases h
    exact ⟨.nil done k, rfl⟩
  | cons el els ih =>
    obtain ⟨_, hb, h⟩ := bind_eq_ok.mp h
    have hfirst := putBlocks_ok (hok el (by simp)) hb
    rw [length_cons] at hid
    obtain ⟨_, hr, h⟩ := bind_eq_ok.mp h
    cases h
    rw [hfirst.eq] at hr
    cases els with
    | nil =>
      cases hr
      rw [layout, layout, append_nil, ← hfirst.eq]
      exact ⟨hfirst, rfl⟩
    | cons =>
      rw [length_cons] at hid
      have hw : wrap32 ((critid:Int)+1) = (critid+1 : ℕ) := by
        rw [wrap32_of_mem (by omega) (by omega)]
        omega
      rw [hw] at hr
      obtain ⟨hrest, hels⟩ := ih (by rw [length_cons]; omega)
        (fun e he => hok e (by simp only [mem_cons] at he ⊢; exact .inr he)) hr
      refine ⟨hfirst.append hrest, ?_⟩
      rw [placed, hels, length_append]
      rfl

end Endurox.Ddr
