import Endurox.NetUbf

/-! What a UBF buffer holds, its fields and those of the buffers nested in it, and the bytes they
are sent as. -/

namespace Endurox.NetProto

open Base Base.Tlv UBF List

inductive Fields
  | nil
  | data (id : Int) (v : List UInt8) (rest : Fields)
  | sub (id : Int) (inner rest : Fields)

def Holds : List Rec → Fields → Prop
  | rs, .nil => rs = []
  | rs, .data id v rest =>
    ∃ r rs', rs = r :: rs' ∧ r.id = id ∧ r.type ≠ .ubf ∧ r.data = v ∧ Holds rs' rest
  | rs, .sub id inner rest =>
    ∃ r rs', rs = r :: rs' ∧ r.id = id ∧ r.type = .ubf ∧
      (∃ qs, Image (UBFH.ofBytes r.data) qs ∧ Holds qs inner) ∧ Holds rs' rest

def Carries (data : List UInt8) (fs : Fields) : Prop :=
  56 ≤ data.length ∧ ∃ rs, Image (UBFH.ofBytes data) rs ∧ Holds rs fs

def idRow : Cproto := row 0x10FF .uint .fld 1 9

def typeRow : FldType → Cproto
  | .short => row 0x1113 .short .fldPtr 1 6
  | .long => row 0x111D .long .fldPtr 1 20
  | .char => row 0x1127 .char .fldPtr 1 1
  | .string => row 0x1145 .string .fldPtr 0 pmsgmax
  | .carray => row 0x114F .carray .fldPtr 0 pmsgmax
  | .ptr => row 0x1152 .long .fldPtr 1 20
  | _ => row 0x1153 .none .atmiBufPtr 0 pmsgmax

def Plain (t : FldType) : Prop :=
  t = .short ∨ t = .long ∨ t = .char ∨ t = .string ∨ t = .carray ∨ t = .ptr

instance (t : FldType) : Decidable (Plain t) := by unfold Plain; infer_instance

def wireValue (t : FldType) (v : List UInt8) : List UInt8 :=
  match t with
  | .short => bcdBytes (numbuf .short v)
  | .long | .ptr => bcdBytes (numbuf .long v)
  | .string => v.dropLast
  | _ => v

def NotMin (t : FldType) (v : List UInt8) : Prop :=
  match t with
  | .short => signedAt 2 v ≠ -32768
  | .long | .ptr => signedAt 8 v ≠ -9223372036854775808
  | _ => True

def spareOf (t : FldType) : ℕ := if t = .char ∨ t = .string then 1 else 0

theorem cklen_bytes {fld : Cproto} {w : List UInt8} {msgsizemax : Int}
    (ht : abstractLen fld.fldType w = w.length) (hlo : fld.minLen = 0) (hhi : fld.maxLen = pmsgmax)
    (hmax : (w.length:Int) ≤ msgsizemax) : exprotoCklen msgsizemax fld w = true := by
  refine exprotoCklen_iff.mpr ⟨?_, fun _ => ?_, fun h => absurd hhi h⟩ <;> rw [ht] <;> omega

section

variable {t : FldType} {v : List UInt8} (hplain : Plain t) (hok : DataOk t v) (hmin : NotMin t v)
include hplain hok

theorem xCtonet_leaf {size : Int} {out : List UInt8} (tail : List UInt8)
    (hfit : (out.length:Int)+(wireValue t v).length+spareOf t ≤ size) :
    xCtonet size (typeRow t) (v ++ tail)
        (if (typeRow t).tag = ubfProtoTagMap .carray then (v.length:Int) else 0) out =
      .ok (out ++ wireValue t v) := by
  have hlen : (out.length:Int)+(wireValue t v).length ≤ size := by omega
  rcases hplain with rfl | rfl | rfl | rfl | rfl | rfl
  · exact xCtonet_numbuf (show 0 < (typeRow .short).fldType.width by decide) hok hlen
  · exact xCtonet_numbuf (show 0 < (typeRow .long).fldType.width by decide) hok hlen
  · obtain ⟨c, rfl⟩ := length_eq_one_iff.mp (show v.length = 1 from hok)
    exact xCtonet_char rfl c tail hfit
  · obtain ⟨s, hs, rfl⟩ := hok
    have hwire : wireValue .string (s ++ [0]) = s := dropLast_concat
    rw [hwire, spareOf, if_pos (.inr rfl)] at hfit
    rw [hwire, append_assoc]
    exact xCtonet_string rfl hs tail (by push_cast at hfit; omega)
  · exact xCtonet_carray rfl tail hlen
  · exact xCtonet_numbuf (show 0 < (typeRow .ptr).fldType.width by decide) hok hlen

include hmin

theorem cklen_leaf {msgsizemax : Int} (hlen : ((wireValue t v).length:Int) ≤ msgsizemax) :
    exprotoCklen msgsizemax (typeRow t) (wireValue t v) = true := by
  have hshort : magnitude .short v < 10^5 := by
    have hrange := signedAt_range (show 0 < 2 by decide) v
    show (signedAt 2 v).natAbs < 10^5
    omega
  have hlong : magnitude .long v < 10^19 := by
    have hrange := signedAt_range (show 0 < 8 by decide) v
    show (signedAt 8 v).natAbs < 10^19
    omega
  rcases hplain with rfl | rfl | rfl | rfl | rfl | rfl
  · exact cklen_numbuf (show 0 < (typeRow .short).fldType.width by decide) (fun _ => hmin)
      (by decide) hshort rfl (by decide) _
  · exact cklen_numbuf (show 0 < (typeRow .long).fldType.width by decide) (fun _ => hmin)
      (by decide) hlong rfl (by decide) _
  · obtain ⟨_, rfl⟩ := length_eq_one_iff.mp (show v.length = 1 from hok)
    exact exprotoCklen_iff.mpr
      ⟨le_refl (1:Int), fun h => absurd h (by decide), fun _ => le_refl (1:Int)⟩
  · exact cklen_bytes rfl rfl rfl hlen
  · exact cklen_bytes rfl rfl rfl hlen
  · exact cklen_numbuf (show 0 < (typeRow .ptr).fldType.width by decide) (fun _ => hmin)
      (by decide) hlong rfl (by decide) _

theorem xNettoc_leaf {after buf : List UInt8} (hafter : t = .string → 0 ∈ after)
    (hbuf : v.length ≤ buf.length) :
    ∃ buf' len, xNettoc (typeRow t) (wireValue t v ++ after) (wireValue t v).length buf buf.length =
        .ok (buf', len) ∧ valueOf t buf' len = some v ∧ buf'.length = buf.length := by
  have hfront (n : ℕ) (hn : v.length = n) : slice (v ++ buf.drop v.length) 0 n = some v ∧
      (v ++ buf.drop v.length).length = buf.length := by
    refine ⟨slice_front v _ hn.symm, ?_⟩
    rw [length_append, length_drop]
    omega
  rcases hplain with rfl | rfl | rfl | rfl | rfl | rfl
  · have hlen : v.length = 2 := hok
    refine ⟨_, 0, ?_, (hfront 2 hlen).1, (hfront 2 hlen).2⟩
    exact xNettoc_numbuf (show 0 < (typeRow .short).fldType.width by decide) hok (fun _ => hmin)
      (by show ((2:ℕ):Int) ≤ _; omega) (by show 2 ≤ _; omega)
  · have hlen : v.length = 8 := hok
    refine ⟨_, 0, ?_, (hfront 8 hlen).1, (hfront 8 hlen).2⟩
    exact xNettoc_numbuf (show 0 < (typeRow .long).fldType.width by decide) hok (fun _ => hmin)
      (by show ((8:ℕ):Int) ≤ _; omega) (by show 8 ≤ _; omega)
  · obtain ⟨c, rfl⟩ := length_eq_one_iff.mp (show v.length = 1 from hok)
    rw [length_singleton] at hbuf
    exact ⟨_, 0, xNettoc_char rfl c (by omega) hbuf, (hfront 1 rfl).1, (hfront 1 rfl).2⟩
  · obtain ⟨s, hs, rfl⟩ := hok
    have hwire : wireValue .string (s ++ [0]) = s := dropLast_concat
    rw [length_append, length_singleton] at hbuf
    rw [hwire]
    refine ⟨_, 0, xNettoc_string rfl hs (hafter rfl) (by omega) hbuf, ?_, ?_⟩
    · rw [valueOf, cstr_append hs]
      rfl
    · rw [length_append, length_cons, length_drop]
      omega
  · refine ⟨_, v.length, xNettoc_carray rfl (by show (v.length:Int) ≤ _; omega) hbuf, ?_,
      (hfront _ rfl).2⟩
    exact (hfront _ rfl).1
  · have hlen : v.length = 8 := hok
    refine ⟨_, 0, ?_, (hfront 8 hlen).1, (hfront 8 hlen).2⟩
    exact xNettoc_numbuf (show 0 < (typeRow .ptr).fldType.width by decide) hok (fun _ => hmin)
      (by show ((8:ℕ):Int) ≤ _; omega) (by show 8 ≤ _; omega)

end

section

variable {size msgsizemax : Int} {body : Cproto → List UInt8 → Except Stop (List UInt8)}

theorem buildTable_filter (accept : List Int) (table : List Cproto) (out : List UInt8) :
    buildTable size msgsizemax body (some accept) table out =
      buildTable size msgsizemax body none (table.filter (fun p => p.tag ∈ accept)) out := by
  induction table generalizing out with
  | nil => rfl
  | cons p _ ih =>
    by_cases hp : p.tag ∈ accept
    · rw [filter_cons_of_pos (by simpa using hp), buildTable, if_pos (by simpa using hp)]
      congr 1
      funext written
      rw [ih]
    · rw [filter_cons_of_neg (by simpa using hp), buildTable, if_neg (by simpa using hp), ih]

theorem buildTable_row {p : Cproto} (table : List Cproto) {out w : List UInt8}
    (hbody : ∀ o : List UInt8, o.length = out.length+6 → body p o = .ok (o ++ w))
    (hsize : (out.length:Int)+6 ≤ size) (hck : exprotoCklen msgsizemax p w = true) :
    buildTable size msgsizemax body none (p :: table) out =
      buildTable size msgsizemax body none table (out ++ frame p.tag.toNat w) := by
  have hput : putFrame size Stop.exfail p.tag.toNat (body p) out =
      .ok (out ++ frame p.tag.toNat w) := by
    apply putFrame_ok _ hsize
    apply hbody
    simp
  have hdrop : (out ++ frame p.tag.toNat w).drop (out.length+6) = w := by
    rw [← drop_drop, drop_left, frame, ← append_assoc]
    apply drop_left'
    rw [length_append, beBytes_length, beBytes_length]
  rw [buildTable, if_pos (by rfl), hput, Except.bind, hdrop, if_pos hck]

end

theorem ubfField_filter {t : FldType} (ht : Plain t ∨ t = .ubf) :
    ubfField.filter (fun p => p.tag ∈ [0x10FF, ubfProtoTagMap t]) = [idRow, typeRow t] := by
  rcases ht with (rfl | rfl | rfl | rfl | rfl | rfl) | rfl <;> decide

theorem typeRow_tag {t : FldType} (ht : Plain t ∨ t = .ubf) :
    (typeRow t).tag = ubfProtoTagMap t ∧ ubfProtoTagMap t = (ubfProtoTagMap t).toNat ∧
      (ubfProtoTagMap t).toNat < 32768 ∧
      getDescrFromTag ubfField (ubfProtoTagMap t) = some (typeRow t) ∧ (typeRow t).last = false := by
  rcases ht with (rfl | rfl | rfl | rfl | rfl | rfl) | rfl <;> decide

def wireId (id : Int) : List UInt8 := bcdBytes (numbuf .uint (enc32 id))

section

variable {id : Int} (hid : 0 < id) (hlt : id < 1000000000)
include hid hlt

theorem magnitude_id : magnitude .uint (enc32 id) < 10^9 := by
  have hval : leNat (enc32 id) = id.toNat := by
    rw [enc32, leNat_leBytes]
    omega
  have htake : (enc32 id).take 4 = enc32 id := by rw [← enc32_length id, take_length]
  show leNat ((enc32 id).take 4) < 10^9
  rw [htake]
  omega

theorem cklen_id (msgsizemax : Int) : exprotoCklen msgsizemax idRow (wireId id) = true :=
  cklen_numbuf (show 0 < idRow.fldType.width by decide) (fun h => absurd h (by decide)) (by decide)
    (magnitude_id hid hlt) rfl (by decide) msgsizemax

theorem wireId_length : (wireId id).length ≤ 5 := by
  have hw : 0 < idRow.fldType.width := by decide
  have hmin : idRow.fldType.signed = true →
      signedAt idRow.fldType.width (enc32 id) ≠ -(256^idRow.fldType.width/2) :=
    fun h => absurd h (by decide)
  have hlen := (numbuf_length hw hmin (show 0 < 9 by decide) (magnitude_id hid hlt)).1
  have hbytes := bcdBytes_length (numbuf_isDigit hw hmin)
  rw [if_neg (by decide)] at hlen
  show (bcdBytes (numbuf idRow.fldType (enc32 id))).length ≤ 5
  omega

omit hid hlt in
theorem xCtonet_id {size : Int} {out : List UInt8}
    (hfit : (out.length:Int)+(wireId id).length ≤ size) :
    xCtonet size idRow (enc32 id) 0 out = .ok (out ++ wireId id) := by
  have h : xCtonet size idRow (enc32 id ++ []) 0 out = .ok (out ++ wireId id) :=
    xCtonet_numbuf (show 0 < idRow.fldType.width by decide) (enc32_length id) hfit
  rwa [append_nil] at h

omit hid hlt in
theorem xNettoc_id (after : List UInt8) (old : Int) {msgsizemax : Int} (hsize : 4 ≤ msgsizemax) :
    xNettoc idRow (wireId id ++ after) (wireId id).length (enc32 old) msgsizemax =
      .ok (enc32 id, 0) := by
  have h : xNettoc idRow (wireId id ++ after) (wireId id).length (enc32 old) msgsizemax =
      .ok (enc32 id ++ (enc32 old).drop (enc32 id).length, 0) :=
    xNettoc_numbuf (show 0 < idRow.fldType.width by decide) (enc32_length id)
      (fun h => absurd h (by decide)) hsize (by rw [enc32_length]; decide)
  rwa [enc32_length, ← enc32_length old, drop_length, append_nil] at h

end

def wire : Fields → List UInt8
  | .nil => []
  | .data id v rest =>
    let t := (fldType id).getD .carray
    frame 0x10FF (wireId id) ++ (frame (ubfProtoTagMap t).toNat (wireValue t v) ++ wire rest)
  | .sub id inner rest => frame 0x10FF (wireId id) ++ (frame 0x1153 (wire inner) ++ wire rest)

def Sendable : Fields → Prop
  | .nil => True
  | .data id v rest => (∀ t, fldType id = some t → Plain t ∧ NotMin t v) ∧ Sendable rest
  | .sub _ inner rest => Sendable inner ∧ Sendable rest

def depth : Fields → ℕ
  | .nil => 0
  | .data _ _ rest => depth rest
  | .sub _ inner rest => max (depth inner+1) (depth rest)

def spare : Fields → ℕ
  | .nil => 0
  | .data id _ .nil => spareOf ((fldType id).getD .carray)
  | .sub _ inner .nil => spare inner
  | .data _ _ rest => spare rest
  | .sub _ _ rest => spare rest

theorem spareOf_le (t : FldType) : spareOf t ≤ 1 := by
  rw [spareOf]
  split <;> omega

theorem spare_le (fs : Fields) : spare fs ≤ 1 := by
  induction fs using spare.induct with
  | case1 => exact Nat.zero_le 1
  | case2 => exact spareOf_le _
  | case3 id _ ih => exact ih
  | case4 id v rest hrest ih | case5 id _ rest hrest ih =>
    rw [spare]
    · exact ih
    · exact hrest

theorem spare_data (id : Int) (v : List UInt8) (rest : Fields) :
    spareOf ((fldType id).getD .carray) ≤ (wire rest).length+spare (.data id v rest) ∧
      spare rest ≤ spare (.data id v rest) := by
  have hone := spareOf_le ((fldType id).getD .carray)
  cases rest with
  | nil => exact ⟨Nat.le_add_left _ _, Nat.zero_le _⟩
  | data | sub =>
    refine ⟨?_, le_of_eq rfl⟩
    simp only [wire, length_append, frame_length]
    omega

theorem spare_sub (id : Int) (inner rest : Fields) :
    spare inner ≤ (wire rest).length+spare (.sub id inner rest) ∧
      spare rest ≤ spare (.sub id inner rest) := by
  have hone := spare_le inner
  cases rest with
  | nil => exact ⟨Nat.le_add_left _ _, Nat.zero_le _⟩
  | data | sub =>
    refine ⟨?_, le_of_eq rfl⟩
    simp only [wire, length_append, frame_length]
    omega

theorem id_bounds (r : Rec) : 0 < r.id ∧ r.id < 1000000000 := by
  have h := fldType_eq_some.mp r.type_eq
  have hc : r.type.code ≤ 11 := by cases r.type <;> decide
  exact ⟨r.id_pos, by omega⟩

variable {size msgsizemax : Int}

theorem buildTable_field {sub : List UInt8 → List UInt8 → Except Stop (List UInt8)} (f : UfbFld)
    (id : Int) (out w : List UInt8) {t : FldType} (ht : Plain t ∨ t = .ubf) (hf : f.bfldid = id)
    (hid : 0 < id) (hlt : id < 1000000000)
    (hbody : ∀ o : List UInt8, o.length = out.length+6+(wireId id).length+6 →
      ubfRow size sub f (typeRow t) o = .ok (o ++ w))
    (hck : exprotoCklen msgsizemax (typeRow t) w = true)
    (hfit : (out.length:Int)+6+(wireId id).length+6 ≤ size) :
    buildTable size msgsizemax (ubfRow size sub f) (some [0x10FF, ubfProtoTagMap t]) ubfField out =
      .ok (out ++ (frame 0x10FF (wireId id) ++ frame (ubfProtoTagMap t).toNat w)) := by
  have hlen : (out ++ frame idRow.tag.toNat (wireId id)).length = out.length+6+(wireId id).length := by
    rw [length_append, frame_length]
    omega
  have hidbody (o : List UInt8) (ho : o.length = out.length+6) :
      ubfRow size sub f idRow o = .ok (o ++ wireId id) := by
    subst hf
    exact xCtonet_id (by omega)
  rw [buildTable_filter, ubfField_filter ht,
    buildTable_row _ hidbody (by omega) (cklen_id hid hlt msgsizemax),
    buildTable_row _ (fun o ho => hbody o (by omega)) (by omega) hck, (typeRow_tag ht).1, buildTable,
    append_assoc]
  rfl

theorem ubfRow_leaf {t : FldType} (ht : Plain t) (sub : List UInt8 → List UInt8 → Except Stop (List UInt8))
    (f : UfbFld) (out : List UInt8) :
    ubfRow size sub f (typeRow t) out = xCtonet size (typeRow t) f.buf
      (if (typeRow t).tag = ubfProtoTagMap .carray then f.bfldlen else 0) out := by
  rcases ht with rfl | rfl | rfl | rfl | rfl | rfl <;> rfl

theorem ubfLoop_step {field : Next → List UInt8 → Except Stop (List UInt8)} {b : UBFH}
    {pre post : List Rec} {r : Rec} {out out' : List UInt8} (fuel : ℕ)
    (himg : Image b (pre ++ r :: post))
    (hfield : field ⟨recsSize pre, r.id, r.type, r.data.length⟩ out = .ok out') :
    ubfLoop field b (fuel+1) (bnextAt b (recsSize pre)) out =
      ubfLoop field b fuel (bnextAt b (recsSize (pre ++ [r]))) out' := by
  rw [himg.bnextAt_rec, ubfLoop, hfield, Except.bind, himg.bnextAfter_rec]

/-- The loop sends the fields from the current one on. -/
theorem ubfLoop_fields (fs : Fields) {d fuel : ℕ} {b : UBFH} {pre post : List Rec}
    {out : List UInt8} (himg : Image b (pre ++ post)) (hholds : Holds post fs)
    (hsend : Sendable fs) (hdepth : depth fs ≤ d)
    (hfit : (out.length:Int)+(wire fs).length+spare fs ≤ size)
    (hmax : ((wire fs).length:Int) ≤ msgsizemax) (hfuel : post.length < fuel) :
    ubfLoop (fun f => buildTable size msgsizemax
        (ubfRow size (buildUbf size msgsizemax d) (ufbFld b f))
        (some [0x10FF, ubfProtoTagMap f.type]) ubfField)
      b fuel (bnextAt b (recsSize pre)) out = .ok (out ++ wire fs) := by
  obtain ⟨fuel, rfl⟩ : ∃ k, fuel = k+1 := ⟨fuel-1, by omega⟩
  induction fs generalizing d fuel b pre post out with
  | nil =>
    obtain rfl : post = [] := hholds
    rw [append_nil] at himg
    rw [himg.bnextAt_end, ubfLoop, wire, append_nil]
  | data id v rest ih =>
    obtain ⟨r, rs, rfl, rfl, _, rfl, hrest⟩ := hholds
    obtain ⟨hleaf, hsend⟩ := hsend
    obtain ⟨hplain, hmin⟩ := hleaf r.type r.type_eq
    obtain ⟨hid, hlt⟩ := id_bounds r
    obtain ⟨tail, htail⟩ := himg.data_drop
    obtain ⟨hspare, hspare'⟩ := spare_data r.id r.data rest
    have hty : (fldType r.id).getD .carray = r.type := by rw [r.type_eq, Option.getD_some]
    rw [hty] at hspare
    simp only [wire, hty, length_append, frame_length] at hfit hmax ⊢
    rw [length_cons] at hfuel
    obtain ⟨fuel, rfl⟩ : ∃ k, fuel = k+1 := ⟨fuel-1, by omega⟩
    have hbody (o : List UInt8) (ho : o.length = out.length+6+(wireId r.id).length+6) :
        ubfRow size (buildUbf size msgsizemax d) (ufbFld b ⟨recsSize pre, r.id, r.type, r.data.length⟩)
          (typeRow r.type) o = .ok (o ++ wireValue r.type r.data) := by
      rw [ubfRow_leaf hplain, ufbFld, Next.data, htail]
      exact xCtonet_leaf hplain r.data_ok tail (by omega)
    have hck : exprotoCklen msgsizemax (typeRow r.type) (wireValue r.type r.data) = true :=
      cklen_leaf hplain r.data_ok hmin (by omega)
    have hfield := buildTable_field (ufbFld b ⟨recsSize pre, r.id, r.type, r.data.length⟩) r.id out
      (wireValue r.type r.data) (.inl hplain) rfl hid hlt hbody hck (by omega)
    rw [ubfLoop_step (fuel+1) himg hfield]
    rw [show pre ++ r :: rs = (pre ++ [r]) ++ rs by simp] at himg
    rw [ih himg hrest hsend hdepth (by simp only [length_append, frame_length]; omega) (by omega)
      fuel (by omega)]
    simp
  | sub id inner rest ihinner ihrest =>
    obtain ⟨r, rs, rfl, rfl, hubf, ⟨qs, hqs, hinner⟩, hrest⟩ := hholds
    obtain ⟨hid, hlt⟩ := id_bounds r
    obtain ⟨tail, htail⟩ := himg.data_drop
    obtain ⟨_, _⟩ := spare_sub r.id inner rest
    simp only [wire, length_append, frame_length] at hfit hmax ⊢
    rw [length_cons] at hfuel
    obtain ⟨fuel, rfl⟩ : ∃ k, fuel = k+1 := ⟨fuel-1, by omega⟩
    simp only [depth] at hdepth
    -- the nested buffer is walked in its record, with one level less to go
    obtain ⟨d, rfl⟩ : ∃ k, d = k+1 := ⟨d-1, by omega⟩
    have hlen : 56 ≤ r.data.length := by
      have hok := r.data_ok
      rw [hubf] at hok
      exact hok.1
    have hin := hqs.append hlen tail
    have hbody (o : List UInt8) (ho : o.length = out.length+6+(wireId r.id).length+6) :
        ubfRow size (buildUbf size msgsizemax (d+1))
          (ufbFld b ⟨recsSize pre, r.id, r.type, r.data.length⟩) (typeRow r.type) o =
          .ok (o ++ wire inner) := by
      have hsub : ubfRow size (buildUbf size msgsizemax (d+1))
          (ufbFld b ⟨recsSize pre, r.id, r.type, r.data.length⟩) (typeRow r.type) o =
          buildUbf size msgsizemax (d+1) (r.data ++ tail) o := by
        have hty : fldType r.id = some .ubf := by rw [r.type_eq, hubf]
        rw [hubf] at htail ⊢
        simp [ubfRow, typeRow, row, ufbFld, Next.data, htail, hty]
      have hfuel' : qs.length < (UBFH.ofBytes (r.data ++ tail)).mem.length+1 := by
        obtain ⟨_, hs⟩ := hin.slack
        have := length_le_recsSize qs
        rw [hs, length_append, ← recsSize]
        omega
      rw [hsub, buildUbf]
      exact ihinner (show Image _ ([] ++ qs) from hin) hinner hsend.1 (by omega) (by omega) (by omega)
        _ hfuel'
    have hck : exprotoCklen msgsizemax (typeRow r.type) (wire inner) = true := by
      rw [hubf]
      exact cklen_bytes rfl rfl rfl (by omega)
    have hfield := buildTable_field (ufbFld b ⟨recsSize pre, r.id, r.type, r.data.length⟩) r.id out
      (wire inner) (.inr hubf) rfl hid hlt hbody hck (by omega)
    have htag : (ubfProtoTagMap r.type).toNat = 0x1153 := by rw [hubf]; rfl
    rw [ubfLoop_step (fuel+1) himg hfield, htag]
    rw [show pre ++ r :: rs = (pre ++ [r]) ++ rs by simp] at himg
    rw [ihrest himg hrest hsend.2 (by omega)
      (by simp only [length_append, frame_length]; omega) (by omega) fuel (by omega)]
    simp

end Endurox.NetProto
