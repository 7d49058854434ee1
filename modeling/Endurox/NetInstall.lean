import Endurox.NetRoundTrip

/-! What a received message puts into a UBF buffer. Ids and values are records of their own, in
the order the sender chose: a value is put together in the scratch area and added under the id that
was read before it, whatever type the id has. -/

namespace Endurox.NetProto

open Base Base.Tlv UBF

def floatWidth : ExfType → ℕ
  | .float => 4
  | _ => 8

/-- The receiver: the configured size of a message, what the system buffer that is taken at a place
holds, the floating point conversions, and the views. -/
structure Receiver where
  msgsizemax : Int
  sysbuf : ℕ → List UInt8
  readFloat : (t : ExfType) → List Char → Char → Vector UInt8 (floatWidth t)
  keepFloat : (t : ExfType) → List UInt8 → Char → Vector UInt8 (floatWidth t)
  view : ℕ → List UInt8 → List UInt8 → Except Stop (List UInt8)
  addView : UfbScratch → UBFH → Int → Except Stop (BfldLocInfo × UBFH)

variable (r : Receiver)

def nettocFloat (t : ExfType) (data cBuf : List UInt8) (cBufsz : Int) :
    Except Stop (List UInt8 × Int) :=
  match nettocDigits t data with
  | none => .error .outside
  | some (digits, sign) =>
    if (floatWidth t:Int) > cBufsz then .error .exfail
    else if digits.head?.any Char.isDigit then
      (poke cBuf (r.readFloat t digits sign).toList).map (·, 0)
    else (poke cBuf (r.keepFloat t cBuf sign).toList).map (·, 0)

def nettoc (fld : Cproto) (datap : List UInt8) (tagLen : ℕ) (cBuf : List UInt8) (cBufsz : Int) :
    Except Stop (List UInt8 × Int) :=
  if fld.fldType = .float ∨ fld.fldType = .double then
    nettocFloat r fld.fldType (datap.take tagLen) cBuf cBufsz
  else xNettoc fld datap tagLen cBuf cBufsz

/-- An occurrence that was added: its id, the value record it came from, and the bytes that
`Baddfast` took. -/
structure Installed where
  bfldid : Int
  tag : Int
  payload : List UInt8
  value : Option (List UInt8)
  deriving DecidableEq

structure Filling where
  scratch : UfbScratch
  buf : UBFH
  installed : List Installed

def addValue (f : UfbScratch) (b : UBFH) (len : Int) : Except Stop (UfbScratch × UBFH) :=
  if fldType f.bfldid = some .view then
    (r.addView f b len).map (fun x => ({f with nextFld := x.1}, x.2))
  else addField f b len

def install (f : UfbScratch) (s : Filling) (tag : Int) (payload : List UInt8) (len : Int) :
    Except Stop Filling :=
  (addValue r f s.buf len).map (fun x => ⟨x.1, x.2, s.installed ++
    [⟨f.bfldid, tag, payload, (fldType f.bfldid).bind (valueOf · f.buf len)⟩]⟩)

def installStep (nested : ℕ → List UInt8 → ℕ → Filling → Except Stop (ℕ × Filling)) (pos : ℕ)
    (tag : Int) (fld : Cproto) (datap : List UInt8) (len : ℕ) (s : Filling) : Except Stop Filling :=
  if !exprotoCklen r.msgsizemax fld (datap.take len) then .error .exfail
  else match fld.type with
  | .fld =>
    (nettoc r fld datap len (enc32 s.scratch.bfldid) r.msgsizemax).map
      (fun x => {s with scratch := {s.scratch with bfldid := dec32 x.1}})
  | .fldPtr =>
    (nettoc r fld datap len s.scratch.buf (r.msgsizemax-ufbBufOffset)).bind (fun x =>
      if ubfProtoTagMap .short ≤ tag ∧ tag ≤ ubfProtoTagMap .ptr then
        install r {s.scratch with buf := x.1} s tag (datap.take len) x.2
      else .ok {s with scratch := {s.scratch with buf := x.1}})
  | .atmiBufPtr =>
    match fldType s.scratch.bfldid with
    | some .ubf =>
      (newScratch (r.sysbuf pos)).bind (fun f =>
        (openUbf s.scratch.buf).bind (fun b =>
          (nested pos datap len ⟨f, b, []⟩).bind (fun x =>
            install r {s.scratch with buf := (closeUbf x.2.buf).block}
              {s with installed := s.installed ++ x.2.installed} tag (datap.take len) 0)))
    | some .view =>
      (newScratch (r.sysbuf pos)).bind (fun _ =>
        (r.view pos (datap.take len) s.scratch.buf).bind (fun buf =>
          install r {s.scratch with buf := buf} s tag (datap.take len) 0))
    | _ => .error .exfail
  | _ => .error .unmodelled

def installProto2ex : ℕ → ℕ → List UInt8 → ℕ → Filling → Except Stop (ℕ × Filling)
  | 0, _, _, _, _ => .error .outside
  | depth+1, pos, mem, left, s =>
    scan .exfail (getDescrFromTag ubfField) Cproto.last (installStep r (installProto2ex depth))
      (left+1) pos mem left s

def receivedInt (t : ExfType) (payload : List UInt8) : Option (List UInt8) :=
  (nettocDigits t payload).bind (fun x =>
    (scanInt t.signed x.1).map (fun n =>
      intBytes t.width (if t.signed ∧ x.2 = '1' then -wrap (256^t.width/2) n else n)))

def receivedFloat (t : ExfType) (payload : List UInt8) : Option (List UInt8) :=
  (nettocDigits t payload).bind (fun x =>
    if x.1.head?.any Char.isDigit then some (r.readFloat t x.1 x.2).toList else none)

def received (t : FldType) (payload : List UInt8) : Option (List UInt8) :=
  match t with
  | .short => receivedInt .short payload
  | .long | .ptr => receivedInt .long payload
  | .char => payload.head?.map (fun c => [c])
  | .float => receivedFloat r .float payload
  | .double => receivedFloat r .double payload
  | .string => some (payload.takeWhile (· ≠ 0) ++ [0])
  | .carray => some payload
  | _ => none

def Single (t : FldType) : Prop := t ≠ .ubf ∧ t ≠ .view

instance (t : FldType) : Decidable (Single t) := by unfold Single; infer_instance

def Genuine (e : Installed) : Prop :=
  ∃ t, fldType e.bfldid = some t ∧ e.tag = ubfProtoTagMap t ∧
    (Single t → ∃ v, received r t e.payload = some v ∧ e.value = some v)

def idAfter (id : Int) (fld : Cproto) (datap : List UInt8) (len : ℕ) : Int :=
  match nettoc r fld datap len (enc32 id) r.msgsizemax with
  | .ok x => dec32 x.1
  | .error _ => id

def tagFits (id tag : Int) (payload : List UInt8) : Bool :=
  match fldType id with
  | none => false
  | some t => tag = ubfProtoTagMap t ∧ (Single t → (received r t payload).isSome)

def fitStep (nested : ℕ → List UInt8 → ℕ → Int × Bool → Except Stop (ℕ × (Int × Bool))) (pos : ℕ)
    (tag : Int) (fld : Cproto) (datap : List UInt8) (len : ℕ) (s : Int × Bool) :
    Except Stop (Int × Bool) :=
  match fld.type with
  | .fld => .ok (idAfter r s.1 fld datap len, s.2)
  | .atmiBufPtr =>
    if fldType s.1 = some .ubf then
      (nested pos datap len (0, true)).map (fun x =>
        (s.1, s.2 && x.2.2 && tagFits r s.1 tag (datap.take len)))
    else .ok (s.1, s.2 && tagFits r s.1 tag (datap.take len))
  | _ => .ok (s.1, s.2 && tagFits r s.1 tag (datap.take len))

def fitProto2ex : ℕ → ℕ → List UInt8 → ℕ → Int × Bool → Except Stop (ℕ × (Int × Bool))
  | 0, _, _, _, _ => .error .outside
  | depth+1, pos, mem, left, s =>
    scan .exfail (getDescrFromTag ubfField) Cproto.last (fitStep r (fitProto2ex depth))
      (left+1) pos mem left s

/-- Every value record of the message, on every level, fits the id before it. -/
def AllFit (depth pos : ℕ) (mem : List UInt8) (left : ℕ) (id : Int) : Prop :=
  ∃ n id', fitProto2ex r depth pos mem left (id, true) = .ok (n, (id', true))

variable {tag : Int} {fld : Cproto}

theorem descrLoop_mem {table : List Cproto} {fuel : ℕ} {first last : Int}
    (h : descrLoop table tag fuel first last = some fld) : fld ∈ table ∧ fld.tag = tag := by
  induction fuel generalizing first last with
  | zero => cases h
  | succ fuel ih =>
    rw [descrLoop] at h
    split at h
    · obtain ⟨_, hmid, h⟩ := Option.bind_eq_some_iff.mp h
      split at h
      · exact ih h
      · split at h
        · next htag =>
          obtain rfl := Option.some.inj h
          exact ⟨List.mem_of_getElem? hmid, htag⟩
        · exact ih h
    · cases h

theorem getDescrFromTag_mem {table : List Cproto}
    (h : getDescrFromTag table tag = some fld) : fld ∈ table ∧ fld.tag = tag :=
  descrLoop_mem h

variable {cBuf : List UInt8} {x : List UInt8 × Int}

theorem poke_ok {bs : List UInt8} {n : Int}
    (h : (poke cBuf bs).map (·, n) = .ok x) : x = (bs ++ cBuf.drop bs.length, n) := by
  rw [poke] at h
  split at h
  · cases h
    rfl
  · cases h

theorem intBytes_length (n : ℕ) (x : Int) : (intBytes n x).length = n := leBytes_length _ _

variable {r}

variable {cBufsz : Int}

theorem nettocInt_received {t : ExfType} {data v : List UInt8}
    (h : nettocInt t data cBuf cBufsz = .ok x)
    (hv : receivedInt t data = some v) : v.length = t.width ∧ x = (v ++ cBuf.drop v.length, 0) := by
  obtain ⟨⟨_, _⟩, hdigits, hv⟩ := Option.bind_eq_some_iff.mp hv
  obtain ⟨_, hscan, rfl⟩ := Option.map_eq_some_iff.mp hv
  rw [nettocInt, hdigits] at h
  dsimp only at h hscan
  rw [storedInt, hscan] at h
  split at h
  · cases h
  · exact ⟨intBytes_length _ _, poke_ok h⟩

theorem nettocFloat_received {t : ExfType} {data v : List UInt8}
    (h : nettocFloat r t data cBuf cBufsz = .ok x)
    (hv : receivedFloat r t data = some v) : v.length = floatWidth t ∧ x = (v ++ cBuf.drop v.length, 0) := by
  obtain ⟨⟨_, _⟩, hdigits, hv⟩ := Option.bind_eq_some_iff.mp hv
  rw [nettocFloat, hdigits] at h
  dsimp only at h hv
  split at hv
  · next hd =>
    obtain rfl := Option.some.inj hv
    split at h
    · cases h
    · exact ⟨Vector.length_toList, poke_ok h⟩
  · cases hv

theorem takeWhile_of_not_mem {s : List UInt8} (hs : 0 ∉ s) (rest : List UInt8) :
    s.takeWhile (· ≠ 0) = s ∧ (s ++ 0 :: rest).takeWhile (· ≠ 0) = s := by
  have hall : ∀ c ∈ s, decide (c ≠ 0) = true := fun c hc => decide_eq_true (ne_of_mem_of_not_mem hc hs)
  constructor
  · exact List.takeWhile_eq_self_iff.mpr hall
  · rw [List.takeWhile_append_of_pos hall, List.takeWhile_cons_of_neg (by decide), List.append_nil]

variable {datap : List UInt8}

theorem xNettoc_string_value (ht : fld.fldType = .string)
    {len : ℕ} (h : xNettoc fld datap len cBuf cBufsz = .ok x) :
    ∃ rest, x.1 = (datap.take len).takeWhile (· ≠ 0) ++ 0 :: rest := by
  simp only [xNettoc, ht] at h
  split at h
  · cases h
  cases hs : UBF.cstr datap with
  | none =>
    rw [hs] at h
    cases h
  | some s =>
    simp only [hs] at h
    obtain ⟨hzero, rest, rfl⟩ := cstr_eq_some hs
    split at h
    · cases h
      rcases Nat.lt_or_ge s.length len with hlt | hge
      · -- the end of the string is copied with it
        obtain ⟨k, rfl⟩ : ∃ k, len = s.length+1+k := ⟨len-(s.length+1), by omega⟩
        have htake : (s ++ 0 :: rest).take (s.length+1) = s ++ [0] := by
          rw [show s ++ 0 :: rest = (s ++ [0]) ++ rest by simp]
          exact List.take_left' (by simp)
        have hvalue : (s ++ 0 :: rest).take (s.length+1+k) = s ++ 0 :: rest.take k := by
          rw [List.take_append, List.take_of_length_le (by omega),
            show s.length+1+k-s.length = k+1 by omega, List.take_succ_cons]
        rw [hvalue, (takeWhile_of_not_mem hzero _).2, min_eq_left (by omega), htake]
        refine ⟨(cBuf.drop (s.length+1)).take k ++
          0 :: (s ++ [0] ++ cBuf.drop (s.length+1)).drop (s.length+1+k+1), ?_⟩
        have hfront : (s ++ [0] ++ cBuf.drop (s.length+1)).take (s.length+1+k) =
            s ++ 0 :: (cBuf.drop (s.length+1)).take k := by
          rw [List.take_append, List.take_of_length_le (by simp), List.length_append,
            List.length_singleton, Nat.add_sub_cancel_left, List.append_assoc, List.singleton_append]
        rw [hfront, List.append_assoc, List.cons_append]
      · have hvalue : (s ++ 0 :: rest).take len = s.take len := List.take_append_of_le_length hge
        have hzero' : 0 ∉ s.take len := fun h => hzero (List.mem_of_mem_take h)
        rw [hvalue, (takeWhile_of_not_mem hzero' rest).1, min_eq_right (by omega), hvalue]
        refine ⟨(s.take len ++ cBuf.drop len).drop (len+1), ?_⟩
        rw [List.take_left' (by rw [List.length_take]; omega)]
    · cases h

/-- A received value is decoded to the bytes it stands for. -/
theorem nettoc_value (hfind : getDescrFromTag ubfField tag = some fld)
    {v : List UInt8} {len : ℕ} (hlen : len ≤ datap.length)
    (h : nettoc r fld datap len cBuf cBufsz = .ok x) {t : FldType}
    (htag : tag = ubfProtoTagMap t) (hv : received r t (datap.take len) = some v) :
    valueOf t x.1 x.2 = some v := by
  have hint {t' : ExfType} (hw : 0 < t'.width) (ht : fld.fldType = t') (hnf : t' ≠ .float ∧ t' ≠ .double)
      (hr : receivedInt t' (datap.take len) = some v) :
      v.length = t'.width ∧ x = (v ++ cBuf.drop v.length, 0) := by
    rw [nettoc, if_neg (by rw [ht]; simp [hnf]), xNettoc_int (by rw [ht]; exact hw), ht] at h
    exact nettocInt_received h hr
  have hfloat {t' : ExfType} (ht : fld.fldType = t') (hf : t' = .float ∨ t' = .double)
      (hr : receivedFloat r t' (datap.take len) = some v) :
      v.length = floatWidth t' ∧ x = (v ++ cBuf.drop v.length, 0) := by
    rw [nettoc, if_pos (by rw [ht]; exact hf), ht] at h
    exact nettocFloat_received h hr
  have hrow : getDescrFromTag ubfField (ubfProtoTagMap t) = some fld := htag ▸ hfind
  cases t with
  | short =>
    obtain rfl : row 0x1113 .short .fldPtr 1 6 = fld := Option.some.inj hrow
    obtain ⟨hl, rfl⟩ := hint (by decide) rfl (by decide) hv
    exact slice_front _ _ hl.symm
  | long =>
    obtain rfl : row 0x111D .long .fldPtr 1 20 = fld := Option.some.inj hrow
    obtain ⟨hl, rfl⟩ := hint (by decide) rfl (by decide) hv
    exact slice_front _ _ hl.symm
  | ptr =>
    obtain rfl : row 0x1152 .long .fldPtr 1 20 = fld := Option.some.inj hrow
    obtain ⟨hl, rfl⟩ := hint (by decide) rfl (by decide) hv
    exact slice_front _ _ hl.symm
  | float =>
    obtain rfl : row 0x1131 .float .fldPtr 1 40 = fld := Option.some.inj hrow
    obtain ⟨hl, rfl⟩ := hfloat rfl (by decide) hv
    exact slice_front _ _ hl.symm
  | double =>
    obtain rfl : row 0x113B .double .fldPtr 1 40 = fld := Option.some.inj hrow
    obtain ⟨hl, rfl⟩ := hfloat rfl (by decide) hv
    exact slice_front _ _ hl.symm
  | char =>
    obtain rfl : row 0x1127 .char .fldPtr 1 1 = fld := Option.some.inj hrow
    obtain ⟨c, hc, rfl⟩ := Option.map_eq_some_iff.mp hv
    obtain ⟨rest, rfl⟩ : ∃ rest, datap = c :: rest := by
      rw [List.head?_take] at hc
      split at hc
      · cases hc
      · exact List.head?_eq_some_iff.mp hc
    rw [nettoc, if_neg (by decide)] at h
    simp only [xNettoc, row] at h
    split at h
    · cases h
    · obtain rfl := poke_ok h
      exact slice_front [c] _ rfl
  | string =>
    obtain rfl : row 0x1145 .string .fldPtr 0 pmsgmax = fld := Option.some.inj hrow
    rw [nettoc, if_neg (by decide)] at h
    obtain ⟨_, hx⟩ := xNettoc_string_value rfl h
    have hzero : 0 ∉ (datap.take len).takeWhile (· ≠ 0) := by
      intro hmem
      have hne := List.mem_takeWhile_imp hmem
      exact of_decide_eq_true hne rfl
    rw [valueOf, hx, cstr_append hzero]
    exact hv
  | carray =>
    obtain rfl : row 0x114F .carray .fldPtr 0 pmsgmax = fld := Option.some.inj hrow
    obtain rfl := Option.some.inj hv
    rw [nettoc, if_neg (by decide)] at h
    simp only [xNettoc, row] at h
    split at h
    · cases h
    · obtain rfl := poke_ok h
      exact slice_front _ _ (by rw [List.length_take]; omega)
  | _ => cases hv

variable {len : Int}

theorem genuine_iff {id : Int} {payload buf : List UInt8}
    (hvalue : ∀ t v, tag = ubfProtoTagMap t → Single t → received r t payload = some v →
      valueOf t buf len = some v) :
    Genuine r ⟨id, tag, payload, (fldType id).bind (valueOf · buf len)⟩ ↔
      tagFits r id tag payload = true := by
  rw [tagFits, Genuine]
  cases fldType id with
  | none => simp
  | some t =>
    simp only [Option.some.injEq, decide_eq_true_eq, exists_eq_left', Option.isSome_iff_exists]
    constructor
    · intro ⟨htag, h⟩
      exact ⟨htag, fun hs => (h hs).imp (fun v hv => hv.1)⟩
    · intro ⟨htag, h⟩
      exact ⟨htag, fun hs => (h hs).imp (fun v hv => ⟨hv, hvalue t v htag hs hv⟩)⟩

structure Sees (r : Receiver) (s : Filling) (c : Int × Bool) : Prop where
  id : c.1 = s.scratch.bfldid
  fits : c.2 = true ↔ ∀ e ∈ s.installed, Genuine r e

variable {f : UfbScratch}

theorem addValue_bfldid {b : UBFH} {x : UfbScratch × UBFH}
    (h : addValue r f b len = .ok x) : x.1.bfldid = f.bfldid := by
  rw [addValue] at h
  split at h
  · cases hv : r.addView f b len with
    | error =>
      rw [hv] at h
      cases h
    | ok =>
      rw [hv] at h
      cases h
      rfl
  · rw [addField] at h
    split at h
    · cases h
    · split at h
      · cases h
        rfl
      · cases h

theorem install_sees {s s' : Filling} {payload : List UInt8}
    {fit : Bool} (hs : fit = true ↔ ∀ e ∈ s.installed, Genuine r e)
    (hrun : install r f s tag payload len = .ok s')
    (hvalue : ∀ t v, tag = ubfProtoTagMap t → Single t → received r t payload = some v →
      valueOf t f.buf len = some v) :
    Sees r s' (f.bfldid, fit && tagFits r f.bfldid tag payload) := by
  obtain ⟨_, hadd, rfl⟩ := map_eq_ok.mp hrun
  refine ⟨(addValue_bfldid hadd).symm, ?_⟩
  rw [Bool.and_eq_true, hs, ← genuine_iff hvalue]
  simp only [List.forall_mem_append, List.forall_mem_singleton]

theorem not_single_of_row {t : FldType} (ht : tag = ubfProtoTagMap t)
    (hrow : tag = ubfProtoTagMap .ubf ∨ tag = ubfProtoTagMap .view) : ¬Single t := by
  subst ht
  cases t <;> revert hrow <;> decide

/-- One step of the install sees the same fields as the step of the fit. -/
theorem installStep_sees {nested : ℕ → List UInt8 → ℕ → Filling → Except Stop (ℕ × Filling)}
    {nested' : ℕ → List UInt8 → ℕ → Int × Bool → Except Stop (ℕ × (Int × Bool))}
    (hnested : ∀ pos mem left s n s', left ≤ mem.length → s.installed = [] →
      nested pos mem left s = .ok (n, s') →
      ∃ c, nested' pos mem left (s.scratch.bfldid, true) = .ok (n, c) ∧ Sees r s' c)
    {pos : ℕ} {len : ℕ} {s s' : Filling}
    {c : Int × Bool} (hfind : getDescrFromTag ubfField tag = some fld) (hlen : len ≤ datap.length)
    (hc : Sees r s c) (hrun : installStep r nested pos tag fld datap len s = .ok s') :
    ∃ c', fitStep r nested' pos tag fld datap len c = .ok c' ∧ Sees r s' c' := by
  obtain ⟨_, fit⟩ := c
  obtain ⟨rfl, hfit⟩ := hc
  obtain ⟨hmem, rfl⟩ := getDescrFromTag_mem hfind
  rw [installStep] at hrun
  split at hrun
  · cases hrun
  rw [fitStep]
  cases hty : fld.type with
  | fld =>
    simp only [hty] at hrun ⊢
    obtain ⟨x, hx, rfl⟩ := map_eq_ok.mp hrun
    refine ⟨_, rfl, ?_, hfit⟩
    rw [idAfter, hx]
  | fldPtr =>
    simp only [hty] at hrun ⊢
    obtain ⟨_, hx, hadd⟩ := bind_eq_ok.mp hrun
    have hrange : ∀ p ∈ ubfField, p.type = .fldPtr →
        ubfProtoTagMap .short ≤ p.tag ∧ p.tag ≤ ubfProtoTagMap .ptr := by decide
    rw [if_pos (hrange fld hmem hty)] at hadd
    have hsees := install_sees hfit hadd (fun t v ht _ hv => nettoc_value hfind hlen hx ht hv)
    exact ⟨_, rfl, hsees⟩
  | atmiBufPtr =>
    simp only [hty] at hrun ⊢
    -- the values of these rows are put together from records of their own
    have hrows : ∀ p ∈ ubfField, p.type = .atmiBufPtr →
        p.tag = ubfProtoTagMap .ubf ∨ p.tag = ubfProtoTagMap .view := by decide
    have hmany {buf : List UInt8} (t : FldType) (v : List UInt8) (ht : fld.tag = ubfProtoTagMap t)
        (hsingle : Single t) (_ : received r t (datap.take len) = some v) :
        valueOf t buf 0 = some v :=
      absurd hsingle (not_single_of_row ht (hrows fld hmem hty))
    split at hrun
    · next hubf =>
      rw [if_pos hubf]
      obtain ⟨f, hf, hrun⟩ := bind_eq_ok.mp hrun
      obtain ⟨_, _, hrun⟩ := bind_eq_ok.mp hrun
      obtain ⟨⟨_, s1⟩, hinner, hadd⟩ := bind_eq_ok.mp hrun
      have hid : f.bfldid = 0 := by
        rw [newScratch] at hf
        split at hf
        · cases hf
        · cases hf
          rfl
      obtain ⟨c1, hrun1, hc1⟩ := hnested _ _ _ _ _ _ hlen rfl hinner
      rw [hid] at hrun1
      rw [hrun1]
      have hboth : (fit && c1.2) = true ↔ ∀ e ∈ s.installed ++ s1.installed, Genuine r e := by
        rw [Bool.and_eq_true, hfit, hc1.fits, List.forall_mem_append]
      have hsees := install_sees hboth hadd hmany
      exact ⟨_, rfl, hsees⟩
    · next hview =>
      rw [if_neg (by rw [hview]; decide)]
      obtain ⟨_, _, hrun⟩ := bind_eq_ok.mp hrun
      obtain ⟨_, _, hadd⟩ := bind_eq_ok.mp hrun
      have hsees := install_sees hfit hadd hmany
      exact ⟨_, rfl, hsees⟩
    · cases hrun
  | _ =>
    simp only [hty] at hrun
    cases hrun

theorem installProto2ex_sees (d : ℕ) {pos left n : ℕ} {mem : List UInt8} {s s' : Filling}
    (hleft : left ≤ mem.length) (hempty : s.installed = [])
    (hrun : installProto2ex r d pos mem left s = .ok (n, s')) :
    ∃ c, fitProto2ex r d pos mem left (s.scratch.bfldid, true) = .ok (n, c) ∧ Sees r s' c := by
  induction d generalizing pos left n mem s s' with
  | zero => cases hrun
  | succ d ih =>
    apply scan_rel (R := Sees r) _ hleft ⟨rfl, by simp [hempty]⟩ hrun
    intro pos tag fld datap len s c s' hfind hlen hc hstep
    exact installStep_sees (fun _ _ _ _ _ _ hl he h => ih hl he h) hfind hlen hc hstep

def plainReceiver (msgsizemax : Int) (sysbuf : ℕ → List UInt8) : Receiver where
  msgsizemax := msgsizemax
  sysbuf := sysbuf
  readFloat _ _ _ := Vector.replicate _ 0
  keepFloat _ _ _ := Vector.replicate _ 0
  view _ _ _ := .error .unmodelled
  addView f b len := (addField f b len).map (fun x => (x.1.nextFld, x.2))

theorem nettoc_of_ok {len : ℕ} (h : xNettoc fld datap len cBuf cBufsz = .ok x) :
    nettoc r fld datap len cBuf cBufsz = .ok x := by
  rw [nettoc, if_neg, h]
  rintro (hf | hf) <;> · simp only [xNettoc, hf] at h; cases h

variable {sysbuf : ℕ → List UInt8} {msgsizemax : Int}

theorem addValue_of_ok {b : UBFH} {x : UfbScratch × UBFH} (h : addField f b len = .ok x) :
    addValue (plainReceiver msgsizemax sysbuf) f b len = .ok x := by
  rw [addValue]
  split
  · have hloc : x.1 = {f with nextFld := x.1.nextFld} := by
      rw [addField] at h
      split at h
      · cases h
      · split at h
        · cases h
          rfl
        · cases h
    show ((addField f b len).map _).map _ = _
    rw [h, Except.map, Except.map, ← hloc]
  · exact h

def SamePlace (s : UfbScratch × UBFH) (s' : Filling) : Prop := s'.scratch = s.1 ∧ s'.buf = s.2

theorem install_of_ok {b : UBFH} {x : UfbScratch × UBFH} (h : addField f b len = .ok x)
    (s : Filling) (hb : s.buf = b) (tag : Int) (payload : List UInt8) :
    ∃ s', install (plainReceiver msgsizemax sysbuf) f s tag payload len = .ok s' ∧ SamePlace x s' := by
  rw [install, hb, addValue_of_ok h]
  exact ⟨_, rfl, rfl, rfl⟩

theorem installProto2ex_of_ok (d : ℕ) {pos left n : ℕ} {mem : List UInt8}
    {s s' : UfbScratch × UBFH} {t : Filling} (hleft : left ≤ mem.length) (ht : SamePlace s t)
    (hrun : ubfProto2ex msgsizemax sysbuf d pos mem left s = .ok (n, s')) :
    ∃ t', installProto2ex (plainReceiver msgsizemax sysbuf) d pos mem left t = .ok (n, t') ∧
      SamePlace s' t' := by
  induction d generalizing pos left n mem s s' t with
  | zero => cases hrun
  | succ d ih =>
    apply scan_rel (R := SamePlace) _ hleft ht hrun
    intro pos tag fld datap len s t s' hfind hlen hst hstep
    obtain ⟨_, _⟩ := s
    obtain ⟨f', _, _⟩ := t
    obtain ⟨rfl, rfl⟩ := hst
    have hmax : (plainReceiver msgsizemax sysbuf).msgsizemax = msgsizemax := rfl
    have hsys : (plainReceiver msgsizemax sysbuf).sysbuf = sysbuf := rfl
    rw [ubfStep] at hstep
    rw [installStep, hmax, hsys]
    split at hstep
    · cases hstep
    next hck =>
    rw [if_neg hck]
    cases hty : fld.type with
    | fld =>
      simp only [hty] at hstep ⊢
      obtain ⟨x, hx, rfl⟩ := map_eq_ok.mp hstep
      rw [nettoc_of_ok hx]
      exact ⟨_, rfl, rfl, rfl⟩
    | fldPtr =>
      simp only [hty] at hstep ⊢
      obtain ⟨_, hx, hadd⟩ := bind_eq_ok.mp hstep
      rw [nettoc_of_ok hx, Except.bind]
      by_cases hrange : ubfProtoTagMap .short ≤ tag ∧ tag ≤ ubfProtoTagMap .ptr
      · rw [if_pos hrange] at hadd ⊢
        exact install_of_ok hadd _ rfl _ _
      · rw [if_neg hrange] at hadd ⊢
        cases hadd
        exact ⟨_, rfl, rfl, rfl⟩
    | atmiBufPtr =>
      simp only [hty] at hstep ⊢
      cases hubf : fldType f'.bfldid with
      | none =>
        rw [hubf] at hstep
        cases hstep
      | some ft =>
      rw [hubf] at hstep
      cases ft with
      | ubf =>
        obtain ⟨f1, hf, hstep⟩ := bind_eq_ok.mp hstep
        obtain ⟨b1, hb, hstep⟩ := bind_eq_ok.mp hstep
        obtain ⟨⟨_, _⟩, hinner, hadd⟩ := bind_eq_ok.mp hstep
        obtain ⟨_, ht1, hsame⟩ := ih hlen (t := ⟨f1, b1, []⟩) ⟨rfl, rfl⟩ hinner
        rw [hf, Except.bind, hb, Except.bind, ht1, Except.bind, hsame.2]
        exact install_of_ok hadd _ rfl _ _
      | _ => cases hstep
    | _ =>
      simp only [hty] at hstep
      cases hstep

/-- In a message that was read into a UBF buffer every occurrence is genuine exactly when every
value record fits the id before it. -/
theorem installed_genuine_iff {r : Receiver} {d pos left n : ℕ} {mem : List UInt8} {f : UfbScratch}
    {b : UBFH} {s : Filling} (hleft : left ≤ mem.length)
    (hrun : installProto2ex r d pos mem left ⟨f, b, []⟩ = .ok (n, s)) :
    (∀ e ∈ s.installed, Genuine r e) ↔ AllFit r d pos mem left f.bfldid := by
  obtain ⟨c, hfit, hc⟩ := installProto2ex_sees d hleft rfl hrun
  rw [← hc.fits]
  constructor
  · intro h
    exact ⟨n, c.1, by rw [hfit, ← h]⟩
  · intro ⟨n', id', h⟩
    rw [hfit] at h
    cases h
    rfl

def emptyUbf : UBFH := ⟨Header.init 128, List.replicate 72 0⟩

theorem installed_genuine_short : ∃ n s, installProto2ex (plainReceiver 65552 (fun _ => [])) 1 0
        (frame 0x10FF [0x01, 0x01] ++ frame 0x1113 [0x50]) 15
        ⟨⟨0, List.replicate 16 0, ⟨none, 0⟩⟩, emptyUbf, []⟩ = .ok (n, s) ∧
      s.installed = [⟨101, 0x1113, [0x50], some [5, 0]⟩] ∧
      ((∀ e ∈ s.installed, Genuine (plainReceiver 65552 (fun _ => [])) e) ↔
        AllFit (plainReceiver 65552 (fun _ => [])) 1 0
          (frame 0x10FF [0x01, 0x01] ++ frame 0x1113 [0x50]) 15 0) := by
  have hrun : (installProto2ex (plainReceiver 65552 (fun _ => [])) 1 0
      (frame 0x10FF [0x01, 0x01] ++ frame 0x1113 [0x50]) 15
      ⟨⟨0, List.replicate 16 0, ⟨none, 0⟩⟩, emptyUbf, []⟩).map (fun x => x.2.installed) =
        .ok [⟨101, 0x1113, [0x50], some [5, 0]⟩] := by decide +kernel
  obtain ⟨⟨n, s⟩, hok, hs⟩ := map_eq_ok.mp hrun
  have hiff := installed_genuine_iff (by decide) hok
  exact ⟨n, s, hok, hs, hiff⟩

/-- The id of a STRING, and a LONG of eight bytes 1: the string goes on in what the system buffer
held before. -/
theorem forged_string_shows_memory :
    ∃ n s e, installProto2ex (plainReceiver 65552 (fun _ => [])) 1 0
        (frame 0x10FF [0x01, 0x67, 0x77, 0x22, 0x63] ++
          frame 0x111D [0x72, 0x34, 0x01, 0x72, 0x83, 0x80, 0x76, 0x67, 0x30]) 26
        ⟨⟨0, List.replicate 8 0 ++ [0x73, 0x65, 0x63, 0x72, 0x65, 0x74, 0], ⟨none, 0⟩⟩, emptyUbf, []⟩ =
          .ok (n, s) ∧
      e ∈ s.installed ∧ fldType e.bfldid = some .string ∧ e.tag = ubfProtoTagMap .long ∧
      e.value = some (List.replicate 8 1 ++ [0x73, 0x65, 0x63, 0x72, 0x65, 0x74, 0]) ∧
      ¬Genuine (plainReceiver 65552 (fun _ => [])) e := by
  have hrun : (installProto2ex (plainReceiver 65552 (fun _ => [])) 1 0
      (frame 0x10FF [0x01, 0x67, 0x77, 0x22, 0x63] ++
        frame 0x111D [0x72, 0x34, 0x01, 0x72, 0x83, 0x80, 0x76, 0x67, 0x30]) 26
      ⟨⟨0, List.replicate 8 0 ++ [0x73, 0x65, 0x63, 0x72, 0x65, 0x74, 0], ⟨none, 0⟩⟩, emptyUbf, []⟩).map
        (fun x => x.2.installed) =
      .ok [⟨167772263, 0x111D, [0x72, 0x34, 0x01, 0x72, 0x83, 0x80, 0x76, 0x67, 0x30],
        some (List.replicate 8 1 ++ [0x73, 0x65, 0x63, 0x72, 0x65, 0x74, 0])⟩] := by decide +kernel
  obtain ⟨⟨n, s⟩, hok, hs⟩ := map_eq_ok.mp hrun
  refine ⟨n, s, _, hok, hs ▸ List.mem_singleton_self _, rfl, rfl, rfl, ?_⟩
  intro ⟨t, ht, htag, _⟩
  obtain rfl : FldType.string = t := Option.some.inj ht
  exact absurd htag (by decide)

end Endurox.NetProto
