import Endurox.BaseBytes
import Endurox.BaseRun

/-! Messages of several typed buffers whose UBF buffers point to each other, and what the
receiver makes of them (libatmi/multibuf.c). -/

namespace Endurox.Multibuf

open Base List

/-- The fields of a UBF buffer as `Bnext` reports them: a pointer, an embedded buffer, or data
of any other type. -/
inductive Field
  | ptr (bfldid value : Int)
  | ubf (bfldid : Int) (fields : List Field)
  | plain (bfldid : Int) (data : List UInt8)

def Field.code : Field → Int
  | .ptr _ _ => 9
  | .ubf _ _ => 10
  | .plain bfldid _ => bfldid/33554432

inductive Ordered : List Field → Prop
  | nil : Ordered []
  | ptr {bfldid value : Int} {fs : List Field} (above : ∀ f ∈ fs, 9 ≤ f.code) (rest : Ordered fs) :
    Ordered (.ptr bfldid value :: fs)
  | ubf {bfldid : Int} {inner fs : List Field} (inside : Ordered inner)
    (above : ∀ f ∈ fs, 10 ≤ f.code) (rest : Ordered fs) : Ordered (.ubf bfldid inner :: fs)
  | plain {bfldid : Int} {data : List UInt8} {fs : List Field} (notPtr : bfldid/33554432 ≠ 9)
    (notUbf : bfldid/33554432 ≠ 10) (above : ∀ f ∈ fs, bfldid/33554432 ≤ f.code)
    (rest : Ordered fs) : Ordered (.plain bfldid data :: fs)

/-- A buffer that `pf_prepare_incoming` has set up at the address `data`; `fields` is what it
holds when it is a UBF. -/
structure Received where
  data : Int
  len : Int
  fields : List Field
  ordered : Ordered fields

structure Vptr extends Received where
  btype : ℕ

inductive Stop
  | fail (e : Int)
  | outside
  deriving DecidableEq

/-- What is outside of multibuf.c: the memory the message was received into, addressed from its
first byte, and the types' `pf_prepare_incoming` for a TLV at `pos` with the buffer to reuse. -/
structure Env where
  rcvData : Int → UInt8
  prepareIncoming : (btype : ℕ) → (pos len data olen : Int) → Except Int Received

def tlvTag (env : Env) (pos : Int) : ℕ :=
  leNat [env.rcvData pos, env.rcvData (pos+1), env.rcvData (pos+2), env.rcvData (pos+3)]

def tlvLen (env : Env) (pos : Int) : Int :=
  wrap64 (leNat ((range 8).map (fun i => env.rcvData (pos+8+i))))

def tagTag (x : ℕ) : ℕ := x % 67108864

def mbufType (x : ℕ) : ℕ := x/268435456

def isCallinfo (x : ℕ) : Bool := x/67108864 % 2 = 1

def nextPos (env : Env) (pos : Int) : Int := wrap64 (pos+((tlvLen env pos+3).tdiv 4*4+16))

/-- The entries of `G_buf_descr` that have a function for received data: UBF, UBF32, NULL,
STRING, CARRAY, JSON and VIEW. TPINIT and the end mark have none. -/
def hasIncoming (btype : ℕ) : Bool := btype ∈ [0, 1, 3, 4, 5, 6, 7]

structure State where
  list : List Vptr
  primaryLoaded : Bool
  odata : Int
  olen : Int
  -- `callinfobuf` and its length at the primary buffer
  callinfo : Option (Int × Int)

def loadTlv (env : Env) (s : State) (pos : Int) : Except Stop State :=
  let x := tlvTag env pos
  let primary := !s.primaryLoaded && !isCallinfo x
  if !hasIncoming (mbufType x) then .error .outside
  else
    match env.prepareIncoming (mbufType x) pos (tlvLen env pos) (if primary then s.odata else 0)
        (if primary then s.olen else 0) with
    | .error e => .error (.fail e)
    | .ok r =>
      let list := s.list ++ [⟨r, mbufType x⟩]
      let callinfo := if tagTag x = 1 then list.head?.map (fun v => (v.data, v.len)) else s.callinfo
      let s := if primary then ⟨list, true, r.data, r.len, callinfo⟩ else {s with list := list}
      if s.primaryLoaded && isCallinfo x then .error (.fail 12) else .ok s

theorem tagTag_lt (x : ℕ) : tagTag x < 67108864 := Nat.mod_lt _ (by decide)

/-- The loop over the TLVs; every round expects the next tag, so that there are at most 2^26 of
them whatever the lengths say. -/
def loadTlvs (env : Env) (rcvLen : Int) (s : State) (pos : Int) (tagExp : ℕ) : Except Stop State :=
  if rcvLen ≤ pos then .ok s
  else if _h : tagTag (tlvTag env pos) = tagExp then
    match loadTlv env s pos with
    | .error e => .error e
    | .ok s => loadTlvs env rcvLen s (nextPos env pos) (tagExp+1)
  else .error (.fail 12)
termination_by 67108864-tagExp
decreasing_by
  have := tagTag_lt (tlvTag env pos)
  omega

def Field.isPlain : Field → Bool
  | .plain _ _ => true
  | .ptr _ _ | .ubf _ _ => false

mutual

/-- The body of the loop of `ndrx_mbuf_ptrs_map_in`. The value of a pointer field is the index
that is used. -/
def Field.mapIn (list : List Vptr) : Field → Except Stop Field
  | .ptr bfldid value =>
    if value < 0 then .error .outside
    else match list[value.toNat]? with
      | none => .error .outside
      | some v => .ok (.ptr bfldid v.data)
  | .ubf bfldid inner => (mapIn list false inner).map (.ubf bfldid)
  | .plain bfldid data => .ok (.plain bfldid data)
termination_by structural f => f

/-- `ndrx_mbuf_ptrs_map_in`. With `started` unset the position is still before `cache_ptr_off`;
from there on the first field that is neither a pointer nor a buffer is the end. -/
def mapIn (list : List Vptr) (started : Bool) : List Field → Except Stop (List Field)
  | [] => .ok []
  | f :: fs =>
    if f.isPlain && (started || 9 ≤ f.code) then .ok (f :: fs)
    else match Field.mapIn list f with
      | .error e => .error e
      | .ok f' => (mapIn list (started || !f.isPlain) fs).map (f' :: ·)
termination_by structural fs => fs

end

def mapAll (list : List Vptr) : List Vptr → Except Stop (List (List Field))
  | [] => .ok []
  | v :: vs =>
    match if v.btype = 0 then mapIn list false v.fields else .ok v.fields with
    | .error e => .error e
    | .ok fs => (mapAll list vs).map (fs :: ·)

structure Incoming where
  state : State
  fields : List (List Field)

def ndrxMbufPrepareIncoming (env : Env) (rcvLen odata olen : Int) : Except Stop Incoming :=
  match loadTlvs env rcvLen ⟨[], false, odata, olen, none⟩ 0 0 with
  | .error e => .error e
  | .ok s => (mapAll s.list s.list).map (⟨s, ·⟩)

mutual

def Field.ptrs : Field → List Int
  | .ptr _ value => [value]
  | .ubf _ inner => ptrs inner
  | .plain _ _ => []
termination_by structural f => f

def ptrs : List Field → List Int
  | [] => []
  | f :: fs => f.ptrs ++ ptrs fs
termination_by structural fs => fs

end

def addresses (list : List Vptr) : List Int := list.map (fun v => v.data)

/-- The call fails, or each pointer field of each UBF buffer received holds the address of one of
the buffers; nothing outside of the list of buffers is read. -/
def Checked : Except Stop Incoming → Prop
  | .error (.fail _) => True
  | .error .outside => False
  | .ok r => Forall₂ (fun v fs => v.btype ≤ 1 → ∀ p ∈ ptrs fs, p ∈ addresses r.state.list)
      r.state.list r.fields

section

variable {list : List Vptr}

variable {fs : List Field}

theorem ptrs_of_code (h : ∀ f ∈ fs, 11 ≤ f.code) : ptrs fs = [] := by
  induction fs with
  | nil => rfl
  | cons f fs ih =>
    have hrest := ih (fun g hg => h g (mem_cons_of_mem f hg))
    have hf := h f mem_cons_self
    cases f with
    | ptr | ubf => exact absurd hf (by rw [Field.code]; decide)
    | plain => exact hrest

theorem ptrs_of_break {bfldid : Int} {data : List UInt8}
    (h : Ordered (.plain bfldid data :: fs)) (hcode : 9 ≤ bfldid/33554432) : ptrs fs = [] := by
  cases h with
  | plain _ _ above =>
    apply ptrs_of_code
    intro f hf
    have := above f hf
    omega

/-- A part of a buffer is mapped: it succeeds when all tags in it have buffers, and then only
their addresses are left. -/
def Maps {α : Type} (list : List Vptr) (before : List Int) (x : Except Stop α)
    (after : α → List Int) : Prop :=
  ((∀ p ∈ before, 0 ≤ p ∧ p < list.length) ∧ ∃ y, x = .ok y ∧ ∀ p ∈ after y, p ∈ addresses list) ∨
    (¬∀ p ∈ before, 0 ≤ p ∧ p < list.length) ∧ x = .error .outside

theorem maps_ptr (bfldid value : Int) :
    Maps list [value] (Field.mapIn list (.ptr bfldid value)) Field.ptrs := by
  rw [Field.mapIn]
  by_cases hneg : value < 0
  · rw [if_pos hneg]
    exact .inr ⟨fun h => absurd (h value mem_cons_self).1 (by omega), rfl⟩
  rw [if_neg hneg]
  by_cases hlt : value < list.length
  · have hget : list[value.toNat]? = some list[value.toNat] := getElem?_eq_getElem (by omega)
    rw [hget]
    refine .inl ⟨?_, _, rfl, ?_⟩
    · intro p hp
      rw [mem_singleton.mp hp]
      omega
    · intro p hp
      rw [mem_singleton.mp hp]
      exact mem_map_of_mem (getElem_mem _)
  · rw [getElem?_eq_none (by omega)]
    exact .inr ⟨fun h => absurd (h value mem_cons_self).2 hlt, rfl⟩

theorem Maps.cons {f : Field} {started : Bool}
    (hgo : ¬(f.isPlain && (started || 9 ≤ f.code)) = true)
    (hf : Maps list f.ptrs (Field.mapIn list f) Field.ptrs)
    (hfs : Maps list (ptrs fs) (mapIn list (started || !f.isPlain) fs) ptrs) :
    Maps list (ptrs (f :: fs)) (mapIn list started (f :: fs)) ptrs := by
  rw [mapIn, if_neg hgo]
  rcases hf with ⟨hall, f', hf', hmem⟩ | ⟨hnot, hf'⟩
  · rw [hf']
    rcases hfs with ⟨hall', fs', hfs', hmem'⟩ | ⟨hnot', hfs'⟩
    · rw [hfs']
      refine .inl ⟨?_, f' :: fs', rfl, ?_⟩
      · rw [ptrs, forall_mem_append]
        exact ⟨hall, hall'⟩
      · rw [ptrs, forall_mem_append]
        exact ⟨hmem, hmem'⟩
    · rw [hfs']
      refine .inr ⟨?_, rfl⟩
      rw [ptrs, forall_mem_append]
      exact fun h => hnot' h.2
  · rw [hf']
    refine .inr ⟨?_, rfl⟩
    rw [ptrs, forall_mem_append]
    exact fun h => hnot h.1

theorem mapIn_maps (h : Ordered fs) (started : Bool) (hs : started = true → ∀ f ∈ fs, 9 ≤ f.code) :
    Maps list (ptrs fs) (mapIn list started fs) ptrs := by
  induction h generalizing started with
  | nil => exact .inl ⟨nofun, [], rfl, nofun⟩
  | @ptr bfldid value fs above rest ih =>
    exact Maps.cons Bool.false_ne_true (maps_ptr bfldid value)
      (ih _ (fun _ => above))
  | @ubf bfldid inner fs inside above rest ihin ihfs =>
    have hinner : Maps list (Field.ptrs (.ubf bfldid inner)) (Field.mapIn list (.ubf bfldid inner))
        Field.ptrs := by
      rw [Field.mapIn]
      rcases ihin false nofun with ⟨hall, inner', hinner, hmem⟩ | ⟨hnot, hinner⟩
      · rw [hinner]
        exact .inl ⟨hall, .ubf bfldid inner', rfl, hmem⟩
      · rw [hinner]
        exact .inr ⟨hnot, rfl⟩
    have hgo : ¬(Field.isPlain (.ubf bfldid inner) &&
        (started || 9 ≤ Field.code (.ubf bfldid inner))) = true := Bool.false_ne_true
    apply Maps.cons hgo hinner
    apply ihfs
    intro _ f hf
    have := above f hf
    omega
  | @plain bfldid data fs notPtr notUbf above rest ih =>
    by_cases hstop : started = true ∨ 9 ≤ bfldid/33554432
    · have hcode : 9 ≤ bfldid/33554432 := by
        rcases hstop with hst | hcode
        · exact hs hst _ mem_cons_self
        · exact hcode
      have hord : Ordered (.plain bfldid data :: fs) := .plain notPtr notUbf above rest
      have hrest : ptrs fs = [] := ptrs_of_break hord hcode
      have hnone : ptrs (.plain bfldid data :: fs) = [] := hrest
      have hrun : mapIn list started (.plain bfldid data :: fs) = .ok (.plain bfldid data :: fs) := by
        rw [mapIn, if_pos (by simp [Field.isPlain, Field.code, hcode])]
      rw [hrun, hnone]
      refine .inl ⟨nofun, _, rfl, ?_⟩
      rw [hnone]
      nofun
    · obtain ⟨hst, hcode⟩ := not_or.mp hstop
      apply Maps.cons (by simp [Field.code, hst, hcode])
      · exact .inl ⟨nofun, _, rfl, nofun⟩
      · apply ih
        intro hst'
        exact absurd (by simpa [Field.isPlain] using hst') hst

def TagsOk (list vs : List Vptr) : Prop :=
  ∀ v ∈ vs, v.btype = 0 → ∀ p ∈ ptrs v.fields, 0 ≤ p ∧ p < list.length

theorem mapAll_ok {vs : List Vptr} (h : TagsOk list vs) :
    ∃ fss, mapAll list vs = .ok fss ∧
      Forall₂ (fun v fs => (v.btype = 0 → ∀ p ∈ ptrs fs, p ∈ addresses list) ∧
        (v.btype ≠ 0 → fs = v.fields)) vs fss := by
  induction vs with
  | nil => exact ⟨[], rfl, .nil⟩
  | cons v vs ih =>
    obtain ⟨fss, hfss, hall⟩ := ih (fun w hw => h w (mem_cons_of_mem v hw))
    rw [mapAll]
    by_cases hv : v.btype = 0
    · rw [if_pos hv]
      rcases mapIn_maps v.ordered false nofun with ⟨-, fs, hfs, hmem⟩ | ⟨hnot, -⟩
      · rw [hfs, hfss]
        exact ⟨fs :: fss, rfl, .cons ⟨fun _ => hmem, fun hne => absurd hv hne⟩ hall⟩
      · exact absurd (h v mem_cons_self hv) hnot
    · rw [if_neg hv, hfss]
      exact ⟨v.fields :: fss, rfl, .cons ⟨fun h0 => absurd h0 hv, fun _ => rfl⟩ hall⟩

theorem mapAll_outside {vs : List Vptr} (h : ¬TagsOk list vs) :
    mapAll list vs = .error .outside := by
  induction vs with
  | nil => exact absurd nofun h
  | cons v vs ih =>
    rw [mapAll]
    by_cases hv : v.btype = 0
    · rw [if_pos hv]
      rcases mapIn_maps v.ordered false nofun with ⟨hall, _, hfs, -⟩ | ⟨-, hfs⟩
      · rw [hfs, ih (fun hvs => h (forall_mem_cons.mpr ⟨fun _ => hall, hvs⟩))]
        rfl
      · rw [hfs]
    · rw [if_neg hv, ih (fun hvs => h (forall_mem_cons.mpr ⟨fun h0 => absurd h0 hv, hvs⟩))]
      rfl

end

variable {s : State}

section

variable {env : Env} {rcvLen odata olen : Int}

inductive Reached (env : Env) (rcvLen odata olen : Int) : State → Int → ℕ → Prop
  | start : Reached env rcvLen odata olen ⟨[], false, odata, olen, none⟩ 0 0
  | next {s s' : State} {pos : Int} {tagExp : ℕ} (h : Reached env rcvLen odata olen s pos tagExp)
    (more : pos < rcvLen) (tag : tagTag (tlvTag env pos) = tagExp)
    (load : loadTlv env s pos = .ok s') :
    Reached env rcvLen odata olen s' (nextPos env pos) (tagExp+1)

variable {pos : Int} {tagExp : ℕ}

theorem loadTlvs_round (more : pos < rcvLen) (tag : tagTag (tlvTag env pos) = tagExp) :
    loadTlvs env rcvLen s pos tagExp = match loadTlv env s pos with
      | .error e => .error e
      | .ok s => loadTlvs env rcvLen s (nextPos env pos) (tagExp+1) := by
  rw [loadTlvs, if_neg (not_le.mpr more), dif_pos tag]

theorem loadTlv_outside :
    loadTlv env s pos = .error .outside ↔ hasIncoming (mbufType (tlvTag env pos)) = false := by
  rw [loadTlv]
  by_cases htype : hasIncoming (mbufType (tlvTag env pos)) = true
  · rw [htype]
    simp only [Bool.not_true, Bool.false_eq_true, if_false, Bool.true_eq_false, iff_false]
    split
    · nofun
    · have hne (c : Prop) [Decidable c] (t : State) :
          (if c then .error (.fail 12) else .ok t : Except Stop State) ≠ .error .outside := by
        split <;> nofun
      exact hne _ _
  · rw [Bool.not_eq_true] at htype
    simp [htype]

theorem Reached.run (h : Reached env rcvLen odata olen s pos tagExp) :
    loadTlvs env rcvLen ⟨[], false, odata, olen, none⟩ 0 0 = loadTlvs env rcvLen s pos tagExp := by
  induction h with
  | start => rfl
  | next h more tag load ih => rw [ih, loadTlvs_round more tag, load]

theorem Reached.ends (h : Reached env rcvLen odata olen s pos tagExp) :
    (∃ e, loadTlvs env rcvLen s pos tagExp = .error (.fail e)) ∨
      (loadTlvs env rcvLen s pos tagExp = .error .outside ∧ ∃ s' pos' tag',
        Reached env rcvLen odata olen s' pos' tag' ∧ pos' < rcvLen ∧
          tagTag (tlvTag env pos') = tag' ∧ hasIncoming (mbufType (tlvTag env pos')) = false) ∨
      ∃ s' pos' tag', loadTlvs env rcvLen s pos tagExp = .ok s' ∧
        Reached env rcvLen odata olen s' pos' tag' ∧ rcvLen ≤ pos' := by
  -- on the tags that are left
  induction hn : 67108865-tagExp using Nat.strong_induction_on generalizing s pos tagExp with
  | _ n ih =>
    by_cases hmore : pos < rcvLen
    · by_cases htag : tagTag (tlvTag env pos) = tagExp
      · have hlt := tagTag_lt (tlvTag env pos)
        rw [loadTlvs_round hmore htag]
        cases hload : loadTlv env s pos with
        | ok => exact ih _ (by omega) (h.next hmore htag hload) rfl
        | error e =>
          cases e with
          | fail e => exact .inl ⟨e, rfl⟩
          | outside =>
            exact .inr (.inl ⟨rfl, s, pos, tagExp, h, hmore, htag, loadTlv_outside.mp hload⟩)
      · rw [loadTlvs, if_neg (not_le.mpr hmore), dif_neg htag]
        exact .inl ⟨12, rfl⟩
    · rw [loadTlvs, if_pos (not_lt.mp hmore)]
      exact .inr (.inr ⟨s, pos, tagExp, rfl, h, not_lt.mp hmore⟩)

/-- What a message must be like: types that have a function for received data, tags that have a
buffer, and in a UBF of the type id 1, which is not gone through, no other pointers. -/
structure Valid (env : Env) (rcvLen odata olen : Int) : Prop where
  types : ∀ s pos tag, Reached env rcvLen odata olen s pos tag → pos < rcvLen →
    tagTag (tlvTag env pos) = tag → hasIncoming (mbufType (tlvTag env pos)) = true
  tags : ∀ s pos tag, Reached env rcvLen odata olen s pos tag → rcvLen ≤ pos → TagsOk s.list s.list
  raw : ∀ s pos tag, Reached env rcvLen odata olen s pos tag → rcvLen ≤ pos →
    ∀ v ∈ s.list, v.btype = 1 → ∀ p ∈ ptrs v.fields, p ∈ addresses s.list

/-- The call on received data is safe just for the messages that are valid. -/
theorem mbuf_incoming_checked_iff :
    Checked (ndrxMbufPrepareIncoming env rcvLen odata olen) ↔ Valid env rcvLen odata olen := by
  constructor
  · intro h
    -- at the end of the loop the rest of the call is known
    have hend {s : State} {pos : Int} {tag : ℕ} (hr : Reached env rcvLen odata olen s pos tag)
        (hpos : rcvLen ≤ pos) : Checked ((mapAll s.list s.list).map (⟨s, ·⟩)) := by
      rwa [ndrxMbufPrepareIncoming, hr.run, loadTlvs, if_pos hpos] at h
    have htags {s : State} {pos : Int} {tag : ℕ} (hr : Reached env rcvLen odata olen s pos tag)
        (hpos : rcvLen ≤ pos) : TagsOk s.list s.list := by
      by_contra hbad
      have hout := hend hr hpos
      rw [mapAll_outside hbad] at hout
      exact hout
    refine ⟨?_, fun s pos tag => htags, ?_⟩
    · intro s pos tag hr hmore htag
      by_contra htype
      rw [Bool.not_eq_true] at htype
      rw [ndrxMbufPrepareIncoming, hr.run, loadTlvs_round hmore htag,
        loadTlv_outside.mpr htype] at h
      exact h
    · intro s pos tag hr hpos v hv hone
      obtain ⟨fss, hfss, hall⟩ := mapAll_ok (htags hr hpos)
      have hout := hend hr hpos
      rw [hfss] at hout
      have hraw : Forall₂ (fun v (_ : List Field) =>
          (v.btype = 1 → ∀ p ∈ ptrs v.fields, p ∈ addresses s.list) ∧ True) s.list fss := by
        apply Forall₂.mp _ hall hout
        intro v fs hv hfs
        refine ⟨fun hone => ?_, trivial⟩
        rw [← hv.2 (by omega)]
        exact hfs (by omega)
      exact ((List.forall₂_and_left _ _).mp hraw).1 v hv hone
  · intro h
    rw [ndrxMbufPrepareIncoming]
    have hstart : Reached env rcvLen odata olen ⟨[], false, odata, olen, none⟩ 0 0 := .start
    rcases hstart.ends with ⟨_, he⟩ | ⟨-, s, pos, tag, hr, hmore, htag, htype⟩ | ⟨s, pos, tag, hs, hr, hpos⟩
    · rw [he]
      trivial
    · exact absurd (h.types s pos tag hr hmore htag) (by rw [htype]; exact Bool.false_ne_true)
    · rw [hs]
      obtain ⟨fss, hfss, hall⟩ := mapAll_ok (h.tags s pos tag hr hpos)
      have hraw := h.raw s pos tag hr hpos
      show Checked ((mapAll s.list s.list).map (⟨s, ·⟩))
      rw [hfss]
      have hlist : Forall₂ (fun v fs => (v ∈ s.list) ∧
          ((v.btype = 0 → ∀ p ∈ ptrs fs, p ∈ addresses s.list) ∧
            (v.btype ≠ 0 → fs = v.fields))) s.list fss :=
        (List.forall₂_and_left _ _).mpr ⟨fun v hv => hv, hall⟩
      apply hlist.imp
      intro v fs ⟨hv, hzero, hsame⟩ hle
      by_cases hv0 : v.btype = 0
      · exact hzero hv0
      · rw [hsame hv0]
        exact hraw v hv (by omega)

end

theorem ordered_onePtr (value : Int) : Ordered [.ptr 301989889 value] := .ptr nofun .nil

def onePtr (btype : UInt8) (value : Int) : Env where
  rcvData pos := if pos = 3 then 16*btype else 0
  prepareIncoming _ _ _ _ _ := .ok ⟨4096, 0, [.ptr 301989889 value], ordered_onePtr value⟩

theorem loadTlvs_onePtr {btype : UInt8} {value : Int} {s' : State}
    (htag : tagTag (tlvTag (onePtr btype value) 0) = 0) (hnext : nextPos (onePtr btype value) 0 = 16)
    (hload : loadTlv (onePtr btype value) s 0 = .ok s') :
    loadTlvs (onePtr btype value) 16 s 0 0 = .ok s' := by
  rw [loadTlvs_round (by decide) htag, hload]
  show loadTlvs (onePtr btype value) 16 s' (nextPos (onePtr btype value) 0) 1 = .ok s'
  rw [hnext, loadTlvs, if_pos le_rfl]

/-- The only buffer of a message points to the buffer 1; and a UBF of the type id 1 keeps the
pointer it was sent with. -/
theorem mbuf_incoming_unchecked : ndrxMbufPrepareIncoming (onePtr 0 1) 16 0 0 = .error .outside ∧
      (ndrxMbufPrepareIncoming (onePtr 1 11259375) 16 0 0).map (fun r => ptrs r.fields.flatten) =
        .ok [11259375] := by
  constructor
  · have hload : loadTlv (onePtr 0 1) ⟨[], false, 0, 0, none⟩ 0 =
        .ok ⟨[⟨⟨4096, 0, [.ptr 301989889 1], ordered_onePtr 1⟩, 0⟩], true, 4096, 0, none⟩ := rfl
    have htag : tagTag (tlvTag (onePtr 0 1) 0) = 0 := by decide
    have hnext : nextPos (onePtr 0 1) 0 = 16 := by decide
    rw [ndrxMbufPrepareIncoming, loadTlvs_onePtr htag hnext hload]
    rfl
  · have hload : loadTlv (onePtr 1 11259375) ⟨[], false, 0, 0, none⟩ 0 =
        .ok ⟨[⟨⟨4096, 0, [.ptr 301989889 11259375], ordered_onePtr 11259375⟩, 1⟩], true, 4096, 0,
          none⟩ := rfl
    have htag : tagTag (tlvTag (onePtr 1 11259375) 0) = 0 := by decide
    have hnext : nextPos (onePtr 1 11259375) 0 = 16 := by decide
    rw [ndrxMbufPrepareIncoming, loadTlvs_onePtr htag hnext hload]
    rfl

end Endurox.Multibuf
