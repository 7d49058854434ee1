import Endurox.BaseMultimap
import Endurox.Crypto
import Endurox.UBFBuffer

/-! JSON loaded into a UBF buffer (`libatmi/ubf2exjson.c`): a member with one value sets the
first occurrence of its field, a member with an array one occurrence for each element. The two
are separate copies of one switch. -/

namespace Endurox.Json
open Base UBF List

abbrev Str := List UInt8

/-- A number has the `double` and the `long` of its text. -/
inductive Value
  | string (s : Str)
  | number (number : UInt64) (intnumber : Int)
  | boolean (b : Bool)
  | object (members : List (Str × Value))
  | array (elems : List Value)
  | null

inductive Val
  | data (bs : List UInt8)
  | ubf (fields : List (ℕ × Val))
  | ptr (buf : List UInt8)
  | view (vname : Str) (bs : List UInt8)

abbrev Ubf := List (ℕ × Val)

inductive Src
  | carray (bs : List UInt8)
  | long (n : Int)
  | double (bits : UInt64)
  | short (n : ℕ)

inductive Err
  | root | base64 | escape | change | binit | importex | view | nullObject | objectReceived

/-- The field table, the conversions of `CBchg`, the readers of other buffer types, what an
occurrence that `Bchg` skips holds, and the bytes that fields take in a buffer. -/
structure Env where
  bfldid : Str → Option ℕ
  jsonEscape : Bool
  normalizeString : Str → Option (List UInt8)
  convert : Option FldType → Src → Option (List UInt8)
  tpimportex : List (Str × Value) → Option (List UInt8)
  tpjsontoview : List (Str × Value) → Option (Str × List UInt8)
  empty : Option FldType → Val
  used : Ubf → ℕ
  binBufLen : ℕ

variable (env : Env)

section

variable (size : ℕ) (u : Ubf) (id occ : ℕ)

def put (x : Val) : Ubf :=
  let es := occs Prod.fst id u
  let gap := replicate (occ-es.length) (id, env.empty (fldType id))
  setOccs Prod.fst id (es.take occ ++ gap ++ (id, x) :: es.drop (occ+1)) u

def bchg (x : Val) : Except Err Ubf :=
  if env.used (put env u id occ x) ≤ size then .ok (put env u id occ x) else .error .change

def cbchg (src : Src) : Except Err Ubf :=
  match env.convert (fldType id) src with
  | none => .error .change
  | some bs => bchg env size u id occ (.data bs)

def ndrxLoadString (s : Str) : Except Err Ubf :=
  if fldType id = some .carray then
    match Base64.decode Crypto.value env.binBufLen s with
    | none => .error .base64
    | some bs => cbchg env size u id occ (.carray bs)
  else if env.jsonEscape then
    match env.normalizeString s with
    | none => .error .escape
    | some bs => cbchg env size u id occ (.carray bs)
  else cbchg env size u id occ (.carray s)

/-- `ndrx_load_object`, where `inner` is what loading the object into the work space gives. -/
def ndrxLoadObject (o : List (Str × Value)) (inner : Except Err Ubf) : Except Err Ubf :=
  match fldType id with
  | some .ubf =>
    if env.binBufLen < env.used [] then .error .binit
    else inner >>= fun t => bchg env size u id occ (.ubf t)
  | some .ptr =>
    match env.tpimportex o with
    | none => .error .importex
    | some buf => bchg env size u id occ (.ptr buf)
  | some .view =>
    match env.tpjsontoview o with
    | none => .error .view
    | some (vname, bs) => bchg env size u id occ (.view vname bs)
  | _ => .error .objectReceived

end

def isInt (t : Option FldType) : Bool := t = some .short ∨ t = some .long

mutual

def loadMembers (size : ℕ) (u : Ubf) : List (Str × Value) → Except Err Ubf
  | [] => .ok u
  | (name, v) :: rest =>
    match env.bfldid name with
    | none => loadMembers size u rest
    | some id => loadValue size u id v >>= fun u' => loadMembers size u' rest

def loadValue (size : ℕ) (u : Ubf) (id : ℕ) : Value → Except Err Ubf
  | .string s => ndrxLoadString env size u id 0 s
  | .number d l =>
    if isInt (fldType id) then cbchg env size u id 0 (.long l)
    else cbchg env size u id 0 (.double d)
  | .boolean b => cbchg env size u id 0 (.short b.toNat)
  | .object o => ndrxLoadObject env size u id 0 o (loadMembers env.binBufLen [] o)
  | .array a => loadElems size u id 0 a
  | .null => .ok u

def loadElems (size : ℕ) (u : Ubf) (id j : ℕ) : List Value → Except Err Ubf
  | [] => .ok u
  | v :: vs => loadElem size u id j v >>= fun u' => loadElems size u' id (j+1) vs

def loadElem (size : ℕ) (u : Ubf) (id j : ℕ) : Value → Except Err Ubf
  | .string s => ndrxLoadString env size u id j s
  | .number d l =>
    if isInt (fldType id) then cbchg env size u id j (.long l)
    else cbchg env size u id j (.double d)
  -- the case ends without a break and goes on as an object, which a boolean is not
  | .boolean b => cbchg env size u id j (.short b.toNat) >>= fun _ => .error .nullObject
  | .object o => ndrxLoadObject env size u id j o (loadMembers env.binBufLen [] o)
  | .array _ | .null => .ok u

end

def ndrxTpjsontoubf (size : ℕ) (u : Ubf) : Value → Except Err Ubf
  | .object o => loadMembers env size u o
  | _ => .error .root

def jsonValue (id : ℕ) : Value → Option Val
  | .string s =>
    let bytes := if fldType id = some .carray then Base64.decode Crypto.value env.binBufLen s
      else if env.jsonEscape then env.normalizeString s else some s
    bytes.bind fun bs => (env.convert (fldType id) (.carray bs)).map .data
  | .number d l =>
    (env.convert (fldType id) (if isInt (fldType id) then .long l else .double d)).map .data
  | .boolean b => (env.convert (fldType id) (.short b.toNat)).map .data
  | .object o =>
    match fldType id with
    | some .ubf =>
      if env.binBufLen < env.used [] then none
      else (loadMembers env env.binBufLen [] o).toOption.map .ubf
    | some .ptr => (env.tpimportex o).map .ptr
    | some .view => (env.tpjsontoview o).map fun r => .view r.1 r.2
    | _ => none
  | .array _ | .null => none

def Value.isBoolean : Value → Bool
  | .boolean _ => true
  | _ => false

def Value.isElem : Value → Bool
  | .array _ | .null => false
  | _ => true

variable {env} {size id occ j : ℕ} {u w : Ubf} {v : Value} {a : List Value} {x : Val}

def Stores (env : Env) (size : ℕ) (u : Ubf) (id occ : ℕ) (x : Option Val) (r : Except Err Ubf) :
    Prop :=
  ∀ w, r = .ok w ↔ ∃ y, x = some y ∧ bchg env size u id occ y = .ok w

theorem stores_some (x : Val) : Stores env size u id occ (some x) (bchg env size u id occ x) := by
  intro w
  simp

theorem stores_none (e : Err) : Stores env size u id occ none (.error e) := by
  intro w
  simp

theorem stores_cbchg (src : Src) :
    Stores env size u id occ ((env.convert (fldType id) src).map .data)
      (cbchg env size u id occ src) := by
  unfold cbchg
  cases env.convert (fldType id) src with
  | none => exact stores_none _
  | some => exact stores_some _

theorem stores_ndrxLoadString (s : Str) :
    Stores env size u id occ (jsonValue env id (.string s)) (ndrxLoadString env size u id occ s) := by
  simp only [ndrxLoadString, jsonValue]
  split
  · cases Base64.decode Crypto.value env.binBufLen s with
    | none => exact stores_none _
    | some => exact stores_cbchg _
  · split
    · cases env.normalizeString s with
      | none => exact stores_none _
      | some => exact stores_cbchg _
    · exact stores_cbchg _

theorem stores_ndrxLoadObject (o : List (Str × Value)) :
    Stores env size u id occ (jsonValue env id (.object o))
      (ndrxLoadObject env size u id occ o (loadMembers env env.binBufLen [] o)) := by
  simp only [ndrxLoadObject, jsonValue]
  split
  · split
    · exact stores_none _
    · cases loadMembers env env.binBufLen [] o with
      | error => exact stores_none _
      | ok => exact stores_some _
  · cases env.tpimportex o with
    | none => exact stores_none _
    | some => exact stores_some _
  · cases env.tpjsontoview o with
    | none => exact stores_none _
    | some => exact stores_some _
  · exact stores_none _

theorem stores_number (d : UInt64) (l : Int) :
    Stores env size u id occ (jsonValue env id (.number d l))
      (if isInt (fldType id) then cbchg env size u id occ (.long l)
        else cbchg env size u id occ (.double d)) := by
  simp only [jsonValue]
  split <;> exact stores_cbchg _

theorem stores_loadValue (hv : v.isElem) :
    Stores env size u id 0 (jsonValue env id v) (loadValue env size u id v) := by
  cases v with
  | string s => exact stores_ndrxLoadString s
  | number d l => exact stores_number d l
  | boolean => exact stores_cbchg _
  | object o => exact stores_ndrxLoadObject o
  | array => cases hv
  | null => cases hv

theorem stores_loadElem (hv : v.isElem) (hb : v.isBoolean = false) :
    Stores env size u id j (jsonValue env id v) (loadElem env size u id j v) := by
  cases v with
  | string s => exact stores_ndrxLoadString s
  | number d l => exact stores_number d l
  | boolean => cases hb
  | object o => exact stores_ndrxLoadObject o
  | array => cases hv
  | null => cases hv

def occVal (u : Ubf) (id i : ℕ) : Option Val := ((occs Prod.fst id u)[i]?).map Prod.snd

theorem bchg_eq_ok : bchg env size u id occ x = .ok w ↔
    env.used (put env u id occ x) ≤ size ∧ put env u id occ x = w := by
  unfold bchg
  split <;> simp_all

theorem loadElem_eq_ok (hv : v.isElem) : loadElem env size u id j v = .ok w ↔
    v.isBoolean = false ∧ ∃ x, jsonValue env id v = some x ∧
      env.used (put env u id j x) ≤ size ∧ put env u id j x = w := by
  cases hb : v.isBoolean with
  | false => simpa only [true_and, bchg_eq_ok] using stores_loadElem hv hb w
  | true =>
    cases v with
    | boolean => simp [loadElem, bind_eq_ok]
    | _ => cases hb

theorem occs_put : occs Prod.fst id (put env u id occ x) = (occs Prod.fst id u).take occ ++
      replicate (occ-(occs Prod.fst id u).length) (id, env.empty (fldType id)) ++
      (id, x) :: (occs Prod.fst id u).drop (occ+1) := by
  apply occs_setOccs_self
  intro e he
  simp only [mem_append, mem_cons, mem_replicate] at he
  rcases he with (he | he) | he | he
  · exact (mem_occs.mp (mem_of_mem_take he)).2
  · rw [he.2]
  · rw [he]
  · exact (mem_occs.mp (mem_of_mem_drop he)).2

theorem occVal_put_self : occVal (put env u id occ x) id occ = some x := by
  rw [occVal, occs_put, getElem?_append_right (by simp; omega)]
  have h0 : occ-(take occ (occs Prod.fst id u) ++
      replicate (occ-(occs Prod.fst id u).length) (id, env.empty (fldType id))).length = 0 := by
    simp; omega
  rw [h0]
  rfl

theorem occVal_put_of_lt {i : ℕ} (hi : i < occ) (hocc : occ ≤ (occs Prod.fst id u).length) :
    occVal (put env u id occ x) id i = occVal u id i := by
  rw [occVal, occs_put, append_assoc, getElem?_append_left (by simp; omega), getElem?_take_of_lt hi]
  rfl

theorem lt_length_occs_put : occ < (occs Prod.fst id (put env u id occ x)).length := by
  rw [occs_put]
  simp
  omega

def RoomFrom (env : Env) (size id : ℕ) : ℕ → Ubf → List Value → Prop
  | _, _, [] => True
  | j, u, v :: vs => ∀ x, jsonValue env id v = some x →
    env.used (put env u id j x) ≤ size ∧ RoomFrom env size id (j+1) (put env u id j x) vs

theorem loadElems_eq_ok (helem : ∀ v ∈ a, v.isElem) (hroom : RoomFrom env size id j u a) :
    (∃ w, loadElems env size u id j a = .ok w) ↔
      ∀ v ∈ a, v.isBoolean = false ∧ ∃ x, jsonValue env id v = some x := by
  induction a generalizing u j with
  | nil => simp [loadElems]
  | cons v vs ih =>
    simp only [forall_mem_cons, loadElems, bind_eq_ok] at helem ⊢
    simp only [loadElem_eq_ok helem.1]
    constructor
    · rintro ⟨w, _, ⟨hb, x, hx, -, rfl⟩, hvs⟩
      exact ⟨⟨hb, x, hx⟩, (ih helem.2 (hroom x hx).2).mp ⟨w, hvs⟩⟩
    · rintro ⟨⟨hb, x, hx⟩, hvs⟩
      obtain ⟨w, hw⟩ := (ih helem.2 (hroom x hx).2).mpr hvs
      exact ⟨w, _, ⟨hb, x, hx, (hroom x hx).1, rfl⟩, hw⟩

theorem loadElems_occVal (helem : ∀ v ∈ a, v.isElem) (hj : j ≤ (occs Prod.fst id u).length)
    (h : loadElems env size u id j a = .ok w) :
    (∀ i, i < j → occVal w id i = occVal u id i) ∧
      ∀ i v, a[i]? = some v → occVal w id (j+i) = jsonValue env id v := by
  induction a generalizing u j with
  | nil =>
    cases h
    simp
  | cons v vs ih =>
    simp only [forall_mem_cons, loadElems, bind_eq_ok] at helem h
    obtain ⟨_, hv, hvs⟩ := h
    obtain ⟨-, _, hx, -, rfl⟩ := (loadElem_eq_ok helem.1).mp hv
    obtain ⟨hbelow, hrest⟩ := ih helem.2 lt_length_occs_put hvs
    constructor
    · intro i hi
      rw [hbelow i (by omega), occVal_put_of_lt hi hj]
    intro i v' hv'
    cases i with
    | zero =>
      cases hv'
      rw [Nat.add_zero, hbelow j (by omega), occVal_put_self, hx]
    | succ i =>
      rw [← hrest i v' hv']
      congr 1
      omega

/-- The law of arrays: what each single value gives at occurrence 0, the array gives at the
occurrence of the element, and one single value refused is enough to refuse the array. -/
def LoadsEach (env : Env) (size : ℕ) (u : Ubf) (name : Str) (id : ℕ) (a : List Value) : Prop :=
  let load v := ndrxTpjsontoubf env size u (.object [(name, v)])
  ((∀ v ∈ a, ∃ w, load v = .ok w) → ∃ w, load (.array a) = .ok w ∧
    ∀ j v w', a[j]? = some v → load v = .ok w' → occVal w id j = occVal w' id 0) ∧
  ((∃ v ∈ a, ∀ w, load v ≠ .ok w) → ∀ w, load (.array a) ≠ .ok w)

structure Room (env : Env) (size : ℕ) (u : Ubf) (id : ℕ) (a : List Value) : Prop where
  single : ∀ v ∈ a, ∀ x, jsonValue env id v = some x → env.used (put env u id 0 x) ≤ size
  each : RoomFrom env size id 0 u a

theorem ndrxTpjsontoubf_member {name : Str} (hid : env.bfldid name = some id) :
    ndrxTpjsontoubf env size u (.object [(name, v)]) = loadValue env size u id v := by
  simp only [ndrxTpjsontoubf, loadMembers, hid]
  cases loadValue env size u id v <;> rfl

/-- The law holds of an array without booleans and, as both sides then refuse, of one with an
element that has no value for the field. -/
theorem array_loads_iff {name : Str} (hid : env.bfldid name = some id) (helem : ∀ v ∈ a, v.isElem)
    (hroom : Room env size u id a) :
    LoadsEach env size u name id a ↔
      (∀ v ∈ a, v.isBoolean = false) ∨ ∃ v ∈ a, jsonValue env id v = none := by
  have hsingle : ∀ v ∈ a, (∃ w, loadValue env size u id v = .ok w) ↔
      ∃ x, jsonValue env id v = some x := by
    intro v hv
    constructor
    · rintro ⟨w, hw⟩
      obtain ⟨x, hx, -⟩ := (stores_loadValue (helem v hv) w).mp hw
      exact ⟨x, hx⟩
    · rintro ⟨x, hx⟩
      exact ⟨_, (stores_loadValue (helem v hv) _).mpr
        ⟨x, hx, bchg_eq_ok.mpr ⟨hroom.single v hv x hx, rfl⟩⟩⟩
  have harray := loadElems_eq_ok helem hroom.each
  simp only [LoadsEach, ndrxTpjsontoubf_member hid]
  constructor
  · rintro ⟨hall, -⟩
    by_contra hnot
    rw [not_or] at hnot
    have hval : ∀ v ∈ a, ∃ x, jsonValue env id v = some x := by
      intro v hv
      exact Option.ne_none_iff_exists'.mp fun hx => hnot.2 ⟨v, hv, hx⟩
    obtain ⟨w, hw, -⟩ := hall fun v hv => (hsingle v hv).mpr (hval v hv)
    exact hnot.1 fun v hv => (harray.mp ⟨w, hw⟩ v hv).1
  · intro hcase
    constructor
    · intro hall
      have hval : ∀ v ∈ a, ∃ x, jsonValue env id v = some x :=
        fun v hv => (hsingle v hv).mp (hall v hv)
      have hb : ∀ v ∈ a, v.isBoolean = false := by
        rcases hcase with hb | ⟨v, hv, hx⟩
        · exact hb
        · obtain ⟨x, hx'⟩ := hval v hv
          rw [hx] at hx'
          cases hx'
      obtain ⟨w, hw⟩ := harray.mpr fun v hv => ⟨hb v hv, hval v hv⟩
      refine ⟨w, hw, ?_⟩
      intro j v w' hj hw'
      obtain ⟨_, hx, hput⟩ := (stores_loadValue (helem v (mem_of_getElem? hj)) w').mp hw'
      have hself := (loadElems_occVal helem (Nat.zero_le _) hw).2 j v hj
      rw [Nat.zero_add] at hself
      rw [hself, hx, ← (bchg_eq_ok.mp hput).2, occVal_put_self]
    · rintro ⟨v, hv, hno⟩ w hw
      obtain ⟨w', hw'⟩ := (hsingle v hv).mpr (harray.mp ⟨w, hw⟩ v hv).2
      exact hno w' hw'

def shortEnv : Env where
  bfldid _ := some 1
  jsonEscape := false
  normalizeString := some
  convert _ src := match src with
    | .short n => some [UInt8.ofNat n, 0]
    | .long n => some [UInt8.ofNat n.toNat, 0]
    | _ => none
  tpimportex _ := none
  tpjsontoview _ := none
  empty _ := .data [0, 0]
  used u := 8*u.length
  binBufLen := 1000

theorem array_loads_two : LoadsEach shortEnv 1000 [] [84] 1 [.number 0 5, .number 0 7] := by
  refine (array_loads_iff rfl (by decide) ⟨?_, ?_⟩).mpr (.inl (by decide))
  · intro v hv x hx
    simp only [mem_cons, not_mem_nil, or_false] at hv
    rcases hv with rfl | rfl <;> cases hx <;> decide
  intro x hx
  cases hx
  refine ⟨by decide, ?_⟩
  intro y hy
  cases hy
  exact ⟨by decide, trivial⟩

/-- The value `true` is loaded, the array `[true]` is not. -/
theorem boolean_array_refused : ¬ LoadsEach shortEnv 1000 [] [84] 1 [.boolean true] := by
  intro h
  have hsingle : ∀ v ∈ [Value.boolean true],
      ∃ w, ndrxTpjsontoubf shortEnv 1000 [] (.object [([84], v)]) = .ok w := by
    intro v hv
    rw [mem_singleton.mp hv]
    exact ⟨_, rfl⟩
  obtain ⟨_, hw, -⟩ := h.1 hsingle
  cases hw

end Endurox.Json
