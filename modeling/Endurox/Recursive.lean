import Endurox.BaseRun
import Endurox.BaseText
import Endurox.UBFBuffer

/-! References to the fields of nested buffers, `fld[occ].fld[occ].fld` (libubf/recursive.c). -/

namespace Endurox.Recursive

open Base Base.Text UBF UBF.BErr List

structure Rfldid where
  -- fldid1, occ1, fldid2, occ2, …, BBADFLDOCC
  fldidocc : List Int
  cname : Option (List Char)
  cnameOcc : Int
  fldnm : List Char
  bfldid : Int
  occ : Int
  nrflds : ℕ
  deriving DecidableEq

inductive State
  | none | occ | occAny
  deriving DecidableEq

inductive IsView
  | no | found | cnameParsed
  deriving DecidableEq

structure Parser where
  state : State
  prevState : State
  tmp : List Char
  added : Bool
  isView : IsView
  nrflds : ℕ
  parsedid : Int
  parsedocc : Int
  fldidocc : List Int
  cname : Option (List Char)
  cnameOcc : Int
  occ : Int
  deriving DecidableEq

def isValidId (c : Char) : Bool := c.isAlphanum || c = '_'

def atoi (s : List Char) : Int := wrap32 (strtol s)

section

-- `Bfldid`, with `BBADFLDID` for a name that the field tables do not have
variable (bfldid : List Char → Int)

def resolveField (p : Parser) : Except BErr Parser :=
  if p.tmp = [] then .error bsyntax
  else match p.isView with
    | .cnameParsed => .error .bebadop
    | .found =>
      .ok {p with cname := some p.tmp, isView := .cnameParsed, tmp := [], nrflds := p.nrflds+1}
    | .no =>
      if bfldid p.tmp = 0 then .error .bbadname
      else .ok {p with
        parsedid := bfldid p.tmp
        isView := if fldType (bfldid p.tmp) = some .view then .found else .no
        tmp := []
        nrflds := p.nrflds+1}

def resolveAdd (p : Parser) : Parser :=
  if p.isView = .cnameParsed then {p with cnameOcc := p.parsedocc, tmp := [], added := true}
  else {p with
    fldidocc := p.fldidocc ++ [p.parsedid, p.parsedocc]
    occ := p.parsedocc
    tmp := []
    added := true}

def validateRfield (p : Parser) : Except BErr Unit :=
  match p.fldidocc.dropLast.getLast? with
  | some id =>
    if fldType id = some .ubf ∨ fldType id = some .view then .ok () else .error .bebadop
  | none => .ok ()

def checkAdded (p : Parser) : Except BErr Parser :=
  if p.added then
    if p.isView = .cnameParsed then .error .bebadop
    else do
      validateRfield p
      .ok {p with added := false}
  else .ok p

def nameStep (p : Parser) (c : Char) : Except BErr Parser :=
  if isValidId c then .ok {p with tmp := p.tmp ++ [c]}
  else if c = '[' then do
    let p ← resolveField bfldid p
    .ok {p with prevState := .none, state := .occ}
  else if c = '.' then
    if p.prevState ≠ .occ ∧ p.prevState ≠ .occAny then
      if p.tmp = [] then .error bsyntax
      else do
        let p ← resolveField bfldid p
        .ok (resolveAdd {p with parsedocc := 0})
    -- what stands between a bracket and the dot is dropped
    else .ok {p with tmp := [], prevState := .none}
  else .error bsyntax

def occStep (p : Parser) (c : Char) : Except BErr Parser :=
  if c.isDigit then .ok {p with tmp := p.tmp ++ [c]}
  else if c = '?' then
    -- the mark is stored before the test that nothing has been stored
    if 0 < (p.tmp ++ [c]).length then .error bsyntax
    else .ok {p with tmp := p.tmp ++ [c], parsedocc := -2, state := .occAny}
  else if c = ']' then
    .ok {resolveAdd {p with parsedocc := atoi p.tmp} with prevState := .occ, state := .none}
  else .error bsyntax

def occAnyStep (p : Parser) (c : Char) : Except BErr Parser :=
  if c = ']' then .ok {resolveAdd p with prevState := .occAny, state := .none}
  else .error bsyntax

def parseStep (p : Parser) (c : Char) : Except BErr Parser :=
  match p.state with
  | .none => do
    let p ← checkAdded p
    nameStep bfldid p c
  | .occ => occStep p c
  | .occAny => occAnyStep p c

def parseEnd (p : Parser) : Except BErr Parser :=
  match p.state with
  | .none =>
    if p.tmp = [] then .ok p
    else do
      let p ← resolveField bfldid p
      .ok (resolveAdd {p with parsedocc := 0})
  | .occ => .error bsyntax
  | .occAny => .error bsyntax

def parseLoop (p : Parser) : List Char → Except BErr Parser
  | [] => parseEnd bfldid p
  | c :: s => do
    let p ← parseStep bfldid p c
    parseLoop p s

def parseFinish (s : List Char) (p : Parser) : Except BErr Rfldid :=
  if p.fldidocc.length < 2 then .error bsyntax
  else .ok {
    fldidocc := p.fldidocc ++ [-1]
    cname := p.cname
    cnameOcc := p.cnameOcc
    fldnm := s
    bfldid := p.fldidocc.dropLast.getLastD 0
    occ := p.occ
    nrflds := p.nrflds}

def Parser.init (r : Rfldid) : Parser where
  state := .none
  prevState := .none
  tmp := []
  added := false
  isView := .no
  nrflds := 0
  parsedid := 0
  parsedocc := 0
  fldidocc := []
  cname := none
  cnameOcc := r.cnameOcc
  occ := r.occ

def ndrxUbfRfldidParse (s : List Char) (r : Rfldid) : Except BErr Rfldid :=
  if 4095 < s.length then .error bsyntax
  else do
    let p ← parseLoop bfldid (Parser.init r) s
    parseFinish s p

end

/-! What the notation means: components with dots between them, each a name and perhaps an
occurrence in brackets. -/

inductive Occ
  | first
  | num (digits : List Char)
  | any
  deriving DecidableEq

structure Comp where
  name : List Char
  occ : Occ
  deriving DecidableEq

def Comp.text (c : Comp) : List Char :=
  match c.occ with
  | .first => c.name
  | .num d => c.name ++ '[' :: (d ++ [']'])
  | .any => c.name ++ ['[', '?', ']']

def Comp.number (c : Comp) : Int :=
  match c.occ with
  | .first => 0
  | .num d => digitsOf d
  | .any => -2

structure Comp.WellFormed (c : Comp) : Prop where
  named : c.name ≠ []
  valid : ∀ x ∈ c.name, isValidId x = true
  filled : ∀ d, c.occ = .num d → d ≠ []
  digits : ∀ d, c.occ = .num d → ∀ x ∈ d, x.isDigit = true

def refText : List Comp → List Char
  | [] => []
  | [c] => c.text
  | c :: cs => c.text ++ '.' :: refText cs

/-- The ids and occurrences that the components stand for, and the structure field of a view
that the last one may be. -/
inductive Names (bfldid : List Char → Int) :
    List Comp → List (Int × Int) → Option (List Char × Int) → Prop
  | leaf {c : Comp} (known : bfldid c.name ≠ 0) :
    Names bfldid [c] [(bfldid c.name, c.number)] none
  | field {c f : Comp} (known : bfldid c.name ≠ 0) (typ : fldType (bfldid c.name) = some .view) :
    Names bfldid [c, f] [(bfldid c.name, c.number)] (some (f.name, f.number))
  | sub {c : Comp} {cs : List Comp} {ids : List (Int × Int)} {fld : Option (List Char × Int)}
    (known : bfldid c.name ≠ 0) (typ : fldType (bfldid c.name) = some .ubf)
    (rest : Names bfldid cs ids fld) :
    Names bfldid (c :: cs) ((bfldid c.name, c.number) :: ids) fld

def flatIds (ids : List (Int × Int)) : List Int := ids.flatMap (fun x => [x.1, x.2])

def refForm (s : List Char) (r : Rfldid) (n : ℕ) (ids : List (Int × Int))
    (fld : Option (List Char × Int)) : Rfldid where
  fldidocc := flatIds ids ++ [-1]
  cname := fld.map Prod.fst
  cnameOcc := (fld.map Prod.snd).getD r.cnameOcc
  fldnm := s
  bfldid := (ids.getLastD (0, 0)).1
  occ := (ids.getLastD (0, 0)).2
  nrflds := n

/-- No `?`, a dot or the end after each closing bracket, brackets around numbers that fit an
`int`, and no dot at the end. -/
def Plain : List Char → Prop
  | [] => True
  | c :: s => c ≠ '?' ∧ (c = ']' → s = [] ∨ s.head? = some '.') ∧
    (c = '[' → s.head? ≠ some ']' ∧ digitsOf s ≤ 2147483647) ∧ (c = '.' → s ≠ []) ∧ Plain s

instance decidablePlain : (s : List Char) → Decidable (Plain s)
  | [] => isTrue trivial
  | c :: s =>
    have := decidablePlain s
    inferInstanceAs (Decidable (c ≠ '?' ∧ (c = ']' → s = [] ∨ s.head? = some '.') ∧
      (c = '[' → s.head? ≠ some ']' ∧ digitsOf s ≤ 2147483647) ∧ (c = '.' → s ≠ []) ∧ Plain s))

structure AtStart (p : Parser) : Prop where
  state : p.state = .none
  prevState : p.prevState = .none
  tmp : p.tmp = []
  added : p.added = false

section

variable {bfldid : List Char → Int} {p : Parser}

theorem not_isValidId_bracket : isValidId '[' = false := by decide

theorem not_isValidId_dot : isValidId '.' = false := by decide

variable {q : Parser}

theorem checkAdded_eq (h : checkAdded p = .ok q) : q = {p with added := false} := by
  rw [checkAdded] at h
  split at h
  · split at h
    · cases h
    · obtain ⟨_, _, hq⟩ := bind_eq_ok.mp h
      cases hq
      rfl
  · rename_i hadded
    cases h
    rw [← Bool.eq_false_iff.mpr hadded]

variable {s : List Char}

theorem parseLoop_check (h : p.state = .none) (hs : s ≠ []) :
    parseLoop bfldid p s = checkAdded p >>= fun q => parseLoop bfldid q s := by
  obtain ⟨c, t, rfl⟩ := exists_cons_of_ne_nil hs
  have hstep {q : Parser} (hq : q.state = .none) :
      parseLoop bfldid q (c :: t) = checkAdded q >>= fun q' =>
        nameStep bfldid q' c >>= fun q'' => parseLoop bfldid q'' t := by
    rw [parseLoop, parseStep, hq]
    rcases checkAdded q with e | q' <;> rfl
  rw [hstep h]
  rcases hchk : checkAdded p with e | q
  · rfl
  · cases checkAdded_eq hchk
    have hq : checkAdded {p with added := false} = .ok {p with added := false} := rfl
    show _ = parseLoop bfldid {p with added := false} (c :: t)
    rw [hstep (q := {p with added := false}) h, hq]

theorem parseStep_none (hstate : p.state = .none) (hadded : p.added = false) (c : Char) :
    parseStep bfldid p c = nameStep bfldid p c := by
  have hchk : checkAdded p = .ok p := by rw [checkAdded, hadded, if_neg Bool.false_ne_true]
  rw [parseStep, hstate]
  rw [hchk]
  rfl

theorem parseStep_occ (hstate : p.state = .occ) (c : Char) : parseStep bfldid p c = occStep p c := by
  rw [parseStep, hstate]

theorem parseLoop_collect {w : List Char}
    (h : ∀ x ∈ w, ∀ tmp, parseStep bfldid {p with tmp := tmp} x = .ok {p with tmp := tmp ++ [x]})
    (s : List Char) :
    parseLoop bfldid p (w ++ s) = parseLoop bfldid {p with tmp := p.tmp ++ w} s := by
  induction w generalizing p with
  | nil => rw [append_nil, nil_append]
  | cons x w ih =>
    have hstep : parseStep bfldid p x = .ok {p with tmp := p.tmp ++ [x]} := h x mem_cons_self p.tmp
    have hrest := ih (p := {p with tmp := p.tmp ++ [x]}) (fun y hy => h y (mem_cons_of_mem x hy))
    rw [append_assoc] at hrest
    rw [cons_append, parseLoop, hstep]
    exact hrest

theorem parseLoop_name (hstate : p.state = .none) (hadded : p.added = false) {name : List Char}
    (h : ∀ x ∈ name, isValidId x = true) (s : List Char) :
    parseLoop bfldid p (name ++ s) = parseLoop bfldid {p with tmp := p.tmp ++ name} s := by
  apply parseLoop_collect
  intro x hx tmp
  rw [parseStep_none (p := {p with tmp := tmp}) hstate hadded, nameStep, if_pos (h x hx)]

variable {d : List Char}

theorem parseLoop_digits (hstate : p.state = .occ) (h : ∀ x ∈ d, x.isDigit = true) (s : List Char) :
    parseLoop bfldid p (d ++ s) = parseLoop bfldid {p with tmp := p.tmp ++ d} s := by
  apply parseLoop_collect
  intro x hx tmp
  rw [parseStep_occ (p := {p with tmp := tmp}) hstate, occStep, if_pos (h x hx)]

theorem atoi_digits (h : ∀ x ∈ d, x.isDigit = true) (hfit : digitsOf d ≤ 2147483647) :
    atoi d = digitsOf d := by
  have hnonneg : 0 ≤ digitsOf d := Int.natCast_nonneg _
  rw [atoi, strtol_digits h, clampLong_of_mem (by omega) (by omega),
    wrap32_of_mem (by omega) (by omega)]

structure Comp.Readable (c : Comp) : Prop extends c.WellFormed where
  notAny : c.occ ≠ .any
  fits : ∀ d, c.occ = .num d → digitsOf d ≤ 2147483647

def addComp (bfldid : List Char → Int) (p : Parser) (c : Comp) : Except BErr Parser := do
  let p ← resolveField bfldid {p with tmp := c.name}
  .ok {resolveAdd {p with parsedocc := c.number} with
    prevState := if c.occ = .first then .none else .occ}

theorem resolveField_frame (h : resolveField bfldid p = .ok q) :
    q.state = p.state ∧ q.prevState = p.prevState ∧ q.added = p.added ∧ q.tmp = [] := by
  rw [resolveField] at h
  split at h
  · cases h
  split at h
  · cases h
  · cases h
    exact ⟨rfl, rfl, rfl, rfl⟩
  · split at h
    · cases h
    · cases h
      exact ⟨rfl, rfl, rfl, rfl⟩

theorem resolveField_named (h : resolveField bfldid p = .ok q) : p.tmp ≠ [] := by
  intro htmp
  rw [resolveField, if_pos htmp] at h
  cases h

variable {c : Comp}

theorem parseLoop_bracket (hp : AtStart p) (hc : c.Readable) (hd : c.occ = .num d) (s : List Char) :
    parseLoop bfldid p (c.text ++ s) = addComp bfldid p c >>= fun q => parseLoop bfldid q s := by
  have htext : c.text ++ s = c.name ++ '[' :: (d ++ ']' :: s) := by
    simp [Comp.text, hd]
  have hnum : c.number = digitsOf d := by rw [Comp.number, hd]
  rw [htext, parseLoop_name hp.state hp.added hc.valid, hp.tmp, nil_append, parseLoop, addComp,
    if_neg (by rw [hd]; nofun), hnum]
  have hopen : parseStep bfldid {p with tmp := c.name} '[' =
      resolveField bfldid {p with tmp := c.name} >>= fun q =>
        .ok {q with prevState := .none, state := .occ} := by
    apply (parseStep_none (p := {p with tmp := c.name}) hp.state hp.added '[').trans
    rw [nameStep, not_isValidId_bracket, if_neg Bool.false_ne_true, if_pos rfl]
  rw [hopen]
  rcases hres : resolveField bfldid {p with tmp := c.name} with e | q
  · rfl
  have hframe := resolveField_frame hres
  show parseLoop bfldid {q with prevState := .none, state := .occ} (d ++ ']' :: s) = _
  rw [parseLoop_digits rfl (hc.digits d hd), parseLoop]
  have hclose : parseStep bfldid
      {q with prevState := .none, state := .occ, tmp := q.tmp ++ d} ']' =
      .ok {resolveAdd {q with parsedocc := digitsOf d} with prevState := .occ} := by
    show Except.ok {resolveAdd {q with
      prevState := .none, state := .occ, tmp := q.tmp ++ d, parsedocc := atoi (q.tmp ++ d)} with
      prevState := .occ, state := .none} = _
    rw [hframe.2.2.2, nil_append, atoi_digits (hc.digits d hd) (hc.fits d hd)]
    have hstate : q.state = .none := hframe.1.trans hp.state
    simp only [resolveAdd]
    split <;> simp only [hstate]
  rw [hclose]
  rfl

theorem addComp_frame (hp : AtStart p) (h : addComp bfldid p c = .ok q) :
    q.state = .none ∧ q.prevState = (if c.occ = .first then .none else .occ) ∧ q.tmp = [] ∧
      q.added = true := by
  obtain ⟨q', hres, hq⟩ := bind_eq_ok.mp h
  have hframe := resolveField_frame hres
  have hstate : q'.state = .none := hframe.1.trans hp.state
  cases hq
  unfold resolveAdd
  split <;> exact ⟨hstate, rfl, rfl, rfl⟩

theorem addComp_first (hp : AtStart p) (hocc : c.occ = .first) :
    addComp bfldid p c = resolveField bfldid {p with tmp := c.name} >>= fun q =>
      .ok (resolveAdd {q with parsedocc := 0}) := by
  have hnum : c.number = 0 := by rw [Comp.number, hocc]
  rw [addComp, hnum]
  rcases hres : resolveField bfldid {p with tmp := c.name} with e | q
  · rfl
  · have hprev : q.prevState = .none := (resolveField_frame hres).2.1.trans hp.prevState
    show Except.ok _ = Except.ok (resolveAdd _)
    simp only [resolveAdd]
    split <;> simp only [hprev]

theorem parseLoop_last (hp : AtStart p) (hc : c.Readable) :
    parseLoop bfldid p c.text = addComp bfldid p c := by
  cases hocc : c.occ with
  | first =>
    have htext : c.text = c.name ++ [] := by rw [Comp.text, hocc, append_nil]
    rw [htext, parseLoop_name hp.state hp.added hc.valid, hp.tmp, nil_append, parseLoop,
      addComp_first hp hocc]
    simp [parseEnd, hp.state, if_neg hc.named]
  | num =>
    rw [← append_nil c.text, parseLoop_bracket hp hc hocc]
    rcases hadd : addComp bfldid p c with e | q
    · rfl
    · have hframe := addComp_frame hp hadd
      show parseEnd bfldid q = .ok q
      rw [parseEnd, hframe.1, hframe.2.2.1]
      rfl
  | any => exact absurd hocc hc.notAny

theorem parseLoop_dot (hp : AtStart p) (hc : c.Readable) (hs : s ≠ []) :
    parseLoop bfldid p (c.text ++ '.' :: s) = addComp bfldid p c >>= fun q =>
      checkAdded q >>= fun q => parseLoop bfldid {q with prevState := .none} s := by
  cases hocc : c.occ with
  | first =>
    have htext : c.text = c.name := by rw [Comp.text, hocc]
    have hdot : parseLoop bfldid p (c.name ++ '.' :: s) =
        addComp bfldid p c >>= fun q => parseLoop bfldid q s := by
      rw [parseLoop_name hp.state hp.added hc.valid, hp.tmp, addComp_first hp hocc]
      apply congrArg (· >>= fun q => parseLoop bfldid q s)
      apply (parseStep_none (p := {p with tmp := c.name}) hp.state hp.added '.').trans
      have hprev : p.prevState ≠ .occ ∧ p.prevState ≠ .occAny := by
        rw [hp.prevState]
        exact ⟨nofun, nofun⟩
      rw [nameStep, not_isValidId_dot, if_neg Bool.false_ne_true, if_neg (by decide), if_pos rfl,
        if_pos hprev, if_neg hc.named]
    rw [htext, hdot]
    rcases hadd : addComp bfldid p c with e | q
    · rfl
    have hframe := addComp_frame hp hadd
    rw [hocc, if_pos rfl] at hframe
    show parseLoop bfldid q s = checkAdded q >>= fun q => parseLoop bfldid {q with prevState := .none} s
    rw [parseLoop_check hframe.1 hs]
    rcases hchk : checkAdded q with e | q'
    · rfl
    · cases checkAdded_eq hchk
      show parseLoop bfldid {q with added := false} s = parseLoop bfldid _ s
      rw [← hframe.2.1]
  | num =>
    rw [parseLoop_bracket hp hc hocc]
    rcases hadd : addComp bfldid p c with e | q
    · rfl
    have hframe := addComp_frame hp hadd
    rw [hocc] at hframe
    show parseLoop bfldid q ('.' :: s) =
      checkAdded q >>= fun q => parseLoop bfldid {q with prevState := .none} s
    rw [parseLoop_check hframe.1 (cons_ne_nil _ _)]
    rcases hchk : checkAdded q with e | q'
    · rfl
    cases checkAdded_eq hchk
    -- the dot after a bracket only ends the component
    have hstep : parseStep bfldid {q with added := false} '.' =
        .ok {q with added := false, prevState := .none} := by
      apply (parseStep_none (p := {q with added := false}) hframe.1 rfl '.').trans
      have hprev : ¬(q.prevState ≠ .occ ∧ q.prevState ≠ .occAny) := fun h => h.1 hframe.2.1
      rw [nameStep, not_isValidId_dot, if_neg Bool.false_ne_true, if_neg (by decide), if_pos rfl,
        if_neg hprev]
      simp [hframe.2.2.1]
    show parseLoop bfldid {q with added := false} ('.' :: s) = _
    rw [parseLoop, hstep]
    rfl
  | any => exact absurd hocc hc.notAny

def idAdded (bfldid : List Char → Int) (p : Parser) (c : Comp) : Parser :=
  {p with
    tmp := []
    added := true
    prevState := if c.occ = .first then .none else .occ
    isView := if fldType (bfldid c.name) = some .view then .found else .no
    nrflds := p.nrflds+1
    parsedid := bfldid c.name
    parsedocc := c.number
    fldidocc := p.fldidocc ++ [bfldid c.name, c.number]
    occ := c.number}

theorem idAdded_isView (c : Comp) : (idAdded bfldid p c).isView ≠ .cnameParsed := by
  simp only [idAdded]
  split <;> nofun

theorem addComp_id (hv : p.isView = .no) (hname : c.name ≠ []) :
    addComp bfldid p c = .ok q ↔ bfldid c.name ≠ 0 ∧ q = idAdded bfldid p c := by
  simp only [addComp, resolveField, if_neg hname, hv]
  by_cases hid : bfldid c.name = 0
  · rw [if_pos hid]
    exact ⟨nofun, fun h => absurd hid h.1⟩
  have hview : (idAdded bfldid p c).isView ≠ .cnameParsed := idAdded_isView c
  simp only [idAdded] at hview
  rw [if_neg hid]
  show Except.ok _ = _ ↔ _
  simp only [resolveAdd, if_neg hview, Except.ok.injEq, ne_eq, hid, not_false_eq_true, true_and]
  exact eq_comm

def fieldAdded (p : Parser) (c : Comp) : Parser :=
  {p with
    tmp := []
    added := true
    prevState := if c.occ = .first then .none else .occ
    isView := .cnameParsed
    nrflds := p.nrflds+1
    parsedocc := c.number
    cname := some c.name
    cnameOcc := c.number}

theorem addComp_field (hv : p.isView = .found) (hname : c.name ≠ []) :
    addComp bfldid p c = .ok (fieldAdded p c) := by
  simp only [addComp, resolveField, if_neg hname, hv]
  rfl

def nextComp (bfldid : List Char → Int) (p : Parser) (c : Comp) : Parser :=
  {idAdded bfldid p c with added := false, prevState := .none}

theorem nextComp_atStart (hp : AtStart p) (c : Comp) : AtStart (nextComp bfldid p c) :=
  ⟨hp.state, rfl, rfl, rfl⟩

theorem checkAdded_id (c : Comp) : checkAdded (idAdded bfldid p c) =
    if fldType (bfldid c.name) = some .ubf ∨ fldType (bfldid c.name) = some .view
      then .ok {idAdded bfldid p c with added := false} else .error .bebadop := by
  have hlast : (idAdded bfldid p c).fldidocc.dropLast.getLast? = some (bfldid c.name) := by
    show (p.fldidocc ++ [bfldid c.name, c.number]).dropLast.getLast? = _
    rw [append_cons, dropLast_concat, getLast?_concat]
  rw [checkAdded, if_neg (idAdded_isView c), validateRfield, hlast]
  show (if _ then Except.ok () else .error bebadop) >>= _ = _
  split <;> rfl

theorem parseLoop_next (hp : AtStart p) (hv : p.isView = .no) (hc : c.Readable)
    {t : List Char} (ht : t ≠ []) :
    parseLoop bfldid p (c.text ++ '.' :: t) = .ok q ↔ bfldid c.name ≠ 0 ∧
      (fldType (bfldid c.name) = some .ubf ∨ fldType (bfldid c.name) = some .view) ∧
      parseLoop bfldid (nextComp bfldid p c) t = .ok q := by
  rw [parseLoop_dot hp hc ht, bind_eq_ok]
  constructor
  · rintro ⟨_, hadd, h⟩
    obtain ⟨hid, rfl⟩ := (addComp_id hv hc.named).mp hadd
    obtain ⟨_, hchk, h⟩ := bind_eq_ok.mp h
    rw [checkAdded_id] at hchk
    split at hchk
    · rename_i htyp
      cases hchk
      exact ⟨hid, htyp, h⟩
    · cases hchk
  · rintro ⟨hid, htyp, h⟩
    refine ⟨_, (addComp_id hv hc.named).mpr ⟨hid, rfl⟩, ?_⟩
    rw [checkAdded_id, if_pos htyp]
    exact h

theorem Plain.suffix {a : List Char} (h : Plain (a ++ s)) : Plain s := by
  induction a with
  | nil => exact h
  | cons c a ih => exact ih h.2.2.2.2

theorem digitsOf_bracket (h : ∀ x ∈ d, x.isDigit = true) (s : List Char) :
    digitsOf (d ++ ']' :: s) = digitsOf d := by
  have hall : d.takeWhile Char.isDigit = d := takeWhile_eq_self_iff.mpr h
  rw [digitsOf, digitsOf, hall, takeWhile_append_of_pos h, takeWhile_cons_of_neg (by decide),
    append_nil]

theorem exists_span (f : Char → Bool) (s : List Char) :
    ∃ a t, s = a ++ t ∧ (∀ x ∈ a, f x = true) ∧ ∀ x ∈ t.head?, f x = false := by
  refine ⟨s.takeWhile f, s.dropWhile f, takeWhile_append_dropWhile.symm,
    fun x hx => mem_takeWhile_imp hx, ?_⟩
  intro x hx
  have := head?_dropWhile_not f s
  rw [Option.mem_def.mp hx] at this
  simpa using this

theorem parseLoop_occ_cut (hstate : p.state = .occ) (h : parseLoop bfldid p s = .ok q) :
    ∃ d t, s = d ++ ']' :: t ∧ ∀ x ∈ d, x.isDigit = true := by
  obtain ⟨d, t, rfl, hd, ht⟩ := exists_span Char.isDigit s
  rw [parseLoop_digits hstate hd] at h
  rcases t with _ | ⟨x, t⟩
  · simp only [hstate] at h
    cases h
  have hx : ¬x.isDigit = true := by simp [ht x (by simp)]
  obtain ⟨_, hstep, _⟩ := bind_eq_ok.mp h
  simp only [parseStep, hstate, occStep, if_neg hx] at hstep
  by_cases hclose : x = ']'
  · rw [hclose]
    exact ⟨d, t, rfl, hd⟩
  · rw [if_neg hclose] at hstep
    simp at hstep

theorem parseLoop_cut (hp : AtStart p) (hs : s ≠ []) (hplain : Plain s)
    (h : parseLoop bfldid p s = .ok q) :
    ∃ c : Comp, c.Readable ∧ (s = c.text ∨ ∃ t, t ≠ [] ∧ s = c.text ++ '.' :: t) := by
  obtain ⟨name, t, rfl, hvalid, ht⟩ := exists_span isValidId s
  rw [parseLoop_name hp.state hp.added hvalid, hp.tmp, nil_append] at h
  have hfirst (hname : name ≠ []) : Comp.Readable ⟨name, .first⟩ :=
    ⟨⟨hname, hvalid, nofun, nofun⟩, nofun, nofun⟩
  rcases t with _ | ⟨x, t⟩
  · rw [append_nil] at hs ⊢
    exact ⟨⟨name, .first⟩, hfirst hs, .inl rfl⟩
  have hx : ¬isValidId x = true := by simp [ht x (by simp)]
  obtain ⟨_, hstep, hrest⟩ := bind_eq_ok.mp h
  have hchar := hplain.suffix
  rw [parseStep_none (p := {p with tmp := name}) hp.state hp.added, nameStep, if_neg hx] at hstep
  by_cases hopen : x = '['
  · rw [if_pos hopen] at hstep
    obtain ⟨_, hres, hq'⟩ := bind_eq_ok.mp hstep
    cases hq'
    obtain ⟨d, u, rfl, hd⟩ := parseLoop_occ_cut rfl hrest
    subst hopen
    have hinside := hchar.2.2.1 rfl
    rw [digitsOf_bracket hd] at hinside
    have hfilled : d ≠ [] := by
      rintro rfl
      exact hinside.1 rfl
    have hc : Comp.Readable ⟨name, .num d⟩ := by
      refine ⟨⟨resolveField_named hres, hvalid, ?_, ?_⟩, nofun, ?_⟩
      · rintro _ ⟨⟩
        exact hfilled
      · rintro _ ⟨⟩
        exact hd
      · rintro _ ⟨⟩
        exact hinside.2
    have hclose : Plain (']' :: u) := Plain.suffix (a := '[' :: d) hchar
    refine ⟨⟨name, .num d⟩, hc, ?_⟩
    rcases hclose.2.1 rfl with rfl | hdot
    · exact .inl rfl
    · obtain ⟨w, rfl⟩ := head?_eq_some_iff.mp hdot
      exact .inr ⟨w, hclose.2.2.2.2.2.2.2.1 rfl, by simp [Comp.text]⟩
  · rw [if_neg hopen] at hstep
    by_cases hdot : x = '.'
    · subst hdot
      have hname : name ≠ [] := by
        rintro rfl
        simp [hp.prevState] at hstep
      exact ⟨⟨name, .first⟩, hfirst hname, .inr ⟨t, hchar.2.2.2.1 rfl, rfl⟩⟩
    · rw [if_neg hdot] at hstep
      cases hstep

/-- What the parser accepts is a reference, and its names lead to a field. -/
theorem parseLoop_sound (hs : s ≠ []) (hplain : Plain s) (hp : AtStart p)
    (h : parseLoop bfldid p s = .ok q) :
    (p.isView = .no → ∃ cs ids fld, (∀ c ∈ cs, Comp.Readable c) ∧ s = refText cs ∧
      Names bfldid cs ids fld) ∧ (p.isView = .found → ∃ c, Comp.Readable c ∧ s = c.text) := by
  -- on the length of the text: behind a dot there is less of it
  induction hn : s.length using Nat.strong_induction_on generalizing p s with
  | _ n ih =>
    obtain ⟨c, hc, rfl | ⟨t, ht, rfl⟩⟩ := parseLoop_cut hp hs hplain h
    · refine ⟨fun hv => ?_, fun _ => ⟨c, hc, rfl⟩⟩
      rw [parseLoop_last hp hc] at h
      refine ⟨[c], _, _, ?_, rfl, .leaf ((addComp_id hv hc.named).mp h).1⟩
      intro c' hc'
      rwa [mem_singleton.mp hc']
    · have hless : t.length < n := by
        rw [← hn, length_append, length_cons]
        omega
      have hplain' : Plain t := Plain.suffix (a := c.text ++ ['.']) (by simpa using hplain)
      constructor
      · intro hv
        obtain ⟨hid, htyp, h⟩ := (parseLoop_next hp hv hc ht).mp h
        have hrest := ih t.length hless ht hplain' (nextComp_atStart hp c) h rfl
        rcases htyp with htyp | htyp
        · obtain ⟨cs, _, fld, hcs, rfl, hnames⟩ := hrest.1 (if_neg (by rw [htyp]; nofun))
          refine ⟨c :: cs, _, fld, forall_mem_cons.mpr ⟨hc, hcs⟩, ?_, .sub hid htyp hnames⟩
          cases hnames <;> rfl
        · obtain ⟨f, hf, rfl⟩ := hrest.2 (if_pos htyp)
          refine ⟨[c, f], _, _, ?_, rfl, .field hid htyp⟩
          simp only [forall_mem_cons]
          exact ⟨hc, hf, nofun⟩
      · intro hv
        rw [parseLoop_dot hp hc ht, addComp_field hv hc.named] at h
        cases h

structure Reads (p : Parser) (n : ℕ) (ids : List (Int × Int)) (fld : Option (List Char × Int))
    (q : Parser) : Prop where
  fldidocc : q.fldidocc = p.fldidocc ++ flatIds ids
  cname : q.cname = (fld.map Prod.fst).or p.cname
  cnameOcc : q.cnameOcc = (fld.map Prod.snd).getD p.cnameOcc
  occ : q.occ = (ids.getLastD (0, 0)).2
  nrflds : q.nrflds = p.nrflds+n

variable {fld : Option (List Char × Int)} {ids : List (Int × Int)} {cs : List Comp}

theorem Names.ne_nil (h : Names bfldid cs ids fld) : ids ≠ [] := by
  cases h <;> exact cons_ne_nil _ _

theorem refText_ne_nil (cs : List Comp) (hc : c.WellFormed) : refText (c :: cs) ≠ [] := by
  have htext : c.text ≠ [] := by
    rw [Comp.text]
    split <;> simp [hc.named]
  cases cs <;> simp [refText, htext]

/-- A reference whose names lead to a field is parsed into their ids. -/
theorem parseLoop_names (h : Names bfldid cs ids fld) (hcs : ∀ c ∈ cs, Comp.Readable c)
    (hp : AtStart p) (hv : p.isView = .no) :
    ∃ q, parseLoop bfldid p (refText cs) = .ok q ∧ Reads p cs.length ids fld q := by
  induction h generalizing p with
  | @leaf c known =>
    have hc := hcs c (by simp)
    rw [refText, parseLoop_last hp hc, (addComp_id hv hc.named).mpr ⟨known, rfl⟩]
    exact ⟨_, rfl, rfl, rfl, rfl, rfl, rfl⟩
  | @field c f known typ =>
    have hc := hcs c (by simp)
    have hf := hcs f (by simp)
    have hv' : (nextComp bfldid p c).isView = .found := if_pos typ
    have hlast : parseLoop bfldid (nextComp bfldid p c) f.text =
        .ok (fieldAdded (nextComp bfldid p c) f) :=
      (parseLoop_last (nextComp_atStart hp c) hf).trans (addComp_field hv' hf.named)
    refine ⟨_, (parseLoop_next hp hv hc ?_).mpr ⟨known, .inr typ, hlast⟩, rfl, rfl, rfl, rfl, rfl⟩
    exact refText_ne_nil (c := f) [] hf.toWellFormed
  | @sub c cs ids fld known typ rest ih =>
    have hc := hcs c mem_cons_self
    have hcs' : ∀ c' ∈ cs, c'.Readable := fun c' h => hcs c' (mem_cons_of_mem c h)
    have hv' : (nextComp bfldid p c).isView = .no := if_neg (by rw [typ]; nofun)
    obtain ⟨q, hq, hreads⟩ := ih hcs' (nextComp_atStart hp c) hv'
    obtain ⟨c1, cs1, rfl⟩ : ∃ c1 cs1, cs = c1 :: cs1 := by
      cases rest <;> exact ⟨_, _, rfl⟩
    have hne := refText_ne_nil cs1 (hcs' c1 mem_cons_self).toWellFormed
    refine ⟨q, (parseLoop_next hp hv hc hne).mpr ⟨known, .inl typ, hq⟩, ?_⟩
    constructor
    · rw [hreads.fldidocc]
      exact append_assoc _ _ _
    · exact hreads.cname
    · exact hreads.cnameOcc
    · rw [hreads.occ]
      obtain ⟨_, _, rfl⟩ := exists_cons_of_ne_nil rest.ne_nil
      rfl
    · rw [hreads.nrflds]
      show p.nrflds+1+(c1 :: cs1).length = p.nrflds+((c1 :: cs1).length+1)
      omega

theorem parseFinish_reads {r : Rfldid} {n : ℕ} (hids : ids ≠ [])
    (h : Reads (Parser.init r) n ids fld p) : parseFinish s p = .ok (refForm s r n ids fld) := by
  have hflat : p.fldidocc = flatIds ids := h.fldidocc
  have hcname : p.cname = fld.map Prod.fst := by rw [h.cname]; cases fld <;> rfl
  have hnrflds : p.nrflds = n := h.nrflds.trans (Nat.zero_add n)
  obtain ⟨ids', x, rfl⟩ : ∃ ids' x, ids = ids' ++ [x] :=
    ⟨_, _, (dropLast_concat_getLast hids).symm⟩
  have hlast : flatIds (ids' ++ [x]) = (flatIds ids' ++ [x.1]) ++ [x.2] := by
    simp [flatIds]
  have hlen : ¬p.fldidocc.length < 2 := by
    rw [hflat, hlast, length_append, length_append]
    simp only [length_singleton]
    omega
  have hleaf : p.fldidocc.dropLast.getLastD 0 = x.1 := by
    rw [hflat, hlast, dropLast_concat, getLastD_concat]
  rw [parseFinish, if_neg hlen, hleaf, hflat, hcname, hnrflds, h.cnameOcc, h.occ]
  simp only [refForm, getLastD_concat]
  rfl

theorem Plain.readable (hc : c.WellFormed) (h : Plain (c.text ++ s)) : c.Readable := by
  cases hocc : c.occ with
  | first => exact ⟨hc, by rw [hocc]; nofun, by rw [hocc]; nofun⟩
  | num d =>
    have htext : c.text ++ s = c.name ++ '[' :: (d ++ ']' :: s) := by
      simp [Comp.text, hocc]
    rw [htext] at h
    have hinside := h.suffix.2.2.1 rfl
    rw [digitsOf_bracket (hc.digits d hocc)] at hinside
    refine ⟨hc, by rw [hocc]; nofun, ?_⟩
    intro d' hd'
    rw [hocc] at hd'
    cases hd'
    exact hinside.2
  | any =>
    have htext : c.text ++ s = (c.name ++ ['[']) ++ '?' :: (']' :: s) := by
      simp [Comp.text, hocc]
    rw [htext] at h
    exact absurd rfl h.suffix.1

theorem Plain.all_readable (hcs : ∀ c ∈ cs, Comp.WellFormed c) (h : Plain (refText cs)) :
    ∀ c ∈ cs, Comp.Readable c := by
  induction cs with
  | nil => nofun
  | cons c cs ih =>
    have hc := hcs c mem_cons_self
    have hcs' : ∀ c' ∈ cs, c'.WellFormed := fun c' h => hcs c' (mem_cons_of_mem c h)
    rw [forall_mem_cons]
    rcases cs with _ | ⟨c1, cs1⟩
    · exact ⟨Plain.readable hc (s := []) (by rwa [append_nil]), nofun⟩
    · have h' : Plain (c.text ++ '.' :: refText (c1 :: cs1)) := h
      rw [append_cons] at h'
      exact ⟨Plain.readable hc h, ih hcs' h'.suffix⟩

/-- A plain text is accepted exactly when it is a reference, and what is produced is its
components from left to right. -/
theorem rfldid_parse_iff {s : List Char} (hlen : s.length ≤ 4095) (hplain : Plain s)
    (r r' : Rfldid) :
    ndrxUbfRfldidParse bfldid s r = .ok r' ↔ ∃ cs ids fld, (∀ c ∈ cs, Comp.WellFormed c) ∧
      s = refText cs ∧ Names bfldid cs ids fld ∧ r' = refForm s r cs.length ids fld := by
  have hstart : AtStart (Parser.init r) := ⟨rfl, rfl, rfl, rfl⟩
  -- both directions end in the same computation
  have hparse {cs : List Comp} {ids : List (Int × Int)} {fld : Option (List Char × Int)}
      (hcs : ∀ c ∈ cs, Comp.Readable c) (htext : s = refText cs) (hnames : Names bfldid cs ids fld) :
      ndrxUbfRfldidParse bfldid s r = .ok (refForm s r cs.length ids fld) := by
    obtain ⟨q, hq, hreads⟩ := parseLoop_names hnames hcs hstart rfl
    rw [ndrxUbfRfldidParse, if_neg (by omega), htext, hq]
    exact parseFinish_reads hnames.ne_nil hreads
  constructor
  · intro h
    have hs : s ≠ [] := by
      rintro rfl
      cases h
    have hrun := h
    rw [ndrxUbfRfldidParse, if_neg (by omega)] at hrun
    obtain ⟨_, hq, _⟩ := bind_eq_ok.mp hrun
    obtain ⟨cs, ids, fld, hcs, htext, hnames⟩ := (parseLoop_sound hs hplain hstart hq).1 rfl
    rw [hparse hcs htext hnames] at h
    cases h
    exact ⟨cs, ids, fld, fun c hc => (hcs c hc).toWellFormed, htext, hnames, rfl⟩
  · rintro ⟨_, _, _, hcs, htext, hnames, rfl⟩
    exact hparse (Plain.all_readable hcs (htext ▸ hplain)) htext hnames

end

def sampleFlds : List Char → Int
  | ['U'] => 335544321
  | ['V'] => 369098754
  | ['S'] => 167772163
  | _ => 0

def blankRef : Rfldid := ⟨[], none, 0, [], 0, 0, 0⟩

theorem rfldid_parse_nested :
    ndrxUbfRfldidParse sampleFlds ['U', '[', '1', '2', ']', '.', 'V', '.', 'n', '[', '3', ']'] blankRef =
      .ok ⟨[335544321, 12, 369098754, 0, -1], some ['n'], 3,
        ['U', '[', '1', '2', ']', '.', 'V', '.', 'n', '[', '3', ']'], 369098754, 0, 3⟩ := by
  have hcomps : ∀ c ∈ [⟨['U'], .num ['1', '2']⟩, ⟨['V'], .first⟩, ⟨['n'], .num ['3']⟩],
      Comp.WellFormed c := by
    have hvalid {s : List Char} (h : s.all isValidId = true) : ∀ x ∈ s, isValidId x = true :=
      all_eq_true.mp h
    have hdigits {s : List Char} (h : s.all Char.isDigit = true) : ∀ x ∈ s, x.isDigit = true :=
      all_eq_true.mp h
    simp only [forall_mem_cons]
    refine ⟨⟨nofun, hvalid (by decide), ?_, ?_⟩, ⟨nofun, hvalid (by decide), nofun, nofun⟩,
      ⟨nofun, hvalid (by decide), ?_, ?_⟩, nofun⟩ <;> rintro _ ⟨⟩
    · decide
    · exact hdigits (by decide)
    · decide
    · exact hdigits (by decide)
  apply (rfldid_parse_iff (by decide) (by decide) _ _).mpr
  exact ⟨_, _, _, hcomps, rfl, .sub (by decide) (by decide) (.field (by decide) (by decide)), rfl⟩

/-- The field of a view is not looked up, and a text of more than 4095 characters is refused
whatever it says. -/
theorem rfldid_parse_limits : ndrxUbfRfldidParse sampleFlds ['V', '.', 'n'] blankRef =
        .ok ⟨[369098754, 0, -1], some ['n'], 0, ['V', '.', 'n'], 369098754, 0, 2⟩ ∧
      sampleFlds ['n'] = 0 ∧
      ndrxUbfRfldidParse (fun _ => 167772163) (replicate 4096 'A') blankRef = .error bsyntax := by
  refine ⟨by decide, by decide, ?_⟩
  rw [ndrxUbfRfldidParse, length_replicate, if_pos (by decide)]

end Endurox.Recursive
