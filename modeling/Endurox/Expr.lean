import Endurox.Recursive

/-! Boolean expressions over a buffer and their evaluation (libubf/expr_funcs.c). -/

namespace Endurox.Expr

open Base Base.Text UBF UBF.BErr Recursive

inductive RelOp
  | less | lessEqual | greater | greaterEqual
  deriving DecidableEq

inductive AddOp
  | plus | minus
  deriving DecidableEq

inductive MulOp
  | dot | div | mod
  deriving DecidableEq

inductive UnaryOp
  | plus | minus | cmpl | inv
  deriving DecidableEq

/-- The operations of `op_equal`: `NODE_TYPE_EQOP` without the regular expressions,
`NODE_TYPE_RELOP`, `NODE_TYPE_ADDOP` and `NODE_TYPE_MULTOP`. -/
inductive Op
  | equal | notEqual
  | rel (o : RelOp)
  | add (o : AddOp)
  | mult (o : MulOp)
  deriving DecidableEq

inductive RegexLeft
  | fld (f : Rfldid)
  | str (s : List Char)

/-- A unary node keeps its `nodeid`, which tells the calls of `process_unary` apart. -/
inductive Ast (F : Type)
  | or (l r : Ast F)
  | and (l r : Ast F)
  | xor (l r : Ast F)
  | op (o : Op) (l r : Ast F)
  | regex (notEqual : Bool) (l : RegexLeft) (r : List Char)
  | unary (nodeid : ℕ) (o : UnaryOp) (r : Ast F)
  | fld (f : Rfldid)
  | func (funcname : List Char) (arg1 : Option (List Char))
  | str (s : List Char)
  | float (d : F)
  | long (l : CLong)

inductive ValueType
  | bool | long | float | fldStr | string
  deriving DecidableEq

structure ValueBlock (F : Type) where
  valueType : ValueType
  isNull : Bool
  boolval : Int
  longval : CLong
  floatval : F
  strval : Option (List Char)
  deriving DecidableEq

structure FloatOps (F : Type) where
  zero : F
  ofLong : CLong → F
  toLong : F → CLong
  atof : List Char → F
  -- `%.13lf`, cut at `CF_TEMP_BUF_MAX`
  print : F → List Char
  add : F → F → F
  sub : F → F → F
  mul : F → F → F
  div : F → F → F
  neg : F → F
  lt : F → F → Bool
  le : F → F → Bool
  -- `fabs(x-y) < DOUBLE_EQUAL`
  near : F → F → Bool
  -- `IS_FLOAT_0`
  isZero : F → Bool

/-- What an evaluation ends with when it does not succeed: `EXFAIL` with an error set, a
division that the machine refuses, or a null pointer read. -/
inductive Stop
  | fail (e : BErr)
  | trap
  | crash
  deriving DecidableEq

structure Env (F : Type) where
  float : FloatOps F
  bpresUnified : Rfldid → Int
  -- `CBget_unified` to a string, a long and a double
  getString : Rfldid → Except BErr (List Char)
  getLong : Rfldid → Except BErr CLong
  getDouble : Rfldid → Except BErr F
  call : List Char → Option (List Char) → CLong
  regcomp : List Char → Bool
  regexec : List Char → List Char → Bool
  -- the variable `l` of `process_unary` when no branch has set it
  unset : ℕ → CLong

variable {F : Type}

def long0 : CLong := CLong.ofInt 0

def long1 : CLong := CLong.ofInt 1

def FloatOps.block (fl : FloatOps F) : ValueBlock F := ⟨.bool, false, 0, long0, fl.zero, none⟩

def FloatOps.truth (fl : FloatOps F) (b : Bool) : ValueBlock F :=
  {fl.block with
    valueType := .long
    boolval := if b then 1 else 0
    longval := if b then long1 else long0}

def FloatOps.number (fl : FloatOps F) (x : CLong) : ValueBlock F :=
  {fl.block with valueType := .long, longval := x, boolval := if x = long0 then 0 else 1}

def FloatOps.real (fl : FloatOps F) (x : F) : ValueBlock F :=
  {fl.block with valueType := .float, floatval := x, boolval := if fl.isZero x then 0 else 1}

def ValueBlock.isStr (v : ValueBlock F) : Bool := v.valueType = .fldStr ∨ v.valueType = .string

def ValueBlock.chars (v : ValueBlock F) : Except Stop (List Char) :=
  match v.strval with
  | some s => .ok s
  | none => .error .crash

def isFloat (s : List Char) : Bool := s.any (fun c => c = '.' ∨ c = ',' ∨ c = 'e' ∨ c = 'E')

def isFloatVal (v : ValueBlock F) : Except Stop Bool :=
  match v.valueType with
  | .float => .ok true
  | .fldStr | .string => v.chars.map isFloat
  | .long | .bool => .ok false

def getFloat (fl : FloatOps F) (v : ValueBlock F) : Except Stop F :=
  match v.valueType with
  | .float => .ok v.floatval
  | .long => .ok (fl.ofLong v.longval)
  | .fldStr | .string => v.chars.map fl.atof
  | .bool => .error (.fail bsyntax)

def convToString (fl : FloatOps F) (v : ValueBlock F) : Except Stop (List Char) :=
  match v.valueType with
  | .fldStr | .string => v.chars
  | .long => .ok (decimal v.longval.val)
  | .float => .ok (fl.print v.floatval)
  | .bool => .error (.fail bsyntax)

def convToLong (fl : FloatOps F) (v : ValueBlock F) : Except Stop CLong :=
  match v.valueType with
  | .long => .ok v.longval
  | .fldStr | .string => v.chars.map (fun s => fl.toLong (fl.atof s))
  | .float => .ok (fl.toLong v.floatval)
  | .bool => .error (.fail bsyntax)

def RelOp.holds : RelOp → Ordering → Bool
  | .less, o => o = .lt
  | .lessEqual, o => o ≠ .gt
  | .greater, o => o = .gt
  | .greaterEqual, o => o ≠ .lt

def strcmp (a b : List Char) : Ordering := if a = b then .eq else if a < b then .lt else .gt

def opEqualStrCmp (fl : FloatOps F) (o : Op) (lval rval : ValueBlock F) :
    Except Stop (ValueBlock F) := do
  let l ← convToString fl lval
  let r ← convToString fl rval
  match o with
  | .equal | .notEqual => .ok (fl.truth (strcmp l r = .eq))
  | .rel o => .ok (fl.truth (o.holds (strcmp l r)))
  | .add _ | .mult _ => .ok (fl.truth false)

def Divides (l r : CLong) : Prop :=
  r.val ≠ 0 ∧ -9223372036854775808 ≤ l.val.tdiv r.val ∧ l.val.tdiv r.val < 9223372036854775808

instance (l r : CLong) : Decidable (Divides l r) := inferInstanceAs (Decidable (_ ∧ _ ∧ _))

/-- The operators `/` and `%` of the machine: one instruction that gives both results. -/
def quotient (l r : CLong) : Except Stop CLong :=
  if Divides l r then .ok (CLong.ofInt (l.val.tdiv r.val)) else .error .trap

def remainder (l r : CLong) : Except Stop CLong :=
  if Divides l r then .ok (CLong.ofInt (l.val.tmod r.val)) else .error .trap

def opEqualLongCmp (fl : FloatOps F) (o : Op) (lval rval : ValueBlock F) :
    Except Stop (ValueBlock F) := do
  let l ← convToLong fl lval
  let r ← convToLong fl rval
  match o with
  | .equal | .notEqual => .ok (fl.truth (l = r))
  | .rel o => .ok (fl.truth (o.holds (compare l.val r.val)))
  | .add .plus => .ok (fl.number (.ofInt (l.val+r.val)))
  | .add .minus => .ok (fl.number (.ofInt (l.val-r.val)))
  | .mult .dot => .ok (fl.number (.ofInt (l.val*r.val)))
  | .mult .div => if r = long0 then .ok (fl.number long0) else (quotient l r).map fl.number
  | .mult .mod => if r = long0 then .ok (fl.number l) else (remainder l r).map fl.number

def opEqualFloatCmp (fl : FloatOps F) (o : Op) (lval rval : ValueBlock F) :
    Except Stop (ValueBlock F) := do
  let l ← getFloat fl lval
  let r ← getFloat fl rval
  match o with
  | .equal | .notEqual => .ok (fl.truth (fl.near l r))
  | .rel .less => .ok (fl.truth (fl.lt l r))
  | .rel .lessEqual => .ok (fl.truth (fl.le l r))
  | .rel .greater => .ok (fl.truth (fl.lt r l))
  | .rel .greaterEqual => .ok (fl.truth (fl.le r l))
  | .add .plus => .ok (fl.real (fl.add l r))
  | .add .minus => .ok (fl.real (fl.sub l r))
  | .mult .dot => .ok (fl.real (fl.mul l r))
  | .mult .div => .ok (fl.real (if fl.isZero r then fl.zero else fl.div l r))
  | .mult .mod =>
    .ok {fl.truth false with boolval := if fl.isZero fl.zero then 0 else 1}

def Op.isMath : Op → Bool
  | .add _ | .mult _ => true
  | .equal | .notEqual | .rel _ => false

def opEqual (fl : FloatOps F) (o : Op) (lval rval : ValueBlock F) : Except Stop (ValueBlock F) :=
  -- "Not equal": the type of the block stays as `memset` left it
  if lval.isNull || rval.isNull then .ok fl.block
  else if !o.isMath && (lval.isStr && rval.isStr || lval.valueType = .string ||
      rval.valueType = .string) then opEqualStrCmp fl o lval rval
  else if lval.valueType = .long ∧ rval.valueType = .long then opEqualLongCmp fl o lval rval
  else do
    let isLvalFloat ← isFloatVal lval
    let isRvalFloat ← isFloatVal rval
    if !isLvalFloat && !isRvalFloat || o = .mult .mod then opEqualLongCmp fl o lval rval
    else opEqualFloatCmp fl o lval rval

def ValueBlock.inverse (v : ValueBlock F) : ValueBlock F :=
  {v with
    boolval := if v.boolval = 0 then 1 else 0
    longval := if v.longval = long0 then long1 else long0}

def regexpEval (env : Env F) (l : RegexLeft) (r : List Char) : Except Stop (ValueBlock F) :=
  let matched (s : List Char) : Except Stop (ValueBlock F) :=
    if env.regcomp r then .ok (env.float.truth (env.regexec r s)) else .error (.fail bsyntax)
  match l with
  | .str s => matched s
  | .fld f =>
    match env.getString f with
    | .ok s => matched s
    | .error e =>
      if e = .bnotpres then .ok {env.float.truth false with isNull := true} else .error (.fail e)

def readsText (f : Rfldid) : Bool :=
  fldType f.bfldid = some .string ∨ fldType f.bfldid = some .carray ∨
    fldType f.bfldid = some .char ∨ f.cname.isSome

def getField (env : Env F) (f : Rfldid) : Except BErr (ValueBlock F) :=
  if readsText f then
    (env.getString f).map
      (fun s => {env.float.block with valueType := .fldStr, strval := some s, boolval := 1})
  else if fldType f.bfldid = some .short ∨ fldType f.bfldid = some .long then
    (env.getLong f).map
      (fun x => {env.float.block with valueType := .long, longval := x, boolval := 1})
  else if fldType f.bfldid = some .float ∨ fldType f.bfldid = some .double then
    (env.getDouble f).map
      (fun x => {env.float.block with valueType := .float, floatval := x, boolval := 1})
  else .ok env.float.block

def readUnaryFb (env : Env F) (f : Rfldid) : Except Stop (ValueBlock F) :=
  if env.bpresUnified f = 0 then .ok {env.float.block with valueType := .long, isNull := true}
  else match getField env f with
    | .ok v => .ok v
    | .error e =>
      if e = .bnotpres then
        .ok {env.float.block with
          valueType := if readsText f then .fldStr else .long
          isNull := true}
      else .error (.fail e)

def unaryNumber (env : Env F) (nodeid : ℕ) (pri : ValueBlock F) : Except Stop (CLong ⊕ F) :=
  match pri.valueType with
  | .fldStr | .string =>
    pri.chars.map (fun s =>
      if isFloat s then .inr (env.float.atof s) else .inl (CLong.ofInt (strtol s)))
  | .float => .ok (.inr pri.floatval)
  | .long => .ok (.inl pri.longval)
  | .bool => .ok (.inl (env.unset nodeid))

def processUnary (env : Env F) (nodeid : ℕ) (o : UnaryOp) (pri : ValueBlock F) :
    Except Stop (ValueBlock F) := do
  let x ← unaryNumber env nodeid pri
  match o, x with
  | .plus, .inl l => .ok (env.float.number l)
  | .plus, .inr f => .ok (env.float.real f)
  | .minus, .inl l => .ok (env.float.number (.ofInt (-l.val)))
  | .minus, .inr f => .ok (env.float.real (env.float.neg f))
  | .cmpl, _ =>
    .ok {env.float.block with
      valueType := .long
      boolval := -pri.boolval-1
      longval := .ofInt (-pri.boolval-1)}
  | .inv, _ => .ok (env.float.truth (pri.boolval = 0))

def eval (env : Env F) : Ast F → Except Stop (ValueBlock F)
  | .or l r => do
    let lv ← eval env l
    if lv.boolval ≠ 0 then .ok (env.float.truth true)
    else do
      let rv ← eval env r
      .ok (env.float.truth (rv.boolval ≠ 0))
  | .and l r => do
    let lv ← eval env l
    if lv.boolval = 0 then .ok (env.float.truth false)
    else do
      let rv ← eval env r
      .ok (env.float.truth (rv.boolval ≠ 0))
  | .xor l r => do
    let lv ← eval env l
    let rv ← eval env r
    -- `longval` is not set here
    .ok {env.float.block with
      valueType := .long
      boolval := if (lv.boolval ≠ 0 ∧ rv.boolval = 0) ∨ (lv.boolval = 0 ∧ rv.boolval ≠ 0) then 1 else 0}
  | .op o l r => do
    let lv ← eval env l
    let rv ← eval env r
    let v ← opEqual env.float o lv rv
    .ok (if o = .notEqual then v.inverse else v)
  | .regex notEqual l r => do
    let v ← regexpEval env l r
    .ok (if notEqual then v.inverse else v)
  | .unary nodeid o a => do
    let pri ← eval env a
    processUnary env nodeid o pri
  | .fld f => readUnaryFb env f
  | .func funcname arg1 => .ok (env.float.number (env.call funcname arg1))
  | .str s => .ok {env.float.block with valueType := .string, boolval := 1, strval := some s}
  | .float d => .ok (env.float.real d)
  | .long l => .ok (env.float.number l)

def ndrxBboolev (env : Env F) (a : Ast F) : Except Stop Bool :=
  (eval env a).map (fun v => v.boolval ≠ 0)

end Endurox.Expr
