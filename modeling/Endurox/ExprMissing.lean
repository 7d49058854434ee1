import Endurox.ExprDivide

/-! Expressions over fields that are not in the buffer. -/

namespace Endurox.Expr

open Base UBF.BErr Recursive

inductive Frame (F : Type)
  | orL (r : Ast F)
  | orR (l : Ast F)
  | andL (r : Ast F)
  | andR (l : Ast F)
  | xorL (r : Ast F)
  | xorR (l : Ast F)
  | opL (o : Op) (r : Ast F)
  | opR (o : Op) (l : Ast F)
  | unary (nodeid : ℕ) (o : UnaryOp)

section

variable {F : Type} {env : Env F}

def Frame.plug : Frame F → Ast F → Ast F
  | .orL r, a => .or a r
  | .orR l, a => .or l a
  | .andL r, a => .and a r
  | .andR l, a => .and l a
  | .xorL r, a => .xor a r
  | .xorR l, a => .xor l a
  | .opL o r, a => .op o a r
  | .opR o l, a => .op o l a
  | .unary nodeid o, a => .unary nodeid o a

def plugAll : List (Frame F) → Ast F → Ast F
  | [], a => a
  | fr :: rest, a => plugAll rest (fr.plug a)

def Frame.logical : Frame F → Bool
  | .opL _ _ | .opR _ _ => false
  | .unary _ o => o = .cmpl ∨ o = .inv
  | _ => true

def Logical (ctx : List (Frame F)) : Prop := ∀ fr ∈ ctx.head?, fr.logical = true

def outcome (env : Env F) (a : Ast F) : Except Stop (Int × CLong) :=
  (eval env a).map (fun v => (v.boolval, v.longval))

def Absent (env : Env F) (f : Rfldid) : Prop :=
  env.bpresUnified f = 0 ∨ getField env f = .error .bnotpres

theorem eval_plug_congr {a b : Ast F} (h : eval env a = eval env b) (fr : Frame F) :
    eval env (fr.plug a) = eval env (fr.plug b) := by
  cases fr <;> simp only [Frame.plug, eval, h]

theorem eval_plugAll_congr {a b : Ast F} (h : eval env a = eval env b) (ctx : List (Frame F)) :
    eval env (plugAll ctx a) = eval env (plugAll ctx b) := by
  induction ctx generalizing a b with
  | nil => exact h
  | cons fr rest ih => exact ih (eval_plug_congr h fr)

theorem unaryNumber_ok (env : Env F) {v : ValueBlock F} (h : v.isStr = false) (nodeid : ℕ) :
    ∃ x, unaryNumber env nodeid v = .ok x := by
  rw [unaryNumber]
  cases htyp : v.valueType <;> simp_all [ValueBlock.isStr]

theorem eval_plug_logical {a b : Ast F} {v w : ValueBlock F} (ha : eval env a = .ok v)
    (hb : eval env b = .ok w) (hbool : v.boolval = w.boolval) (hv : v.isStr = false)
    (hw : w.isStr = false) {fr : Frame F} (hfr : fr.logical = true) :
    eval env (fr.plug a) = eval env (fr.plug b) := by
  have hok {x : ValueBlock F} {f : ValueBlock F → Except Stop (ValueBlock F)} :
      (Except.ok x >>= f) = f x := rfl
  cases fr with
  | orL | orR | andL | andR | xorL | xorR =>
    simp only [Frame.plug, eval, ha, hb, hok, hbool]
  | opL => cases hfr
  | opR => cases hfr
  | unary nodeid o =>
    obtain ⟨_, hx⟩ := unaryNumber_ok env hv nodeid
    obtain ⟨_, hy⟩ := unaryNumber_ok env hw nodeid
    have hnum {z : CLong ⊕ F} {f : CLong ⊕ F → Except Stop (ValueBlock F)} :
        (Except.ok z >>= f) = f z := rfl
    simp only [Frame.plug, eval, ha, hb, hok, processUnary, hx, hy, hnum]
    cases o with
    | plus => cases hfr
    | minus => cases hfr
    | cmpl => rw [hbool]
    | inv => rw [hbool]

theorem eval_absent {f : Rfldid} (h : Absent env f) :
    ∃ v, eval env (.fld f) = .ok v ∧ v.isNull = true := by
  rw [eval, readUnaryFb]
  split
  · exact ⟨_, rfl, rfl⟩
  · rename_i hpres
    rw [h.resolve_left hpres]
    exact ⟨_, rfl, rfl⟩

def missingBlock (fl : FloatOps F) (o : Op) : ValueBlock F :=
  if o = .notEqual then fl.block.inverse else fl.block

def missingValue (o : Op) : CLong := if o = .notEqual then long1 else long0

structure SameButType (v w : ValueBlock F) : Prop where
  boolval : v.boolval = w.boolval
  longval : v.longval = w.longval
  left : v.isStr = false
  right : w.isStr = false

theorem missingBlock_same (fl : FloatOps F) (o : Op) :
    SameButType (missingBlock fl o) (fl.number (missingValue o)) := by
  rw [missingBlock, missingValue]
  split
  · exact ⟨rfl, rfl, rfl, rfl⟩
  · exact ⟨rfl, rfl, rfl, rfl⟩

theorem eval_missing {o : Op} {l r : Ast F} {v w : ValueBlock F} (hl : eval env l = .ok v)
    (hr : eval env r = .ok w) (hnull : v.isNull = true ∨ w.isNull = true) :
    eval env (.op o l r) = .ok (missingBlock env.float o) := by
  have hop : opEqual env.float o v w = .ok env.float.block := by
    rw [opEqual, if_pos (by simpa using hnull)]
  simp only [eval, hl, hr]
  show (opEqual env.float o v w >>= _) = _
  rw [hop]
  rfl

/-- An operation on a missing field, as the whole expression and at every logical place of a
larger one. -/
theorem eval_missing_operand {o : Op} {l r : Ast F} {f : Rfldid} (habsent : Absent env f)
    (hside : l = .fld f ∧ (∃ v, eval env r = .ok v) ∨ r = .fld f ∧ (∃ v, eval env l = .ok v)) :
    outcome env (.op o l r) = .ok (if o = .notEqual then (1, long1) else (0, long0)) ∧
      ∀ ctx : List (Frame F), Logical ctx → outcome env (plugAll ctx (.op o l r)) =
          outcome env (plugAll ctx (.long (if o = .notEqual then long1 else long0))) := by
  obtain ⟨_, hu, hnull⟩ := eval_absent habsent
  have hop : eval env (.op o l r) = .ok (missingBlock env.float o) := by
    rcases hside with ⟨rfl, v, hv⟩ | ⟨rfl, v, hv⟩
    · exact eval_missing hu hv (.inl hnull)
    · exact eval_missing hv hu (.inr hnull)
  have hlong : eval env (.long (missingValue o)) = .ok (env.float.number (missingValue o)) := rfl
  have hsame := missingBlock_same env.float o
  have hwhole : outcome env (.op o l r) = .ok (if o = .notEqual then (1, long1) else (0, long0)) := by
    rw [outcome, hop, missingBlock]
    split <;> rfl
  refine ⟨hwhole, fun ctx hctx => ?_⟩
  cases ctx with
  | nil =>
    show (eval env (.op o l r)).map _ = (eval env (.long (missingValue o))).map _
    rw [hop]
    exact congrArg Except.ok (Prod.ext hsame.boolval hsame.longval)
  | cons fr rest =>
    have hfr : fr.logical = true := hctx fr rfl
    have hinner := eval_plug_logical hop hlong hsame.boolval hsame.left hsame.right hfr
    exact congrArg (Except.map (fun v => (v.boolval, v.longval))) (eval_plugAll_congr hinner rest)

end

theorem eval_missing_negated : outcome (oneLong 33554433 long1) (plugAll [.unary 3 .inv]
        (.op .equal (.fld (plainRef 33554434)) (.long (CLong.ofInt 5)))) =
      outcome (oneLong 33554433 long1) (.unary 3 .inv (.long long0)) := by
  have habsent : Absent (oneLong 33554433 long1) (plainRef 33554434) := .inl (by decide)
  apply (eval_missing_operand (o := .equal) habsent (.inl ⟨rfl, _, rfl⟩)).2
  rintro fr ⟨⟩
  rfl

/-- `missing != 1` is true, and what makes the other operand fail makes the comparison fail. -/
theorem eval_missing_true :
    outcome (oneLong 33554433 long1) (.op .notEqual (.fld (plainRef 33554434)) (.long long1)) =
        .ok (1, long1) ∧
      outcome {oneLong 33554433 long1 with regcomp := fun _ => false}
          (.op .equal (.fld (plainRef 33554434)) (.regex false (.str []) ['['])) =
        .error (.fail bsyntax) := by
  decide +kernel

end Endurox.Expr
