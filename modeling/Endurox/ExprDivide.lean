import Endurox.Expr

/-! The divisions that an evaluation performs. -/

namespace Endurox.Expr

open Base UBF.BErr Recursive List

section

variable {F : Type} {α β : Type}

def logAfter (x : Except Stop α) (f : α → List β) : List β :=
  match x with
  | .ok a => f a
  | .error _ => []

variable {x : Except Stop α}

theorem mem_logAfter {f : α → List β} {b : β} :
    b ∈ logAfter x f ↔ ∃ a, x = .ok a ∧ b ∈ f a := by
  cases x with
  | ok a =>
    constructor
    · intro h
      exact ⟨a, rfl, h⟩
    · rintro ⟨_, ha, h⟩
      cases ha
      exact h
  | error =>
    constructor
    · intro h
      exact absurd h not_mem_nil
    · rintro ⟨_, ha, _⟩
      cases ha

def longDivisions (fl : FloatOps F) (o : Op) (lval rval : ValueBlock F) : List (CLong × CLong) :=
  if o = .mult .div ∨ o = .mult .mod then
    logAfter (convToLong fl lval) (fun l =>
      logAfter (convToLong fl rval) (fun r => if r = long0 then [] else [(l, r)]))
  else []

def opDivisions (fl : FloatOps F) (o : Op) (lval rval : ValueBlock F) : List (CLong × CLong) :=
  if lval.isNull || rval.isNull then []
  else if !o.isMath && (lval.isStr && rval.isStr || lval.valueType = .string ||
      rval.valueType = .string) then []
  else if lval.valueType = .long ∧ rval.valueType = .long then longDivisions fl o lval rval
  else
    logAfter (isFloatVal lval) (fun isLvalFloat =>
      logAfter (isFloatVal rval) (fun isRvalFloat =>
        if !isLvalFloat && !isRvalFloat || o = .mult .mod then longDivisions fl o lval rval else []))

/-- The operands of every `/` and `%` on longs that `eval` executes, in their order. -/
def divisions (env : Env F) : Ast F → List (CLong × CLong)
  | .or l r => divisions env l ++ logAfter (eval env l) (fun lv =>
      if lv.boolval ≠ 0 then [] else divisions env r)
  | .and l r => divisions env l ++ logAfter (eval env l) (fun lv =>
      if lv.boolval = 0 then [] else divisions env r)
  | .xor l r => divisions env l ++ logAfter (eval env l) (fun _ => divisions env r)
  | .op o l r => divisions env l ++ logAfter (eval env l) (fun lv =>
      divisions env r ++ logAfter (eval env r) (fun rv => opDivisions env.float o lv rv))
  | .unary _ _ a => divisions env a
  | .regex _ _ _ | .fld _ | .func _ _ | .str _ | .float _ | .long _ => []

def Traced (x : Except Stop α) (ds : List (CLong × CLong)) : Prop :=
  x = .error .trap ↔ ∃ d ∈ ds, ¬Divides d.1 d.2

theorem traced_nil (h : x ≠ .error .trap) : Traced x [] := by
  constructor
  · intro hx
    exact absurd hx h
  · rintro ⟨_, hd, _⟩
    exact absurd hd not_mem_nil

variable {f : α → Except Stop β} {g : α → List (CLong × CLong)} {ds : List (CLong × CLong)}

theorem Traced.bind (hx : Traced x ds) (hf : ∀ a, Traced (f a) (g a)) :
    Traced (x >>= f) (ds ++ logAfter x g) := by
  cases x with
  | error e =>
    have hbind : (Except.error e >>= f) = .error e := rfl
    unfold Traced at hx ⊢
    rw [logAfter, append_nil, ← hx]
    constructor
    · intro h
      cases h
      rfl
    · intro h
      cases h
      rfl
  | ok a =>
    -- a computation that has succeeded has only defined divisions behind it
    have hds : ¬∃ d ∈ ds, ¬Divides d.1 d.2 := fun h => nomatch hx.mpr h
    have hbind : (Except.ok a >>= f) = f a := rfl
    unfold Traced at hf ⊢
    rw [hbind, hf a]
    constructor
    · rintro ⟨d, hd, hbad⟩
      exact ⟨d, mem_append_right ds hd, hbad⟩
    · rintro ⟨d, hd, hbad⟩
      rcases mem_append.mp hd with hd | hd
      · exact absurd ⟨d, hd, hbad⟩ hds
      · exact ⟨d, hd, hbad⟩

theorem Traced.after (hx : x ≠ .error .trap) (hf : ∀ a, Traced (f a) (g a)) :
    Traced (x >>= f) (logAfter x g) :=
  (traced_nil hx).bind hf

theorem Traced.before (hx : Traced x ds) (hf : ∀ a, f a ≠ .error .trap) : Traced (x >>= f) ds := by
  have h := hx.bind (g := fun _ => []) (fun a => traced_nil (hf a))
  have hnil : logAfter x (fun _ => ([] : List (CLong × CLong))) = [] := by cases x <;> rfl
  rwa [hnil, append_nil] at h

theorem bind_ne_trap (hx : x ≠ .error .trap)
    (hf : ∀ a, f a ≠ .error .trap) : (x >>= f) ≠ .error .trap := by
  cases x with
  | ok a => exact hf a
  | error =>
    intro he
    cases he
    exact hx rfl

theorem map_ne_trap (h : x ≠ .error .trap) (f : α → β) : x.map f ≠ .error .trap := by
  cases x with
  | ok => nofun
  | error =>
    intro he
    cases he
    exact h rfl

end

section

variable {F : Type} {fl : FloatOps F} (v : ValueBlock F)

theorem chars_ne_trap : v.chars ≠ .error .trap := by
  rw [ValueBlock.chars]
  split <;> nofun

theorem isFloatVal_ne_trap : isFloatVal v ≠ .error .trap := by
  rw [isFloatVal]
  split <;> first | exact map_ne_trap (chars_ne_trap v) _ | nofun

theorem getFloat_ne_trap : getFloat fl v ≠ .error .trap := by
  rw [getFloat]
  split <;> first | exact map_ne_trap (chars_ne_trap v) _ | nofun

theorem convToString_ne_trap : convToString fl v ≠ .error .trap := by
  rw [convToString]
  split <;> first | exact chars_ne_trap v | nofun

theorem convToLong_ne_trap : convToLong fl v ≠ .error .trap := by
  rw [convToLong]
  split <;> first | exact map_ne_trap (chars_ne_trap v) _ | nofun

variable (env : Env F)

theorem unaryNumber_ne_trap (nodeid : ℕ) (v : ValueBlock F) :
    unaryNumber env nodeid v ≠ .error .trap := by
  rw [unaryNumber]
  split <;> first | exact map_ne_trap (chars_ne_trap v) _ | nofun

variable (o : Op)

theorem opEqualStrCmp_ne_trap (lval rval : ValueBlock F) :
    opEqualStrCmp fl o lval rval ≠ .error .trap := by
  apply bind_ne_trap (convToString_ne_trap lval)
  intro l
  apply bind_ne_trap (convToString_ne_trap rval)
  intro r
  cases o <;> nofun

theorem opEqualFloatCmp_ne_trap (lval rval : ValueBlock F) :
    opEqualFloatCmp fl o lval rval ≠ .error .trap := by
  apply bind_ne_trap (getFloat_ne_trap lval)
  intro l
  apply bind_ne_trap (getFloat_ne_trap rval)
  intro r
  rcases o with _ | _ | o | o | o
  · nofun
  · nofun
  all_goals cases o <;> nofun

theorem traced_divide {l r : CLong} {x : CLong} {f : CLong → ValueBlock F} :
    Traced ((if Divides l r then .ok x else .error .trap : Except Stop CLong).map f) [(l, r)] := by
  by_cases h : Divides l r
  · rw [if_pos h]
    constructor
    · nofun
    · rintro ⟨_, hd, hbad⟩
      cases mem_singleton.mp hd
      exact absurd h hbad
  · rw [if_neg h]
    exact ⟨fun _ => ⟨(l, r), mem_singleton_self _, h⟩, fun _ => rfl⟩

theorem opEqualLongCmp_traced (lval rval : ValueBlock F) :
    Traced (opEqualLongCmp fl o lval rval) (longDivisions fl o lval rval) := by
  have hother {g : CLong → CLong → Except Stop (ValueBlock F)} (hg : ∀ l r, g l r ≠ .error .trap) :
      Traced (convToLong fl lval >>= fun l => convToLong fl rval >>= fun r => g l r) [] := by
    apply traced_nil
    apply bind_ne_trap (convToLong_ne_trap lval)
    intro l
    exact bind_ne_trap (convToLong_ne_trap rval) (hg l)
  have hdivide {g : CLong → CLong → Except Stop (ValueBlock F)}
      (hg : ∀ l r, Traced (g l r) (if r = long0 then [] else [(l, r)])) :
      Traced (convToLong fl lval >>= fun l => convToLong fl rval >>= fun r => g l r)
        (logAfter (convToLong fl lval) fun l => logAfter (convToLong fl rval) fun r =>
          if r = long0 then [] else [(l, r)]) := by
    apply Traced.after (convToLong_ne_trap lval)
    intro l
    exact Traced.after (convToLong_ne_trap rval) (hg l)
  have hguard {l r x y : CLong} : Traced (if r = long0 then .ok (fl.number x)
      else (if Divides l r then .ok y else .error .trap : Except Stop CLong).map fl.number)
      (if r = long0 then [] else [(l, r)]) := by
    by_cases hr : r = long0
    · rw [if_pos hr, if_pos hr]
      exact traced_nil nofun
    · rw [if_neg hr, if_neg hr]
      exact traced_divide
  rcases o with _ | _ | o | o | o
  · exact hother (fun l r => nofun)
  · exact hother (fun l r => nofun)
  · exact hother (fun l r => nofun)
  · cases o <;> exact hother (fun l r => nofun)
  · cases o with
    | dot => exact hother (fun l r => nofun)
    | div | mod => exact hdivide (fun l r => hguard)

theorem opEqual_traced (lval rval : ValueBlock F) :
    Traced (opEqual fl o lval rval) (opDivisions fl o lval rval) := by
  rw [opEqual, opDivisions]
  split
  · exact traced_nil nofun
  split
  · exact traced_nil (opEqualStrCmp_ne_trap o lval rval)
  split
  · exact opEqualLongCmp_traced o lval rval
  apply Traced.after (isFloatVal_ne_trap lval)
  intro a
  apply Traced.after (isFloatVal_ne_trap rval)
  intro b
  split
  · exact opEqualLongCmp_traced o lval rval
  · exact traced_nil (opEqualFloatCmp_ne_trap o lval rval)

theorem regexpEval_ne_trap (l : RegexLeft) (r : List Char) : regexpEval env l r ≠ .error .trap := by
  have hmatched (s : List Char) :
      (if env.regcomp r then .ok (env.float.truth (env.regexec r s)) else .error (.fail bsyntax) :
        Except Stop (ValueBlock F)) ≠ .error .trap := by
    split <;> nofun
  cases l with
  | str s => exact hmatched s
  | fld f =>
    rcases hs : env.getString f with e | s
    · simp only [regexpEval, hs]
      split <;> nofun
    · simp only [regexpEval, hs]
      exact hmatched s

theorem readUnaryFb_ne_trap (f : Rfldid) : readUnaryFb env f ≠ .error .trap := by
  rw [readUnaryFb]
  split
  · nofun
  split
  · nofun
  · split <;> nofun

theorem processUnary_ne_trap (nodeid : ℕ) (o : UnaryOp) (v : ValueBlock F) :
    processUnary env nodeid o v ≠ .error .trap := by
  apply bind_ne_trap (unaryNumber_ne_trap env nodeid v)
  intro x
  cases o <;> cases x <;> nofun

/-- An evaluation traps just when one of its divisions does. -/
theorem eval_traced (a : Ast F) : Traced (eval env a) (divisions env a) := by
  induction a with
  | or l r ihl ihr =>
    apply ihl.bind
    intro lv
    by_cases h : lv.boolval ≠ 0
    · rw [if_pos h, if_pos h]
      exact traced_nil nofun
    · rw [if_neg h, if_neg h]
      exact ihr.before (fun rv => nofun)
  | and l r ihl ihr =>
    apply ihl.bind
    intro lv
    by_cases h : lv.boolval = 0
    · rw [if_pos h, if_pos h]
      exact traced_nil nofun
    · rw [if_neg h, if_neg h]
      exact ihr.before (fun rv => nofun)
  | xor l r ihl ihr =>
    apply ihl.bind
    intro lv
    exact ihr.before (fun rv => nofun)
  | op o l r ihl ihr =>
    apply ihl.bind
    intro lv
    apply ihr.bind
    intro rv
    exact (opEqual_traced o lv rv).before (fun v => nofun)
  | regex _ l r => exact traced_nil (bind_ne_trap (regexpEval_ne_trap env l r) (fun v => nofun))
  | unary nodeid o a ih => exact ih.before (fun pri => processUnary_ne_trap env nodeid o pri)
  | fld f => exact traced_nil (readUnaryFb_ne_trap env f)
  | func | str | float | long => exact traced_nil nofun

variable {d : CLong × CLong}

theorem longDivisions_nonzero {o : Op} {lval rval : ValueBlock F}
    (h : d ∈ longDivisions fl o lval rval) : d.2.val ≠ 0 := by
  rw [longDivisions] at h
  split at h
  · obtain ⟨_, _, h⟩ := mem_logAfter.mp h
    obtain ⟨_, _, h⟩ := mem_logAfter.mp h
    split at h
    · exact absurd h not_mem_nil
    · rename_i hr
      cases mem_singleton.mp h
      exact fun hzero => hr (Subtype.ext hzero)
  · exact absurd h not_mem_nil

theorem opDivisions_nonzero {o : Op} {lval rval : ValueBlock F}
    (h : d ∈ opDivisions fl o lval rval) : d.2.val ≠ 0 := by
  rw [opDivisions] at h
  split at h
  · exact absurd h not_mem_nil
  split at h
  · exact absurd h not_mem_nil
  split at h
  · exact longDivisions_nonzero h
  obtain ⟨_, _, h⟩ := mem_logAfter.mp h
  obtain ⟨_, _, h⟩ := mem_logAfter.mp h
  split at h
  · exact longDivisions_nonzero h
  · exact absurd h not_mem_nil

theorem divisions_nonzero {a : Ast F} (h : d ∈ divisions env a) : d.2.val ≠ 0 := by
  induction a with
  | or l r ihl ihr | and l r ihl ihr =>
    rcases mem_append.mp h with h | h
    · exact ihl h
    · obtain ⟨lv, _, h⟩ := mem_logAfter.mp h
      split at h
      · exact absurd h not_mem_nil
      · exact ihr h
  | xor l r ihl ihr =>
    rcases mem_append.mp h with h | h
    · exact ihl h
    · obtain ⟨lv, _, h⟩ := mem_logAfter.mp h
      exact ihr h
  | op o l r ihl ihr =>
    rcases mem_append.mp h with h | h
    · exact ihl h
    · obtain ⟨_, _, h⟩ := mem_logAfter.mp h
      rcases mem_append.mp h with h | h
      · exact ihr h
      · obtain ⟨_, _, h⟩ := mem_logAfter.mp h
        exact opDivisions_nonzero h
  | unary _ o a ih => exact ih h
  | regex | fld | func | str | float | long => exact absurd h not_mem_nil

theorem divides_iff {l r : CLong} (h : r.val ≠ 0) :
    Divides l r ↔ ¬(l.val = -9223372036854775808 ∧ r.val = -1) := by
  obtain ⟨l, _⟩ := l
  obtain ⟨r, _⟩ := r
  change r ≠ 0 at h
  show (r ≠ 0 ∧ -9223372036854775808 ≤ l.tdiv r ∧ l.tdiv r < 9223372036854775808) ↔
    ¬(l = -9223372036854775808 ∧ r = -1)
  by_cases hneg : r = -1
  · have hq : l.tdiv (-1) = -l := by rw [Int.tdiv_neg, Int.tdiv_one]
    rw [hneg]
    omega
  by_cases hone : r = 1
  · rw [hone, Int.tdiv_one]
    omega
  · -- a larger divisor at least halves the absolute value
    have hq : (l.tdiv r).natAbs = l.natAbs/r.natAbs := Int.natAbs_tdiv l r
    have hhalf : l.natAbs/r.natAbs ≤ l.natAbs/2 := Nat.div_le_div_left (by omega) (by decide)
    omega

/-- Every division executed is defined, and the evaluation does not trap, exactly when none of
them starts from the smallest long and -1. -/
theorem eval_divides_iff (env : Env F) (a : Ast F) :
    ((∀ d ∈ divisions env a, Divides d.1 d.2) ∧ ndrxBboolev env a ≠ .error .trap) ↔
      ∀ d ∈ divisions env a, ¬(d.1.val = -9223372036854775808 ∧ d.2.val = -1) := by
  constructor
  · intro h d hd
    exact (divides_iff (divisions_nonzero env hd)).mp (h.1 d hd)
  intro h
  have hall : ∀ d ∈ divisions env a, Divides d.1 d.2 :=
    fun d hd => (divides_iff (divisions_nonzero env hd)).mpr (h d hd)
  refine ⟨hall, map_ne_trap (fun htrap => ?_) _⟩
  obtain ⟨d, hd, hbad⟩ := (eval_traced env a).mp htrap
  exact hbad (hall d hd)

end

def noFloats : FloatOps Unit where
  zero := ()
  ofLong _ := ()
  toLong _ := long0
  atof _ := ()
  print _ := []
  add _ _ := ()
  sub _ _ := ()
  mul _ _ := ()
  div _ _ := ()
  neg _ := ()
  lt _ _ := false
  le _ _ := true
  near _ _ := true
  isZero _ := true

def plainRef (bfldid : Int) : Rfldid := ⟨[bfldid, 0, -1], none, 0, [], bfldid, 0, 1⟩

def oneLong (bfldid : Int) (x : CLong) : Env Unit where
  float := noFloats
  bpresUnified f := if f = plainRef bfldid then 1 else 0
  getString _ := .error .bnotpres
  getLong f := if f = plainRef bfldid then .ok x else .error .bnotpres
  getDouble _ := .error .bnotpres
  call _ _ := long0
  regcomp _ := true
  regexec _ _ := true
  unset _ := long0

/-- `T_LONG_FLD / -1` over a buffer that holds the smallest long. -/
theorem eval_divides_traps : ndrxBboolev (oneLong 33554433 ⟨-9223372036854775808, by decide⟩)
      (.op (.mult .div) (.fld (plainRef 33554433)) (.unary 1 .minus (.long long1))) = .error .trap := by
  decide +kernel

end Endurox.Expr
