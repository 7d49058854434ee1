import Mathlib.Data.List.Basic

/-! Which cache definition of a service a call uses: the loops over `svcc->caches` in
`ndrx_cache_save` and `ndrx_cache_lookup` (`libatmi/atmi_cache_ops.c`). -/

namespace Endurox.Cache
open List

inductive BufType
  | ubf | ubf2 | init | null | string | carray | json | view
  deriving DecidableEq

def typeSupported : BufType → Bool
  | .ubf => true
  | _ => false

/-- Return codes; `null` stands for the use of a pointer that is not set. -/
inductive Rc
  | fail | enocache | enocachedata | enokeydata | null
  deriving DecidableEq

/-- `ndrx_tpcallcache_t` as the loops read it; an evaluation that is `none` gives `EXFAIL`. The
two last fields are checks of `ndrx_cache_init`. -/
structure Def (β : Type) where
  bufType : BufType
  rule : β → Option Bool
  refreshrule : Option (β → Option Bool)
  keyfmt : β → Except Rc String
  inval : Bool
  next : Bool
  next_inval : next = true → inval = true
  supported : typeSupported bufType = true

inductive Eff (β : Type)
  | key (d : Def β) (k : String)
  | inval (d : Def β) (k : String)

def Eff.cache {β : Type} : Eff β → Def β
  | .key d _ => d
  | .inval d _ => d

/-- How a loop is left: with `goto out`, by `break` with the value of `is_matched`, by `goto out`
for a refresh, or at the end of the list with the value of `is_matched`. -/
inductive Left (β : Type)
  | goto (rc : Rc)
  | broke (d : Def β) (isMatched : Bool)
  | refresh (d : Def β)
  | ended (isMatched : Bool)

section

variable {β : Type} (bt : BufType) (buf : β)

def getKey (d : Def β) : Except Rc String :=
  if typeSupported bt then d.keyfmt buf else .error .null

def saveDef (isMatched : Bool) (d : Def β) (rest : List (Eff β) × Left β) : List (Eff β) × Left β :=
  match getKey bt buf d with
  | .error rc => ([], .goto rc)
  | .ok k =>
    let effs := .key d k :: if d.inval then [.inval d k] else []
    if d.next then (effs ++ rest.1, rest.2) else (effs, .broke d (isMatched && !d.inval))

def saveLoop : List (Def β) → List (Eff β) × Left β
  | [] => ([], .ended false)
  | d :: ds =>
    if d.bufType = bt then
      match d.rule buf with
      | none => ([], .goto .fail)
      | some false => saveLoop ds
      | some true => saveDef bt buf true d (saveLoop ds)
    -- the source has no `continue` here
    else saveDef bt buf false d (saveLoop ds)

def saveRc : Left β → Option Rc
  | .goto rc => some rc
  | .broke _ isMatched => if isMatched then none else some .enocache
  | .refresh _ => none
  | .ended isMatched => if isMatched then some .null else some .enocache

def refreshEval (d : Def β) : Option Bool :=
  if d.inval then some false
  else match d.refreshrule with
    | none => some false
    | some rule => rule buf

def lookupDef (isMatched : Bool) (d : Def β) (rest : List (Eff β) × Left β) :
    List (Eff β) × Left β :=
  match refreshEval buf d with
  | none => ([], .goto .fail)
  | some true => ([], .refresh d)
  | some false =>
    match getKey bt buf d with
    | .error rc => ([], .goto rc)
    | .ok k => if d.next then (.key d k :: rest.1, rest.2) else ([.key d k], .broke d isMatched)

/-- The loop of the lookup. `isMatched` is what the variable holds before: it is not initialised,
and only a turn of the loop sets it. -/
def lookupLoop (isMatched : Bool) : List (Def β) → List (Eff β) × Left β
  | [] => ([], .ended isMatched)
  | d :: ds =>
    if d.bufType = bt then
      match d.rule buf with
      | none => ([], .goto .fail)
      | some false => lookupLoop false ds
      | some true => lookupDef bt buf true d (lookupLoop false ds)
    else lookupDef bt buf false d (lookupLoop false ds)

def lookupRc : Left β → Option Rc
  | .goto rc => some rc
  | .broke d isMatched =>
    if !isMatched then some .enocache else if d.inval then some .enocachedata else none
  | .refresh _ => some .enocachedata
  -- `cache` is NULL at the end of the list
  | .ended isMatched => if isMatched then some .null else some .enocache

def Hit (d : Def β) : Bool := d.bufType = bt && d.rule buf = some true && !d.next

/-- Nothing goes wrong with the definition: it is of the buffer's type, its rules evaluate, and
its key can be built when its rule is true. -/
structure Plain (d : Def β) : Prop where
  same_type : d.bufType = bt
  rule_ok : d.rule buf ≠ none
  refresh_ok : d.rule buf = some true → refreshEval buf d ≠ none
  key_ok : d.rule buf = some true → ∃ k, d.keyfmt buf = .ok k

def Reached (ds : List (Def β)) (d : Def β) : Prop :=
  ∃ pre post, ds = pre ++ d :: post ∧ ∀ x ∈ pre, Hit bt buf x = false

variable {bt buf}

theorem Reached.head (d : Def β) (ds : List (Def β)) : Reached bt buf (d :: ds) d :=
  ⟨[], ds, rfl, by simp⟩

theorem Reached.tail {d x : Def β} {ds : List (Def β)} (hd : Hit bt buf d = false)
    (hx : Reached bt buf ds x) : Reached bt buf (d :: ds) x := by
  obtain ⟨pre, post, rfl, hpre⟩ := hx
  refine ⟨d :: pre, post, rfl, ?_⟩
  exact forall_mem_cons.mpr ⟨hd, hpre⟩

theorem Plain.getKey {d : Def β} (hd : Plain bt buf d) (hr : d.rule buf = some true) :
    ∃ k, getKey bt buf d = .ok k := by
  obtain ⟨k, hk⟩ := hd.key_ok hr
  refine ⟨k, ?_⟩
  rw [Cache.getKey, if_pos (hd.same_type ▸ d.supported), hk]

structure Chosen (bt : BufType) (buf : β) (isMatched : Bool) (ds : List (Def β)) : Prop where
  save : (saveLoop bt buf ds).2 = match ds.find? (Hit bt buf) with
    | none => .ended false
    | some d => .broke d (!d.inval)
  lookup : (lookupLoop bt buf isMatched ds).2 = match ds.find? (Hit bt buf) with
    | none => .ended (ds.isEmpty && isMatched)
    | some d => if refreshEval buf d = some true then .refresh d else .broke d true
  save_effs : ∀ e ∈ (saveLoop bt buf ds).1, e.cache.bufType = bt ∧ e.cache.rule buf = some true
  lookup_effs : ∀ e ∈ (lookupLoop bt buf isMatched ds).1, e.cache.bufType = bt ∧ e.cache.rule buf = some true

section

variable {d : Def β} {isMatched : Bool} (ds : List (Def β))

theorem find_of_not_hit (h : Hit bt buf d = false) :
    (d :: ds).find? (Hit bt buf) = ds.find? (Hit bt buf) := by
  rw [find?_cons, h]

theorem chosen_false (hd : Plain bt buf d) (hr : d.rule buf = some false)
    (ih : Chosen bt buf false ds) : Chosen bt buf isMatched (d :: ds) := by
  have hs : saveLoop bt buf (d :: ds) = saveLoop bt buf ds := by
    rw [saveLoop, if_pos hd.same_type, hr]
  have hl : lookupLoop bt buf isMatched (d :: ds) = lookupLoop bt buf false ds := by
    rw [lookupLoop, if_pos hd.same_type, hr]
  have hf := find_of_not_hit ds (show Hit bt buf d = false by simp [Hit, hr])
  refine ⟨?_, ?_, ?_, ?_⟩
  · rw [hs, hf, ih.save]
  · rw [hl, hf, ih.lookup, Bool.and_false]
    rfl
  · rw [hs]
    exact ih.save_effs
  · rw [hl]
    exact ih.lookup_effs

section

variable (hd : Plain bt buf d) (hr : d.rule buf = some true)
include hd hr

theorem saveLoop_true :
    ∃ k, saveLoop bt buf (d :: ds) = let effs := .key d k :: if d.inval then [.inval d k] else []
      if d.next then (effs ++ (saveLoop bt buf ds).1, (saveLoop bt buf ds).2)
      else (effs, .broke d (!d.inval)) := by
  obtain ⟨k, hk⟩ := hd.getKey hr
  refine ⟨k, ?_⟩
  rw [saveLoop, if_pos hd.same_type, hr]
  simp [saveDef, hk]

theorem lookupLoop_true :
    ∃ k, lookupLoop bt buf isMatched (d :: ds) = if refreshEval buf d = some true then ([], .refresh d)
      else if d.next then (.key d k :: (lookupLoop bt buf false ds).1, (lookupLoop bt buf false ds).2)
      else ([.key d k], .broke d true) := by
  obtain ⟨k, hk⟩ := hd.getKey hr
  refine ⟨k, ?_⟩
  rw [lookupLoop, if_pos hd.same_type, hr]
  simp only [lookupDef, hk]
  cases href : refreshEval buf d with
  | none => exact absurd href (hd.refresh_ok hr)
  | some b => cases b <;> simp

theorem chosen_next (hn : d.next = true) (ih : Chosen bt buf false ds) :
    Chosen bt buf isMatched (d :: ds) := by
  have hinv := d.next_inval hn
  -- the definition invalidates, so that its refresh rule is not looked at
  have href : refreshEval buf d ≠ some true := by simp [refreshEval, hinv]
  obtain ⟨_, hs⟩ := saveLoop_true ds hd hr
  obtain ⟨_, hl⟩ := lookupLoop_true ds hd hr
  simp only [hn, hinv, if_true] at hs
  rw [if_neg href, if_pos hn] at hl
  have hf := find_of_not_hit ds (show Hit bt buf d = false by simp [Hit, hn])
  refine ⟨?_, ?_, ?_, ?_⟩
  · rw [hs, hf, ih.save]
  · rw [hl, hf, ih.lookup, Bool.and_false]
    rfl
  · intro e he
    rw [hs] at he
    simp only [cons_append, mem_cons] at he
    rcases he with rfl | rfl | he
    · exact ⟨hd.same_type, hr⟩
    · exact ⟨hd.same_type, hr⟩
    · exact ih.save_effs e he
  · intro e he
    rw [hl] at he
    rcases mem_cons.mp he with rfl | he
    · exact ⟨hd.same_type, hr⟩
    · exact ih.lookup_effs e he

theorem chosen_hit (hn : d.next = false) : Chosen bt buf isMatched (d :: ds) := by
  obtain ⟨_, hs⟩ := saveLoop_true ds hd hr
  obtain ⟨_, hl⟩ := lookupLoop_true ds hd hr
  simp only [hn, Bool.false_eq_true, if_false] at hs hl
  have hf : (d :: ds).find? (Hit bt buf) = some d := by
    rw [find?_cons, show Hit bt buf d = true by simp [Hit, hn, hr, hd.same_type]]
  refine ⟨?_, ?_, ?_, ?_⟩
  · rw [hs, hf]
  · rw [hl, hf]
    by_cases href : refreshEval buf d = some true <;> simp [href]
  · intro e he
    rw [hs] at he
    have hcache : e.cache = d := by
      rcases mem_cons.mp he with rfl | he
      · rfl
      · split at he
        · rw [mem_singleton.mp he]
          rfl
        · cases he
    rw [hcache]
    exact ⟨hd.same_type, hr⟩
  · intro e he
    rw [hl] at he
    split at he
    · cases he
    · rw [mem_singleton.mp he]
      exact ⟨hd.same_type, hr⟩

end

end

theorem chosen_of_plain {ds : List (Def β)} (h : ∀ d, Reached bt buf ds d → Plain bt buf d)
    (isMatched : Bool) : Chosen bt buf isMatched ds := by
  induction ds generalizing isMatched with
  | nil => exact ⟨rfl, rfl, by simp [saveLoop], by simp [lookupLoop]⟩
  | cons d ds ih =>
    have hd := h d (.head d ds)
    have ih (hhit : Hit bt buf d = false) : Chosen bt buf false ds :=
      ih (fun x hx => h x (hx.tail hhit)) false
    cases hr : d.rule buf with
    | none => exact absurd hr hd.rule_ok
    | some b =>
      cases b with
      | false => exact chosen_false ds hd hr (ih (by simp [Hit, hr]))
      | true =>
        cases hn : d.next with
        | true => exact chosen_next ds hd hr hn (ih (by simp [Hit, hn]))
        | false => exact chosen_hit ds hd hr hn

def Selects (l : Left β) (d : Def β) : Prop := (∃ isMatched, l = .broke d isMatched) ∨ l = .refresh d

/-- Lookup and save choose the first definition with a true rule and no flag `next`; only
definitions with a true rule have effects. Nothing is cached when there is none, and nothing is
saved when the one chosen invalidates. Without any definition the lookup goes by what
`is_matched` happened to hold. -/
theorem select_first {ds : List (Def β)} (h : ∀ d, Reached bt buf ds d → Plain bt buf d)
    (isMatched : Bool) :
    (∀ d, Selects (saveLoop bt buf ds).2 d ↔ ds.find? (Hit bt buf) = some d) ∧
    (∀ d, Selects (lookupLoop bt buf isMatched ds).2 d ↔ ds.find? (Hit bt buf) = some d) ∧
    (∀ e ∈ (saveLoop bt buf ds).1 ++ (lookupLoop bt buf isMatched ds).1,
      e.cache.bufType = bt ∧ e.cache.rule buf = some true) ∧
    (lookupRc (lookupLoop bt buf isMatched ds).2 = some .enocache ↔
      ds.find? (Hit bt buf) = none ∧ (ds = [] → isMatched = false)) ∧
    (saveRc (saveLoop bt buf ds).2 = some .enocache ↔
      ∀ d, ds.find? (Hit bt buf) = some d → d.inval = true) := by
  have hc := chosen_of_plain h isMatched
  refine ⟨?_, ?_, ?_, ?_, ?_⟩
  · intro d
    rw [hc.save]
    cases ds.find? (Hit bt buf) with
    | none => simp [Selects]
    | some => simp [Selects]
  · intro d
    rw [hc.lookup]
    cases ds.find? (Hit bt buf) with
    | none => simp [Selects]
    | some =>
      simp only
      split <;> simp [Selects]
  · exact forall_mem_append.mpr ⟨hc.save_effs, hc.lookup_effs⟩
  · rw [hc.lookup]
    cases ds.find? (Hit bt buf) with
    | none => cases ds <;> cases isMatched <;> simp [lookupRc]
    | some x =>
      simp only
      split
      · simp [lookupRc]
      · cases hx : x.inval <;> simp [lookupRc]
  · rw [hc.save]
    cases ds.find? (Hit bt buf) with
    | none => simp [saveRc]
    | some x => cases hx : x.inval <;> simp [saveRc]

end

def invalDef : Def Unit where
  bufType := .ubf
  rule := fun _ => some true
  refreshrule := none
  keyfmt := fun _ => .ok "K"
  inval := true
  next := false
  next_inval := nofun
  supported := rfl

def plainDef : Def Unit := {invalDef with inval := false, next_inval := nofun}

/-- One whose rule is false, one with `next`, and then two that could be chosen. -/
def fourDefs : List (Def Unit) :=
  [{plainDef with rule := fun _ => some false}, {invalDef with next := true, next_inval := fun _ => rfl},
    plainDef, invalDef]

theorem select_first_third : Selects (saveLoop .ubf () fourDefs).2 plainDef ∧
    Selects (lookupLoop .ubf () true fourDefs).2 plainDef := by
  have hplain : ∀ d ∈ fourDefs, Plain .ubf () d := by
    simp only [fourDefs, forall_mem_cons]
    exact ⟨⟨rfl, nofun, nofun, nofun⟩, ⟨rfl, nofun, nofun, fun _ => ⟨"K", rfl⟩⟩,
      ⟨rfl, nofun, nofun, fun _ => ⟨"K", rfl⟩⟩, ⟨rfl, nofun, nofun, fun _ => ⟨"K", rfl⟩⟩, nofun⟩
  have hreached (d : Def Unit) (hd : Reached .ubf () fourDefs d) : Plain .ubf () d := by
    obtain ⟨pre, post, heq, -⟩ := hd
    apply hplain
    rw [heq]
    simp
  have hall := select_first hreached true
  exact ⟨(hall.1 plainDef).mpr rfl, (hall.2.1 plainDef).mpr rfl⟩

/-- The definition chosen invalidates: the lookup goes by it, and the save reports no cache. -/
theorem inval_reported_as_not_cached : [invalDef].find? (Hit .ubf ()) = some invalDef ∧
      lookupRc (lookupLoop .ubf () false [invalDef]).2 = some .enocachedata ∧
      saveRc (saveLoop .ubf () [invalDef]).2 = some .enocache :=
  ⟨rfl, rfl, rfl⟩

end Endurox.Cache
