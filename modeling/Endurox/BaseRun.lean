import Mathlib.Data.List.Basic

/-! Computations that may fail, and with a trace of what they did: a failed one has its trace too.
Traces whose events open and close keys, the newest event first. -/

namespace Endurox.Base

section

variable {ε α β : Type}

theorem bind_eq_ok {x : Except ε α} {f : α → Except ε β} {b : β} :
    (x >>= f) = .ok b ↔ ∃ a, x = .ok a ∧ f a = .ok b := by
  cases x with
  | ok a =>
    constructor
    · intro h
      exact ⟨a, rfl, h⟩
    · rintro ⟨_, ha, h⟩
      cases ha
      exact h
  | error =>
    constructor
    · intro h
      cases h
    · rintro ⟨_, ha, _⟩
      cases ha

theorem map_eq_ok {x : Except ε α} {g : α → β} {b : β} :
    x.map g = .ok b ↔ ∃ a, x = .ok a ∧ g a = b := by
  cases x <;> simp [Except.map]

theorem foldlM_ok_of_imp {f g : β → α → Except ε β} (hfg : ∀ b a b', f b a = .ok b' → g b a = .ok b')
    {l : List α} {b b' : β} (h : l.foldlM f b = .ok b') : l.foldlM g b = .ok b' := by
  induction l generalizing b with
  | nil => exact h
  | cons a l ih =>
    obtain ⟨b₁, hstep, hrest⟩ := bind_eq_ok.mp h
    exact bind_eq_ok.mpr ⟨b₁, hfg b a b₁ hstep, ih hrest⟩

end

structure Run (τ ε α : Type) where
  trace : List τ
  result : Except ε α

namespace Run

variable {τ ε α β : Type}

def pure (a : α) : Run τ ε α := ⟨[], .ok a⟩

def fail (e : ε) : Run τ ε α := ⟨[], .error e⟩

def lift (r : Except ε α) : Run τ ε α := ⟨[], r⟩

def note (t : τ) (x : Run τ ε α) : Run τ ε α := ⟨t :: x.trace, x.result⟩

def map (g : α → β) (x : Run τ ε α) : Run τ ε β := ⟨x.trace, x.result.map g⟩

def bind (x : Run τ ε α) (f : α → Run τ ε β) : Run τ ε β :=
  match x.result with
  | .error e => ⟨x.trace, .error e⟩
  | .ok a => ⟨x.trace ++ (f a).trace, (f a).result⟩

variable {x : Run τ ε α} {f : α → Run τ ε β}

theorem bind_of_ok {a : α} (h : x.result = .ok a) :
    x.bind f = ⟨x.trace ++ (f a).trace, (f a).result⟩ := by
  rw [bind, h]

theorem bind_of_error {e : ε} (h : x.result = .error e) : x.bind f = ⟨x.trace, .error e⟩ := by
  rw [bind, h]

theorem result_bind : (x.bind f).result = x.result.bind (fun a => (f a).result) := by
  cases h : x.result with
  | error => rw [bind_of_error h, Except.bind]
  | ok => rw [bind_of_ok h, Except.bind]

theorem trace_bind {P : List τ → Prop} (hfirst : ∀ e, x.result = .error e → P x.trace)
    (hboth : ∀ a, x.result = .ok a → P (x.trace ++ (f a).trace)) : P (x.bind f).trace := by
  cases h : x.result with
  | error e =>
    rw [bind_of_error h]
    exact hfirst e h
  | ok a =>
    rw [bind_of_ok h]
    exact hboth a h

theorem mem_trace_left {t : τ} (h : t ∈ x.trace) : t ∈ (x.bind f).trace :=
  trace_bind (P := (t ∈ ·)) (fun _ _ => h) (fun _ _ => List.mem_append_left _ h)

theorem mem_trace_right {t : τ} {a : α} (ha : x.result = .ok a) (h : t ∈ (f a).trace) :
    t ∈ (x.bind f).trace := by
  rw [bind_of_ok ha]
  exact List.mem_append_right _ h

end Run

namespace Trace

variable {E K : Type*} (opens closes : E → K → Bool)

def openAfter : List E → K → Bool
  | [], _ => false
  | e :: tr, k => !closes e k && (opens e k || openAfter tr k)

variable {opens closes} {e : E} {tr : List E} {k : K}

theorem openAfter_cons : openAfter opens closes (e :: tr) k =
      (!closes e k && (opens e k || openAfter opens closes tr k)) := rfl

theorem openAfter_of_closes (h : closes e k = true) :
    openAfter opens closes (e :: tr) k = false := by
  rw [openAfter_cons, h, Bool.not_true, Bool.false_and]

theorem openAfter_of_neutral (ho : opens e k = false) :
    openAfter opens closes (e :: tr) k = true → openAfter opens closes tr k = true := by
  rw [openAfter_cons, ho, Bool.and_eq_true]
  exact And.right

/-- What was opened once and is closed in the end is closed by a later event. -/
theorem closed_after (h : openAfter opens closes tr k = false) {newer older : List E}
    (htr : tr = newer ++ e :: older) (ho : opens e k = true) (hc : closes e k = false) :
    ∃ e' ∈ newer, closes e' k = true := by
  induction newer generalizing tr with
  | nil =>
    rw [htr, List.nil_append, openAfter_cons, ho, hc] at h
    cases h
  | cons e' _ ih =>
    rw [htr, List.cons_append, openAfter_cons, Bool.and_eq_false_iff, Bool.not_eq_false',
      Bool.or_eq_false_iff] at h
    obtain hclose | ⟨-, hrest⟩ := h
    · exact ⟨e', List.mem_cons_self, hclose⟩
    · obtain ⟨e'', hmem, hclose⟩ := ih hrest rfl
      exact ⟨e'', List.mem_cons_of_mem _ hmem, hclose⟩

end Trace

end Endurox.Base
