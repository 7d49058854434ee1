import Mathlib.Logic.Basic

/-! Programs over a state that outlives them: a program returns a value or stops in the middle,
and what it did to the state stays. Triples give a postcondition for the return and a condition
for every place where it can stop. -/

namespace Endurox.Base

/-- A program over the lasting state `σ`: `none` when it stopped. -/
def Prog (σ α : Type) : Type := σ → Option α × σ

namespace Prog

variable {σ α β : Type}

instance : Monad (Prog σ) where
  pure a := fun s => (some a, s)
  bind p f := fun s =>
    match p s with
    | (some a, t) => f a t
    | (none, t) => (none, t)

def stop : Prog σ α := fun s => (none, s)

def look : Prog σ σ := fun s => (some s, s)

def change (f : σ → σ) : Prog σ Unit := fun s => (some (), f s)

theorem bind_assoc {γ : Type} (p : Prog σ α) (f : α → Prog σ β) (g : β → Prog σ γ) :
    p >>= f >>= g = p >>= fun a => f a >>= g := by
  funext s
  show (match (match p s with
      | (some a, t) => f a t
      | (none, t) => (none, t)) with
    | (some b, t) => g b t
    | (none, t) => (none, t)) = match p s with
    | (some a, t) => (f a >>= g) t
    | (none, t) => (none, t)
  generalize p s = r
  obtain ⟨_ | _, _⟩ := r
  · rfl
  · rfl

variable {p : Prog σ α}

theorem bind_returned {f : α → Prog σ β} {s : σ} {b : β} (h : ((p >>= f) s).1 = some b) :
    ∃ a t, p s = (some a, t) ∧ (f a t).1 = some b := by
  change (match p s with
    | (some a, t) => f a t
    | (none, t) => (none, t)).1 = some b at h
  generalize p s = r at h ⊢
  obtain ⟨_ | a, t⟩ := r
  · cases h
  · exact ⟨a, t, rfl, h⟩

/-- Run from a state with `P`, the program returns with `Q` or stops with `C`. -/
def Triple (P : σ → Prop) (p : Prog σ α) (Q : α → σ → Prop) (C : σ → Prop) : Prop :=
  ∀ s, P s → match p s with
    | (some a, t) => Q a t
    | (none, t) => C t

variable {P P' : σ → Prop} {Q Q' : α → σ → Prop} {C C' : σ → Prop}

theorem Triple.pure {a : α} (h : ∀ s, P s → Q a s) :
    Triple P (Pure.pure a : Prog σ α) Q C := h

theorem Triple.stop (h : ∀ s, P s → C s) : Triple P (Prog.stop : Prog σ α) Q C := h

theorem Triple.look {Q : σ → σ → Prop} (h : ∀ s, P s → Q s s) :
    Triple P (Prog.look : Prog σ σ) Q C := h

theorem Triple.change {f : σ → σ} {Q : Unit → σ → Prop} (h : ∀ s, P s → Q () (f s)) :
    Triple P (Prog.change f) Q C := h

theorem Triple.bind {f : α → Prog σ β} {M : α → σ → Prop} {Q : β → σ → Prop} (hp : Triple P p M C)
    (hf : ∀ a, Triple (M a) (f a) Q C) : Triple P (p >>= f) Q C := by
  intro s hs
  have h := hp s hs
  show match (match p s with
    | (some a, t) => f a t
    | (none, t) => (none, t)) with
    | (some a, t) => Q a t
    | (none, t) => C t
  generalize p s = r at h ⊢
  obtain ⟨_ | a, t⟩ := r
  · exact h
  · exact hf a t h

theorem Triple.conseq (h : Triple P p Q C) (hP : ∀ s, P' s → P s) (hQ : ∀ a s, Q a s → Q' a s)
    (hC : ∀ s, C s → C' s) : Triple P' p Q' C' := by
  intro s hs
  have hr := h s (hP s hs)
  generalize p s = r at hr ⊢
  obtain ⟨_ | a, t⟩ := r
  · exact hC t hr
  · exact hQ a t hr

theorem Triple.post (h : Triple P p Q C) (hQ : ∀ a s, Q a s → Q' a s) : Triple P p Q' C :=
  h.conseq (fun _ hs => hs) hQ (fun _ hs => hs)

theorem Triple.crash (h : Triple P p Q C) (hC : ∀ s, C s → C' s) : Triple P p Q C' :=
  h.conseq (fun _ hs => hs) (fun _ _ hs => hs) hC

theorem Triple.of_pre {φ : Prop} (h : φ → Triple P p Q C) : Triple (fun s => φ ∧ P s) p Q C := by
  intro s hs
  exact h hs.1 s hs.2

theorem Triple.and (h : Triple P p Q C) (h' : Triple P' p Q' C') :
    Triple (fun s => P s ∧ P' s) p (fun a s => Q a s ∧ Q' a s) (fun s => C s ∧ C' s) := by
  intro s hs
  have hr := h s hs.1
  have hr' := h' s hs.2
  generalize p s = r at hr hr' ⊢
  obtain ⟨_ | _, _⟩ := r
  · exact ⟨hr, hr'⟩
  · exact ⟨hr, hr'⟩

theorem Triple.returned (h : Triple P p Q C) {s t : σ} {a : α} (hs : P s)
    (hrun : p s = (some a, t)) : Q a t := by
  have hr := h s hs
  rw [hrun] at hr
  exact hr

/-- The state a run leaves, however it ended, when the postcondition is the crash condition. -/
theorem Triple.left (h : Triple P p (fun _ => C) C) {s : σ} (hs : P s) : C (p s).2 := by
  have hr := h s hs
  generalize p s = r at hr ⊢
  obtain ⟨_ | _, _⟩ := r
  · exact hr
  · exact hr

end Prog

end Endurox.Base
