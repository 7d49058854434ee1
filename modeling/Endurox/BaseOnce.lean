import Mathlib.Data.List.Nodup

/-! Going through a list and serving those that want it, where a key that was served with success
is not served again. -/

namespace Endurox.Base
open List

variable {α κ : Type} [DecidableEq κ] (wants ok : α → Bool) (key : α → κ)

def once : List κ → List α → List α
  | _, [] => []
  | done, a :: as =>
    if wants a ∧ key a ∉ done then a :: once (if ok a then key a :: done else done) as
    else once done as

variable {wants ok key} {done : List κ}

theorem once_cons_served {a : α} {as : List α} (h : wants a) (hk : key a ∉ done) :
    once wants ok key done (a :: as) =
      a :: once wants ok key (if ok a then key a :: done else done) as := by
  rw [once, if_pos ⟨h, hk⟩]

theorem once_cons_passed {a : α} {as : List α} (h : wants a → key a ∈ done) :
    once wants ok key done (a :: as) = once wants ok key done as := by
  rw [once, if_neg]
  exact fun hc => hc.2 (h hc.1)

theorem once_sublist (done : List κ) (l : List α) : (once wants ok key done l).Sublist l := by
  induction l generalizing done with
  | nil => exact List.Sublist.slnil
  | cons a as ih =>
    rw [once]
    split
    · exact (ih _).cons_cons a
    · exact (ih done).cons a

/-- Of a list without repetitions those are served that want it and whose key no one before them
was served with success. -/
theorem mem_once_iff {pre post : List α} {a : α} (hnd : (pre ++ a :: post).Nodup) :
    a ∈ once wants ok key done (pre ++ a :: post) ↔ wants a ∧ key a ∉ done ∧
      ∀ b ∈ pre, b ∈ once wants ok key done (pre ++ a :: post) → key b = key a → ok b = false := by
  induction pre generalizing done with
  | nil =>
    have ha : a ∉ post := (nodup_cons.mp hnd).1
    by_cases h : wants a ∧ key a ∉ done
    · rw [nil_append, once_cons_served h.1 h.2]
      simp [h.1, h.2]
    · have hout : a ∉ once wants ok key done post := fun hm => ha ((once_sublist done post).subset hm)
      rw [nil_append, once, if_neg h]
      simp only [hout, false_iff]
      exact fun hc => h ⟨hc.1, hc.2.1⟩
  | cons b pre ih =>
    obtain ⟨hb, hnd'⟩ := nodup_cons.mp hnd
    have hne : a ≠ b := fun h => hb (h ▸ by simp)
    rw [cons_append]
    by_cases h : wants b ∧ key b ∉ done
    · -- `b` is served, and closes its key if that went well
      have hcut (c : α) (hc : c ∈ pre) : c ≠ b := fun e => hb (e ▸ by simp [hc])
      rw [once_cons_served h.1 h.2, mem_cons, or_iff_right hne, ih hnd']
      have hkey : key a ∉ (if ok b then key b :: done else done) ↔
          key a ∉ done ∧ (key b = key a → ok b = false) := by
        cases ok b <;> simp [eq_comm, and_comm]
      rw [hkey]
      constructor
      · rintro ⟨hw, ⟨hd, hbk⟩, hpre⟩
        refine ⟨hw, hd, ?_⟩
        intro c hc hm
        rcases mem_cons.mp hc with rfl | hc
        · exact hbk
        · exact hpre c hc ((mem_cons.mp hm).resolve_left (hcut c hc))
      · rintro ⟨hw, hd, hall⟩
        refine ⟨hw, ⟨hd, hall b mem_cons_self mem_cons_self⟩, ?_⟩
        exact fun c hc hm => hall c (mem_cons_of_mem b hc) (mem_cons_of_mem b hm)
    · rw [once, if_neg h, ih hnd']
      constructor
      · rintro ⟨hw, hd, hpre⟩
        refine ⟨hw, hd, ?_⟩
        intro c hc hm
        rcases mem_cons.mp hc with rfl | hc
        · exact absurd ((once_sublist done _).subset hm) hb
        · exact hpre c hc hm
      · rintro ⟨hw, hd, hall⟩
        exact ⟨hw, hd, fun c hc hm => hall c (mem_cons_of_mem b hc) hm⟩

end Endurox.Base
