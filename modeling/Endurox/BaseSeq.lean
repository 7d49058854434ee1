import Mathlib.Data.BitVec

/-! Lists numbered by a counter of `w` bits that wraps around. -/

namespace Endurox.Base.Seq
open List

variable {μ : Type} {w : ℕ} (key : μ → BitVec w)

def Numbered : BitVec w → List μ → Prop
  | _, [] => True
  | q, m :: ms => key m = q ∧ Numbered (q+1) ms

variable {key} {q : BitVec w} {ms : List μ} {m : μ}

theorem add_one_add_ofNat (q : BitVec w) (i : ℕ) :
    q+1 + BitVec.ofNat w i = q + BitVec.ofNat w (i+1) := by
  rw [BitVec.ofNat_add, BitVec.add_assoc, BitVec.add_comm (BitVec.ofNat w i)]
  rfl

theorem numbered_concat : Numbered key q (ms ++ [m]) ↔
    Numbered key q ms ∧ key m = q + BitVec.ofNat w ms.length := by
  induction ms generalizing q with
  | nil => simp [Numbered]
  | cons a as ih =>
    rw [cons_append, Numbered, Numbered, ih, and_assoc, add_one_add_ofNat]
    rfl

theorem Numbered.key_of_mem (h : Numbered key q ms) (hm : m ∈ ms) :
    ∃ i < ms.length, key m = q + BitVec.ofNat w i := by
  induction ms generalizing q with
  | nil => cases hm
  | cons a as ih =>
    rcases mem_cons.mp hm with rfl | hm
    · exact ⟨0, by simp, by rw [h.1]; simp⟩
    · obtain ⟨i, hi, hk⟩ := ih h.2 hm
      refine ⟨i+1, by simpa using hi, ?_⟩
      rw [hk, add_one_add_ofNat]

/-- Messages numbered in a row differ while there are numbers left. -/
theorem Numbered.nodup (h : Numbered key q ms) (hlen : ms.length ≤ 2^w) : (ms.map key).Nodup := by
  induction ms generalizing q with
  | nil => exact nodup_nil
  | cons a as ih =>
    have hlen' : as.length+1 ≤ 2^w := hlen
    rw [map_cons, nodup_cons]
    refine ⟨?_, ih h.2 (by omega)⟩
    intro hmem
    obtain ⟨_, hb, hkb⟩ := mem_map.mp hmem
    obtain ⟨i, _, hk⟩ := h.2.key_of_mem hb
    -- `q` would be `q` again after less than one turn
    have hround : q = q + BitVec.ofNat w (i+1) := by
      rw [← add_one_add_ofNat, ← hk, hkb, h.1]
    have hzero : BitVec.ofNat w (i+1) = 0#w := by
      simpa using hround
    have hval := congrArg BitVec.toNat hzero
    rw [BitVec.toNat_ofNat, BitVec.toNat_ofNat, Nat.mod_eq_of_lt (by omega), Nat.zero_mod] at hval
    omega

theorem Numbered.head_of_key (h : Numbered key q ms) (hlen : ms.length ≤ 2^w) (hm : m ∈ ms)
    (hk : key m = q) : ∃ rest, ms = m :: rest ∧ Numbered key (q+1) rest := by
  cases ms with
  | nil => cases hm
  | cons a as =>
    have hnd := h.nodup hlen
    rw [map_cons, nodup_cons] at hnd
    rcases mem_cons.mp hm with rfl | hm
    · exact ⟨as, rfl, h.2⟩
    · exact absurd (mem_map.mpr ⟨m, hm, hk.trans h.1.symm⟩) hnd.1

end Endurox.Base.Seq
