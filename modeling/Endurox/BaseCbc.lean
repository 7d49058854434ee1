import Mathlib.Data.Fintype.Vector

/-! Cipher block chaining: each block is combined with the one before it on the other side and
then put through a block cipher. Of the cipher only that it has an inverse is used. -/

namespace Endurox.Base.Cbc
open List

def xorBytes (a b : List UInt8) : List UInt8 := List.zipWith (· ^^^ ·) a b

theorem xorBytes_length {a b : List UInt8} (h : a.length = b.length) :
    (xorBytes a b).length = a.length := by
  simp [xorBytes, h]

theorem xorBytes_xorBytes {a b : List UInt8} (h : a.length = b.length) :
    xorBytes (xorBytes a b) b = a := by
  induction a generalizing b with
  | nil => simp [xorBytes]
  | cons x a ih =>
    cases b with
    | nil => simp at h
    | cons y b =>
      have hbyte : x ^^^ y ^^^ y = x := by
        rw [UInt8.xor_assoc, UInt8.xor_self, UInt8.xor_zero]
      have htail := ih (b := b) (by simpa using h)
      simp only [xorBytes] at htail
      simp only [xorBytes, zipWith_cons_cons, hbyte, htail]

structure BlockCipher (n : ℕ) where
  cipher : List UInt8 → List UInt8
  invCipher : List UInt8 → List UInt8
  cipher_length : ∀ b, b.length = n → (cipher b).length = n
  inv : ∀ b, b.length = n → invCipher (cipher b) = b

variable {n : ℕ} (E : BlockCipher n)

def encBlocks : ℕ → List UInt8 → List UInt8 → List UInt8
  | 0, _, _ => []
  | k+1, iv, input =>
    E.cipher (xorBytes (input.take n) iv) ++
      encBlocks k (E.cipher (xorBytes (input.take n) iv)) (input.drop n)

def decBlocks : ℕ → List UInt8 → List UInt8 → List UInt8
  | 0, _, _ => []
  | k+1, iv, input =>
    xorBytes (E.invCipher (input.take n)) iv ++ decBlocks k (input.take n) (input.drop n)

variable {E}

theorem first_block {k : ℕ} {input : List UInt8} (h : input.length = (k+1)*n) :
    (input.take n).length = n ∧ (input.drop n).length = k*n := by
  have hlen : input.length = k*n+n := by rw [h, Nat.succ_mul]
  constructor
  · rw [length_take]
    omega
  · rw [length_drop]
    omega

theorem encBlocks_length {k : ℕ} {iv input : List UInt8} (hiv : iv.length = n)
    (h : input.length = k*n) : (encBlocks E k iv input).length = k*n := by
  induction k generalizing iv input with
  | zero => simp [encBlocks]
  | succ k ih =>
    obtain ⟨hfirst, hrest⟩ := first_block h
    have hblock : (E.cipher (xorBytes (input.take n) iv)).length = n :=
      E.cipher_length _ ((xorBytes_length (hfirst.trans hiv.symm)).trans hfirst)
    rw [encBlocks, length_append, ih hblock hrest, Nat.succ_mul]
    omega

/-- The cipher is onto, so its inverse keeps the length of every block. -/
theorem invCipher_length {b : List UInt8} (hb : b.length = n) : (E.invCipher b).length = n := by
  let f (v : List.Vector UInt8 n) : List.Vector UInt8 n := ⟨E.cipher v.1, E.cipher_length v.1 v.2⟩
  have hinj : Function.Injective f := by
    intro v w h
    have hc := congrArg (fun u : List.Vector UInt8 n => E.invCipher u.1) h
    simp only [f, E.inv v.1 v.2, E.inv w.1 w.2] at hc
    exact Subtype.ext hc
  have hbyte : Finite UInt8 := Finite.of_injective UInt8.toFin (fun _ _ => UInt8.toFin_inj.mp)
  obtain ⟨v, hv⟩ := Finite.injective_iff_surjective.mp hinj ⟨b, hb⟩
  have hcipher : E.cipher v.1 = b := congrArg Subtype.val hv
  rw [← hcipher, E.inv v.1 v.2]
  exact v.2

theorem decBlocks_length {k : ℕ} {iv input : List UInt8} (hiv : iv.length = n)
    (h : input.length = k*n) : (decBlocks E k iv input).length = k*n := by
  induction k generalizing iv input with
  | zero => simp [decBlocks]
  | succ k ih =>
    obtain ⟨hfirst, hrest⟩ := first_block h
    have hblock := invCipher_length (E := E) hfirst
    rw [decBlocks, length_append, xorBytes_length (hblock.trans hiv.symm), hblock, ih hfirst hrest,
      Nat.succ_mul]
    omega

theorem decBlocks_encBlocks {k : ℕ} {iv input : List UInt8} (hiv : iv.length = n)
    (h : input.length = k*n) : decBlocks E k iv (encBlocks E k iv input) = input := by
  induction k generalizing iv input with
  | zero =>
    rw [Nat.zero_mul] at h
    rw [length_eq_zero_iff.mp h]
    rfl
  | succ k ih =>
    obtain ⟨hfirst, hrest⟩ := first_block h
    have hx : (xorBytes (input.take n) iv).length = n :=
      (xorBytes_length (hfirst.trans hiv.symm)).trans hfirst
    have hblock := E.cipher_length _ hx
    rw [encBlocks, decBlocks, take_left' hblock, drop_left' hblock, E.inv _ hx,
      xorBytes_xorBytes (hfirst.trans hiv.symm), ih hblock hrest, take_append_drop]

end Endurox.Base.Cbc
