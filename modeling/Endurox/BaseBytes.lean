import Mathlib.Data.Nat.Digits.Lemmas
import Endurox.BaseCInt

/-! Byte lists: little-endian words, bounds-checked slices and overwrites. -/

namespace Endurox.Base
open List

def leNat (bs : List UInt8) : ℕ := Nat.ofDigits 256 (bs.map UInt8.toNat)

def leBytes : ℕ → ℕ → List UInt8
  | 0, _ => []
  | n+1, x => UInt8.ofNat x :: leBytes n (x/256)

@[simp] theorem leBytes_length (n x : ℕ) : (leBytes n x).length = n := by
  induction n generalizing x with
  | zero => rfl
  | succ n ih => simp [leBytes, ih]

theorem leNat_cons (b : UInt8) (bs : List UInt8) : leNat (b :: bs) = b.toNat+256*leNat bs := by
  simp [leNat, Nat.ofDigits_cons]

theorem leNat_lt (bs : List UInt8) : leNat bs < 256^bs.length := by
  induction bs with
  | nil => simp [leNat]
  | cons b =>
    have hb := UInt8.toNat_lt b
    rw [leNat_cons, length_cons]
    omega

theorem leNat_leBytes (n x : ℕ) : leNat (leBytes n x) = x % 256^n := by
  induction n generalizing x with
  | zero => simp [leBytes, leNat, Nat.mod_one]
  | succ n ih =>
    have hb : (UInt8.ofNat x).toNat = x % 256 := UInt8.toNat_ofNat'
    rw [leBytes, leNat_cons, ih, hb, pow_succ, mul_comm (256^n) 256, Nat.mod_mul]

theorem leBytes_leNat (bs : List UInt8) : leBytes bs.length (leNat bs) = bs := by
  induction bs with
  | nil => rfl
  | cons b bs ih =>
    have hb := UInt8.toNat_lt b
    have hd : (b.toNat+256*leNat bs)/256 = leNat bs := by omega
    have hm : UInt8.ofNat (b.toNat+256*leNat bs) = b := by
      apply UInt8.toNat_inj.mp
      rw [UInt8.toNat_ofNat']
      omega
    rw [length_cons, leNat_cons, leBytes, hd, hm, ih]

def dec32 (bs : List UInt8) : Int := wrap32 (leNat bs)

def enc32 (x : Int) : List UInt8 := leBytes 4 (x % 4294967296).toNat

@[simp] theorem enc32_length (x : Int) : (enc32 x).length = 4 := leBytes_length 4 _

theorem dec32_enc32 (x : Int) : dec32 (enc32 x) = wrap32 x := by
  have hx := Int.emod_nonneg x (show (4294967296:Int) ≠ 0 by decide)
  have hm : (x % 4294967296).toNat % 256^4 = (x % 4294967296).toNat :=
    Nat.mod_eq_of_lt (by omega)
  rw [dec32, enc32, leNat_leBytes, hm, Int.toNat_of_nonneg hx]
  exact wrap_congr (Int.mod_modEq _ _)

theorem dec32_enc32_of_mem {x : Int} (hlo : -2147483648 ≤ x) (hhi : x < 2147483648) :
    dec32 (enc32 x) = x := by
  rw [dec32_enc32, wrap32_of_mem hlo hhi]

def slice (m : List UInt8) (off n : ℕ) : Option (List UInt8) :=
  if off+n ≤ m.length then some ((m.drop off).take n) else none

def splice (m : List UInt8) (off : ℕ) (bs : List UInt8) : Option (List UInt8) :=
  if off+bs.length ≤ m.length then some (m.take off ++ bs ++ m.drop (off+bs.length)) else none

def move (m : List UInt8) (dst src n : ℕ) : Option (List UInt8) :=
  (slice m src n).bind (splice m dst)

theorem slice_length {m c : List UInt8} {off n : ℕ} (h : slice m off n = some c) : c.length = n := by
  unfold slice at h
  split at h
  · obtain rfl := Option.some.inj h
    simp only [length_take, length_drop]
    omega
  · cases h

theorem exists_cut {l : List UInt8} {n : ℕ} (h : n ≤ l.length) :
    ∃ a c, l = a ++ c ∧ a.length = n ∧ c.length = l.length-n :=
  ⟨l.take n, l.drop n, (take_append_drop n l).symm, length_take_of_le h, length_drop⟩

theorem slice_append (pre c post : List UInt8) :
    slice (pre ++ c ++ post) pre.length c.length = some c := by
  simp [slice]

theorem slice_eq_of_append {m pre c post : List UInt8} {off n : ℕ} (hm : m = pre ++ c ++ post)
    (ho : off = pre.length) (hn : n = c.length) : slice m off n = some c := by
  subst hm ho hn
  exact slice_append pre c post

theorem slice_front (c post : List UInt8) {n : ℕ} (hn : n = c.length) :
    slice (c ++ post) 0 n = some c := by
  rw [← nil_append c]
  exact slice_eq_of_append rfl rfl hn

/-- A write over a part of its own length replaces just that part. -/
theorem splice_append (pre old bs post : List UInt8) (h : old.length = bs.length) :
    splice (pre ++ old ++ post) pre.length bs = some (pre ++ bs ++ post) := by
  have hl : pre.length+bs.length ≤ (pre ++ old ++ post).length := by simp; omega
  have ht : (pre ++ old ++ post).take pre.length = pre := by simp
  have hd : (pre ++ old ++ post).drop (pre.length+bs.length) = post := by simp [← h]
  rw [splice, if_pos hl, ht, hd]

theorem splice_eq_of_append {m pre old bs post : List UInt8} {off : ℕ}
    (hm : m = pre ++ old ++ post) (ho : off = pre.length) (h : old.length = bs.length) :
    splice m off bs = some (pre ++ bs ++ post) := by
  subst hm ho
  exact splice_append pre old bs post h

/-- Moving the tail up by `n` opens a gap of `n` bytes before it. -/
theorem move_up (pre tail slack : List UInt8) (n : ℕ) (h : n ≤ slack.length) :
    move (pre ++ tail ++ slack) (pre.length+n) pre.length tail.length =
      some (pre ++ (tail ++ slack).take n ++ (tail ++ slack.drop n)) := by
  rw [move, slice_append, Option.bind_some]
  have hl : ((tail ++ slack).take n).length = n := by simp; omega
  have hm : pre ++ tail ++ slack = (pre ++ (tail ++ slack).take n) ++
      ((tail ++ slack).drop n).take tail.length ++ slack.drop n := by
    have h1 : ((tail ++ slack).drop n).drop tail.length = slack.drop n := by
      rw [drop_drop, show n+tail.length = tail.length+n by omega, ← drop_drop, drop_left]
    rw [append_assoc (pre ++ _), ← h1, take_append_drop, append_assoc pre,
      append_assoc pre, take_append_drop]
  rw [splice_eq_of_append hm (by simp [hl]) (by simp; omega)]
  simp

end Endurox.Base
