import Endurox.BaseBytes

/-! C structs as bytes: strings in fixed arrays, words of other widths, access to a field. -/

namespace Endurox.Base
open List

def CStr := {s : List UInt8 // (0:UInt8) ∉ s}

instance : DecidableEq CStr := inferInstanceAs (DecidableEq (Subtype _))

def CShort := {x : Int // -32768 ≤ x ∧ x < 32768}

instance : DecidableEq CShort := inferInstanceAs (DecidableEq (Subtype _))

def cstr (bs : List UInt8) : List UInt8 := bs.takeWhile (· ≠ 0)

def cstrAt (m : List UInt8) (off : ℕ) : Option (List UInt8) :=
  if (0:UInt8) ∈ m.drop off then some (cstr (m.drop off)) else none

/-- A `char` array of `n` bytes that holds as much of `s` as fits, with zeros behind it. -/
def chars (n : ℕ) (s : List UInt8) : List UInt8 :=
  s.take (n-1) ++ replicate (n-(s.take (n-1)).length) 0

def strcmp : List UInt8 → List UInt8 → Ordering
  | [], [] => .eq
  | [], _ :: _ => .lt
  | _ :: _, [] => .gt
  | a :: as, b :: bs => if a < b then .lt else if b < a then .gt else strcmp as bs

def dec16 (bs : List UInt8) : Int := wrap 32768 (leNat bs)

def enc16 (x : Int) : List UInt8 := leBytes 2 (x % 65536).toNat

def dec64 (bs : List UInt8) : Int := wrap64 (leNat bs)

def enc64 (x : Int) : List UInt8 := leBytes 8 (x % 18446744073709551616).toNat

variable {off n : ℕ} {s : List UInt8}

section

variable {ε : Type} (e : ε) (m : List UInt8)

def peek (off : Int) (n : ℕ) : Except ε (List UInt8) :=
  if off < 0 then .error e
  else match slice m off.toNat n with
    | some bs => .ok bs
    | none => .error e

def peekStr (off : Int) : Except ε (List UInt8) :=
  if off < 0 then .error e
  else match cstrAt m off.toNat with
    | some s => .ok s
    | none => .error e

def poke (off : Int) (bs : List UInt8) : Except ε (List UInt8) :=
  if off < 0 then .error e
  else match splice m off.toNat bs with
    | some m' => .ok m'
    | none => .error e

variable {e} {m}

theorem peek_eq {bs : List UInt8} (h : slice m off n = some bs) :
    peek e m off n = .ok bs := by
  rw [peek, if_neg (by omega), Int.toNat_natCast, h]

theorem peekStr_eq (h : cstrAt m off = some s) : peekStr e m off = .ok s := by
  rw [peekStr, if_neg (by omega), Int.toNat_natCast, h]

theorem poke_eq {bs m' : List UInt8} (h : splice m off bs = some m') :
    poke e m off bs = .ok m' := by
  rw [poke, if_neg (by omega), Int.toNat_natCast, h]

end

@[simp] theorem enc16_length (x : Int) : (enc16 x).length = 2 := leBytes_length 2 _

@[simp] theorem enc64_length (x : Int) : (enc64 x).length = 8 := leBytes_length 8 _

@[simp] theorem chars_length (hn : 0 < n) (s : List UInt8) : (chars n s).length = n := by
  simp only [chars, length_append, length_replicate, length_take]
  omega

theorem wrap_leNat_leBytes (n : ℕ) (half : Int) (hn : (256:Int)^n = 2*half) (hh : 0 < half)
    (x : Int) : wrap half (leNat (leBytes n (x % (2*half)).toNat)) = wrap half x := by
  have hx := Int.emod_nonneg x (show 2*half ≠ 0 by omega)
  have hlt := Int.emod_lt_of_pos x (show 0 < 2*half by omega)
  have hm : (x % (2*half)).toNat % 256^n = (x % (2*half)).toNat := by
    apply Nat.mod_eq_of_lt
    zify
    rw [Int.toNat_of_nonneg hx, hn]
    exact hlt
  rw [leNat_leBytes, hm, Int.toNat_of_nonneg hx]
  exact wrap_congr (Int.mod_modEq _ _)

theorem dec16_enc16 (x : CShort) : dec16 (enc16 x.val) = x.val := by
  have h := wrap_leNat_leBytes 2 32768 (by norm_num) (by norm_num) x.val
  rw [wrap_of_mem x.property.1 x.property.2] at h
  exact h

theorem dec64_enc64_of_mem {x : Int} (hlo : -9223372036854775808 ≤ x)
    (hhi : x < 9223372036854775808) : dec64 (enc64 x) = x := by
  have h := wrap_leNat_leBytes 8 9223372036854775808 (by norm_num)
    (by norm_num) x
  rw [wrap_of_mem hlo hhi] at h
  exact h

theorem zero_notMem_nil : (0:UInt8) ∉ [] := not_mem_nil

theorem zero_notMem_cstr (bs : List UInt8) : (0:UInt8) ∉ cstr bs := by
  intro h
  have hall : (cstr bs).all (· ≠ 0) = true := all_takeWhile
  simpa using all_eq_true.mp hall 0 h

theorem cstr_append_nul (hs : (0:UInt8) ∉ s) (rest : List UInt8) : cstr (s ++ 0 :: rest) = s := by
  have hall : ∀ b ∈ s, decide (b ≠ 0) = true := by
    intro b hb
    simp only [decide_eq_true_eq]
    rintro rfl
    exact hs hb
  rw [cstr, takeWhile_append_of_pos hall]
  simp

theorem cstrAt_of_append {m pre post : List UInt8} (hm : m = pre ++ s ++ 0 :: post)
    (ho : off = pre.length) (hs : (0:UInt8) ∉ s) : cstrAt m off = some s := by
  have hd : m.drop off = s ++ 0 :: post := by
    rw [hm, ho, append_assoc, drop_left]
  rw [cstrAt, hd, if_pos (by simp), cstr_append_nul hs]

/-- A field of a struct stands behind the fields in front of it. -/
theorem field_at {fs : List (List UInt8)} {ns : List ℕ} (hns : fs.map length = ns) (i : ℕ)
    {f : List UInt8} (hf : fs[i]? = some f) (ho : (ns.take i).sum = off) (hn : ns[i]? = some n) :
    (fs.flatten.drop off).take n = f := by
  obtain ⟨hi, rfl⟩ := List.getElem?_eq_some_iff.mp hf
  subst hns
  rw [← map_take, ← length_flatten] at ho
  rw [getElem?_map, hf, Option.map_some, Option.some.injEq] at hn
  have hsplit : fs.flatten = (fs.take i).flatten ++ (fs[i] ++ (fs.drop (i+1)).flatten) := by
    rw [← flatten_cons, ← drop_eq_getElem_cons hi, ← flatten_append, take_append_drop]
  rw [hsplit, ← ho, drop_left, ← hn, take_left]

theorem cstr_chars (hn : 0 < n) (hs : (0:UInt8) ∉ s) : cstr (chars n s) = s.take (n-1) := by
  have hl : (s.take (n-1)).length < n := by
    rw [length_take]
    omega
  obtain ⟨k, hk⟩ : ∃ k, n-(s.take (n-1)).length = k+1 :=
    ⟨n-(s.take (n-1)).length-1, by omega⟩
  rw [chars, hk]
  apply cstr_append_nul
  intro h
  exact hs (mem_of_mem_take h)

theorem byte_trichotomy (x y : UInt8) : x < y ∨ x = y ∨ y < x := by
  rw [UInt8.lt_iff_toNat_lt, UInt8.lt_iff_toNat_lt, ← UInt8.toNat_inj]
  omega

theorem strcmp_eq_gt {a b : List UInt8} : strcmp a b = .gt ↔ b < a := by
  induction a generalizing b with
  | nil => cases b <;> simp [strcmp]
  | cons x xs ih =>
    cases b with
    | nil => simp [strcmp]
    | cons y =>
      rw [strcmp, cons_lt_cons_iff]
      rcases byte_trichotomy x y with h | rfl | h
      · simp [h, UInt8.lt_asymm h, (UInt8.ne_of_lt h).symm]
      · simp [ih]
      · simp [h, UInt8.lt_asymm h]

theorem strcmp_ne_gt {a b : List UInt8} : strcmp a b ≠ .gt ↔ a ≤ b := by
  rw [Ne, strcmp_eq_gt]
  exact Iff.rfl

theorem strcmp_swap (a b : List UInt8) : (strcmp a b).swap = strcmp b a := by
  induction a generalizing b with
  | nil => cases b <;> rfl
  | cons x xs ih =>
    cases b with
    | nil => rfl
    | cons y =>
      rw [strcmp, strcmp]
      rcases byte_trichotomy x y with h | rfl | h
      · simp [h, UInt8.lt_asymm h]
      · simp [ih]
      · simp [h, UInt8.lt_asymm h]

theorem strcmp_ne_lt {a b : List UInt8} : strcmp a b ≠ .lt ↔ b ≤ a := by
  rw [← strcmp_ne_gt, ← strcmp_swap a b]
  cases strcmp a b <;> simp

end Endurox.Base
