import Mathlib.Data.List.Basic
import Mathlib.Data.List.TakeWhile
import Mathlib.Tactic.IntervalCases

/-! Text as C programs write and read it: decimal and hexadecimal numbers, tokens, lines of a
file, and the checksum CRC-32. A text is a list of characters, one for each byte. -/

namespace Endurox.Base.Text
open List

def isSpace (c : Char) : Bool := c = ' ' ∨ '\t' ≤ c ∧ c ≤ '\r'

def decimal (x : Int) : List Char :=
  if x < 0 then '-' :: Nat.toDigits 10 x.natAbs else Nat.toDigits 10 x.natAbs

def digitsOf (s : List Char) : Int := (Nat.ofDigitChars 10 (s.takeWhile Char.isDigit) 0 : ℕ)

def clampLong (x : Int) : Int := max (-9223372036854775808) (min 9223372036854775807 x)

def strtol (s : List Char) : Int :=
  match s.dropWhile isSpace with
  | '-' :: ds => clampLong (-digitsOf ds)
  | '+' :: ds => clampLong (digitsOf ds)
  | ds => clampLong (digitsOf ds)

/-- The last `k` hexadecimal digits, `%08lx` for `k = 8` and a value of 32 bits. -/
def hexDigits : ℕ → ℕ → List Char
  | 0, _ => []
  | k+1, n => hexDigits k (n/16) ++ [Nat.digitChar (n % 16)]

def hexVal (c : Char) : Option ℕ :=
  if c.isDigit then some (c.toNat-48)
  else if 'a' ≤ c ∧ c ≤ 'f' then some (c.toNat-87)
  else if 'A' ≤ c ∧ c ≤ 'F' then some (c.toNat-55)
  else none

def skipMark : List Char → List Char
  | '0' :: 'x' :: ds => ds
  | '0' :: 'X' :: ds => ds
  | ds => ds

def hexOf (s : List Char) : ℕ :=
  ((skipMark s).takeWhile (fun c => (hexVal c).isSome)).foldl (fun n c => 16*n+(hexVal c).getD 0) 0

def scanHex (s : List Char) : ℕ :=
  match s.dropWhile isSpace with
  | '-' :: ds => (18446744073709551616-min 18446744073709551615 (hexOf ds)) % 18446744073709551616
  | '+' :: ds => min 18446744073709551615 (hexOf ds)
  | ds => min 18446744073709551615 (hexOf ds)

variable {n : ℕ} {c : Char}

theorem isDigit_of_mem_toDigits (h : c ∈ Nat.toDigits 10 n) : c.isDigit = true :=
  Nat.isDigit_of_mem_toDigits (by decide) (by decide) h

variable {x : Int}

theorem mem_decimal (h : c ∈ decimal x) : c = '-' ∨ c.isDigit = true := by
  rw [decimal] at h
  split at h
  · rcases mem_cons.mp h with rfl | h
    · exact .inl rfl
    · exact .inr (isDigit_of_mem_toDigits h)
  · exact .inr (isDigit_of_mem_toDigits h)

theorem decimal_ne_nil (x : Int) : decimal x ≠ [] := by
  rw [decimal]
  split
  · exact cons_ne_nil _ _
  · exact Nat.toDigits_ne_nil

theorem decimal_length (h : x.natAbs ≤ 9223372036854775808) : (decimal x).length ≤ 20 := by
  have hdigits : (Nat.toDigits 10 x.natAbs).length ≤ 19 :=
    (Nat.length_toDigits_le_iff (by decide) (by decide)).mpr (by omega)
  rw [decimal]
  split
  · rw [length_cons]
    omega
  · omega

theorem digitsOf_toDigits (n : ℕ) : digitsOf (Nat.toDigits 10 n) = n := by
  have hall : (Nat.toDigits 10 n).takeWhile Char.isDigit = Nat.toDigits 10 n :=
    takeWhile_eq_self_iff.mpr (fun c hc => isDigit_of_mem_toDigits hc)
  rw [digitsOf, hall, Nat.ofDigitChars_ten_toDigits]

theorem not_isSpace_of_isDigit (h : c.isDigit = true) : isSpace c = false := by
  simp only [Char.isDigit, Bool.and_eq_true, decide_eq_true_eq] at h
  simp only [isSpace, decide_eq_false_iff_not, not_or, not_and]
  constructor
  · rintro rfl
    exact absurd h (by decide)
  · intro _ hle
    have h1 : (48 : UInt32) ≤ c.val := h.1
    have h2 : c.val ≤ 13 := hle
    exact absurd (UInt32.le_trans h1 h2) (by decide)

theorem clampLong_of_mem (hlo : -9223372036854775808 ≤ x)
    (hhi : x < 9223372036854775808) : clampLong x = x := by
  rw [clampLong]
  omega

variable {s : List Char}

theorem strtol_digits (h : ∀ c ∈ s, c.isDigit = true) : strtol s = clampLong (digitsOf s) := by
  rcases s with _ | ⟨d, _⟩
  · rfl
  have hd : d.isDigit = true := h d mem_cons_self
  rw [strtol, dropWhile_cons_of_neg (by simp [not_isSpace_of_isDigit hd])]
  split
  · rename_i heq
    cases heq
    exact absurd hd (by decide)
  · rename_i heq
    cases heq
    exact absurd hd (by decide)
  · rfl

/-- A `long` is read back as it was printed. -/
theorem strtol_decimal (hlo : -9223372036854775808 ≤ x) (hhi : x < 9223372036854775808) :
    strtol (decimal x) = x := by
  rw [decimal]
  split
  · rw [strtol]
    show clampLong (-digitsOf (Nat.toDigits 10 x.natAbs)) = x
    rw [digitsOf_toDigits, clampLong_of_mem (by omega) (by omega)]
    omega
  · rw [strtol_digits (fun c hc => isDigit_of_mem_toDigits hc), digitsOf_toDigits,
      clampLong_of_mem (by omega) (by omega)]
    omega

theorem hexVal_digitChar (h : n < 16) :
    hexVal (Nat.digitChar n) = some n ∧ isSpace (Nat.digitChar n) = false ∧
      Nat.digitChar n ∉ ['-', '+', 'x', 'X'] := by
  interval_cases n <;> decide

theorem mem_hexDigits {k : ℕ} (h : c ∈ hexDigits k n) :
    ∃ m < 16, c = Nat.digitChar m := by
  induction k generalizing n with
  | zero => cases h
  | succ k ih =>
    rcases mem_append.mp h with h | h
    · exact ih h
    · exact ⟨n % 16, Nat.mod_lt _ (by decide), mem_singleton.mp h⟩

theorem hexDigits_length (k n : ℕ) : (hexDigits k n).length = k := by
  induction k generalizing n with
  | zero => rfl
  | succ k ih => rw [hexDigits, length_append, ih, length_singleton]

theorem hexDigits_foldl (k n : ℕ) :
    (hexDigits k n).foldl (fun m c => 16*m+(hexVal c).getD 0) 0 = n % 16^k := by
  induction k generalizing n with
  | zero => rw [hexDigits, foldl_nil, pow_zero, Nat.mod_one]
  | succ k ih =>
    have hlast := (hexVal_digitChar (Nat.mod_lt n (show 0 < 16 by decide))).1
    rw [hexDigits, foldl_append, ih, foldl_cons, foldl_nil, hlast, Option.getD_some,
      pow_succ', Nat.mod_mul, add_comm]

theorem skipMark_hexDigits (k n : ℕ) : skipMark (hexDigits k n) = hexDigits k n := by
  have hno (c : Char) (hc : c ∈ hexDigits k n) : c ≠ 'x' ∧ c ≠ 'X' := by
    obtain ⟨_, hm, rfl⟩ := mem_hexDigits hc
    have hnot := (hexVal_digitChar hm).2.2
    constructor
    · intro heq
      exact hnot (by rw [heq]; decide)
    · intro heq
      exact hnot (by rw [heq]; decide)
  generalize hexDigits k n = ds at hno ⊢
  unfold skipMark
  split
  · exact absurd rfl (hno 'x' (by simp)).1
  · exact absurd rfl (hno 'X' (by simp)).2
  · rfl

theorem hexOf_hexDigits (k n : ℕ) : hexOf (hexDigits k n) = n % 16^k := by
  have hall : (hexDigits k n).takeWhile (fun c => (hexVal c).isSome) = hexDigits k n := by
    rw [takeWhile_eq_self_iff]
    intro c hc
    obtain ⟨_, hm, rfl⟩ := mem_hexDigits hc
    rw [(hexVal_digitChar hm).1]
    rfl
  rw [hexOf, skipMark_hexDigits, hall, hexDigits_foldl]

theorem scanHex_hexDigits {k : ℕ} (hk : k ≤ 16) (hn : n < 16^k) : scanHex (hexDigits k n) = n := by
  have hbound : n ≤ 18446744073709551615 := by
    have : 16^k ≤ 16^16 := Nat.pow_le_pow_right (by decide) hk
    omega
  have hval : min 18446744073709551615 (hexOf (hexDigits k n)) = n := by
    rw [hexOf_hexDigits, Nat.mod_eq_of_lt hn]
    omega
  rw [scanHex]
  cases hds : hexDigits k n with
  | nil =>
    rw [hds] at hval
    exact hval
  | cons c =>
    obtain ⟨_, hm, hc⟩ := mem_hexDigits (k := k) (n := n) (c := c) (by rw [hds]; exact mem_cons_self)
    have hfacts := (hexVal_digitChar hm).2
    rw [← hc] at hfacts
    rw [dropWhile_cons_of_neg (by simp [hfacts.1])]
    split
    · rename_i heq
      cases heq
      exact absurd (by decide) hfacts.2
    · rename_i heq
      cases heq
      exact absurd (by decide) hfacts.2
    · rw [← hds]
      exact hval

def cutAt (c : Char) : List Char → Option (List Char × List Char)
  | [] => none
  | x :: xs => if x = c then some ([], xs) else (cutAt c xs).map (fun p => (x :: p.1, p.2))

def tokens (sep : Char) (s : List Char) : List (List Char) :=
  (s.splitOn sep).filter (fun t => t ≠ [])

theorem not_mem_of_mem_tokens {sep : Char} {t : List Char} (h : t ∈ tokens sep s) : sep ∉ t := by
  have hsplit (s : List Char) : ∀ t ∈ s.splitOn sep, sep ∉ t := by
    induction s with
    | nil => simp
    | cons c s ih =>
      rw [splitOn_cons_eq_if_modifyHead]
      split
      · simpa using ih
      rename_i hc
      have hne : sep ≠ c := fun e => hc (by simp [e])
      cases hs : s.splitOn sep with
      | nil => exact absurd hs (splitOn_ne_nil sep s)
      | cons =>
        rw [hs] at ih
        simpa [hne] using ih
  exact hsplit s t (mem_of_mem_filter h)

theorem cutAt_append {a : List Char} (h : c ∉ a) (b : List Char) :
    cutAt c (a ++ c :: b) = some (a, b) := by
  induction a with
  | nil => simp [cutAt]
  | cons x xs ih =>
    rw [mem_cons, not_or] at h
    rw [cons_append, cutAt, if_neg (Ne.symm h.1), ih h.2]
    rfl

theorem cutAt_eq_none {a : List Char} : cutAt c a = none ↔ c ∉ a := by
  induction a with
  | nil => simp [cutAt]
  | cons x xs ih =>
    rw [cutAt, mem_cons, not_or]
    split
    · rename_i heq
      simp [heq]
    · rename_i hne
      rw [Option.map_eq_none_iff, ih]
      exact ⟨fun h => ⟨Ne.symm hne, h⟩, fun h => h.2⟩

variable {fields : List (List Char)}

theorem mem_intercalate {sep : List Char} (h : c ∈ sep.intercalate fields) :
    c ∈ sep ∨ ∃ t ∈ fields, c ∈ t := by
  induction fields with
  | nil => simp at h
  | cons t ts ih =>
    cases ts with
    | nil => exact .inr ⟨t, mem_cons_self, by simpa using h⟩
    | cons =>
      rw [intercalate_cons_cons, mem_append, mem_append] at h
      rcases h with (h | h) | h
      · exact .inr ⟨t, mem_cons_self, h⟩
      · exact .inl h
      · rcases ih h with h | ⟨v, hv, hc⟩
        · exact .inl h
        · exact .inr ⟨v, mem_cons_of_mem _ hv, hc⟩

theorem tokens_intercalate {sep : Char} (hne : fields ≠ []) (h : ∀ t ∈ fields, sep ∉ t) :
    tokens sep ([sep].intercalate fields) = fields.filter (fun t => t ≠ []) := by
  rw [tokens, splitOn_intercalate sep h hne]

/-- What the calls of `fgets` return one after the other: up to a line end, at most `size`
characters, `acc` being read already. -/
def fgetsAll (size : ℕ) : List Char → List Char → List (List Char)
  | acc, [] => if acc = [] then [] else [acc]
  | acc, c :: cs =>
    if c = '\n' ∨ acc.length+1 = size then (acc ++ [c]) :: fgetsAll size [] cs
    else fgetsAll size (acc ++ [c]) cs

def AtLineStart (s : List Char) : Prop := s.getLast? = none ∨ s.getLast? = some '\n'

instance (s : List Char) : Decidable (AtLineStart s) := inferInstanceAs (Decidable (_ ∨ _))

theorem atLineStart_append_newline (s : List Char) : AtLineStart (s ++ ['\n']) := by
  right
  exact getLast?_concat

theorem AtLineStart.rest_nil {lines rest : List Char} (h : AtLineStart (lines ++ rest))
    (hrest : '\n' ∉ rest) : rest = [] := by
  by_contra hne
  rw [AtLineStart, getLast?_append_of_ne_nil _ hne] at h
  rcases h with h | h
  · exact hne (getLast?_eq_none_iff.mp h)
  · exact hrest (mem_of_getLast? h)

def lastLine (s : List Char) : List Char := (s.reverse.takeWhile (fun c => c ≠ '\n')).reverse

theorem lastLine_append {lines rest : List Char} (h : AtLineStart lines) (hrest : '\n' ∉ rest) :
    lastLine (lines ++ rest) = rest := by
  have hall : ∀ c ∈ rest.reverse, (fun c : Char => decide (c ≠ '\n')) c = true := by
    intro c hc
    rw [decide_eq_true_eq]
    rintro rfl
    exact hrest (mem_reverse.mp hc)
  have hstop : lines.reverse.takeWhile (fun c : Char => c ≠ '\n') = [] := by
    rcases h with h | h
    · rw [getLast?_eq_none_iff.mp h]
      rfl
    · rw [← head?_reverse] at h
      obtain ⟨_, hcs⟩ := head?_eq_some_iff.mp h
      rw [hcs]
      rfl
  rw [lastLine, reverse_append, takeWhile_append_of_pos hall, hstop, append_nil, reverse_reverse]

variable {size : ℕ}

/-- What follows a line end is read as if it stood alone. -/
theorem fgetsAll_append (h : AtLineStart s) (rest : List Char) :
    fgetsAll size [] (s ++ rest) = fgetsAll size [] s ++ fgetsAll size [] rest := by
  have hacc (acc : List Char) (hs : s.getLast? = some '\n') :
      fgetsAll size acc (s ++ rest) = fgetsAll size acc s ++ fgetsAll size [] rest := by
    clear h
    induction s generalizing acc with
    | nil => cases hs
    | cons c cs ih =>
      rw [cons_append, fgetsAll, fgetsAll]
      cases cs with
      | nil =>
        have hc : c = '\n' := by simpa using hs
        simp [hc, fgetsAll]
      | cons d ds =>
        have hs' : (d :: ds).getLast? = some '\n' := by simpa using hs
        split
        · rw [ih [] hs', cons_append]
        · exact ih _ hs'
  rcases h with h | h
  · rw [getLast?_eq_none_iff.mp h]
    simp [fgetsAll]
  · exact hacc [] h

variable {acc : List Char}

theorem fgetsAll_line (hs : '\n' ∉ s) (hlen : acc.length+s.length < size) :
    fgetsAll size acc (s ++ ['\n']) = [acc ++ s ++ ['\n']] := by
  induction s generalizing acc with
  | nil => simp [fgetsAll]
  | cons c cs ih =>
    rw [mem_cons, not_or] at hs
    rw [length_cons] at hlen
    rw [cons_append, fgetsAll, if_neg (by
      rintro (h | h)
      · exact hs.1 h.symm
      · omega), ih hs.2 (by rw [length_append, length_singleton]; omega)]
    simp

theorem mem_fgetsAll (hs : '\n' ∉ s) (hacc : '\n' ∉ acc) : ∀ l ∈ fgetsAll size acc s, '\n' ∉ l := by
  induction s generalizing acc with
  | nil =>
    rw [fgetsAll]
    split
    · simp
    · simpa using hacc
  | cons c cs ih =>
    rw [mem_cons, not_or] at hs
    have hadd : '\n' ∉ acc ++ [c] := by
      rw [mem_append, mem_singleton]
      rintro (h | h)
      · exact hacc h
      · exact hs.1 h
    rw [fgetsAll]
    split
    · exact forall_mem_cons.mpr ⟨hadd, ih hs.2 (by simp)⟩
    · exact ih hs.2 hadd

theorem fgetsAll_ne_nil (h : acc ++ s ≠ []) : fgetsAll size acc s ≠ [] := by
  induction s generalizing acc with
  | nil =>
    rw [fgetsAll, if_neg (by simpa using h)]
    simp
  | cons c cs ih =>
    rw [fgetsAll]
    split
    · simp
    · exact ih (by simp)

def crcEntry (i : BitVec 32) : BitVec 32 :=
  (fun c : BitVec 32 => if c.getLsbD 0 then (c >>> 1) ^^^ 0xEDB88320#32 else c >>> 1)^[8] i

def crcStep (crc : BitVec 32) (c : Char) : BitVec 32 :=
  (crc >>> 8) ^^^ crcEntry ((crc ^^^ BitVec.ofNat 32 c.toNat) &&& 0xFF#32)

def crc32 (s : List Char) : ℕ := (s.foldl crcStep 0xFFFFFFFF#32 ^^^ 0xFFFFFFFF#32).toNat

theorem crc32_lt (s : List Char) : crc32 s < 16^8 := by
  exact BitVec.isLt _

end Endurox.Base.Text
