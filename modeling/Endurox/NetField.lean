import Endurox.NetProto
import Endurox.UBFWrite

/-! One value on its way over the network: `x_ctonet` writes it, `x_nettoc` reads it. -/

namespace Endurox.NetProto

open Base Base.Text Base.Tlv UBF List

/-- Why a conversion ends: `EXFAIL`, or an access outside a block. FLOAT and DOUBLE values, the
timer and views are not modelled. -/
inductive Stop
  | exfail | outside | unmodelled
  deriving DecidableEq

def ExfType.width : ExfType → ℕ
  | .short | .ushort => 2
  | .int | .uint => 4
  | .long | .ulong => 8
  | _ => 0

def signedAt (n : ℕ) (c : List UInt8) : Int := wrap (256^n/2) (leNat (c.take n))

def numbuf (t : ExfType) (c : List UInt8) : List Char :=
  if t.signed then
    decimal (wrap (256^t.width/2) |signedAt t.width c|) ++
      [if signedAt t.width c < 0 then '1' else '0']
  else decimal (leNat (c.take t.width))

def bcdPairs : List Char → List UInt8
  | a :: b :: cs => UInt8.ofNat (scanHex [a, b]) :: bcdPairs cs
  | _ => []

def padded (num : List Char) : List Char := if num.length % 2 = 1 then '0' :: num else num

def bcdBytes (num : List Char) : List UInt8 := bcdPairs (padded num)

def ctonetInt (size : Int) (t : ExfType) (cBufIn out : List UInt8) : Except Stop (List UInt8) :=
  if cBufIn.length < t.width then .error .outside
  else put size .exfail out (bcdBytes (numbuf t cBufIn))

/-- `x_ctonet`. `cBufIn` is the memory behind the value's pointer. A CHAR and a STRING want a byte
more than they write, for the end of the string. -/
def xCtonet (size : Int) (fld : Cproto) (cBufIn : List UInt8) (cBufInLen : Int)
    (out : List UInt8) : Except Stop (List UInt8) :=
  match fld.fldType with
  | .char =>
    if (out.length:Int)+2 > size then .error .exfail
    else match cBufIn with
      | [] => .error .outside
      | c :: _ => .ok (out ++ [c])
  | .string =>
    match UBF.cstr cBufIn with
    | none => .error .outside
    | some s =>
      if (out.length:Int)+(s.length+1) > size then .error .exfail else .ok (out ++ s)
  | .carray =>
    if (out.length:Int)+cBufInLen > size then .error .exfail
    else if cBufInLen < 0 ∨ cBufIn.length < cBufInLen then .error .outside
    else .ok (out ++ cBufIn.take cBufInLen.toNat)
  | .carrayfix =>
    if (out.length:Int)+fld.minLen > size then .error .exfail
    else if (cBufIn.length:Int) < fld.minLen then .error .outside
    else .ok (out ++ cBufIn.take fld.minLen.toNat)
  | .none => .error .exfail
  | .float | .double | .ntimer => .error .unmodelled
  | t => ctonetInt size t cBufIn out

def scanDec (digits : List Char) : Option Int :=
  if digits.head?.any Char.isDigit then some (digitsOf digits) else none

/-- `%hd`, `%d` and `%ld` go through a `long`, the unsigned ones through an `unsigned long`. -/
def scanInt (signed : Bool) (digits : List Char) : Option Int :=
  (scanDec digits).map (fun x => if signed then clampLong x else min x 18446744073709551615)

def storedInt (t : ExfType) (digits : List Char) (sign : Char) (cBuf : List UInt8) : Int :=
  let x := (scanInt t.signed digits).getD (signedAt t.width cBuf)
  if t.signed ∧ sign = '1' then -wrap (256^t.width/2) x else x

def intBytes (n : ℕ) (x : Int) : List UInt8 := leBytes n (x % 256^n).toNat

def poke (cBuf bs : List UInt8) : Except Stop (List UInt8) :=
  if bs.length ≤ cBuf.length then .ok (bs ++ cBuf.drop bs.length) else .error .outside

def nettocInt (t : ExfType) (data cBuf : List UInt8) (cBufsz : Int) :
    Except Stop (List UInt8 × Int) :=
  match nettocDigits t data with
  | none => .error .outside
  | some (digits, sign) =>
    if (t.width:Int) > cBufsz then .error .exfail
    else (poke cBuf (intBytes t.width (storedInt t digits sign cBuf))).map (·, 0)

/-- `x_nettoc`. `datap` is the memory from the value on: the length of a STRING is looked for
behind the value too. `cBuf` is the memory at the output pointer, `cBufsz` what is said to be
left there. The second result is the length of a CARRAY. -/
def xNettoc (fld : Cproto) (datap : List UInt8) (tagLen : ℕ) (cBuf : List UInt8) (cBufsz : Int) :
    Except Stop (List UInt8 × Int) :=
  match fld.fldType with
  | .char =>
    if 1 > cBufsz then .error .exfail
    else match datap with
      | [] => .error .outside
      | c :: _ => (poke cBuf [c]).map (·, 0)
  | .string =>
    if (tagLen:Int)+1 > cBufsz then .error .exfail
    else match UBF.cstr datap with
      | none => .error .outside
      | some s =>
        -- up to the end of the string or of the value, and an end of its own behind it
        let n := min (s.length+1) tagLen
        let cBuf := datap.take n ++ cBuf.drop n
        if tagLen < cBuf.length then .ok (cBuf.take tagLen ++ 0 :: cBuf.drop (tagLen+1), 0)
        else .error .outside
  | .carray | .carrayfix =>
    if (tagLen:Int) > cBufsz then .error .exfail
    else (poke cBuf (datap.take tagLen)).map (·, (tagLen:Int))
  | .none => .error .exfail
  | .float | .double | .ntimer => .error .unmodelled
  | t => nettocInt t (datap.take tagLen) cBuf cBufsz

theorem bcd_pair {a b : Char} (ha : a.isDigit = true) (hb : b.isDigit = true) :
    ∃ m n, m < 10 ∧ n < 10 ∧ a = Nat.digitChar m ∧ b = Nat.digitChar n ∧
      (UInt8.ofNat (scanHex [a, b])).toNat = 16*m+n ∧ hexDigits 2 (16*m+n) = [a, b] := by
  have hdigit (c : Char) (hc : c.isDigit = true) : ∃ m < 10, c = Nat.digitChar m := by
    simp only [Char.isDigit, Bool.and_eq_true, decide_eq_true_eq] at hc
    have h1 : 48 ≤ c.val.toNat := hc.1
    have h2 : c.val.toNat ≤ 57 := hc.2
    have hval : c = Char.ofNat c.val.toNat := by
      rw [show c.val.toNat = c.toNat from rfl, Char.ofNat_toNat]
    refine ⟨c.val.toNat-48, by omega, ?_⟩
    generalize c.val.toNat = k at h1 h2 hval
    rw [hval]
    interval_cases k <;> rfl
  obtain ⟨m, hm, rfl⟩ := hdigit a ha
  obtain ⟨n, hn, rfl⟩ := hdigit b hb
  have hall : ∀ m < 10, ∀ n < 10,
      (UInt8.ofNat (scanHex [Nat.digitChar m, Nat.digitChar n])).toNat = 16*m+n ∧
        hexDigits 2 (16*m+n) = [Nat.digitChar m, Nat.digitChar n] := by decide +kernel
  obtain ⟨hscan, hhex⟩ := hall m hm n hn
  exact ⟨m, n, hm, hn, rfl, rfl, hscan, hhex⟩

theorem bcdPairs_text {cs : List Char} (hcs : ∀ c ∈ cs, c.isDigit = true)
    (heven : cs.length % 2 = 0) :
    (bcdPairs cs).flatMap (fun b => hexDigits 2 b.toNat) = cs ∧
      2*(bcdPairs cs).length = cs.length := by
  -- two digits at a time
  induction cs using bcdPairs.induct with
  | case1 a b cs ih =>
    obtain ⟨_, _, _, _, -, -, hscan, hhex⟩ := bcd_pair (hcs a (by simp)) (hcs b (by simp))
    obtain ⟨htext, _⟩ := ih (fun c hc => hcs c (by simp [hc]))
      (by simp only [length_cons] at heven; omega)
    constructor
    · rw [bcdPairs, flatMap_cons, htext, hscan, hhex]
      rfl
    · simp only [bcdPairs, length_cons]
      omega
  | case2 cs hshort =>
    cases cs with
    | nil => exact ⟨rfl, rfl⟩
    | cons a cs =>
      cases cs with
      | nil => simp at heven
      | cons b cs => exact absurd rfl (hshort a b cs)

variable {num : List Char}

theorem padded_digits (hnum : ∀ c ∈ num, c.isDigit = true) :
    (∀ c ∈ padded num, c.isDigit = true) ∧ (padded num).length % 2 = 0 := by
  rw [padded]
  split
  · refine ⟨?_, by rw [length_cons]; omega⟩
    intro c hc
    rcases mem_cons.mp hc with rfl | hc
    · rfl
    · exact hnum c hc
  · exact ⟨hnum, by omega⟩

theorem bcdBytes_text (hnum : ∀ c ∈ num, c.isDigit = true) :
    (bcdBytes num).flatMap (fun b => hexDigits 2 b.toNat) = padded num ∧
      2*(bcdBytes num).length = (padded num).length := by
  obtain ⟨hdigits, heven⟩ := padded_digits hnum
  exact bcdPairs_text hdigits heven

theorem leadingZeros_bcdPairs {c : Char} (hc : c.isDigit = true) (cs : List Char) (n : ℕ) :
    1 ≤ leadingZeros ((bcdPairs ('0' :: c :: cs)).headD 0) (n+1) := by
  obtain ⟨m, _, _, _, hzero, -, _, -⟩ := bcd_pair (show '0'.isDigit = true by rfl) hc
  have hm0 : m = 0 := by
    interval_cases m <;> first | rfl | exact absurd hzero (by decide)
  rw [bcdPairs, headD_cons, leadingZeros, if_pos (by omega)]
  split <;> omega

theorem abstractLen_bcdBytes {t : ExfType} (ht : t.stripped = true)
    (hnum : ∀ c ∈ num, c.isDigit = true) (hne : num ≠ []) :
    1 ≤ abstractLen t (bcdBytes num) ∧
      abstractLen t (bcdBytes num) ≤ max 1 ((num.length:Int)-(if t.signed then 1 else 0)) := by
  have hpos := length_pos_iff.mpr hne
  obtain ⟨-, hlen⟩ := bcdBytes_text hnum
  have hbytes : (bcdBytes num).length ≠ 0 := by
    rw [padded] at hlen
    split at hlen
    · rw [length_cons] at hlen
      omega
    · omega
  obtain ⟨n, hn⟩ := Nat.exists_eq_add_one_of_ne_zero hbytes
  have hzeros : 2*(bcdBytes num).length ≤
      num.length+leadingZeros ((bcdBytes num).headD 0) (bcdBytes num).length := by
    rw [hlen, padded]
    split
    · rename_i hodd
      -- the padding zero is stripped again
      obtain ⟨c, cs, rfl⟩ := exists_cons_of_ne_nil hne
      have hone := leadingZeros_bcdPairs (hnum c (by simp)) cs n
      rw [hn, bcdBytes, padded, if_pos hodd, length_cons]
      omega
    · omega
  rw [abstractLen]
  dsimp only
  constructor
  · split <;> omega
  · split <;> split <;> omega

theorem bcdBytes_length (hnum : ∀ c ∈ num, c.isDigit = true) :
    (bcdBytes num).length = (num.length+1)/2 := by
  obtain ⟨-, hlen⟩ := bcdBytes_text hnum
  rw [padded] at hlen
  split at hlen
  · rw [length_cons] at hlen
    omega
  · omega

theorem digitsOf_zero_cons (ds : List Char) : digitsOf ('0' :: ds) = digitsOf ds := by
  rfl

theorem scanDec_digits (n : ℕ) :
    scanDec (Nat.toDigits 10 n) = some (n:Int) ∧ scanDec ('0' :: Nat.toDigits 10 n) = some (n:Int) := by
  constructor
  · obtain ⟨d, _, hds⟩ := exists_cons_of_ne_nil (Nat.toDigits_ne_nil (n := n) (b := 10))
    have hd : d.isDigit = true := isDigit_of_mem_toDigits (by rw [hds]; exact mem_cons_self)
    have hhead : (Nat.toDigits 10 n).head?.any Char.isDigit = true := by
      rw [hds]
      exact hd
    rw [scanDec, if_pos hhead, digitsOf_toDigits]
  · rw [scanDec, if_pos (by rfl), digitsOf_zero_cons, digitsOf_toDigits]

variable {n : ℕ}

theorem two_mul_half (hn : 0 < n) : 2*((256:Int)^n/2) = 256^n := by
  obtain ⟨k, rfl⟩ : ∃ k, n = k+1 := ⟨n-1, by omega⟩
  omega

theorem signedAt_range (hn : 0 < n) (c : List UInt8) :
    -(256^n/2) ≤ signedAt n c ∧ signedAt n c < 256^n/2 := by
  have hpow : (0:Int) < 256^n := by positivity
  have := two_mul_half hn
  exact wrap_range (by omega) _

variable {c : List UInt8}

theorem leNat_lt_pow (hc : c.length = n) : (leNat c:Int) < 256^n := by
  have h := leNat_lt c
  rw [hc] at h
  exact_mod_cast h

theorem intBytes_of_modEq (hc : c.length = n) {x : Int} (hx : x ≡ leNat c [ZMOD 256^n]) :
    intBytes n x = c := by
  have hlt := leNat_lt_pow hc
  rw [intBytes, hx.eq, Int.emod_eq_of_lt (by omega) hlt, ← hc]
  exact leBytes_leNat c

theorem intBytes_signedAt (hn : 0 < n) (hc : c.length = n) : intBytes n (signedAt n c) = c := by
  have htake : c.take n = c := by rw [← hc, take_length]
  have h := wrap_modEq (256^n/2) (leNat c)
  rw [two_mul_half hn] at h
  apply intBytes_of_modEq hc
  rwa [signedAt, htake]

section

variable {t : ExfType} {c : List UInt8} (hw : 0 < t.width) (hc : c.length = t.width)
  (hmin : t.signed = true → signedAt t.width c ≠ -(256^t.width/2))

theorem width_le (t : ExfType) : t.width ≤ 8 := by
  cases t <;> decide

include hw in
theorem signed_integer_cases (hs : t.signed = true) :
    t = .short ∨ t = .int ∨ t = .long := by
  cases t <;> first | exact absurd hw (by decide) | exact absurd hs (by decide) | simp

include hw hmin in
theorem wrap_abs_signedAt (hs : t.signed = true) :
    wrap (256^t.width/2) |signedAt t.width c| = (signedAt t.width c).natAbs := by
  have hrange := signedAt_range hw c
  have hne := hmin hs
  rw [Int.abs_eq_natAbs]
  exact wrap_of_mem (by omega) (by omega)

def magnitude (t : ExfType) (c : List UInt8) : ℕ :=
  if t.signed then (signedAt t.width c).natAbs else leNat (c.take t.width)

include hw hmin in
theorem numbuf_eq : numbuf t c = Nat.toDigits 10 (magnitude t c) ++
    (if t.signed then [if signedAt t.width c < 0 then '1' else '0'] else []) := by
  rw [numbuf, magnitude]
  cases hs : t.signed with
  | true =>
    simp only [if_true]
    rw [wrap_abs_signedAt hw hmin hs, decimal, if_neg (by omega), Int.natAbs_natCast]
  | false =>
    simp only [Bool.false_eq_true, if_false]
    rw [decimal, if_neg (by omega), Int.natAbs_natCast, append_nil]

include hw hmin in
theorem numbuf_isDigit : ∀ d ∈ numbuf t c, d.isDigit = true := by
  rw [numbuf_eq hw hmin]
  intro d hd
  rcases mem_append.mp hd with hd | hd
  · exact isDigit_of_mem_toDigits hd
  · split at hd
    · rw [mem_singleton.mp hd]
      split <;> rfl
    · cases hd

include hw in
theorem magnitude_lt : magnitude t c < 256^8 := by
  rw [magnitude]
  split
  · have hrange := signedAt_range hw c
    have hpow : (256:Int)^t.width ≤ 256^8 := pow_le_pow_right₀ (by decide) (width_le _)
    omega
  · have hpow : 256^t.width ≤ 256^8 := Nat.pow_le_pow_right (by decide) (width_le _)
    have hlt := leNat_lt (c.take t.width)
    have hle : 256^(c.take t.width).length ≤ 256^t.width :=
      Nat.pow_le_pow_right (by decide) (by rw [length_take]; omega)
    omega

theorem padded_append_sign (ds : List Char) (sign : Char) :
    ∃ front, (front = ds ∨ front = '0' :: ds) ∧ padded (ds ++ [sign]) = front ++ [sign] := by
  rw [padded]
  split
  · exact ⟨'0' :: ds, .inr rfl, rfl⟩
  · exact ⟨ds, .inl rfl, rfl⟩

include hw hmin in
theorem numbuf_length {k : ℕ} (hk : 0 < k) (hmag : magnitude t c < 10^k) :
    (numbuf t c).length ≤ k+(if t.signed then 1 else 0) ∧ numbuf t c ≠ [] := by
  have hdigits : (Nat.toDigits 10 (magnitude t c)).length ≤ k :=
    (Nat.length_toDigits_le_iff (by decide) hk).mpr hmag
  rw [numbuf_eq hw hmin]
  refine ⟨?_, fun hnil => Nat.toDigits_ne_nil (append_eq_nil_iff.mp hnil).1⟩
  rw [length_append]
  split
  · rw [length_singleton]
    omega
  · rw [length_nil]
    omega

include hw hmin in
theorem nettocDigits_numbuf :
    ∃ digits sign, nettocDigits t (bcdBytes (numbuf t c)) = some (digits, sign) ∧
      scanDec digits = some (magnitude t c : Int) ∧
      (t.signed = true → sign = if signedAt t.width c < 0 then '1' else '0') := by
  have hdigits := numbuf_isDigit hw hmin
  obtain ⟨htext, -⟩ := bcdBytes_text hdigits
  have hlen := bcdBytes_length hdigits
  have hbound := (numbuf_length hw hmin (show 0 < 20 by decide)
    ((magnitude_lt (c := c) hw).trans (by decide))).1
  have hloop : bcdLoop (bcdBytes (numbuf t c)) [] = some (padded (numbuf t c)) := by
    rw [bcdLoop_eq _ (by decide), htext, if_pos]
    · rfl
    · rw [length_nil, bcdBufSize]
      split at hbound <;> omega
  have hscan := scanDec_digits (magnitude t c)
  rw [nettocDigits, hloop, Option.bind_some, numbuf_eq hw hmin]
  cases hs : t.signed with
  | true =>
    simp only [if_true]
    obtain ⟨front, hfront, hpad⟩ := padded_append_sign (Nat.toDigits 10 (magnitude t c))
      (if signedAt t.width c < 0 then '1' else '0')
    refine ⟨front, _, ?_, ?_, fun _ => rfl⟩
    · rw [hpad, takeSign, getLast?_concat, dropLast_concat]
      rfl
    · rcases hfront with rfl | rfl
      · exact hscan.1
      · exact hscan.2
  | false =>
    simp only [Bool.false_eq_true, if_false, append_nil]
    refine ⟨_, _, rfl, ?_, fun h => h.elim⟩
    rw [padded]
    split
    · exact hscan.2
    · exact hscan.1

include hw hc hmin in
/-- The digits and the sign of a number give back its bytes. -/
theorem storedInt_numbuf {digits : List Char} {sign : Char} (cBuf : List UInt8)
    (hscan : scanDec digits = some (magnitude t c : Int))
    (hsign : t.signed = true → sign = if signedAt t.width c < 0 then '1' else '0') :
    intBytes t.width (storedInt t digits sign cBuf) = c := by
  have hlt := magnitude_lt (c := c) hw
  rw [storedInt, scanInt, hscan, Option.map_some, Option.getD_some]
  cases hs : t.signed with
  | true =>
    have hrange := signedAt_range hw c
    have hne := hmin hs
    have hwidth : (256:Int)^t.width/2 ≤ 9223372036854775808 := by
      have : (256:Int)^t.width ≤ 256^8 := pow_le_pow_right₀ (by decide) (width_le _)
      omega
    have hmag : (magnitude t c : Int) = |signedAt t.width c| := by
      rw [magnitude, if_pos hs, Int.abs_eq_natAbs]
    have habs := wrap_abs_signedAt hw hmin hs
    have hclamp : clampLong |signedAt t.width c| = |signedAt t.width c| := by
      rw [Int.abs_eq_natAbs]
      exact clampLong_of_mem (by omega) (by omega)
    rw [hmag, if_pos rfl, hclamp, habs, hsign hs]
    by_cases hneg : signedAt t.width c < 0
    · rw [if_pos hneg, if_pos ⟨rfl, rfl⟩, show -((signedAt t.width c).natAbs:Int) =
        signedAt t.width c by omega]
      exact intBytes_signedAt hw hc
    · rw [if_neg hneg, if_neg (by decide), abs_of_nonneg (by omega)]
      exact intBytes_signedAt hw hc
  | false =>
    have hmag : (magnitude t c : Int) = leNat c := by
      rw [magnitude, hs, if_neg (by decide), ← hc, take_length]
    simp only [Bool.false_eq_true, false_and, if_false]
    rw [Int.min_eq_left (by omega), hmag]
    exact intBytes_of_modEq hc rfl

end

section

variable {fld : Cproto} {c : List UInt8} (hw : 0 < fld.fldType.width)
  (hc : c.length = fld.fldType.width)
  (hmin : fld.fldType.signed = true → signedAt fld.fldType.width c ≠ -(256^fld.fldType.width/2))

include hw in
theorem xNettoc_int (datap : List UInt8) (tagLen : ℕ) (cBuf : List UInt8) (cBufsz : Int) :
    xNettoc fld datap tagLen cBuf cBufsz =
      nettocInt fld.fldType (datap.take tagLen) cBuf cBufsz := by
  unfold xNettoc
  cases ht : fld.fldType <;> first | rfl | (rw [ht] at hw; exact absurd hw (by decide))

include hw in
theorem xCtonet_int (size : Int) (cBufIn : List UInt8) (len : Int) (out : List UInt8) :
    xCtonet size fld cBufIn len out = ctonetInt size fld.fldType cBufIn out := by
  unfold xCtonet
  cases ht : fld.fldType <;> first | rfl | (rw [ht] at hw; exact absurd hw (by decide))

include hw hmin in
theorem cklen_numbuf {k : ℕ} (hk : 0 < k) (hmag : magnitude fld.fldType c < 10^k)
    (hlo : fld.minLen = 1) (hhi : (k:Int) ≤ fld.maxLen) (msgsizemax : Int) :
    exprotoCklen msgsizemax fld (bcdBytes (numbuf fld.fldType c)) = true := by
  have hst : fld.fldType.stripped = true := by
    cases ht : fld.fldType <;> first | rfl | (rw [ht] at hw; exact absurd hw (by decide))
  obtain ⟨hlen, hne⟩ := numbuf_length hw hmin hk hmag
  obtain ⟨_, h2⟩ := abstractLen_bcdBytes hst (numbuf_isDigit hw hmin) hne
  have hle : abstractLen fld.fldType (bcdBytes (numbuf fld.fldType c)) ≤ k := by
    refine h2.trans ?_
    split <;> rename_i hs <;> simp only [hs, if_true, Bool.false_eq_true, if_false] at hlen <;> omega
  refine exprotoCklen_iff.mpr ⟨by omega, ?_, fun _ => by omega⟩
  intro hmax
  rw [pmsgmax] at hmax
  omega

include hw hc in
theorem xNettoc_stored {bs after cBuf : List UInt8} {cBufsz : Int} {digits : List Char}
    {sign : Char} (hdigits : nettocDigits fld.fldType bs = some (digits, sign))
    (hstored : intBytes fld.fldType.width (storedInt fld.fldType digits sign cBuf) = c)
    (hsize : (fld.fldType.width:Int) ≤ cBufsz) (hbuf : fld.fldType.width ≤ cBuf.length) :
    xNettoc fld (bs ++ after) bs.length cBuf cBufsz = .ok (c ++ cBuf.drop c.length, 0) := by
  rw [xNettoc_int hw, take_left, nettocInt, hdigits]
  dsimp only
  rw [if_neg (by omega), hstored, poke, if_pos (by omega)]
  rfl

include hw hc hmin in
theorem xNettoc_numbuf {after cBuf : List UInt8} {cBufsz : Int}
    (hsize : (fld.fldType.width:Int) ≤ cBufsz) (hbuf : fld.fldType.width ≤ cBuf.length) :
    xNettoc fld (bcdBytes (numbuf fld.fldType c) ++ after)
        (bcdBytes (numbuf fld.fldType c)).length cBuf cBufsz =
      .ok (c ++ cBuf.drop c.length, 0) := by
  obtain ⟨_, _, hdigits, hscan, hsign⟩ := nettocDigits_numbuf hw hmin
  exact xNettoc_stored hw hc hdigits (storedInt_numbuf hw hc hmin cBuf hscan hsign) hsize hbuf

include hw hc in
theorem xCtonet_numbuf {size len : Int} {out rest : List UInt8}
    (hfit : (out.length:Int)+(bcdBytes (numbuf fld.fldType c)).length ≤ size) :
    xCtonet size fld (c ++ rest) len out = .ok (out ++ bcdBytes (numbuf fld.fldType c)) := by
  have htake : (c ++ rest).take fld.fldType.width = c := by rw [← hc, take_left]
  have hnum : numbuf fld.fldType (c ++ rest) = numbuf fld.fldType c := by
    rw [numbuf, numbuf, signedAt, signedAt, htake, ← hc, take_length]
  rw [xCtonet_int hw, ctonetInt, if_neg (by rw [length_append]; omega), hnum, put_ok hfit]

def NetExact (fld : Cproto) (c : List UInt8) : Prop :=
  ∃ bs, (∀ (size len : Int) (out : List UInt8), (out.length:Int)+bs.length ≤ size →
      xCtonet size fld c len out = .ok (out ++ bs)) ∧
    (∀ b ∈ bs, b.toNat/16 < 10 ∧ b.toNat % 16 < 10) ∧
    ∀ (after cBuf : List UInt8) (cBufsz : Int), (fld.fldType.width:Int) ≤ cBufsz →
      fld.fldType.width ≤ cBuf.length →
      xNettoc fld (bs ++ after) bs.length cBuf cBufsz = .ok (c ++ cBuf.drop c.length, 0)

theorem bcdPairs_nibbles {cs : List Char} (hcs : ∀ c ∈ cs, c.isDigit = true) :
    ∀ b ∈ bcdPairs cs, b.toNat/16 < 10 ∧ b.toNat % 16 < 10 := by
  induction cs using bcdPairs.induct with
  | case1 x y cs ih =>
    obtain ⟨_, _, _, _, -, -, hscan, -⟩ := bcd_pair (hcs x (by simp)) (hcs y (by simp))
    intro b hb
    rcases mem_cons.mp hb with rfl | hb
    · rw [hscan]
      omega
    · exact ih (fun c hc => hcs c (by simp [hc])) b hb
  | case2 cs hshort =>
    intro b hb
    rw [bcdPairs] at hb
    · cases hb
    · exact hshort

include hw hc hmin in
theorem netExact_of_ne_min : NetExact fld c := by
  refine ⟨bcdBytes (numbuf fld.fldType c), ?_, ?_, ?_⟩
  · intro size len out hfit
    have h : xCtonet size fld (c ++ []) len out = _ := xCtonet_numbuf hw hc hfit
    rwa [append_nil] at h
  · exact bcdPairs_nibbles (padded_digits (numbuf_isDigit hw hmin)).1
  · intro after cBuf cBufsz hsize hbuf
    exact xNettoc_numbuf hw hc hmin hsize hbuf

/-- `-32768` is printed with its own minus sign. The padding stands in front of it, `sscanf` reads
the pair as zero, and the sign of the minimum changes nothing. -/
theorem netExact_short_min (ht : fld.fldType = .short) : NetExact fld [0, 128] := by
  have hw : 0 < fld.fldType.width := by
    rw [ht]
    decide
  have hc : ([0, 128] : List UInt8).length = fld.fldType.width := by
    rw [ht]
    rfl
  have hbytes : bcdBytes (numbuf fld.fldType [0, 128]) = [0x00, 0x32, 0x76, 0x81] := by
    rw [ht]
    decide +kernel
  have hdigits : nettocDigits fld.fldType [0x00, 0x32, 0x76, 0x81] =
      some ("0032768".toList, '1') := by
    rw [ht]
    decide +kernel
  have hstored (cBuf : List UInt8) : intBytes fld.fldType.width
      (storedInt fld.fldType "0032768".toList '1' cBuf) = [0, 128] := by
    have hscan : scanInt true "0032768".toList = some 32768 := by decide +kernel
    rw [ht, storedInt, show ExfType.short.signed = true from rfl, hscan, Option.getD_some]
    decide +kernel
  refine ⟨[0x00, 0x32, 0x76, 0x81], ?_, by decide +kernel, ?_⟩
  · intro size len out hfit
    rw [← hbytes] at hfit ⊢
    have h : xCtonet size fld ([0, 128] ++ []) len out = _ := xCtonet_numbuf hw hc hfit
    rwa [append_nil] at h
  · intro after cBuf cBufsz hsize hbuf
    exact xNettoc_stored hw hc hdigits (hstored cBuf) hsize hbuf

include hw hc in
theorem NetExact.bytes (h : NetExact fld c) :
    (∀ b ∈ bcdBytes (numbuf fld.fldType c), b.toNat/16 < 10 ∧ b.toNat % 16 < 10) ∧
      xNettoc fld (bcdBytes (numbuf fld.fldType c)) (bcdBytes (numbuf fld.fldType c)).length
        (replicate 8 0) 8 = .ok (c ++ (replicate 8 0).drop c.length, 0) := by
  obtain ⟨bs, hctonet, hnibbles, hnettoc⟩ := h
  have hwritten := hctonet (bs.length+(bcdBytes (numbuf fld.fldType c)).length) 0 []
    (by rw [length_nil]; omega)
  have hnum : xCtonet (bs.length+(bcdBytes (numbuf fld.fldType c)).length) fld (c ++ []) 0 [] = _ :=
    xCtonet_numbuf hw hc (by rw [length_nil]; omega)
  rw [append_nil, hwritten] at hnum
  have hbs : bs = bcdBytes (numbuf fld.fldType c) := by
    injection hnum
  subst hbs
  have hread := hnettoc [] (replicate 8 0) 8 (by have := width_le fld.fldType; omega)
    (by rw [length_replicate]; exact width_le _)
  rw [append_nil] at hread
  exact ⟨hnibbles, hread⟩

theorem not_netExact_int_min (ht : fld.fldType = .int) : ¬NetExact fld [0, 0, 0, 128] := by
  intro h
  obtain ⟨hnibbles, -⟩ := h.bytes (by rw [ht]; decide) (by rw [ht]; rfl)
  rw [ht] at hnibbles
  exact absurd (hnibbles 0xfe (by decide)).1 (by decide)

theorem not_netExact_long_min (ht : fld.fldType = .long) :
    ¬NetExact fld [0, 0, 0, 0, 0, 0, 0, 128] := by
  intro h
  have hw : 0 < fld.fldType.width := by
    rw [ht]
    decide
  obtain ⟨-, hread⟩ := h.bytes hw (by rw [ht]; rfl)
  rw [xNettoc_int hw, ht] at hread
  exact absurd hread (by decide +kernel)

include hw hc in
/-- Every value of the six integer types goes over the network as it is, but the minimum of INT and
of LONG. -/
theorem network_integer_exact_iff : NetExact fld c ↔
    ¬(fld.fldType = .int ∧ signedAt 4 c = -2147483648) ∧
      ¬(fld.fldType = .long ∧ signedAt 8 c = -9223372036854775808) := by
  have hbytes := intBytes_signedAt hw hc
  constructor
  · intro h
    constructor
    · rintro ⟨ht, hval⟩
      rw [ht, show ExfType.int.width = 4 from rfl, hval] at hbytes
      exact not_netExact_int_min ht (by rwa [← hbytes] at h)
    · rintro ⟨ht, hval⟩
      rw [ht, show ExfType.long.width = 8 from rfl, hval] at hbytes
      exact not_netExact_long_min ht (by rwa [← hbytes] at h)
  · rintro ⟨hint, hlong⟩
    by_cases hmin : fld.fldType.signed = true →
        signedAt fld.fldType.width c ≠ -(256^fld.fldType.width/2)
    · exact netExact_of_ne_min hw hc hmin
    obtain ⟨hs, hval⟩ := Classical.not_imp.mp hmin
    rw [not_not] at hval
    -- the minimum of a signed type, and of the three only SHORT is left
    rcases signed_integer_cases hw hs with ht | ht | ht <;> rw [ht] at hval
    · have hbytes2 : intBytes 2 (-32768) = c := by
        rw [ht, hval] at hbytes
        exact hbytes
      rw [← hbytes2]
      exact netExact_short_min ht
    · exact absurd ⟨ht, hval⟩ hint
    · exact absurd ⟨ht, hval⟩ hlong

theorem network_integer_exact_long : NetExact (row 0x111D .long .fldPtr 1 20)
    [1, 0, 0, 0, 0, 0, 0, 128] :=
  (network_integer_exact_iff (by decide) (by decide)).mpr
    ⟨fun h => absurd h.1 (by decide), fun h => absurd h.2 (by decide +kernel)⟩

/-- `INT_MIN` as the `rval` of a command, and `LONG_MIN` in a UBF field. -/
theorem network_integer_min_lost : ¬NetExact (row 0x11A9 .int .fld 1 10) [0, 0, 0, 128] ∧
      ¬NetExact (row 0x111D .long .fldPtr 1 20) [0, 0, 0, 0, 0, 0, 0, 128] :=
  ⟨not_netExact_int_min rfl, not_netExact_long_min rfl⟩

end

variable {fld : Cproto} {size len : Int} {out s after cBuf : List UInt8} {cBufsz : Int}

theorem xCtonet_char (ht : fld.fldType = .char) (c : UInt8) (rest : List UInt8)
    (hfit : (out.length:Int)+2 ≤ size) : xCtonet size fld (c :: rest) len out = .ok (out ++ [c]) := by
  simp only [xCtonet, ht]
  rw [if_neg (by omega)]

theorem xCtonet_string (ht : fld.fldType = .string) (hs : 0 ∉ s) (rest : List UInt8)
    (hfit : (out.length:Int)+(s.length+1) ≤ size) :
    xCtonet size fld (s ++ 0 :: rest) len out = .ok (out ++ s) := by
  simp only [xCtonet, ht, cstr_append hs]
  rw [if_neg (by omega)]

theorem xCtonet_carray (ht : fld.fldType = .carray) (rest : List UInt8)
    (hfit : (out.length:Int)+s.length ≤ size) :
    xCtonet size fld (s ++ rest) s.length out = .ok (out ++ s) := by
  simp only [xCtonet, ht, Int.toNat_natCast, take_left]
  rw [if_neg (by omega), if_neg (by rw [length_append]; omega)]

theorem xNettoc_char (ht : fld.fldType = .char) (c : UInt8) (hsize : 1 ≤ cBufsz)
    (hbuf : 1 ≤ cBuf.length) :
    xNettoc fld (c :: after) 1 cBuf cBufsz = .ok (c :: cBuf.drop 1, 0) := by
  simp only [xNettoc, ht, poke, length_singleton]
  rw [if_neg (by omega), if_pos hbuf]
  rfl

theorem xNettoc_string (ht : fld.fldType = .string) (hs : 0 ∉ s) (hafter : 0 ∈ after)
    (hsize : (s.length:Int)+1 ≤ cBufsz) (hbuf : s.length+1 ≤ cBuf.length) :
    xNettoc fld (s ++ after) s.length cBuf cBufsz = .ok (s ++ 0 :: cBuf.drop (s.length+1), 0) := by
  obtain ⟨front, back, rfl, hfront⟩ := eq_append_cons_of_mem hafter
  have hcstr : UBF.cstr (s ++ (front ++ 0 :: back)) = some (s ++ front) := by
    rw [← append_assoc]
    apply cstr_append
    intro hmem
    rcases mem_append.mp hmem with hmem | hmem
    · exact hs hmem
    · exact hfront hmem
  have hmin : min ((s ++ front).length+1) s.length = s.length := by
    rw [length_append]
    omega
  have hdrop : (s ++ cBuf.drop s.length).drop (s.length+1) = cBuf.drop (s.length+1) := by
    rw [← drop_drop, drop_left, drop_drop]
  have hlen : s.length < (s ++ cBuf.drop s.length).length := by
    rw [length_append, length_drop]
    omega
  simp only [xNettoc, ht, hcstr, hmin, take_left, hdrop]
  rw [if_neg (by omega), if_pos hlen]

theorem xNettoc_carray (ht : fld.fldType = .carray) (hsize : (s.length:Int) ≤ cBufsz)
    (hbuf : s.length ≤ cBuf.length) :
    xNettoc fld (s ++ after) s.length cBuf cBufsz =
      .ok (s ++ cBuf.drop s.length, (s.length:Int)) := by
  simp only [xNettoc, ht, take_left, poke]
  rw [if_neg (by omega), if_pos hbuf]
  rfl

end Endurox.NetProto
