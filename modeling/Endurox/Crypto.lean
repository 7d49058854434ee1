import Endurox.BaseBase64
import Endurox.BaseCbc
import Endurox.BaseStruct
import Endurox.BaseTlv

/-! Encrypted strings (`libnstd/crypto.c`): the length in clear, the text in blocks of AES in CBC
mode (`libnstd/exaes.c`), all of it in base 64 (`libnstd/exbase64.c`). -/

namespace Endurox.Crypto

open Base Base.Base64 Base.Cbc Base.Tlv List

def encodingTableNormal : List UInt8 :=
  [65, 66, 67, 68, 69, 70, 71, 72, 73, 74, 75, 76, 77, 78, 79, 80,
   81, 82, 83, 84, 85, 86, 87, 88, 89, 90, 97, 98, 99, 100, 101, 102,
   103, 104, 105, 106, 107, 108, 109, 110, 111, 112, 113, 114, 115, 116, 117, 118,
   119, 120, 121, 122, 48, 49, 50, 51, 52, 53, 54, 55, 56, 57, 43, 47]

def decodingTableNormal : List ℕ :=
  replicate 32 0 ++
  [0, 0, 0, 0, 0, 0, 0, 0, 0, 0, 0, 62, 0, 0, 0, 63,
   52, 53, 54, 55, 56, 57, 58, 59, 60, 61, 0, 0, 0, 0, 0, 0,
   0, 0, 1, 2, 3, 4, 5, 6, 7, 8, 9, 10, 11, 12, 13, 14,
   15, 16, 17, 18, 19, 20, 21, 22, 23, 24, 25, 0, 0, 0, 0, 0,
   0, 26, 27, 28, 29, 30, 31, 32, 33, 34, 35, 36, 37, 38, 39, 40,
   41, 42, 43, 44, 45, 46, 47, 48, 49, 50, 51, 0, 0, 0, 0, 0] ++
  replicate 128 0

def symbol (i : ℕ) : UInt8 := encodingTableNormal.getD i 0

def value (c : UInt8) : ℕ := decodingTableNormal.getD c.toNat 0

def ivInit : List UInt8 :=
  [0xab, 0xcc, 0x1b, 0xc2, 0x3d, 0xe4, 0x44, 0x11, 0x30, 0x54, 0x34, 0x09, 0xef, 0xaf, 0xfc, 0xf5]

inductive NErr
  | nenospace
  | neformat
  | neinvalkey
  | neplugin
  deriving DecidableEq

/-- How a function on a caller's buffer ends: with the buffer and `*olen`, with an error and
`*olen`, or with an access outside of the memory it was given. -/
inductive Res
  | ok (output : List UInt8) (olen : ℕ)
  | fail (e : NErr) (olen : ℕ)
  | fault
  deriving DecidableEq

section

variable (E : BlockCipher 16)

def encryptLoop : ℕ → List UInt8 → List UInt8 → List UInt8 × List UInt8 × List UInt8
  | 0, iv, input => ([], iv, input)
  | k+1, iv, input =>
    let block := E.cipher (xorBytes (input.take 16) iv)
    let r := encryptLoop k block (input.drop 16)
    (block ++ r.1, r.2)

def exaesCbcEncryptBuffer (input iv : List UInt8) : List UInt8 :=
  let extra := input.length%16
  let r := encryptLoop E ((input.length-extra)/16) iv input
  if extra ≠ 0 then
    -- the last block is filled up with zeros
    r.1 ++ E.cipher (xorBytes (r.2.2 ++ replicate (16-extra) 0) r.2.1)
  else r.1

/-- `none` is a read past the end of the input, which a block that is not full leads to. -/
def exaesCbcDecryptBuffer (input iv : List UInt8) : Option (List UInt8) :=
  if input.length%16 = 0 then some (decBlocks E (input.length/16) iv input) else none

def sizeEstim (ilen : ℕ) : ℕ := (ilen+15)/16*16+4

/-- `ndrx_crypto_enc_int`; without a cipher when the plugin does not give a key. The length is
below 2^31 wherever the space suffices. -/
def ndrxCryptoEncInt (key : Option (BlockCipher 16)) (input : List UInt8) (olen : Int) :
    Except NErr (List UInt8) :=
  match key with
  | none => .error .neplugin
  | some E =>
    if (sizeEstim input.length : Int) > olen then .error .nenospace
    else .ok (beBytes 4 input.length ++ exaesCbcEncryptBuffer E input ivInit)

/-- `ndrx_crypto_enc_string` with an output buffer of `*olen` bytes. The work buffer has the size
of a message, in an `int`; the index of the base 64 loop is an `int`, too. -/
def ndrxCryptoEncString (key : Option (BlockCipher 16)) (msgsizemax : Int) (input : List UInt8)
    (output : List UInt8) : Res :=
  match ndrxCryptoEncInt key input (wrap32 msgsizemax) with
  | .error e => .fail e output.length
  | .ok buf =>
    if encodedLength buf.length+1 > output.length then
      .fail .nenospace (encodedLength buf.length+1)
    else if encodedLength buf.length > 2147483647 then .fault
    else
      .ok (encode symbol buf ++ 0 :: output.drop (encodedLength buf.length+1))
        (encodedLength buf.length+1)

def endDecString (dataSize : ℕ) (output : List UInt8) : Res :=
  if (cstr (output.set dataSize 0)).length ≠ dataSize then .fail .neinvalkey dataSize
  else .ok (output.set dataSize 0) (dataSize+1)

/-- `ndrx_crypto_dec_string` with an output buffer of `*olen` bytes. An error of
`ndrx_crypto_dec_int` is not looked at: it leaves `*olen`, and the terminator goes behind the
buffer. The base 64 loop has an index of type `int`, as in the encryption. -/
def ndrxCryptoDecString (key : Option (BlockCipher 16)) (input : List UInt8)
    (output : List UInt8) : Res :=
  match decode value input.length input with
  | none => .fail .neformat output.length
  | some buf =>
    if input.length > 2147483647 then .fault
    else if buf.length < 4 then .fault
    else if beNat (buf.take 4)+1 > output.length then .fail .nenospace (beNat (buf.take 4)+1)
    else
      match key.bind (exaesCbcDecryptBuffer · (buf.drop 4) ivInit) with
      | none => .fault
      | some data =>
        if data.length > output.length then .fault
        else endDecString (beNat (buf.take 4)) (data ++ output.drop data.length)

end

section

variable {E : BlockCipher 16}

theorem encryptLoop_fst (k : ℕ) (iv input : List UInt8) :
    (encryptLoop E k iv input).1 = encBlocks E k iv input := by
  induction k generalizing iv input with
  | zero => rfl
  | succ k ih => rw [encryptLoop, encBlocks, ih]

theorem encryptLoop_last {k : ℕ} {iv input z : List UInt8} (hk : 16*k ≤ input.length)
    (hz : input.length+z.length = 16*(k+1)) :
    (encryptLoop E k iv input).1 ++
      E.cipher (xorBytes ((encryptLoop E k iv input).2.2 ++ z) (encryptLoop E k iv input).2.1) =
    encBlocks E (k+1) iv (input ++ z) := by
  induction k generalizing iv input with
  | zero =>
    have hlen : (input ++ z).length = 16 := by rw [length_append]; omega
    rw [encryptLoop, encBlocks, encBlocks, append_nil, nil_append, take_of_length_le hlen.le]
  | succ k ih =>
    have hfirst : (input ++ z).take 16 = input.take 16 := take_append_of_le_length (by omega)
    have hrest : (input ++ z).drop 16 = input.drop 16 ++ z := drop_append_of_le_length (by omega)
    have hdrop : (input.drop 16).length = input.length-16 := length_drop
    rw [encBlocks, hfirst, hrest, ← ih (by omega) (by omega), encryptLoop, append_assoc]

def padded (input : List UInt8) : List UInt8 :=
  input ++ replicate ((16-input.length%16)%16) 0

variable (input : List UInt8)

theorem padded_length : (padded input).length = (input.length+15)/16*16 := by
  rw [padded, length_append, length_replicate]
  omega

theorem exaesCbcEncryptBuffer_eq (iv : List UInt8) : exaesCbcEncryptBuffer E input iv =
      encBlocks E ((input.length+15)/16) iv (padded input) := by
  rw [exaesCbcEncryptBuffer]
  by_cases hextra : input.length%16 = 0
  · have hblocks : (input.length-input.length%16)/16 = (input.length+15)/16 := by omega
    have hpad : padded input = input := by simp [padded, hextra]
    simp only [hextra, ne_eq, not_true_eq_false, if_false]
    rw [encryptLoop_fst, hpad, ← hblocks, hextra]
  have hblocks : (input.length+15)/16 = (input.length-input.length%16)/16+1 := by omega
  have hpad : padded input = input ++ replicate (16-input.length%16) 0 := by
    rw [padded, Nat.mod_eq_of_lt (by omega)]
  simp only [hextra, ne_eq]
  rw [hblocks, hpad]
  refine encryptLoop_last (by omega) ?_
  rw [length_replicate]
  omega

theorem ivInit_length : ivInit.length = 16 := rfl

theorem exaesCbcEncryptBuffer_length :
    (exaesCbcEncryptBuffer E input ivInit).length = (input.length+15)/16*16 := by
  rw [exaesCbcEncryptBuffer_eq]
  exact encBlocks_length ivInit_length (padded_length input)

theorem exaesCbcDecryptBuffer_encrypt :
    exaesCbcDecryptBuffer E (exaesCbcEncryptBuffer E input ivInit) ivInit =
      some (padded input) := by
  have hlen := exaesCbcEncryptBuffer_length (E := E) input
  have hblocks : (input.length+15)/16*16/16 = (input.length+15)/16 :=
    Nat.mul_div_cancel _ (by decide)
  rw [exaesCbcDecryptBuffer, if_pos (by rw [hlen]; exact Nat.mul_mod_left _ _), hlen, hblocks,
    exaesCbcEncryptBuffer_eq]
  exact congrArg some (decBlocks_encBlocks ivInit_length (padded_length input))

end

section

theorem value_symbol : ∀ i, i < 64 → value (symbol i) = i ∧ symbol i ≠ padding := by
  decide

theorem symbol_ne_zero : ∀ i, i < 64 → symbol i ≠ 0 := by
  decide

theorem cstr_encode (bs rest : List UInt8) :
    cstr (encode symbol bs ++ 0 :: rest) = encode symbol bs :=
  cstr_append_nul (not_mem_encode symbol_ne_zero (by decide) bs) rest

end

variable {E : BlockCipher 16}

def sealed (E : BlockCipher 16) (s : List UInt8) : List UInt8 :=
  beBytes 4 s.length ++ exaesCbcEncryptBuffer E s ivInit

theorem sealed_length (s : List UInt8) : (sealed E s).length = sizeEstim s.length := by
  rw [sealed, length_append, beBytes_length, exaesCbcEncryptBuffer_length, sizeEstim]
  omega

def Fits (msgsizemax : Int) (s output : List UInt8) : Prop :=
  (sizeEstim s.length : Int) ≤ wrap32 msgsizemax ∧
    encodedLength (sizeEstim s.length)+1 ≤ output.length

variable {s output : List UInt8}

theorem encString_of_fits {msgsizemax : Int} (h : Fits msgsizemax s output) :
    ndrxCryptoEncString (some E) msgsizemax s output =
      if encodedLength (sizeEstim s.length) > 2147483647 then .fault
      else .ok (encode symbol (sealed E s) ++
          0 :: output.drop (encodedLength (sizeEstim s.length)+1))
        (encodedLength (sizeEstim s.length)+1) := by
  have hint : ndrxCryptoEncInt (some E) s (wrap32 msgsizemax) = .ok (sealed E s) := by
    rw [ndrxCryptoEncInt, if_neg (by have := h.1; omega)]
    rfl
  rw [ndrxCryptoEncString, hint]
  simp only [sealed_length]
  rw [if_neg (by have := h.2; omega)]

theorem encString_of_not_fits {msgsizemax : Int} (h : ¬ Fits msgsizemax s output) :
    ∃ olen, ndrxCryptoEncString (some E) msgsizemax s output = .fail .nenospace olen := by
  rw [ndrxCryptoEncString, ndrxCryptoEncInt]
  by_cases hwork : (sizeEstim s.length : Int) > wrap32 msgsizemax
  · rw [if_pos hwork]
    exact ⟨_, rfl⟩
  rw [if_neg hwork]
  have hlen := sealed_length (E := E) s
  rw [sealed] at hlen
  have hout : encodedLength (sizeEstim s.length)+1 > output.length := by
    by_contra hle
    exact h ⟨by omega, by omega⟩
  simp only [hlen, if_pos hout]
  exact ⟨_, rfl⟩

theorem endDecString_padded (hs : (0:UInt8) ∉ s)
    (hroom : s.length+1 ≤ output.length) (hpad : (padded s).length ≤ output.length) :
    ∃ output', endDecString s.length (padded s ++ output.drop (padded s).length) =
      .ok output' (s.length+1) ∧ cstr output' = s := by
  have hsplit : padded s ++ output.drop (padded s).length =
      s ++ (replicate ((16-s.length%16)%16) 0 ++ output.drop (padded s).length) :=
    append_assoc s _ _
  have hlen := congrArg length hsplit
  rw [length_append, length_drop, length_append] at hlen
  obtain ⟨x, tail, htail⟩ : ∃ x tail, replicate ((16-s.length%16)%16) 0 ++
      output.drop (padded s).length = x :: tail := by
    refine exists_cons_of_ne_nil (ne_nil_of_length_pos ?_)
    omega
  -- the terminator stands right behind the string
  have hset : (padded s ++ output.drop (padded s).length).set s.length 0 = s ++ 0 :: tail := by
    rw [hsplit, htail, set_append_right _ _ (Nat.le_refl _), Nat.sub_self, set_cons_zero]
  have hcstr : cstr (s ++ 0 :: tail) = s := cstr_append_nul hs tail
  rw [endDecString, hset, hcstr, if_neg (by simp)]
  exact ⟨_, rfl, hcstr⟩

theorem decString_sealed (hlen : encodedLength (sizeEstim s.length) ≤ 2147483647)
    (hroom : s.length+1 ≤ output.length) :
    ndrxCryptoDecString (some E) (encode symbol (sealed E s)) output =
      if (padded s).length > output.length then .fault
      else endDecString s.length (padded s ++ output.drop (padded s).length) := by
  have hpos : (sealed E s).length = sizeEstim s.length := sealed_length s
  have hne : sealed E s ≠ [] := by
    refine ne_nil_of_length_pos ?_
    rw [hpos, sizeEstim]
    omega
  have hdecode : decode value (encode symbol (sealed E s)).length
      (encode symbol (sealed E s)) = some (sealed E s) := by
    refine decode_encode value_symbol hne (.inr ?_)
    rw [encode_length, encodedLength]
    omega
  have htake : (sealed E s).take 4 = beBytes 4 s.length := take_left' (beBytes_length 4 _)
  have hdrop : (sealed E s).drop 4 = exaesCbcEncryptBuffer E s ivInit :=
    drop_left' (beBytes_length 4 _)
  have hsize : beNat (beBytes 4 s.length) = s.length := by
    rw [sizeEstim, encodedLength] at hlen
    rw [beNat_beBytes]
    exact Nat.mod_eq_of_lt (by omega)
  have htext : (encode symbol (sealed E s)).length ≤ 2147483647 := by
    rw [encode_length, hpos]
    exact hlen
  rw [ndrxCryptoDecString, hdecode]
  simp only [htake, hdrop, hsize, Option.bind_some, exaesCbcDecryptBuffer_encrypt]
  rw [if_neg (by omega), if_neg (by rw [hpos, sizeEstim]; omega), if_neg (by omega)]

def GivesBack (E : BlockCipher 16) (msgsizemax : Int) (s output output' : List UInt8) : Prop :=
  ((∃ enc olen, ndrxCryptoEncString (some E) msgsizemax s output = .ok enc olen) ↔
    Fits msgsizemax s output) ∧
  ∀ enc olen, ndrxCryptoEncString (some E) msgsizemax s output = .ok enc olen →
    olen = (cstr enc).length+1 ∧
    (s.length+1 ≤ output'.length →
      ∃ dec, ndrxCryptoDecString (some E) (cstr enc) output' = .ok dec (s.length+1) ∧ cstr dec = s)

/-- Strings come back iff, wherever the encryption finds room, the base 64 text is short enough for
an `int` and a buffer that holds the string also holds its last block. -/
theorem string_comes_back_iff (E : BlockCipher 16) (msgsizemax : Int) (s : CStr)
    (output output' : List UInt8) :
    GivesBack E msgsizemax s.val output output' ↔ (Fits msgsizemax s.val output →
        encodedLength (sizeEstim s.val.length) ≤ 2147483647 ∧
        (s.val.length+1 ≤ output'.length → (s.val.length+15)/16*16 ≤ output'.length)) := by
  by_cases hfit : Fits msgsizemax s.val output
  · have henc := encString_of_fits (E := E) hfit
    simp only [hfit, forall_const]
    by_cases hbig : encodedLength (sizeEstim s.val.length) > 2147483647
    · -- the index of the base 64 loop overflows
      rw [if_pos hbig] at henc
      simp only [GivesBack, henc, hfit, reduceCtorEq, exists_false, iff_true, false_and, false_iff]
      exact fun h => absurd h.1 (by omega)
    rw [if_neg hbig] at henc
    have hdec (hroom : s.val.length+1 ≤ output'.length) :=
      decString_sealed (E := E) (not_lt.mp hbig) hroom
    have hpad := padded_length s.val
    constructor
    · rintro ⟨-, h⟩
      obtain ⟨-, hback⟩ := h _ _ henc
      refine ⟨by omega, fun hroom => ?_⟩
      obtain ⟨_, hdec', -⟩ := hback hroom
      rw [cstr_encode, hdec hroom] at hdec'
      by_contra hlt
      rw [if_pos (by omega)] at hdec'
      cases hdec'
    · rintro ⟨-, _⟩
      refine ⟨⟨fun _ => hfit, fun _ => ⟨_, _, henc⟩⟩, ?_⟩
      intro enc olen he
      rw [henc] at he
      cases he
      rw [cstr_encode]
      refine ⟨by rw [encode_length, sealed_length], fun hroom => ?_⟩
      rw [hdec hroom, if_neg (by omega)]
      exact endDecString_padded s.property hroom (by omega)
  · obtain ⟨_, henc⟩ := encString_of_not_fits (E := E) hfit
    simp [GivesBack, henc, hfit]

def plain : BlockCipher 16 := ⟨id, id, fun _ h => h, fun _ _ => rfl⟩

/-- The string `a` is decrypted into a buffer of two bytes, which it fits with its terminator: the
block that is written has sixteen. -/
theorem last_block_overruns : ¬ GivesBack plain 65536 [97] (replicate 100 0) [0, 0] := by
  have hfit : Fits 65536 [97] (replicate 100 0) := ⟨by decide, by decide⟩
  have henc := encString_of_fits (E := plain) hfit
  rintro ⟨-, h⟩
  obtain ⟨_, hdec, -⟩ := (h _ _ henc).2 (by decide)
  cases hdec

/-- The call stays inside the text, the bytes decoded from it and the output, and succeeds only
with a key and when the announced length was decrypted. -/
def DecSound (key : Option (BlockCipher 16)) (input output : List UInt8) : Prop :=
  ndrxCryptoDecString key input output ≠ .fault ∧
    ∀ dec olen, ndrxCryptoDecString key input output = .ok dec olen →
      ∃ E buf data, key = some E ∧ decode value input.length input = some buf ∧
        exaesCbcDecryptBuffer E (buf.drop 4) ivInit = some data ∧ beNat (buf.take 4) ≤ data.length

/-- A text that is decoded holds a length, and when the output has room for it the key is there,
the rest is whole blocks that fit the output, and either the announced length is in them or a zero
stands before its end. -/
def DecFits (key : Option (BlockCipher 16)) (buf output : List UInt8) : Prop :=
  4 ≤ buf.length ∧ (beNat (buf.take 4) < output.length → ∃ E, key = some E ∧
    (buf.length-4)%16 = 0 ∧ buf.length-4 ≤ output.length ∧
    (beNat (buf.take 4) ≤ buf.length-4 ∨ (0:UInt8) ∈
      (decBlocks E ((buf.length-4)/16) ivInit (buf.drop 4) ++ output.drop (buf.length-4)).take
        (beNat (buf.take 4))))

theorem endDecString_ok_iff {n : ℕ} (hn : n < output.length) :
    (∃ dec olen, endDecString n output = .ok dec olen) ↔ (0:UInt8) ∉ output.take n := by
  have hset : output.set n 0 = output.take n ++ 0 :: output.drop (n+1) := by
    rw [set_eq_take_append_cons_drop, if_pos hn]
  have htake : (output.take n).length = n := length_take_of_le hn.le
  rw [endDecString, hset]
  constructor
  · rintro ⟨dec, olen, h⟩
    split at h
    · cases h
    rename_i hlen
    have hprefix := prefix_iff_eq_take.mp ( takeWhile_prefix (p := (· ≠ (0:UInt8)))
      (l := output.take n ++ 0 :: output.drop (n+1)))
    rw [← cstr, not_not.mp hlen, take_left' htake] at hprefix
    rw [← hprefix]
    exact zero_notMem_cstr _
  · intro hz
    rw [cstr_append_nul hz, if_neg (by simpa using htake)]
    exact ⟨_, _, rfl⟩

theorem endDecString_ne_fault {n : ℕ} : endDecString n output ≠ .fault := by
  rw [endDecString]
  split <;> simp

/-- The call is safe on every text and output, and honest about what it decrypted, iff a text that
is decoded is short enough for an `int` and what it decodes to fits. -/
theorem dec_sound_iff (key : Option (BlockCipher 16)) (input output : List UInt8) :
    DecSound key input output ↔ ∀ buf, decode value input.length input = some buf →
      input.length ≤ 2147483647 ∧ DecFits key buf output := by
  rw [DecSound, ndrxCryptoDecString]
  cases hbuf : decode value input.length input with
  | none => simp
  | some buf =>
    simp only [Option.some.injEq, forall_eq', DecFits]
    by_cases hint : input.length > 2147483647
    · simp [hint]
    by_cases hpfx : buf.length < 4
    · simp [hint, hpfx]
    by_cases hroom : beNat (buf.take 4)+1 > output.length
    · simp [hint, hpfx, hroom, not_lt.mpr (Nat.le_of_lt_succ hroom), not_lt.mp hint,
        not_lt.mp hpfx]
    simp only [hint, hpfx, hroom, if_false, not_lt.mp hint, not_lt.mp hpfx, true_and,
      show beNat (buf.take 4) < output.length by omega, forall_const]
    cases key with
    | none => simp
    | some E =>
      by_cases hblocks : (buf.length-4)%16 = 0
      · have hdrop : (buf.drop 4).length = (buf.length-4)/16*16 := by
          rw [length_drop]
          omega
        have hlen := decBlocks_length (E := E) ivInit_length hdrop
        have hdec : exaesCbcDecryptBuffer E (buf.drop 4) ivInit =
            some (decBlocks E ((buf.length-4)/16) ivInit (buf.drop 4)) := by
          rw [exaesCbcDecryptBuffer, length_drop, if_pos hblocks]
        have hsize : (buf.length-4)/16*16 = buf.length-4 := by omega
        rw [hsize] at hlen
        simp only [Option.bind_some, Option.some.injEq, exists_eq_left', hdec, hlen, hblocks,
          true_and]
        by_cases hfit : buf.length-4 > output.length
        · simp [hfit, not_le.mpr hfit]
        rw [if_neg hfit]
        have hend : beNat (buf.take 4) < (decBlocks E ((buf.length-4)/16) ivInit (buf.drop 4) ++
            output.drop (buf.length-4)).length := by
          rw [length_append, hlen, length_drop]
          omega
        have hok := endDecString_ok_iff hend
        constructor
        · rintro ⟨-, h⟩
          refine ⟨not_lt.mp hfit, or_iff_not_imp_right.mpr ?_⟩
          intro hz
          obtain ⟨dec, olen, hr⟩ := hok.mpr hz
          obtain ⟨_, _, _, rfl, rfl, hd, hle⟩ := h dec olen hr
          cases hdec.symm.trans hd
          rwa [hlen] at hle
        · rintro ⟨-, h⟩
          refine ⟨endDecString_ne_fault, ?_⟩
          intro dec olen hr
          refine ⟨E, buf, _, rfl, rfl, hdec, ?_⟩
          rw [hlen]
          exact h.resolve_right (hok.mp ⟨dec, olen, hr⟩)
      · simp [exaesCbcDecryptBuffer, hblocks]

/-- A length of zero in clear, without a key: the terminator goes behind the one byte of the
output. -/
theorem dec_not_sound : ¬ DecSound none [65, 65, 65, 65, 65, 65, 61, 61] [0] := by
  rintro ⟨hsafe, -⟩
  exact hsafe (by decide)

end Endurox.Crypto
