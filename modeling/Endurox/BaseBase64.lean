import Mathlib.Tactic.Ring
import Mathlib.Data.List.Basic

/-! Base 64: three bytes as four symbols of an alphabet, with padding behind the last ones. The
alphabet is a parameter, as a table to write with and a table to read with. -/

namespace Endurox.Base.Base64
open List

def padding : UInt8 := 61

section

variable (enc : ℕ → UInt8) (dec : UInt8 → ℕ)

def quad (a b c : UInt8) : List UInt8 :=
  let n := a.toNat*65536+b.toNat*256+c.toNat
  [enc (n/262144%64), enc (n/4096%64), enc (n/64%64), enc (n%64)]

def encodeLoop : List UInt8 → List UInt8
  | [] => []
  | [a] => quad enc a 0 0
  | [a, b] => quad enc a b 0
  | a :: b :: c :: rest => quad enc a b c ++ encodeLoop rest

def pads (n : ℕ) : ℕ := (3-n%3)%3

def encodedLength (n : ℕ) : ℕ := 4*((n+2)/3)

def encode (bs : List UInt8) : List UInt8 :=
  (encodeLoop enc bs).take (encodedLength bs.length-pads bs.length) ++
    replicate (pads bs.length) padding

def sextet (x : UInt8) : ℕ := if x = padding then 0 else dec x

def triple (a b c d : UInt8) : List UInt8 :=
  let n := sextet dec a*262144+sextet dec b*4096+sextet dec c*64+sextet dec d
  [UInt8.ofNat (n/65536), UInt8.ofNat (n/256), UInt8.ofNat n]

def decodeLoop : List UInt8 → List UInt8
  | a :: b :: c :: d :: rest => triple dec a b c d ++ decodeLoop rest
  | _ => []

def decodedLength (cs : List UInt8) : ℕ :=
  cs.length/4*3-(if cs[cs.length-1]? = some padding then 1 else 0)-
    (if cs[cs.length-2]? = some padding then 1 else 0)

/-- Reading into a place of `room` bytes, where 0 stands for one that is large enough. -/
def decode (room : ℕ) (cs : List UInt8) : Option (List UInt8) :=
  if cs.length % 4 ≠ 0 then none
  else if cs.length = 0 then none
  else if 0 < room ∧ room < decodedLength cs then none
  else some ((decodeLoop dec cs).take (decodedLength cs))

end

variable {enc : ℕ → UInt8} {dec : UInt8 → ℕ}

theorem quad_length (a b c : UInt8) : (quad enc a b c).length = 4 := rfl

theorem encodeLoop_length (bs : List UInt8) :
    (encodeLoop enc bs).length = encodedLength bs.length := by
  induction bs using encodeLoop.induct with
  | case1 => rfl
  | case2 | case3 => simp [encodeLoop, quad_length, encodedLength]
  | case4 a b c rest ih =>
    rw [encodeLoop, length_append, quad_length, ih]
    simp only [encodedLength, length_cons]
    omega

theorem encode_length (bs : List UInt8) : (encode enc bs).length = encodedLength bs.length := by
  have hle : pads bs.length ≤ encodedLength bs.length := by
    rw [pads, encodedLength]
    omega
  rw [encode, length_append, length_take, length_replicate, encodeLoop_length]
  omega

theorem encode_cons (a b c : UInt8) (rest : List UInt8) :
    encode enc (a :: b :: c :: rest) = quad enc a b c ++ encode enc rest := by
  have hpads : pads (a :: b :: c :: rest).length = pads rest.length := by
    simp only [pads, length_cons]
    omega
  have hlen : encodedLength (a :: b :: c :: rest).length-pads rest.length =
      (quad enc a b c).length+(encodedLength rest.length-pads rest.length) := by
    simp only [quad_length, encodedLength, pads, length_cons]
    omega
  rw [encode, hpads, hlen, encodeLoop, take_length_add_append, encode, append_assoc]

theorem encode_nil : encode enc [] = [] := by
  simp [encode, pads, encodedLength]

theorem encode_one (a : UInt8) : encode enc [a] =
    [enc (a.toNat*65536/262144%64), enc (a.toNat*65536/4096%64), padding, padding] := by
  simp [encode, encodeLoop, pads, encodedLength, quad]

theorem encode_two (a b : UInt8) : encode enc [a, b] =
    [enc ((a.toNat*65536+b.toNat*256)/262144%64), enc ((a.toNat*65536+b.toNat*256)/4096%64),
      enc ((a.toNat*65536+b.toNat*256)/64%64), padding] := by
  simp [encode, encodeLoop, pads, encodedLength, quad]

theorem not_mem_encode {x : UInt8} (hsym : ∀ i, i < 64 → enc i ≠ x) (hpad : padding ≠ x)
    (bs : List UInt8) : x ∉ encode enc bs := by
  have hquad (a b c : UInt8) : x ∉ quad enc a b c := by
    simp only [quad, mem_cons, not_mem_nil, or_false, not_or]
    exact ⟨(hsym _ (Nat.mod_lt _ (by decide))).symm, (hsym _ (Nat.mod_lt _ (by decide))).symm,
      (hsym _ (Nat.mod_lt _ (by decide))).symm, (hsym _ (Nat.mod_lt _ (by decide))).symm⟩
  have hloop : x ∉ encodeLoop enc bs := by
    induction bs using encodeLoop.induct with
    | case1 => exact not_mem_nil
    | case2 a => exact hquad a 0 0
    | case3 a b => exact hquad a b 0
    | case4 a b c rest ih =>
      rw [encodeLoop, mem_append]
      exact fun h => h.elim (hquad a b c) ih
  rw [encode, mem_append]
  rintro (h | h)
  · exact hloop (mem_of_mem_take h)
  · exact hpad (eq_of_mem_replicate h).symm

theorem decodedLength_append {q cs : List UInt8} (hq : q.length = 4) (hcs : 4 ≤ cs.length) :
    decodedLength (q ++ cs) = 3+decodedLength cs := by
  have hget (k : ℕ) (hk : 0 < k) (hle : k ≤ 2) : (q ++ cs)[(q ++ cs).length-k]? = cs[cs.length-k]? := by
    rw [length_append, getElem?_append_right (by omega)]
    congr 1
    omega
  rw [decodedLength, decodedLength, hget 1 (by decide) (by decide), hget 2 (by decide) (by decide),
    length_append]
  split <;> split <;> omega

variable (hdec : ∀ i, i < 64 → dec (enc i) = i ∧ enc i ≠ padding)

include hdec

theorem sextet_enc {i : ℕ} (hi : i < 64) : sextet dec (enc i) = i := by
  rw [sextet, if_neg (hdec i hi).2, (hdec i hi).1]

theorem triple_quad (a b c : UInt8) :
    triple dec (enc ((a.toNat*65536+b.toNat*256+c.toNat)/262144%64))
      (enc ((a.toNat*65536+b.toNat*256+c.toNat)/4096%64))
      (enc ((a.toNat*65536+b.toNat*256+c.toNat)/64%64))
      (enc ((a.toNat*65536+b.toNat*256+c.toNat)%64)) = [a, b, c] := by
  have ha := UInt8.toNat_lt a
  have hb := UInt8.toNat_lt b
  have hc := UInt8.toNat_lt c
  have hbyte (n : ℕ) (x : UInt8) (h : n%256 = x.toNat) : UInt8.ofNat n = x := by
    apply UInt8.toNat_inj.mp
    rw [UInt8.toNat_ofNat', h]
  rw [triple, sextet_enc hdec (Nat.mod_lt _ (by decide)), sextet_enc hdec (Nat.mod_lt _ (by decide)),
    sextet_enc hdec (Nat.mod_lt _ (by decide)), sextet_enc hdec (Nat.mod_lt _ (by decide))]
  rw [hbyte _ a (by omega), hbyte _ b (by omega), hbyte _ c (by omega)]

theorem decodeLoop_quad (a b c : UInt8) (cs : List UInt8) :
    decodeLoop dec (quad enc a b c ++ cs) = a :: b :: c :: decodeLoop dec cs := by
  have h := triple_quad hdec a b c
  show decodeLoop dec (_ :: _ :: _ :: _ :: cs) = _
  rw [decodeLoop, h]
  rfl

theorem triple_padding (x y z : UInt8) :
    triple dec x y padding padding = triple dec x y (enc 0) (enc 0) ∧
      triple dec x y z padding = triple dec x y z (enc 0) := by
  have hzero : sextet dec padding = sextet dec (enc 0) := by
    rw [sextet_enc hdec (by decide)]
    rfl
  rw [triple, triple, triple, hzero]
  exact ⟨rfl, rfl⟩

theorem decode_encode_parts (bs : List UInt8) (hne : bs ≠ []) :
    decodedLength (encode enc bs) = bs.length ∧
      ∃ zeros, decodeLoop dec (encode enc bs) = bs ++ zeros := by
  induction bs using encodeLoop.induct with
  | case1 => exact absurd rfl hne
  | case2 a =>
    have h := triple_quad hdec a 0 0
    have hlow : a.toNat*65536/64%64 = 0 ∧ a.toNat*65536%64 = 0 := by omega
    simp only [UInt8.toNat_zero, Nat.add_zero] at h
    rw [hlow.1, hlow.2, ← (triple_padding hdec _ _ padding).1] at h
    rw [encode_one]
    refine ⟨by simp [decodedLength], [0, 0], ?_⟩
    rw [decodeLoop, h]
    rfl
  | case3 a b =>
    have h := triple_quad hdec a b 0
    have hlow : (a.toNat*65536+b.toNat*256)%64 = 0 := by omega
    simp only [UInt8.toNat_zero, Nat.add_zero] at h
    have hthird := (hdec ((a.toNat*65536+b.toNat*256)/64%64) (Nat.mod_lt _ (by decide))).2
    rw [hlow, ← (triple_padding hdec _ _ _).2] at h
    rw [encode_two]
    refine ⟨by simp [decodedLength, hthird], [0], ?_⟩
    rw [decodeLoop, h]
    rfl
  | case4 a b c rest ih =>
    rw [encode_cons, decodeLoop_quad hdec]
    by_cases hrest : rest = []
    · have hthird := (hdec ((a.toNat*65536+b.toNat*256+c.toNat)/64%64) (Nat.mod_lt _ (by decide))).2
      have hlast := (hdec ((a.toNat*65536+b.toNat*256+c.toNat)%64) (Nat.mod_lt _ (by decide))).2
      rw [hrest, encode_nil]
      exact ⟨by simp [decodedLength, quad, hthird, hlast], [], rfl⟩
    obtain ⟨_, zeros, hloop⟩ := ih hrest
    have hpos := length_pos_of_ne_nil hrest
    have hfour : 4 ≤ (encode enc rest).length := by
      rw [encode_length, encodedLength]
      omega
    refine ⟨?_, zeros, by rw [hloop]; rfl⟩
    rw [decodedLength_append (quad_length a b c) hfour]
    simp only [length_cons]
    omega

/-- A decoder that inverts the symbols gets back every text it has room for. -/
theorem decode_encode {bs : List UInt8} (hne : bs ≠ []) {room : ℕ}
    (hroom : room = 0 ∨ bs.length ≤ room) : decode dec room (encode enc bs) = some bs := by
  obtain ⟨hlen, _, hloop⟩ := decode_encode_parts hdec bs hne
  have hpos := length_pos_of_ne_nil hne
  have hmod : (encode enc bs).length % 4 = 0 := by rw [encode_length, encodedLength]; omega
  have hnz : (encode enc bs).length ≠ 0 := by rw [encode_length, encodedLength]; omega
  rw [decode, if_neg (by omega), if_neg hnz, if_neg (by omega), hlen, hloop, take_left]

end Endurox.Base.Base64
