import Endurox.BaseBytes
import Endurox.BaseRun

/-! Records of a tag, a length and a value, as they go over a line: two bytes, four bytes, both
with the high byte first, and the value. The writer learns the length only when the value is
written, the reader goes from record to record. -/

namespace Endurox.Base.Tlv
open List

def beBytes (n x : ℕ) : List UInt8 := (leBytes n x).reverse

def beNat (bs : List UInt8) : ℕ := leNat bs.reverse

@[simp] theorem beBytes_length (n x : ℕ) : (beBytes n x).length = n := by
  rw [beBytes, length_reverse, leBytes_length]

theorem beNat_beBytes (n x : ℕ) : beNat (beBytes n x) = x % 256^n := by
  rw [beNat, beBytes, reverse_reverse, leNat_leBytes]

def frame (tag : ℕ) (body : List UInt8) : List UInt8 :=
  beBytes 2 tag ++ (beBytes 4 body.length ++ body)

theorem frame_length (tag : ℕ) (body : List UInt8) : (frame tag body).length = 6+body.length := by
  simp only [frame, length_append, beBytes_length]
  omega

section

variable {ε : Type} (size : Int) (full : ε)

def put (out bs : List UInt8) : Except ε (List UInt8) :=
  if (out.length:Int)+bs.length > size then .error full else .ok (out ++ bs)

/-- The length of all that follows it goes to its place at `off`. -/
def patch (out : List UInt8) (off : ℕ) : List UInt8 :=
  out.take off ++ (beBytes 4 (out.length-(off+4)) ++ out.drop (off+4))

def putFrame (tag : ℕ) (body : List UInt8 → Except ε (List UInt8)) (out : List UInt8) :
    Except ε (List UInt8) :=
  (put size full out (beBytes 2 tag)).bind (fun tagged =>
    (put size full tagged [0, 0, 0, 0]).bind (fun opened =>
      (body opened).map (fun written => patch written tagged.length)))

variable {size full}

theorem put_ok {out bs : List UInt8} (h : (out.length:Int)+bs.length ≤ size) :
    put size full out bs = .ok (out ++ bs) := by
  rw [put, if_neg (by omega)]

theorem patch_append (out hole w : List UInt8) (hhole : hole.length = 4) :
    patch (out ++ hole ++ w) out.length = out ++ (beBytes 4 w.length ++ w) := by
  have hlen : (out ++ hole ++ w).length-(out.length+4) = w.length := by
    simp only [length_append]
    omega
  have htake : (out ++ hole ++ w).take out.length = out := by
    rw [append_assoc, take_left]
  have hdrop : (out ++ hole ++ w).drop (out.length+4) = w := by
    rw [← hhole, ← length_append, drop_left]
  rw [patch, hlen, htake, hdrop]

theorem putFrame_ok {tag : ℕ} {body : List UInt8 → Except ε (List UInt8)} {out w : List UInt8}
    (hbody : body (out ++ beBytes 2 tag ++ [0, 0, 0, 0]) =
      .ok (out ++ beBytes 2 tag ++ [0, 0, 0, 0] ++ w))
    (hsize : (out.length:Int)+6 ≤ size) :
    putFrame size full tag body out = .ok (out ++ frame tag w) := by
  have htag : put size full out (beBytes 2 tag) = .ok (out ++ beBytes 2 tag) := by
    apply put_ok
    rw [beBytes_length]
    omega
  have hhole : put size full (out ++ beBytes 2 tag) [0, 0, 0, 0] =
      .ok (out ++ beBytes 2 tag ++ [0, 0, 0, 0]) := by
    apply put_ok
    simp only [length_append, beBytes_length, length_cons, length_nil]
    omega
  rw [putFrame, htag, Except.bind, hhole, Except.bind, hbody, Except.map,
    patch_append (out ++ beBytes 2 tag) [0, 0, 0, 0] w rfl, frame, append_assoc]

end

variable {ε ρ σ : Type} (bad : ε) (find : Int → Option ρ) (last : ρ → Bool)
  (step : ℕ → Int → ρ → List UInt8 → ℕ → σ → Except ε σ)

/-- The reader's loop. `mem` is the memory from the place reached, `pos` its number in the whole
message, and `left` the number of bytes that belong to this level. A record of an unknown tag is
passed over, one that is the `last` ends the loop. `step` gets the place, the tag, what was found
for it, the memory from the value on and the length. -/
def scan : ℕ → ℕ → List UInt8 → ℕ → σ → Except ε (ℕ × σ)
  | 0, _, _, _, _ => .error bad
  | fuel+1, pos, mem, left, s =>
    if left < 6 then .ok (pos, s)
    else
      let len := wrap32 (beNat ((mem.drop 2).take 4))
      if len < 0 ∨ (left:Int)-6 < len then .error bad
      else
        let next := 6+len.toNat
        match find (wrap 32768 (beNat (mem.take 2))) with
        | none => scan fuel (pos+next) (mem.drop next) (left-next) s
        | some r =>
          (step (pos+6) (wrap 32768 (beNat (mem.take 2))) r (mem.drop 6) len.toNat s).bind
            (fun s =>
              if last r then .ok (pos+next, s)
              else scan fuel (pos+next) (mem.drop next) (left-next) s)

variable {bad find last step} in
theorem scan_end {fuel pos left : ℕ} {mem : List UInt8} {s : σ} (hfuel : 0 < fuel)
    (hleft : left < 6) : scan bad find last step fuel pos mem left s = .ok (pos, s) := by
  obtain ⟨fuel, rfl⟩ : ∃ f, fuel = f+1 := ⟨fuel-1, by omega⟩
  rw [scan, if_pos hleft]

theorem frame_head {tag : ℕ} {body : List UInt8} (htag : tag < 65536)
    (hbody : body.length < 2147483648) (after : List UInt8) :
    beNat ((frame tag body ++ after).take 2) = tag ∧
      wrap32 (beNat (((frame tag body ++ after).drop 2).take 4)) = body.length ∧
      (frame tag body ++ after).drop 6 = body ++ after := by
  have htake : (frame tag body ++ after).take 2 = beBytes 2 tag := by
    exact take_left' (beBytes_length 2 tag)
  have hdrop : (frame tag body ++ after).drop 2 = beBytes 4 body.length ++ (body ++ after) := by
    exact drop_left' (beBytes_length 2 tag)
  have hbody' : (frame tag body ++ after).drop 6 = body ++ after := by
    rw [show (6:ℕ) = 2+4 from rfl, ← drop_drop]
    exact drop_left' (beBytes_length 4 _)
  refine ⟨?_, ?_, hbody'⟩
  · rw [htake, beNat_beBytes, Nat.mod_eq_of_lt (by omega)]
  · rw [hdrop, take_left' (beBytes_length 4 _), beNat_beBytes, Nat.mod_eq_of_lt (by omega),
      wrap32_of_mem (by omega) (by omega)]

variable {bad find last step} in
theorem scan_frame {tag fuel pos left : ℕ} {body after : List UInt8} {r : ρ} {s : σ}
    (htag : tag < 32768) (hbody : body.length < 2147483648) (hleft : 6+body.length ≤ left)
    (hfind : find tag = some r) :
    scan bad find last step (fuel+1) pos (frame tag body ++ after) left s =
      (step (pos+6) tag r (body ++ after) body.length s).bind (fun s =>
        if last r then .ok (pos+(6+body.length), s)
        else scan bad find last step fuel (pos+(6+body.length)) after (left-(6+body.length)) s) := by
  obtain ⟨h1, h2, h3⟩ := frame_head (show tag < 65536 by omega) hbody after
  have htag' : wrap 32768 (tag:Int) = tag := wrap_of_mem (by omega) (by omega)
  have hafter : (frame tag body ++ after).drop (6+body.length) = after := by
    rw [← frame_length tag body, drop_left]
  rw [scan, if_neg (by omega)]
  simp only [h1, h2, h3, htag', hfind, Int.toNat_natCast, hafter]
  rw [if_neg (by omega)]

variable {bad find last step} in
/-- Two readers of one message: where the first gets through, the second does if each of its steps
does, and what the steps keep between them holds at the end. -/
theorem scan_rel {τ : Type} {step' : ℕ → Int → ρ → List UInt8 → ℕ → τ → Except ε τ} {R : σ → τ → Prop}
    (hstep : ∀ pos tag r datap len s t s', find tag = some r → len ≤ datap.length → R s t →
      step pos tag r datap len s = .ok s' → ∃ t', step' pos tag r datap len t = .ok t' ∧ R s' t')
    {fuel pos left n : ℕ} {mem : List UInt8} {s s' : σ} {t : τ} (hleft : left ≤ mem.length)
    (hst : R s t) (hrun : scan bad find last step fuel pos mem left s = .ok (n, s')) :
    ∃ t', scan bad find last step' fuel pos mem left t = .ok (n, t') ∧ R s' t' := by
  induction fuel generalizing pos left mem s t with
  | zero => cases hrun
  | succ fuel ih =>
    rw [scan] at hrun ⊢
    by_cases hend : left < 6
    · rw [if_pos hend] at hrun ⊢
      cases hrun
      exact ⟨t, rfl, hst⟩
    rw [if_neg hend] at hrun ⊢
    dsimp only at hrun ⊢
    generalize hlen : wrap32 (beNat ((mem.drop 2).take 4)) = len at hrun ⊢
    by_cases hbad : len < 0 ∨ (left:Int)-6 < len
    · rw [if_pos hbad] at hrun
      cases hrun
    rw [if_neg hbad] at hrun ⊢
    have hnext : left-(6+len.toNat) ≤ (mem.drop (6+len.toNat)).length := by
      rw [length_drop]
      omega
    generalize htag : wrap 32768 (beNat (mem.take 2)) = tag at hrun ⊢
    cases hfind : find tag with
    | none =>
      simp only [hfind] at hrun ⊢
      exact ih hnext hst hrun
    | some r =>
      simp only [hfind] at hrun ⊢
      obtain ⟨_, hs₁, hrest⟩ := bind_eq_ok.mp hrun
      have hdata : len.toNat ≤ (mem.drop 6).length := by
        rw [length_drop]
        omega
      obtain ⟨t₁, ht₁, hst₁⟩ := hstep _ _ _ _ _ _ _ _ hfind hdata hst hs₁
      rw [ht₁, Except.bind]
      by_cases hlast : last r = true
      · rw [if_pos hlast] at hrest ⊢
        cases hrest
        exact ⟨t₁, rfl, hst₁⟩
      · rw [if_neg hlast] at hrest ⊢
        exact ih hnext hst₁ hrest

end Endurox.Base.Tlv
