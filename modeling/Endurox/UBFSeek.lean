import Endurox.UBFLayout

/-! The linear search `get_fld_loc` and what it finds in a well-formed buffer. -/

namespace Endurox.UBF

open Base List Option

/-- What the loop of `get_fld_loc` carries. `lastStart` is `last_start->last_checked`, and
`none` when `last_start` is NULL. -/
structure LocCursor where
  p : Int
  iocc : Int
  lastMatched : Option Int
  lastStart : Option Int
  deriving DecidableEq

inductive LocStop
  | eof | stopped | badType
  deriving DecidableEq

/-- Keep track of the first record with the id seen last: `last_start->last_checked` moves to
`p` when the id there differs from `cur`, the one at `p`. -/
def rememberStart (b : UBFH) (lastStart : Option Int) (p cur : Int) : Option (Option Int) :=
  match lastStart with
  | none => some none
  | some q => (b.ld32 q).map (fun w => some (if w ≠ cur then p else q))

/-- The loop of `get_fld_loc`. Fuel counts records; a loop that never reaches the end of the
used area has no result. -/
def getFldLocLoop (b : UBFH) (bfldid occ : Int) : ℕ → LocCursor → Option (LocStop × LocCursor)
  | 0, _ => none
  | fuel+1, c =>
    if b.eof c.p then some (.eof, c)
    else do
      let cur ← b.ld32 c.p
      if (bfldid ≠ cur ∨ bfldid = cur ∧ (c.iocc < occ ∨ occ < -1)) ∧ cur ≤ bfldid then
        let lastStart ← rememberStart b c.lastStart c.p cur
        match fldType cur with
        | none => some (.badType, {c with lastStart := lastStart})
        | some t =>
          let (step, _) ← pNext t b c.p
          let p := c.p+step
          if b.eof p then some (.eof, {c with lastStart := lastStart})
          else
            let nxt ← b.ld32 p
            if bfldid = nxt then
              getFldLocLoop b bfldid occ fuel ⟨p, c.iocc+1, some p, lastStart⟩
            else getFldLocLoop b bfldid occ fuel ⟨p, c.iocc, c.lastMatched, lastStart⟩
      else some (.stopped, c)

/-- The return value and the outputs of `get_fld_loc`. The descriptor it also returns is the
one of the type of `bfldid` whenever it is used. -/
structure FldLoc where
  ret : Option Int
  lastChecked : Option Int
  lastMatched : Option Int
  lastOcc : Int
  lastStart : Option Int
  err : Option BErr
  deriving DecidableEq

def searchStart (b : UBFH) (bfldid : Int) (lastStart : Option Int) : Option Int :=
  match lastStart with
  | some q => some q
  | none => if bfldid/33554432 > 0 then (fldType bfldid).bind b.hdr.cacheOff else some 0

def matchesAt (b : UBFH) (bfldid p : Int) : Option Bool :=
  if b.eof p then some false else (b.ld32 p).map (fun w => decide (bfldid = w))

def locResult (b : UBFH) (bfldid occ : Int) (stop : LocStop) (c : LocCursor) : Option FldLoc :=
  match stop with
  | .badType => some ⟨none, none, c.lastMatched, -1, c.lastStart, some .balignerr⟩
  | .eof => some ⟨none, some b.usedEnd, c.lastMatched, c.iocc, c.lastStart, none⟩
  | .stopped => do
    let cur ← b.ld32 c.p
    if bfldid = cur ∧ c.iocc = occ then
      if fldType cur = none then
        some ⟨none, none, c.lastMatched, -1, c.lastStart, some .balignerr⟩
      else some ⟨some c.p, some c.p, c.lastMatched, c.iocc, c.lastStart, none⟩
    else some ⟨none, some c.p, c.lastMatched, c.iocc, c.lastStart, none⟩

def getFldLoc (b : UBFH) (bfldid occ : Int) (lastStart : Option Int) : Option FldLoc := do
  let p ← searchStart b bfldid lastStart
  let matched ← matchesAt b bfldid p
  let c : LocCursor := if matched then ⟨p, 0, some p, lastStart⟩ else ⟨p, -1, none, lastStart⟩
  let (stop, c) ← getFldLocLoop b bfldid occ (b.mem.length+1) c
  locResult b bfldid occ stop c

def StartOk (rs : List Rec) (bfldid q : Int) : Prop :=
  ∃ pre rest, rs = pre ++ rest ∧ q = recsSize pre ∧ ∀ y ∈ pre, y.id < bfldid

/-- The remembered position while the loop has passed `pre`: it is where the loop started, or
the first record with the id passed last. -/
def Remembered (rs pre : List Rec) (bfldid : Int) : Option Int → Prop
  | none => True
  | some q => ∃ pre0 rest, rs = pre0 ++ rest ∧ q = recsSize pre0 ∧ (∀ y ∈ pre0, y.id < bfldid) ∧
      (pre0 = pre ∨ ∃ x ∈ pre, rest.head? = some x ∧ ∀ y ∈ pre, y.id ≤ x.id)

theorem Remembered.startOk {rs pre : List Rec} {bfldid : Int} {ls : Option Int}
    (h : Remembered rs pre bfldid ls) : ∀ q, ls = some q → StartOk rs bfldid q := by
  rintro q rfl
  obtain ⟨pre0, rest, hrs, hq, hlt, -⟩ := h
  exact ⟨pre0, rest, hrs, hq, hlt⟩

variable {b : UBFH} {rs pre post rest : List Rec} {r : Rec} {bfldid occ : Int}

/-- The remembered start stays right over a record that is not larger. -/
theorem remember_step (h : Layout b (pre ++ r :: post)) (hr : r.id ≤ bfldid) {ls : Option Int}
    (hls : Remembered (pre ++ r :: post) pre bfldid ls) :
    ∃ ls', rememberStart b ls (recsSize pre) r.id = some ls' ∧ (ls' = none ↔ ls = none) ∧
      Remembered (pre ++ r :: post) (pre ++ [r]) bfldid ls' := by
  cases ls with
  | none => exact ⟨none, rfl, Iff.rfl, trivial⟩
  | some =>
    obtain ⟨pre0, rest0, hrs, rfl, hlt, hcase⟩ := hls
    obtain ⟨x, tail, rfl, hfrom⟩ : ∃ x tail, rest0 = x :: tail ∧
        (pre0 = pre ∧ x = r ∨ x ∈ pre ∧ ∀ y ∈ pre, y.id ≤ x.id) := by
      rcases hcase with rfl | ⟨x, hx, hhead, hmax⟩
      · exact ⟨r, post, (append_cancel_left hrs).symm, Or.inl ⟨rfl, rfl⟩⟩
      · obtain ⟨tail, rfl⟩ := head?_eq_some_iff.mp hhead
        exact ⟨x, tail, rfl, Or.inr ⟨hx, hmax⟩⟩
    have hx : b.ld32 (recsSize pre0) = some x.id := by
      rw [hrs] at h
      exact h.ld32_id
    have hle : ∀ y ∈ pre ++ [r], y.id ≤ r.id := by
      intro y hy
      rcases mem_append.mp hy with hy | hy
      · exact h.ordered.cross y hy r (by simp)
      · rw [mem_singleton.mp hy]
    refine ⟨_, by simp only [rememberStart, hx, map_some]; rfl, by simp, ?_⟩
    by_cases hxr : x.id = r.id
    · rw [if_neg (by simpa using hxr)]
      refine ⟨pre0, x :: tail, hrs, rfl, hlt, Or.inr ⟨x, ?_, rfl, fun y hy => hxr ▸ hle y hy⟩⟩
      rcases hfrom with ⟨-, rfl⟩ | ⟨hxm, -⟩
      · simp
      · exact mem_append_left _ hxm
    · rw [if_pos hxr]
      refine ⟨pre, r :: post, rfl, rfl, ?_, Or.inr ⟨r, by simp, rfl, hle⟩⟩
      -- the id of `r` is new, so everything passed before is below it
      intro y hy
      rcases hfrom with ⟨rfl, -⟩ | ⟨hxm, hmax⟩
      · exact hlt y hy
      · have h1 := hmax y hy
        have h2 := h.ordered.cross x hxm r (by simp)
        omega

/-- One when the record ahead is an occurrence of the id. -/
def ahead (bfldid : Int) : List Rec → Int
  | [] => 0
  | r :: _ => if bfldid = r.id then 1 else 0

/-- Passing the record `r`: the cursor moves behind it, one occurrence further when the record
there has the id. At the end of the buffer only `p` stays. -/
theorem getFldLocLoop_pass (h : Layout b (pre ++ r :: post)) (hr : r.id ≤ bfldid)
    {c : LocCursor} (hp : c.p = recsSize pre)
    (hskip : bfldid ≠ r.id ∨ c.iocc < occ ∨ occ < -1)
    (hls : Remembered (pre ++ r :: post) pre bfldid c.lastStart) (fuel : ℕ) :
    ∃ c' : LocCursor, c'.p = recsSize (pre ++ [r]) ∧ c'.iocc = c.iocc+ahead bfldid post ∧
      (c'.lastStart = none ↔ c.lastStart = none) ∧
      Remembered (pre ++ r :: post) (pre ++ [r]) bfldid c'.lastStart ∧
      (post = [] → getFldLocLoop b bfldid occ (fuel+1) c = some (.eof, {c' with p := c.p})) ∧
      (post ≠ [] → getFldLocLoop b bfldid occ (fuel+1) c = getFldLocLoop b bfldid occ fuel c') := by
  obtain ⟨ls', hlast, hnone, hrem⟩ := remember_step h hr hls
  have hcond : (bfldid ≠ r.id ∨ bfldid = r.id ∧ (c.iocc < occ ∨ occ < -1)) ∧ r.id ≤ bfldid := by
    refine ⟨?_, hr⟩
    by_cases he : bfldid = r.id
    · exact Or.inr ⟨he, hskip.resolve_left (fun hne => hne he)⟩
    · exact Or.inl he
  have hnext : (recsSize pre:Int)+r.size = recsSize (pre ++ [r]) := by simp
  rw [getFldLocLoop]
  simp only [hp, h.eof_pre, h.ld32_id, bind_eq_bind, bind_some, if_pos hcond,
    Bool.false_eq_true, if_false, hlast]
  simp only [r.type_eq, h.pNext, bind_some, hnext]
  cases post with
  | nil =>
    rw [if_pos h.eof_end]
    exact ⟨⟨_, c.iocc, _, ls'⟩, rfl, (add_zero _).symm, hnone, hrem, fun _ => rfl, absurd rfl⟩
  | cons =>
    rw [← singleton_append, ← append_assoc] at h
    simp only [h.eof_pre, h.ld32_id, Bool.false_eq_true, if_false, bind_some, ahead]
    split
    · exact ⟨⟨_, _, _, ls'⟩, rfl, rfl, hnone, hrem, by simp, fun _ => rfl⟩
    · exact ⟨⟨_, _, _, ls'⟩, rfl, (add_zero _).symm, hnone, hrem, by simp, fun _ => rfl⟩

/-- How many of `n` occurrences a search for occurrence `occ` passes: it stops at the one asked
for, -1 stops at the first, and anything below -1 counts them all. -/
def passed (occ : Int) (n : ℕ) : ℕ := if occ < -1 then n else min occ.toNat n

/-- How the loop ends that passes `skip` of the records `rest` ahead, with `n` occurrences in all. -/
def LoopEnds (b : UBFH) (bfldid occ : Int) (pre rest skip : List Rec) (n fuel : ℕ) (c : LocCursor) :
    Prop :=
  ∃ c', getFldLocLoop b bfldid occ fuel c =
      some (if skip.length = rest.length then .eof else .stopped, c') ∧
    (skip.length ≠ rest.length → c'.p = recsSize (pre ++ skip)) ∧
    c'.iocc = (if passed occ n < n then (passed occ n:Int) else (n:Int)-1) ∧
    (c'.lastStart = none ↔ c.lastStart = none) ∧
    (∀ q, c'.lastStart = some q → StartOk (pre ++ rest) bfldid q)

theorem LoopEnds.stop (h : Layout b (pre ++ r :: post)) {c : LocCursor} (hp : c.p = recsSize pre)
    (hls : Remembered (pre ++ r :: post) pre bfldid c.lastStart) {n fuel : ℕ}
    (hc : ¬ ((bfldid ≠ r.id ∨ bfldid = r.id ∧ (c.iocc < occ ∨ occ < -1)) ∧ r.id ≤ bfldid))
    (hi : c.iocc = (if passed occ n < n then (passed occ n:Int) else (n:Int)-1)) :
    LoopEnds b bfldid occ pre (r :: post) [] n (fuel+1) c := by
  refine ⟨c, ?_, ?_, hi, Iff.rfl, hls.startOk⟩
  · rw [getFldLocLoop]
    simp [hp, h.eof_pre, h.ld32_id, if_neg hc]
  · intro _
    rw [hp, append_nil]

theorem LoopEnds.pass (h : Layout b (pre ++ r :: post)) (hr : r.id ≤ bfldid) {c : LocCursor}
    (hp : c.p = recsSize pre) (hskip : bfldid ≠ r.id ∨ c.iocc < occ ∨ occ < -1)
    (hls : Remembered (pre ++ r :: post) pre bfldid c.lastStart) {n fuel : ℕ} {skip : List Rec}
    (hgo : ∀ c' : LocCursor, c'.p = recsSize (pre ++ [r]) →
      c'.iocc = c.iocc+ahead bfldid post →
      Remembered ((pre ++ [r]) ++ post) (pre ++ [r]) bfldid c'.lastStart →
      LoopEnds b bfldid occ (pre ++ [r]) post skip n fuel c') :
    LoopEnds b bfldid occ pre (r :: post) (r :: skip) n (fuel+1) c := by
  obtain ⟨c1, hp1, hi1, hnone, hrem, hend, hnext⟩ := getFldLocLoop_pass h hr hp hskip hls fuel
  rw [← singleton_append, ← append_assoc] at hrem h
  obtain ⟨c', hc', hp', hic, hnone', hstart⟩ := hgo c1 hp1 hi1 hrem
  rw [append_assoc, singleton_append] at hstart
  by_cases hnil : post = []
  · subst hnil
    rw [append_nil] at h
    -- the loop behind the last record ends at once
    cases fuel with
    | zero => cases hc'
    | succ =>
      rw [getFldLocLoop, hp1, if_pos h.eof_end] at hc'
      obtain ⟨hs, rfl⟩ := Prod.mk.inj (some.inj hc')
      have hskip : skip = [] := by
        by_contra hne
        rw [length_nil, if_neg (mt length_eq_zero_iff.mp hne)] at hs
        cases hs
      exact ⟨{c1 with p := c.p}, by rw [hend rfl, hskip, if_pos rfl], by simp [hskip], hic, hnone, hstart⟩
  · refine ⟨c', (hnext hnil).trans (hc'.trans (by simp)), ?_, hic, hnone'.trans hnone, hstart⟩
    intro hne
    rw [hp' (by simpa using hne)]
    simp

theorem passed_le (occ : Int) (n : ℕ) : passed occ n ≤ n := by
  unfold passed
  split <;> omega

/-- The whole loop, by induction on the records ahead. `j` occurrences lie behind, `n` is their
number in all; the loop passes what is below `bfldid` and then occurrences up to `passed`. -/
theorem getFldLocLoop_spec (n j : ℕ) (c : LocCursor) (fuel : ℕ) (h : Layout b (pre ++ rest))
    (hn : n = j+(occs Rec.id bfldid rest).length) (hj : j ≤ passed occ n)
    (hp : c.p = recsSize pre)
    (hi : c.iocc = (j:Int)-1+ahead bfldid rest)
    (hls : Remembered (pre ++ rest) pre bfldid c.lastStart) (hf : rest.length < fuel) :
    LoopEnds b bfldid occ pre rest
      (below Rec.id bfldid rest ++ (occs Rec.id bfldid rest).take (passed occ n-j)) n fuel c := by
  obtain ⟨fuel, rfl⟩ : ∃ f, fuel = f+1 := ⟨fuel-1, by omega⟩
  induction rest generalizing pre j c fuel with
  | nil =>
    have hle := passed_le occ n
    have heof : b.eof c.p = true := by
      rw [hp]
      simpa using h.eof_end
    rw [occs_nil, length_nil] at hn
    refine ⟨c, by rw [getFldLocLoop, if_pos heof]; simp [below], by simp [below], ?_, Iff.rfl,
      hls.startOk⟩
    rw [if_neg (by omega), hi, hn, ahead]
    omega
  | cons r post ih =>
    have hpostle : ∀ y ∈ post, r.id ≤ y.id := (pairwise_cons.mp h.ordered.right).1
    have h' : Layout b ((pre ++ [r]) ++ post) := by simpa using h
    rw [length_cons] at hf
    obtain ⟨f, rfl⟩ : ∃ f, fuel = f+1 := ⟨fuel-1, by omega⟩
    rw [ahead] at hi
    rcases lt_trichotomy r.id bfldid with hlt | hid | hgt
    · have hb : below Rec.id bfldid (r :: post) = r :: below Rec.id bfldid post := by
        simp [below, hlt]
      rw [occs_cons, if_neg hlt.ne] at hn ⊢
      rw [if_neg hlt.ne'] at hi
      rw [hb]
      refine LoopEnds.pass h hlt.le hp (Or.inl hlt.ne') hls fun c' hp' hi' hls' => ?_
      exact ih j c' h' hn hj hp' (by omega) hls' f (by omega)
    · have hb : below Rec.id bfldid post = [] := below_eq_nil (fun y hy => hid ▸ hpostle y hy)
      have hb' : below Rec.id bfldid (r :: post) = [] := by
        simpa [below, hid] using hb
      rw [occs_cons, if_pos hid] at hn ⊢
      rw [length_cons] at hn
      rw [if_pos hid.symm] at hi
      rw [hb', nil_append]
      by_cases hjp : j < passed occ n
      · rw [show passed occ n-j = passed occ n-(j+1)+1 by omega, take_succ_cons]
        refine LoopEnds.pass h hid.le hp (Or.inr ?_) hls fun c' hp' hi' hls' => ?_
        · unfold passed at hjp
          split at hjp <;> omega
        · have hgo := ih (j+1) c' h' (by omega) hjp hp' (by omega) hls' f (by omega)
          rwa [hb] at hgo
      · -- the occurrence asked for
        rw [show passed occ n-j = 0 by omega, take_zero]
        refine LoopEnds.stop h hp hls ?_ (by rw [if_pos (by omega)]; omega)
        rintro ⟨_, -⟩
        unfold passed at hjp
        split at hjp <;> omega
    · -- past the id: nothing ahead can match
      have hab : ∀ y ∈ r :: post, bfldid < y.id :=
        forall_mem_cons.mpr ⟨hgt, fun y hy => hgt.trans_le (hpostle y hy)⟩
      rw [occs_eq_nil (fun y hy => (hab y hy).ne')] at hn ⊢
      rw [below_eq_nil (fun y hy => (hab y hy).le), take_nil, append_nil]
      rw [if_neg hgt.ne] at hi
      rw [length_nil] at hn
      exact LoopEnds.stop h hp hls (by omega) (by rw [if_neg (by omega)]; omega)

theorem passed_lt_iff {n : ℕ} (ho : 0 ≤ occ) : passed occ n < n ↔ occ < n := by
  unfold passed
  split <;> omega

theorem searchStart_none {t : FldType} (h : Layout b rs) (ht : fldType bfldid = some t)
    (hne : t ≠ .int ∧ t ≠ .rfu0) :
    ∃ q, searchStart b bfldid none = some q ∧ StartOk rs bfldid q := by
  have hcode := fldType_eq_some.mp ht
  by_cases hpos : bfldid/33554432 > 0
  · have hoff : ∃ off, b.hdr.cacheOff t = some off := by
      cases t <;> first | exact ⟨_, rfl⟩ | exact absurd rfl hne.1 | exact absurd rfl hne.2 |
        (simp [FldType.code] at hcode; omega)
    obtain ⟨off, hoff⟩ := hoff
    refine ⟨off, ?_, below Rec.code t.code rs, occs Rec.code t.code rs ++ above Rec.code t.code rs,
      ?_, h.cache t off hoff, ?_⟩
    · simp [searchStart, if_pos hpos, ht, hoff]
    · rw [← append_assoc, (ordered_code h.ordered).split]
    · intro y hy
      have hy := (mem_below.mp hy).2
      rw [y.code_eq] at hy
      omega
  · refine ⟨0, ?_, [], rs, rfl, rfl, by simp⟩
    simp only [searchStart, if_neg hpos]

theorem passed_eq {n : ℕ} (hlt : passed occ n < n) (ho : 0 ≤ occ) : (passed occ n:Int) = occ := by
  rw [passed, if_neg (by omega)] at hlt ⊢
  omega

/-- What the loop's end is turned into: the record it stands on is returned exactly when it is
the occurrence asked for. -/
theorem locResult_spec (h : Layout b (pre ++ rest)) {n k : ℕ}
    (hn : n = (occs Rec.id bfldid rest).length) (hk : k = passed occ n) {skip : List Rec}
    (hskip : skip = below Rec.id bfldid rest ++ (occs Rec.id bfldid rest).take k) {c : LocCursor}
    (hcp : skip.length ≠ rest.length → c.p = recsSize (pre ++ skip))
    (hci : c.iocc = if k < n then (k:Int) else (n:Int)-1) :
    ∃ loc, locResult b bfldid occ (if skip.length = rest.length then .eof else .stopped) c =
        some loc ∧ loc.lastChecked = some (recsSize (pre ++ skip) : Int) ∧ loc.lastOcc = c.iocc ∧
      loc.ret = (if 0 ≤ occ ∧ occ < n then loc.lastChecked else none) ∧ loc.err = none ∧
      loc.lastStart = c.lastStart := by
  have hko (ho : 0 ≤ occ) : k < n ↔ occ < n := hk ▸ passed_lt_iff ho
  have hrest : skip ++ ((occs Rec.id bfldid rest).drop k ++ above Rec.id bfldid rest) = rest := by
    rw [hskip, append_assoc, ← append_assoc (List.take k _), take_append_drop, ← append_assoc,
      h.ordered.right.split]
  cases htail : (occs Rec.id bfldid rest).drop k ++ above Rec.id bfldid rest with
  | nil =>
    -- everything ahead was passed
    rw [htail, append_nil] at hrest
    have hdrop := congrArg length (append_eq_nil_iff.mp htail).1
    rw [length_drop, length_nil] at hdrop
    rw [if_pos (by rw [hrest])]
    refine ⟨_, rfl, by rw [h.usedEnd, hrest], rfl, ?_, rfl, rfl⟩
    rw [if_neg (fun ho => absurd ((hko ho.1).mpr ho.2) (by omega))]
  | cons x tail =>
    rw [htail] at hrest
    have hlay : Layout b ((pre ++ skip) ++ x :: tail) := by
      rw [append_assoc, hrest]
      exact h
    have hne : skip.length ≠ rest.length := by
      rw [← hrest]
      simp
    have hty : fldType x.id ≠ none := by
      rw [x.type_eq]
      simp
    -- the loop stands on an occurrence exactly when it has not passed them all
    have hid : bfldid = x.id ↔ k < n := by
      constructor
      · intro he
        by_contra hge
        rw [drop_eq_nil_of_le (by omega), nil_append] at htail
        exact (mem_above.mp (htail ▸ mem_cons_self)).2.ne he
      · intro hlt
        rw [drop_eq_getElem_cons (by omega), cons_append] at htail
        rw [← (List.cons.inj htail).1]
        exact (mem_occs.mp (getElem_mem (by omega))).2.symm
    have hret : bfldid = x.id ∧ c.iocc = occ ↔ 0 ≤ occ ∧ occ < n := by
      rw [hid]
      constructor
      · rintro ⟨hlt, ho⟩
        rw [hci, if_pos hlt] at ho
        omega
      · intro ho
        have hlt := (hko ho.1).mpr ho.2
        exact ⟨hlt, by rw [hci, if_pos hlt, hk, passed_eq (hk ▸ hlt) ho.1]⟩
    rw [if_neg hne, locResult, hcp hne]
    simp only [hlay.ld32_id, bind_eq_bind, bind_some, hret, if_neg hty]
    split
    · exact ⟨_, rfl, rfl, rfl, rfl, rfl, rfl⟩
    · exact ⟨_, rfl, rfl, rfl, rfl, rfl, rfl⟩

theorem matchesAt_eq (bfldid : Int) (h : Layout b (pre ++ rest)) :
    ∃ m, matchesAt b bfldid (recsSize pre) = some m ∧ ahead bfldid rest = if m then 1 else 0 := by
  cases rest with
  | nil =>
    have heof : b.eof (recsSize pre) = true := by simpa using h.eof_end
    exact ⟨false, by rw [matchesAt, if_pos heof], rfl⟩
  | cons r =>
    exact ⟨decide (bfldid = r.id), by simp [matchesAt, h.eof_pre, h.ld32_id], by simp [ahead]⟩

/-- What `get_fld_loc` finds: the occurrence asked for if there is one, and otherwise the place
behind the id's occurrences. -/
theorem getFldLoc_spec (h : Layout b rs) {ls : Option Int} {q : Int}
    (hq : searchStart b bfldid ls = some q) (hstart : StartOk rs bfldid q) {n k : ℕ}
    (hn : n = (occs Rec.id bfldid rs).length) (hk : k = passed occ n) :
    ∃ loc, getFldLoc b bfldid occ ls = some loc ∧ loc.lastChecked =
        some (recsSize (below Rec.id bfldid rs ++ (occs Rec.id bfldid rs).take k) : Int) ∧
      loc.lastOcc = (if k < n then (k:Int) else (n:Int)-1) ∧
      loc.ret = (if 0 ≤ occ ∧ occ < n then loc.lastChecked else none) ∧ loc.err = none ∧
      (loc.lastStart = none ↔ ls = none) ∧
      (∀ q, loc.lastStart = some q → StartOk rs bfldid q) := by
  obtain ⟨pre, rest, rfl, rfl, hpre⟩ := hstart
  have hb : below Rec.id bfldid (pre ++ rest) = pre ++ below Rec.id bfldid rest := by
    rw [below_append, below_eq_self hpre]
  have ho : occs Rec.id bfldid (pre ++ rest) = occs Rec.id bfldid rest := by
    rw [occs_append, occs_eq_nil (fun y hy => (hpre y hy).ne), nil_append]
  rw [ho] at hn ⊢
  rw [hb]
  have hrem : Remembered (pre ++ rest) pre bfldid ls := by
    cases ls with
    | none => trivial
    | some => exact ⟨pre, rest, rfl, some.inj hq, hpre, Or.inl rfl⟩
  have hfuel : rest.length < b.mem.length+1 := by
    have h1 := h.size_le
    have h2 := length_le_recsSize (pre ++ rest)
    rw [length_append] at h2
    omega
  obtain ⟨m, hm, hahead⟩ := matchesAt_eq bfldid h
  obtain ⟨c, hc, hcp, hci, hnone, hstart⟩ := getFldLocLoop_spec n 0
    (if m then ⟨recsSize pre, 0, some (recsSize pre : Int), ls⟩ else ⟨recsSize pre, -1, none, ls⟩)
    (b.mem.length+1) h (hn.trans (Nat.zero_add _).symm) (Nat.zero_le (passed occ n)) (by split <;> rfl)
    (by rw [hahead]; split <;> rfl) (by split <;> exact hrem) hfuel
  rw [Nat.sub_zero, ← hk] at hc hcp
  rw [← hk] at hci
  obtain ⟨loc, hloc, hchk, hocc, hret, herr, hls⟩ := locResult_spec h hn hk rfl hcp hci
  rw [append_assoc]
  refine ⟨loc, ?_, hchk, hocc.trans hci, hret, herr, ?_, fun q hq => hstart q (hls ▸ hq)⟩
  · simp only [getFldLoc, hq, hm, bind_eq_bind, bind_some, hc, hloc]
  · rw [hls, hnone]
    split <;> rfl

end Endurox.UBF
