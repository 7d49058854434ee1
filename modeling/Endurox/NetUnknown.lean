import Endurox.NetDecode

/-! Records that the receiver does not know, put into a message: the decoder passes over them, and
does the same to the structures and buffers as without them. -/

namespace Endurox.NetProto

open Base Base.Tlv List

/-! A part of a message: the records of a table, one entry of a master buffer with the record that
ends it, or all its entries. -/

inductive Scope
  | records (t : List Cproto)
  | entry
  | masterBuf

def Scope.table : Scope → Option (List Cproto)
  | .records t => some t
  | .entry => some mbufTlvX
  | .masterBuf => none

structure Framed (tag : ℕ) (body : List UInt8) : Prop where
  tag_lt : tag < 65536
  body_lt : body.length < 2147483648

/-- The second message is the first with records put in whose tags the table around them does not
have, before, between and behind the records, on any level. The records around them are longer
then, and still pass the check of their length. -/
inductive Inserted (msgsizemax : Int) : Scope → Ctl → List UInt8 → List UInt8 → Prop
  | same (t : List Cproto) (c : Ctl) (bs : List UInt8) : Inserted msgsizemax (.records t) c bs bs
  | unknown {s : Scope} {t : List Cproto} {c : Ctl} {tag : ℕ} {body bs bs' : List UInt8}
      (table : s.table = some t) (framed : Framed tag body)
      (find : getDescrFromTag t (wrap 32768 tag) = none) (rest : Inserted msgsizemax s c bs bs') :
      Inserted msgsizemax s c bs (frame tag body ++ bs')
  | known {s : Scope} {t : List Cproto} {c : Ctl} {tag : ℕ} {fld : Cproto} {body bs bs' : List UInt8}
      (table : s.table = some t) (framed : Framed tag body)
      (find : getDescrFromTag t (wrap 32768 tag) = some fld) (go : fld.last = false)
      (rest : Inserted msgsizemax s (c.note fld body) bs bs') :
      Inserted msgsizemax s c (frame tag body ++ bs) (frame tag body ++ bs')
  | inside {s : Scope} {t t' : List Cproto} {c c' : Ctl} {fb : Bool} {tag : ℕ} {fld : Cproto}
      {body body' bs bs' : List UInt8} (table : s.table = some t) (framed : Framed tag body)
      (framed' : Framed tag body') (find : getDescrFromTag t (wrap 32768 tag) = some fld)
      (go : fld.last = false) (content : contentOf fld c = .table t' c' fb)
      (check : exprotoCklen msgsizemax fld body' = true)
      (inner : Inserted msgsizemax (.records t') c' body body') (rest : Inserted msgsizemax s c bs bs') :
      Inserted msgsizemax s c (frame tag body ++ bs) (frame tag body' ++ bs')
  | insideMasterBuf {s : Scope} {t : List Cproto} {c : Ctl} {tag : ℕ} {fld : Cproto}
      {body body' bs bs' : List UInt8} (table : s.table = some t) (framed : Framed tag body)
      (framed' : Framed tag body') (find : getDescrFromTag t (wrap 32768 tag) = some fld)
      (go : fld.last = false) (content : contentOf fld c = .masterBuf)
      (check : exprotoCklen msgsizemax fld body' = true)
      (inner : Inserted msgsizemax .masterBuf c body body') (rest : Inserted msgsizemax s c bs bs') :
      Inserted msgsizemax s c (frame tag body ++ bs) (frame tag body' ++ bs')
  | last {c : Ctl} {tag : ℕ} {fld : Cproto} {body : List UInt8} (framed : Framed tag body)
      (find : getDescrFromTag mbufTlvX (wrap 32768 tag) = some fld) (stop : fld.last = true) :
      Inserted msgsizemax .entry c (frame tag body) (frame tag body)
  | lastInside {t' : List Cproto} {c c' : Ctl} {fb : Bool} {tag : ℕ} {fld : Cproto}
      {body body' : List UInt8} (framed : Framed tag body) (framed' : Framed tag body')
      (find : getDescrFromTag mbufTlvX (wrap 32768 tag) = some fld) (stop : fld.last = true)
      (content : contentOf fld c = .table t' c' fb)
      (check : exprotoCklen msgsizemax fld body' = true)
      (inner : Inserted msgsizemax (.records t') c' body body') :
      Inserted msgsizemax .entry c (frame tag body) (frame tag body')
  | noEntry (c : Ctl) : Inserted msgsizemax .masterBuf c [] []
  /-- The tag that memory has where the entry goes is not known beforehand. -/
  | entries {c : Ctl} {e e' bs bs' : List UInt8}
      (entry : ∀ tag, Inserted msgsizemax .entry {c with tag := tag} e e')
      (rest : Inserted msgsizemax .masterBuf c bs bs') :
      Inserted msgsizemax .masterBuf c (e ++ bs) (e' ++ bs')

variable {ρ : Type} {S : Side ρ}

theorem run_eq_ok {a : Action} {x y : ρ} : (S.run a x).result = .ok y ↔ S.act a x = .ok y := by
  rw [Side.run, Run.lift]
  cases S.act a x <;> simp [Except.mapError]

theorem result_bind_eq_ok {α β : Type} {x : Run Event Halt α} {f : α → Run Event Halt β} {b : β} :
    (x.bind f).result = .ok b ↔ ∃ a, x.result = .ok a ∧ (f a).result = .ok b := by
  rw [Run.result_bind]
  exact bind_eq_ok

section

variable {inner : Bool → List Cproto → Ctl → List UInt8 → ρ → Run Event Halt (ℕ × ρ)} {n : ℕ}
  {fb : Bool} {tag : Int} {fld : Cproto} {c : Ctl} {value : List UInt8} {x y : ρ}

theorem content_table_ok {t : List Cproto} {c' : Ctl} {fb' : Bool}
    (hc : contentOf fld c = .table t c' fb') :
    (content S inner n fb tag fld c value x).result = .ok y ↔
      ∃ x1, S.act (.enter fld) x = .ok x1 ∧ ∃ r, (inner fb' t c' value x1).result = .ok r ∧
        S.act (.leave fld c.bfldid) r.2 = .ok y := by
  simp only [content, hc, result_bind_eq_ok, run_eq_ok]

theorem content_masterBuf_ok (hc : contentOf fld c = .masterBuf) :
    (content S inner n fb tag fld c value x).result = .ok y ↔
      ∃ x1, S.act (.enter fld) x = .ok x1 ∧ ∃ x2, (roundsProto2ex S inner n c value x1).result = .ok x2 ∧
        S.act (.leave fld c.bfldid) x2 = .ok y := by
  simp [content, hc, result_bind_eq_ok, run_eq_ok]

theorem rounds_succ_ok {w : List UInt8} :
    (roundsProto2ex S inner (n+1) c w x).result = .ok y ↔
      ∃ r z, (inner false mbufTlvX {c with tag := S.tagAt (S.entry x)} w (S.entry x)).result = .ok r ∧
        S.act .entryEnd r.2 = .ok z ∧
        (if r.1 < w.length then roundsProto2ex S inner n c (w.drop r.1) z else .pure z).result = .ok y := by
  show (Run.bind _ _).result = _ ↔ _
  rw [result_bind_eq_ok]
  constructor
  · rintro ⟨r, h1, h2⟩
    obtain ⟨z, hz, h3⟩ := result_bind_eq_ok.mp h2
    exact ⟨r, z, h1, run_eq_ok.mp hz, h3⟩
  · rintro ⟨r, z, h1, h2, h3⟩
    exact ⟨r, h1, result_bind_eq_ok.mpr ⟨z, run_eq_ok.mpr h2, h3⟩⟩

end

def Extends (inner inner' : Bool → List Cproto → Ctl → List UInt8 → ρ → Run Event Halt (ℕ × ρ)) : Prop :=
  ∀ fb t c w x r, (inner fb t c w x).result = .ok r → (inner' fb t c w x).result = .ok r

section

variable {inner inner' : Bool → List Cproto → Ctl → List UInt8 → ρ → Run Event Halt (ℕ × ρ)}
  (hext : Extends inner inner') {n m : ℕ} {c : Ctl}
include hext

theorem roundsProto2ex_mono (hnm : n ≤ m) {w : List UInt8} {x y : ρ}
    (h : (roundsProto2ex S inner n c w x).result = .ok y) :
    (roundsProto2ex S inner' m c w x).result = .ok y := by
  induction n generalizing m w x with
  | zero => cases h
  | succ n ih =>
    obtain ⟨m, rfl⟩ : ∃ k, m = k+1 := ⟨m-1, by omega⟩
    obtain ⟨r, z, h1, h2, h3⟩ := rounds_succ_ok.mp h
    refine rounds_succ_ok.mpr ⟨r, z, hext _ _ _ _ _ _ h1, h2, ?_⟩
    split_ifs at h3 ⊢
    · exact ih (by omega) h3
    · exact h3

theorem content_mono (hnm : n ≤ m) {fb : Bool} {tag : Int} {fld : Cproto} {value : List UInt8} {x y : ρ}
    (h : (content S inner n fb tag fld c value x).result = .ok y) :
    (content S inner' m fb tag fld c value x).result = .ok y := by
  cases hc : contentOf fld c with
  | table =>
    obtain ⟨x1, h1, r, h2, h3⟩ := (content_table_ok hc).mp h
    exact (content_table_ok hc).mpr ⟨x1, h1, r, hext _ _ _ _ _ _ h2, h3⟩
  | masterBuf =>
    obtain ⟨x1, h1, x2, h2, h3⟩ := (content_masterBuf_ok hc).mp h
    exact (content_masterBuf_ok hc).mpr ⟨x1, h1, x2, roundsProto2ex_mono hext hnm h2, h3⟩
  | view =>
    simp only [content, hc, result_bind_eq_ok] at h ⊢
    obtain ⟨x1, h1, r, h2, x2, h3, r', h4, h5⟩ := h
    exact ⟨x1, h1, r, hext _ _ _ _ _ _ h2, x2, h3, r', hext _ _ _ _ _ _ h4, h5⟩
  | _ =>
    simp only [content, hc] at h ⊢
    exact h

end

theorem tableProto2ex_mono {n m : ℕ} (hnm : n ≤ m) :
    Extends (tableProto2ex S n) (tableProto2ex S m) := by
  induction n generalizing m with
  | zero =>
    intro fb t c w x r h
    rw [tableProto2ex] at h
    split at h
    · next hw =>
      rw [tableProto2ex_short m fb t c w x hw]
      exact h
    · cases h
  | succ n ih =>
    obtain ⟨m, rfl⟩ : ∃ k, m = k+1 := ⟨m-1, by omega⟩
    have hext := ih (show n ≤ m by omega)
    intro fb t c w x r h
    rw [tableProto2ex] at h ⊢
    by_cases hw : w.length < 6
    · rw [if_pos hw] at h ⊢
      exact h
    rw [if_neg hw] at h ⊢
    by_cases hbad : netLen w < 0 ∨ (w.length:Int)-6 < netLen w
    · rw [if_pos hbad] at h
      cases h
    rw [if_neg hbad] at h ⊢
    cases hfind : getDescrFromTag t (netTag w) with
    | none =>
      simp only [hfind] at h ⊢
      obtain ⟨a, ha, rfl⟩ := map_eq_ok.mp h
      exact map_eq_ok.mpr ⟨a, hext _ _ _ _ _ _ ha, rfl⟩
    | some fld =>
      simp only [hfind] at h ⊢
      by_cases hck : (!exprotoCklen S.msgsizemax fld ((w.drop 6).take (netLen w).toNat)) = true
      · rw [if_pos hck] at h
        cases h
      rw [if_neg hck] at h ⊢
      obtain ⟨z, hz, h⟩ := result_bind_eq_ok.mp h
      refine result_bind_eq_ok.mpr ⟨z, content_mono hext (by omega) hz, ?_⟩
      split_ifs at h ⊢
      · exact h
      · obtain ⟨a, ha, rfl⟩ := map_eq_ok.mp h
        exact map_eq_ok.mpr ⟨a, hext _ _ _ _ _ _ ha, rfl⟩

def Reads (S : Side ρ) (fb : Bool) (t : List Cproto) (c : Ctl) (w : List UInt8) (x : ρ) (k : ℕ)
    (y : ρ) : Prop :=
  ∃ n, (tableProto2ex S n fb t c w x).result = .ok (k, y)

def Stores (S : Side ρ) (fb : Bool) (tag : Int) (fld : Cproto) (c : Ctl) (value : List UInt8)
    (x y : ρ) : Prop :=
  ∃ n, (content S (tableProto2ex S n) n fb tag fld c value x).result = .ok y

def ReadsEntries (S : Side ρ) (c : Ctl) (w : List UInt8) (x y : ρ) : Prop :=
  ∃ n, (roundsProto2ex S (tableProto2ex S n) n c w x).result = .ok y

section

variable {fb : Bool} {t : List Cproto} {c : Ctl} {x y : ρ} {k tag : ℕ} {body bs : List UInt8}

theorem reads_unknown (hf : Framed tag body) (hfind : getDescrFromTag t (wrap 32768 tag) = none) :
    Reads S fb t c (frame tag body ++ bs) x k y ↔
      ∃ k', k = 6+body.length+k' ∧ Reads S fb t c bs x k' y := by
  constructor
  · rintro ⟨n, h⟩
    cases n with
    | zero =>
      cases h
    | succ n =>
      rw [tableProto2ex_unknown hf.tag_lt hf.body_lt hfind] at h
      obtain ⟨a, ha, he⟩ := map_eq_ok.mp h
      cases he
      exact ⟨a.1, rfl, n, ha⟩
  · rintro ⟨_, hk, n, h⟩
    refine ⟨n+1, ?_⟩
    rw [tableProto2ex_unknown hf.tag_lt hf.body_lt hfind]
    exact map_eq_ok.mpr ⟨_, h, by rw [hk]⟩

variable {fld : Cproto}

/-- A record with a known tag is checked, stored and then left behind. -/
theorem reads_known (hf : Framed tag body) (hfind : getDescrFromTag t (wrap 32768 tag) = some fld) :
    Reads S fb t c (frame tag body ++ bs) x k y ↔ exprotoCklen S.msgsizemax fld body = true ∧
        ∃ z, Stores S fb (wrap 32768 tag) fld c body x z ∧
          (fld.last = true ∧ k = 6+body.length ∧ y = z ∨
            fld.last = false ∧ ∃ k', k = 6+body.length+k' ∧ Reads S fb t (c.note fld body) bs z k' y) := by
  constructor
  · rintro ⟨n, h⟩
    cases n with
    | zero =>
      cases h
    | succ n =>
      rw [tableProto2ex_checked hf.tag_lt hf.body_lt hfind] at h
      cases hck : exprotoCklen S.msgsizemax fld body with
      | false =>
        rw [hck] at h
        cases h
      | true =>
        rw [hck] at h
        obtain ⟨z, hz, h⟩ := result_bind_eq_ok.mp h
        refine ⟨rfl, z, ⟨n, hz⟩, ?_⟩
        cases hlast : fld.last with
        | true =>
          rw [hlast] at h
          cases h
          exact .inl ⟨rfl, rfl, rfl⟩
        | false =>
          rw [hlast] at h
          obtain ⟨a, ha, he⟩ := map_eq_ok.mp h
          cases he
          exact .inr ⟨rfl, a.1, rfl, n, ha⟩
  · rintro ⟨hck, z, ⟨n, hz⟩, h⟩
    rcases h with ⟨hlast, hk, rfl⟩ | ⟨hlast, _, hk, m, h⟩
    · refine ⟨n+1, ?_⟩
      rw [tableProto2ex_known hf.tag_lt hf.body_lt hfind hck]
      refine result_bind_eq_ok.mpr ⟨y, hz, ?_⟩
      rw [hlast, hk]
      rfl
    · refine ⟨max n m+1, ?_⟩
      rw [tableProto2ex_known hf.tag_lt hf.body_lt hfind hck]
      refine result_bind_eq_ok.mpr
        ⟨z, content_mono (tableProto2ex_mono (le_max_left n m)) (le_max_left n m) hz, ?_⟩
      rw [hlast]
      exact map_eq_ok.mpr ⟨_, tableProto2ex_mono (le_max_right n m) _ _ _ _ _ _ h, by rw [hk]⟩

theorem stores_table {tag : Int} {t' : List Cproto} {c' : Ctl} {fb' : Bool}
    (hc : contentOf fld c = .table t' c' fb') : Stores S fb tag fld c body x y ↔
      ∃ x1 k z, S.act (.enter fld) x = .ok x1 ∧ Reads S fb' t' c' body x1 k z ∧
        S.act (.leave fld c.bfldid) z = .ok y := by
  constructor
  · rintro ⟨n, h⟩
    obtain ⟨x1, h1, r, h2, h3⟩ := (content_table_ok hc).mp h
    exact ⟨x1, r.1, r.2, h1, ⟨n, h2⟩, h3⟩
  · rintro ⟨x1, k, z, h1, ⟨n, h2⟩, h3⟩
    exact ⟨n, (content_table_ok hc).mpr ⟨x1, h1, (k, z), h2, h3⟩⟩

theorem stores_masterBuf {tag : Int} (hc : contentOf fld c = .masterBuf) :
    Stores S fb tag fld c body x y ↔
      ∃ x1 x2, S.act (.enter fld) x = .ok x1 ∧ ReadsEntries S c body x1 x2 ∧
        S.act (.leave fld c.bfldid) x2 = .ok y := by
  constructor
  · rintro ⟨n, h⟩
    obtain ⟨x1, h1, x2, h2, h3⟩ := (content_masterBuf_ok hc).mp h
    exact ⟨x1, x2, h1, ⟨n, h2⟩, h3⟩
  · rintro ⟨x1, x2, h1, ⟨n, h2⟩, h3⟩
    exact ⟨n, (content_masterBuf_ok hc).mpr ⟨x1, h1, x2, h2, h3⟩⟩

theorem readsEntries_iff {w : List UInt8} :
    ReadsEntries S c w x y ↔
      ∃ k z z', Reads S false mbufTlvX {c with tag := S.tagAt (S.entry x)} w (S.entry x) k z ∧
        S.act .entryEnd z = .ok z' ∧
        (k < w.length ∧ ReadsEntries S c (w.drop k) z' y ∨ ¬k < w.length ∧ z' = y) := by
  constructor
  · rintro ⟨n, h⟩
    cases n with
    | zero => cases h
    | succ n =>
      obtain ⟨r, z, h1, h2, h3⟩ := rounds_succ_ok.mp h
      refine ⟨r.1, r.2, z, ⟨n+1, h1⟩, h2, ?_⟩
      by_cases hmore : r.1 < w.length
      · rw [if_pos hmore] at h3
        exact .inl ⟨hmore, n+1, roundsProto2ex_mono (tableProto2ex_mono (le_refl _)) (by omega) h3⟩
      · rw [if_neg hmore] at h3
        cases h3
        exact .inr ⟨hmore, rfl⟩
  · rintro ⟨k, z, z', ⟨n, h1⟩, h2, h3⟩
    rcases h3 with ⟨hmore, m, h3⟩ | ⟨hmore, rfl⟩
    · refine ⟨max n m+1, rounds_succ_ok.mpr
        ⟨(k, z), z', tableProto2ex_mono (by omega) _ _ _ _ _ _ h1, h2, ?_⟩⟩
      rw [if_pos hmore]
      exact roundsProto2ex_mono (tableProto2ex_mono (by omega)) (by omega) h3
    · refine ⟨n+1, rounds_succ_ok.mpr
        ⟨(k, z), z', tableProto2ex_mono (by omega) _ _ _ _ _ _ h1, h2, ?_⟩⟩
      rw [if_neg hmore]
      rfl

end

def Scope.Tail : Scope → List UInt8 → Prop
  | .records _, tail => tail = []
  | _, _ => True

def Scope.Done : Scope → List UInt8 → ℕ → Prop
  | .entry, bs, k => k = bs.length
  | _, _, _ => True

variable {s : Scope} {bs : List UInt8}

theorem Scope.Done.cons {k : ℕ} (h : s.Done bs k) (tag : ℕ) (body : List UInt8) :
    s.Done (frame tag body ++ bs) (6+body.length+k) := by
  cases s with
  | entry =>
    obtain rfl : k = bs.length := h
    show _ = (frame tag body ++ bs).length
    rw [length_append, frame_length]
  | _ => trivial

def Transparent (S : Side ρ) (s : Scope) (c : Ctl) (bs bs' : List UInt8) : Prop :=
  match s.table with
  | some t => ∀ fb x k y tail, s.Tail tail → Reads S fb t c (bs ++ tail) x k y →
      s.Done bs k ∧ ∀ tail', s.Tail tail' → ∃ k', s.Done bs' k' ∧ Reads S fb t c (bs' ++ tail') x k' y
  | none => ∀ x y, ReadsEntries S c bs x y → ReadsEntries S c bs' x y

variable {bs' body : List UInt8} {c : Ctl} {t : List Cproto} {tag : ℕ}

theorem Transparent.unknown (ht : s.table = some t) (hf : Framed tag body)
    (hfind : getDescrFromTag t (wrap 32768 tag) = none) (h : Transparent S s c bs bs') :
    Transparent S s c bs (frame tag body ++ bs') := by
  simp only [Transparent, ht] at h ⊢
  intro fb x k y tail htail hread
  obtain ⟨hdone, hrest⟩ := h fb x k y tail htail hread
  refine ⟨hdone, fun tail' htail' => ?_⟩
  obtain ⟨k', hdone', hread'⟩ := hrest tail' htail'
  refine ⟨_, hdone'.cons tag body, ?_⟩
  rw [append_assoc]
  exact (reads_unknown hf hfind).mpr ⟨k', rfl, hread'⟩

variable {body' : List UInt8} {fld : Cproto}

/-- A record that does what another does: where the one is taken, the other is. -/
structure Replaces (S : Side ρ) (tag : ℕ) (fld : Cproto) (c : Ctl) (body body' : List UInt8) : Prop where
  framed : Framed tag body
  framed' : Framed tag body'
  check : exprotoCklen S.msgsizemax fld body = true → exprotoCklen S.msgsizemax fld body' = true
  note : c.note fld body' = c.note fld body
  stores : ∀ fb x z, Stores S fb (wrap 32768 tag) fld c body x z →
    Stores S fb (wrap 32768 tag) fld c body' x z

theorem Replaces.refl (hf : Framed tag body) : Replaces S tag fld c body body :=
  ⟨hf, hf, fun h => h, rfl, fun _ _ _ h => h⟩

theorem Transparent.known (ht : s.table = some t) (hr : Replaces S tag fld c body body')
    (hfind : getDescrFromTag t (wrap 32768 tag) = some fld) (hgo : fld.last = false)
    (h : Transparent S s (c.note fld body) bs bs') :
    Transparent S s c (frame tag body ++ bs) (frame tag body' ++ bs') := by
  simp only [Transparent, ht] at h ⊢
  intro fb x k y tail htail hread
  rw [append_assoc] at hread
  obtain ⟨hcheck, z, hz, hnext⟩ := (reads_known hr.framed hfind).mp hread
  rcases hnext with ⟨hlast, -⟩ | ⟨-, k', rfl, hnext⟩
  · rw [hgo] at hlast
    cases hlast
  obtain ⟨hdone, hrest⟩ := h fb z k' y tail htail hnext
  refine ⟨hdone.cons tag body, fun tail' htail' => ?_⟩
  obtain ⟨k'', hdone', hread'⟩ := hrest tail' htail'
  refine ⟨_, hdone'.cons tag body', ?_⟩
  rw [append_assoc]
  rw [← hr.note] at hread'
  exact (reads_known hr.framed' hfind).mpr
    ⟨hr.check hcheck, z, hr.stores fb x z hz, .inr ⟨hgo, k'', rfl, hread'⟩⟩

theorem Transparent.last (hr : Replaces S tag fld c body body')
    (hfind : getDescrFromTag mbufTlvX (wrap 32768 tag) = some fld) (hstop : fld.last = true) :
    Transparent S .entry c (frame tag body) (frame tag body') := by
  intro fb x k y tail _ hread
  obtain ⟨hcheck, _, hz, hread⟩ := (reads_known hr.framed hfind).mp hread
  rcases hread with ⟨-, rfl, rfl⟩ | ⟨hgo, -⟩
  · refine ⟨(frame_length tag body).symm, fun tail' _ => ⟨6+body'.length, ?_, ?_⟩⟩
    · exact (frame_length tag body').symm
    · exact (reads_known hr.framed' hfind).mpr
        ⟨hr.check hcheck, y, hr.stores fb x y hz, .inl ⟨hstop, rfl, rfl⟩⟩
  · rw [hstop] at hgo
    cases hgo

theorem Transparent.stores_inside {t' : List Cproto} {c' : Ctl} {fb' : Bool} {tag : Int}
    (hc : contentOf fld c = .table t' c' fb') (h : Transparent S (.records t') c' body body')
    (fb : Bool) (x z : ρ) (hs : Stores S fb tag fld c body x z) :
    Stores S fb tag fld c body' x z := by
  obtain ⟨x1, k, y, h1, _, h3⟩ := (stores_table hc).mp hs
  obtain ⟨-, hrest⟩ := h fb' x1 k y [] rfl (by rwa [append_nil])
  obtain ⟨k', -, hread⟩ := hrest [] rfl
  rw [append_nil] at hread
  exact (stores_table hc).mpr ⟨x1, k', y, h1, hread, h3⟩

theorem Transparent.stores_masterBuf {tag : Int} (hc : contentOf fld c = .masterBuf)
    (h : Transparent S .masterBuf c body body') (fb : Bool) (x z : ρ)
    (hs : Stores S fb tag fld c body x z) : Stores S fb tag fld c body' x z := by
  obtain ⟨x1, x2, h1, h2, h3⟩ := (NetProto.stores_masterBuf hc).mp hs
  exact (NetProto.stores_masterBuf hc).mpr ⟨x1, x2, h1, h x1 x2 h2, h3⟩

theorem Transparent.entries {e e' : List UInt8}
    (hentry : ∀ tag, Transparent S .entry {c with tag := tag} e e') (hbs : bs = [] ↔ bs' = [])
    (h : Transparent S .masterBuf c bs bs') : Transparent S .masterBuf c (e ++ bs) (e' ++ bs') := by
  intro x y hread
  obtain ⟨k, z, z', h1, h2, h3⟩ := readsEntries_iff.mp hread
  have he := hentry (S.tagAt (S.entry x))
  obtain ⟨hk, hrest⟩ := he false (S.entry x) k z bs trivial h1
  obtain ⟨k', hk', hread'⟩ := hrest bs' trivial
  obtain rfl : k = e.length := hk
  obtain rfl : k' = e'.length := hk'
  refine readsEntries_iff.mpr ⟨e'.length, z, z', hread', h2, ?_⟩
  rw [length_append, drop_left] at h3 ⊢
  rcases h3 with ⟨hmore, h3⟩ | ⟨hmore, rfl⟩
  · have hne : bs' ≠ [] := fun hnil => by
      rw [hbs.mpr hnil, length_nil] at hmore
      omega
    exact .inl ⟨by have := length_pos_iff.mpr hne; omega, h z' y h3⟩
  · have hnil : bs = [] := length_eq_zero_iff.mp (by omega)
    rw [hbs.mp hnil]
    exact .inr ⟨by rw [length_nil]; omega, rfl⟩

theorem note_of_content (hc : contentOf fld c ≠ .value) (value : List UInt8) :
    c.note fld value = c := by
  rw [Ctl.note, if_pos]
  intro hty
  exact hc (by rw [contentOf, hty])

theorem frame_append_ne_nil (tag : ℕ) (body bs : List UInt8) : frame tag body ++ bs ≠ [] := by
  apply ne_nil_of_length_pos
  rw [length_append, frame_length]
  omega

theorem inserted_entry_ne_nil {m : Int} {e e' : List UInt8} (h : Inserted m .entry c e e') :
    e ≠ [] ∧ e' ≠ [] := by
  generalize hs : Scope.entry = s at h
  induction h with
  | same => cases hs
  | unknown _ _ _ _ ih => exact ⟨(ih hs).1, frame_append_ne_nil _ _ _⟩
  | last | lastInside =>
    have hne := frame_append_ne_nil
    exact ⟨fun h => hne _ _ [] (by rw [h]; rfl), fun h => hne _ _ [] (by rw [h]; rfl)⟩
  | noEntry => cases hs
  | entries => cases hs
  | _ => exact ⟨frame_append_ne_nil _ _ _, frame_append_ne_nil _ _ _⟩

theorem inserted_masterBuf_nil {m : Int} (h : Inserted m .masterBuf c bs bs') :
    bs = [] ↔ bs' = [] := by
  cases h with
  | noEntry => exact Iff.rfl
  | entries entry =>
    obtain ⟨hne, hne'⟩ := inserted_entry_ne_nil (entry 0)
    simp [hne, hne']
  | unknown table | known table | inside table | insideMasterBuf table => cases table

/-- A message with unknown records put in is read like the one without. -/
theorem inserted_transparent (h : Inserted S.msgsizemax s c bs bs') : Transparent S s c bs bs' := by
  induction h with
  | same =>
    intro fb x k y tail htail hread
    obtain rfl : tail = [] := htail
    refine ⟨trivial, fun tail' htail' => ?_⟩
    obtain rfl : tail' = [] := htail'
    exact ⟨k, trivial, hread⟩
  | unknown table framed find _ ih => exact ih.unknown table framed find
  | known table framed find go _ ih =>
    exact Transparent.known table (.refl framed) find go ih
  | inside table framed framed' find go content check _ _ ihinner ihrest =>
    have hnote := note_of_content (by rw [content]; nofun)
    rw [← hnote] at ihrest
    exact Transparent.known table ⟨framed, framed', fun _ => check, by rw [hnote, hnote],
      ihinner.stores_inside content⟩ find go ihrest
  | insideMasterBuf table framed framed' find go content check _ _ ihinner ihrest =>
    have hnote := note_of_content (by rw [content]; nofun)
    rw [← hnote] at ihrest
    exact Transparent.known table ⟨framed, framed', fun _ => check, by rw [hnote, hnote],
      ihinner.stores_masterBuf content⟩ find go ihrest
  | last framed find stop =>
    exact Transparent.last (.refl framed) find stop
  | lastInside framed framed' find stop content check _ ih =>
    have hnote := note_of_content (by rw [content]; nofun)
    exact Transparent.last ⟨framed, framed', fun _ => check, by rw [hnote, hnote],
      ih.stores_inside content⟩ find stop
  | noEntry => exact fun x y h => h
  | entries _ rest ihentry ihrest =>
    exact Transparent.entries ihentry (inserted_masterBuf_nil rest) ihrest

def Decodes (S : Side ρ) (c : Ctl) (msg : List UInt8) (x y : ρ) : Prop :=
  ∃ n, ∀ m ≥ n, ∃ k, (exprotoProto2ex S m c msg x).result = .ok (k, y)

theorem decodes_iff {msg : List UInt8} {x y : ρ} :
    Decodes S c msg x y ↔ ∃ k, Reads S false cmdBrNetCallX c msg x k y := by
  constructor
  · rintro ⟨n, h⟩
    obtain ⟨k, hk⟩ := h n (le_refl n)
    exact ⟨k, n, hk⟩
  · rintro ⟨k, n, h⟩
    exact ⟨n, fun m hm => ⟨k, tableProto2ex_mono hm _ _ _ _ _ _ h⟩⟩

/-- Unknown records change nothing. -/
theorem unknown_records_transparent {ρ : Type} {S : Side ρ} {c : Ctl} {msg msg' : List UInt8} {x y : ρ}
    (hins : Inserted S.msgsizemax (.records cmdBrNetCallX) c msg msg') (hdec : Decodes S c msg x y) :
    Decodes S c msg' x y := by
  obtain ⟨k, _⟩ := decodes_iff.mp hdec
  have h := inserted_transparent hins
  obtain ⟨-, hrest⟩ := h false x k y [] rfl (by rwa [append_nil])
  obtain ⟨k', -, hread'⟩ := hrest [] rfl
  rw [append_nil] at hread'
  exact decodes_iff.mpr ⟨k', hread'⟩

def countSide : Side ℕ where
  msgsizemax := 65552
  act _ x := .ok (x+1)
  entry := id
  tagAt x := x

def sampleEntry (junk : List UInt8) : List UInt8 :=
  junk ++ (frame 0x132F [0] ++ (junk ++ frame 0x1343
    (junk ++ (frame 0x10FF [0x03, 0x35, 0x54, 0x43, 0x21] ++ (junk ++ (frame 0x1153
      (frame 0x10FF [0x01, 0x01] ++ (frame 0x1113 [0x50] ++ junk)) ++ junk))))))

def sampleCall (junk behind : List UInt8) : List UInt8 :=
  junk ++ (frame 0x100F [65] ++ (frame 0x102D (junk ++ (frame 0x11F9 (sampleEntry junk ++ behind) ++ junk)) ++ junk))

theorem intAfter_uint {value : List UInt8} {digits : List Char} {sign : Char} {m : Int}
    (hdigits : nettocDigits .uint value = some (digits, sign)) (hscan : scanInt false digits = some m)
    (old : Int) : intAfter .uint old value = leNat (intBytes 4 m) := by
  have hlen (z : Int) : (intBytes 4 z).length = 4 := leBytes_length 4 _
  have hread : nettocInt .uint value (intBytes 4 old) 4 = .ok (intBytes 4 m, 0) := by
    have hstored : storedInt .uint digits sign (intBytes 4 old) = m := by
      rw [storedInt, show ExfType.uint.signed = false from rfl, hscan]
      rfl
    rw [nettocInt, hdigits]
    dsimp only
    rw [hstored]
    rfl
  rw [intAfter, hread]
  show (leNat ((intBytes 4 m).take 4) : Int) = _
  rw [take_of_length_le (by rw [hlen])]

def sampleJunk : List UInt8 := frame 0x2000 [7]

theorem sampleJunk_framed : Framed 0x2000 [7] := ⟨by decide, by decide⟩

theorem sampleEntry_inserted (tag : ℕ) :
    Inserted 65552 .entry ⟨65, 0, tag, 0⟩ (sampleEntry []) (sampleEntry sampleJunk) := by
  have htag : getDescrFromTag mbufTlvX (wrap 32768 (0x132F:ℕ)) = some (row 0x132F .uint .fld 1 10) := by
    decide
  have hbuf : getDescrFromTag mbufTlvX (wrap 32768 (0x1343:ℕ)) =
      some ⟨0x1343, .none, .atmiBuf, true, 0, pmsgmax⟩ := by decide
  have hid : getDescrFromTag ubfField (wrap 32768 (0x10FF:ℕ)) = some (row 0x10FF .uint .fld 1 9) := by
    decide
  have hubf : getDescrFromTag ubfField (wrap 32768 (0x1153:ℕ)) =
      some (row 0x1153 .none .atmiBufPtr 0 pmsgmax) := by decide
  have hshort : getDescrFromTag ubfField (wrap 32768 (0x1113:ℕ)) = some (row 0x1113 .short .fldPtr 1 6) := by
    decide
  have hentry : Ctl.note ⟨65, 0, tag, 0⟩ (row 0x132F .uint .fld 1 10) [0] = ⟨65, 0, 0, 0⟩ := by
    show Ctl.mk 65 0 (intAfter .uint tag [0]).toNat 0 = _
    rw [intAfter_uint (show nettocDigits .uint [0] = some (['0', '0'], '0') by decide)
      (show scanInt false ['0', '0'] = some 0 by decide)]
    decide
  have hinner : contentOf (row 0x1153 .none .atmiBufPtr 0 pmsgmax)
      (Ctl.note ⟨65, 0, 0, 0⟩ (row 0x10FF .uint .fld 1 9) [0x03, 0x35, 0x54, 0x43, 0x21]) =
        .table ubfField ⟨65, 0, 0, 0⟩ true := by
    rfl
  refine .unknown rfl sampleJunk_framed (by decide) ?_
  refine .known rfl ⟨by decide, by decide⟩ htag rfl ?_
  rw [hentry]
  refine .unknown rfl sampleJunk_framed (by decide) ?_
  refine .lastInside ⟨by decide, by decide⟩ ⟨by decide, by decide⟩ hbuf rfl rfl (by decide +kernel) ?_
  refine .unknown rfl sampleJunk_framed (by decide) ?_
  refine .known rfl ⟨by decide, by decide⟩ hid rfl ?_
  refine .unknown rfl sampleJunk_framed (by decide) ?_
  refine .inside rfl ⟨by decide, by decide⟩ ⟨by decide, by decide⟩ hubf rfl hinner (by decide +kernel) ?_ ?_
  · refine .known rfl ⟨by decide, by decide⟩ hid rfl ?_
    refine .known rfl ⟨by decide, by decide⟩ hshort rfl ?_
    exact .unknown rfl sampleJunk_framed (by decide) (.same _ _ [])
  · exact .unknown rfl sampleJunk_framed (by decide) (.same _ _ [])

theorem find_msgType : getDescrFromTag cmdBrNetCallX (wrap 32768 (0x100F:ℕ)) =
    some (row 0x100F .char .fld 1 1) := by decide

theorem find_call : getDescrFromTag cmdBrNetCallX (wrap 32768 (0x102D:ℕ)) =
    some (row 0x102D .none .subPtr 0 pmsgmax) := by decide

theorem sampleCall_inserted :
    Inserted 65552 (.records cmdBrNetCallX) ⟨0, 0, 0, 0⟩ (sampleCall [] []) (sampleCall sampleJunk []) := by
  have hdata : getDescrFromTag tpCommandCallX (wrap 32768 (0x11F9:ℕ)) =
      some (row 0x11F9 .none .masterBuf 0 pmsgmax) := by decide
  refine .unknown rfl sampleJunk_framed (by decide) ?_
  refine .known rfl ⟨by decide, by decide⟩ find_msgType rfl ?_
  refine .inside rfl ⟨by decide, by decide⟩ ⟨by decide, by decide⟩ find_call rfl rfl (by decide +kernel) ?_ ?_
  · refine .unknown rfl sampleJunk_framed (by decide) ?_
    refine .insideMasterBuf rfl ⟨by decide, by decide⟩ ⟨by decide, by decide⟩ hdata rfl rfl
      (by decide +kernel) ?_ ?_
    · exact .entries sampleEntry_inserted (.noEntry _)
    · exact .unknown rfl sampleJunk_framed (by decide) (.same _ _ [])
  · exact .unknown rfl sampleJunk_framed (by decide) (.same _ _ [])

theorem decodes_of_run {msg : List UInt8} {x y : ρ} {n k : ℕ}
    (h : (exprotoProto2ex S n c msg x).result = .ok (k, y)) : Decodes S c msg x y :=
  decodes_iff.mpr ⟨k, n, h⟩

theorem sampleCall_decodes : Decodes countSide ⟨0, 0, 0, 0⟩ (sampleCall [] []) 0 15 :=
  decodes_of_run (show (exprotoProto2ex countSide 12 _ _ _).result = .ok (64, 15) by decide +kernel)

theorem unknown_records_everywhere : Decodes countSide ⟨0, 0, 0, 0⟩ (sampleCall sampleJunk []) 0 15 :=
  unknown_records_transparent sampleCall_inserted sampleCall_decodes

/-- A record of 65553 bytes in the call makes it longer than a message may be. One record behind the
last entry of the master buffer makes the loop go on: another entry is counted. -/
theorem unknown_records_refused : Decodes countSide ⟨0, 0, 0, 0⟩ (sampleCall [] []) 0 15 ∧
      (∀ y, ¬Decodes countSide ⟨0, 0, 0, 0⟩ (frame 0x100F [65] ++ frame 0x102D
        (frame 0x2000 (replicate 65553 0) ++ frame 0x11F9 (sampleEntry []))) 0 y) ∧
      Decodes countSide ⟨0, 0, 0, 0⟩ (sampleCall [] sampleJunk) 0 16 := by
  refine ⟨sampleCall_decodes, ?_, ?_⟩
  · intro y hdec
    obtain ⟨_, hread⟩ := decodes_iff.mp hdec
    obtain ⟨-, _, -, hnext⟩ := (reads_known ⟨by decide, by decide⟩ find_msgType).mp hread
    rcases hnext with ⟨hlast, -⟩ | ⟨-, _, -, hnext⟩
    · cases hlast
    -- only the lengths count, the value is not looked at
    rw [← append_nil (frame 0x102D _)] at hnext
    have hlen : (frame 0x2000 (replicate 65553 0) ++ frame 0x11F9 (sampleEntry [])).length = 65610 := by
      simp only [length_append, frame_length, length_replicate]
      rfl
    obtain ⟨hck, -⟩ := (reads_known ⟨by decide, by omega⟩ find_call).mp hnext
    have hle : ((frame 0x2000 (replicate 65553 0) ++ frame 0x11F9 (sampleEntry [])).length:Int) ≤
        65552 := (exprotoCklen_iff.mp hck).2.1 rfl
    omega
  · exact decodes_of_run (show (exprotoProto2ex countSide 12 _ _ _).result = .ok (71, 16) by decide +kernel)

end Endurox.NetProto
