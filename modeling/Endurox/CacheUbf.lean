import Endurox.BaseMultimap
import Mathlib.Algebra.GroupWithZero.Nat

/-! UBF buffers as the caches use them (`libatmi/atmi_cache_ubf.c`): keys built from a format, the
projection that is saved, and the two ways to deliver what was saved. Values are left open, with
what `CBget` makes of one as a string. -/

namespace Endurox.Cache

open Base List

variable {V : Type}

structure Buf (V : Type) where
  fields : List (ℕ × V)
  ordered : Ordered Prod.fst fields

namespace Buf

@[ext] theorem ext {u u' : Buf V} (h : u.fields = u'.fields) : u = u' := by
  cases u
  cases u'
  cases h
  rfl

def empty : Buf V := ⟨[], .nil⟩

def get (u : Buf V) (id occ : ℕ) : Option V := ((occs Prod.fst id u.fields)[occ]?).map Prod.snd

def projcpy (u : Buf V) (p : ℕ → Bool) : Buf V :=
  ⟨u.fields.filter fun f => p f.1, u.ordered.filter _⟩

def chg (u : Buf V) (id occ : ℕ) (v : V) : Buf V :=
  let es := occs Prod.fst id u.fields
  have hes : ∀ a ∈ es.take occ ++ (id, v) :: es.drop (occ+1), a.1 = id := by
    intro a ha
    rcases mem_append.mp ha with ha | ha
    · exact (mem_occs.mp (mem_of_mem_take ha)).2
    · rcases mem_cons.mp ha with rfl | ha
      · rfl
      · exact (mem_occs.mp (mem_of_mem_drop ha)).2
  ⟨setOccs Prod.fst id (es.take occ ++ (id, v) :: es.drop (occ+1)) u.fields, u.ordered.setOccs hes⟩

def updateFrom (dst : Buf V) (done : List (ℕ × V)) : List (ℕ × V) → Buf V
  | [] => dst
  | (id, v) :: todo =>
    updateFrom (dst.chg id (occs Prod.fst id done).length v) (done ++ [(id, v)]) todo

def update (dst src : Buf V) : Buf V := updateFrom dst [] src.fields

end Buf

abbrev Key := List UInt8

/-- A format as `ndrx_str_subs_context` walks over it, for formats without backslashes: text, and
placeholders with the symbol between the brackets, resolved to a field and an occurrence. -/
inductive KeyPart
  | text (s : List UInt8)
  | field (symbol : List UInt8) (id occ : ℕ)

def KeyPart.size : KeyPart → ℕ
  | .text s => s.length
  | .field symbol _ _ => symbol.length+3

def keyMax : ℕ := 16384

def joinSlashes : List UInt8 → List UInt8
  | 92 :: 92 :: s => 92 :: joinSlashes s
  | b :: s => b :: joinSlashes s
  | [] => []

def subsFrom (str : V → Option (List UInt8)) (u : Buf V) (done : List UInt8) :
    List KeyPart → Option (List UInt8)
  | [] => some done
  | .text s :: parts => subsFrom str u (done ++ s) parts
  | .field symbol id occ :: parts =>
    match (u.get id occ).bind str with
    | none => none
    | some out =>
      -- only a value longer than its placeholder is checked for room
      if symbol.length+3 < out.length ∧
          keyMax < done.length+out.length+(parts.map KeyPart.size).sum then none
      else subsFrom str u (done ++ out) parts

def keygetUbf (str : V → Option (List UInt8)) (fmt : List KeyPart) (u : Buf V) : Option Key :=
  (subsFrom str u [] fmt).map joinSlashes

variable {p : ℕ → Bool} {u : Buf V}

theorem Buf.get_projcpy {id occ : ℕ} {v : V} (h : (u.projcpy p).get id occ = some v) :
    u.get id occ = some v := by
  have hocc : occs Prod.fst id (u.projcpy p).fields =
      if p id then occs Prod.fst id u.fields else [] := by
    rw [projcpy, occs, filter_filter]
    split
    · rename_i hp
      apply filter_congr
      intro f _
      by_cases hf : f.1 = id
      · simp [hf, hp]
      · simp [hf]
    · rename_i hp
      rw [filter_eq_nil_iff]
      intro f _
      simp only [Bool.and_eq_true, decide_eq_true_eq, not_and]
      rintro rfl
      exact hp
  rw [Buf.get, hocc] at h
  split at h
  · exact h
  · simp at h

variable {str : V → Option (List UInt8)}

/-- A key made from a projection is the key of the whole buffer. -/
theorem subsFrom_projcpy {parts : List KeyPart} {done s : List UInt8}
    (h : subsFrom str (u.projcpy p) done parts = some s) : subsFrom str u done parts = some s := by
  induction parts generalizing done with
  | nil => exact h
  | cons part _ ih =>
    cases part with
    | text => exact ih h
    | field _ id occ =>
      rw [subsFrom] at h ⊢
      cases hv : (u.projcpy p).get id occ with
      | none =>
        rw [hv] at h
        cases h
      | some v =>
        rw [hv] at h
        rw [Buf.get_projcpy hv]
        simp only [Option.bind_some] at h ⊢
        cases hs : str v with
        | none =>
          rw [hs] at h
          cases h
        | some =>
          rw [hs] at h
          simp only at h ⊢
          split at h
          · cases h
          · rename_i hroom
            rw [if_neg hroom]
            exact ih h

theorem keygetUbf_projcpy {fmt : List KeyPart} {k : Key}
    (h : keygetUbf str fmt (u.projcpy p) = some k) : keygetUbf str fmt u = some k := by
  obtain ⟨_, hs, rfl⟩ := Option.map_eq_some_iff.mp h
  rw [keygetUbf, subsFrom_projcpy hs, Option.map_some]

inductive Proj
  | full
  | setof (list : List ℕ)
  | rex (isMatch : ℕ → Bool)

def rexList (isMatch : ℕ → Bool) (u : Buf V) : List ℕ :=
  ((u.fields.map Prod.fst).dedup).filter isMatch

def prepprojUbf (proj : Proj) (u : Buf V) : Buf V :=
  match proj with
  | .full => u
  | .setof list => u.projcpy (· ∈ list)
  | .rex isMatch => u.projcpy (· ∈ rexList isMatch u)

inductive GetMode
  | repl
  | merge

def cacheGetUbf (mode : GetMode) (idata u : Buf V) : Buf V :=
  match mode with
  | .repl => u
  | .merge => idata.update u

theorem keygetUbf_prepproj {fmt : List KeyPart} {proj : Proj} {k : Key}
    (h : keygetUbf str fmt (prepprojUbf proj u) = some k) : keygetUbf str fmt u = some k := by
  cases proj with
  | full => exact h
  | setof | rex =>
    rw [prepprojUbf] at h
    exact keygetUbf_projcpy h

namespace Buf

theorem chg_end {u : Buf V} {id : ℕ} {v : V} (h : Ordered Prod.fst (u.fields ++ [(id, v)])) :
    (u.chg id (occs Prod.fst id u.fields).length v).fields = u.fields ++ [(id, v)] := by
  have hself : occs Prod.fst id [(id, v)] = [(id, v)] := occs_eq_self (by simp)
  have hes : ∀ a ∈ occs Prod.fst id u.fields ++ [(id, v)], a.1 = id := by
    intro a ha
    rcases mem_append.mp ha with ha | ha
    · exact (mem_occs.mp ha).2
    · rw [mem_singleton.mp ha]
  simp only [chg, take_length, drop_of_length_le (Nat.le_succ _)]
  apply (u.ordered.setOccs hes).ext h
  intro k
  by_cases hk : k = id
  · subst hk
    rw [occs_setOccs_self hes, occs_append, hself]
  · rw [occs_setOccs_of_ne u.ordered hes hk, occs_append,
      occs_eq_nil (l := [(id, v)]) (by simpa using Ne.symm hk), append_nil]

theorem updateFrom_self {dst : Buf V} {todo : List (ℕ × V)}
    (h : Ordered Prod.fst (dst.fields ++ todo)) :
    (updateFrom dst dst.fields todo).fields = dst.fields ++ todo := by
  induction todo generalizing dst with
  | nil => rw [updateFrom, append_nil]
  | cons f todo ih =>
    rw [append_cons] at h ⊢
    have hend := chg_end h.left
    rw [updateFrom, ← hend]
    rw [← hend] at h
    exact ih h

theorem update_empty (u : Buf V) : empty.update u = u :=
  Buf.ext (updateFrom_self u.ordered)

end Buf

theorem cacheGetUbf_empty (mode : GetMode) (u : Buf V) : cacheGetUbf mode .empty u = u := by
  cases mode with
  | repl => rfl
  | merge => exact u.update_empty

end Endurox.Cache
