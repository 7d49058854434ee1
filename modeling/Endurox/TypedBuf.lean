import Endurox.BaseRun
import Endurox.BaseHeap
import Endurox.BaseHash

/-! Freeing typed buffers (`libatmi/typed_buf.c`). A UBF buffer may hold pointers to other buffers,
also inside embedded UBF fields, and any buffer may have a call-info buffer; `tpfree` of a buffer
frees what it leads to. -/

namespace Endurox.TypedBuf

open Base List

abbrev Addr := ℕ

inductive Fld
  | ptr (p : Option Addr)
  | ubf (fs : List Fld)

structure Buf where
  isUbf : Bool
  fields : List Fld
  callinfobuf : Option Addr

mutual

def Fld.ptrs : Fld → List Addr
  | .ptr p => p.toList
  | .ubf fs => ptrsOf fs

def ptrsOf : List Fld → List Addr
  | [] => []
  | f :: fs => f.ptrs ++ ptrsOf fs

end

/-- The registered buffers. A call-info buffer is made for its buffer by `tpsetcallinfo` or with
an incoming message: it has one owner and no call-info of its own, and since no caller is ever
given its address no pointer field holds it. -/
structure Registry where
  bufs : Hash Addr Buf
  callinfo_ubf : ∀ a b c, bufs.find a = some b → b.callinfobuf = some c →
    ∃ b', bufs.find c = some b' ∧ b'.isUbf ∧ b'.callinfobuf = none
  callinfo_own : ∀ a a' b b' c, bufs.find a = some b → bufs.find a' = some b' →
    b.callinfobuf = some c → b'.callinfobuf = some c → a = a'
  callinfo_hidden : ∀ a a' b b' c, bufs.find a = some b → bufs.find a' = some b' →
    b.callinfobuf = some c → c ∉ ptrsOf b'.fields

structure Mem where
  registered : List Addr
  freed : List Addr
  deriving DecidableEq

inductive Fault
  | noReturn
  | usedAfterFree (a : Addr)
  deriving DecidableEq

section

variable (g : Registry)

def findBuffer (registered : List Addr) (a : Addr) : Option Buf :=
  if a ∈ registered then g.bufs.find a else none

def addPtr (p : Addr) (flist : List Addr) : List Addr :=
  if p ∈ flist then flist else flist ++ [p]

mutual

def scanFld (follow : Addr → List Addr → Except Fault (List Addr)) :
    Fld → List Addr → Except Fault (List Addr)
  | .ptr none, flist => .ok flist
  | .ptr (some p), flist => follow p flist >>= fun flist => .ok (addPtr p flist)
  | .ubf fs, flist => scanFlds follow fs flist

def scanFlds (follow : Addr → List Addr → Except Fault (List Addr)) :
    List Fld → List Addr → Except Fault (List Addr)
  | [], flist => .ok flist
  | f :: fs, flist => scanFld follow f flist >>= scanFlds follow fs

end

def followPtr (registered : List Addr) (scan : List Fld → List Addr → Except Fault (List Addr))
    (p : Addr) (flist : List Addr) : Except Fault (List Addr) :=
  match findBuffer g registered p with
  | some b => if b.isUbf then scan b.fields flist else .ok flist
  | none => .ok flist

/-- `scan_ptrs`: a registered UBF buffer is scanned before its pointer is noted. -/
def scanPtrs (registered : List Addr) : ℕ → List Fld → List Addr → Except Fault (List Addr)
  | 0, _, _ => .error .noReturn
  | fuel+1, fs, flist => scanFlds (followPtr g registered (scanPtrs registered fuel)) fs flist

def scanAt (fuel : ℕ) (a : Addr) (m : Mem) (flist : List Addr) : Except Fault (List Addr) :=
  if a ∈ m.freed then .error (.usedAfterFree a)
  else match g.bufs.find a with
    | some b => scanPtrs g m.registered fuel b.fields flist
    | none => .ok flist

def Mem.unregister (m : Mem) (a : Addr) : Mem :=
  { m with registered := m.registered.filter (· ≠ a) }

def Mem.free (m : Mem) (a : Addr) : Mem := { m with freed := m.freed ++ [a] }

def freeCallinfo (tpfree : Addr → Mem → Except Fault Mem) (fuel : ℕ) (elt : Buf) (full : Bool)
    (m : Mem) : Except Fault (List Addr × Mem) :=
  match elt.callinfobuf with
  | none => .ok ([], m)
  | some c =>
    (if full then scanAt g fuel c m [] else .ok []) >>= fun flist =>
      tpfree c m >>= fun m => .ok (flist, m)

/-- `ndrx_tpfree_inner`, `full` when it is called with a free list. -/
def tpfreeInner : ℕ → Addr → Bool → Mem → Except Fault Mem
  | 0, _, _, _ => .error .noReturn
  | fuel+1, buf, full, m =>
    match findBuffer g m.registered buf with
    | none => .ok m
    | some elt =>
      freeCallinfo g (fun c m => tpfreeInner fuel c true m) fuel elt full m >>= fun (flist, m) =>
        -- the registry entry is used again after the nested call
        if buf ∈ m.freed then .error (.usedAfterFree buf)
        else
          (if full && elt.isUbf then scanAt g fuel buf (m.unregister buf) flist
            else .ok flist) >>= fun flist =>
            if full then
              flist.foldlM (fun m p => tpfreeInner fuel p false m) ((m.unregister buf).free buf)
            else .ok ((m.unregister buf).free buf)

def tpfree (fuel : ℕ) (buf : Addr) (m : Mem) : Except Fault Mem := tpfreeInner g fuel buf true m

def start : Mem := ⟨g.bufs.entries.map Prod.fst, []⟩

def PtrEdge (a b : Addr) : Prop :=
  ∃ elt, g.bufs.find a = some elt ∧ elt.isUbf ∧ b ∈ ptrsOf elt.fields

def CallinfoEdge (a c : Addr) : Prop := ∃ elt, g.bufs.find a = some elt ∧ elt.callinfobuf = some c

def Edge (a b : Addr) : Prop := PtrEdge g a b ∨ CallinfoEdge g a b

def EdgeIn (registered : List Addr) (a b : Addr) : Prop :=
  a ∈ registered ∧ b ∈ registered ∧ Edge g a b

end

variable {g : Registry}

def note (follow : Addr → List Addr → Except Fault (List Addr)) (flist : List Addr) (p : Addr) :
    Except Fault (List Addr) :=
  follow p flist >>= fun flist => .ok (addPtr p flist)

mutual

theorem scanFld_eq (follow : Addr → List Addr → Except Fault (List Addr)) (f : Fld)
    (flist : List Addr) : scanFld follow f flist = f.ptrs.foldlM (note follow) flist := by
  match f with
  | .ptr none => rfl
  | .ptr (some p) =>
    simp only [scanFld, Fld.ptrs, Option.toList_some, foldlM_cons, foldlM_nil, note]
    cases follow p flist <;> rfl
  | .ubf fs => rw [scanFld, Fld.ptrs, scanFlds_eq follow fs flist]

theorem scanFlds_eq (follow : Addr → List Addr → Except Fault (List Addr)) (fs : List Fld)
    (flist : List Addr) : scanFlds follow fs flist = (ptrsOf fs).foldlM (note follow) flist := by
  match fs with
  | [] => rfl
  | f :: fs =>
    rw [scanFlds, ptrsOf, foldlM_append, scanFld_eq follow f flist]
    congr 1
    funext flist
    exact scanFlds_eq follow fs flist

end

def PtrIn (g : Registry) (registered : List Addr) (a b : Addr) : Prop :=
  a ∈ registered ∧ PtrEdge g a b

def PostOrder (g : Registry) (registered flist : List Addr) : Prop :=
  ∀ pre v post, flist = pre ++ v :: post → ∀ w, PtrIn g registered v w → w ∈ pre

theorem addPtr_extends (p : Addr) (flist : List Addr) : flist <+: addPtr p flist := by
  unfold addPtr
  split
  · exact prefix_refl _
  · exact prefix_append _ _

variable {p : Addr}

theorem mem_addPtr {v : Addr} {flist : List Addr} :
    v ∈ addPtr p flist ↔ v = p ∨ v ∈ flist := by
  unfold addPtr
  split
  · rename_i h
    constructor
    · exact Or.inr
    · rintro (rfl | hv)
      · exact h
      · exact hv
  · rw [mem_append, mem_singleton, or_comm]

variable {registered : List Addr}

theorem PostOrder.addPtr {flist : List Addr}
    (h : PostOrder g registered flist) (hp : ∀ w, PtrIn g registered p w → w ∈ flist) :
    PostOrder g registered (addPtr p flist) := by
  intro pre v post heq w hw
  unfold TypedBuf.addPtr at heq
  split at heq
  · exact h pre v post heq w hw
  -- the new pointer stands last
  rcases eq_nil_or_concat post with rfl | ⟨post', _, rfl⟩
  · obtain ⟨rfl, hv⟩ := append_inj' heq rfl
    have hv : p = v := by simpa using hv
    exact hp w (hv ▸ hw)
  · rw [concat_eq_append, ← cons_append, ← append_assoc] at heq
    obtain ⟨rfl, -⟩ := append_inj' heq rfl
    exact h pre v post' rfl w hw

structure Scanned (g : Registry) (registered ps flist flist' : List Addr) : Prop where
  kept : flist <+: flist'
  noted : ∀ p ∈ ps, p ∈ flist'
  reached : ∀ v ∈ flist', v ∈ flist ∨ ∃ p ∈ ps, Relation.ReflTransGen (PtrIn g registered) p v
  ordered : PostOrder g registered flist → PostOrder g registered flist'

variable {l l' : List Addr}

theorem Scanned.cons {ps l'' : List Addr}
    (hone : Scanned g registered [p] l l') (hrest : Scanned g registered ps l' l'') :
    Scanned g registered (p :: ps) l l'' where
  kept := hone.kept.trans hrest.kept
  noted := by
    intro q hq
    rcases mem_cons.mp hq with rfl | hq
    · exact hrest.kept.subset (hone.noted q (by simp))
    · exact hrest.noted q hq
  reached := by
    intro v hv
    rcases hrest.reached v hv with hv | ⟨q, hq, hway⟩
    · rcases hone.reached v hv with hv | ⟨q, hq, hway⟩
      · exact .inl hv
      · exact .inr ⟨q, by simpa using Or.inl (mem_singleton.mp hq), hway⟩
    · exact .inr ⟨q, mem_cons_of_mem p hq, hway⟩
  ordered := fun h => hrest.ordered (hone.ordered h)

theorem findBuffer_eq_some {a : Addr} {b : Buf} :
    findBuffer g registered a = some b ↔ a ∈ registered ∧ g.bufs.find a = some b := by
  unfold findBuffer
  split
  · rename_i h
    simp [h]
  · rename_i h
    simp [h]

theorem note_scanned
    {follow : Addr → List Addr → Except Fault (List Addr)} (h : note follow l p = .ok l')
    (hfollow : ∀ l1, follow p l = .ok l1 →
      ∃ ps, Scanned g registered ps l l1 ∧ ∀ w, PtrIn g registered p w ↔ w ∈ ps) :
    Scanned g registered [p] l l' := by
  obtain ⟨l1, hl1, heq⟩ := bind_eq_ok.mp h
  cases heq
  obtain ⟨_, hscan, hps⟩ := hfollow l1 hl1
  exact {
    kept := hscan.kept.trans (addPtr_extends p l1)
    noted := by
      intro q hq
      exact mem_addPtr.mpr (.inl (mem_singleton.mp hq))
    reached := by
      intro v hv
      rcases mem_addPtr.mp hv with rfl | hv
      · exact .inr ⟨v, by simp, .refl⟩
      · rcases hscan.reached v hv with hv | ⟨q, hq, hway⟩
        · exact .inl hv
        · exact .inr ⟨p, by simp, hway.head ((hps q).mpr hq)⟩
    ordered := by
      intro ho
      apply (hscan.ordered ho).addPtr
      intro w hw
      exact hscan.noted w ((hps w).mp hw) }

theorem Scanned.refl (registered l : List Addr) : Scanned g registered [] l l where
  kept := prefix_refl l
  noted := by simp
  reached := fun _ hv => .inl hv
  ordered := id

theorem followPtr_scanned {scan : List Fld → List Addr → Except Fault (List Addr)}
    (hscan : ∀ fs l', scan fs l = .ok l' → Scanned g registered (ptrsOf fs) l l')
    (h : followPtr g registered scan p l = .ok l') :
    ∃ ps, Scanned g registered ps l l' ∧ ∀ w, PtrIn g registered p w ↔ w ∈ ps := by
  unfold followPtr at h
  cases hfind : findBuffer g registered p with
  | none =>
    rw [hfind] at h
    cases h
    refine ⟨[], .refl registered l, ?_⟩
    intro w
    constructor
    · rintro ⟨hp, b, hb, _⟩
      rw [findBuffer_eq_some.mpr ⟨hp, hb⟩] at hfind
      cases hfind
    · intro hw
      cases hw
  | some b =>
    obtain ⟨hp, hb⟩ := findBuffer_eq_some.mp hfind
    have hsame (b' : Buf) (hb' : g.bufs.find p = some b') : b' = b :=
      Option.some.inj (hb'.symm.trans hb)
    simp only [hfind] at h
    by_cases hubf : b.isUbf = true
    · rw [if_pos hubf] at h
      refine ⟨ptrsOf b.fields, hscan _ _ h, ?_⟩
      intro w
      constructor
      · rintro ⟨_, b', hb', _, hw⟩
        exact hsame b' hb' ▸ hw
      · intro hw
        exact ⟨hp, b, hb, hubf, hw⟩
    · rw [if_neg hubf] at h
      cases h
      refine ⟨[], .refl registered l, ?_⟩
      intro w
      constructor
      · rintro ⟨_, b', hb', hubf', _⟩
        exact absurd (hsame b' hb' ▸ hubf') hubf
      · intro hw
        cases hw

variable {fs : List Fld}

/-- A scan lists each pointer behind those it leads to. -/
theorem scanPtrs_scanned {fuel : ℕ}
    (h : scanPtrs g registered fuel fs l = .ok l') : Scanned g registered (ptrsOf fs) l l' := by
  induction fuel generalizing fs l l' with
  | zero => cases h
  | succ fuel ih =>
    rw [scanPtrs, scanFlds_eq] at h
    generalize ptrsOf fs = ps at h
    induction ps generalizing l with
    | nil =>
      cases h
      exact .refl registered _
    | cons p ps ihps =>
      obtain ⟨l1, hone, hrest⟩ := bind_eq_ok.mp h
      have hp : Scanned g registered [p] l l1 :=
        note_scanned hone (fun _ => followPtr_scanned (fun _ _ => ih))
      exact hp.cons (ihps hrest)

theorem note_followPtr_of_imp {scan scan' : List Fld → List Addr → Except Fault (List Addr)}
    (himp : ∀ fs l l', scan fs l = .ok l' → scan' fs l = .ok l')
    (h : note (followPtr g registered scan) l p = .ok l') :
    note (followPtr g registered scan') l p = .ok l' := by
  obtain ⟨l1, hfollow, hadd⟩ := bind_eq_ok.mp h
  refine bind_eq_ok.mpr ⟨l1, ?_, hadd⟩
  revert hfollow
  unfold followPtr
  split
  · split
    · exact himp _ _ _
    · exact id
  · exact id

theorem scanPtrs_mono {fuel fuel' : ℕ} (hle : fuel ≤ fuel')
    (h : scanPtrs g registered fuel fs l = .ok l') :
    scanPtrs g registered fuel' fs l = .ok l' := by
  induction fuel generalizing fuel' fs l l' with
  | zero => cases h
  | succ fuel ih =>
    obtain ⟨k, rfl⟩ : ∃ k, fuel' = k+1 := ⟨fuel'-1, by omega⟩
    rw [scanPtrs, scanFlds_eq] at h ⊢
    refine foldlM_ok_of_imp ?_ h
    intro l p l1
    exact note_followPtr_of_imp (fun _ _ _ => ih (by omega))

theorem scanPtrs_returns_of_ptrs
    (hone : ∀ p ∈ ptrsOf fs, p ∈ registered → ∀ b, g.bufs.find p = some b → b.isUbf →
      ∃ fuel, ∀ l, ∃ l', scanPtrs g registered fuel b.fields l = .ok l') :
    ∃ fuel, ∀ l, ∃ l', scanPtrs g registered fuel fs l = .ok l' := by
  suffices hps : ∃ fuel, ∀ l, ∃ l',
      (ptrsOf fs).foldlM (note (followPtr g registered (scanPtrs g registered fuel))) l = .ok l' by
    obtain ⟨fuel, hfuel⟩ := hps
    refine ⟨fuel+1, ?_⟩
    intro l
    rw [scanPtrs, scanFlds_eq]
    exact hfuel l
  generalize ptrsOf fs = ps at hone
  induction ps with
  | nil => exact ⟨0, fun l => ⟨l, rfl⟩⟩
  | cons p ps ih =>
    obtain ⟨n, hn⟩ := ih (fun q hq => hone q (mem_cons_of_mem p hq))
    obtain ⟨k, hk⟩ : ∃ k, ∀ l, ∃ l',
        followPtr g registered (scanPtrs g registered k) p l = .ok l' := by
      unfold followPtr
      cases hfind : findBuffer g registered p with
      | none => exact ⟨0, fun l => ⟨l, rfl⟩⟩
      | some b =>
        obtain ⟨hp, hb⟩ := findBuffer_eq_some.mp hfind
        by_cases hubf : b.isUbf = true
        · obtain ⟨k, hk⟩ := hone p mem_cons_self hp b hb hubf
          refine ⟨k, ?_⟩
          simpa only [if_pos hubf] using hk
        · refine ⟨0, ?_⟩
          intro l
          exact ⟨l, if_neg hubf⟩
    refine ⟨max n k, ?_⟩
    intro l
    obtain ⟨l1, hl1⟩ := hk l
    obtain ⟨l2, hl2⟩ := hn (addPtr p l1)
    refine ⟨l2, ?_⟩
    refine bind_eq_ok.mpr ⟨addPtr p l1, ?_, ?_⟩
    · have hnote : note (followPtr g registered (scanPtrs g registered k)) l p =
          .ok (addPtr p l1) := bind_eq_ok.mpr ⟨l1, hl1, rfl⟩
      exact note_followPtr_of_imp (fun _ _ _ => scanPtrs_mono (le_max_right n k)) hnote
    · refine foldlM_ok_of_imp ?_ hl2
      intro _ _ _
      exact note_followPtr_of_imp (fun _ _ _ => scanPtrs_mono (le_max_left n k))

/-- The scan returns where no chain of pointers is endless. -/
theorem scanPtrs_returns (hacc : ∀ p ∈ ptrsOf fs, p ∈ registered →
      Acc (fun b a => b ∈ registered ∧ PtrIn g registered a b) p) :
    ∃ fuel, ∀ l, ∃ l', scanPtrs g registered fuel fs l = .ok l' := by
  have hdeep (p : Addr) (h : Acc (fun b a => b ∈ registered ∧ PtrIn g registered a b) p)
      (hp : p ∈ registered) (b : Buf) (hb : g.bufs.find p = some b) (hubf : b.isUbf) :
      ∃ fuel, ∀ l, ∃ l', scanPtrs g registered fuel b.fields l = .ok l' := by
    induction h generalizing b with
    | intro p _ ih =>
      apply scanPtrs_returns_of_ptrs
      intro q hq hqr b' hb' hubf'
      exact ih q ⟨hqr, hp, b, hb, hubf, hq⟩ hqr b' hb' hubf'
  apply scanPtrs_returns_of_ptrs
  intro p hp hpr b hb hubf
  exact hdeep p (hacc p hp hpr) hpr b hb hubf

end Endurox.TypedBuf
