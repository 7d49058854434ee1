import Endurox.XaXid
import Endurox.BaseStruct

/-! The scan of the prepared folder by `xa_recover_entry` (`qdisk_xa.c`): which transactions a
sequence of calls lists, and which entries of the directory list it releases. -/

namespace Endurox.Tmq.Recover

open XaXid List

deriving instance DecidableEq for Xid

def xidPart (fname : List UInt8) : List UInt8 := fname.takeWhile (fun c => c ≠ 45)

def skipped (fname : List UInt8) : Bool := fname = [46] ∨ fname = [46, 46] ∨ 45 ∉ fname

structure Scan where
  namelist : List (List UInt8)
  recoverI : Int
  /-- `recover_last`, where `recover_last_loaded` is set. -/
  recoverLast : Option Xid
  freed : List ℕ
  listed : List Xid

/-- The scan that is open, and those that were closed, each with whether the call that closed it
returned fewer than it had room for. -/
structure State where
  cursor : Option Scan
  closed : List (Scan × Bool)

def direntFree (n : Int) : List ℕ := (range (n+1).toNat).reverse

def closeCursor (s : State) (fewer : Bool) : State :=
  match s.cursor with
  | none => s
  | some sc => ⟨none, s.closed ++ [({sc with freed := sc.freed ++ direntFree sc.recoverI}, fewer)]⟩

/-- The loop, from the index it has reached: the index it ends with, what it releases and what it
lists. A text that cannot be decoded is not reported and leaves `xtmp` as it was; `none` is an XID
that was never read. -/
def recoverLoop (namelist : List (List UInt8)) (recoverLast : Option Xid) (count : ℕ) :
    ℕ → Option Xid → List ℕ → List Xid → Option (Int × List ℕ × List Xid)
  | 0, _, freed, xids => if xids.length < count then some (-1, freed, xids) else some (0, freed, xids)
  | i+1, xtmp, freed, xids =>
    if xids.length < count then
      let fname := namelist.getD i []
      if skipped fname then recoverLoop namelist recoverLast count i xtmp (freed ++ [i]) xids
      else
        match (atmiXaDeserializeXid (xidPart fname)).or xtmp with
        | none => none
        | some x => recoverLoop namelist recoverLast count i (some x) (freed ++ [i])
          (if xids.getLast? = some x ∨ recoverLast = some x then xids else xids ++ [x])
    else some (i+1, freed, xids)

/-- A call of an open XA switch, with an array of `count` places; `folder` is what `scandir` gives. -/
structure Call where
  count : ℕ
  startrscan : Bool
  endrscan : Bool
  folder : Option (List (List UInt8))

inductive Ret where
  | inval
  | rmerr
  | xids (xids : List Xid)

def unload (s : State) (sc : Scan) (c : Call) : Option (State × Ret) :=
  match recoverLoop sc.namelist sc.recoverLast c.count sc.recoverI.toNat none [] [] with
  | none => none
  | some (i, freed, xids) =>
    let s := {s with cursor := some ⟨sc.namelist, i, xids.getLast?.or sc.recoverLast, sc.freed ++ freed,
      sc.listed ++ xids⟩}
    let fewer := decide (xids.length < c.count)
    some (if c.endrscan || fewer then closeCursor s fewer else s, .xids xids)

def opened (namelist : List (List UInt8)) : Scan := ⟨namelist, namelist.length, none, [], []⟩

def xaRecoverEntry (s : State) (c : Call) : Option (State × Ret) :=
  if c.startrscan then
    match c.folder with
    | none => some (closeCursor s false, .rmerr)
    | some namelist => unload (closeCursor s false) (opened namelist) c
  else
    match s.cursor with
    | none => some (s, .inval)
    | some sc => unload s sc c

def recoverRun : State → List Call → Option State
  | s, [] => some s
  | s, c :: cs => (xaRecoverEntry s c).bind (fun r => recoverRun r.1 cs)

def xidOf (fname : List UInt8) : Option Xid :=
  if skipped fname then none else atmiXaDeserializeXid (xidPart fname)

def Released (sc : Scan) : Prop := sc.freed.Perm (range sc.namelist.length)

def ListsOnce (sc : Scan) : Prop :=
  sc.listed.Nodup ∧ ∀ x, x ∈ sc.listed ↔ ∃ fname ∈ sc.namelist, xidOf fname = some x

def Exact (s : State) : Prop := ∀ p ∈ s.closed, Released p.1 ∧ (p.2 = true → ListsOnce p.1)

/-- What `scandir` gives in the order of `alphasort`, where each name with a `-` starts with an XID
as it is serialised. -/
structure FolderOk (namelist : List (List UInt8)) : Prop where
  sorted : namelist.Pairwise (fun a b => a ≤ b)
  prepared : ∀ fname ∈ namelist, skipped fname = false →
    ∃ x, xidOf fname = some x ∧ atmiXaSerializeXid x = xidPart fname

def Scan.left (sc : Scan) : List Xid :=
  (((sc.namelist.take sc.recoverI.toNat).filterMap xidOf).filter (fun x => x ∉ sc.listed)).dedup

structure Tidy (s : State) (c : Call) : Prop where
  start : c.startrscan = true → s.cursor = none
  fin : c.endrscan = true → ∀ sc, (if c.startrscan then c.folder.map opened else s.cursor) = some sc →
    sc.left.length < c.count

def TidyRun : State → List Call → Prop
  | _, [] => True
  | s, c :: cs => Tidy s c ∧ ∀ r, xaRecoverEntry s c = some r → TidyRun r.1 cs

theorem xidPart_cons (x : UInt8) (a : List UInt8) : ∃ t, xidPart (x :: a) ++ [45] = x :: t := by
  by_cases hx : x = 45
  · exact ⟨[], by simp [xidPart, hx]⟩
  · exact ⟨xidPart a ++ [45], by simp [xidPart, hx]⟩

theorem xidPart_le {a b : List UInt8} (ha : 45 ∈ a) (hb : 45 ∈ b) (h : a ≤ b) :
    xidPart a ++ [45] ≤ xidPart b ++ [45] := by
  induction a generalizing b with
  | nil => cases ha
  | cons x a ih =>
    cases b with
    | nil => cases hb
    | cons y b =>
      rcases cons_le_cons_iff.mp h with hlt | ⟨rfl, hle⟩
      · obtain ⟨_, hs⟩ := xidPart_cons x a
        obtain ⟨_, ht⟩ := xidPart_cons y b
        rw [hs, ht]
        exact cons_le_cons_iff.mpr (.inl hlt)
      by_cases hx : x = 45
      · simp [xidPart, hx]
      · have hne : 45 ≠ x := Ne.symm hx
        have htail := ih ((mem_cons.mp ha).resolve_left hne)
          ((mem_cons.mp hb).resolve_left hne) hle
        simpa [xidPart, hx, cons_le_cons_iff] using htail

def key (x : Xid) : List UInt8 := atmiXaSerializeXid x ++ [45]

section

variable {namelist : List (List UInt8)} {fname gname : List UInt8} {x y : Xid}

theorem FolderOk.key_eq (h : FolderOk namelist) (hmem : fname ∈ namelist) (hx : xidOf fname = some x) :
    45 ∈ fname ∧ key x = xidPart fname ++ [45] := by
  have hskip : skipped fname = false := by
    by_contra hs
    rw [xidOf, if_pos (by simpa using hs)] at hx
    cases hx
  obtain ⟨_, hx', hpart⟩ := h.prepared fname hmem hskip
  cases hx.symm.trans hx'
  simp only [skipped, decide_eq_false_iff_not, not_or, not_not] at hskip
  exact ⟨hskip.2.2, by rw [key, hpart]⟩

theorem FolderOk.key_inj (h : FolderOk namelist) (hf : fname ∈ namelist) (hg : gname ∈ namelist)
    (hx : xidOf fname = some x) (hy : xidOf gname = some y) (he : key x = key y) : x = y := by
  obtain ⟨-, hkx⟩ := h.key_eq hf hx
  obtain ⟨-, hky⟩ := h.key_eq hg hy
  have hpart : xidPart fname = xidPart gname := append_cancel_right (hkx.symm.trans (he.trans hky))
  rw [xidOf] at hx hy
  split at hx
  · cases hx
  · split at hy
    · cases hy
    · rw [hpart, hy] at hx
      cases hx
      rfl

structure Seen (namelist : List (List UInt8)) (k : ℕ) (listed : List Xid) (freed : List ℕ) : Prop where
  bound : k ≤ namelist.length
  freed : (freed ++ range k).Perm (range namelist.length)
  nodup : listed.Nodup
  mem : ∀ x, x ∈ listed ↔ ∃ fname ∈ namelist.drop k, xidOf fname = some x
  lowest : ∀ z, listed.getLast? = some z → ∀ x ∈ listed, key z ≤ key x

variable {i k : ℕ} {listed : List Xid} {freed : List ℕ}

section

variable (h : Seen namelist (i+1) listed freed)
include h

theorem Seen.drop_eq :
    namelist.drop i = namelist.getD i [] :: namelist.drop (i+1) := by
  have hi : i < namelist.length := h.bound
  rw [drop_eq_getElem_cons hi, getD_eq_getElem?_getD, getElem?_eq_getElem hi, Option.getD_some]

theorem Seen.freed_next :
    ((freed ++ [i]) ++ range i).Perm (range namelist.length) := by
  refine List.Perm.trans ?_ h.freed
  rw [range_succ, append_assoc]
  exact (perm_append_comm).append_left freed

theorem Seen.skip (hnone : xidOf (namelist.getD i []) = none) :
    Seen namelist i listed (freed ++ [i]) where
  bound := Nat.le_of_succ_le h.bound
  freed := h.freed_next
  nodup := h.nodup
  mem := by
    intro x
    rw [h.mem, h.drop_eq, exists_mem_cons_iff, hnone]
    simp
  lowest := h.lowest

section

variable (hf : FolderOk namelist) (hx : xidOf (namelist.getD i []) = some x)
include hf hx

theorem Seen.next_le (hy : y ∈ listed) : key x ≤ key y := by
  obtain ⟨gname, hg, hgy⟩ := (h.mem y).mp hy
  have hsorted : (namelist.drop i).Pairwise (fun a b => a ≤ b) := hf.sorted.sublist (drop_sublist i _)
  rw [h.drop_eq, pairwise_cons] at hsorted
  have hin : namelist.getD i [] ∈ namelist.drop i := by
    rw [h.drop_eq]
    exact mem_cons_self
  obtain ⟨hdash, hkx⟩ := hf.key_eq (mem_of_mem_drop hin) hx
  obtain ⟨hdash', hky⟩ := hf.key_eq (mem_of_mem_drop hg) hgy
  rw [hkx, hky]
  exact xidPart_le hdash hdash' (hsorted.1 gname hg)

theorem Seen.last_iff : listed.getLast? = some x ↔ x ∈ listed := by
  refine ⟨mem_of_getLast?, fun hmem => ?_⟩
  cases hlast : listed.getLast? with
  | none =>
    rw [getLast?_eq_none_iff.mp hlast] at hmem
    cases hmem
  | some z =>
    have hz : z ∈ listed := mem_of_getLast? hlast
    obtain ⟨_, hfm, hfx⟩ := (h.mem x).mp hmem
    obtain ⟨_, hg, hgz⟩ := (h.mem z).mp hz
    have he : key z = key x := List.le_antisymm (h.lowest z hlast x hmem) (h.next_le hf hx hz)
    rw [hf.key_inj (List.mem_of_mem_drop hg) (List.mem_of_mem_drop hfm) hgz hfx he]

theorem Seen.next :
    Seen namelist i (if listed.getLast? = some x then listed else listed ++ [x]) (freed ++ [i]) where
  bound := Nat.le_of_succ_le h.bound
  freed := h.freed_next
  nodup := by
    split
    · exact h.nodup
    rename_i hlast
    rw [h.last_iff hf hx] at hlast
    exact nodup_append.mpr ⟨h.nodup, nodup_singleton x, fun a ha b hb => by
      rw [mem_singleton.mp hb]
      rintro rfl
      exact hlast ha⟩
  mem := by
    intro y
    rw [h.drop_eq, exists_mem_cons_iff, ← h.mem y, hx, Option.some.injEq]
    split
    · rename_i hlast
      rw [h.last_iff hf hx] at hlast
      constructor
      · exact .inr
      · rintro (rfl | hy)
        · exact hlast
        · exact hy
    · rw [mem_append, mem_singleton, or_comm, eq_comm]
  lowest := by
    intro z hz y hy
    split at hz
    · rename_i hlast
      rw [if_pos hlast] at hy
      exact h.lowest z hz y hy
    rename_i hlast
    rw [if_neg hlast] at hy
    rw [getLast?_concat, Option.some.injEq] at hz
    rw [← hz]
    rcases mem_append.mp hy with hy | hy
    · exact h.next_le hf hx hy
    · rw [List.mem_singleton.mp hy]
      exact List.le_refl _

end

end

/-- The loop ends at the front of the list or with the array full, and never reads past the list. -/
theorem recoverLoop_spec (hf : FolderOk namelist) (listed : List Xid) (freed0 : List ℕ) {count : ℕ}
    (xtmp : Option Xid) (freed : List ℕ) (xids : List Xid) (hcount : xids.length ≤ count)
    (h : Seen namelist k (listed ++ xids) (freed0 ++ freed)) :
    ∃ j freed' xids', recoverLoop namelist listed.getLast? count k xtmp freed xids =
        some (j, freed', xids') ∧
      Seen namelist j.toNat (listed ++ xids') (freed0 ++ freed') ∧
      (j = -1 ∧ xids'.length < count ∨ 0 ≤ j ∧ xids'.length = count) := by
  induction k generalizing xtmp freed xids with
  | zero =>
    rw [recoverLoop]
    split
    · rename_i hlt
      exact ⟨-1, freed, xids, rfl, h, .inl ⟨rfl, hlt⟩⟩
    · rename_i hlt
      exact ⟨0, freed, xids, rfl, h, .inr ⟨le_rfl, le_antisymm hcount (not_lt.mp hlt)⟩⟩
  | succ i ih =>
    rw [recoverLoop]
    split
    · rename_i hlt
      dsimp only
      split
      · rename_i hskip
        apply ih xtmp _ _ hcount
        rw [← append_assoc]
        exact h.skip (if_pos hskip)
      rename_i hskip
      have hin : namelist.getD i [] ∈ namelist := by
        apply mem_of_mem_drop
        rw [h.drop_eq]
        exact mem_cons_self
      obtain ⟨x, hx, -⟩ := hf.prepared _ hin (by simpa using hskip)
      have hread : atmiXaDeserializeXid (xidPart (namelist.getD i [])) = some x := by
        rw [xidOf, if_neg hskip] at hx
        exact hx
      rw [hread, Option.some_or]
      have hnext := h.next hf hx
      have hcheck : (xids.getLast? = some x ∨ listed.getLast? = some x) ↔
          (listed ++ xids).getLast? = some x := by
        constructor
        · intro hlast
          rw [h.last_iff hf hx, mem_append]
          exact hlast.symm.imp mem_of_getLast? mem_of_getLast?
        · rw [getLast?_append]
          intro hor
          exact (Option.or_eq_some_iff.mp hor).imp id (fun ho => ho.2)
      dsimp only
      by_cases hlast : xids.getLast? = some x ∨ listed.getLast? = some x
      · rw [if_pos hlast]
        rw [if_pos (hcheck.mp hlast), append_assoc] at hnext
        exact ih _ _ _ hcount hnext
      · rw [if_neg hlast]
        rw [if_neg (fun hc => hlast (hcheck.mpr hc)), append_assoc, append_assoc] at hnext
        exact ih _ _ _ (by rw [length_append]; exact hlt) hnext
    · rename_i hlt
      exact ⟨_, freed, xids, rfl, h, .inr ⟨by omega, le_antisymm hcount (not_lt.mp hlt)⟩⟩

end

structure ScanOk (sc : Scan) : Prop where
  folder : FolderOk sc.namelist
  seen : Seen sc.namelist sc.recoverI.toNat sc.listed sc.freed
  last : sc.recoverLast = sc.listed.getLast?

structure StateOk (s : State) : Prop where
  closed : Exact s
  cursor : ∀ sc, s.cursor = some sc → ScanOk sc

theorem scanOk_opened {namelist : List (List UInt8)} (h : FolderOk namelist) : ScanOk (opened namelist) where
  folder := h
  seen := by
    refine ⟨le_rfl, List.Perm.refl _, nodup_nil, fun x => ?_, fun z hz => nomatch hz⟩
    simp [opened]
  last := rfl

theorem Seen.length_le {sc : Scan} {k : ℕ} {xids : List Xid} {freed : List ℕ}
    (h : Seen sc.namelist sc.recoverI.toNat sc.listed sc.freed)
    (h' : Seen sc.namelist k (sc.listed ++ xids) freed) : xids.length ≤ sc.left.length := by
  obtain ⟨-, hnodup, hdisj⟩ := nodup_append.mp h'.nodup
  apply (hnodup.subperm _).length_le
  intro x hx
  have hnot : x ∉ sc.listed := fun hin => hdisj x hin x hx rfl
  obtain ⟨fname, hf, hfx⟩ := (h'.mem x).mp (mem_append_right _ hx)
  rw [Scan.left, mem_dedup, mem_filter, mem_filterMap]
  refine ⟨⟨fname, ?_, hfx⟩, by simpa using hnot⟩
  have hmem := mem_of_mem_drop hf
  rw [← take_append_drop sc.recoverI.toNat sc.namelist] at hmem
  rcases mem_append.mp hmem with hmem | hmem
  · exact hmem
  · exact absurd ((h.mem x).mpr ⟨fname, hmem, hfx⟩) hnot

/-- A call of the scan on an exact state returns, and leaves a sound one. -/
theorem unload_ok {s : State} {sc : Scan} {c : Call} (hclosed : Exact s) (hsc : ScanOk sc)
    (hfin : c.endrscan = true → sc.left.length < c.count) : ∃ r, unload s sc c = some r ∧ StateOk r.1 := by
  obtain ⟨_, freed, xids, hloop, hseen, hend⟩ :=
    recoverLoop_spec hsc.folder sc.listed sc.freed none [] [] (Nat.zero_le c.count) (by rw [append_nil, append_nil]; exact hsc.seen)
  rw [unload, hsc.last, hloop]
  refine ⟨_, rfl, ?_⟩
  have hlast : xids.getLast?.or sc.listed.getLast? = (sc.listed ++ xids).getLast? :=
    getLast?_append.symm
  rcases hend with ⟨rfl, hlt⟩ | ⟨-, heq⟩
  · -- every name was read, so that nothing is left to release
    have hclose : (c.endrscan || decide (xids.length < c.count)) = true := by simp [hlt]
    rw [hclose]
    refine ⟨?_, fun _ h => nomatch h⟩
    intro p hp
    rcases mem_append.mp hp with hp | hp
    · exact hclosed p hp
    · rw [mem_singleton.mp hp]
      refine ⟨?_, fun _ => ⟨hseen.nodup, hseen.mem⟩⟩
      exact hseen.freed
  · have hopen : (c.endrscan || decide (xids.length < c.count)) = false := by
      rw [heq, Bool.or_eq_false_iff]
      refine ⟨?_, by simp⟩
      by_contra hc
      have hle := hsc.seen.length_le hseen
      have hlt := hfin (by simpa using hc)
      omega
    rw [hopen]
    refine ⟨hclosed, ?_⟩
    intro sc' hsc'
    cases hsc'
    exact ⟨hsc.folder, hseen, hlast⟩

theorem xaRecoverEntry_ok {s : State} {c : Call} (h : StateOk s) (htidy : Tidy s c)
    (hfolder : ∀ namelist, c.folder = some namelist → FolderOk namelist) :
    ∃ r, xaRecoverEntry s c = some r ∧ StateOk r.1 := by
  have hfin := htidy.fin
  rw [xaRecoverEntry]
  by_cases hstart : c.startrscan = true
  · rw [if_pos hstart]
    have hnone : closeCursor s false = s := by rw [closeCursor, htidy.start hstart]
    rw [hnone]
    rw [if_pos hstart] at hfin
    cases hf : c.folder with
    | none => exact ⟨_, rfl, h⟩
    | some namelist =>
      apply unload_ok h.closed (scanOk_opened (hfolder namelist hf))
      intro hc
      exact hfin hc _ (by rw [hf]; rfl)
  · rw [if_neg hstart]
    rw [if_neg hstart] at hfin
    cases hcur : s.cursor with
    | none => exact ⟨_, rfl, h⟩
    | some sc => exact unload_ok h.closed (h.cursor sc hcur) (fun hc => hfin hc sc hcur)

theorem recoverRun_ok {s : State} {calls : List Call} (h : StateOk s) (htidy : TidyRun s calls)
    (hfolder : ∀ c ∈ calls, ∀ namelist, c.folder = some namelist → FolderOk namelist) :
    ∃ s', recoverRun s calls = some s' ∧ StateOk s' := by
  induction calls generalizing s with
  | nil => exact ⟨s, rfl, h⟩
  | cons c cs ih =>
    obtain ⟨r, hr, hok⟩ := xaRecoverEntry_ok h htidy.1 (hfolder c mem_cons_self)
    obtain ⟨s', hs', hok'⟩ := ih hok (htidy.2 r hr) (fun c hc => hfolder c (mem_cons_of_mem _ hc))
    exact ⟨s', by rw [recoverRun, hr]; exact hs', hok'⟩

def idle : State := ⟨none, []⟩

/-- Every run of calls that ends no scan early lists the prepared transactions of each scan once, and
releases each entry once. -/
theorem recover_scans_exact (calls : List Call) (htidy : TidyRun idle calls)
    (hfolder : ∀ c ∈ calls, ∀ namelist, c.folder = some namelist → FolderOk namelist) :
    ∃ s, recoverRun idle calls = some s ∧ Exact s := by
  have hidle : StateOk idle := ⟨fun _ hp => absurd hp not_mem_nil, fun _ hc => by cases hc⟩
  obtain ⟨s, hs, hok⟩ := recoverRun_ok hidle htidy hfolder
  exact ⟨s, hs, hok.closed⟩

def oneFile : List (List UInt8) := [[46], [46, 46], atmiXaSerializeXid Xid.zero ++ [45, 49]]

def firstXid : Xid := {Xid.zero with formatID := 1}

def threeFiles : List (List UInt8) := oneFile ++
  [atmiXaSerializeXid Xid.zero ++ [45, 50], atmiXaSerializeXid firstXid ++ [45, 49]]

def twoCalls : List Call := [⟨1, true, false, some threeFiles⟩, ⟨2, false, true, none⟩]

theorem twoCalls_tidy : TidyRun idle twoCalls := by
  refine ⟨⟨fun _ => rfl, ?_⟩, fun r hr => ⟨⟨?_, fun _ sc hsc => ?_⟩, fun _ _ => trivial⟩⟩
  · intro h
    cases h
  · intro h
    cases h
  have hleft : (xaRecoverEntry idle ⟨1, true, false, some threeFiles⟩).all
      (fun r => r.1.cursor.all (fun sc => sc.left.length < 2)) = true := by decide +kernel
  rw [hr, Option.all_some, show r.1.cursor = some sc from hsc] at hleft
  exact of_decide_eq_true hleft

theorem threeFiles_ok : FolderOk threeFiles where
  sorted := by decide +kernel
  prepared := by
    have hall : ∀ fname ∈ threeFiles, skipped fname = false → ∃ x ∈ [Xid.zero, firstXid],
        xidOf fname = some x ∧ atmiXaSerializeXid x = xidPart fname := by decide +kernel
    intro fname hf hskip
    obtain ⟨x, -, hx⟩ := hall fname hf hskip
    exact ⟨x, hx⟩

theorem recover_scans_two : ∃ s, recoverRun idle twoCalls = some s ∧
      s.closed.map (fun p => (p.1.listed, p.2)) = [([firstXid, Xid.zero], true)] ∧ Exact s := by
  obtain ⟨s, hs, hexact⟩ := recover_scans_exact twoCalls twoCalls_tidy (by
    intro c hc namelist hn
    simp only [twoCalls, mem_cons, not_mem_nil, or_false] at hc
    obtain rfl | rfl := hc
    · cases hn
      exact threeFiles_ok
    · cases hn)
  have hlisted : (recoverRun idle twoCalls).map (fun s => s.closed.map (fun p => (p.1.listed, p.2))) =
      some [([firstXid, Xid.zero], true)] := by decide +kernel
  rw [hs] at hlisted
  exact ⟨s, hs, Option.some.inj hlisted, hexact⟩

/-- A scan that is ended when the array is full releases its last entry twice. One that is ended by
a call without room releases an entry behind the list. -/
theorem recover_releases_twice : (∃ s, recoverRun idle [⟨1, true, true, some oneFile⟩] = some s ∧
      ∃ p ∈ s.closed, p.1.freed = [2, 2, 1, 0] ∧ ¬Released p.1) ∧
    ∃ s, recoverRun idle [⟨0, true, true, some oneFile⟩] = some s ∧
      ∃ p ∈ s.closed, p.1.freed = [3, 2, 1, 0] ∧ ¬Released p.1 := by
  refine ⟨⟨_, rfl, _, mem_cons_self, rfl, ?_⟩, ⟨_, rfl, _, mem_cons_self, rfl, ?_⟩⟩
  · exact fun h => absurd h.length_eq (by decide)
  · exact fun h => absurd h.length_eq (by decide)

end Endurox.Tmq.Recover
