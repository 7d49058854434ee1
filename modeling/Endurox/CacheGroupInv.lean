import Endurox.CacheGroup

/-! Groups list exactly the items that exist, over every sequence of operations, each of which
commits or aborts at any of its steps. -/

namespace Endurox.CacheGroup

open Base Cache List Function Option

variable {V : Type}

def keysOf (groups : Key → Option Group) (kg : Key) : List Key :=
  match groups kg with
  | none => []
  | some gr => gr.keys

/-- Groups list the keys that belong to them, once each; `g` gives the group of an item. -/
structure GroupsOk (c : ItemCache) (g : Key → Key) (groups : Key → Option Group) : Prop where
  nodup : ∀ kg, (keysOf groups kg).Nodup
  own : ∀ kg, ∀ k ∈ keysOf groups kg, g k = kg
  dbname : ∀ kg gr, groups kg = some gr → gr.dbname = some c.cachedbnm

variable {ks : List Key}

theorem occFound_none {key : Key} {occ : ℕ} {found : Option ℕ}
    (h : occFound key ks occ found = none) : key ∉ ks ∧ found = none := by
  induction ks generalizing occ found with
  | nil => exact ⟨by simp, h⟩
  | cons k ks ih =>
    obtain ⟨hks, hf⟩ := ih h
    by_cases hk : k = key
    · simp [hk] at hf
    · rw [if_neg hk] at hf
      exact ⟨by simp [hks, Ne.symm hk], hf⟩

theorem occFound_some {key : Key} {occ n : ℕ} {found : Option ℕ}
    (h : occFound key ks occ found = some n) :
    found = some n ∨ occ ≤ n ∧ ks[n-occ]? = some key := by
  induction ks generalizing occ found with
  | nil => exact .inl h
  | cons k ks ih =>
    rcases ih h with hf | ⟨_, hget⟩
    · by_cases hk : k = key
      · rw [if_pos hk] at hf
        cases hf
        exact .inr ⟨le_rfl, by simp [hk]⟩
      · rw [if_neg hk] at hf
        exact .inl hf
    · refine .inr ⟨by omega, ?_⟩
      rw [show n-occ = n-(occ+1)+1 by omega]
      exact hget

theorem eraseIdx_occFound {key : Key} {n : ℕ} (hnd : ks.Nodup)
    (h : occFound key ks 0 none = some n) : ks.eraseIdx n = ks.erase key := by
  rcases occFound_some h with hf | ⟨-, hget⟩
  · cases hf
  · rw [Nat.sub_zero] at hget
    obtain ⟨hlt, hget⟩ := List.getElem?_eq_some_iff.mp hget
    have hidx := hnd.idxOf_getElem n hlt
    rw [hget] at hidx
    exact (erase_eq_eraseIdx_of_idxOf hidx).symm

variable {kg k : Key}

section

variable {c : ItemCache} {g : Key → Key} {gr : Group}

theorem GroupsOk.update {groups : Key → Option Group} (h : GroupsOk c g groups)
    (hnd : gr.keys.Nodup) (hown : ∀ k ∈ gr.keys, g k = kg) (hdb : gr.dbname = some c.cachedbnm) :
    GroupsOk c g (Function.update groups kg (some gr)) := by
  have hkeys (kg' : Key) : keysOf (Function.update groups kg (some gr)) kg' =
      if kg' = kg then gr.keys else keysOf groups kg' := by
    by_cases hk : kg' = kg
    · subst hk
      simp [keysOf]
    · simp [keysOf, hk]
  refine ⟨?_, ?_, ?_⟩
  · intro kg'
    rw [hkeys]
    split
    · exact hnd
    · exact h.nodup kg'
  · intro kg' k hk
    rw [hkeys] at hk
    split at hk
    · subst_vars
      exact hown k hk
    · exact h.own kg' k hk
  · intro kg' gr' hgr'
    by_cases hk : kg' = kg
    · subst hk
      rw [update_self] at hgr'
      cases hgr'
      exact hdb
    · rw [update_of_ne hk] at hgr'
      exact h.dbname kg' gr' hgr'

variable {f : Faults}

theorem putGroup_eq {s s' : Store V} (h : putGroup f kg gr s = some s') :
    s' = { s with groups := update s.groups kg (some gr) } := by
  rw [putGroup] at h
  split at h
  · cases h
  · cases h
    rfl

/-- What `ndrx_cache_keygrp_addupd` does to the lists: the key is added to its group, or removed
from it, and nothing else changes. -/
structure Relisted (c : ItemCache) (g : Key → Key) (k : Key) (deleteop : Bool)
    (s s' : Store V) : Prop where
  items : s'.items = s.items
  ok : GroupsOk c g s'.groups
  self : k ∈ keysOf s'.groups (g k) ↔ deleteop = false
  other : ∀ k' ≠ k, k' ∈ keysOf s'.groups (g k') ↔ k' ∈ keysOf s.groups (g k')

variable {deleteop : Bool}

theorem relisted_put {s s' : Store V} (hok : GroupsOk c g s.groups)
    (h : putGroup f (g k) gr s = some s') (hnd : gr.keys.Nodup)
    (hdb : gr.dbname = some c.cachedbnm) (hself : k ∈ gr.keys ↔ deleteop = false)
    (hother : ∀ k' ≠ k, k' ∈ gr.keys ↔ k' ∈ keysOf s.groups (g k)) :
    Relisted c g k deleteop s s' := by
  cases putGroup_eq h
  have hown : ∀ k' ∈ gr.keys, g k' = g k := by
    intro k' hk'
    by_cases hkk : k' = k
    · rw [hkk]
    · exact hok.own _ k' ((hother k' hkk).mp hk')
  refine ⟨rfl, hok.update hnd hown hdb, ?_, ?_⟩
  · simpa [keysOf] using hself
  · intro k' hk'
    by_cases hkg : g k' = g k
    · rw [hkg]
      simpa [keysOf] using hother k' hk'
    · simp [keysOf, update_of_ne hkg]

theorem relisted_same {s : Store V} (hok : GroupsOk c g s.groups)
    (hself : k ∈ keysOf s.groups (g k) ↔ deleteop = false) : Relisted c g k deleteop s s :=
  ⟨rfl, hok, hself, fun _ _ => Iff.rfl⟩

theorem keygrpAddupd_relists {s s' : Store V} (hok : GroupsOk c g s.groups) (hkg : kg = g k)
    (h : keygrpAddupd c f kg k deleteop s = some s') :
    Relisted c g k deleteop s s' := by
  subst hkg
  rw [keygrpAddupd] at h
  split at h
  · cases h
  cases hgr : s.groups (g k) with
  | none =>
    have hnil : keysOf s.groups (g k) = [] := by simp [keysOf, hgr]
    rw [hgr] at h
    cases deleteop with
    | true =>
      cases h
      exact relisted_same hok (by simp [hnil])
    | false =>
      apply relisted_put hok h (by simp) rfl (by simp)
      intro k' hk'
      simp [hnil, hk']
  | some gr =>
    have hkeys : keysOf s.groups (g k) = gr.keys := by simp [keysOf, hgr]
    have hnd : gr.keys.Nodup := hkeys ▸ hok.nodup (g k)
    have hdb := hok.dbname _ gr hgr
    rw [hgr] at h
    simp only [hdb, ne_eq] at h
    split at h
    · cases h
    cases hocc : occFound k gr.keys 0 none with
    | none =>
      have hnot := (occFound_none hocc).1
      rw [hocc] at h
      cases deleteop with
      | true =>
        cases h
        exact relisted_same hok (by simp [hkeys, hnot])
      | false =>
        apply relisted_put hok h _ rfl (by simp)
        · intro k' hk'
          simp [hkeys, hk']
        · simpa [nodup_append] using ⟨hnd, fun a ha hak => hnot (hak ▸ ha)⟩
    | some =>
      have hmem : k ∈ gr.keys := by
        rcases occFound_some hocc with hf | ⟨-, hget⟩
        · cases hf
        · exact mem_of_getElem? hget
      rw [hocc] at h
      cases deleteop with
      | true =>
        simp only [eraseIdx_occFound hnd hocc] at h
        apply relisted_put hok h (hnd.erase k) rfl
        · simp [hnd.mem_erase_iff]
        · intro k' hk'
          simp [hkeys, hk']
      | false =>
        cases h
        exact relisted_same hok (by simp [hkeys, hmem])

end

structure Inv (str : V → Option (List UInt8)) (c : ItemCache) (g : Key → Key) (s : Store V) :
    Prop where
  groups : GroupsOk c g s.groups
  listed : ∀ k, (s.items k).isSome ↔ k ∈ keysOf s.groups (g k)
  item : ∀ k it, s.items k = some it →
    it.keyitems = true ∧ it.svcnm = c.svcnm ∧ it.cacheIdx = c.idx ∧
      ∀ kg, keygetUbf str c.keygrpfmt it.buf = some kg → kg = g k

section

variable {str : V → Option (List UInt8)} {c : ItemCache} {g : Key → Key} {f : Faults}
  {s s' : Store V}

theorem Inv.empty : Inv str c g (Store.empty : Store V) := by
  refine ⟨⟨?_, ?_, ?_⟩, ?_, ?_⟩
  · intro kg
    exact nodup_nil
  · intro kg k hk
    cases hk
  · intro kg gr h
    cases h
  · intro k
    simp [Store.empty, keysOf]
  · intro k it h
    cases h

theorem Inv.delete (h : Inv str c g s) (hr : Relisted c g k true (delItem k s) s') :
    Inv str c g s' := by
  have hitems (k' : Key) : s'.items k' = if k' = k then none else s.items k' := by
    rw [hr.items, delItem]
    by_cases hk : k' = k
    · subst hk
      simp
    · simp [hk]
  refine ⟨hr.ok, ?_, ?_⟩
  · intro k'
    rw [hitems]
    by_cases hk : k' = k
    · subst hk
      simp [hr.self]
    · rw [if_neg hk, h.listed, hr.other k' hk]
      rfl
  · intro k' it hit
    rw [hitems] at hit
    split at hit
    · cases hit
    · exact h.item k' it hit

theorem Inv.save {r : Buf V} {tperrno tpurcode : Int} (h : Inv str c g s) (hc : c.keyitems = true)
    (hdet : ∀ k kg, keygetUbf str c.keyfmt r = some k → keygetUbf str c.keygrpfmt r = some kg →
      kg = g k) (hs : save str c f r tperrno tpurcode s = some s') : Inv str c g s' := by
  rw [CacheGroup.save] at hs
  split at hs
  · rename_i k hk _
    split at hs
    · cases hs
    obtain ⟨kg, hkg, hs⟩ := bind_eq_some_iff.mp hs
    obtain ⟨_, hadd, hs⟩ := bind_eq_some_iff.mp hs
    have hr := keygrpAddupd_relists h.groups (hdet k kg hk hkg) hadd
    rw [putItem] at hs
    split at hs
    · cases hs
    cases hs
    refine ⟨hr.ok, ?_, ?_⟩
    · intro k'
      by_cases hkk : k' = k
      · subst hkk
        simp [hr.self]
      · simp only [update_of_ne hkk, hr.items, hr.other k' hkk]
        exact h.listed k'
    · intro k' it hit
      by_cases hkk : k' = k
      · subst hkk
        simp only [update_self, some.injEq] at hit
        subst hit
        refine ⟨hc, rfl, rfl, ?_⟩
        intro kg' hkg'
        exact hdet k' kg' hk (keygetUbf_prepproj hkg')
      · simp only [update_of_ne hkk, hr.items] at hit
        exact h.item k' it hit
  · cases hs
    exact h
  · cases hs

theorem broadcast_eq (h : broadcast f s = some s') : s' = s := by
  rw [broadcast] at h
  split at h
  · cases h
  · cases h
    rfl

theorem Inv.relists (h : Inv str c g s) (hkg : kg = g k)
    (hadd : keygrpAddupd c f kg k true (delItem k s) = some s') : Inv str c g s' :=
  h.delete (keygrpAddupd_relists (s := delItem k s) h.groups hkg hadd)

theorem Inv.byKey {caches : List UInt8 → ℕ → Option ItemCache} (h : Inv str c g s)
    (hc : c.keyitems = true) (hcaches : caches c.svcnm c.idx = some c) (hne : g k ≠ [])
    (hs : invalByKey str c caches f k s = some s') : Inv str c g s' := by
  rw [invalByKey] at hs
  split at hs
  · cases hs
  cases hit : s.items k with
  | none =>
    rw [hit] at hs
    cases broadcast_eq hs
    exact h
  | some it =>
    obtain ⟨hki, hsvc, hidx, hgrp⟩ := h.item k it hit
    rw [hit] at hs
    simp only [hki, hsvc, hidx, hcaches, hc] at hs
    obtain ⟨keygrp, hkeygrp, hs⟩ := bind_eq_some_iff.mp hs
    obtain ⟨_, hdel, hs⟩ := bind_eq_some_iff.mp hs
    cases broadcast_eq hs
    have hkg : keygrp = g k := by
      rw [keygrpGetkeyFromData] at hkeygrp
      split at hkeygrp
      · cases hkeygrp
      · rw [cacheGetUbf_empty] at hkeygrp
        exact hgrp keygrp hkeygrp
    rw [delListed] at hdel
    split at hdel
    · cases hdel
    · rw [if_neg (hkg ▸ hne)] at hdel
      exact h.relists hkg hdel

theorem Inv.their {idata : Buf V} (h : Inv str c g s) (hc : c.keyitems = true)
    (hdet : ∀ kg, keygetUbf str c.keygrpfmt idata = some kg → kg = g k)
    (hs : invalTheir str c f k idata s = some s') : Inv str c g s' := by
  rw [invalTheir] at hs
  split at hs
  · cases hs
  obtain ⟨kg, hkg, hs⟩ := bind_eq_some_iff.mp hs
  obtain ⟨_, hadd, hs⟩ := bind_eq_some_iff.mp hs
  cases broadcast_eq hs
  exact h.relists (hdet kg hkg) hadd

theorem Inv.byData {idata : Buf V} (h : Inv str c g s) (hc : c.keyitems = true)
    (hdet : ∀ k kg, keygetUbf str c.keyfmt idata = some k →
      keygetUbf str c.keygrpfmt idata = some kg → kg = g k) (hdel : f.itemDel = false)
    (hs : invalByData str c f idata s = some s') : Inv str c g s' := by
  obtain ⟨k, hk, hs⟩ := bind_eq_some_iff.mp hs
  simp only [hdel, hc] at hs
  obtain ⟨kg, hkg, hs⟩ := bind_eq_some_iff.mp hs
  exact h.relists (hdet k kg hk hkg) hs

theorem delKeys_eq {n : ℕ} {items items' : Key → Option (Item V)}
    (h : delKeys f ks n items = some items') (k : Key) :
    items' k = if k ∈ ks then none else items k := by
  induction ks generalizing n items with
  | nil =>
    cases h
    simp
  | cons k₁ ks ih =>
    rw [delKeys] at h
    split at h
    · cases h
    · rw [ih h]
      by_cases hk : k = k₁
      · subst hk
        simp
      · simp [hk]

variable {want : Option Key}

/-- Invalidating a group removes its keys and its list, and nothing else. -/
theorem keygrpInvalByKey_eq (h : Inv str c g s)
    (hs : keygrpInvalByKey f c.cachedbnm want kg s = some s') :
    (∀ k, s'.items k = if g k = kg then none else s.items k) ∧
      s'.groups = update s.groups kg none := by
  rw [keygrpInvalByKey] at hs
  split at hs
  · cases hs
  cases hgr : s.groups kg with
  | none =>
    rw [hgr] at hs
    cases hs
  | some gr =>
    have hkeys : keysOf s.groups kg = gr.keys := by simp [keysOf, hgr]
    rw [hgr] at hs
    simp only at hs
    split at hs
    · cases hs
    rw [invalgroup, h.groups.dbname kg gr hgr] at hs
    simp only [if_true] at hs
    split at hs
    · cases hs
    rename_i items hitems
    split at hs
    · cases hs
    cases hs
    refine ⟨?_, rfl⟩
    split at hitems
    · cases hitems
    intro k
    simp only
    rw [delKeys_eq hitems, ← hkeys]
    by_cases hk : g k = kg
    · rw [if_pos hk]
      split
      · rfl
      · rename_i hnot
        -- an item of the group would be listed
        rw [← hk, ← h.listed] at hnot
        simpa using hnot
    · rw [if_neg hk, if_neg]
      intro hmem
      exact hk (h.groups.own kg k hmem)

theorem Inv.group (h : Inv str c g s) (hs : keygrpInvalByKey f c.cachedbnm want kg s = some s') :
    Inv str c g s' := by
  obtain ⟨hitems, hgroups⟩ := keygrpInvalByKey_eq h hs
  have hkeys (kg' : Key) : keysOf s'.groups kg' = if kg' = kg then [] else keysOf s.groups kg' := by
    rw [hgroups]
    by_cases hk : kg' = kg
    · subst hk
      simp [keysOf]
    · simp [keysOf, hk]
  refine ⟨⟨?_, ?_, ?_⟩, ?_, ?_⟩
  · intro kg'
    rw [hkeys]
    split
    · exact nodup_nil
    · exact h.groups.nodup kg'
  · intro kg' k hk
    rw [hkeys] at hk
    split at hk
    · cases hk
    · exact h.groups.own kg' k hk
  · intro kg' gr hgr
    rw [hgroups] at hgr
    by_cases hk : kg' = kg
    · subst hk
      simp at hgr
    · rw [update_of_ne hk] at hgr
      exact h.groups.dbname kg' gr hgr
  · intro k
    rw [hitems, hkeys]
    by_cases hk : g k = kg
    · simp [hk]
    · rw [if_neg hk, if_neg hk]
      exact h.listed k
  · intro k it hit
    rw [hitems] at hit
    split at hit
    · cases hit
    · exact h.item k it hit

def Gone (g : Key → Key) (kg : Key) (s : Store V) : Prop :=
  (∀ k, g k = kg → s.items k = none) ∧ s.groups kg = none

theorem Gone.of_keygrpInvalByKey (h : Inv str c g s)
    (hs : keygrpInvalByKey f c.cachedbnm want kg s = some s') : Gone g kg s' := by
  obtain ⟨hitems, hgroups⟩ := keygrpInvalByKey_eq h hs
  refine ⟨?_, ?_⟩
  · intro k hk
    rw [hitems, if_pos hk]
  · rw [hgroups, update_self]

theorem Gone.of_no_group (h : Inv str c g s) (hkg : s.groups kg = none) : Gone g kg s := by
  refine ⟨?_, hkg⟩
  intro k hk
  have hnot : ¬ (s.items k).isSome := by
    rw [h.listed, hk]
    simp [keysOf, hkg]
  simpa using hnot

end

section

variable (str : V → Option (List UInt8)) (c : ItemCache) (g : Key → Key)
  (caches : List UInt8 → ℕ → Option ItemCache)

/-- The key of an item determines the key of its group, whichever buffer both are built from. -/
def Determined : Op V → Prop
  | .save r _ _ => ∀ k kg, keygetUbf str c.keyfmt r = some k →
      keygetUbf str c.keygrpfmt r = some kg → kg = g k
  | .byData idata => ∀ k kg, keygetUbf str c.keyfmt idata = some k →
      keygetUbf str c.keygrpfmt idata = some kg → kg = g k
  | .their k idata => ∀ kg, keygetUbf str c.keygrpfmt idata = some kg → kg = g k
  | _ => True

/-- A removal by data does not fail to delete the item, and one by key is not of an item whose
group has the empty key. -/
def Sound (e : Op V × Faults) : Prop :=
  match e.1 with
  | .byData _ => e.2.itemDel = false
  | .byKey k => g k ≠ []
  | _ => True

def groupKey : Op V → Option Key
  | .groupByKey kg => some kg
  | .theirGroup inv idata => keygetUbf str inv.keygrpfmt idata
  | .groupByData idata => keygetUbf str c.keygrpfmt idata
  | _ => none

variable {str c g caches} {s s' : Store V} {e : Op V × Faults}

/-- What an invalidation of a group does: nothing where there is no group, or it is removed. -/
theorem txn_group {f : Faults} {op : Op V} (hkg : groupKey str c op = some kg)
    (hs : txn str c caches f op s = some s') :
    s.groups kg = none ∧ s' = s ∨ ∃ want, keygrpInvalByKey f c.cachedbnm want kg s = some s' := by
  cases op with
  | save | byKey | their | byData => cases hkg
  | groupByKey =>
    cases hkg
    simp only [CacheGroup.txn, invalGroupByKey] at hs
    split at hs
    · cases hs
    split at hs
    · rename_i hnone
      exact .inl ⟨hnone, broadcast_eq hs⟩
    · obtain ⟨_, hdel, hs⟩ := bind_eq_some_iff.mp hs
      cases broadcast_eq hs
      exact .inr ⟨_, hdel⟩
  | theirGroup =>
    obtain ⟨kg', hkg', hs⟩ := bind_eq_some_iff.mp hs
    cases hkg'.symm.trans hkg
    split at hs
    · obtain ⟨_, hdel, hs⟩ := bind_eq_some_iff.mp hs
      cases broadcast_eq hs
      exact .inr ⟨_, hdel⟩
    · cases hs
  | groupByData =>
    obtain ⟨_, hkg', hs⟩ := bind_eq_some_iff.mp hs
    cases hkg'.symm.trans hkg
    exact .inr ⟨_, hs⟩

theorem Gone.of_txn (h : Inv str c g s) (hkg : groupKey str c e.1 = some kg)
    (hs : txn str c caches e.2 e.1 s = some s') : Gone g kg s' := by
  rcases txn_group hkg hs with ⟨hnone, rfl⟩ | ⟨_, hdel⟩
  · exact .of_no_group h hnone
  · exact .of_keygrpInvalByKey h hdel

theorem Inv.txn (h : Inv str c g s) (hc : c.keyitems = true)
    (hcaches : caches c.svcnm c.idx = some c) (hdet : Determined str c g e.1) (hsound : Sound g e)
    (hs : txn str c caches e.2 e.1 s = some s') : Inv str c g s' := by
  have hgroup {kg : Key} (hkg : groupKey str c e.1 = some kg) : Inv str c g s' := by
    rcases txn_group hkg hs with ⟨-, rfl⟩ | ⟨_, hdel⟩
    · exact h
    · exact h.group hdel
  obtain ⟨op, _⟩ := e
  cases op with
  | save => exact h.save hc hdet hs
  | byKey => exact h.byKey hc hcaches hsound hs
  | their => exact h.their hc hdet hs
  | byData => exact h.byData hc hdet hsound hs
  | groupByKey => exact hgroup rfl
  | theirGroup | groupByData =>
    obtain ⟨_, hkg, -⟩ := bind_eq_some_iff.mp hs
    exact hgroup hkg

theorem Inv.step (h : Inv str c g s) (hc : c.keyitems = true)
    (hcaches : caches c.svcnm c.idx = some c) (hdet : Determined str c g e.1) (hsound : Sound g e) :
    Inv str c g (step str c caches s e) := by
  rw [CacheGroup.step]
  split
  · exact h
  · rename_i s' hs
    split
    · exact h
    · exact h.txn hc hcaches hdet hsound hs

theorem Inv.run (hc : c.keyitems = true) (hcaches : caches c.svcnm c.idx = some c)
    {es : List (Op V × Faults)} (hok : ∀ e ∈ es, Determined str c g e.1 ∧ Sound g e) :
    Inv str c g (run str c caches es) := by
  have hfold (es : List (Op V × Faults)) (s : Store V) (h : Inv str c g s)
      (hok : ∀ e ∈ es, Determined str c g e.1 ∧ Sound g e) :
      Inv str c g (es.foldl (CacheGroup.step str c caches) s) := by
    induction es generalizing s with
    | nil => exact h
    | cons e es ih =>
      obtain ⟨hdet, hsound⟩ := hok e (by simp)
      exact ih _ (h.step hc hcaches hdet hsound) fun e' he' => hok e' (by simp [he'])
  exact hfold es .empty .empty hok

/-- After every operation an item exists exactly when it is listed in its group, once; after a
whole group was invalidated, nothing of it is left. -/
theorem groups_list_items (hc : c.keyitems = true) (hcaches : caches c.svcnm c.idx = some c)
    {es : List (Op V × Faults)} {e : Op V × Faults}
    (hok : ∀ e' ∈ es ++ [e], Determined str c g e'.1 ∧ Sound g e') :
    (∀ k, (keysOf (run str c caches (es ++ [e])).groups (g k)).count k =
      if ((run str c caches (es ++ [e])).items k).isSome then 1 else 0) ∧
    ∀ kg, groupKey str c e.1 = some kg → (txn str c caches e.2 e.1 (run str c caches es)).isSome →
      e.2.commit = false → Gone g kg (run str c caches (es ++ [e])) := by
  have h := Inv.run hc hcaches hok
  refine ⟨?_, ?_⟩
  · intro k
    rw [(h.groups.nodup (g k)).count]
    simp [h.listed]
  intro kg hkg hs hcommit
  obtain ⟨s', hs'⟩ := isSome_iff_exists.mp hs
  have hrun : run str c caches (es ++ [e]) = s' := by
    rw [CacheGroup.run, foldl_append]
    simp only [foldl_cons]
    rw [CacheGroup.run] at hs'
    rw [CacheGroup.step, hs']
    simp [hcommit]
  rw [hrun]
  apply Gone.of_txn _ hkg hs'
  apply Inv.run hc hcaches
  intro e' he'
  exact hok e' (by simp [he'])

end

def demoCache : ItemCache where
  svcnm := [83]
  idx := 0
  cachedbnm := [100]
  keyitems := true
  keyfmt := [.field [70, 49] 1 0]
  keygrpdb := [103]
  keygrpfmt := [.field [70, 50] 2 0]
  proj := .full
  mode := .repl
  rsprule := none

def demoCaches (_ : List UInt8) (_ : ℕ) : Option ItemCache := some demoCache

def demoBuf (k kg : List UInt8) : Buf (List UInt8) where
  fields := [(1, k), (2, kg)]
  ordered := by simp [Ordered]

theorem groups_list_items_demo : Gone (fun _ => [71]) [71] (run some demoCache demoCaches
      [(.save (demoBuf [65] [71]) 0 0, .none), (.groupByKey [71], .none)]) := by
  have hok : ∀ e ∈ [(Op.save (demoBuf [65] [71]) 0 0, Faults.none)] ++
      [(Op.groupByKey [71], Faults.none)],
      Determined some demoCache (fun _ => [71]) e.1 ∧ Sound (fun _ => [71]) e := by
    simp only [cons_append, nil_append, forall_mem_cons]
    refine ⟨⟨?_, trivial⟩, ⟨trivial, trivial⟩, by simp⟩
    intro k kg _ hkg
    cases hkg
    rfl
  have hcaches : demoCaches demoCache.svcnm demoCache.idx = some demoCache := rfl
  exact (groups_list_items rfl hcaches hok).2 [71] rfl rfl rfl

def demoLost : Store (List UInt8) :=
  run some demoCache demoCaches [(.save (demoBuf [65] [71]) 0 0, .none),
    (.byData (demoBuf [65] [71]), { Faults.none with itemDel := true })]

def demoKept : Store (List UInt8) :=
  run some demoCache demoCaches [(.save (demoBuf [65] []) 0 0, .none), (.byKey [65], .none)]

/-- The first leaves an item that no group lists, the second a list with an item that is gone. -/
theorem groups_miss_items : ((demoLost.items [65]).isSome ∧ [65] ∉ keysOf demoLost.groups [71]) ∧
      (demoKept.items [65]).isNone ∧ [65] ∈ keysOf demoKept.groups [] := by
  decide

end Endurox.CacheGroup
