import Endurox.CacheGroupInv

/-! `ndrx_cache_inval_their` (`libatmi/atmi_cache_inval.c`): what an invalidator leaves of the cache
it points at, and when it tells the other nodes. -/

namespace Endurox.CacheGroup

open Cache

variable {V : Type}

/-- The items of the target, and every group database by its name. -/
structure Dbs (V : Type) where
  items : Key → Option (Item V)
  groups : Key → Key → Option Group

def Dbs.store (x : Dbs V) (db : Key) : Store V := ⟨x.items, x.groups db⟩

def Dbs.put (x : Dbs V) (db : Key) (s : Store V) : Dbs V :=
  ⟨s.items, Function.update x.groups db s.groups⟩

/-- Why nothing is committed; `nullDb` is the crash on a `keygrpdb` that is NULL. -/
inductive Stop
  | failed | nullDb
  deriving DecidableEq

structure Inval (V : Type) where
  dbs : Except Stop (Dbs V)
  announced : Bool

section

variable (str : V → Option (List UInt8)) (c : ItemCache)

def orFailed {α : Type} : Option α → Except Stop α
  | none => .error .failed
  | some a => .ok a

/-- The deletes in front of `ok_broadcast`. A whole group is looked up in the database of the
invalidator, a single item in that of the target. -/
def theirDeletes (f : Faults) (invlkeygrp : Bool) (inv : Invalidator) (k : Key) (idata : Buf V)
    (x : Dbs V) : Except Stop (Dbs V) :=
  if c.keyitems && invlkeygrp then
    (orFailed (keygetUbf str inv.keygrpfmt idata)).bind fun kg =>
      match inv.keygrpdb with
      | none => .error .nullDb
      | some db => orFailed
          ((keygrpInvalByKey f c.cachedbnm (some inv.cachedbnm) kg (x.store db)).map (x.put db))
  else if f.itemDel then .error .failed
  else
    let s := delItem k (x.store c.keygrpdb)
    orFailed (Option.map (x.put c.keygrpdb) (if c.keyitems then
      (keygetUbf str c.keygrpfmt idata).bind fun kg => keygrpAddupd c f kg k true s
    else some s))

/-- From `ok_broadcast` on: a delete that cannot be told to the other nodes is aborted. -/
def okBroadcast (f : Faults) (bcastdel : Bool) : Except Stop (Dbs V) → Inval V
  | .error e => ⟨.error e, false⟩
  | .ok x => ⟨if bcastdel && f.bcast then .error .failed else .ok x, bcastdel⟩

def cacheInvalTheir (f : Faults) (bcastdel invlkeygrp : Bool) (inv : Invalidator) (k : Key)
    (idata : Buf V) (x : Dbs V) : Inval V :=
  okBroadcast f bcastdel (theirDeletes str c f invlkeygrp inv k idata x)

end

/-- The call succeeds, the target is gone (with `invalkeygrp` the group and the items it lists) and
the delete is announced as the database asks. -/
def Inval.Done (c : ItemCache) (bcastdel invlkeygrp : Bool) (kg k : Key) (x : Dbs V)
    (r : Inval V) : Prop :=
  r.announced = bcastdel ∧ ∃ x', r.dbs = .ok x' ∧ if c.keyitems && invlkeygrp then
      x'.groups c.keygrpdb kg = none ∧ ∀ g, x.groups c.keygrpdb kg = some g →
        g.dbname = some c.cachedbnm → ∀ k' ∈ g.keys, x'.items k' = none
    else x'.items k = none

theorem okBroadcast_store (f : Faults) (x : Dbs V) (db : Key) (r : Option (Store V)) :
    (okBroadcast f true (orFailed (r.map (x.put db)))).dbs.toOption.map (fun y => y.store db) =
      r.bind (broadcast f) := by
  cases r with
  | none => rfl
  | some s =>
    have hput : (x.put db s).store db = s := by simp [Dbs.put, Dbs.store]
    simp only [Option.map_some, orFailed, okBroadcast, Option.bind_some, broadcast, Bool.true_and]
    split
    · rfl
    · exact congrArg some hput

/-- Where the invalidator has the group database of the target, the operations of the group model
are this one over a database with `bcastdel`. -/
theorem cacheInvalTheir_store (str : V → Option (List UInt8)) (c : ItemCache) (f : Faults)
    (invlkeygrp : Bool) (inv : Invalidator) (hdb : inv.keygrpdb = some c.keygrpdb)
    (k : Key) (idata : Buf V) (x : Dbs V) :
    (cacheInvalTheir str c f true invlkeygrp inv k idata x).dbs.toOption.map
      (fun y => y.store c.keygrpdb) =
      if c.keyitems && invlkeygrp then invalTheirGroup str c f inv idata (x.store c.keygrpdb)
      else invalTheir str c f k idata (x.store c.keygrpdb) := by
  simp only [cacheInvalTheir, theirDeletes, invalTheirGroup, invalTheir, hdb, if_true]
  split
  · cases keygetUbf str inv.keygrpfmt idata with
    | none => rfl
    | some kg => exact okBroadcast_store ..
  · split
    · rfl
    · rw [okBroadcast_store]
      split
      · exact Option.bind_assoc ..
      · rfl

theorem orFailed_some {α : Type} (a : α) : orFailed (some a) = .ok a := rfl

theorem orFailed_map_eq_ok {α β : Type} {o : Option α} {p : α → β} {b : β} :
    orFailed (o.map p) = .ok b ↔ ∃ a, o = some a ∧ p a = b := by
  cases o <;> simp [orFailed]

variable {c : ItemCache} {kg k nm : Key} {s s' : Store V}

theorem delKeys_ok (ks : List Key) (n : ℕ) (items : Key → Option (Item V)) :
    ∃ items', delKeys .none ks n items = some items' := by
  induction ks generalizing n items with
  | nil => exact ⟨items, rfl⟩
  | cons k ks ih => exact ih ..

/-- The record has to name the database asked for; an empty one may have lost its name. -/
def Group.Names (nm : Key) (g : Group) : Prop :=
  g.dbname = some nm ∨ g.dbname = none ∧ g.keys = []

theorem keygrpInvalByKey_ok {g : Group} (hg : s.groups kg = some g) (hnm : g.Names nm) :
    ∃ s', keygrpInvalByKey .none c.cachedbnm (some nm) kg s = some s' := by
  obtain ⟨items, hitems⟩ := delKeys_ok g.keys 0 s.items
  have hread : (Faults.none).grpGet = false ∧ (Faults.none).grpRead = false ∧
    (Faults.none).grpDel = false := ⟨rfl, rfl, rfl⟩
  rcases hnm with hdb | ⟨hdb, hkeys⟩
  · by_cases hown : nm = c.cachedbnm
    · simp [keygrpInvalByKey, invalgroup, hg, hread, hdb, hown, hitems]
    · simp [keygrpInvalByKey, invalgroup, hg, hread, hdb, hown]
  · simp [keygrpInvalByKey, invalgroup, hg, hread, hdb, hkeys]

theorem keygrpInvalByKey_done {f : Faults}
    (h : keygrpInvalByKey f c.cachedbnm (some nm) kg s = some s') :
    ∃ g, s.groups kg = some g ∧ g.Names nm ∧ s'.groups = Function.update s.groups kg none ∧
      (g.dbname = some c.cachedbnm → ∀ k' ∈ g.keys, s'.items k' = none) := by
  rw [keygrpInvalByKey] at h
  split at h
  · cases h
  split at h
  · cases h
  rename_i g hg
  split at h
  · cases h
  split at h
  · cases h
  rename_i items hitems
  split at h
  · cases h
  cases h
  refine ⟨g, hg, ?_, rfl, ?_⟩
  · rw [invalgroup] at hitems
    grind [Group.Names]
  · intro hdb k' hk'
    simp only [invalgroup, hdb] at hitems
    split at hitems
    · cases hitems
    · rw [if_true] at hitems
      simp [delKeys_eq hitems, hk']

theorem keygrpAddupd_delete_done :
    (∃ s', keygrpAddupd c .none kg k true (delItem k s) = some s' ∧ s'.items k = none) ↔
      ∀ g, s.groups kg = some g → g.dbname = some c.cachedbnm := by
  simp only [keygrpAddupd, putGroup, Faults.none, delItem]
  cases hg : s.groups kg with
  | none => simp
  | some g =>
    by_cases hdb : g.dbname = some c.cachedbnm
    · cases hocc : occFound k g.keys 0 none <;> simp [hocc]
    · simp [hdb]

/-- A group is invalidated when the invalidator has a group database, the record is stored there
and names the database of the invalidator, and the target has the same group database or no such
group; a single item unless the record of its group names another database. -/
theorem inval_done_iff (str : V → Option (List UInt8)) (c : ItemCache)
    (bcastdel invlkeygrp : Bool) (inv : Invalidator) (k kg : Key) (idata : Buf V) (x : Dbs V)
    (hkg : c.keyitems →
      keygetUbf str (if invlkeygrp then inv.keygrpfmt else c.keygrpfmt) idata = some kg) :
    (cacheInvalTheir str c .none bcastdel invlkeygrp inv k idata x).Done c bcastdel invlkeygrp
      kg k x ↔
      if c.keyitems && invlkeygrp then
        ∃ db, inv.keygrpdb = some db ∧ (∃ g, x.groups db kg = some g ∧ g.Names inv.cachedbnm) ∧
          (db = c.keygrpdb ∨ x.groups c.keygrpdb kg = none)
      else c.keyitems → ∀ g, x.groups c.keygrpdb kg = some g → g.dbname = some c.cachedbnm := by
  -- the broadcast does not fail, so the deletes decide
  have hok (x' : Dbs V) : (cacheInvalTheir str c .none bcastdel invlkeygrp inv k idata x).dbs =
      .ok x' ↔ theirDeletes str c .none invlkeygrp inv k idata x = .ok x' := by
    rw [cacheInvalTheir]
    cases theirDeletes str c .none invlkeygrp inv k idata x with
    | error => simp [okBroadcast]
    | ok => simp [okBroadcast, Faults.none]
  have hdel : (Faults.none).itemDel = false := rfl
  refine (and_iff_right_of_imp ?_).trans ?_
  · rintro ⟨_, hx', -⟩
    rw [hok] at hx'
    simp [cacheInvalTheir, hx', okBroadcast]
  simp only [hok]
  rw [theirDeletes, hdel]
  cases hc : c.keyitems with
  | false => simp [delItem, orFailed, Dbs.put]
  | true =>
    cases invlkeygrp with
    | true =>
      have hkg : keygetUbf str inv.keygrpfmt idata = some kg := hkg hc
      simp only [hkg, Bool.true_and, if_true, orFailed_some, Except.bind]
      cases inv.keygrpdb with
      | none => simp
      | some db =>
        simp only [orFailed_map_eq_ok, Option.some.injEq]
        constructor
        · rintro ⟨_, ⟨s', hs', rfl⟩, hnone, -⟩
          obtain ⟨g, hg, hnm, -, -⟩ := keygrpInvalByKey_done hs'
          refine ⟨db, rfl, ⟨g, hg, hnm⟩, ?_⟩
          by_cases hdb : db = c.keygrpdb
          · exact .inl hdb
          · exact .inr (by simpa [Dbs.put, Ne.symm hdb] using hnone)
        · rintro ⟨_, rfl, ⟨g, hg, hnm⟩, hdb⟩
          obtain ⟨s', hs'⟩ := keygrpInvalByKey_ok (s := x.store db) (c := c) hg hnm
          obtain ⟨g', hg', -, hgroups, hitems⟩ := keygrpInvalByKey_done hs'
          refine ⟨_, ⟨s', hs', rfl⟩, ?_⟩
          by_cases hdb' : db = c.keygrpdb
          · subst hdb'
            refine ⟨by simp [Dbs.put, hgroups], ?_⟩
            intro g'' hg''
            cases hg'.symm.trans hg''
            exact hitems
          · have hnone := hdb.resolve_left hdb'
            simp [Dbs.put, Ne.symm hdb', hnone]
    | false =>
      have hkg : keygetUbf str c.keygrpfmt idata = some kg := hkg hc
      simp only [hkg, Bool.and_false, Bool.false_eq_true, if_false, if_true, Option.bind_some,
        orFailed_map_eq_ok, forall_const]
      refine Iff.trans ?_ (keygrpAddupd_delete_done (s := x.store c.keygrpdb) (k := k))
      constructor
      · rintro ⟨_, ⟨s', hs', rfl⟩, hgone⟩
        exact ⟨s', hs', hgone⟩
      · rintro ⟨s', hs', hgone⟩
        exact ⟨_, ⟨s', hs', rfl⟩, hgone⟩

def demoInval : Invalidator :=
  ⟨demoCache.cachedbnm, some demoCache.keygrpdb, demoCache.keygrpfmt⟩

def demoListed : Dbs (List UInt8) :=
  Dbs.put ⟨fun _ => none, fun _ _ => none⟩ demoCache.keygrpdb
    (run some demoCache demoCaches [(.save (demoBuf [65] [71]) 0 0, .none)])

theorem inval_done_listed :
    (cacheInvalTheir some demoCache .none true true demoInval [65] (demoBuf [65] [71])
      demoListed).Done demoCache true true [71] [65] demoListed :=
  (inval_done_iff some demoCache true true demoInval [65] [71] (demoBuf [65] [71]) demoListed
    (fun _ => by decide)).mpr
    ⟨demoCache.keygrpdb, rfl, ⟨⟨some demoCache.cachedbnm, [[65]]⟩, by rfl, .inl rfl⟩, .inl rfl⟩

/-- No group record is stored: the call fails, and the other nodes are not told. -/
theorem missing_group_not_announced :
    keygetUbf some demoInval.keygrpfmt (demoBuf [65] [71]) = some [71] ∧
    (cacheInvalTheir some demoCache .none true true demoInval [65] (demoBuf [65] [71])
      ⟨fun _ => none, fun _ _ => none⟩).dbs.toOption.isNone ∧
    (cacheInvalTheir some demoCache .none true true demoInval [65] (demoBuf [65] [71])
      ⟨fun _ => none, fun _ _ => none⟩).announced = false := by
  decide

end Endurox.CacheGroup
