import Endurox.CacheUbf

/-! Key groups of a cache: each item of a `keyitems` cache is listed in the record of its group, in
a database of its own (`libatmi/atmi_cache_keygrp.c`, `libatmi/atmi_cache_inval.c`). Every
operation runs in one database transaction; `none` stands for an operation that aborts. -/

namespace Endurox.CacheGroup

open Cache

variable {V : Type}

structure ItemCache where
  svcnm : List UInt8
  idx : ℕ
  cachedbnm : Key
  keyitems : Bool
  keyfmt : List KeyPart
  keygrpdb : Key
  keygrpfmt : List KeyPart
  proj : Proj
  mode : GetMode
  rsprule : Option (Int → Int → Option Bool)

structure Item (V : Type) where
  keyitems : Bool
  svcnm : List UInt8
  cacheIdx : ℕ
  buf : Buf V

structure Group where
  dbname : Option Key
  keys : List Key

structure Store (V : Type) where
  items : Key → Option (Item V)
  groups : Key → Option Group

def Store.empty : Store V := ⟨fun _ => none, fun _ => none⟩

structure Faults where
  conv : Bool  -- buffer conversions of the item
  itemGet : Bool
  itemDel : Bool
  itemPut : Bool
  grpGet : Bool
  grpRead : Bool  -- `ndrx_mbuf_prepare_incoming` of the group
  grpWrite : Bool  -- `Badd`, `Bdel`, `ndrx_mbuf_prepare_outgoing` of the group
  grpPut : Bool
  grpDel : Bool
  dels : ℕ → Bool  -- deletes of the items of a group
  bcast : Bool
  commit : Bool

def Faults.none : Faults :=
  ⟨false, false, false, false, false, false, false, false, false, fun _ => false, false, false⟩

def occFound (cachekey : Key) : List Key → ℕ → Option ℕ → Option ℕ
  | [], _, found => found
  | k :: ks, occ, found =>
    occFound cachekey ks (occ+1) (if k = cachekey then some occ else found)

def putGroup (f : Faults) (kg : Key) (g : Group) (s : Store V) : Option (Store V) :=
  if f.grpWrite || f.grpPut then none
  else some { s with groups := Function.update s.groups kg (some g) }

def keygrpAddupd (c : ItemCache) (f : Faults) (kg cachekey : Key) (deleteop : Bool)
    (s : Store V) : Option (Store V) :=
  if f.grpGet then none
  else match s.groups kg with
    | none =>
      if deleteop then some s else putGroup f kg ⟨some c.cachedbnm, [cachekey]⟩ s
    | some g =>
      if f.grpRead then none
      else if g.dbname ≠ some c.cachedbnm then none
      else match occFound cachekey g.keys 0 none with
        | none =>
          if deleteop then some s else putGroup f kg { g with keys := g.keys ++ [cachekey] } s
        | some occ =>
          if deleteop then putGroup f kg { g with keys := g.keys.eraseIdx occ } s else some s

def delKeys (f : Faults) : List Key → ℕ → (Key → Option (Item V)) → Option (Key → Option (Item V))
  | [], _, items => some items
  | k :: ks, n, items =>
    if f.dels n then none else delKeys f ks (n+1) (Function.update items k none)

def invalgroup (f : Faults) (itemdb : Key) (keyitemDbname : Option Key) (g : Group)
    (s : Store V) : Option (Key → Option (Item V)) :=
  match g.dbname with
  | none => if g.keys = [] then some s.items else none
  | some nm =>
    if keyitemDbname ≠ none ∧ keyitemDbname ≠ some nm then none
    else if nm = itemdb then delKeys f g.keys 0 s.items
    else some s.items

def keygrpInvalByKey (f : Faults) (itemdb : Key) (keyitemDbname : Option Key) (kg : Key)
    (s : Store V) : Option (Store V) :=
  if f.grpGet then none
  else match s.groups kg with
    | none => none
    | some g =>
      if f.grpRead then none
      else match invalgroup f itemdb keyitemDbname g s with
        | none => none
        | some items =>
          if f.grpDel then none else some ⟨items, Function.update s.groups kg none⟩

variable (str : V → Option (List UInt8)) (c : ItemCache)

def shouldSave (tperrno tpurcode : Int) : Option Bool :=
  match c.rsprule with
  | some rule => rule tperrno tpurcode
  | none => some (tperrno = 0)

def putItem (f : Faults) (k : Key) (r : Buf V) (s : Store V) : Option (Store V) :=
  if f.itemPut then none
  else some { s with
    items := Function.update s.items k (some ⟨c.keyitems, c.svcnm, c.idx, prepprojUbf c.proj r⟩) }

def save (f : Faults) (r : Buf V) (tperrno tpurcode : Int) (s : Store V) : Option (Store V) :=
  match keygetUbf str c.keyfmt r, shouldSave c tperrno tpurcode with
  | some k, some true =>
    if f.conv then none
    else if c.keyitems then
      (keygetUbf str c.keygrpfmt r).bind fun kg =>
        (keygrpAddupd c f kg k false s).bind (putItem c f k r)
    else putItem c f k r s
  | some _, some false => some s
  | _, _ => none

def delItem (k : Key) (s : Store V) : Store V :=
  { s with items := Function.update s.items k none }

def broadcast (f : Faults) (s : Store V) : Option (Store V) := if f.bcast then none else some s

def keygrpGetkeyFromData (f : Faults) (c : ItemCache) (it : Item V) : Option Key :=
  if f.conv then none else keygetUbf str c.keygrpfmt (cacheGetUbf c.mode .empty it.buf)

def delListed (c : ItemCache) (f : Faults) (keygrp k : Key) (s : Store V) : Option (Store V) :=
  if f.itemDel then none
  else if keygrp = [] then some (delItem k s)
  else keygrpAddupd c f keygrp k true (delItem k s)

def invalByKey (caches : List UInt8 → ℕ → Option (ItemCache)) (f : Faults) (k : Key)
    (s : Store V) : Option (Store V) :=
  if f.itemGet then none
  else match s.items k with
    | none => broadcast f s
    | some it =>
      if it.keyitems then
        match caches it.svcnm it.cacheIdx with
        -- the source warns, and does not update the group
        | none => (delListed c f [] k s).bind (broadcast f)
        | some c' =>
          if !c'.keyitems then none
          else (keygrpGetkeyFromData str f c' it).bind fun keygrp =>
            (delListed c' f keygrp k s).bind (broadcast f)
      else (delListed c f [] k s).bind (broadcast f)

def invalGroupByKey (f : Faults) (kg : Key) (s : Store V) : Option (Store V) :=
  if f.itemGet then none
  else match s.groups kg with
    | none => broadcast f s
    | some _ => (keygrpInvalByKey f c.cachedbnm none kg s).bind (broadcast f)

/-- `keygrpdb` may be missing, and nothing checks it against the one of the target. -/
structure Invalidator where
  cachedbnm : Key
  keygrpdb : Option Key
  keygrpfmt : List KeyPart

/-- The store has no other group database, where the record could be found. -/
def invalTheirGroup (f : Faults) (inv : Invalidator) (idata : Buf V) (s : Store V) :
    Option (Store V) :=
  (keygetUbf str inv.keygrpfmt idata).bind fun kg =>
    if inv.keygrpdb = some c.keygrpdb then
      (keygrpInvalByKey f c.cachedbnm (some inv.cachedbnm) kg s).bind (broadcast f)
    else none

def invalTheir (f : Faults) (k : Key) (idata : Buf V) (s : Store V) : Option (Store V) :=
  if f.itemDel then none
  else if c.keyitems then
    (keygetUbf str c.keygrpfmt idata).bind fun kg =>
      (keygrpAddupd c f kg k true (delItem k s)).bind (broadcast f)
  else broadcast f (delItem k s)

def invalGroupByData (f : Faults) (idata : Buf V) (s : Store V) : Option (Store V) :=
  (keygetUbf str c.keygrpfmt idata).bind fun kg =>
    keygrpInvalByKey f c.cachedbnm (some c.cachedbnm) kg s

/-- `ndrx_cache_inval_by_data` of a single item. The error of the delete is overwritten by what
the update of the group returns. -/
def invalByData (f : Faults) (idata : Buf V) (s : Store V) : Option (Store V) :=
  (keygetUbf str c.keyfmt idata).bind fun k =>
    let s' := if f.itemDel then s else delItem k s
    if c.keyitems then
      (keygetUbf str c.keygrpfmt idata).bind fun kg => keygrpAddupd c f kg k true s'
    else if f.itemDel then none
    else some s'

inductive Op (V : Type)
  | save (r : Buf V) (tperrno tpurcode : Int)
  | byKey (k : Key)
  | their (k : Key) (idata : Buf V)
  | byData (idata : Buf V)
  | groupByKey (kg : Key)
  | theirGroup (inv : Invalidator) (idata : Buf V)
  | groupByData (idata : Buf V)

def txn (caches : List UInt8 → ℕ → Option (ItemCache)) (f : Faults) (op : Op V) (s : Store V) :
    Option (Store V) :=
  match op with
  | .save r tperrno tpurcode => save str c f r tperrno tpurcode s
  | .byKey k => invalByKey str c caches f k s
  | .their k idata => invalTheir str c f k idata s
  | .byData idata => invalByData str c f idata s
  | .groupByKey kg => invalGroupByKey c f kg s
  | .theirGroup inv idata => invalTheirGroup str c f inv idata s
  | .groupByData idata => invalGroupByData str c f idata s

def step (caches : List UInt8 → ℕ → Option (ItemCache)) (s : Store V) (e : Op V × Faults) :
    Store V :=
  match txn str c caches e.2 e.1 s with
  | none => s
  | some s' => if e.2.commit then s else s'

def run (caches : List UInt8 → ℕ → Option (ItemCache)) (es : List (Op V × Faults)) : Store V :=
  es.foldl (step str c caches) .empty

end Endurox.CacheGroup
