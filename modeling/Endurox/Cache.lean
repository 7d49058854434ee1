import Endurox.BaseDups

/-! The records of a service cache (`include/atmi_cache.h`) and what a lookup does to the values
of its key (`ndrx_cache_lookup` of `libatmi/atmi_cache_ops.c`). The embedded database is taken as
an ordered store of the values of each key. -/

namespace Endurox.Cache

open Base

variable {β : Type}

/-- What was saved of a call: `ndrx_tpcache_data_t` without the counters; `buf` is `atmi_buf`. -/
structure Saved (β : Type) where
  t : Int
  tusec : Int
  nodeid : Int
  savedTperrno : Int
  savedTpurcode : Int
  buf : β
  deriving DecidableEq

structure Data (β : Type) where
  saved : Saved β
  hits : Int
  hitT : Int
  hitTusec : Int
  deriving DecidableEq

def ndrxUtcCmp (t1 tusec1 t2 tusec2 : Int) : Ordering :=
  if t1 < t2 ∨ t1 = t2 ∧ tusec1 < tusec2 then .lt
  else if t1 = t2 ∧ tusec1 = tusec2 then .eq
  else .gt

def sortDataBydate (a b : Data β) : Ordering :=
  ndrxUtcCmp b.saved.t b.saved.tusec a.saved.t a.saved.tusec

/-- `ndrx_cache_cmp_fun`, which no database is opened with. -/
def ndrxCacheCmpFun (a b : Saved β) : Ordering :=
  if b.t < a.t then .gt
  else if a.t < b.t then .lt
  else if b.tusec < a.tusec then .gt
  else if a.tusec < b.tusec then .lt
  else if b.nodeid < a.nodeid then .gt
  else if a.nodeid < b.nodeid then .lt
  else .eq

structure DbFlags where
  timesync : Bool
  lru : Bool
  hits : Bool

/-- The order of the values of a key. Without the flag `timesync` a key has one value, and a put
replaces it. -/
def DbFlags.cmp (fl : DbFlags) : Data β → Data β → Ordering :=
  if fl.timesync then sortDataBydate else fun _ _ => .eq

theorem ndrxUtcCmp_swap (t1 tusec1 t2 tusec2 : Int) :
    ndrxUtcCmp t1 tusec1 t2 tusec2 = (ndrxUtcCmp t2 tusec2 t1 tusec1).swap := by
  unfold ndrxUtcCmp
  split_ifs <;> first | rfl | omega

theorem ndrxUtcCmp_isLE {t1 tusec1 t2 tusec2 : Int} :
    (ndrxUtcCmp t1 tusec1 t2 tusec2).isLE ↔ t1 < t2 ∨ t1 = t2 ∧ tusec1 ≤ tusec2 := by
  unfold ndrxUtcCmp
  split_ifs <;> simp <;> omega

theorem sortDataBydate_isLE {a b : Data β} :
    (sortDataBydate a b).isLE ↔
      b.saved.t < a.saved.t ∨ b.saved.t = a.saved.t ∧ b.saved.tusec ≤ a.saved.tusec :=
  ndrxUtcCmp_isLE

instance : Std.TransCmp (sortDataBydate : Data β → Data β → Ordering) where
  eq_swap := ndrxUtcCmp_swap _ _ _ _
  isLE_trans := by
    intro a b c hab hbc
    rw [sortDataBydate_isLE] at hab hbc ⊢
    omega

instance : Std.TransCmp (fun _ _ : Data β => Ordering.eq) where
  eq_swap := rfl
  isLE_trans := fun _ _ => rfl

instance (fl : DbFlags) : Std.TransCmp (fl.cmp : Data β → Data β → Ordering) := by
  unfold DbFlags.cmp
  cases fl.timesync
  · exact inferInstanceAs (Std.TransCmp fun _ _ : Data β => Ordering.eq)
  · exact inferInstanceAs (Std.TransCmp (sortDataBydate : Data β → Data β → Ordering))

abbrev Vals (β : Type) (fl : DbFlags) := Dups (fl.cmp : Data β → Data β → Ordering)

def longMax : Int := 9223372036854775807

def Data.hit (now : Int × Int) (d : Data β) : Data β :=
  { d with
    hits := if d.hits < longMax-1 then d.hits+1 else longMax
    hitT := now.1
    hitTusec := now.2 }

def Saved.data (s : Saved β) : Data β := ⟨s, 0, 0, 0⟩

def lookupUpdate (fl : DbFlags) (now : Int × Int) (r : Data β) (d : Vals β fl) : Vals β fl :=
  if fl.lru || fl.hits then Dups.empty.put (r.hit now)
  -- the loop over `EDB_NEXT_DUP`
  else if fl.timesync then d.vals.tail.foldl Dups.del d
  else d

theorem first_lookupUpdate {fl : DbFlags} {r : Data β} {d : Vals β fl} (now : Int × Int)
    (hr : d.first = some r) :
    ∃ r', (lookupUpdate fl now r d).first = some r' ∧ r'.saved = r.saved := by
  rw [lookupUpdate]
  split
  · exact ⟨r.hit now, Dups.first_put_empty _, rfl⟩
  · split
    · exact ⟨r, Dups.first_foldl_del hr fun x hx => Dups.lt_of_mem_tail hr hx, rfl⟩
    · exact ⟨r, hr, rfl⟩

end Endurox.Cache
