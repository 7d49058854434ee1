import Endurox.BaseCInt
import Endurox.BaseHeap
import Endurox.BaseText
import Mathlib.Data.List.GetD
import Mathlib.Data.List.Nodup

/-! The pool allocator `fpalloc.c`: blocks of a few sizes that are kept on stacks when they are freed.
A block is given by the address of its header. The calls of the threads are cut at the sections under
a pool's spin lock; `malloc`, `realloc` and `free` are those of the heap. -/

namespace Endurox.Fpa
open Base List Function

def blockHeader : ℕ := 24

def sizeDefault : Int := -1

def sizeSysbuf : Int := -2

def sysbufPoolno : ℕ := 6

structure Pool where
  bsize : Int
  nopool : Bool
  numBlocks : Int
  deriving DecidableEq

def fpaPools : List Pool :=
  [⟨256, false, 25⟩, ⟨512, false, 15⟩, ⟨1024, false, 10⟩, ⟨2048, false, 10⟩, ⟨4096, false, 10⟩,
    ⟨8192, false, 10⟩, ⟨sizeSysbuf, false, 10⟩]

inductive Mode
  | useMalloc
  | useNumbl (bnum : Int)
  deriving DecidableEq

def atoi (s : List Char) : Int := wrap32 (Text.strtol s)

def getSize (bopt : List Char) : Option Int :=
  if bopt = ['D'] then some sizeDefault
  else if bopt = ['S'] then some sizeSysbuf
  else if bopt.getLast? = some 'K' then
    if bopt.dropLast.all Char.isDigit then some (wrap32 (atoi bopt.dropLast*1024)) else none
  else if bopt.all Char.isDigit then some (atoi bopt) else none

def getMode (bopt : List Char) : Option Mode :=
  if bopt = ['M'] then some .useMalloc
  else if bopt.all Char.isDigit then if atoi bopt < 1 then none else some (.useNumbl (atoi bopt))
  else none

def getBlock (bconf : List Char) : Option (Int × Mode) :=
  match Text.tokens ':' bconf with
  | [size, mode] => (getSize size).bind fun blocksz => (getMode mode).map fun m => (blocksz, m)
  | _ => none

def Pool.setup (p : Pool) : Mode → Pool
  | .useMalloc => {p with nopool := true}
  | .useNumbl bnum => {p with numBlocks := bnum}

def setPools (blocksz : Int) (mode : Mode) : List Pool → List Pool
  | [] => []
  | p :: ps =>
    if blocksz = p.bsize then p.setup mode :: ps
    else if blocksz = sizeDefault then p.setup mode :: setPools blocksz mode ps
    else p :: setPools blocksz mode ps

@[simp] theorem setup_bsize (p : Pool) (mode : Mode) : (p.setup mode).bsize = p.bsize := by
  cases mode with
  | useMalloc => rfl
  | useNumbl => rfl

theorem map_bsize_setPools (blocksz : Int) (mode : Mode) (ps : List Pool) :
    (setPools blocksz mode ps).map Pool.bsize = ps.map Pool.bsize := by
  induction ps with
  | nil => rfl
  | cons p ps ih =>
    rw [setPools]
    split_ifs
    · rw [map_cons, setup_bsize, map_cons]
    · rw [map_cons, setup_bsize, ih, map_cons]
    · rw [map_cons, ih, map_cons]

def Pools : Type := {ps : List Pool // ps.map Pool.bsize = fpaPools.map Pool.bsize}

def Pools.set (ps : Pools) (blocksz : Int) (mode : Mode) : Pools :=
  ⟨setPools blocksz mode ps.1, (map_bsize_setPools blocksz mode ps.1).trans ps.2⟩

structure Cfg where
  pools : Pools
  mallocAll : Bool

def ndrxFpinit : Option (List Char) → Option Cfg
  | none => some ⟨⟨fpaPools, rfl⟩, false⟩
  | some opts =>
    ((Text.tokens ',' (opts.take 1023)).foldlM
      (fun (pools : Pools) bconf =>
        (getBlock bconf).map fun (blocksz, mode) => pools.set blocksz mode)
      ⟨fpaPools, rfl⟩).map fun pools => ⟨pools, pools.1.all (·.nopool)⟩

namespace Cfg

variable (c : Cfg)

def pool (poolno : ℕ) : Pool := c.pools.1.getD poolno ⟨0, false, 0⟩

def searchLoop (size : ℕ) : ℕ → Int → Int → Option ℕ × Int
  | 0, _, high => (none, high)
  | fuel+1, low, high =>
    if low ≤ high then
      let mid := (low+high)/2
      if (c.pool mid.toNat).bsize > size then searchLoop size fuel low (mid-1)
      else if (c.pool mid.toNat).bsize < size then searchLoop size fuel (mid+1) high
      else (some mid.toNat, high)
    else (none, high)

def search (size : ℕ) : Option ℕ :=
  match c.searchLoop size 6 0 5 with
  | (some poolno, _) => some poolno
  | (none, high) => if high < 4 then some (high+1).toNat else none

def poolFor (size : ℕ) (sysbuf : Bool) : Option ℕ := if sysbuf then some sysbufPoolno else c.search size

def blockLen (poolno : ℕ) : ℕ := (((c.pool poolno).bsize+blockHeader) % 2^64).toNat

def sizedLen (size : ℕ) : ℕ := (size+blockHeader) % 2^64

def stackLen (poolno size : ℕ) : ℕ :=
  if (c.pool poolno).bsize = sizeSysbuf then sizedLen size else c.blockLen poolno

def header : ℕ := if c.mallocAll then 0 else blockHeader

end Cfg

def fpaMagic : ℕ := 0xFEEDBCA1

inductive Flag
  | none | nopool | abrsize
  deriving DecidableEq

structure Block where
  magic : ℕ
  poolno : Option ℕ
  flags : Flag
  deriving DecidableEq

/-- Where a call is between two sections. `popping` may hold the block that was made for a pool without
a stack, `pushing` and `dropping` hold the block that is freed. -/
inductive Phase
  | idle
  | popping (size poolno : ℕ) (addr : Option ℕ)
  | allocating (size poolno : ℕ)
  | pushing (addr poolno : ℕ)
  | dropping (addr : ℕ)

/-- Who has a block: a caller who asked for `size` bytes, the stack of a pool, or a call in between. -/
inductive Owner
  | user (size : ℕ)
  | pool (poolno : ℕ)
  | call (thread : ℕ)

structure State where
  heap : Heap
  block : ℕ → Block
  owner : ℕ → Option Owner
  stack : ℕ → List ℕ
  curBlocks : ℕ → Int
  threads : ℕ → Phase

def State.start : State :=
  ⟨Heap.empty, fun _ => ⟨0, none, .none⟩, fun _ => none, fun _ => [], fun _ => 0, fun _ => .idle⟩

namespace State

variable (s : State)

def give (addr n : ℕ) (h : s.heap.Room addr n) (hd : Block) (o : Owner) : State :=
  {s with
    heap := s.heap.add addr n h
    block := update s.block addr hd
    owner := update s.owner addr (some o)}

def pass (addr : ℕ) (o : Owner) : State := {s with owner := update s.owner addr (some o)}

def release (addr : ℕ) : State :=
  {s with heap := s.heap.remove addr, owner := update s.owner addr none}

def goto (thread : ℕ) (ph : Phase) : State := {s with threads := update s.threads thread ph}

def push (poolno addr : ℕ) : State :=
  {s.pass addr (.pool poolno) with
    stack := update s.stack poolno (addr :: s.stack poolno)
    curBlocks := update s.curBlocks poolno (s.curBlocks poolno+1)}

def pop (poolno addr size : ℕ) (rest : List ℕ) : State :=
  {s.pass addr (.user size) with
    stack := update s.stack poolno rest
    curBlocks := update s.curBlocks poolno (s.curBlocks poolno-1)}

variable {s : State} {t addr : ℕ} {ph : Phase} {o : Owner}

@[simp] theorem threads_goto_self : (s.goto t ph).threads t = ph := update_self _ _ _

theorem threads_goto_of_ne {t' : ℕ} (h : t' ≠ t) : (s.goto t ph).threads t' = s.threads t' :=
  update_of_ne h _ _

@[simp] theorem owner_pass_self : (s.pass addr o).owner addr = some o := update_self _ _ _

theorem owner_pass_of_ne {a : ℕ} (h : a ≠ addr) : (s.pass addr o).owner a = s.owner a :=
  update_of_ne h _ _

@[simp] theorem owner_release_self : (s.release addr).owner addr = none := update_self _ _ _

theorem owner_release_of_ne {a : ℕ} (h : a ≠ addr) : (s.release addr).owner a = s.owner a :=
  update_of_ne h _ _

end State

inductive Event
  | malloc (size : ℕ) (sysbuf : Bool)
  | realloc (size : ℕ)
  | inner

/-- The sections of the calls. `N` is the size of the system buffers. A call in which `malloc` fails
returns `NULL` and changes nothing. -/
inductive Step (c : Cfg) (N : ℕ) (s : State) : Event → State → Prop
  -- ndrx_fpmalloc
  | mallocAll {size sysbuf addr} (hall : c.mallocAll = true) (hN : sysbuf = true → size = N)
      (hroom : s.heap.Room addr size) :
      Step c N s (.malloc size sysbuf) (s.give addr size hroom (s.block addr) (.user size))
  | arb {size sysbuf addr} (hall : c.mallocAll = false) (hN : sysbuf = true → size = N)
      (hpool : c.poolFor size sysbuf = none) (hroom : s.heap.Room addr (Cfg.sizedLen size)) :
      Step c N s (.malloc size sysbuf) (s.give addr _ hroom ⟨fpaMagic, none, .abrsize⟩ (.user size))
  | nopool {t size sysbuf p addr} (hall : c.mallocAll = false) (hN : sysbuf = true → size = N)
      (hidle : s.threads t = .idle) (hpool : c.poolFor size sysbuf = some p)
      (hno : (c.pool p).nopool = true) (hroom : s.heap.Room addr (c.blockLen p)) :
      Step c N s (.malloc size sysbuf)
        ((s.give addr _ hroom ⟨fpaMagic, some p, .nopool⟩ (.call t)).goto t
          (.popping size p (some addr)))
  | pooled {t size sysbuf p} (hall : c.mallocAll = false) (hN : sysbuf = true → size = N)
      (hidle : s.threads t = .idle) (hpool : c.poolFor size sysbuf = some p)
      (hno : (c.pool p).nopool = false) :
      Step c N s (.malloc size sysbuf) (s.goto t (.popping size p none))
  -- the first block of the stack is taken under the lock, also when there is a block already
  | pop {t size p own addr rest} (hph : s.threads t = .popping size p own)
      (hstack : s.stack p = addr :: rest) :
      Step c N s .inner ((s.goto t .idle).pop p addr size rest)
  | popOwn {t size p addr} (hph : s.threads t = .popping size p (some addr))
      (hstack : s.stack p = []) :
      Step c N s .inner ((s.goto t .idle).pass addr (.user size))
  | popNone {t size p} (hph : s.threads t = .popping size p none) (hstack : s.stack p = []) :
      Step c N s .inner (s.goto t (.allocating size p))
  | alloc {t size p addr} (hph : s.threads t = .allocating size p)
      (hroom : s.heap.Room addr (c.stackLen p size)) :
      Step c N s .inner
        ((s.goto t .idle).give addr _ hroom ⟨fpaMagic, some p, .none⟩ (.user size))
  | outOfMemory {t size p} (hph : s.threads t = .allocating size p) :
      Step c N s .inner (s.goto t .idle)
  -- ndrx_fpfree
  | freeAll {addr size} (hlive : s.owner addr = some (.user size)) (hall : c.mallocAll = true) :
      Step c N s .inner (s.release addr)
  | free {addr size} (hlive : s.owner addr = some (.user size)) (hall : c.mallocAll = false)
      (hmagic : (s.block addr).magic = fpaMagic)
      (hhow : (s.block addr).flags = .abrsize ∨
        ∃ p, (s.block addr).poolno = some p ∧ (c.pool p).nopool = true) :
      Step c N s .inner (s.release addr)
  | freePooled {t addr size p} (hlive : s.owner addr = some (.user size))
      (hidle : s.threads t = .idle) (hall : c.mallocAll = false)
      (hmagic : (s.block addr).magic = fpaMagic) (habr : (s.block addr).flags ≠ .abrsize)
      (hp : (s.block addr).poolno = some p) (hno : (c.pool p).nopool = false) :
      Step c N s .inner ((s.pass addr (.call t)).goto t (.pushing addr p))
  | push {t addr p} (hph : s.threads t = .pushing addr p)
      (hcur : s.curBlocks p < (c.pool p).numBlocks) :
      Step c N s .inner ((s.goto t .idle).push p addr)
  | full {t addr p} (hph : s.threads t = .pushing addr p)
      (hcur : (c.pool p).numBlocks ≤ s.curBlocks p) : Step c N s .inner (s.goto t (.dropping addr))
  | drop {t addr} (hph : s.threads t = .dropping addr) :
      Step c N s .inner ((s.goto t .idle).release addr)
  -- ndrx_fprealloc
  | reallocAll {addr old size addr'} (hlive : s.owner addr = some (.user old))
      (hall : c.mallocAll = true) (hroom : (s.release addr).heap.Room addr' size) :
      Step c N s (.realloc size)
        ((s.release addr).give addr' size hroom (s.block addr) (.user size))
  -- the C library may free the block and return NULL, which tells the caller that the block is kept
  | reallocZero {addr old} (hlive : s.owner addr = some (.user old)) (hall : c.mallocAll = true) :
      Step c N s (.realloc 0) {s with heap := s.heap.remove addr}
  | reallocSame {addr old size p} (hlive : s.owner addr = some (.user old))
      (hall : c.mallocAll = false) (hpool : c.search size = some p)
      (hsame : (s.block addr).poolno = some p) :
      Step c N s (.realloc size) (s.pass addr (.user size))
  | reallocPool {addr old size p addr'} (hlive : s.owner addr = some (.user old))
      (hall : c.mallocAll = false) (hpool : c.search size = some p)
      (hother : (s.block addr).poolno ≠ some p)
      (hroom : (s.release addr).heap.Room addr' (c.blockLen p)) :
      Step c N s (.realloc size)
        ((s.release addr).give addr' _ hroom ⟨(s.block addr).magic, some p, .none⟩ (.user size))
  | reallocArb {addr old size addr'} (hlive : s.owner addr = some (.user old))
      (hall : c.mallocAll = false) (hpool : c.search size = none)
      (hroom : (s.release addr).heap.Room addr' (Cfg.sizedLen size)) :
      Step c N s (.realloc size)
        ((s.release addr).give addr' _ hroom ⟨(s.block addr).magic, none, .abrsize⟩ (.user size))

/-- The requests that keep to what a pool can give: the length with the header does not wrap around,
system buffers come from a stack, and no block is reallocated to 0 bytes by the C library. -/
def Event.Fits (c : Cfg) : Event → Prop
  | .malloc size sysbuf =>
    c.mallocAll = true ∨
      size+blockHeader < 2^64 ∧ (sysbuf = true → (c.pool sysbufPoolno).nopool = false)
  | .realloc size => if c.mallocAll then size ≠ 0 else size+blockHeader < 2^64
  | .inner => True

def Cfg.capacity (c : Cfg) (N poolno : ℕ) : ℕ :=
  if poolno = sysbufPoolno then N else (c.pool poolno).bsize.toNat

structure Sound (c : Cfg) (N : ℕ) (s : State) : Prop where
  enough : ∀ addr size, s.owner addr = some (.user size) →
    ∃ n, s.heap.len addr = some n ∧ c.header+size ≤ n
  apart : ∀ a b sa sb, s.owner a = some (.user sa) → s.owner b = some (.user sb) → a ≠ b →
    Apart a (c.header+sa) b (c.header+sb)
  free : ∀ p, (s.stack p).Nodup ∧ ∀ addr ∈ s.stack p, s.owner addr = some (.pool p) ∧
    s.heap.len addr = some (c.capacity N p+blockHeader)
  count : ∀ p, s.curBlocks p = (s.stack p).length

namespace Cfg

variable {c : Cfg} {N : ℕ}

theorem bsize_eq (p : ℕ) : (c.pool p).bsize = (fpaPools.map Pool.bsize).getD p 0 := by
  rw [← c.pools.2]
  exact (getD_map _ _ Pool.bsize).symm

theorem searchLoop_spec (size : ℕ) {fuel : ℕ} {low high : Int} (hlow : 0 ≤ low) (hhigh : -1 ≤ high)
    (hmax : high ≤ 5) (habove : high < 5 → (size : Int) < (c.pool (high+1).toNat).bsize) :
    match c.searchLoop size fuel low high with
    | (some p, _) => p < 6 ∧ (c.pool p).bsize = size
    | (none, h) => -1 ≤ h ∧ (h < 5 → (size : Int) < (c.pool (h+1).toNat).bsize) := by
  induction fuel generalizing low high with
  | zero => exact ⟨hhigh, habove⟩
  | succ fuel ih =>
    rw [searchLoop]
    by_cases hle : low ≤ high
    · rw [if_pos hle]
      by_cases hgt : (c.pool ((low+high)/2).toNat).bsize > size
      · simp only [if_pos hgt]
        apply ih hlow (by omega) (by omega)
        intro _
        rw [sub_add_cancel]
        exact hgt
      · simp only [if_neg hgt]
        by_cases hlt : (c.pool ((low+high)/2).toNat).bsize < size
        · simp only [if_pos hlt]
          exact ih (by omega) hhigh hmax habove
        · simp only [if_neg hlt]
          exact ⟨by omega, by omega⟩
    · rw [if_neg hle]
      exact ⟨hhigh, habove⟩

theorem search_spec {size p : ℕ} (h : c.search size = some p) :
    p < sysbufPoolno ∧ (size : Int) ≤ (c.pool p).bsize := by
  have hspec := @searchLoop_spec c size 6 0 5 (by omega) (by omega) (by omega) (by omega)
  rw [search] at h
  generalize c.searchLoop size 6 0 5 = r at h hspec
  match r, h, hspec with
  | (some q, _), h, hspec =>
    cases h
    exact ⟨hspec.1, hspec.2.ge⟩
  | (none, high), h, hspec =>
    replace h : (if high < 4 then some (high+1).toNat else none) = some p := h
    split_ifs at h with hlt
    cases h
    have hbelow : (high+1).toNat < sysbufPoolno := by
      rw [sysbufPoolno]
      omega
    exact ⟨hbelow, (hspec.2 (by omega)).le⟩

theorem blockLen_eq {p : ℕ} (hp : p < sysbufPoolno) :
    c.blockLen p = c.capacity N p+blockHeader ∧ (c.pool p).bsize ≠ sizeSysbuf := by
  rw [blockLen, capacity, if_neg hp.ne, bsize_eq]
  rw [sysbufPoolno] at hp
  interval_cases p <;> decide

theorem sizedLen_eq {size : ℕ} (h : size+blockHeader < 2^64) : sizedLen size = size+blockHeader :=
  Nat.mod_eq_of_lt h

theorem capacity_of_search {size p : ℕ} (h : c.search size = some p) :
    size ≤ c.capacity N p ∧ c.blockLen p = c.capacity N p+blockHeader := by
  obtain ⟨hp, _⟩ := search_spec h
  refine ⟨?_, (blockLen_eq hp).1⟩
  rw [capacity, if_neg hp.ne]
  omega

theorem capacity_of_poolFor {size p : ℕ} {sysbuf : Bool} (h : c.poolFor size sysbuf = some p)
    (hN : sysbuf = true → size = N) (hsize : size+blockHeader < 2^64)
    (hsys : sysbuf = true → (c.pool sysbufPoolno).nopool = false) :
    size ≤ c.capacity N p ∧ c.stackLen p size = c.capacity N p+blockHeader ∧
      ((c.pool p).nopool = true → c.blockLen p = c.capacity N p+blockHeader) := by
  cases sysbuf with
  | true =>
    cases h
    have hsysbuf : (c.pool sysbufPoolno).bsize = sizeSysbuf := bsize_eq _
    rw [stackLen, if_pos hsysbuf, sizedLen_eq hsize, hN rfl]
    refine ⟨le_rfl, rfl, fun hno => ?_⟩
    rw [hsys rfl] at hno
    cases hno
  | false =>
    replace h : c.search size = some p := h
    obtain ⟨hle, hlen⟩ := @capacity_of_search c N size p h
    refine ⟨hle, ?_, fun _ => hlen⟩
    rw [stackLen, if_neg (@blockLen_eq c N p (search_spec h).1).2, hlen]

end Cfg

def BlockOk (c : Cfg) (N : ℕ) (b : Block) (n : ℕ) : Prop :=
  b.magic = fpaMagic ∧ match b.poolno with
    | none => b.flags = .abrsize
    | some p => b.flags ≠ .abrsize ∧ n = c.capacity N p+blockHeader

def OwnerOk (c : Cfg) (N : ℕ) (b : Block) (n : ℕ) : Owner → Prop
  | .user size => c.header+size ≤ n ∧ (c.mallocAll = false → BlockOk c N b n)
  | .pool p => c.mallocAll = false ∧ BlockOk c N b n ∧ b.poolno = some p
  | .call _ => c.mallocAll = false ∧ BlockOk c N b n

def PhaseOk (c : Cfg) (N : ℕ) (s : State) (t : ℕ) : Phase → Prop
  | .idle => True
  | .popping size p own =>
    c.mallocAll = false ∧ size ≤ c.capacity N p ∧ c.stackLen p size = c.capacity N p+blockHeader ∧
      ∀ addr ∈ own, s.owner addr = some (.call t) ∧ (s.block addr).poolno = some p
  | .allocating size p =>
    c.mallocAll = false ∧ size ≤ c.capacity N p ∧ c.stackLen p size = c.capacity N p+blockHeader
  | .pushing addr p =>
    s.owner addr = some (.call t) ∧ (s.block addr).poolno = some p ∧ (c.pool p).nopool = false
  | .dropping addr => s.owner addr = some (.call t)

structure Inv (c : Cfg) (N : ℕ) (s : State) : Prop where
  owned : ∀ addr o, s.owner addr = some o →
    ∃ n, s.heap.len addr = some n ∧ OwnerOk c N (s.block addr) n o
  phase : ∀ t, PhaseOk c N s t (s.threads t)
  nodup : ∀ p, (s.stack p).Nodup
  stacked : ∀ p, ∀ addr ∈ s.stack p, s.owner addr = some (.pool p)
  unused : ∀ p, (c.pool p).nopool = true → s.stack p = []
  count : ∀ p, s.curBlocks p = (s.stack p).length

def Phase.addr? : Phase → Option ℕ
  | .popping _ _ own => own
  | .pushing addr _ => some addr
  | .dropping addr => some addr
  | _ => none

def Loose (s : State) (addr : ℕ) : Prop :=
  (∀ t, (s.threads t).addr? ≠ some addr) ∧ ∀ p, addr ∉ s.stack p

variable {c : Cfg} {N : ℕ} {s s' : State}

theorem Inv.start : Inv c N .start where
  owned := by
    intro addr o h
    cases h
  phase _ := trivial
  nodup _ := nodup_nil
  stacked := by
    intro p addr h
    cases h
  unused _ _ := rfl
  count _ := rfl

variable {t : ℕ} {ph : Phase}

theorem PhaseOk.congr (h : PhaseOk c N s t ph)
    (hsame : ∀ addr, ph.addr? = some addr → s'.owner addr = s.owner addr ∧ s'.block addr = s.block addr) :
    PhaseOk c N s' t ph := by
  cases ph with
  | idle => trivial
  | popping =>
    obtain ⟨hall, hcap, hlen, hown⟩ := h
    refine ⟨hall, hcap, hlen, fun addr haddr => ?_⟩
    rw [(hsame addr haddr).1, (hsame addr haddr).2]
    exact hown addr haddr
  | allocating => exact h
  | pushing addr =>
    rw [PhaseOk, (hsame addr rfl).1, (hsame addr rfl).2]
    exact h
  | dropping addr =>
    rw [PhaseOk, (hsame addr rfl).1]
    exact h

variable {addr : ℕ}

theorem PhaseOk.owner (h : PhaseOk c N s t ph) (haddr : ph.addr? = some addr) :
    s.owner addr = some (.call t) := by
  cases ph with
  | idle => cases haddr
  | popping => exact (h.2.2.2 addr haddr).1
  | allocating => cases haddr
  | pushing =>
    cases haddr
    exact h.1
  | dropping =>
    cases haddr
    exact h

variable {size : ℕ}

section

variable (h : Inv c N s)
include h

theorem Inv.phase_at (hph : s.threads t = ph) : PhaseOk c N s t ph := hph ▸ h.phase t

theorem Inv.call_of_addr {o : Owner} (howner : s.owner addr = some o)
    (ht : (s.threads t).addr? = some addr) : o = .call t :=
  Option.some.inj (howner.symm.trans ((h.phase t).owner ht))

theorem Inv.pool_of_mem {o : Owner} (howner : s.owner addr = some o) {p : ℕ}
    (hmem : addr ∈ s.stack p) : o = .pool p :=
  Option.some.inj (howner.symm.trans (h.stacked p addr hmem))

theorem Inv.loose_user (howner : s.owner addr = some (.user size)) :
    Loose s addr := by
  constructor
  · intro t ht
    cases h.call_of_addr howner ht
  · intro p hmem
    cases h.pool_of_mem howner hmem

theorem Inv.goto (hph : PhaseOk c N s t ph) : Inv c N (s.goto t ph) where
  owned := h.owned
  phase := by
    intro t'
    by_cases ht : t' = t
    · rw [ht, State.threads_goto_self]
      exact hph.congr fun _ _ => ⟨rfl, rfl⟩
    · rw [State.threads_goto_of_ne ht]
      exact (h.phase t').congr fun _ _ => ⟨rfl, rfl⟩
  nodup := h.nodup
  stacked := h.stacked
  unused := h.unused
  count := h.count

theorem Inv.idle (t : ℕ) : Inv c N (s.goto t .idle) :=
  have hidle : PhaseOk c N s t .idle := trivial
  h.goto hidle

theorem Inv.loose_call (howner : s.owner addr = some (.call t)) :
    Loose (s.goto t .idle) addr := by
  constructor
  · intro t' ht'
    by_cases ht : t' = t
    · rw [ht, State.threads_goto_self] at ht'
      cases ht'
    · rw [State.threads_goto_of_ne ht] at ht'
      cases h.call_of_addr howner ht'
      exact ht rfl
  · intro p hmem
    cases h.pool_of_mem howner hmem

theorem Inv.loose_room (hnone : s.heap.len addr = none) : Loose s addr := by
  have hfree (o : Owner) : s.owner addr ≠ some o := by
    intro ho
    obtain ⟨_, hn, _⟩ := h.owned addr o ho
    rw [hnone] at hn
    cases hn
  constructor
  · intro t ht
    exact hfree _ ((h.phase t).owner ht)
  · intro p hmem
    exact hfree _ (h.stacked p addr hmem)

theorem Inv.phase_of_loose (hloose : ∀ t, (s.threads t).addr? ≠ some addr)
    (hthreads : s'.threads = s.threads)
    (hsame : ∀ a, a ≠ addr → s'.owner a = s.owner a ∧ s'.block a = s.block a) (t : ℕ) :
    PhaseOk c N s' t (s'.threads t) := by
  rw [hthreads]
  apply (h.phase t).congr
  intro a ha
  apply hsame
  rintro rfl
  exact hloose t ha

theorem Inv.stacked_of_loose (hloose : Loose s addr)
    (hsame : ∀ a, a ≠ addr → s'.owner a = s.owner a) (p : ℕ) :
    ∀ a ∈ s.stack p, s'.owner a = some (.pool p) := by
  intro a ha
  rw [hsame a]
  · exact h.stacked p a ha
  · rintro rfl
    exact hloose.2 p ha

end

variable {n : ℕ}

theorem Inv.give (h : Inv c N s) {hroom : s.heap.Room addr n} {hd : Block} {o : Owner}
    (hok : OwnerOk c N hd n o) : Inv c N (s.give addr n hroom hd o) := by
  have hloose : Loose s addr := h.loose_room hroom.1
  have hne {a : ℕ} (ha : a ≠ addr) : (s.give addr n hroom hd o).owner a = s.owner a ∧
      (s.give addr n hroom hd o).block a = s.block a :=
    ⟨update_of_ne ha _ _, update_of_ne ha _ _⟩
  refine ⟨?_, h.phase_of_loose hloose.1 rfl fun a ha => hne ha, h.nodup,
    h.stacked_of_loose hloose fun a ha => (hne ha).1, h.unused, h.count⟩
  intro a o' ho'
  by_cases ha : a = addr
  · subst ha
    have howner : (s.give a n hroom hd o).owner a = some o := update_self _ _ _
    rw [howner] at ho'
    cases ho'
    have hblock : (s.give a n hroom hd o).block a = hd := update_self _ _ _
    rw [hblock]
    exact ⟨n, Heap.len_add_self hroom, hok⟩
  · rw [(hne ha).1] at ho'
    rw [(hne ha).2]
    obtain ⟨m, hm, hok'⟩ := h.owned a o' ho'
    exact ⟨m, Heap.len_add_of_some hroom hm, hok'⟩

theorem Inv.release (h : Inv c N s) (hloose : Loose s addr) : Inv c N (s.release addr) := by
  refine ⟨?_, h.phase_of_loose hloose.1 rfl fun a ha => ⟨State.owner_release_of_ne ha, rfl⟩, h.nodup,
    h.stacked_of_loose hloose fun a ha => State.owner_release_of_ne ha, h.unused, h.count⟩
  intro a o ho
  by_cases ha : a = addr
  · rw [ha, State.owner_release_self] at ho
    cases ho
  · rw [State.owner_release_of_ne ha] at ho
    obtain ⟨n, hn, hok⟩ := h.owned a o ho
    exact ⟨n, (Heap.len_remove_of_ne ha).trans hn, hok⟩

section

variable {o : Owner} (h : Inv c N s) (hlen : s.heap.len addr = some n)
  (hok : OwnerOk c N (s.block addr) n o)
include h hlen hok

theorem Inv.owned_pass (a : ℕ) (o' : Owner) (ho' : (s.pass addr o).owner a = some o') :
    ∃ m, s.heap.len a = some m ∧ OwnerOk c N (s.block a) m o' := by
  by_cases ha : a = addr
  · rw [ha, State.owner_pass_self] at ho'
    cases ho'
    rw [ha]
    exact ⟨n, hlen, hok⟩
  · rw [State.owner_pass_of_ne ha] at ho'
    exact h.owned a o' ho'

theorem Inv.pass (hloose : Loose s addr) : Inv c N (s.pass addr o) :=
  ⟨h.owned_pass hlen hok, h.phase_of_loose hloose.1 rfl fun _ ha => ⟨State.owner_pass_of_ne ha, rfl⟩,
    h.nodup, h.stacked_of_loose hloose fun _ ha => State.owner_pass_of_ne ha, h.unused, h.count⟩

/-- The stack of one pool is exchanged as a block of it changes hands. -/
theorem Inv.restack {p : ℕ} {l : List ℕ} {k : Int} (hcalls : ∀ t, (s.threads t).addr? ≠ some addr)
    (hothers : ∀ q, q ≠ p → addr ∉ s.stack q) (hnodup : l.Nodup)
    (hstacked : ∀ a ∈ l, (s.pass addr o).owner a = some (.pool p))
    (hunused : (c.pool p).nopool = true → l = []) (hk : k = l.length) :
    Inv c N {s.pass addr o with
      stack := update s.stack p l
      curBlocks := update s.curBlocks p k} := by
  refine ⟨h.owned_pass hlen hok,
    h.phase_of_loose hcalls rfl fun _ ha => ⟨State.owner_pass_of_ne ha, rfl⟩, ?_, ?_, ?_, ?_⟩
  all_goals
    intro q
    dsimp only
    by_cases hq : q = p
  · rw [hq, update_self]
    exact hnodup
  · rw [update_of_ne hq]
    exact h.nodup q
  · rw [hq, update_self]
    exact hstacked
  · rw [update_of_ne hq]
    intro a ha
    refine (State.owner_pass_of_ne ?_).trans (h.stacked q a ha)
    rintro rfl
    exact hothers q hq ha
  · rw [hq, update_self]
    exact hunused
  · rw [update_of_ne hq]
    exact h.unused q
  · rw [hq, update_self, update_self, hk]
  · rw [update_of_ne hq, update_of_ne hq]
    exact h.count q

end

theorem Inv.push (h : Inv c N s) {p : ℕ} (hloose : Loose s addr) (hlen : s.heap.len addr = some n)
    (hok : OwnerOk c N (s.block addr) n (.pool p)) (hno : (c.pool p).nopool = false) :
    Inv c N (s.push p addr) := by
  refine h.restack hlen hok hloose.1 (fun q _ => hloose.2 q)
    (nodup_cons.mpr ⟨hloose.2 p, h.nodup p⟩) ?_ ?_ ?_
  · exact forall_mem_cons.mpr
      ⟨State.owner_pass_self, h.stacked_of_loose hloose (fun _ => State.owner_pass_of_ne) p⟩
  · intro hpool
    rw [hno] at hpool
    cases hpool
  · rw [h.count p]
    rfl

theorem Inv.pop (h : Inv c N s) {p : ℕ} {rest : List ℕ} (hstack : s.stack p = addr :: rest)
    (hlen : s.heap.len addr = some n) (hok : OwnerOk c N (s.block addr) n (.user size)) :
    Inv c N (s.pop p addr size rest) := by
  have hnodup : addr ∉ rest ∧ rest.Nodup := by
    apply nodup_cons.mp
    rw [← hstack]
    exact h.nodup p
  have hpool : s.owner addr = some (.pool p) := by
    apply h.stacked p
    rw [hstack]
    exact mem_cons_self
  refine h.restack hlen hok ?_ ?_ hnodup.2 ?_ ?_ ?_
  · intro t ht
    cases h.call_of_addr hpool ht
  · intro q hq ha
    cases h.pool_of_mem hpool ha
    exact hq rfl
  · intro a ha
    refine (State.owner_pass_of_ne ?_).trans (h.stacked p a ?_)
    · rintro rfl
      exact hnodup.1 ha
    · rw [hstack]
      exact mem_cons_of_mem _ ha
  · intro hno
    rw [h.unused p hno] at hstack
    cases hstack
  · rw [h.count p, hstack, length_cons]
    omega

theorem header_of_pools (hall : c.mallocAll = false) : c.header = blockHeader := by
  rw [Cfg.header, hall]
  rfl

theorem header_of_mallocAll (hall : c.mallocAll = true) : c.header = 0 := by
  rw [Cfg.header, hall]
  rfl

theorem BlockOk.user {b : Block} {p : ℕ} (h : BlockOk c N b n) (hall : c.mallocAll = false)
    (hp : b.poolno = some p) (hsize : size ≤ c.capacity N p) : OwnerOk c N b n (.user size) := by
  refine ⟨?_, fun _ => h⟩
  have hn := h.2
  rw [hp] at hn
  rw [header_of_pools hall]
  omega

theorem blockOk_pool {p magic : ℕ} {flags : Flag} (hmagic : magic = fpaMagic)
    (hflags : flags ≠ .abrsize) (hn : n = c.capacity N p+blockHeader) :
    BlockOk c N ⟨magic, some p, flags⟩ n :=
  ⟨hmagic, hflags, hn⟩

theorem ownerOk_sized {magic : ℕ} (hall : c.mallocAll = false) (hmagic : magic = fpaMagic)
    (hsize : size+blockHeader < 2^64) :
    OwnerOk c N ⟨magic, none, .abrsize⟩ (Cfg.sizedLen size) (.user size) := by
  refine ⟨?_, fun _ => ⟨hmagic, rfl⟩⟩
  rw [header_of_pools hall, Cfg.sizedLen_eq hsize]
  omega

theorem ownerOk_plain {b : Block} (hall : c.mallocAll = true) :
    OwnerOk c N b size (.user size) := by
  refine ⟨?_, fun h => ?_⟩
  · rw [header_of_mallocAll hall]
    omega
  · rw [hall] at h
    cases h

theorem Inv.blockOk_user (h : Inv c N s) (howner : s.owner addr = some (.user size))
    (hall : c.mallocAll = false) :
    ∃ n, s.heap.len addr = some n ∧ BlockOk c N (s.block addr) n := by
  obtain ⟨n, hn, hok⟩ := h.owned addr _ howner
  exact ⟨n, hn, hok.2 hall⟩

theorem Inv.magic_user (h : Inv c N s) (howner : s.owner addr = some (.user size))
    (hall : c.mallocAll = false) : (s.block addr).magic = fpaMagic := by
  obtain ⟨_, _, hok⟩ := h.blockOk_user howner hall
  exact hok.1

/-- Every step of the pools keeps each block with its one owner. -/
theorem Inv.step {e : Event} (h : Inv c N s) (hfits : e.Fits c) (hstep : Step c N s e s') :
    Inv c N s' := by
  cases hstep with
  | mallocAll hall => exact h.give (ownerOk_plain hall)
  | arb hall =>
    obtain ⟨hsize, _⟩ := hfits.resolve_left (by rw [hall]; decide)
    exact h.give (ownerOk_sized hall rfl hsize)
  | @nopool t size sysbuf p addr hall hN hidle hpool hno hroom =>
    obtain ⟨hsize, hsys⟩ := hfits.resolve_left (by rw [hall]; decide)
    obtain ⟨hle, hstack, hblock⟩ := Cfg.capacity_of_poolFor hpool hN hsize hsys
    apply Inv.goto
    · exact h.give ⟨hall, blockOk_pool rfl (by decide) (hblock hno)⟩
    · refine ⟨hall, hle, hstack, fun a ha => ?_⟩
      cases ha
      refine ⟨update_self _ _ _, ?_⟩
      show (update s.block addr _ addr).poolno = some p
      rw [update_self]
  | pooled hall hN _ hpool =>
    obtain ⟨hsize, hsys⟩ := hfits.resolve_left (by rw [hall]; decide)
    obtain ⟨hle, hstack, _⟩ := Cfg.capacity_of_poolFor hpool hN hsize hsys
    exact h.goto ⟨hall, hle, hstack, fun a ha => by cases ha⟩
  | @pop t size p own addr rest hph hstack =>
    have hphase := h.phase_at hph
    have howner : s.owner addr = some (.pool p) := by
      apply h.stacked p
      rw [hstack]
      exact mem_cons_self
    obtain ⟨n, hn, hall, hok, hp⟩ := h.owned addr _ howner
    exact (h.idle t).pop hstack hn (hok.user hall hp hphase.2.1)
  | @popOwn t size p addr hph hstack =>
    have hphase := h.phase_at hph
    obtain ⟨howner, hp⟩ := hphase.2.2.2 addr rfl
    obtain ⟨n, hn, hall, hok⟩ := h.owned addr _ howner
    exact (h.idle t).pass hn (hok.user hall hp hphase.2.1) (h.loose_call howner)
  | @popNone t size p hph hstack =>
    obtain ⟨hall, hle, hlen, _⟩ := h.phase_at hph
    exact h.goto ⟨hall, hle, hlen⟩
  | @alloc t size p addr hph hroom =>
    have hphase := h.phase_at hph
    have hok : BlockOk c N ⟨fpaMagic, some p, .none⟩ (c.stackLen p size) :=
      blockOk_pool rfl (by decide) hphase.2.2
    exact (h.idle t).give (hok.user hphase.1 rfl hphase.2.1)
  | outOfMemory => exact h.idle _
  | freeAll hlive | free hlive => exact h.release (h.loose_user hlive)
  | @freePooled t addr size p hlive hidle hall hmagic habr hp hno =>
    obtain ⟨n, hn, hok⟩ := h.blockOk_user hlive hall
    have hpass : Inv c N (s.pass addr (.call t)) := h.pass hn ⟨hall, hok⟩ (h.loose_user hlive)
    exact hpass.goto ⟨State.owner_pass_self, hp, hno⟩
  | @push t addr p hph hcur =>
    obtain ⟨howner, hp, hno⟩ := h.phase_at hph
    obtain ⟨n, hn, hall, hok⟩ := h.owned addr _ howner
    exact (h.idle t).push (h.loose_call howner) hn ⟨hall, hok, hp⟩ hno
  | @full t addr p hph hcur =>
    exact h.goto (h.phase_at hph).1
  | @drop t addr hph =>
    exact (h.idle t).release (h.loose_call (h.phase_at hph))
  | reallocAll hlive hall =>
    exact (h.release (h.loose_user hlive)).give (ownerOk_plain hall)
  | reallocZero _ hall =>
    rw [Event.Fits, if_pos hall] at hfits
    exact absurd rfl hfits
  | reallocSame hlive hall hpool hsame =>
    obtain ⟨_, hn, hok⟩ := h.blockOk_user hlive hall
    exact h.pass hn (hok.user hall hsame (Cfg.capacity_of_search hpool).1) (h.loose_user hlive)
  | @reallocPool addr old size p addr' hlive hall hpool hother hroom =>
    obtain ⟨hle, hlen⟩ := @Cfg.capacity_of_search c N size p hpool
    have hok : BlockOk c N ⟨(s.block addr).magic, some p, .none⟩ (c.blockLen p) :=
      blockOk_pool (h.magic_user hlive hall) (by decide) hlen
    exact (h.release (h.loose_user hlive)).give (hok.user hall rfl hle)
  | reallocArb hlive hall =>
    rw [Event.Fits, hall] at hfits
    exact (h.release (h.loose_user hlive)).give
      (ownerOk_sized hall (h.magic_user hlive hall) hfits)

theorem Step.curBlocks_le {e : Event} (hstep : Step c N s e s') (p : ℕ) :
    s'.curBlocks p ≤ max (s.curBlocks p) (c.pool p).numBlocks := by
  cases hstep with
  | @push t addr q hph hcur =>
    show update s.curBlocks q (s.curBlocks q+1) p ≤ _
    by_cases hq : p = q
    · rw [hq, update_self]
      exact le_max_of_le_right hcur
    · rw [update_of_ne hq]
      exact le_max_left _ _
  | @pop t size q own addr rest hph hstack =>
    show update s.curBlocks q (s.curBlocks q-1) p ≤ _
    by_cases hq : p = q
    · rw [hq, update_self]
      exact le_max_of_le_left (sub_le_self _ (by decide))
    · rw [update_of_ne hq]
      exact le_max_left _ _
  | _ => exact le_max_left _ _

theorem Inv.sound (h : Inv c N s) : Sound c N s := by
  have henough (addr size : ℕ) (howner : s.owner addr = some (.user size)) :
      ∃ n, s.heap.len addr = some n ∧ c.header+size ≤ n := by
    obtain ⟨n, hn, hok⟩ := h.owned addr _ howner
    exact ⟨n, hn, hok.1⟩
  refine ⟨henough, ?_, fun p => ⟨h.nodup p, ?_⟩, h.count⟩
  · intro a b sa sb ha hb hne
    obtain ⟨na, hna, _⟩ := henough a sa ha
    obtain ⟨nb, hnb, _⟩ := henough b sb hb
    rcases s.heap.apart a b na nb hna hnb hne with hlow | hlow
    · left
      omega
    · right
      omega
  · intro addr hmem
    have howner := h.stacked p addr hmem
    obtain ⟨_, hn, _, hok, hp⟩ := h.owned addr _ howner
    have hsize := hok.2
    rw [hp] at hsize
    rw [hn, hsize.2]
    exact ⟨howner, rfl⟩

def Moves (c : Cfg) (N : ℕ) (s s' : State) : Prop := ∃ e : Event, e.Fits c ∧ Step c N s e s'

theorem Inv.run (hrun : Relation.ReflTransGen (Moves c N) .start s) : Inv c N s := by
  induction hrun with
  | refl => exact Inv.start
  | tail _ hmove ih =>
    obtain ⟨_, hfits, hstep⟩ := hmove
    exact ih.step hfits hstep

/-- Whatever the options, requests that fit get enough memory that nobody else has, and the stacks
hold free blocks of their size. -/
theorem allocator_sound {opts : Option (List Char)} (_hinit : ndrxFpinit opts = some c)
    (hrun : Relation.ReflTransGen (Moves c N) .start s) :
    Sound c N s ∧ ∀ s', Moves c N s s' →
      ∀ p, s'.curBlocks p ≤ max (s.curBlocks p) (c.pool p).numBlocks := by
  refine ⟨(Inv.run hrun).sound, fun s' hmove p => ?_⟩
  obtain ⟨_, _, hstep⟩ := hmove
  exact hstep.curBlocks_le p

theorem room_empty (addr n : ℕ) : Heap.empty.Room addr n := by
  refine ⟨rfl, fun a la h => ?_⟩
  cases h

theorem allocator_sound_kept : ∃ c s, ndrxFpinit none = some c ∧
    Relation.ReflTransGen (Moves c 4096) .start s ∧ s.stack 0 = [64] ∧ Sound c 4096 s := by
  let c : Cfg := ⟨⟨fpaPools, rfl⟩, false⟩
  let s1 : State := State.start.goto 0 (.popping 100 0 none)
  let s2 : State := s1.goto 0 (.allocating 100 0)
  let s3 : State :=
    (s2.goto 0 .idle).give 64 (c.stackLen 0 100) (room_empty _ _) ⟨fpaMagic, some 0, .none⟩ (.user 100)
  let s4 : State := (s3.pass 64 (.call 0)).goto 0 (.pushing 64 0)
  have hfits : (Event.malloc 100 false).Fits c := .inr ⟨by decide, by decide⟩
  have hpooled : Moves c 4096 .start s1 := by
    exact ⟨_, hfits, .pooled rfl (fun h => Bool.noConfusion h) rfl (by decide) rfl⟩
  have hpop : Moves c 4096 s1 s2 := ⟨.inner, trivial, .popNone rfl rfl⟩
  have halloc : Moves c 4096 s2 s3 := ⟨.inner, trivial, .alloc (t := 0) rfl _⟩
  have hfree : Moves c 4096 s3 s4 :=
    ⟨.inner, trivial, @Step.freePooled c 4096 s3 0 64 100 0 rfl rfl rfl rfl (by decide) rfl rfl⟩
  have hpush : Moves c 4096 s4 ((s4.goto 0 .idle).push 0 64) :=
    ⟨.inner, trivial, .push (t := 0) rfl (by decide)⟩
  have hrun : Relation.ReflTransGen (Moves c 4096) .start ((s4.goto 0 .idle).push 0 64) :=
    ((((Relation.ReflTransGen.single hpooled).tail hpop).tail halloc).tail hfree).tail hpush
  have hinit : ndrxFpinit none = some c := rfl
  exact ⟨c, _, hinit, hrun, rfl, (allocator_sound hinit hrun).1⟩

def Breaks (opts : Option (List Char)) : Prop :=
  ∃ c N s, ndrxFpinit opts = some c ∧
    Relation.ReflTransGen (fun s s' => ∃ e, Step c N s e s') .start s ∧ ¬ Sound c N s

theorem breaks_sysbuf : Breaks (some ['S', ':', 'M']) := by
  obtain ⟨c, hinit, hall, hno, hlen⟩ : ∃ c, ndrxFpinit (some ['S', ':', 'M']) = some c ∧
      c.mallocAll = false ∧ (c.pool sysbufPoolno).nopool = true ∧ c.blockLen sysbufPoolno = 22 :=
    ⟨_, rfl, by decide⟩
  let s1 : State :=
    (State.start.give 64 _ (room_empty 64 (c.blockLen sysbufPoolno))
      ⟨fpaMagic, some sysbufPoolno, .nopool⟩ (.call 0)).goto 0 (.popping 100 sysbufPoolno (some 64))
  have hmake : Step c 100 .start (.malloc 100 true) s1 := .nopool hall (fun _ => rfl) rfl rfl hno _
  have htake : Step c 100 s1 .inner ((s1.goto 0 .idle).pass 64 (.user 100)) := .popOwn rfl rfl
  refine ⟨c, 100, _, hinit, .tail (.single ⟨_, hmake⟩) ⟨_, htake⟩, fun hsound => ?_⟩
  obtain ⟨n, hn, _⟩ := hsound.enough 64 100 rfl
  have hn' : some (c.blockLen sysbufPoolno) = some n := hn
  cases hn'
  omega

theorem breaks_size : Breaks none := by
  let c : Cfg := ⟨⟨fpaPools, rfl⟩, false⟩
  have hroom : Heap.empty.Room 64 (Cfg.sizedLen (2^64-1)) := room_empty _ _
  have hmake : Step c 4096 .start (.malloc (2^64-1) false)
      (State.start.give 64 _ hroom ⟨fpaMagic, none, .abrsize⟩ (.user (2^64-1))) := by
    exact .arb rfl (fun h => Bool.noConfusion h) (by decide) hroom
  refine ⟨c, 4096, _, rfl, .single ⟨_, hmake⟩, fun hsound => ?_⟩
  obtain ⟨n, hn, hle⟩ := hsound.enough 64 (2^64-1) rfl
  have hn' : some (Cfg.sizedLen (2^64-1)) = some n := hn
  cases hn'
  exact absurd hle (by decide)

theorem breaks_realloc : Breaks (some ['D', ':', 'M']) := by
  obtain ⟨c, hinit, hall⟩ : ∃ c, ndrxFpinit (some ['D', ':', 'M']) = some c ∧ c.mallocAll = true :=
    ⟨_, rfl, by decide⟩
  let s1 : State := State.start.give 64 8 (room_empty 64 8) (State.start.block 64) (.user 8)
  have hmake : Step c 4096 .start (.malloc 8 false) s1 :=
    .mallocAll hall (fun h => Bool.noConfusion h) _
  have hfree : Step c 4096 s1 (.realloc 0) {s1 with heap := s1.heap.remove 64} :=
    @Step.reallocZero c 4096 s1 64 8 rfl hall
  refine ⟨c, 4096, _, hinit, .tail (.single ⟨_, hmake⟩) ⟨_, hfree⟩, fun hsound => ?_⟩
  obtain ⟨_, hn, _⟩ := hsound.enough 64 8 rfl
  cases hn

theorem allocator_breaks :
    Breaks (some ['S', ':', 'M']) ∧ Breaks none ∧ Breaks (some ['D', ':', 'M']) :=
  ⟨breaks_sysbuf, breaks_size, breaks_realloc⟩

end Endurox.Fpa
