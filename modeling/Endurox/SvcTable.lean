import Endurox.BaseCInt
import Endurox.BaseProbe
import Mathlib.Algebra.BigOperators.Fin

/-!
The shared table of services: `_ndrx_shm_get_svc`, `ndrx_shm_install_svc_br` and
`ndrxd_shm_uninstall_svc`, as built for epoll. Poll and System V builds additionally keep the
list `resids` of local servers in each entry, which none of the counters depends on.
-/

namespace Endurox.SvcTable

open Base Function

def SvcName := {s : List UInt8 // s.length ≤ 30 ∧ 0 ∉ s}

instance : DecidableEq SvcName := inferInstanceAs (DecidableEq (Subtype _))

structure SvcInfo where
  service : SvcName
  srvs : Int
  flags : ℕ
  csrvs : Int
  totclustered : Int
  cnodesMaxId : ℕ
  cnodes : Fin 32 → Int

def SvcInfo.init (el : SvcInfo) : Bool := el.flags.testBit 0

variable {N : ℕ}

abbrev Mem (N : ℕ) := Fin N → SvcInfo

inductive Mode
  | full | diff
  deriving DecidableEq

/-- Who offers the service: a local server, or a bridge that reports the count of a node (node
ids are 1 to 32 in the source). -/
inductive Offer
  | localSrv
  | bridge (node : Fin 32) (count : CInt) (mode : Mode)
  deriving DecidableEq

def Offer.isZero : Offer → Bool
  | .localSrv => false
  | .bridge _ count _ => count.val = 0

section

variable (hash : SvcName → Fin N) (mem : Mem N) (svc : SvcName)

def stopsAt (install : Bool) (p : Fin N) : Bool :=
  (mem p).service = svc ∨ install ∧ (mem p).srvs = 0

/-- The result of `_ndrx_shm_get_svc`: found, the position, and whether the install command
became `NDRX_SVCINSTALL_OVERWRITE`. -/
structure SvcPos (N : ℕ) where
  found : Bool
  pos : Fin N
  overwrite : Bool
  deriving DecidableEq

def pass (install : Bool) (start : Fin N) : Option (SvcPos N) :=
  (probeLoop start (fun p => (mem p).init) (stopsAt mem svc install) (N+1) start false 0).map
    (fun (broke, p, _) =>
      let found := broke && decide ((mem p).service = svc)
      ⟨found, p, install && (broke && !found || !(mem p).init)⟩)

def getSvc (install : Bool) : Option (SvcPos N) :=
  if install then do
    let r ← pass mem svc false (hash svc)
    pass mem svc true (if r.found then r.pos else hash svc)
  else pass mem svc false (hash svc)

end

namespace SvcInfo

def offer (el : SvcInfo) (isBridge : Bool) : SvcInfo :=
  {el with srvs := wrap32 (el.srvs+1), csrvs := if isBridge then wrap32 (el.csrvs+1) else el.csrvs}

def nodeCount (old count : Int) : Mode → Int
  | .full => count
  | .diff => if wrap32 (old+count) < 0 then 0 else wrap32 (old+count)

def total (cnodes : Fin 32 → Int) (n : ℕ) : Int :=
  (List.finRange 32).foldl (fun acc i => if i.val < n then wrap32 (acc+cnodes i) else acc) 0

def setNode (el : SvcInfo) (node : Fin 32) (count : Int) (mode : Mode) : SvcInfo :=
  let now := nodeCount (el.cnodes node) count mode
  if now ≤ 0 ∧ el.cnodes node > 0 then
    {el with
      srvs := wrap32 (el.srvs-1)
      csrvs := wrap32 (el.csrvs-1)
      cnodes := update el.cnodes node now}
  else {el with cnodes := update el.cnodes node now}

def settle (el : SvcInfo) (node : Fin 32) : SvcInfo :=
  if el.csrvs = 0 ∧ el.srvs = 0 then {el with totclustered := 0, cnodes := fun _ => 0}
  else
    {el with
      cnodesMaxId := max el.cnodesMaxId (node.val+1)
      totclustered := total el.cnodes (max el.cnodesMaxId (node.val+1))}

def refresh (el : SvcInfo) (node : Fin 32) (count : Int) (mode : Mode) : SvcInfo :=
  (el.setNode node count mode).settle node

def known (el : SvcInfo) (flags : ℕ) : Offer → SvcInfo
  | .localSrv => {el with flags := flags ||| 1}.offer false
  | .bridge node count mode =>
    let el := {el with flags := flags ||| 1}
    (if el.cnodes node = 0 ∧ count.val > 0 then el.offer true else el).refresh node count.val mode

def created (el : SvcInfo) (svc : SvcName) (flags : ℕ) : Offer → SvcInfo
  | .localSrv => {el with service := svc, flags := flags ||| 1}.offer false
  | .bridge node count mode =>
    ({el with service := svc, flags := flags ||| 1}.offer true).refresh node count.val mode

def uninstalled (el : SvcInfo) : SvcInfo :=
  if el.srvs > 1 then {el with srvs := wrap32 (el.srvs-1)}
  else {el with srvs := 0, csrvs := 0, totclustered := 0, cnodes := fun _ => 0}

end SvcInfo

section

variable (hash : SvcName → Fin N) (mem : Mem N)

def installSvcBr (svc : SvcName) (flags : ℕ) (who : Offer) : Option (Bool × Mem N) := do
  let r ← getSvc hash mem svc true
  if r.found then some (true, update mem r.pos ((mem r.pos).known flags who))
  else if r.overwrite then
    if who.isZero then some (true, mem)
    else some (true, update mem r.pos ((mem r.pos).created svc flags who))
  else some (false, mem)

def uninstallSvc (svc : SvcName) : Option (Bool × Mem N) := do
  let r ← getSvc hash mem svc false
  if r.found then
    let el := (mem r.pos).uninstalled
    some ((mem r.pos).srvs ≤ 1 ∨ el.csrvs = el.srvs, update mem r.pos el)
  else some (true, mem)

inductive Op
  | install (svc : SvcName) (flags : ℕ) (who : Offer)
  | uninstall (svc : SvcName)

def step : Op → Option (Bool × Mem N)
  | .install svc flags who => installSvcBr hash mem svc flags who
  | .uninstall svc => uninstallSvc hash mem svc

def run (hash : SvcName → Fin N) : Mem N → List Op → Option (Mem N)
  | mem, [] => some mem
  | mem, op :: ops => (step hash mem op).bind (fun r => run hash r.2 ops)

end

def fresh : Mem N := fun _ => ⟨⟨[], by simp⟩, 0, 0, 0, 0, 0, fun _ => 0⟩

def Live (mem : Mem N) (p : Fin N) : Prop := (mem p).init = true ∧ 0 < (mem p).srvs

def Absent (mem : Mem N) (svc : SvcName) : Prop := ∀ p, (mem p).init = true → (mem p).service ≠ svc

namespace SvcInfo

variable (el : SvcInfo)

@[simp] theorem offer_service (isBridge : Bool) : (el.offer isBridge).service = el.service := rfl

@[simp] theorem offer_flags (isBridge : Bool) : (el.offer isBridge).flags = el.flags := rfl

@[simp] theorem refresh_service (node : Fin 32) (count : Int) (mode : Mode) :
    (el.refresh node count mode).service = el.service := by
  simp only [refresh, settle, setNode]
  split_ifs <;> rfl

@[simp] theorem refresh_flags (node : Fin 32) (count : Int) (mode : Mode) :
    (el.refresh node count mode).flags = el.flags := by
  simp only [refresh, settle, setNode]
  split_ifs <;> rfl

theorem known_service (flags : ℕ) (who : Offer) : (el.known flags who).service = el.service := by
  cases who with
  | localSrv => rfl
  | bridge =>
    rw [known, refresh_service]
    split <;> rfl

theorem known_init (flags : ℕ) (who : Offer) : (el.known flags who).init = true := by
  cases who with
  | localSrv => simp [known, init]
  | bridge =>
    rw [init, known]
    split <;> simp

theorem created_service (svc : SvcName) (flags : ℕ) (who : Offer) :
    (el.created svc flags who).service = svc := by
  cases who with
  | localSrv => rfl
  | bridge => rw [created, refresh_service, offer_service]

theorem created_init (svc : SvcName) (flags : ℕ) (who : Offer) :
    (el.created svc flags who).init = true := by
  cases who with
  | localSrv => simp [created, init]
  | bridge => simp [created, init]

theorem uninstalled_service : el.uninstalled.service = el.service := by
  rw [uninstalled]
  split <;> rfl

theorem uninstalled_init : el.uninstalled.init = el.init := by
  rw [uninstalled]
  split <;> rfl

end SvcInfo

section

variable {hash : SvcName → Fin N} {mem : Mem N} {svc : SvcName}

def Inv (hash : SvcName → Fin N) (mem : Mem N) : Prop :=
  ∀ p, (mem p).init = true → OnPath hash (fun p => (mem p).init) (fun p => (mem p).service) p

theorem pass_spec (mem : Mem N) (svc : SvcName) (install : Bool) (start : Fin N) :
    ∃ broke p, pass mem svc install start = some ⟨broke && decide ((mem p).service = svc), p,
          install && (broke && !(broke && decide ((mem p).service = svc)) || !(mem p).init)⟩ ∧
      ProbeEnd start (fun p => (mem p).init) (stopsAt mem svc install) broke p := by
  obtain ⟨broke, p, _, hrun, -, hend⟩ :=
    probeLoop_spec start (fun p => (mem p).init) (stopsAt mem svc install)
  refine ⟨broke, p, ?_, hend⟩
  rw [pass, hrun]
  rfl

theorem read_spec (h : Inv hash mem) (svc : SvcName) : ∃ r, getSvc hash mem svc false = some r ∧
      (∀ p, (mem p).init = true → (mem p).service = svc → r.found = true ∧ r.pos = p) ∧
      (r.found = true → (mem r.pos).init = true ∧ (mem r.pos).service = svc) := by
  obtain ⟨broke, p, hrun, hend⟩ := pass_spec mem svc false (hash svc)
  refine ⟨_, by rw [getSvc]; exact hrun, ?_, ?_⟩
  · intro q hq hname
    obtain ⟨rfl, rfl⟩ := hend.find (h q hq) hname hq (by simp [stopsAt, hname])
      (fun x hx => by simpa [stopsAt] using hx)
    simp [hname]
  intro hf
  have hf : broke = true ∧ (mem p).service = svc := by simpa using hf
  cases hend with
  | hit i hi hocc => exact ⟨hocc, hf.2⟩
  | free => cases hf.1
  | full => cases hf.1

/-- The lookup of an install: the entry of the service, or else the first entry of its path that
serves nothing; there is none only when every entry serves something. -/
theorem install_spec (h : Inv hash mem) (svc : SvcName) : ∃ r, getSvc hash mem svc true = some r ∧
      (∀ p, (mem p).init = true → (mem p).service = svc → r.found = true ∧ r.pos = p) ∧
      (Absent mem svc → r.found = false ∧
        ((r.overwrite = true ∧ ((mem r.pos).init = false ∨ (mem r.pos).srvs = 0) ∧
          ∃ j < N, probeAt (hash svc) j = r.pos ∧
            ∀ i < j, (mem (probeAt (hash svc) i)).init = true) ∨
        (r.overwrite = false ∧ ∀ p, (mem p).init = true ∧ (mem p).srvs ≠ 0))) := by
  obtain ⟨r, hread, hin, hout⟩ := read_spec h svc
  rw [getSvc, if_neg (by simp)] at hread
  obtain ⟨broke, p, hrun, hend⟩ := pass_spec mem svc true (if r.found then r.pos else hash svc)
  have hget : getSvc hash mem svc true = some ⟨broke && decide ((mem p).service = svc), p,
      true && (broke && !(broke && decide ((mem p).service = svc)) || !(mem p).init)⟩ := by
    rw [getSvc, if_pos rfl]
    simp [hread, hrun]
  refine ⟨_, hget, ?_, ?_⟩
  · intro q hq hname
    obtain ⟨hf, rfl⟩ := hin q hq hname
    rw [if_pos hf] at hend
    -- the pass starts at the entry of the service and stops there
    have hstop : stopsAt mem svc true r.pos = true := by simp [stopsAt, hname]
    have hpos := hend.at_start hq hstop
    obtain ⟨rfl, rfl⟩ := hpos
    simp [hname]
  · intro habs
    have hno : r.found = false := by
      by_contra hf
      obtain ⟨h1, h2⟩ := hout (by simpa using hf)
      exact habs _ h1 h2
    rw [if_neg (by simp [hno])] at hend
    cases hend with
    | hit i hi hocc hhit hpath =>
      have hne := habs _ hocc
      refine ⟨by simp [hne], Or.inl ⟨by simp [hne], Or.inr ?_, i, hi, rfl, ?_⟩⟩
      · simpa [stopsAt, hne] using hhit
      · exact fun j hj => (hpath j hj).1
    | free i hi hfree hpath =>
      refine ⟨rfl, Or.inl ⟨by simpa using hfree, Or.inl hfree, i, hi, rfl, ?_⟩⟩
      exact fun j hj => (hpath j hj).1
    | full hpath =>
      refine ⟨rfl, Or.inr ⟨?_, ?_⟩⟩
      · have h0 := (hpath 0 (hash svc).pos).1
        rw [probeAt_zero] at h0
        simp [h0]
      intro x
      obtain ⟨i, hi, rfl⟩ := exists_probeAt (hash svc) x
      obtain ⟨h1, h2⟩ := hpath i hi
      have h2 : ¬ (mem (probeAt (hash svc) i)).service = svc ∧
          ¬ (mem (probeAt (hash svc) i)).srvs = 0 := by simpa [stopsAt] using h2
      exact ⟨h1, h2.2⟩

end

section

variable {hash : SvcName → Fin N} {mem : Mem N}

theorem inv_fresh (hash : SvcName → Fin N) : Inv hash (fresh : Mem N) := by
  intro p hp
  simp [fresh, SvcInfo.init] at hp

theorem Inv.put (h : Inv hash mem) {el : SvcInfo} (hinit : el.init = true) {q : Fin N} {j : ℕ}
    (hother : ∀ p ≠ q, (mem p).init = true → (mem p).service ≠ el.service) (hj : j < N)
    (hq : probeAt (hash el.service) j = q)
    (hpath : ∀ i < j, (mem (probeAt (hash el.service) i)).init = true) :
    Inv hash (update mem q el) := by
  intro p hp
  show OnPath hash (SvcInfo.init ∘ update mem q el) (SvcInfo.service ∘ update mem q el) p
  rw [comp_update, comp_update, hinit]
  by_cases hpq : p = q
  · rw [hpq]
    exact onPath_put hj hq (fun i hi hne => ⟨hpath i hi, hother _ hne (hpath i hi)⟩)
  · rw [update_of_ne hpq] at hp
    exact (h p hp).put hpq (hother p hpq hp)

theorem Inv.other (h : Inv hash mem) {q : Fin N} {el : SvcInfo} (hq : (mem q).init = true)
    (hname : el.service = (mem q).service) :
    ∀ p ≠ q, (mem p).init = true → (mem p).service ≠ el.service :=
  fun p hpq hp he => hpq ((h p hp).unique (h q hq) (he.trans hname))

theorem Inv.change (h : Inv hash mem) {q : Fin N} {el : SvcInfo} (hq : (mem q).init = true)
    (hname : el.service = (mem q).service) (hinit : el.init = true) :
    Inv hash (update mem q el) := by
  obtain ⟨j, hj, hat, hpath⟩ := h q hq
  simp only [← hname] at hat hpath
  exact h.put hinit (h.other hq hname) hj hat (fun i hi => (hpath i hi).1)

/-- What a call can do: change the entry of the service, take an entry for a service that has
none, or nothing. An install fails only in a table without an entry to take. -/
inductive Stepped (hash : SvcName → Fin N) (mem : Mem N) : Op → Bool → Mem N → Prop
  | known {svc flags who q} (hq : (mem q).init = true) (hname : (mem q).service = svc) :
      Stepped hash mem (.install svc flags who) true
        (update mem q ((mem q).known flags who))
  | created {svc flags who q j} (habs : Absent mem svc)
      (hfree : (mem q).init = false ∨ (mem q).srvs = 0) (hj : j < N)
      (hq : probeAt (hash svc) j = q) (hpath : ∀ i < j, (mem (probeAt (hash svc) i)).init = true)
      (hzero : who.isZero = false) :
      Stepped hash mem (.install svc flags who) true
        (update mem q ((mem q).created svc flags who))
  | skipped {svc flags who} (habs : Absent mem svc)
      (hzero : who.isZero = true) : Stepped hash mem (.install svc flags who) true mem
  | failed {svc flags who} (habs : Absent mem svc)
      (hfull : ∀ p, (mem p).init = true ∧ (mem p).srvs ≠ 0) :
      Stepped hash mem (.install svc flags who) false mem
  | uninstalled {svc q} {last : Bool} (hq : (mem q).init = true) (hname : (mem q).service = svc) :
      Stepped hash mem (.uninstall svc) last (update mem q (mem q).uninstalled)
  | unknown {svc} (habs : Absent mem svc) :
      Stepped hash mem (.uninstall svc) true mem

/-- In a sound table every call returns, and does one of the steps. -/
theorem step_cases (h : Inv hash mem) (op : Op) :
    ∃ ok mem', step hash mem op = some (ok, mem') ∧ Stepped hash mem op ok mem' := by
  cases op with
  | install svc _ who =>
    obtain ⟨r, hr, hin, hout⟩ := install_spec h svc
    by_cases hex : ∃ p, (mem p).init = true ∧ (mem p).service = svc
    · obtain ⟨p, hp, hname⟩ := hex
      obtain ⟨hf, rfl⟩ := hin p hp hname
      refine ⟨_, _, ?_, Stepped.known hp hname⟩
      simp [step, installSvcBr, hr, if_pos hf]
    have habs : Absent mem svc := fun p hp hname => hex ⟨p, hp, hname⟩
    obtain ⟨hf, ⟨how, hfree, _, hj, hpos, hpath⟩ | ⟨how, hfull⟩⟩ := hout habs
    · cases hz : who.isZero with
      | true =>
        refine ⟨_, _, ?_, Stepped.skipped habs hz⟩
        simp [step, installSvcBr, hr, hf, how, hz]
      | false =>
        refine ⟨_, _, ?_, Stepped.created habs hfree hj hpos hpath hz⟩
        simp [step, installSvcBr, hr, hf, how, hz]
    · refine ⟨_, _, ?_, Stepped.failed habs hfull⟩
      simp [step, installSvcBr, hr, hf, how]
  | uninstall svc =>
    obtain ⟨r, hr, hin, hout⟩ := read_spec h svc
    by_cases hf : r.found = true
    · obtain ⟨hp, hname⟩ := hout hf
      have hstep : step hash mem (.uninstall svc) =
          some (decide ((mem r.pos).srvs ≤ 1 ∨ (mem r.pos).uninstalled.csrvs =
            (mem r.pos).uninstalled.srvs), update mem r.pos (mem r.pos).uninstalled) := by
        simp [step, uninstallSvc, hr, if_pos hf]
      exact ⟨_, _, hstep, Stepped.uninstalled hp hname⟩
    · refine ⟨_, _, ?_, Stepped.unknown ?_⟩
      · simp [step, uninstallSvc, hr, hf]
      · intro p hp hname
        exact hf (hin p hp hname).1

theorem Stepped.inv {op : Op} {ok : Bool} {mem' : Mem N} (hs : Stepped hash mem op ok mem')
    (h : Inv hash mem) : Inv hash mem' := by
  cases hs with
  | known hq => exact h.change hq (SvcInfo.known_service _ _ _) (SvcInfo.known_init _ _ _)
  | created habs _ hj hq hpath =>
    refine h.put (SvcInfo.created_init _ _ _ _) ?_ hj ?_ ?_ <;> rw [SvcInfo.created_service]
    · exact fun p _ => habs p
    · exact hq
    · exact hpath
  | skipped => exact h
  | failed => exact h
  | uninstalled hq =>
    exact h.change hq (SvcInfo.uninstalled_service _) ((SvcInfo.uninstalled_init _).trans hq)
  | unknown => exact h

theorem run_inv (h : Inv hash mem) (ops : List Op) :
    ∃ mem', run hash mem ops = some mem' ∧ Inv hash mem' := by
  induction ops generalizing mem with
  | nil => exact ⟨mem, rfl, h⟩
  | cons op ops ih =>
    obtain ⟨_, _, hstep, hs⟩ := step_cases h op
    obtain ⟨mem2, hrun, h2⟩ := ih (hs.inv h)
    refine ⟨mem2, ?_, h2⟩
    rw [run, hstep, Option.bind_some, hrun]

structure Answers (hash : SvcName → Fin N) (mem : Mem N) (svc : SvcName) : Prop where
  unique : ∀ p q, (mem p).init = true → (mem q).init = true → (mem p).service = svc →
    (mem q).service = svc → p = q
  lookup : ∃ r, getSvc hash mem svc false = some r ∧
    (∀ p, Live mem p → (mem p).service = svc → r.found = true ∧ r.pos = p) ∧
    (r.found = true → (mem r.pos).init = true ∧ (mem r.pos).service = svc ∧
      ((∀ p, Live mem p → (mem p).service ≠ svc) → (mem r.pos).srvs ≤ 0))
  install : ∀ flags who, ∃ ok mem', installSvcBr hash mem svc flags who = some (ok, mem') ∧
    (ok = false → ∀ p, (mem p).init = true ∧ (mem p).srvs ≠ 0)

/-- Whatever was installed and uninstalled before, the lookup of a live service gives its one
entry, and an install fails only in a table where every entry is in use. -/
theorem svc_table_is_map (hash : SvcName → Fin N) (ops : List Op) :
    ∃ mem, run hash fresh ops = some mem ∧ ∀ svc, Answers hash mem svc := by
  obtain ⟨mem, hrun, h⟩ := run_inv (inv_fresh hash) ops
  refine ⟨mem, hrun, ?_⟩
  intro svc
  obtain ⟨r, hr, hin, hout⟩ := read_spec h svc
  refine ⟨?_, ⟨r, hr, ?_, ?_⟩, ?_⟩
  · intro p q hp hq hpn hqn
    exact (h p hp).unique (h q hq) (hpn.trans hqn.symm)
  · intro p hp hname
    exact hin p hp.1 hname
  · intro hf
    obtain ⟨hinit, hname⟩ := hout hf
    exact ⟨hinit, hname, fun hnone => not_lt.mp fun hpos => hnone r.pos ⟨hinit, hpos⟩ hname⟩
  · intro flags who
    obtain ⟨ok, mem', hstep, hs⟩ := step_cases h (.install svc flags who)
    refine ⟨ok, mem', hstep, ?_⟩
    rintro rfl
    cases hs with
    | failed habs hfull => exact hfull

def svcA : SvcName := ⟨[65], by decide⟩

/-- A service that was uninstalled is still found: its entry stays, without servers. -/
theorem uninstalled_still_found :
    (run (fun _ => (0 : Fin 1)) fresh [.install svcA 0 .localSrv, .uninstall svcA]).bind (fun mem =>
      (getSvc (fun _ => 0) mem svcA false).map (fun r => (r.found, (mem r.pos).srvs))) =
        some (true, 0) := by
  decide

end

namespace SvcInfo

def nodesUp (cnodes : Fin 32 → Int) : ℕ := (Finset.univ.filter (fun i => 0 < cnodes i)).card

structure Exact (el : SvcInfo) (n : ℕ) : Prop where
  csrvs : el.csrvs = nodesUp el.cnodes
  srvs : el.srvs = el.csrvs+n
  range : el.srvs < 2147483648

structure Sound (el : SvcInfo) (n : ℕ) : Prop extends Exact el n where
  clean : el.srvs = 0 → ∀ i, el.cnodes i = 0

variable (cnodes : Fin 32 → Int)

theorem nodesUp_le : nodesUp cnodes ≤ 32 := by
  have h := Finset.card_filter_le (Finset.univ : Finset (Fin 32)) (fun i => 0 < cnodes i)
  simpa [nodesUp] using h

theorem nodesUp_update (node : Fin 32) (now : Int) :
    nodesUp (update cnodes node now)+(if 0 < cnodes node then 1 else 0) =
      nodesUp cnodes+(if 0 < now then 1 else 0) := by
  have hrest : (Finset.univ.erase node).filter (fun i => 0 < update cnodes node now i) =
      (Finset.univ.erase node).filter (fun i => 0 < cnodes i) := by
    apply Finset.filter_congr
    intro i hi
    rw [update_of_ne (Finset.ne_of_mem_erase hi)]
  have hsplit (f : Fin 32 → Int) : nodesUp f =
      ((Finset.univ.erase node).filter (fun i => 0 < f i)).card+(if 0 < f node then 1 else 0) := by
    rw [nodesUp, ← Finset.insert_erase (Finset.mem_univ node), Finset.filter_insert]
    split
    · rw [Finset.card_insert_of_notMem (by simp)]
      simp
    · simp
  rw [hsplit (update cnodes node now), hsplit cnodes, hrest, update_self]
  omega

section

variable {el : SvcInfo} {n : ℕ}

theorem Exact.bounds (h : Exact el n) : 0 ≤ el.csrvs ∧ el.csrvs ≤ 32 ∧ el.csrvs ≤ el.srvs := by
  have h1 := h.csrvs
  have h2 := h.srvs
  have h3 := nodesUp_le el.cnodes
  omega

theorem Exact.settle (h : Exact el n) (node : Fin 32) : Sound (el.settle node) n := by
  rw [SvcInfo.settle]
  split
  · rename_i hz
    refine ⟨⟨?_, h.srvs, h.range⟩, fun _ _ => rfl⟩
    rw [hz.1]
    rfl
  refine ⟨⟨h.csrvs, h.srvs, h.range⟩, ?_⟩
  intro h0
  have hb := h.bounds
  have h0 : el.srvs = 0 := h0
  omega

theorem setNode_exact {node : Fin 32} {count : Int} {mode : Mode}
    (hup : el.csrvs = nodesUp el.cnodes+
      (if el.cnodes node ≤ 0 ∧ 0 < nodeCount (el.cnodes node) count mode then 1 else 0 : ℕ))
    (hsrvs : el.srvs = el.csrvs+n) (hr : el.srvs < 2147483648) :
    Exact (el.setNode node count mode) n := by
  have hcard := nodesUp_update el.cnodes node (nodeCount (el.cnodes node) count mode)
  rw [setNode]
  generalize nodeCount (el.cnodes node) count mode = now at *
  split
  · rename_i hgone
    rw [if_pos (by omega), if_neg (by omega)] at hcard
    rw [if_neg (by omega)] at hup
    refine ⟨?_, ?_, ?_⟩
    · show wrap32 (el.csrvs-1) = nodesUp (update el.cnodes node now)
      rw [wrap32_of_mem (by omega) (by omega)]
      omega
    · show wrap32 (el.srvs-1) = wrap32 (el.csrvs-1)+n
      rw [wrap32_of_mem (by omega) (by omega), wrap32_of_mem (by omega) (by omega)]
      omega
    · show wrap32 (el.srvs-1) < _
      rw [wrap32_of_mem (by omega) (by omega)]
      omega
  · rename_i hstay
    refine ⟨?_, hsrvs, hr⟩
    show el.csrvs = nodesUp (update el.cnodes node now)
    split_ifs at hcard hup <;> omega

theorem Sound.offerLocal (h : Sound el n) (hr : el.srvs < 2147483647) :
    Sound (el.offer false) (n+1) := by
  have h2 := h.srvs
  have hb := h.toExact.bounds
  have hs : (el.offer false).srvs = el.srvs+1 :=
    wrap32_of_mem (by omega) (by omega)
  refine ⟨⟨h.csrvs, ?_, ?_⟩, ?_⟩
  · rw [hs]
    show el.srvs+1 = el.csrvs+((n+1 : ℕ) : Int)
    omega
  · rw [hs]
    omega
  · intro h0
    omega

theorem nodeCount_zero (count : CInt) (mode : Mode) :
    0 < nodeCount 0 count.val mode ↔ 0 < count.val := by
  obtain ⟨c, hlo, hhi⟩ := count
  cases mode with
  | full => exact Iff.rfl
  | diff =>
    show 0 < (if wrap32 (0+c) < 0 then 0 else wrap32 (0+c)) ↔ 0 < c
    rw [zero_add, wrap32_of_mem hlo hhi]
    split <;> omega

theorem Sound.refreshKnown (h : Sound el n) {node : Fin 32} {count : CInt} {mode : Mode}
    (hr : el.cnodes node = 0 → 0 < count.val → el.srvs < 2147483647)
    (hneg : el.cnodes node < 0 → nodeCount (el.cnodes node) count.val mode ≤ 0) :
    Sound ((if el.cnodes node = 0 ∧ count.val > 0 then el.offer true else el).refresh node
      count.val mode) n := by
  have h1 := h.csrvs
  have h2 := h.srvs
  apply Exact.settle
  split
  · rename_i hup
    have hnow : 0 < nodeCount (el.cnodes node) count.val mode := by
      rw [hup.1]
      exact (nodeCount_zero count mode).mpr hup.2
    have hs1 : (el.offer true).srvs = el.srvs+1 :=
      wrap32_of_mem (by omega) (by omega)
    have hc1 : (el.offer true).csrvs = el.csrvs+1 :=
      wrap32_of_mem (by omega) (by omega)
    apply setNode_exact
    · rw [hc1]
      have hif : (el.offer true).cnodes node ≤ 0 ∧
          0 < nodeCount ((el.offer true).cnodes node) count.val mode := ⟨hup.1.le, hnow⟩
      rw [if_pos hif, h1]
      rfl
    · omega
    · omega
  · rename_i hup
    apply setNode_exact _ h.srvs h.range
    have hif : ¬ (el.cnodes node ≤ 0 ∧ 0 < nodeCount (el.cnodes node) count.val mode) := by
      rintro ⟨hle, hpos⟩
      rcases hle.lt_or_eq with hlt | heq
      · have := hneg hlt
        omega
      · rw [heq] at hpos
        exact hup ⟨heq, (nodeCount_zero count mode).mp hpos⟩
    rw [if_neg hif, h1]
    simp

theorem created_sound (svc : SvcName) (flags : ℕ) {who : Offer} (h : Sound el n)
    (h0 : el.srvs = 0) (hcount : ∀ node count mode, who = .bridge node count mode → 0 < count.val) :
    Sound (el.created svc flags who) (if who = .localSrv then 1 else 0) := by
  have hc0 : el.csrvs = 0 := by
    have hb := h.toExact.bounds
    omega
  have hnode := h.clean h0
  have hup : nodesUp el.cnodes = 0 := by
    have h1 := h.csrvs
    omega
  cases who with
  | localSrv =>
    have hz : Sound {el with service := svc, flags := flags ||| 1} 0 :=
      ⟨⟨h.csrvs, by show el.srvs = el.csrvs+((0 : ℕ) : Int); omega, h.range⟩, h.clean⟩
    exact hz.offerLocal (by show el.srvs < _; omega)
  | bridge node count mode =>
    have hpos := hcount node count mode rfl
    apply Exact.settle
    apply setNode_exact
    · show wrap32 (el.csrvs+1) = ((nodesUp el.cnodes : ℕ) : Int)+_
      have hif : el.cnodes node ≤ 0 ∧ 0 < nodeCount (el.cnodes node) count.val mode := by
        rw [hnode node]
        exact ⟨le_rfl, (nodeCount_zero count mode).mpr hpos⟩
      rw [hup, hc0]
      show _ = ((0 : ℕ) : Int)+((if el.cnodes node ≤ 0 ∧
        0 < nodeCount (el.cnodes node) count.val mode then 1 else 0 : ℕ) : Int)
      rw [if_pos hif]
      rfl
    · show wrap32 (el.srvs+1) = wrap32 (el.csrvs+1)+((0 : ℕ) : Int)
      rw [h0, hc0]
      rfl
    · show wrap32 (el.srvs+1) < _
      rw [h0]
      decide

theorem Sound.uninstall (h : Sound el n) (hok : el.csrvs < el.srvs ∨ el.srvs = 0) :
    Sound el.uninstalled (n-1) := by
  have h2 := h.srvs
  have h3 := h.range
  have hb := h.toExact.bounds
  rw [uninstalled]
  split
  · rename_i hgt
    have hs : wrap32 (el.srvs-1) = el.srvs-1 := wrap32_of_mem (by omega) (by omega)
    rw [hs]
    refine ⟨⟨h.csrvs, ?_, ?_⟩, ?_⟩
    · show el.srvs-1 = el.csrvs+((n-1 : ℕ) : Int)
      omega
    · show el.srvs-1 < 2147483648
      omega
    · intro h0
      have h0 : el.srvs-1 = 0 := h0
      omega
  · rename_i hle
    have hn : n-1 = 0 := by omega
    rw [hn]
    refine ⟨⟨?_, rfl, show (0:Int) < 2147483648 by decide⟩, fun _ _ => rfl⟩
    rfl

end

end SvcInfo

variable {hash : SvcName → Fin N} {mem : Mem N} {loc : SvcName → ℕ}

def locals (loc : SvcName → ℕ) : Op → Bool → SvcName → ℕ
  | .install svc _ .localSrv, true => update loc svc (loc svc+1)
  | .install _ _ _, _ => loc
  | .uninstall svc, _ => update loc svc (loc svc-1)

theorem locals_bridge (loc : SvcName → ℕ) (svc : SvcName) (flags : ℕ) (node : Fin 32)
    (count : CInt) (mode : Mode) (ok : Bool) :
    locals loc (.install svc flags (.bridge node count mode)) ok = loc := by
  cases ok <;> rfl

def runLocals (hash : SvcName → Fin N) :
    Mem N → (SvcName → ℕ) → List Op → Option (Mem N × (SvcName → ℕ))
  | mem, loc, [] => some (mem, loc)
  | mem, loc, op :: ops =>
    (step hash mem op).bind (fun r => runLocals hash r.2 (locals loc op r.1) ops)

/-- When a call keeps the counters: an uninstall is for a service with a local server, or one
that nobody serves; a refresh for a service without an entry has no negative count, and a node
whose stored count is negative is not brought up; and `srvs` does not overflow. -/
def StepOk (mem : Mem N) : Op → Prop
  | .install svc _ .localSrv =>
    ∀ p, (mem p).init = true → (mem p).service = svc → (mem p).srvs < 2147483647
  | .install svc _ (.bridge node count mode) =>
    (∀ p, (mem p).init = true → (mem p).service = svc →
      ((mem p).cnodes node = 0 → 0 < count.val → (mem p).srvs < 2147483647) ∧
      ((mem p).cnodes node < 0 → SvcInfo.nodeCount ((mem p).cnodes node) count.val mode ≤ 0)) ∧
    ((∀ p, (mem p).init = true → (mem p).service ≠ svc) → 0 ≤ count.val)
  | .uninstall svc => ∀ p, (mem p).init = true → (mem p).service = svc →
      (mem p).csrvs < (mem p).srvs ∨ (mem p).srvs = 0

instance (mem : Mem N) : (op : Op) → Decidable (StepOk mem op)
  | .install _ _ .localSrv => inferInstanceAs (Decidable (∀ _, _))
  | .install _ _ (.bridge _ _ _) => inferInstanceAs (Decidable (_ ∧ _))
  | .uninstall _ => inferInstanceAs (Decidable (∀ _, _))

def StepsOk (hash : SvcName → Fin N) : Mem N → List Op → Bool
  | _, [] => true
  | mem, op :: ops =>
    decide (StepOk mem op) && ((step hash mem op).all (fun r => StepsOk hash r.2 ops))

structure Counted (mem : Mem N) (loc : SvcName → ℕ) : Prop where
  entry : ∀ p, (mem p).init = true → (mem p).Sound (loc (mem p).service)
  unused : ∀ p, (mem p).init = false → (mem p).Sound 0 ∧ (mem p).srvs = 0
  absent : ∀ svc, Absent mem svc → loc svc = 0

theorem counted_fresh : Counted (fresh : Mem N) (fun _ => 0) where
  entry := by
    intro p hp
    simp [fresh, SvcInfo.init] at hp
  unused := by
    intro p _
    refine ⟨⟨⟨?_, rfl, show (0:Int) < 2147483648 by decide⟩, fun _ _ => rfl⟩, rfl⟩
    rfl
  absent := fun _ _ => rfl

section

variable {q : Fin N} {el : SvcInfo} {n : ℕ} (h : Counted mem loc)
include h

theorem Counted.put (hinit : el.init = true)
    (hother : ∀ p ≠ q, (mem p).init = true → (mem p).service ≠ el.service)
    (hgone : (mem q).init = true → (mem q).service ≠ el.service → loc (mem q).service = 0)
    (hel : el.Sound n) : Counted (update mem q el) (update loc el.service n) := by
  refine ⟨?_, ?_, ?_⟩
  · intro p hp
    by_cases hpq : p = q
    · subst hpq
      rw [update_self, update_self]
      exact hel
    · rw [update_of_ne hpq] at hp ⊢
      rw [update_of_ne (hother p hpq hp)]
      exact h.entry p hp
  · intro p hp
    by_cases hpq : p = q
    · rw [hpq, update_self, hinit] at hp
      cases hp
    · rw [update_of_ne hpq] at hp ⊢
      exact h.unused p hp
  · intro svc habs
    have hne : svc ≠ el.service := by
      rintro rfl
      have := habs q (by rw [update_self]; exact hinit)
      rw [update_self] at this
      exact this rfl
    rw [update_of_ne hne]
    by_cases hex : ∃ p, (mem p).init = true ∧ (mem p).service = svc
    · -- only the entry that is written can have had the name
      obtain ⟨p, hp, rfl⟩ := hex
      have hpq : p = q := by
        by_contra hpq
        have := habs p (by rw [update_of_ne hpq]; exact hp)
        rw [update_of_ne hpq] at this
        exact this rfl
      subst hpq
      exact hgone hp hne
    · exact h.absent svc (fun p hp he => hex ⟨p, hp, he⟩)

theorem Counted.change (hinv : Inv hash mem) (hq : (mem q).init = true)
    (hname : el.service = (mem q).service) (hinit : el.init = true) (hel : el.Sound n) :
    Counted (update mem q el) (update loc (mem q).service n) := by
  rw [← hname]
  exact h.put hinit (hinv.other hq hname) (fun _ hne => absurd hname.symm hne) hel

theorem Counted.take {svc : SvcName} (habs : Absent mem svc)
    (hfree : (mem q).init = false ∨ (mem q).srvs = 0) (hname : el.service = svc)
    (hinit : el.init = true) (hel : el.Sound n) : Counted (update mem q el) (update loc svc n) := by
  subst hname
  refine h.put hinit (fun p _ => habs p) ?_ hel
  intro hp _
  -- nobody served what had the entry
  have h0 := hfree.resolve_left (by simp [hp])
  have h1 := (h.entry q hp).srvs
  have h2 := (h.entry q hp).toExact.bounds
  omega

end

/-- A step that meets the condition keeps the counters exact. -/
theorem Stepped.counted {op : Op} {ok : Bool} {mem' : Mem N} (hs : Stepped hash mem op ok mem')
    (hinv : Inv hash mem) (h : Counted mem loc) (hok : StepOk mem op) :
    Counted mem' (locals loc op ok) := by
  cases hs with
  | @known svc flags who q hq hname =>
    subst hname
    have hel := h.entry q hq
    have hflags : ({mem q with flags := flags ||| 1} : SvcInfo).Sound (loc (mem q).service) :=
      {hel with}
    cases who with
    | localSrv =>
      exact h.change hinv hq (SvcInfo.known_service _ _ _) (SvcInfo.known_init _ _ _)
        (hflags.offerLocal (hok q hq rfl))
    | bridge =>
      obtain ⟨hr, hneg⟩ := hok.1 q hq rfl
      have hsame : loc = update loc (mem q).service (loc (mem q).service) := by simp
      rw [hsame]
      exact h.change hinv hq (SvcInfo.known_service _ _ _) (SvcInfo.known_init _ _ _)
        (hflags.refreshKnown hr hneg)
  | @created svc flags who q j habs hfree hj hq hpath hzero =>
    have hclean : ∃ n, (mem q).Sound n ∧ (mem q).srvs = 0 := by
      cases hi : (mem q).init with
      | false => exact ⟨0, h.unused q hi⟩
      | true => exact ⟨_, h.entry q hi, hfree.resolve_left (by simp [hi])⟩
    obtain ⟨_, hsound, h0⟩ := hclean
    have hcount : ∀ node count mode, who = .bridge node count mode → 0 < count.val := by
      rintro node count mode rfl
      have hge := hok.2 habs
      have hne : count.val ≠ 0 := by simpa [Offer.isZero] using hzero
      omega
    have hloc : locals loc (.install svc flags who) true =
        update loc svc (if who = .localSrv then 1 else 0) := by
      have hnone := h.absent svc habs
      cases who with
      | localSrv => rw [locals, hnone, if_pos rfl]
      | bridge => rw [locals_bridge, if_neg nofun, ← hnone, update_eq_self]
    rw [hloc]
    exact h.take habs hfree (SvcInfo.created_service _ _ _ _) (SvcInfo.created_init _ _ _ _)
      (SvcInfo.created_sound svc flags hsound h0 hcount)
  | @skipped svc flags who habs hzero =>
    cases who with
    | localSrv => cases hzero
    | bridge => exact h
  | @failed svc flags who habs hfull =>
    cases who with
    | localSrv => exact h
    | bridge => exact h
  | @uninstalled svc q last hq hname =>
    subst hname
    exact h.change hinv hq (SvcInfo.uninstalled_service _)
      ((SvcInfo.uninstalled_init _).trans hq) ((h.entry q hq).uninstall (hok q hq rfl))
  | @unknown svc habs =>
    have hloc : locals loc (.uninstall svc) true = loc := by
      rw [locals, h.absent svc habs, Nat.zero_sub, ← h.absent svc habs, update_eq_self]
    rw [hloc]
    exact h

theorem run_counted (hinv : Inv hash mem) (h : Counted mem loc) (ops : List Op)
    (hok : StepsOk hash mem ops = true) :
    ∃ mem' loc', runLocals hash mem loc ops = some (mem', loc') ∧ Counted mem' loc' := by
  induction ops generalizing mem loc with
  | nil => exact ⟨mem, loc, rfl, h⟩
  | cons op ops ih =>
    obtain ⟨_, mem1, hstep, hs⟩ := step_cases hinv op
    have hand : StepOk mem op ∧ StepsOk hash mem1 ops = true := by
      simpa [StepsOk, hstep] using hok
    obtain ⟨mem2, loc2, hrun, h2⟩ := ih (hs.inv hinv) (hs.counted hinv h hand.1) hand.2
    refine ⟨mem2, loc2, ?_, h2⟩
    rw [runLocals, hstep, Option.bind_some, hrun]

/-- In a run whose calls meet the condition every entry counts exactly the nodes that are up and
the local installs that were not uninstalled, and so is live just when somebody serves it. -/
theorem counters_exact (hash : SvcName → Fin N) (ops : List Op)
    (hok : StepsOk hash fresh ops = true) :
    ∃ mem loc, runLocals hash fresh (fun _ => 0) ops = some (mem, loc) ∧ ∀ p, (mem p).init = true →
        (mem p).csrvs = SvcInfo.nodesUp (mem p).cnodes ∧
        (mem p).srvs-(mem p).csrvs = loc (mem p).service ∧
        (Live mem p ↔ 0 < loc (mem p).service ∨ ∃ i, 0 < (mem p).cnodes i) := by
  obtain ⟨mem, loc, hrun, h⟩ := run_counted (inv_fresh hash) counted_fresh ops hok
  refine ⟨mem, loc, hrun, ?_⟩
  intro p hp
  have hs := h.entry p hp
  have h1 := hs.csrvs
  have h2 := hs.srvs
  have hup : 0 < SvcInfo.nodesUp (mem p).cnodes ↔ ∃ i, 0 < (mem p).cnodes i := by
    rw [SvcInfo.nodesUp]
    simp [Finset.Nonempty]
  refine ⟨h1, by omega, ?_⟩
  rw [← hup]
  constructor
  · rintro ⟨-, hpos⟩
    omega
  · intro hpos
    exact ⟨hp, by omega⟩

theorem counters_exact_svcA : ∃ mem loc, runLocals (fun _ => (0 : Fin 1)) fresh (fun _ => 0)
      [.install svcA 0 .localSrv, .install svcA 0 (.bridge 1 ⟨3, by decide⟩ .full),
        .install svcA 0 (.bridge 1 ⟨-3, by decide⟩ .diff), .uninstall svcA] = some (mem, loc) ∧
      ∀ p, (mem p).init = true → (mem p).csrvs = SvcInfo.nodesUp (mem p).cnodes ∧
        (mem p).srvs-(mem p).csrvs = loc (mem p).service ∧
        (Live mem p ↔ 0 < loc (mem p).service ∨ ∃ i, 0 < (mem p).cnodes i) :=
  counters_exact _ _ (by decide)

/-- A negative difference for a service that has no entry makes one that counts a node which
offers nothing. -/
theorem phantom_service :
    (run (fun _ => (0 : Fin 1)) fresh [.install svcA 0 (.bridge 1 ⟨-1, by decide⟩ .diff)]).map
      (fun mem => ((mem 0).srvs, (mem 0).csrvs, SvcInfo.nodesUp (mem 0).cnodes)) =
        some (1, 1, 0) := by
  decide

end Endurox.SvcTable
