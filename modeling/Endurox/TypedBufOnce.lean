import Endurox.TypedBufFree

/-! `tpfree` frees a graph of buffers once exactly when its cycles all go through the pointers of
the buffer it is called for. -/

namespace Endurox.TypedBuf

open Base Relation List

variable {g : Registry}

def EdgeBut (g : Registry) (root : Addr) (a b : Addr) : Prop :=
  EdgeIn g (start g).registered a b ∧ (a = root → CallinfoEdge g a b)

variable {elt : Buf} {a : Addr}

theorem callinfo_eq {b : Addr} (helt : g.bufs.find a = some elt) (h : CallinfoEdge g a b) :
    elt.callinfobuf = some b := by
  obtain ⟨_, helt', hb⟩ := h
  rw [helt] at helt'
  cases helt'
  exact hb

theorem owner_unique {z c : Addr} (hc : CallinfoEdge g a c) (hz : Edge g z c) : z = a := by
  obtain ⟨elt, helt, hc⟩ := hc
  rcases hz with ⟨elt', helt', _, hp⟩ | ⟨elt', helt', hc'⟩
  · exact absurd hp (g.callinfo_hidden a z elt elt' c helt helt' hc)
  · exact g.callinfo_own z a elt' elt c helt' helt hc' hc

variable {buf : Addr} {m : Mem} {fuel : ℕ} {full : Bool}

section

variable {root a : Addr} (ha : TransGen (EdgeBut g root) a a)
include ha

/-- A call-info buffer of a knot cannot be freed: that frees the whole knot, and with it the
owner, which is being freed. -/
theorem callinfo_not_knot {c : Addr} {m1 : Mem} (hc : CallinfoEdge g buf c)
    (hran : Ran g c true m m1) (hz : ∀ z, Knot (EdgeBut g root) a z → z ∈ m.registered)
    (hbuf : buf ∈ m1.registered) : ¬ Knot (EdgeBut g root) a c := by
  intro hkc
  obtain ⟨_, hstep, hkz⟩ := hkc.exists_prev ha
  have hkb : Knot (EdgeBut g root) a buf := owner_unique hc hstep.1.2.2 ▸ hkz
  have hspread : ∀ x y, x ∉ m1.registered → Knot (EdgeBut g root) a x →
      Knot (EdgeBut g root) a y → EdgeBut g root x y → y ∉ m1.registered := by
    intro x y hx hkx hky hxy
    exact hran.closed x y (hz x hkx) hx (hz y hky) (.inl ⟨hxy.1.2.2, .inl rfl⟩)
  exact Knot.spread hspread hkc hran.gone hkb hbuf

/-- A free leaves the buffers of a knot registered. -/
theorem knot_kept {m' : Mem} (hm : Good g m)
    (hz : ∀ z, Knot (EdgeBut g root) a z → z ∈ m.registered)
    (hbut : ∀ z, Knot (EdgeBut g root) a buf → EdgeBut g root buf z →
      Knot (EdgeBut g root) a z → CallinfoEdge g buf z)
    (h : tpfreeInner g fuel buf full m = .ok m') :
    ∀ z, Knot (EdgeBut g root) a z → z ∈ m'.registered := by
  induction fuel generalizing buf full m m' with
  | zero => cases h
  | succ fuel ih =>
    rcases tpfreeInner_eq_ok h with
      ⟨hnone, rfl⟩ | ⟨elt, l1, m1, l2, hfind, hci, hfreed, hscan, hloop⟩
    · exact hz
    obtain ⟨hbuf, helt⟩ := findBuffer_eq_some.mp hfind
    obtain ⟨hcall, hlist⟩ := callinfo_ran (fun _ _ _ => ran_of_ok) hm helt hci
    obtain ⟨hshr1, hbuf1, -⟩ := callinfo_frame hbuf helt hm hfreed hcall
    have hcout (c : Addr) (hc : CallinfoEdge g buf c) : ¬ Knot (EdgeBut g root) a c := by
      rcases hcall with ⟨hnone, _⟩ | ⟨_, hc', hran⟩
      · rw [callinfo_eq helt hc] at hnone
        cases hnone
      · rw [callinfo_eq helt hc] at hc'
        cases hc'
        exact callinfo_not_knot ha hc hran hz hbuf1
    have hz1 : ∀ z, Knot (EdgeBut g root) a z → z ∈ m1.registered := by
      rcases freeCallinfo_eq_ok hci with ⟨_, _, rfl⟩ | ⟨c, hc, hrun, _⟩
      · exact hz
      · exact ih hm hz (fun z hk => absurd hk (hcout c ⟨elt, helt, hc⟩)) hrun
    have hbout : ¬ Knot (EdgeBut g root) a buf := by
      intro hk
      obtain ⟨z, hstep, hkz⟩ := hk.exists_next ha
      exact hcout z (hbut z hk hstep hkz) hkz
    have hz2 (z : Addr) (hk : Knot (EdgeBut g root) a z) :
        z ∈ ((m1.unregister buf).free buf).registered :=
      mem_unregister.mpr ⟨hz1 z hk, fun heq => hbout (heq ▸ hk)⟩
    have hm2 : Good g ((m1.unregister buf).free buf) :=
      (hshr1.trans (shrinks_unregister hbuf1 hfreed)).good hm
    cases full with
    | false =>
      cases hloop
      exact hz2
    | true =>
      have hord := (gathered_of_scans hbuf helt hshr1.sub hlist hscan).ordered
      -- along the list: what stands before the next pointer is registered no more
      suffices hlp : ∀ rest pre m3, pre ++ rest = l2 → Good g m3 → (∀ p ∈ pre, p ∉ m3.registered) →
          (∀ z, Knot (EdgeBut g root) a z → z ∈ m3.registered) →
          rest.foldlM (fun m p => tpfreeInner g fuel p false m) m3 = .ok m' →
          ∀ z, Knot (EdgeBut g root) a z → z ∈ m'.registered from
        hlp l2 [] _ rfl hm2 (by simp) hz2 hloop
      intro rest
      induction rest with
      | nil =>
        intro pre m3 _ _ _ hz3 hrun
        cases hrun
        exact hz3
      | cons e rest ihrest =>
        intro pre m3 heq hm3 hpre hz3 hrun
        obtain ⟨m4, hone, hrun⟩ := bind_eq_ok.mp hrun
        have hran := ran_of_ok hm3 hone
        refine ihrest (pre ++ [e]) m4 (by simpa using heq) (hran.shrinks.good hm3) ?_ ?_ hrun
        · intro p hp
          rcases mem_append.mp hp with hp | hp
          · exact fun hin => hpre p hp (hran.shrinks.sub p hin)
          · exact mem_singleton.mp hp ▸ hran.gone
        refine ih hm3 hz3 ?_ hone
        intro z hke hstep hkz
        rcases hstep.1.2.2 with hp | hc
        · have hzpre := hord pre e rest heq.symm z ⟨hz2 e hke, hp⟩
          exact absurd (hz3 z hkz) (hpre z hzpre)
        · exact hc

end

variable {fuel' : ℕ}

theorem scanAt_mono (hle : fuel ≤ fuel') {l l' : List Addr} (h : scanAt g fuel a m l = .ok l') :
    scanAt g fuel' a m l = .ok l' := by
  revert h
  unfold scanAt
  split
  · exact id
  · split
    · exact scanPtrs_mono hle
    · exact id

theorem tpfreeInner_of_parts {m1 m' : Mem}
    {l1 l2 : List Addr} (hfind : findBuffer g m.registered buf = some elt)
    (hci : freeCallinfo g (fun c m => tpfreeInner g fuel c true m) fuel elt full m = .ok (l1, m1))
    (hfreed : buf ∉ m1.freed)
    (hscan : (if full && elt.isUbf then scanAt g fuel buf (m1.unregister buf) l1 else .ok l1) =
      .ok l2) (hloop : (if full then
        l2.foldlM (fun m p => tpfreeInner g fuel p false m) ((m1.unregister buf).free buf)
      else .ok ((m1.unregister buf).free buf)) = .ok m') :
    tpfreeInner g (fuel+1) buf full m = .ok m' := by
  rw [tpfreeInner, hfind]
  refine bind_eq_ok.mpr ⟨(l1, m1), hci, ?_⟩
  simp only [if_neg hfreed]
  exact bind_eq_ok.mpr ⟨l2, hscan, hloop⟩

theorem freeCallinfo_of_imp {free free' : Addr → Mem → Except Fault Mem} (hle : fuel ≤ fuel')
    (himp : ∀ c m m', free c m = .ok m' → free' c m = .ok m') {r : List Addr × Mem}
    (h : freeCallinfo g free fuel elt full m = .ok r) :
    freeCallinfo g free' fuel' elt full m = .ok r := by
  revert h
  unfold freeCallinfo
  split
  · exact id
  intro h
  obtain ⟨l, hl, h⟩ := bind_eq_ok.mp h
  obtain ⟨m', hm', h⟩ := bind_eq_ok.mp h
  refine bind_eq_ok.mpr ⟨l, ?_, bind_eq_ok.mpr ⟨m', himp _ _ _ hm', h⟩⟩
  revert hl
  split
  · exact scanAt_mono hle
  · exact id

theorem tpfreeInner_mono (hle : fuel ≤ fuel') {m' : Mem}
    (h : tpfreeInner g fuel buf full m = .ok m') : tpfreeInner g fuel' buf full m = .ok m' := by
  induction fuel generalizing fuel' buf full m m' with
  | zero => cases h
  | succ fuel ih =>
    obtain ⟨k, rfl⟩ : ∃ k, fuel' = k+1 := ⟨fuel'-1, by omega⟩
    have hk : fuel ≤ k := by omega
    rcases tpfreeInner_eq_ok h with
      ⟨hnone, rfl⟩ | ⟨elt, l1, m1, l2, hfind, hci, hfreed, hscan, hloop⟩
    · rw [tpfreeInner, hnone]
    have hscan' : (if full && elt.isUbf then scanAt g k buf (m1.unregister buf) l1
        else .ok l1) = .ok l2 := by
      revert hscan
      split
      · exact scanAt_mono hk
      · exact id
    apply tpfreeInner_of_parts hfind (freeCallinfo_of_imp hk (fun _ _ _ => ih hk) hci) hfreed
      hscan'
    revert hloop
    split
    · exact foldlM_ok_of_imp (fun _ _ _ => ih hk)
    · exact id

def NoCycleFrom (g : Registry) (registered : List Addr) (a : Addr) : Prop :=
  ∀ b, ReflTransGen (EdgeIn g registered) a b → ¬ TransGen (EdgeIn g registered) b b

theorem NoCycleFrom.mono {r r' : List Addr} (hsub : ∀ a ∈ r', a ∈ r) (h : NoCycleFrom g r a) :
    NoCycleFrom g r' a := by
  intro b hway hcycle
  exact h b (ReflTransGen.mono (edgeIn_mono hsub) a b hway)
    (TransGen.mono (edgeIn_mono hsub) b b hcycle)

theorem scanPtrs_returns_of_noCycle {registered : List Addr} {fs : List Fld}
    (h : ∀ p ∈ ptrsOf fs, p ∈ registered → NoCycleFrom g registered p) :
    ∃ fuel, ∀ l, ∃ l', scanPtrs g registered fuel fs l = .ok l' := by
  apply scanPtrs_returns
  intro p hp hpr
  let follow (a b : Addr) : Prop := b ∈ registered ∧ PtrIn g registered a b
  have hle : follow ≤ EdgeIn g registered := fun a b hab => ⟨hab.2.1, hab.1, .inl hab.2.2⟩
  let S : Set Addr := {a | a ∈ registered ∧ ReflTransGen (EdgeIn g registered) p a}
  have hfin : S.Finite := (finite_toSet registered).subset (fun a ha => ha.1)
  have hclosed (a b : Addr) (ha : a ∈ S) (hab : follow a b) : b ∈ S :=
    ⟨hab.1, ha.2.tail (hle a b hab)⟩
  have hno (a : Addr) (ha : a ∈ S) : ¬ TransGen follow a a := by
    intro hcycle
    exact h p hp hpr a ha.2 (TransGen.mono hle a a hcycle)
  exact acc_of_no_cycle hfin hclosed hno ⟨hpr, .refl⟩

theorem scanAt_returns (helt : g.bufs.find buf = some elt) (hfreed : buf ∉ m.freed)
    (h : elt.isUbf → ∀ p ∈ ptrsOf elt.fields, p ∈ m.registered → NoCycleFrom g m.registered p)
    (l : List Addr) :
    ∃ fuel l', (if elt.isUbf then scanAt g fuel buf m l else .ok l) = .ok l' := by
  by_cases hubf : elt.isUbf = true
  · obtain ⟨fuel, hfuel⟩ := scanPtrs_returns_of_noCycle (h hubf)
    obtain ⟨l', hl'⟩ := hfuel l
    refine ⟨fuel, l', ?_⟩
    rw [if_pos hubf, scanAt, if_neg hfreed, helt]
    exact hl'
  · exact ⟨0, l, if_neg hubf⟩

def CallinfoReturns (g : Registry) (n : ℕ) : Prop :=
  ∀ m c, Good g m → m.registered.toFinset.card ≤ n →
    (∀ b, g.bufs.find c = some b → b.callinfobuf = none) →
    (∀ a, ReflTransGen (EdgeIn g m.registered) c a →
      ¬ TransGen (EdgeIn g (m.unregister c).registered) a a) →
    ∃ fuel m', tpfreeInner g fuel c true m = .ok m'

theorem returns_unregistered (hm : Good g m) (h : buf ∉ m.registered) :
    ∃ fuel m', tpfreeInner g fuel buf full m = .ok m' := by
  refine ⟨1, m, ?_⟩
  rw [tpfreeInner, (findBuffer_eq_none hm).mpr h]

theorem member_returns {n : ℕ} (hci : CallinfoReturns g n) {e : Addr} (hm : Good g m)
    (hlen : m.registered.toFinset.card ≤ n) (hno : e ∈ m.registered → NoCycleFrom g m.registered e) :
    ∃ fuel m', tpfreeInner g fuel e false m = .ok m' := by
  by_cases he : e ∉ m.registered
  · exact returns_unregistered hm he
  rw [not_not] at he
  obtain ⟨elt, helt⟩ := hm.known e he
  have hfind : findBuffer g m.registered e = some elt := findBuffer_eq_some.mpr ⟨he, helt⟩
  cases hc : elt.callinfobuf with
  | none =>
    have hnone : freeCallinfo g (fun c m => tpfreeInner g 0 c true m) 0 elt false m =
        .ok ([], m) := by rw [freeCallinfo, hc]
    exact ⟨1, _, tpfreeInner_of_parts hfind hnone (fun hf => hm.apart e hf he) rfl rfl⟩
  | some c =>
    obtain ⟨_, hb, -, hbnone⟩ := g.callinfo_ubf e elt c helt hc
    have hcedge : CallinfoEdge g e c := ⟨elt, helt, hc⟩
    have hcno : c ∈ m.registered → NoCycleFrom g m.registered c := by
      intro hcm a hway
      exact hno he a (.head ⟨he, hcm, .inr hcedge⟩ hway)
    obtain ⟨fuel, m1, hrun⟩ : ∃ fuel m', tpfreeInner g fuel c true m = .ok m' := by
      apply hci m c hm hlen
      · intro b' hb'
        rw [hb] at hb'
        cases hb'
        exact hbnone
      intro a hway hcycle
      obtain ⟨_, hfirst, _⟩ := TransGen.head'_iff.mp hcycle
      have hcm : c ∈ m.registered := mem_of_way hway (mem_unregister.mp hfirst.1).1
      have hle : EdgeIn g (m.unregister c).registered ≤ EdgeIn g m.registered :=
        edgeIn_mono (fun a ha => (mem_unregister.mp ha).1)
      exact hcno hcm a hway (TransGen.mono hle a a hcycle)
    have hran := ran_of_ok hm hrun
    -- the owner is not freed with its call-info: that would be a cycle
    have hkept : e ∈ m1.registered := by
      by_contra hgone
      have hway := hran.sound e he hgone
      exact hno he e .refl (TransGen.head' ⟨he, mem_of_way hway he, .inr hcedge⟩ hway)
    have hsome : freeCallinfo g (fun c m => tpfreeInner g fuel c true m) fuel elt false m =
        .ok ([], m1) := by
      rw [freeCallinfo, hc]
      exact bind_eq_ok.mpr ⟨[], rfl, bind_eq_ok.mpr ⟨m1, hrun, rfl⟩⟩
    exact ⟨fuel+1, _, tpfreeInner_of_parts hfind hsome
      (fun hf => (hran.shrinks.good hm).apart e hf hkept) rfl rfl⟩

theorem list_returns {n : ℕ} (hci : CallinfoReturns g n) {l : List Addr}
    (hm : Good g m) (hlen : m.registered.toFinset.card ≤ n)
    (hno : ∀ e ∈ l, e ∈ m.registered → NoCycleFrom g m.registered e) :
    ∃ fuel m', l.foldlM (fun m p => tpfreeInner g fuel p false m) m = .ok m' := by
  induction l generalizing m with
  | nil => exact ⟨0, m, rfl⟩
  | cons e l ih =>
    obtain ⟨k, m1, hone⟩ := member_returns hci hm hlen (hno e mem_cons_self)
    have hshr := (ran_of_ok hm hone).shrinks
    have hlen1 : m1.registered.toFinset.card ≤ n := by
      refine (Finset.card_le_card ?_).trans hlen
      intro a ha
      exact mem_toFinset.mpr (hshr.sub a (mem_toFinset.mp ha))
    obtain ⟨k', m', hrest⟩ := ih (hshr.good hm) hlen1
      (fun q hq hqm => (hno q (mem_cons_of_mem e hq) (hshr.sub q hqm)).mono hshr.sub)
    refine ⟨max k k', m', ?_⟩
    refine bind_eq_ok.mpr ⟨m1, tpfreeInner_mono (le_max_left k k') hone, ?_⟩
    exact foldlM_ok_of_imp (fun _ _ _ => tpfreeInner_mono (le_max_right k k')) hrest

theorem card_unregister_lt (ha : a ∈ m.registered) :
    (m.unregister a).registered.toFinset.card < m.registered.toFinset.card := by
  apply Finset.card_lt_card
  refine ⟨?_, ?_⟩
  · intro b hb
    exact mem_toFinset.mpr (mem_unregister.mp (mem_toFinset.mp hb)).1
  · intro hsub
    have := hsub (mem_toFinset.mpr ha)
    exact (mem_unregister.mp (mem_toFinset.mp this)).2 rfl

theorem returns_of_callinfo {n k0 : ℕ} {m1 : Mem} {l1 : List Addr}
    (hret : CallinfoReturns g n) (hm : Good g m) (hbuf : buf ∈ m.registered)
    (helt : g.bufs.find buf = some elt)
    (hci : freeCallinfo g (fun c m => tpfreeInner g k0 c true m) k0 elt true m = .ok (l1, m1))
    (hbuf1 : buf ∉ m1.freed) (hcard : (m1.unregister buf).registered.toFinset.card ≤ n)
    (hno : ∀ a, ReflTransGen (EdgeIn g m.registered) buf a →
      ¬ TransGen (EdgeIn g (m1.unregister buf).registered) a a) :
    ∃ fuel m', tpfreeInner g fuel buf true m = .ok m' := by
  obtain ⟨hcall, hlist⟩ := callinfo_ran (fun _ _ _ => ran_of_ok) hm helt hci
  obtain ⟨hshr1, hreg1, -⟩ := callinfo_frame hbuf helt hm hbuf1 hcall
  have hsub (a : Addr) (ha : a ∈ (m1.unregister buf).registered) : a ∈ m.registered :=
    hshr1.sub a (mem_unregister.mp ha).1
  have hptrs (hubf : elt.isUbf) (p : Addr) (hp : p ∈ ptrsOf elt.fields)
      (hpm : p ∈ (m1.unregister buf).registered) :
      NoCycleFrom g (m1.unregister buf).registered p := by
    intro a hway
    refine hno a (.head ⟨hbuf, hsub p hpm, .inl ⟨elt, helt, hubf, hp⟩⟩ ?_)
    exact ReflTransGen.mono (edgeIn_mono hsub) p a hway
  obtain ⟨k, l2, hscan⟩ :
      ∃ k l2, (if elt.isUbf then scanAt g k buf (m1.unregister buf) l1 else .ok l1) = .ok l2 :=
    scanAt_returns helt (show buf ∉ (m1.unregister buf).freed from hbuf1) hptrs l1
  have hgath : Gathered g buf elt m m1 l2 := gathered_of_scans hbuf helt hshr1.sub hlist hscan
  have hm2 : Good g ((m1.unregister buf).free buf) :=
    (hshr1.trans (shrinks_unregister hreg1 hbuf1)).good hm
  obtain ⟨k', m', hloop⟩ : ∃ fuel m', l2.foldlM (fun m p => tpfreeInner g fuel p false m)
      ((m1.unregister buf).free buf) = .ok m' := by
    apply list_returns hret hm2 hcard
    intro e he hem a hway
    exact hno a ((hgath.reached e he (hsub e hem)).trans
      (ReflTransGen.mono (edgeIn_mono hsub) e a hway))
  -- each part with the fuel that is enough for all
  let fuel := max k0 (max k k')
  have hk0 : k0 ≤ fuel := le_max_left _ _
  have hk : k ≤ fuel := (le_max_left _ _).trans (le_max_right _ _)
  have hk' : k' ≤ fuel := (le_max_right _ _).trans (le_max_right _ _)
  have hci' := freeCallinfo_of_imp hk0 (fun _ _ _ => tpfreeInner_mono hk0) hci
  have hscan' : (if true && elt.isUbf then scanAt g fuel buf (m1.unregister buf) l1
      else .ok l1) = .ok l2 := by
    rw [Bool.true_and]
    revert hscan
    split
    · exact scanAt_mono hk
    · exact id
  exact ⟨fuel+1, m', tpfreeInner_of_parts (findBuffer_eq_some.mpr ⟨hbuf, helt⟩) hci' hbuf1 hscan'
    (foldlM_ok_of_imp (fun _ _ _ => tpfreeInner_mono hk') hloop)⟩

theorem callinfoReturns (n : ℕ) : CallinfoReturns g n := by
  induction n with
  | zero =>
    intro m c hm hlen _ _
    have hc : c ∉ m.registered := by
      intro hc
      have hempty := Finset.card_eq_zero.mp (Nat.le_zero.mp hlen)
      exact absurd (hempty ▸ mem_toFinset.mpr hc) (Finset.notMem_empty c)
    exact returns_unregistered hm hc
  | succ n ih =>
    intro m c hm hlen hnone hno
    by_cases hc : c ∈ m.registered
    · obtain ⟨elt, helt⟩ := hm.known c hc
      have hci : freeCallinfo g (fun c m => tpfreeInner g 0 c true m) 0 elt true m =
          .ok ([], m) := by rw [freeCallinfo, hnone elt helt]
      have hcard := card_unregister_lt hc
      exact returns_of_callinfo ih hm hc helt hci (fun hf => hm.apart c hf hc) (by omega) hno
    · exact returns_unregistered hm hc

theorem start_good (g : Registry) : Good g (start g) where
  known := by
    intro a ha
    by_contra h
    rw [not_exists] at h
    have hnone : g.bufs.find a = none := Option.eq_none_iff_forall_ne_some.mpr h
    exact Hash.find_eq_none.mp hnone ha
  all := by
    intro a b hab
    exact .inl (mem_map.mpr ⟨_, Hash.find_eq_some.mp hab, rfl⟩)
  apart := by simp [start]
  once := nodup_nil

variable {root : Addr}

theorem edgeBut_of_way (hway : ReflTransGen (EdgeIn g (start g).registered) a root) :
    ReflTransGen (EdgeBut g root) a root := by
  induction hway using ReflTransGen.head_induction_on with
  | refl => exact .refl
  | @head a b hstep _ ih =>
    by_cases ha : a = root
    · subst ha
      exact .refl
    · exact .head ⟨hstep, fun h => absurd h ha⟩ ih

theorem edgeBut_of_cycle {r : List Addr} (hsub : ∀ a ∈ r, a ∈ (start g).registered ∧ a ≠ root)
    (hcycle : TransGen (EdgeIn g r) a a) : TransGen (EdgeBut g root) a a := by
  have hle : EdgeIn g r ≤ EdgeBut g root := by
    intro x y hxy
    exact ⟨edgeIn_mono (fun z hz => (hsub z hz).1) x y hxy, fun h => absurd h (hsub x hxy.1).2⟩
  exact TransGen.mono hle a a hcycle

/-- The free returns where no cycle is reached. -/
theorem tpfree_returns (hroot : root ∈ (start g).registered)
    (hno : ∀ a, ReflTransGen (EdgeIn g (start g).registered) root a →
      ¬ TransGen (EdgeBut g root) a a) : ∃ fuel m', tpfree g fuel root (start g) = .ok m' := by
  have hm := start_good g
  obtain ⟨elt, helt⟩ := hm.known root hroot
  -- a cycle in what is left when `root` is out of the registry
  have hrest (m1 : Mem) (hsub : ∀ a ∈ m1.registered, a ∈ (start g).registered) (a : Addr)
      (hway : ReflTransGen (EdgeIn g (start g).registered) root a) :
      ¬ TransGen (EdgeIn g (m1.unregister root).registered) a a := by
    intro hcycle
    refine hno a hway (edgeBut_of_cycle ?_ hcycle)
    intro b hb
    exact ⟨hsub b (mem_unregister.mp hb).1, (mem_unregister.mp hb).2⟩
  cases hc : elt.callinfobuf with
  | none =>
    have hci : freeCallinfo g (fun c m => tpfreeInner g 0 c true m) 0 elt true (start g) =
        .ok ([], start g) := by rw [freeCallinfo, hc]
    exact returns_of_callinfo (callinfoReturns _) hm hroot helt hci
      (fun hf => hm.apart root hf hroot) le_rfl (hrest _ (fun _ ha => ha))
  | some c =>
    obtain ⟨b, hb, hubf, hbnone⟩ := g.callinfo_ubf root elt c helt hc
    have hcm : c ∈ (start g).registered := (hm.all c b hb).resolve_right (by simp [start])
    have hedge : EdgeIn g (start g).registered root c := ⟨hroot, hcm, .inr ⟨elt, helt, hc⟩⟩
    have hfar : ¬ ReflTransGen (EdgeIn g (start g).registered) c root := by
      intro hway
      exact hno root .refl (TransGen.head' ⟨hedge, fun _ => ⟨elt, helt, hc⟩⟩
        (edgeBut_of_way hway))
    have hcno : NoCycleFrom g (start g).registered c := by
      intro a hway hcycle
      refine hno a (.head hedge hway) ?_
      have hbut (x y : Addr) (hx : ReflTransGen (EdgeIn g (start g).registered) c x)
          (hxy : EdgeIn g (start g).registered x y) : EdgeBut g root x y :=
        ⟨hxy, fun h => absurd (h ▸ hx) hfar⟩
      have hgo (y : Addr) (hy : TransGen (EdgeIn g (start g).registered) a y) :
          TransGen (EdgeBut g root) a y := by
        induction hy with
        | single hstep => exact .single (hbut a _ hway hstep)
        | tail hpre hstep ih => exact ih.tail (hbut _ _ (hway.trans hpre.to_reflTransGen) hstep)
      exact hgo a hcycle
    obtain ⟨k1, l1, hscan⟩ : ∃ k l, (if b.isUbf then scanAt g k c (start g) [] else .ok []) =
        .ok l := by
      apply scanAt_returns hb (by simp [start])
      intro _ p hp hpm a hway
      exact hcno a (.head ⟨hcm, hpm, .inl ⟨b, hb, hubf, hp⟩⟩ hway)
    rw [if_pos hubf] at hscan
    obtain ⟨k2, m1, hrun⟩ : ∃ fuel m', tpfreeInner g fuel c true (start g) = .ok m' := by
      apply callinfoReturns _ (start g) c hm le_rfl
      · intro b' hb'
        rw [hb] at hb'
        cases hb'
        exact hbnone
      · intro a hway hcycle
        exact hcno a hway (TransGen.mono
          (edgeIn_mono (fun _ ha => (mem_unregister.mp ha).1)) a a hcycle)
    have hran := ran_of_ok hm hrun
    have hkept : root ∈ m1.registered := by
      by_contra hgone
      exact hfar (hran.sound root hroot hgone)
    have hci : freeCallinfo g (fun c m => tpfreeInner g (max k1 k2) c true m) (max k1 k2) elt
        true (start g) = .ok (l1, m1) := by
      rw [freeCallinfo, hc]
      exact bind_eq_ok.mpr ⟨l1, scanAt_mono (le_max_left k1 k2) hscan,
        bind_eq_ok.mpr ⟨m1, tpfreeInner_mono (le_max_right k1 k2) hrun, rfl⟩⟩
    exact returns_of_callinfo (callinfoReturns _) hm hroot helt hci
      (fun hf => (hran.shrinks.good hm).apart root hf hkept) le_rfl (hrest m1 hran.shrinks.sub)

def Reachable (g : Registry) (root a : Addr) : Prop :=
  root ∈ (start g).registered ∧ ReflTransGen (EdgeIn g (start g).registered) root a

/-- `tpfree` returns with exactly the reachable buffers freed, each once, no buffer being used
after it was freed, if and only if no cycle can be reached that does not go through the pointers
of the root. -/
theorem tpfree_once_iff (g : Registry) (root : Addr) :
    (∃ fuel m', tpfree g fuel root (start g) = .ok m' ∧ m'.freed.Nodup ∧
      (∀ a, a ∈ m'.freed ↔ Reachable g root a) ∧
      (∀ a, a ∈ m'.registered ↔ a ∈ (start g).registered ∧ ¬ Reachable g root a)) ↔
    ∀ a, Reachable g root a → ¬ TransGen (EdgeBut g root) a a := by
  have hm := start_good g
  have hreg (a : Addr) (ha : Reachable g root a) : a ∈ (start g).registered := by
    rcases ReflTransGen.cases_tail ha.2 with rfl | ⟨_, _, hstep⟩
    · exact ha.1
    · exact hstep.2.1
  -- what a call that returns has taken out of the registry
  have hout (fuel : ℕ) (m' : Mem) (hrun : tpfree g fuel root (start g) = .ok m') (a : Addr) :
      a ∈ (start g).registered ∧ a ∉ m'.registered ↔ Reachable g root a := by
    have hran := ran_of_ok hm hrun
    constructor
    · rintro ⟨ha, hgone⟩
      have hway := hran.sound a ha hgone
      exact ⟨mem_of_way hway ha, hway⟩
    · rintro ⟨hroot, hway⟩
      induction hway with
      | refl => exact ⟨hroot, hran.gone⟩
      | tail _ hstep ih =>
        exact ⟨hstep.2.1, hran.closed _ _ ih.1 ih.2 hstep.2.1 (.inl ⟨hstep.2.2, .inl rfl⟩)⟩
  constructor
  · rintro ⟨fuel, m', hrun, -⟩ a ha hcycle
    have hkept : a ∈ m'.registered := by
      refine knot_kept hcycle hm ?_ (fun z _ hstep _ => hstep.2 rfl) hrun a (.refl a)
      intro z hz
      rcases ReflTransGen.cases_tail hz.1 with rfl | ⟨_, _, hstep⟩
      · exact hreg _ ha
      · exact hstep.1.2.1
    exact ((hout fuel m' hrun a).mpr ha).2 hkept
  · intro hno
    obtain ⟨fuel, m', hrun⟩ : ∃ fuel m', tpfree g fuel root (start g) = .ok m' := by
      by_cases hroot : root ∈ (start g).registered
      · exact tpfree_returns hroot (fun a hway => hno a ⟨hroot, hway⟩)
      · exact returns_unregistered hm hroot
    have hshr := (ran_of_ok hm hrun).shrinks
    refine ⟨fuel, m', hrun, hshr.once hm.once, ?_, ?_⟩
    · intro a
      rw [hshr.freed, ← hout fuel m' hrun a]
      simp [start]
    · intro a
      have hsub := hshr.sub a
      have hiff := hout fuel m' hrun a
      tauto

def plainRegistry (bufs : Hash Addr Buf) (h : ∀ e ∈ bufs.entries, e.2.callinfobuf = none) :
    Registry where
  bufs := bufs
  callinfo_ubf := by
    intro a b c ha hc
    rw [h _ (Hash.find_eq_some.mp ha)] at hc
    cases hc
  callinfo_own := by
    intro a a' b b' c ha _ hc
    rw [h _ (Hash.find_eq_some.mp ha)] at hc
    cases hc
  callinfo_hidden := by
    intro a a' b b' c ha _ hc
    rw [h _ (Hash.find_eq_some.mp ha)] at hc
    cases hc

def cycleBehindRoot : Registry :=
  plainRegistry ⟨[(1, ⟨true, [.ptr (some 2)], none⟩), (2, ⟨true, [.ptr (some 3)], none⟩),
    (3, ⟨true, [.ptr (some 2)], none⟩)], by decide⟩ (by simp)

def callinfoToOwner : Registry where
  bufs := ⟨[(1, ⟨true, [], some 2⟩), (2, ⟨true, [.ptr (some 1)], none⟩)], by decide⟩
  callinfo_ubf := by
    intro a b c ha hc
    have hmem := Hash.find_eq_some.mp ha
    simp only [mem_cons, Prod.mk.injEq, not_mem_nil, or_false] at hmem
    rcases hmem with ⟨rfl, rfl⟩ | ⟨rfl, rfl⟩ <;> cases hc
    exact ⟨⟨true, [.ptr (some 1)], none⟩, rfl, rfl, rfl⟩
  callinfo_own := by
    intro a a' b b' c ha ha' hc hc'
    have hmem := Hash.find_eq_some.mp ha
    have hmem' := Hash.find_eq_some.mp ha'
    simp only [mem_cons, Prod.mk.injEq, not_mem_nil, or_false] at hmem hmem'
    rcases hmem with ⟨rfl, rfl⟩ | ⟨rfl, rfl⟩ <;> cases hc
    rcases hmem' with ⟨rfl, rfl⟩ | ⟨rfl, rfl⟩ <;> cases hc'
    rfl
  callinfo_hidden := by
    intro a a' b b' c ha ha' hc
    have hmem := Hash.find_eq_some.mp ha
    have hmem' := Hash.find_eq_some.mp ha'
    simp only [mem_cons, Prod.mk.injEq, not_mem_nil, or_false] at hmem hmem'
    rcases hmem with ⟨rfl, rfl⟩ | ⟨rfl, rfl⟩ <;> cases hc
    rcases hmem' with ⟨rfl, rfl⟩ | ⟨rfl, rfl⟩ <;> decide

/-- A cycle behind the root is scanned without end, and a buffer that its call-info points to is
used after it was freed. -/
theorem tpfree_not_once :
    (∀ fuel, tpfree cycleBehindRoot fuel 1 (start cycleBehindRoot) = .error .noReturn) ∧
    tpfree callinfoToOwner 4 1 (start callinfoToOwner) = .error (.usedAfterFree 1) := by
  constructor
  · have hscan (fuel : ℕ) (l : List Addr) :
        scanPtrs cycleBehindRoot [2, 3] fuel [.ptr (some 2)] l = .error .noReturn ∧
        scanPtrs cycleBehindRoot [2, 3] fuel [.ptr (some 3)] l = .error .noReturn := by
      induction fuel with
      | zero => exact ⟨rfl, rfl⟩
      | succ fuel ih =>
        constructor
        · rw [scanPtrs, scanFlds, scanFld]
          have hfollow : followPtr cycleBehindRoot [2, 3] (scanPtrs cycleBehindRoot [2, 3] fuel) 2
              l = scanPtrs cycleBehindRoot [2, 3] fuel [.ptr (some 3)] l := rfl
          rw [hfollow, ih.2]
          rfl
        · rw [scanPtrs, scanFlds, scanFld]
          have hfollow : followPtr cycleBehindRoot [2, 3] (scanPtrs cycleBehindRoot [2, 3] fuel) 3
              l = scanPtrs cycleBehindRoot [2, 3] fuel [.ptr (some 2)] l := rfl
          rw [hfollow, ih.1]
          rfl
    intro fuel
    cases fuel with
    | zero => rfl
    | succ fuel =>
      have hat : scanAt cycleBehindRoot fuel 1 ((start cycleBehindRoot).unregister 1) [] =
          scanPtrs cycleBehindRoot [2, 3] fuel [.ptr (some 2)] [] := rfl
      have hrun : tpfree cycleBehindRoot (fuel+1) 1 (start cycleBehindRoot) =
          (scanAt cycleBehindRoot fuel 1 ((start cycleBehindRoot).unregister 1) [] >>= fun l =>
            l.foldlM (fun m p => tpfreeInner cycleBehindRoot fuel p false m)
              (((start cycleBehindRoot).unregister 1).free 1)) := rfl
      rw [hrun, hat, (hscan fuel []).1]
      rfl
  · decide +kernel

end Endurox.TypedBuf
