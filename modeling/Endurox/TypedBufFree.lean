import Endurox.TypedBuf

/-! What a `tpfree` that returns has freed, when it returns, and when it uses what it has freed. -/

namespace Endurox.TypedBuf

open Base Relation List

variable {g : Registry}

structure Good (g : Registry) (m : Mem) : Prop where
  known : ∀ a ∈ m.registered, ∃ b, g.bufs.find a = some b
  all : ∀ a b, g.bufs.find a = some b → a ∈ m.registered ∨ a ∈ m.freed
  apart : ∀ a ∈ m.freed, a ∉ m.registered
  once : m.freed.Nodup

structure Shrinks (m m' : Mem) : Prop where
  sub : ∀ a ∈ m'.registered, a ∈ m.registered
  freed : ∀ a, a ∈ m'.freed ↔ a ∈ m.freed ∨ a ∈ m.registered ∧ a ∉ m'.registered
  once : m.freed.Nodup → m'.freed.Nodup

theorem Shrinks.refl (m : Mem) : Shrinks m m where
  sub := fun _ h => h
  freed := fun a => by
    constructor
    · exact Or.inl
    · rintro (h | ⟨h, h'⟩)
      · exact h
      · exact absurd h h'
  once := id

variable {m m1 : Mem}

theorem Shrinks.trans {m2 : Mem} (h : Shrinks m m1) (h' : Shrinks m1 m2) : Shrinks m m2 where
  sub := fun a ha => h.sub a (h'.sub a ha)
  freed := by
    intro a
    rw [h'.freed, h.freed]
    have := h.sub a
    have := h'.sub a
    tauto
  once := fun hm => h'.once (h.once hm)

variable {m' : Mem}

theorem Shrinks.good (h : Shrinks m m') (hm : Good g m) : Good g m' where
  known := fun a ha => hm.known a (h.sub a ha)
  all := by
    intro a b hab
    rw [h.freed]
    have := hm.all a b hab
    tauto
  apart := by
    intro a ha
    rcases (h.freed a).mp ha with hf | ⟨_, hgone⟩
    · exact fun hr => hm.apart a hf (h.sub a hr)
    · exact hgone
  once := h.once hm.once

variable {a : Addr}

theorem shrinks_unregister (ha : a ∈ m.registered) (hf : a ∉ m.freed) :
    Shrinks m ((m.unregister a).free a) where
  sub := fun _ h => (mem_filter.mp h).1
  freed := by
    intro b
    simp only [Mem.free, Mem.unregister, mem_append, mem_singleton, mem_filter,
      decide_eq_true_eq, not_and, not_not]
    constructor
    · rintro (hb | rfl)
      · exact .inl hb
      · exact .inr ⟨ha, fun _ => rfl⟩
    · rintro (hb | ⟨hb, hba⟩)
      · exact .inl hb
      · exact .inr (hba hb)
  once := by
    intro hm
    rw [Mem.free, ← concat_eq_append]
    exact hm.concat hf

theorem mem_unregister {b : Addr} :
    b ∈ (m.unregister a).registered ↔ b ∈ m.registered ∧ b ≠ a := by
  simp [Mem.unregister]

variable {fuel : ℕ} {l : List Addr}

theorem scanAt_scanned {b : Buf} {l' : List Addr}
    (hb : g.bufs.find a = some b) (h : scanAt g fuel a m l = .ok l') :
    Scanned g m.registered (ptrsOf b.fields) l l' := by
  unfold scanAt at h
  split at h
  · cases h
  · rw [hb] at h
    exact scanPtrs_scanned h

variable {elt : Buf} {full : Bool}

theorem freeCallinfo_eq_ok {tpfree : Addr → Mem → Except Fault Mem} {l1 : List Addr}
    (h : freeCallinfo g tpfree fuel elt full m = .ok (l1, m1)) :
    (elt.callinfobuf = none ∧ l1 = [] ∧ m1 = m) ∨
      ∃ c, elt.callinfobuf = some c ∧ tpfree c m = .ok m1 ∧
        (full = false ∧ l1 = [] ∨ full = true ∧ scanAt g fuel c m [] = .ok l1) := by
  unfold freeCallinfo at h
  cases hc : elt.callinfobuf with
  | none =>
    rw [hc] at h
    cases h
    exact .inl ⟨rfl, rfl, rfl⟩
  | some c =>
    rw [hc] at h
    obtain ⟨_, hl, h⟩ := bind_eq_ok.mp h
    obtain ⟨_, hm', heq⟩ := bind_eq_ok.mp h
    cases heq
    refine .inr ⟨c, rfl, hm', ?_⟩
    cases full with
    | false =>
      cases hl
      exact .inl ⟨rfl, rfl⟩
    | true => exact .inr ⟨rfl, hl⟩

variable {buf : Addr}

theorem tpfreeInner_eq_ok (h : tpfreeInner g (fuel+1) buf full m = .ok m') :
    (findBuffer g m.registered buf = none ∧ m' = m) ∨
      ∃ elt l1 m1 l2, findBuffer g m.registered buf = some elt ∧
        freeCallinfo g (fun c m => tpfreeInner g fuel c true m) fuel elt full m = .ok (l1, m1) ∧
        buf ∉ m1.freed ∧
        (if full && elt.isUbf then scanAt g fuel buf (m1.unregister buf) l1 else .ok l1) = .ok l2 ∧
        (if full then
          l2.foldlM (fun m p => tpfreeInner g fuel p false m) ((m1.unregister buf).free buf)
          else .ok ((m1.unregister buf).free buf)) = .ok m' := by
  rw [tpfreeInner] at h
  cases hfind : findBuffer g m.registered buf with
  | none =>
    rw [hfind] at h
    cases h
    exact .inl ⟨rfl, rfl⟩
  | some elt =>
    rw [hfind] at h
    obtain ⟨⟨l1, m1⟩, hci, h⟩ := bind_eq_ok.mp h
    simp only at h
    split at h
    · cases h
    · rename_i hfreed
      obtain ⟨l2, hscan, hloop⟩ := bind_eq_ok.mp h
      exact .inr ⟨elt, l1, m1, l2, rfl, hci, hfreed, hscan, hloop⟩

theorem findBuffer_eq_none (hm : Good g m) :
    findBuffer g m.registered a = none ↔ a ∉ m.registered := by
  unfold findBuffer
  split
  · rename_i h
    obtain ⟨_, hb⟩ := hm.known a h
    simp [hb, h]
  · rename_i h
    simp [h]

theorem edges_of_ptrs {registered : List Addr} {b : Addr}
    (hway : ReflTransGen (PtrIn g registered) a b) (hb : b ∈ registered) :
    a ∈ registered ∧ ReflTransGen (EdgeIn g registered) a b := by
  induction hway using ReflTransGen.head_induction_on with
  | refl => exact ⟨hb, .refl⟩
  | head hstep _ ih => exact ⟨hstep.1, .head ⟨hstep.1, ih.1, .inl hstep.2⟩ ih.2⟩

theorem edgeIn_mono {r r' : List Addr} (hsub : ∀ a ∈ r, a ∈ r') : EdgeIn g r ≤ EdgeIn g r' :=
  fun a b h => ⟨hsub a h.1, hsub b h.2.1, h.2.2⟩

theorem mem_of_way {r : List Addr} {b : Addr} (hway : ReflTransGen (EdgeIn g r) a b) (hb : b ∈ r) :
    a ∈ r := by
  rcases ReflTransGen.cases_head hway with rfl | ⟨_, hstep, _⟩
  · exact hb
  · exact hstep.1

/-- What a call has freed when it returns: what can be reached from the buffer, and with each
buffer what it leads to. A call without a list leaves the pointers of its buffer to the caller. -/
structure Ran (g : Registry) (buf : Addr) (full : Bool) (m m' : Mem) : Prop where
  shrinks : Shrinks m m'
  gone : buf ∉ m'.registered
  closed : ∀ u v, u ∈ m.registered → u ∉ m'.registered → v ∈ m.registered →
    (Edge g u v ∧ (full = true ∨ u ≠ buf) ∨ CallinfoEdge g u v) → v ∉ m'.registered
  sound : ∀ u ∈ m.registered, u ∉ m'.registered → ReflTransGen (EdgeIn g m.registered) buf u

structure RanAll (g : Registry) (l : List Addr) (m m' : Mem) : Prop where
  shrinks : Shrinks m m'
  gone : ∀ p ∈ l, p ∉ m'.registered
  closed : ∀ u v, u ∈ m.registered → u ∉ m'.registered → v ∈ m.registered →
    (Edge g u v ∧ u ∉ l ∨ CallinfoEdge g u v) → v ∉ m'.registered
  sound : ∀ u ∈ m.registered, u ∉ m'.registered → ∃ p ∈ l, ReflTransGen (EdgeIn g m.registered) p u

theorem RanAll.nil (m : Mem) : RanAll g [] m m where
  shrinks := .refl m
  gone := by simp
  closed := fun _ _ hu hu' => absurd hu hu'
  sound := fun _ hu hu' => absurd hu hu'

theorem RanAll.cons {p : Addr} (hone : Ran g p false m m1)
    (hrest : RanAll g l m1 m') : RanAll g (p :: l) m m' where
  shrinks := hone.shrinks.trans hrest.shrinks
  gone := by
    intro q hq
    rcases mem_cons.mp hq with rfl | hq
    · exact fun h => hone.gone (hrest.shrinks.sub q h)
    · exact hrest.gone q hq
  closed := by
    intro u v hu hu' hv hedge
    by_cases hv1 : v ∈ m1.registered
    · by_cases hu1 : u ∈ m1.registered
      · apply hrest.closed u v hu1 hu' hv1
        rcases hedge with ⟨he, hul⟩ | he
        · exact .inl ⟨he, fun h => hul (mem_cons_of_mem p h)⟩
        · exact .inr he
      · -- freed in the first call, which then has freed where it leads
        refine absurd hv1 (hone.closed u v hu hu1 hv ?_)
        rcases hedge with ⟨he, hul⟩ | he
        · exact .inl ⟨he, .inr (fun h => hul (h ▸ mem_cons_self))⟩
        · exact .inr he
    · exact fun h => hv1 (hrest.shrinks.sub v h)
  sound := by
    intro u hu hu'
    by_cases hu1 : u ∈ m1.registered
    · obtain ⟨q, hq, hway⟩ := hrest.sound u hu1 hu'
      exact ⟨q, mem_cons_of_mem p hq, ReflTransGen.mono (edgeIn_mono hone.shrinks.sub) q u hway⟩
    · exact ⟨p, mem_cons_self, hone.sound u hu hu1⟩

theorem ranAll_of_ran
    (hcall : ∀ p m m', Good g m → tpfreeInner g fuel p false m = .ok m' → Ran g p false m m')
    (hm : Good g m)
    (h : l.foldlM (fun m p => tpfreeInner g fuel p false m) m = .ok m') : RanAll g l m m' := by
  induction l generalizing m with
  | nil =>
    cases h
    exact .nil _
  | cons p l ih =>
    obtain ⟨m1, hone, hrest⟩ := bind_eq_ok.mp h
    have hran := hcall p m m1 hm hone
    exact RanAll.cons hran (ih (hran.shrinks.good hm) hrest)

theorem PostOrder.mono {r r' : List Addr} (hsub : ∀ a ∈ r', a ∈ r) (h : PostOrder g r l) :
    PostOrder g r' l := by
  intro pre v post heq w hw
  exact h pre v post heq w ⟨hsub v hw.1, hw.2⟩

theorem postOrder_nil (r : List Addr) : PostOrder g r [] := by
  intro pre v post heq
  simp at heq

/-- The list of a call with a free list at the time its buffers are freed: each of them is
reached from the buffer, and comes after those it points to. -/
structure Gathered (g : Registry) (buf : Addr) (elt : Buf) (m m1 : Mem) (l : List Addr) : Prop where
  ptrs : elt.isUbf → ∀ p ∈ ptrsOf elt.fields, p ∈ l
  reached : ∀ p ∈ l, p ∈ m.registered → ReflTransGen (EdgeIn g m.registered) buf p
  ordered : PostOrder g (m1.unregister buf).registered l

theorem gathered_of_scans {fuel' : ℕ} {l1 l2 : List Addr}
    (hbuf : buf ∈ m.registered) (helt : g.bufs.find buf = some elt)
    (hsub : ∀ a ∈ m1.registered, a ∈ m.registered)
    (hci : l1 = [] ∨ ∃ c b, elt.callinfobuf = some c ∧ c ∈ m.registered ∧
      g.bufs.find c = some b ∧ b.isUbf ∧ scanAt g fuel' c m [] = .ok l1)
    (hscan : (if elt.isUbf then scanAt g fuel buf (m1.unregister buf) l1 else .ok l1) = .ok l2) :
    Gathered g buf elt m m1 l2 := by
  have hsub' (a : Addr) (ha : a ∈ (m1.unregister buf).registered) : a ∈ m.registered :=
    hsub a (mem_unregister.mp ha).1
  have hreached1 (p : Addr) (hp : p ∈ l1) (hpm : p ∈ m.registered) :
      ReflTransGen (EdgeIn g m.registered) buf p := by
    rcases hci with rfl | ⟨c, b, hc, hcm, hb, hubf, hcscan⟩
    · cases hp
    · rcases (scanAt_scanned hb hcscan).reached p hp with hp | ⟨q, hq, hway⟩
      · cases hp
      · obtain ⟨hqm, hway⟩ := edges_of_ptrs hway hpm
        exact .head ⟨hbuf, hcm, .inr ⟨elt, helt, hc⟩⟩
          (.head ⟨hcm, hqm, .inl ⟨b, hb, hubf, hq⟩⟩ hway)
  have hordered1 : PostOrder g (m1.unregister buf).registered l1 := by
    rcases hci with rfl | ⟨_, _, _, _, hb, _, hcscan⟩
    · exact postOrder_nil _
    · exact ((scanAt_scanned hb hcscan).ordered (postOrder_nil _)).mono hsub'
  by_cases hubf : elt.isUbf = true
  · rw [if_pos hubf] at hscan
    have hscanned := scanAt_scanned helt hscan
    exact {
      ptrs := fun _ p hp => hscanned.noted p hp
      reached := by
        intro p hp hpm
        rcases hscanned.reached p hp with hp | ⟨q, hq, hway⟩
        · exact hreached1 p hp hpm
        · have hle : PtrIn g (m1.unregister buf).registered ≤ PtrIn g m.registered :=
            fun a _ h => ⟨hsub' a h.1, h.2⟩
          have hway := ReflTransGen.mono hle q p hway
          obtain ⟨hqm, hway⟩ := edges_of_ptrs hway hpm
          exact .head ⟨hbuf, hqm, .inl ⟨elt, helt, hubf, hq⟩⟩ hway
      ordered := hscanned.ordered hordered1 }
  · rw [if_neg hubf] at hscan
    cases hscan
    exact ⟨fun h => absurd h hubf, hreached1, hordered1⟩

theorem callinfo_ran {l1 : List Addr}
    (ih : ∀ p m m', Good g m → tpfreeInner g fuel p true m = .ok m' → Ran g p true m m')
    (hm : Good g m) (helt : g.bufs.find buf = some elt)
    (hci : freeCallinfo g (fun c m => tpfreeInner g fuel c true m) fuel elt full m = .ok (l1, m1)) :
    (elt.callinfobuf = none ∧ m1 = m ∨ ∃ c, elt.callinfobuf = some c ∧ Ran g c true m m1) ∧
    (l1 = [] ∨ ∃ c b, elt.callinfobuf = some c ∧ c ∈ m.registered ∧
      g.bufs.find c = some b ∧ b.isUbf ∧ scanAt g fuel c m [] = .ok l1) := by
  rcases freeCallinfo_eq_ok hci with ⟨hnone, rfl, rfl⟩ | ⟨c, hc, hrun, hlist⟩
  · exact ⟨.inl ⟨hnone, rfl⟩, .inl rfl⟩
  refine ⟨.inr ⟨c, hc, ih c m m1 hm hrun⟩, ?_⟩
  rcases hlist with ⟨_, rfl⟩ | ⟨_, hscan⟩
  · exact .inl rfl
  obtain ⟨b, hb, hubf, _⟩ := g.callinfo_ubf buf elt c helt hc
  have hcm : c ∈ m.registered := by
    refine (hm.all c b hb).resolve_right ?_
    intro hf
    rw [scanAt, if_pos hf] at hscan
    cases hscan
  exact .inr ⟨c, b, hc, hcm, hb, hubf, hscan⟩

/-- Freeing the call info frees what it reaches, and leaves the rest. -/
theorem callinfo_frame (hbuf : buf ∈ m.registered)
    (helt : g.bufs.find buf = some elt) (hm : Good g m) (hfreed : buf ∉ m1.freed)
    (hci : elt.callinfobuf = none ∧ m1 = m ∨ ∃ c, elt.callinfobuf = some c ∧ Ran g c true m m1) :
    Shrinks m m1 ∧ buf ∈ m1.registered ∧ (∀ c, CallinfoEdge g buf c → c ∉ m1.registered) ∧
    (∀ u v, u ∈ m.registered → u ∉ m1.registered → v ∈ m.registered → Edge g u v →
      v ∉ m1.registered) ∧
    (∀ u ∈ m.registered, u ∉ m1.registered → ReflTransGen (EdgeIn g m.registered) buf u) := by
  rcases hci with ⟨hnone, rfl⟩ | ⟨c, hc, hran⟩
  · refine ⟨.refl _, hbuf, ?_, fun _ _ hu hu' => absurd hu hu', fun _ hu hu' => absurd hu hu'⟩
    rintro c ⟨elt', helt', hc⟩
    rw [helt] at helt'
    cases helt'
    rw [hnone] at hc
    cases hc
  · have hsame (c' : Addr) (h : CallinfoEdge g buf c') : c' = c := by
      obtain ⟨_, helt', hc'⟩ := h
      rw [helt] at helt'
      cases helt'
      exact Option.some.inj (hc'.symm.trans hc)
    have hbuf1 : buf ∈ m1.registered := by
      by_contra hgone
      exact hfreed ((hran.shrinks.freed buf).mpr (.inr ⟨hbuf, hgone⟩))
    refine ⟨hran.shrinks, hbuf1, ?_, ?_, ?_⟩
    · intro c' hc'
      exact hsame c' hc' ▸ hran.gone
    · intro u v hu hu' hv he
      exact hran.closed u v hu hu' hv (.inl ⟨he, .inl rfl⟩)
    · intro u hu hu'
      have hway := hran.sound u hu hu'
      exact .head ⟨hbuf, mem_of_way hway hu, .inr ⟨elt, helt, hc⟩⟩ hway

section

variable (hbuf : buf ∈ m.registered) (helt : g.bufs.find buf = some elt)
include hbuf helt

/-- The buffer and what hangs on its call information are freed, its pointers are not. -/
theorem ran_alone (hm : Good g m) (hfreed : buf ∉ m1.freed)
    (hci : elt.callinfobuf = none ∧ m1 = m ∨ ∃ c, elt.callinfobuf = some c ∧ Ran g c true m m1) :
    Ran g buf false m ((m1.unregister buf).free buf) := by
  obtain ⟨hshr1, hbuf1, hcgone, hclosed1, hsound1⟩ := callinfo_frame hbuf helt hm hfreed hci
  refine ⟨hshr1.trans (shrinks_unregister hbuf1 hfreed), fun hin => (mem_unregister.mp hin).2 rfl, ?_, ?_⟩
  · intro u v hu hu' hv hedge hv'
    have hv1 : v ∈ m1.registered := (mem_unregister.mp hv').1
    by_cases hub : u = buf
    · subst hub
      rcases hedge with ⟨_, h | h⟩ | hcedge
      · cases h
      · exact h rfl
      · exact hcgone v hcedge hv1
    · have hu1 : u ∉ m1.registered := fun hin => hu' (mem_unregister.mpr ⟨hin, hub⟩)
      refine hclosed1 u v hu hu1 hv ?_ hv1
      rcases hedge with ⟨he, _⟩ | he
      · exact he
      · exact .inr he
  · intro u hu hu'
    by_cases hub : u = buf
    · subst hub
      exact .refl
    · exact hsound1 u hu (fun hin => hu' (mem_unregister.mpr ⟨hin, hub⟩))

omit hbuf in
/-- With its list a call goes on to free what the buffer points to. -/
theorem Ran.gathered (hone : Ran g buf false m ((m1.unregister buf).free buf))
    (hgath : Gathered g buf elt m m1 l) (hall : RanAll g l ((m1.unregister buf).free buf) m') :
    Ran g buf true m m' := by
  refine ⟨hone.shrinks.trans hall.shrinks, fun hin => hone.gone (hall.shrinks.sub buf hin), ?_, ?_⟩
  · intro u v hu hu' hv hedge hv'
    have hv2 := hall.shrinks.sub v hv'
    have he : Edge g u v := by
      rcases hedge with ⟨he, _⟩ | he
      · exact he
      · exact .inr he
    by_cases hu2 : u ∈ ((m1.unregister buf).free buf).registered
    · refine hall.closed u v hu2 hu' hv2 ?_ hv'
      rcases he with he | he
      · -- the pointers of a buffer in the list are in the list
        refine .inl ⟨.inl he, ?_⟩
        intro hul
        obtain ⟨pre, post, rfl⟩ := append_of_mem hul
        have hvl := hgath.ordered pre u post rfl v ⟨hu2, he⟩
        exact hall.gone v (mem_append_left _ hvl) hv'
      · exact .inr he
    · by_cases hub : u = buf
      · subst hub
        rcases he with ⟨_, helt', hubf, hvp⟩ | hcedge
        · rw [helt] at helt'
          cases helt'
          exact hall.gone v (hgath.ptrs hubf v hvp) hv'
        · exact hone.closed u v hu hu2 hv (.inr hcedge) hv2
      · exact hone.closed u v hu hu2 hv (.inl ⟨he, .inr hub⟩) hv2
  · intro u hu hu'
    by_cases hu2 : u ∈ ((m1.unregister buf).free buf).registered
    · obtain ⟨p, hp, hway⟩ := hall.sound u hu2 hu'
      replace hway := ReflTransGen.mono (edgeIn_mono hone.shrinks.sub) p u hway
      exact (hgath.reached p hp (mem_of_way hway hu)).trans hway
    · exact hone.sound u hu hu2

end

theorem ran_of_ok (hm : Good g m)
    (h : tpfreeInner g fuel buf full m = .ok m') : Ran g buf full m m' := by
  induction fuel generalizing buf full m m' with
  | zero => cases h
  | succ fuel ih =>
    rcases tpfreeInner_eq_ok h with ⟨hnone, rfl⟩ | ⟨elt, _, m1, l2, hfind, hci, hfreed, hscan, hloop⟩
    · exact {
        shrinks := .refl _
        gone := (findBuffer_eq_none hm).mp hnone
        closed := fun _ _ hu hu' => absurd hu hu'
        sound := fun _ hu hu' => absurd hu hu' }
    · obtain ⟨hbuf, helt⟩ := findBuffer_eq_some.mp hfind
      obtain ⟨hcall, hlist⟩ := callinfo_ran (fun _ _ _ => ih) hm helt hci
      have hone := ran_alone hbuf helt hm hfreed hcall
      cases full with
      | false =>
        cases hloop
        exact hone
      | true =>
        have hsub := (callinfo_frame hbuf helt hm hfreed hcall).1.sub
        exact hone.gathered helt (gathered_of_scans hbuf helt hsub hlist hscan)
          (ranAll_of_ran (fun _ _ _ => ih) (hone.shrinks.good hm) hloop)

end Endurox.TypedBuf
