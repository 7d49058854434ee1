import Endurox.XaThread

/-! The work of a resource manager is bound to no other transaction than the thread's current one. -/

namespace Endurox.Srv

open Base.Trace

def Event.opens : Event → ℕ → Bool
  | .xaStart i .ok, id => i == id
  | .axReg i, id => i == id
  | _, _ => false

def Event.closes : Event → ℕ → Bool
  | .xaEnd i true, id => i == id
  | .tm .tpabort i _, id => i == id
  | _, _ => false

def bound (s : Thread) (id : ℕ) : Bool := openAfter Event.opens Event.closes s.trace id

def Unbound (s : Thread) : Prop := ∀ id, bound s id = false

def Only (xa : Xa) (t : TxInfo) (s : Thread) : Prop :=
  ∀ id, bound s id = true → id = t.tmxid ∧ needsEnd xa t = true

def Held (xa : Xa) (s : Thread) : Prop :=
  match s.txinfo with
  | none => Unbound s
  | some t => Only xa t s

variable {xa : Xa} {s : Thread} {t : TxInfo} {e : Event}

theorem bound_add_neutral {id : ℕ} (ho : e.opens id = false) :
    bound (s.add e) id = true → bound s id = true :=
  openAfter_of_neutral ho

theorem Unbound.only (h : Unbound s) (t : TxInfo) : Only xa t s := by
  intro id hid
  rw [h id] at hid
  cases hid

theorem Unbound.add (h : Unbound s) (ho : ∀ id, e.opens id = false) : Unbound (s.add e) := by
  intro id
  cases hb : bound (s.add e) id with
  | false => rfl
  | true =>
    have := bound_add_neutral (ho id) hb
    rw [h id] at this
    cases this

theorem Only.add (h : Only xa t s) (ho : ∀ id, e.opens id = false) : Only xa t (s.add e) := by
  intro id hid
  exact h id (bound_add_neutral (ho id) hid)

theorem Only.close (h : Only xa t s) (ho : ∀ id, e.opens id = false)
    (hc : e.closes t.tmxid = true) : Unbound (s.add e) := by
  intro id
  cases hb : bound (s.add e) id with
  | false => rfl
  | true =>
    obtain ⟨rfl, -⟩ := h id (bound_add_neutral (ho id) hb)
    have : bound (s.add e) t.tmxid = false := openAfter_of_closes hc
    rw [this] at hb
    cases hb

theorem Only.bind (h : Only xa t s) (hn : needsEnd xa t = true)
    (ho : ∀ id, e.opens id = true → id = t.tmxid) : Only xa t (s.add e) := by
  intro id hid
  cases hopen : e.opens id with
  | true => exact ⟨ho id hopen, hn⟩
  | false => exact h id (bound_add_neutral hopen hid)

theorem Unbound.callTm {cmd : TmCmd} {id : ℕ} (h : Unbound s) : Unbound (callTm xa cmd id s).2 :=
  h.add fun _ => rfl

theorem Only.callTm_abort (h : Only xa t s) : Unbound (callTm xa .tpabort t.tmxid s).2 := by
  apply h.close
  · intro id
    rfl
  · exact beq_self_eq_true _

variable {force : Bool}

theorem Only.joinFail (h : Only xa t s) : Only xa t (ndrxXaJoinFail xa force t s) := by
  unfold ndrxXaJoinFail
  split
  · exact h
  · exact h.callTm_abort.only t

theorem Only.joinFail_force (h : Only xa t s) : Unbound (ndrxXaJoinFail xa true t s) := by
  unfold ndrxXaJoinFail
  rw [Bool.not_true, Bool.and_false]
  exact h.callTm_abort

theorem Unbound.joinFail (h : Unbound s) : Unbound (ndrxXaJoinFail xa force t s) := by
  unfold ndrxXaJoinFail
  split
  · exact h
  · exact h.callTm

theorem Only.endWork (h : Only xa t s) : Only xa t (endWork xa t s).2 := by
  unfold Srv.endWork
  split
  · exact h.add fun _ => by cases xa.xaEnd s.trace <;> rfl
  · exact h

theorem Only.endWork_ok (h : Only xa t s) (hok : (Srv.endWork xa t s).1 = true) :
    Unbound (Srv.endWork xa t s).2 := by
  unfold Srv.endWork at hok ⊢
  split at hok
  · rename_i hn
    have hend : xa.xaEnd s.trace = true := hok
    rw [if_pos hn, xaEndEntry, hend]
    apply h.close
    · intro id
      rfl
    · exact beq_self_eq_true _
  · rename_i hn
    rw [if_neg hn]
    intro id
    cases hb : bound s id with
    | false => rfl
    | true => exact absurd (h id hb).2 hn

theorem endWork_failed (hok : (endWork xa t s).1 = false) :
    (endWork xa t s).2 = s.add (.xaEnd t.tmxid false) := by
  unfold endWork at hok ⊢
  split at hok
  · rename_i hn
    have hend : xa.xaEnd s.trace = false := hok
    rw [if_pos hn, xaEndEntry, hend]
  · cases hok

theorem held_none (h : s.txinfo = none) : Held xa s ↔ Unbound s := by rw [Held, h]

theorem held_some (h : s.txinfo = some t) : Held xa s ↔ Only xa t s := by rw [Held, h]

theorem Unbound.held (h : Unbound s) : Held xa s := by
  unfold Held
  split
  · exact h
  · exact h.only _

theorem held_tpabort {callXaEnd : Bool} (h : Held xa s) : Held xa (ndrxTpabort xa callXaEnd s).2 := by
  unfold ndrxTpabort
  split
  · exact h
  cases ht : s.txinfo with
  | none => exact h
  | some t =>
    have honly : Only xa t s := (held_some ht).mp h
    have hend : Only xa t (if callXaEnd then (endWork xa t s).2 else s) := by
      split
      · exact honly.endWork
      · exact honly
    dsimp only
    split
    · exact h
    · exact hend.callTm_abort

theorem endWork_txinfo : (endWork xa t s).2.txinfo = s.txinfo := by
  unfold endWork
  split
  · rfl
  · rfl

/-- After a commit no branch is bound but that of the transaction, if there still is one. -/
theorem held_tpcommit (h : Held xa s) : Held xa (ndrxTpcommit xa s).2 := by
  unfold ndrxTpcommit
  split
  · exact h
  cases ht : s.txinfo with
  | none => exact h
  | some t =>
    have honly : Only xa t s := (held_some ht).mp h
    dsimp only
    split
    · exact h
    split
    · apply held_tpabort
      rw [held_some (endWork_txinfo.trans ht)]
      exact honly.endWork
    rename_i habort
    have hok : (endWork xa t s).1 = true := by
      cases hok : (endWork xa t s).1 with
      | true => rfl
      | false => simp [hok] at habort
    exact (honly.endWork_ok hok).callTm

theorem joinFail_txinfo : (ndrxXaJoinFail xa force t s).txinfo = s.txinfo := by
  unfold ndrxXaJoinFail
  split
  · rfl
  · rfl

theorem unbound_xaStart_failed (h : Unbound s) (hrc : (xaStartEntry xa t s).1 ≠ .ok) :
    Unbound (xaStartEntry xa t s).2 := by
  apply h.add
  intro id
  have hne : xa.xaStart s.trace ≠ .ok := hrc
  cases hst : xa.xaStart s.trace with
  | ok => exact absurd hst hne
  | dupid => rfl
  | failed => rfl

theorem only_xaStart (h : Unbound s) (hn : needsEnd xa t = true) : Only xa t (xaStartEntry xa t s).2 := by
  apply (h.only t).bind hn
  intro id hid
  cases hst : xa.xaStart s.trace with
  | ok =>
    rw [hst] at hid
    exact (beq_iff_eq.mp hid).symm
  | dupid =>
    rw [hst] at hid
    cases hid
  | failed =>
    rw [hst] at hid
    cases hid

theorem held_tpbegin (h : Held xa s) : Held xa (ndrxTpbegin xa s).2 := by
  unfold ndrxTpbegin
  split
  · exact h
  rename_i hopen
  have ht : s.txinfo = none := by
    cases ht : s.txinfo with
    | none => rfl
    | some => simp [ht] at hopen
  have hun : Unbound s := (held_none ht).mp h
  have hcall : Unbound (callTm xa .tpbegin (begunTx xa s.trace).tmxid s).2 := hun.callTm
  dsimp only
  split
  · exact hcall.held
  split
  · exact hcall.held
  split
  · split
    · exact hcall.only _
    · exact hcall.joinFail.held
  rename_i hstatic
  have hn : needsEnd xa (begunTx xa s.trace) = true := by simp [needsEnd, hstatic]
  split
  · exact only_xaStart hcall hn
  · rename_i hrc
    exact (unbound_xaStart_failed hcall hrc).joinFail.held

theorem update_isSome (k : KnownRms) (rmid : Fin 31) : (k.update rmid).isSome = true := by
  have hlen : k.rms.length ≤ 31 := by
    have h := k.nodup.length_le_card
    rwa [Fintype.card_fin] at h
  unfold KnownRms.update
  split
  · rfl
  · rw [if_neg (by omega)]
    rfl

structure Joins (xa : Xa) (t : TxInfo) (r : Bool × Thread) : Prop where
  joined : r.1 = true → Only xa t r.2 ∧ ∃ k, r.2.txinfo = some {t with tmknownrms := k}
  failed : r.1 = false → Unbound r.2 ∧ r.2.txinfo = none

theorem joins_started {st : StartRc × Thread} (hok : st.1 = .ok → Only xa t st.2)
    (hfail : st.1 ≠ .ok → Unbound st.2) : Joins xa t (started xa t st) := by
  unfold started
  by_cases hrc : st.1 = .ok
  · rw [if_pos hrc]
    refine ⟨fun _ => ⟨hok hrc, t.tmknownrms, rfl⟩, ?_⟩
    intro h
    cases h
  · rw [if_neg hrc]
    refine ⟨?_, fun _ => ⟨(hfail hrc).joinFail, rfl⟩⟩
    intro h
    cases h

theorem joins_xaStart (h : Unbound s) (hn : needsEnd xa t = true) :
    Joins xa t (started xa t (xaStartEntry xa t s)) :=
  joins_started (fun _ => only_xaStart h hn) (unbound_xaStart_failed h)

theorem joins_registerNew (h : Unbound s) (hn : needsEnd xa t = true) :
    Joins xa t (registerNew xa t s) := by
  have hcall : Unbound (callTm xa .tmregister t.tmxid s).2 := h.callTm
  unfold registerNew
  dsimp only
  split
  · refine ⟨?_, fun _ => ⟨hcall, rfl⟩⟩
    intro h
    cases h
  split
  · refine ⟨fun _ => ⟨hcall.only t, t.tmknownrms, rfl⟩, ?_⟩
    intro h
    cases h
  split
  · rename_i hdup
    have hne : (xaStartEntry xa t (callTm xa .tmregister t.tmxid s).2).1 ≠ .ok := by
      intro hok
      simp [hok] at hdup
    exact joins_xaStart (unbound_xaStart_failed hcall hne) hn
  · exact joins_xaStart hcall hn

variable {r : Bool × Thread}

theorem joins_addKnown (h : Joins xa t r) : Joins xa t (addKnown xa t r) := by
  obtain ⟨k, hk⟩ := Option.isSome_iff_exists.mp (update_isSome t.tmknownrms xa.rmid)
  unfold addKnown
  split
  · exact h
  rename_i hr
  have hok : r.1 = true := by
    cases hok : r.1 with
    | true => rfl
    | false => simp [hok] at hr
  simp only [hk]
  refine ⟨fun _ => ⟨(h.joined hok).1, k, rfl⟩, ?_⟩
  intro h
  cases h

theorem joins_joinBranch {resume : Bool} (h : Unbound s) (hn : needsEnd xa t = true) :
    Joins xa t (joinBranch xa resume t s) := by
  unfold joinBranch
  split
  · split
    · refine ⟨fun _ => ⟨h.only t, t.tmknownrms, rfl⟩, ?_⟩
      intro h
      cases h
    · exact joins_xaStart h hn
  · exact joins_addKnown (joins_registerNew h hn)

theorem Joins.held (h : Joins xa t r) : Held xa r.2 := by
  cases hr : r.1 with
  | true =>
    obtain ⟨honly, _, hk⟩ := h.joined hr
    exact (held_some hk).mpr honly
  | false => exact (h.failed hr).1.held

/-- A join that fails leaves neither a bound branch nor a transaction. -/
theorem joins_joinOrNew {resume : Bool} (h : Unbound s) (hout : s.txinfo = none)
    (hr : tpSrvJoinOrNew xa resume t s = some r) : Joins xa t r := by
  unfold tpSrvJoinOrNew at hr
  split at hr
  · rename_i hn
    cases hr
    exact joins_joinBranch h hn
  split at hr
  · cases hr
    refine ⟨fun _ => ⟨h.only t, t.tmknownrms, rfl⟩, ?_⟩
    intro h
    cases h
  · rw [hout] at hr
    cases hr

theorem held_axReg (h : Held xa s) : Held xa (axReg xa s) := by
  unfold axReg
  cases ht : s.txinfo with
  | none => exact h
  | some t =>
    dsimp only
    split
    · exact h
    rename_i hn
    have hun : Unbound s := by
      intro id
      cases hb : bound s id with
      | false => rfl
      | true => exact absurd ((held_some ht).mp h id hb).2 hn
    have hjoin : Joins xa {t with axregCld := true} (joinBranch xa false {t with axregCld := true} s) :=
      joins_joinBranch hun (by simp [needsEnd])
    split
    · rename_i hok
      obtain ⟨honly, _, hk⟩ := hjoin.joined hok
      apply (held_some (show (Thread.add _ _).txinfo = _ from hk)).mpr
      apply honly.bind (by simp [needsEnd])
      intro id hid
      exact (beq_iff_eq.mp hid).symm
    · exact hjoin.held

theorem held_tpsuspend (h : Held xa s) : Held xa (ndrxTpsuspend xa s) := by
  unfold ndrxTpsuspend
  cases ht : s.txinfo with
  | none => exact h
  | some t =>
    have honly : Only xa t s := (held_some ht).mp h
    dsimp only
    split
    · exact h
    split
    · rename_i hok
      exact honly.endWork_ok hok
    · have hin : (ndrxXaJoinFail xa false t (endWork xa t s).2).txinfo = some t := by
        rw [joinFail_txinfo, endWork_txinfo, ht]
      exact (held_some hin).mpr honly.endWork.joinFail

theorem held_tpresume {resume noOptim : Bool} {s' : Thread} (h : Held xa s)
    (hr : ndrxTpresume xa resume noOptim t s = some s') : Held xa s' := by
  unfold ndrxTpresume at hr
  split at hr
  · cases hr
    exact h
  · rename_i hin
    have hout : s.txinfo = none := by simpa using hin
    obtain ⟨_, hjoin, rfl⟩ := Option.map_eq_some_iff.mp hr
    exact (joins_joinOrNew ((held_none hout).mp h) hout hjoin).held

theorem held_map {f : TxInfo → TxInfo} (h : Held xa s) (hid : ∀ t, (f t).tmxid = t.tmxid)
    (hreg : ∀ t, (f t).axregCld = t.axregCld) : Held xa {s with txinfo := s.txinfo.map f} := by
  cases ht : s.txinfo with
  | none => exact (held_none ht).mp h
  | some t =>
    have honly : Only xa t s := (held_some ht).mp h
    intro id hb
    obtain ⟨rfl, hn⟩ := honly id hb
    rw [needsEnd, hreg]
    exact ⟨(hid t).symm, hn⟩

end Endurox.Srv
