import Endurox.DdrRoute

/-!
From the loaded configuration to a routed call: the service is found in its table, its criterion
at its place in the segment, and the call ends with the first range that contains the value.
-/

namespace Endurox.Ddr

open Base List

section

variable {N : ℕ} {hash : CStr → Fin N}

structure Holds (hash : CStr → Fin N) (tab : Services N) (svcs : List Service) : Prop where
  stores : ∃ evs, LinearHash.Stores hash tab.keys evs
  entry : ∀ svc ∈ svcs, ∃ p, (tab.keys p).isUsed = true ∧ (tab.keys p).key = svc.svcnm ∧
    tab.data p = svc
  sole : ∀ p, (tab.keys p).isUsed = true → ∃ svc ∈ svcs, (tab.keys p).key = svc.svcnm

theorem holds_empty (hash : CStr → Fin N) :
    Holds hash ⟨LinearHash.fresh (fun _ => emptyStr), fun _ => noService⟩ [] where
  stores := ⟨[], LinearHash.stores_fresh hash _⟩
  entry := by simp
  sole := by
    intro p hp
    cases hp

variable {svcs : List Service}

theorem Holds.put {tab tab' : Services N} (h : Holds hash tab svcs) {svc : Service}
    (hnew : ∀ s ∈ svcs, s.svcnm ≠ svc.svcnm) (hput : ndrxDdrServicesPut hash tab svc = .ok tab') :
    Holds hash tab' (svcs ++ [svc]) := by
  obtain ⟨_, hst⟩ := h.stores
  obtain ⟨r, hr, -, -, habs⟩ := LinearHash.create_spec hst.toInv svc.svcnm
  have hno : ∀ p, (tab.keys p).isUsed = true → (tab.keys p).key ≠ svc.svcnm := by
    intro p hp hk
    obtain ⟨s, hs, hks⟩ := h.sole p hp
    exact hnew s hs (hks.symm.trans hk)
  rw [ndrxDdrServicesPut, hr] at hput
  rcases habs hno with ⟨hret, -, hfree, _, hj, hpos, hpath⟩ | ⟨hret, -⟩
  · simp only [hret, if_true, Except.ok.injEq] at hput
    subst hput
    refine ⟨⟨_, hst.write hno hfree hj hpos hpath⟩, ?_, ?_⟩
    · intro s hs
      rcases mem_append.mp hs with hs | hs
      · obtain ⟨p, hp, hk, hd⟩ := h.entry s hs
        have hne : p ≠ r.pos := by
          intro he
          rw [he, hfree] at hp
          cases hp
        exact ⟨p, by simp [hne, hp], by simp [hne, hk], by simp [hne, hd]⟩
      · rw [mem_singleton.mp hs]
        exact ⟨r.pos, by simp, by simp, by simp⟩
    · intro p hp
      by_cases he : p = r.pos
      · exact ⟨svc, by simp, by simp [he]⟩
      · simp only [Function.update_of_ne he] at hp ⊢
        obtain ⟨s, hs, hk⟩ := h.sole p hp
        exact ⟨s, by simp [hs], hk⟩
  · simp [hret] at hput

theorem putServices_ok {routes : List RoutcritHash} {done : List Service} {tab tab' : Services N}
    (h : Holds hash tab done) (hnodup : (svcs.map Service.svcnm).Nodup)
    (hnew : ∀ s ∈ done, s.svcnm ∉ svcs.map Service.svcnm)
    (hput : putServices hash routes tab svcs = .ok tab') :
    ∃ added, Holds hash tab' (done ++ added) ∧
      Forall₂ (fun s a => resolve routes s = .ok a) svcs added := by
  induction svcs generalizing tab done with
  | nil =>
    cases hput
    exact ⟨[], by simpa using h, .nil⟩
  | cons svc svcs ih =>
    rw [putServices] at hput
    obtain ⟨svc1, hr, hput⟩ := bind_eq_ok.mp hput
    have hname : svc1.svcnm = svc.svcnm := by
      unfold resolve at hr
      split at hr
      · cases hr
        rfl
      split at hr
      · cases hr
      · cases hr
        rfl
    obtain ⟨_, hp, hput⟩ := bind_eq_ok.mp hput
    rw [map_cons, nodup_cons] at hnodup
    have h1 := h.put (by
      intro s hs he
      apply hnew s hs
      rw [he, hname]
      simp) hp
    obtain ⟨added, hadded, hall⟩ := ih h1 hnodup.2 (by
      intro s hs
      rcases mem_append.mp hs with hs | hs
      · intro hm
        exact hnew s hs (by simp [hm])
      · rw [mem_singleton.mp hs, hname]
        exact hnodup.1) hput
    refine ⟨svc1 :: added, ?_, .cons hr hall⟩
    simpa using hadded

theorem Holds.get {tab : Services N} (h : Holds hash tab svcs) {svc : Service} (hs : svc ∈ svcs)
    (routing : List UInt8) :
    ndrxDdrServicesGet (ndrxDdrInstall hash ⟨routing, tab⟩) svc.svcnm = some svc := by
  obtain ⟨_, hst⟩ := h.stores
  obtain ⟨p, hp, hk, hd⟩ := h.entry svc hs
  obtain ⟨_, hr, -, hin, -⟩ := LinearHash.read_spec hst.toInv svc.svcnm
  obtain ⟨hret, hval, rfl⟩ := hin p hp hk
  simp [ndrxDdrServicesGet, ndrxDdrInstall, hr, hret, hval, hd]

end

theorem layout_append (id : ℕ) (xs ys : List RoutcritHash) :
    layout id (xs ++ ys) = layout id xs ++ layout (id+xs.length) ys := by
  induction xs generalizing id with
  | nil => rfl
  | cons x xs ih =>
    rw [cons_append, layout, layout, ih, append_assoc, length_cons]
    congr 3
    omega

theorem placed_append (id pos : ℕ) (xs ys : List RoutcritHash) : placed id pos (xs ++ ys) =
      placed id pos xs ++ placed (id+xs.length) (pos+(layout id xs).length) ys := by
  induction xs generalizing id pos with
  | nil => rfl
  | cons x xs ih =>
    have hid : id+1+xs.length = id+(x :: xs).length := by
      rw [length_cons]
      omega
    have hpos : pos+(typesBytes id x.btypes).length+(layout (id+1) xs).length =
        pos+(layout id (x :: xs)).length := by
      rw [layout, length_append]
      omega
    rw [cons_append, placed, placed, ih, hid, hpos, cons_append]

theorem map_placed (id pos : ℕ) (xs : List RoutcritHash) :
    (placed id pos xs).map RoutcritHash.criterion = xs.map RoutcritHash.criterion := by
  induction xs generalizing id pos with
  | nil => rfl
  | cons x xs ih => rw [placed, map_cons, map_cons, ih]

variable {els : List RoutcritHash}

/-- Behind the blocks of a criterion stands a header with another id, or there are only zeros. -/
theorem behind {id : ℕ} {own : Int} (hown : 0 < own) {k : ℕ} (hlt : own < id)
    (hid : id+els.length ≤ 2147483648) : 352 < (layout id els ++ replicate k 0).length →
      ∀ w, slice (layout id els ++ replicate k 0) 16 4 = some w → dec32 w ≠ own := by
  induction els generalizing id with
  | nil =>
    intro hl w hw
    simp only [layout, nil_append, length_replicate] at hl hw
    rw [slice, if_pos (by rw [length_replicate]; omega)] at hw
    have hz : ((replicate k (0:UInt8)).drop 16).take 4 = [0, 0, 0, 0] := by
      rw [drop_replicate, take_replicate]
      have : min 4 (k-16) = 4 := by omega
      rw [this]
      rfl
    cases hw
    rw [hz]
    have : dec32 [0, 0, 0, 0] = 0 := by decide
    omega
  | cons el els ih =>
    rw [length_cons] at hid
    cases hb : el.btypes with
    | nil =>
      have hskip : layout id (el :: els) = layout (id+1) els := by
        rw [layout, hb]
        rfl
      rw [hskip]
      exact ih (by omega) (by omega)
    | cons t ts =>
      intro _ w hw
      have hm : layout id (el :: els) ++ replicate k 0 =
          [] ++ (t.header id).fields.flatten ++ (seqsBytes t.seq ++ typesBytes id ts ++
            layout (id+1) els ++ replicate k 0) := by
        rw [layout, hb, typesBytes_cons, t.bytes_eq]
        simp
      have hr := readId_eq hm
      simp only [length_nil, Nat.zero_add] at hr
      rw [hr] at hw
      cases hw
      have hdec : dec32 (enc32 (t.header id).criterionid) = id := by
        show dec32 (enc32 (id:Int)) = id
        exact dec32_enc32_of_mem (by omega) (by omega)
      rw [hdec]
      omega

def outcome (fpu : Fpu) (buf : Buffer) (svcnm : CStr) (svcnmsz : ℕ) (routes : List Route) :
    Int × List UInt8 × Option TpErr :=
  match firstRange fpu buf routes with
  | some r =>
    match r.group with
    | none => (1, svcnm.val, none)
    | some grp =>
      if svcnm.val.length+grp.length+2 ≤ svcnmsz then (1, svcnm.val ++ [64] ++ grp, none)
      else (-1, svcnm.val, some (.nameTooLong (svcnm.val.length+grp.length+2)))
  | none =>
    if routes.any (sameType buf) then (-1, svcnm.val, some .notFound)
    else (0, svcnm.val, none)

def replyOn (svcnm : CStr) (svcnmsz : ℕ) (prio : Int) (reads : List Read) : Ended → Reply
  | .found none => ⟨1, svcnm.val, some prio, none, reads⟩
  | .found (some grp) => addGroup svcnm svcnmsz prio reads grp
  | .fieldNotFound field => ⟨-1, svcnm.val, some prio, some (.fieldNotFound field), reads⟩
  | .noRange true => ⟨-1, svcnm.val, some prio, some .notFound, reads⟩
  | .noRange false => ⟨0, svcnm.val, some prio, none, reads⟩

def PlacedAt (fpu : Fpu) (routing : List UInt8) (id : Int) (c : Criterion) (start stop : ℕ) :
    Prop :=
  ∃ el, c.build fpu = .ok el ∧ start ≤ stop ∧
    slice routing start (stop-start) = some (typesBytes id el.btypes)

theorem forall₂_split {α β : Type} {R : α → β → Prop} {xs ys : List α} {x : α} {zs : List β}
    (h : Forall₂ R (xs ++ x :: ys) zs) :
    ∃ as a bs, zs = as ++ a :: bs ∧ as.length = xs.length ∧ R x a ∧ bs.length = ys.length := by
  induction xs generalizing zs with
  | nil =>
    cases h with
    | cons hx hr => exact ⟨[], _, _, rfl, rfl, hx, hr.length_eq.symm⟩
  | cons y xs ih =>
    cases h with
    | cons hy hr =>
      obtain ⟨as, a, bs, rfl, hl, hx, hl2⟩ := ih hr
      exact ⟨_ :: as, a, bs, rfl, by simp [hl], hx, hl2⟩

theorem exists_of_forall₂_left {α β : Type} {R : α → β → Prop} {xs : List α} {ys : List β}
    (h : Forall₂ R xs ys) {x : α} (hx : x ∈ xs) : ∃ y ∈ ys, R x y :=
  exists_of_forall₂_right h.flip hx

theorem els_names {fpu : Fpu} {cs : List Criterion}
    (h : Forall₂ (fun c el => Criterion.build fpu c = .ok el) cs els) :
    els.map RoutcritHash.criterion = cs.map Criterion.criterion := by
  induction h with
  | nil => rfl
  | cons hc _ ih => rw [map_cons, map_cons, ih, (Criterion.build_ok hc).1]

section

variable {N : ℕ} {fpu : Fpu} {hash : CStr → Fin N} {size : SegSize} {cfg : Config}
  {blocks : Blocks N} {before after : List Criterion} {c : Criterion} {svc : Service}

/-- What loading leaves for a service with a criterion: its entry, and the segment around the
blocks of the criterion. -/
theorem load_ok (hload : cfg.load hash fpu size = .ok blocks)
    (hcfg : cfg.criteria = before ++ c :: after) (hcount : cfg.criteria.length < 2147483648)
    (hsvc : svc ∈ cfg.services) (hcrit : svc.criterion = c.criterion)
    (hname : svc.criterion ≠ emptyStr) {id : ℕ} (hid : id = before.length+1) :
    ∃ el pre post, c.build fpu = .ok el ∧
      blocks.routing = pre ++ typesBytes id el.btypes ++ post ∧
      blocks.routing.length = size.val ∧
      (352 < post.length → ∀ w, slice post 16 4 = some w → dec32 w ≠ id) ∧
      ndrxDdrServicesGet (ndrxDdrInstall hash blocks) svc.svcnm =
        some {svc with offset := pre.length, cirterionid := id} := by
  unfold Config.load at hload
  obtain ⟨els, hb, hgen⟩ := bind_eq_ok.mp hload
  have hels := forall₂_of_mapM hb
  have hok : ∀ el ∈ els, ∀ bt ∈ el.btypes, ∀ seq ∈ bt.seq, seq.Ok := by
    intro el hel bt hbt
    obtain ⟨_, -, hx⟩ := exists_of_forall₂_right hels hel
    obtain ⟨_, -, hr⟩ := exists_of_forall₂_right (Criterion.build_ok hx).2 hbt
    exact hr.seqs_ok
  have hlen := hels.length_eq
  obtain ⟨⟨w, els'⟩, hp, hput⟩ := bind_eq_ok.mp hgen
  have hp1 : ndrxDdrCriterionPut ((1:ℕ):Int) (.filled [] size.val) els = .ok (w, els') := hp
  obtain ⟨⟨hroom, hw⟩, hplaced⟩ := criterionPut_ok (by omega) hok hp1
  have hmem : w.mem = layout 1 els ++ replicate (size.val-(layout 1 els).length) 0 := by
    rw [hw]
    rfl
  rw [hcfg] at hels
  obtain ⟨eb, el, ea, rfl, heb, hel, _⟩ := forall₂_split hels
  have hnames := els_names hels
  rw [← hcfg] at hnames
  have hnodup := cfg.criteria_nodup
  rw [← hnames, map_append, map_cons] at hnodup
  -- the criterion with its id and offset, as the lookup by name finds it
  have hfind : els'.find? (fun rt => rt.criterion = svc.criterion) = some {el with
        criterionid := id, offset := (layout 1 eb).length} := by
    have hself : el.criterion = svc.criterion := (Criterion.build_ok hel).1.trans hcrit.symm
    have hnone : (placed 1 0 eb).find? (fun rt => rt.criterion = svc.criterion) = none := by
      rw [find?_eq_none]
      intro rt hrt he
      have hin : rt.criterion ∈ eb.map RoutcritHash.criterion := by
        rw [← map_placed 1 0 eb]
        exact mem_map_of_mem hrt
      have hd := disjoint_of_nodup_append hnodup hin
      apply hd
      rw [of_decide_eq_true he, ← hself]
      simp
    rw [hplaced, length_nil, placed_append, find?_append, hnone, placed,
      find?_cons_of_pos (by simpa using hself), heb, hid]
    simp [Nat.add_comm]
  obtain ⟨_, ht, hend⟩ := bind_eq_ok.mp hput
  cases hend
  obtain ⟨_, hadded, hres⟩ := putServices_ok (holds_empty hash) cfg.services_nodup
    (by simp) ht
  obtain ⟨a, ha, hra⟩ := exists_of_forall₂_left hres hsvc
  have hresolved : a = {svc with offset := (layout 1 eb).length, cirterionid := id} := by
    rw [resolve, if_neg hname, hfind] at hra
    cases hra
    rfl
  have hsplit : layout 1 (eb ++ el :: ea) =
      layout 1 eb ++ (typesBytes id el.btypes ++ layout (id+1) ea) := by
    rw [layout_append, layout, heb, hid, Nat.add_comm 1]
  refine ⟨el, layout 1 eb, layout (id+1) ea ++
    replicate (size.val-(layout 1 (eb ++ el :: ea)).length) 0, hel, ?_, ?_, ?_, ?_⟩
  · rw [hmem, hsplit]
    simp
  · rw [hmem]
    simp only [length_append, length_replicate] at hroom ⊢
    omega
  · apply behind
    · omega
    · omega
    · have hl := congrArg length hcfg
      simp only [length_append, length_cons] at hl
      omega
  · have hg := @Holds.get _ _ _ _ hadded a (by simpa using ha) w.mem
    rw [hresolved] at hg
    exact hg

theorem addGroup_eq {svcnm : CStr} {grp : List UInt8} (svcnmsz : ℕ) (prio : Int)
    (rd : List Read) (hs : svcnm.val.length ≤ 30) (hg : grp.length ≤ 15) :
    ((addGroup svcnm svcnmsz prio rd grp).ret, (addGroup svcnm svcnmsz prio rd grp).svcnm,
        (addGroup svcnm svcnmsz prio rd grp).err) =
      (if svcnm.val.length+grp.length+2 ≤ svcnmsz then (1, svcnm.val ++ [64] ++ grp, none)
      else (-1, svcnm.val, some (.nameTooLong (svcnm.val.length+grp.length+2)))) ∧
      (addGroup svcnm svcnmsz prio rd grp).prio = some prio ∧
      (addGroup svcnm svcnmsz prio rd grp).reads = rd := by
  have hw : wrap32 (svcnm.val.length+grp.length+2) = svcnm.val.length+grp.length+2 :=
    wrap32_of_mem (by omega) (by omega)
  have hu : usize ((svcnm.val.length:Int)+grp.length+2) = svcnm.val.length+grp.length+2 := by
    rw [usize]
    omega
  unfold addGroup
  simp only [hw, hu]
  by_cases hfit : svcnm.val.length+grp.length+2 ≤ svcnmsz
  · have hle : ¬ ((svcnm.val.length:Int)+grp.length+2 > svcnmsz) := by omega
    rw [if_pos hfit]
    simp [if_neg hle]
  · have hgt : (svcnm.val.length:Int)+grp.length+2 > svcnmsz := by omega
    rw [if_neg hfit]
    simp [if_pos hgt]

theorem group_length {buf : Buffer} {routes : List Route} {ts : List RoutcritType}
    (hb : Forall₂ (BuiltRoute fpu) routes ts) {r : Range} {grp : List UInt8}
    (hr : firstRange fpu buf routes = some r) (hg : r.group = some grp) : grp.length ≤ 15 := by
  obtain ⟨_, hroute, hpick⟩ := exists_of_findSome?_eq_some hr
  split at hpick
  · obtain ⟨_, -, hfind⟩ := Option.bind_eq_some_iff.mp hpick
    obtain ⟨_, -, hbt⟩ := exists_of_forall₂_left hb hroute
    obtain ⟨_, -, hseq⟩ := exists_of_forall₂_left hbt.ranges (mem_of_find?_eq_some hfind)
    have hlen := hseq.grpLen
    rw [hseq.grp] at hlen
    rw [Range.group] at hg
    split at hg
    · cases hg
    · cases hg
      exact hlen
  · cases hpick

theorem ndrxDdrGrpGet_eq (fpu : Fpu) {hash : CStr → Fin N} {blocks : Blocks N} {svcnm : CStr}
    {svc : Service} {buf : Buffer} {ended : Ended} {rd : List Read} (svcnmsz : ℕ)
    (hget : ndrxDdrServicesGet (ndrxDdrInstall hash blocks) svcnm = some svc)
    (hname : svc.criterion ≠ emptyStr)
    (hrun : critLoop fpu blocks.routing buf svc.cirterionid svc.offset (blocks.routing.length+1) 0 0
      false = .ok (ended, rd)) :
    ndrxDdrGrpGet fpu (ndrxDdrInstall hash blocks) svcnm svcnmsz (some buf) =
      .ok (replyOn svcnm svcnmsz svc.prio rd ended) := by
  rw [ndrxDdrGrpGet, if_neg (by simp [ndrxDdrInstall]), hget]
  simp only [if_neg hname]
  refine (congrArg (· >>= _) hrun).trans ?_
  cases ended with
  | found grp => cases grp <;> exact rfl
  | fieldNotFound => exact rfl
  | noRange any => cases any <;> exact rfl

/-- Routing takes the first range in configuration order that contains the value. -/
theorem routes_first_range (fpu : Fpu) (hash : CStr → Fin N) (size : SegSize) (cfg : Config)
    (blocks : Blocks N) (hload : cfg.load hash fpu size = .ok blocks)
    (before after : List Criterion) (c : Criterion) (hcfg : cfg.criteria = before ++ c :: after)
    (hcount : cfg.criteria.length < 2147483648) (svc : Service) (hsvc : svc ∈ cfg.services)
    (hcrit : svc.criterion = c.criterion) (hname : svc.criterion ≠ emptyStr)
    (hroutes : c.routes ≠ []) (buf : Buffer) (hubf : buf.typeId = bufTypeUbf)
    (hval : ∀ r ∈ c.routes, sameType buf r = true →
      (fieldValue buf r.fieldtypeid.val r.fldid.val).isSome = true)
    (hin : InStep fpu buf c.routes) (svcnmsz : ℕ) :
    ∃ rep start stop,
      ndrxDdrGrpGet fpu (ndrxDdrInstall hash blocks) svc.svcnm svcnmsz (some buf) = .ok rep ∧
      (rep.ret, rep.svcnm, rep.err) = outcome fpu buf svc.svcnm svcnmsz c.routes ∧
      rep.prio = some svc.prio ∧
      PlacedAt fpu blocks.routing ((before.length+1 : ℕ) : Int) c start stop ∧
      ∀ rd ∈ rep.reads, InBlocks size.val start stop rd := by
  obtain ⟨el, pre, _, hel, hmem, hlen, hpost, hget⟩ :=
    load_ok hload hcfg hcount hsvc hcrit hname rfl
  generalize hid : before.length+1 = id at hmem hpost hget ⊢
  obtain ⟨-, hbuilt⟩ := Criterion.build_ok hel
  have hcfgl := congrArg length hcfg
  simp only [length_append, length_cons] at hcfgl
  have hsize := size.property.2
  have hfuel : c.routes.length < blocks.routing.length+1 := by
    have hl := congrArg length hmem
    have hall : ∀ (rs : List Route) (ts : List RoutcritType),
        Forall₂ (BuiltRoute fpu) rs ts →
        rs.length ≤ (typesBytes id ts).length := by
      intro rs ts h
      induction h with
      | nil => simp
      | @cons r t rs ts _ _ ih =>
        have ht := t.bytes_length id
        rw [typesBytes_cons, length_append, length_cons]
        omega
    have h1 := hall _ _ hbuilt
    simp only [length_append] at hl
    omega
  have hwalk : ∃ rd, critLoop fpu blocks.routing buf id pre.length
        (blocks.routing.length+1) 0 0 (([]:List Route).any (sameType buf)) =
          .ok (endedOn fpu buf ([] ++ c.routes), rd) ∧
      ∀ p ∈ rd, InBlocks blocks.routing.length pre.length
        (pre.length+(typesBytes id el.btypes).length) p :=
    critLoop_eq hbuilt hubf hval (show InStep fpu buf ([] ++ c.routes) from hin) rfl (by omega) hmem (by omega) hpost
      (by omega) le_rfl (by simp) (by simp) (.inl hroutes) hfuel
  obtain ⟨rd, hrun, hrd⟩ := hwalk
  rw [hlen] at hrd
  have hplace : PlacedAt fpu blocks.routing id c pre.length
      (pre.length+(typesBytes id el.btypes).length) :=
    ⟨el, hel, by omega, slice_eq_of_append hmem rfl (by omega)⟩
  rw [ndrxDdrGrpGet_eq fpu svcnmsz hget hname hrun, nil_append]
  unfold endedOn outcome replyOn
  cases hfirst : firstRange fpu buf c.routes with
  | none =>
    cases hany : c.routes.any (sameType buf) with
    | true | false => exact ⟨_, _, _, rfl, rfl, rfl, hplace, hrd⟩
  | some r =>
    dsimp only
    cases hgrp : r.group with
    | none => exact ⟨_, _, _, rfl, rfl, rfl, hplace, hrd⟩
    | some grp =>
      have hg := group_length hbuilt hfirst hgrp
      have hs := cfg.svcnm_length svc hsvc
      obtain ⟨hrep, hprio, hreads⟩ := addGroup_eq svcnmsz svc.prio rd hs hg
      refine ⟨addGroup svc.svcnm svcnmsz svc.prio rd grp, _, _, rfl, hrep, hprio, hplace, ?_⟩
      rw [hreads]
      exact hrd

end

def demoFpu : Fpu := ⟨fun _ => 0, fun _ _ => false, fun _ _ => true⟩

def demoSvc : Service := ⟨⟨[83], by decide⟩, 50, 0, ⟨[67], by decide⟩, 0⟩

def demoRoute (bufferTypeId : CShort) (ranges : List Range) : Route :=
  ⟨⟨[70], by decide⟩, bufferTypeId, emptyStr, ⟨1, by decide⟩, ⟨7, by decide⟩, ranges⟩

def oneToFive : Range := ⟨some ⟨[49], by decide⟩, some ⟨[53], by decide⟩, some ⟨[65], by decide⟩⟩

def ubfId : CShort := ⟨0, by decide⟩

def noId : CShort := ⟨-1, by decide⟩

def demoBuf (x : Int) : Buffer := ⟨0, fun _ => some x, fun _ => none, fun _ => none⟩

def demoConfig (routes : List Route) : Config where
  criteria := [⟨⟨[67], by decide⟩, routes⟩, ⟨⟨[68], by decide⟩, [demoRoute ubfId [oneToFive]]⟩]
  services := [demoSvc]
  criteria_nodup := show [(⟨[67], by decide⟩ : CStr), ⟨[68], by decide⟩].Nodup by decide
  services_nodup := by simp
  svcnm_length := by simp [demoSvc]

def demoCall (cfg : Config) (size : SegSize) (svcnmsz : ℕ) (x : Int) :
    Except CfgErr (Except Abort Reply) := do
  let blocks : Blocks 1 ← cfg.load (fun _ => 0) demoFpu size
  .ok (ndrxDdrGrpGet demoFpu (ndrxDdrInstall (fun _ => 0) blocks) demoSvc.svcnm svcnmsz
    (some (demoBuf x)))

def sixToNine : Range := ⟨some ⟨[54], by decide⟩, some ⟨[57], by decide⟩, some ⟨[66], by decide⟩⟩

def fourToNine : Range := ⟨some ⟨[52], by decide⟩, some ⟨[57], by decide⟩, some ⟨[67], by decide⟩⟩

def demoRoutes : List Route :=
  [demoRoute ubfId [sixToNine], demoRoute ubfId [sixToNine], demoRoute noId [oneToFive],
    demoRoute ubfId [oneToFive, fourToNine]]

theorem demoRoutes_inStep : InStep demoFpu (demoBuf 4) demoRoutes := by
  intro before r after heq _ hty hpick
  rcases before with _ | ⟨a, _ | ⟨b, _ | ⟨c, _ | ⟨d, before⟩⟩⟩⟩
  · simp
  · cases heq
    decide
  · cases heq
    cases hty
  · cases heq
    have hsome : ((demoRoute ubfId [oneToFive, fourToNine]).pick demoFpu (demoBuf 4)).isSome = true := by
      decide +kernel
    rw [hpick] at hsome
    cases hsome
  · have hlen := congrArg length heq
    simp [demoRoutes] at hlen

theorem routes_first_range_four : ∃ blocks : Blocks 1, ∃ rep,
    (demoConfig demoRoutes).load (fun _ => 0) demoFpu ⟨2500, by decide⟩ = .ok blocks ∧
      ndrxDdrGrpGet demoFpu (ndrxDdrInstall (fun _ => 0) blocks) demoSvc.svcnm 31
        (some (demoBuf 4)) = .ok rep ∧ rep.svcnm = [83, 64, 65] := by
  have hok : ((demoConfig demoRoutes).load (fun _ => (0 : Fin 1)) demoFpu
      ⟨2500, by decide⟩).isOk = true := by decide +kernel
  cases hb : (demoConfig demoRoutes).load (fun _ => (0 : Fin 1)) demoFpu ⟨2500, by decide⟩ with
  | error =>
    rw [hb] at hok
    cases hok
  | ok blocks =>
    obtain ⟨rep, -, -, hrep, hout, -⟩ := routes_first_range demoFpu (fun _ => (0 : Fin 1))
      ⟨2500, by decide⟩ (demoConfig demoRoutes) blocks hb []
      [⟨⟨[68], by decide⟩, [demoRoute ubfId [oneToFive]]⟩] ⟨⟨[67], by decide⟩, _⟩ rfl
      (show 2 < 2147483648 by decide) demoSvc (mem_singleton.mpr rfl) rfl (by decide)
      (by simp [demoRoutes]) (demoBuf 4) rfl (by decide) demoRoutes_inStep 31
    refine ⟨blocks, rep, rfl, hrep, ?_⟩
    have hname : outcome demoFpu (demoBuf 4) demoSvc.svcnm 31 demoRoutes = (1, [83, 64, 65], none) := by
      decide +kernel
    rw [hname] at hout
    exact congrArg (fun x => x.2.1) hout

def bareConfig : Config where
  criteria := [⟨⟨[67], by decide⟩, []⟩]
  services := [demoSvc]
  criteria_nodup := nodup_singleton _
  services_nodup := nodup_singleton _
  svcnm_length := by simp [demoSvc]

/-- The value 4 is in the range, but the caller's buffer has no room for the name and the group.
The value 9 is in no range, and the id of the next criterion is read. With a block without a
buffer type in front, the assertion fails for 9. A criterion without blocks at the end of the
segment is read outside the segment. -/
theorem routing_differs : demoCall (demoConfig [demoRoute ubfId [oneToFive]]) ⟨900, by decide⟩ 3 4 =
        .ok (.ok ⟨-1, [83], some 50, some (.nameTooLong 4), [(16, 4), (0, 352), (352, 60)]⟩) ∧
      demoCall (demoConfig [demoRoute ubfId [oneToFive]]) ⟨900, by decide⟩ 31 9 =
        .ok (.ok ⟨-1, [83], some 50, some .notFound, [(16, 4), (0, 352), (352, 60), (432, 4)]⟩) ∧
      demoCall (demoConfig [demoRoute noId [oneToFive], demoRoute ubfId [oneToFive]])
        ⟨1300, by decide⟩ 31 9 = .ok (.error .assertion) ∧
      demoCall bareConfig ⟨8, by decide⟩ 31 9 = .ok (.error (.outside 16)) := by
  refine ⟨?_, ?_, ?_, ?_⟩ <;> decide +kernel

end Endurox.Ddr
