import Endurox.IniCfg
import Mathlib.Data.List.Pairwise

/-! The lookup of the common configuration: which lines it goes through and in which order, and
which of them give a key its value. -/

namespace Endurox.IniCfg

open Base List

variable {F : Finder HEntry.hkey} {cfg : Cfg}

theorem cutLast_eq_none {tmp : Str} (h : '/' ∉ tmp) : cutLast tmp = none := by
  have hnil : tmp.reverse.dropWhile (· ≠ '/') = [] := by
    rw [dropWhile_eq_nil_iff]
    intro c hc
    simpa using fun e : c = '/' => h (e ▸ mem_reverse.mp hc)
  rw [cutLast, hnil]

variable {t : Str}

theorem cutLast_append {p : Str} (h : '/' ∉ t) : cutLast (p ++ '/' :: t) = some p := by
  have hdrop : (p ++ '/' :: t).reverse.dropWhile (· ≠ '/') = '/' :: p.reverse := by
    rw [reverse_append, reverse_cons, append_assoc, dropWhile_append_of_pos]
    · rfl
    · intro c hc
      simpa using fun e : c = '/' => h (e ▸ mem_reverse.mp hc)
  rw [cutLast, hdrop]
  simp

variable {s : Str}

theorem exists_last_cut (h : '/' ∈ s) : ∃ p t, s = p ++ '/' :: t ∧ '/' ∉ t := by
  obtain ⟨t, p, hs, ht⟩ := eq_append_cons_of_mem (mem_reverse.mpr h)
  refine ⟨p.reverse, t.reverse, ?_, fun hm => ht (mem_reverse.mp hm)⟩
  rw [← reverse_reverse s, hs]
  simp

def subsectsFrom : ℕ → Str → List Str
  | 0, _ => []
  | fuel+1, tmp =>
    if tmp = [] then []
    else
      match cutLast tmp with
      | some p => tmp :: subsectsFrom fuel p
      | none => [tmp]

def subsects (sect : Str) : List Str := subsectsFrom (sect.length+1) sect

theorem subsectLoop_eq (fuel : ℕ) (tmp : Str) (out : List HEntry) : subsectLoop F cfg fuel tmp out =
      (subsectsFrom fuel tmp).foldl (fun out sect => inicfgResolve F cfg sect out) out := by
  induction fuel generalizing tmp out with
  | zero => rfl
  | succ fuel ih =>
    rw [subsectLoop, subsectsFrom]
    split
    · rfl
    · cases cutLast tmp with
      | none => rfl
      | some p => exact ih p _

theorem subsectsFrom_eq {fuel fuel' : ℕ} {tmp : Str} (h : tmp.length < fuel)
    (h' : tmp.length < fuel') : subsectsFrom fuel tmp = subsectsFrom fuel' tmp := by
  induction fuel generalizing fuel' tmp with
  | zero => omega
  | succ fuel ih =>
    obtain ⟨n, rfl⟩ : ∃ n, fuel' = n+1 := ⟨fuel'-1, by omega⟩
    rw [subsectsFrom, subsectsFrom]
    by_cases hs : '/' ∈ tmp
    · obtain ⟨p, _, rfl, ht⟩ := exists_last_cut hs
      simp only [length_append, length_cons] at h h'
      rw [cutLast_append ht]
      simp only
      rw [ih (show p.length < fuel by omega) (show p.length < n by omega)]
    · rw [cutLast_eq_none hs]

theorem subsects_simple (h : '/' ∉ s) (hne : s ≠ []) : subsects s = [s] := by
  rw [subsects, subsectsFrom, if_neg hne, cutLast_eq_none h]

theorem subsects_append {p : Str} (ht : '/' ∉ t) :
    subsects (p ++ '/' :: t) = (p ++ '/' :: t) :: subsects p := by
  have hne : p ++ '/' :: t ≠ [] := by simp
  rw [subsects, subsectsFrom, if_neg hne, cutLast_append ht]
  simp only
  rw [subsects, subsectsFrom_eq]
  · simp only [length_append, length_cons]
    omega
  · omega

theorem cut_induction {P : Str → Prop} (simple : ∀ s, '/' ∉ s → P s)
    (cut : ∀ p t, '/' ∉ t → P p → P (p ++ '/' :: t)) (s : Str) : P s := by
  induction hn : s.length using Nat.strong_induction_on generalizing s with
  | _ n ih =>
    by_cases hs : '/' ∈ s
    · obtain ⟨p, t, rfl, ht⟩ := exists_last_cut hs
      refine cut p t ht (ih p.length ?_ p rfl)
      simp only [length_append, length_cons] at hn
      omega
    · exact simple s hs

def Parent (p s : Str) : Prop := p ≠ [] ∧ ∃ rest, s = p ++ '/' :: rest

variable {q : Str}

theorem parent_append {p : Str} (ht : '/' ∉ t) :
    Parent q (p ++ '/' :: t) ↔ q ≠ [] ∧ q = p ∨ Parent q p := by
  constructor
  · rintro ⟨hq, rest, h⟩
    rcases append_eq_append_iff.mp h with ⟨as, hqe, hrest⟩ | ⟨bs, hpe, hrest⟩
    · cases as with
      | nil => exact .inl ⟨hq, by simpa using hqe⟩
      | cons =>
        -- the separator behind `q` would be one of `t`
        simp only [cons_append, List.cons.injEq] at hrest
        exact absurd (hrest.2 ▸ by simp) ht
    · cases bs with
      | nil => exact .inl ⟨hq, by simpa using hpe.symm⟩
      | cons c bs =>
        simp only [cons_append, List.cons.injEq] at hrest
        exact .inr ⟨hq, bs, by rw [hpe, hrest.1]⟩
  · rintro (⟨hq, rfl⟩ | ⟨hq, rest, rfl⟩)
    · exact ⟨hq, t, rfl⟩
    · exact ⟨hq, rest ++ '/' :: t, by simp⟩

theorem mem_subsects : q ∈ subsects s ↔ q ≠ [] ∧ q = s ∨ Parent q s := by
  induction s using cut_induction with
  | simple s hs =>
    have hno : ¬ Parent q s := by
      rintro ⟨-, _, rfl⟩
      simp at hs
    by_cases hne : s = []
    · subst hne
      simp only [hno, or_false]
      constructor
      · exact fun h => absurd h not_mem_nil
      · rintro ⟨hq, rfl⟩
        exact absurd rfl hq
    · simp only [subsects_simple hs hne, mem_singleton, hno, or_false]
      exact ⟨fun h => ⟨h ▸ hne, h⟩, And.right⟩
  | cut p t ht ih =>
    rw [subsects_append ht, mem_cons, ih, parent_append ht]
    have hne : p ++ '/' :: t ≠ [] := by simp
    refine or_congr_left ⟨fun h => ⟨h ▸ hne, h⟩, And.right⟩

theorem depth_lt_of_parent (h : Parent q s) : ndrxNrChars q '/' < ndrxNrChars s '/' := by
  obtain ⟨-, _, rfl⟩ := h
  simp only [ndrxNrChars, count_append, count_cons_self]
  omega

theorem subsects_depth (s : Str) :
    (subsects s).Pairwise (fun a b => ndrxNrChars b '/' < ndrxNrChars a '/') := by
  induction s using cut_induction with
  | simple s hs =>
    by_cases hne : s = []
    · subst hne
      exact List.Pairwise.nil
    · rw [subsects_simple hs hne]
      exact pairwise_singleton _ s
  | cut p t ht ih =>
    rw [subsects_append ht]
    refine pairwise_cons.mpr ⟨?_, ih⟩
    intro q hq
    refine depth_lt_of_parent ((parent_append ht).mpr ?_)
    exact mem_subsects.mp hq

def Cfg.found (cfg : Cfg) (l : Line) : HEntry := ⟨l.name, l.sect, l.name, cfg.envSubs l.value⟩

def depth (e : HEntry) : ℕ := ndrxNrChars e.kv.sect '/'

def Cfg.allOf (cfg : Cfg) (sect : Str) : List HEntry :=
  cfg.files.flatMap (fun lines => (cfg.linesOf sect lines).map cfg.found)

theorem resolveVal_entry (out : List HEntry) (l : Line) :
    resolveVal F out (cfg.entry l) = put F depth out (cfg.found l) := by
  rw [resolveVal, put]
  cases h : F.find out (cfg.entry l).kv.key with
  | none => rw [show F.find out (cfg.found l).hkey = none from h]; rfl
  | some b => rw [show F.find out (cfg.found l).hkey = some b from h]; rfl

theorem inicfgResolve_eq (sect : Str) (out : List HEntry) :
    inicfgResolve F cfg sect out = (cfg.allOf sect).foldl (put F depth) out := by
  rw [inicfgResolve, Cfg.allOf, foldl_flatMap]
  congr 1
  funext out lines
  rw [sectionValues_load, foldl_map, foldl_map]
  simp [resolveVal_entry]

def tagsOf (cctag : Option Str) : List Str := (cctag.map (Text.tokens '/')).getD []

def visited (cctag : Option Str) (s : Str) : List Str :=
  if cctag = none ∨ cctag = some ['/'] then subsects s
  else (tagsOf cctag).flatMap (fun t => (s ++ '/' :: t) :: subsects s)

theorem ndrxInicfgGetSubsectInt_eq (s : Str) (out : List HEntry) :
    ndrxInicfgGetSubsectInt F cfg s out =
      ((subsects s).flatMap cfg.allOf).foldl (put F depth) out := by
  rw [ndrxInicfgGetSubsectInt, subsectLoop_eq, foldl_flatMap]
  simp only [inicfgResolve_eq]
  rfl

theorem ndrxCconfigGetCf_eq (cctag : Option Str) (s : Str) (out : List HEntry) :
    ndrxCconfigGetCf F cfg cctag s out =
      ((visited cctag s).flatMap cfg.allOf).foldl (put F depth) out := by
  rw [visited]
  cases cctag with
  | none => exact ndrxInicfgGetSubsectInt_eq s out
  | some cctag =>
    rw [ndrxCconfigGetCf]
    by_cases hc : cctag = ['/']
    · simpa [hc] using ndrxInicfgGetSubsectInt_eq s out
    · simp only [hc, if_false, reduceCtorEq, Option.some.injEq, or_self]
      rw [flatMap_assoc, foldl_flatMap]
      refine foldl_ext _ _ out ?_
      intro out t ht
      rw [ndrxInicfgGetSubsectInt_eq, subsects_append (Text.not_mem_of_mem_tokens ht)]

def Cfg.gives (cfg : Cfg) (sect key : Str) (l : Line) : Bool :=
  cfg.needed l.sect && l.sect = sect && l.name = key

def Cfg.Defines (cfg : Cfg) (sect key : Str) : Prop :=
  ∃ lines ∈ cfg.files, ∃ l ∈ lines, cfg.gives sect key l

instance (sect key : Str) : Decidable (cfg.Defines sect key) :=
  inferInstanceAs (Decidable (∃ lines ∈ cfg.files, ∃ l ∈ lines, cfg.gives sect key l))

def Cfg.defs (cfg : Cfg) (sect key : Str) : List HEntry :=
  cfg.files.flatMap (fun lines => (lines.filter (cfg.gives sect key)).map cfg.found)

theorem entriesOf_allOf (sect key : Str) :
    entriesOf HEntry.hkey key (cfg.allOf sect) = cfg.defs sect key := by
  rw [entriesOf, Cfg.allOf, filter_flatMap]
  congr 1
  funext lines
  rw [filter_map, Cfg.linesOf, filter_filter]
  congr 2
  funext l
  rw [Bool.and_comm]
  rfl

variable {sect key : Str} {e : HEntry}

theorem mem_defs :
    e ∈ cfg.defs sect key ↔ ∃ lines ∈ cfg.files, ∃ l ∈ lines, cfg.gives sect key l ∧ e = cfg.found l := by
  simp only [Cfg.defs, mem_flatMap, mem_map, mem_filter, and_assoc, eq_comm]

theorem Cfg.of_gives {l : Line} (h : cfg.gives sect key l) : l.sect = sect ∧ l.name = key := by
  simp only [Cfg.gives, Bool.and_eq_true, decide_eq_true_eq] at h
  exact ⟨h.1.2, h.2⟩

theorem depth_of_mem_defs (h : e ∈ cfg.defs sect key) : depth e = ndrxNrChars sect '/' := by
  obtain ⟨_, -, l, -, hg, rfl⟩ := mem_defs.mp h
  simp [depth, Cfg.found, Cfg.of_gives hg]

theorem defines_iff : cfg.Defines sect key ↔ ∃ e, e ∈ cfg.defs sect key := by
  constructor
  · rintro ⟨lines, hlines, l, hl, hg⟩
    exact ⟨cfg.found l, mem_defs.mpr ⟨lines, hlines, l, hl, hg, rfl⟩⟩
  · rintro ⟨_, he⟩
    obtain ⟨lines, hlines, l, hl, hg, -⟩ := mem_defs.mp he
    exact ⟨lines, hlines, l, hl, hg⟩

theorem Cfg.Defines.head (h : cfg.Defines sect key) : ∃ e, (cfg.defs sect key).head? = some e := by
  obtain ⟨_, he⟩ := defines_iff.mp h
  exact ⟨_, head?_eq_some_head (ne_nil_of_mem he)⟩

theorem head_entriesOf (key : Str) (sects : List Str) :
    (entriesOf HEntry.hkey key (sects.flatMap cfg.allOf)).head? =
      (sects.find? (cfg.Defines · key)).bind (fun sect => (cfg.defs sect key).head?) := by
  induction sects with
  | nil => rfl
  | cons sect _ ih =>
    rw [flatMap_cons, entriesOf_append, entriesOf_allOf, head?_append, ih]
    by_cases hd : cfg.Defines sect key
    · obtain ⟨_, he⟩ := hd.head
      simp [hd, he]
    · have hnil : cfg.defs sect key = [] := by
        rw [eq_nil_iff_forall_not_mem]
        exact fun e he => hd (defines_iff.mpr ⟨e, he⟩)
      simp [hd, hnil]

def FirstDeepest (cfg : Cfg) (sects : List Str) (key : Str) : Prop :=
  ∀ first, sects.find? (cfg.Defines · key) = some first →
    ∀ sect ∈ sects, cfg.Defines sect key → ndrxNrChars sect '/' ≤ ndrxNrChars first '/'

theorem firstHighest_iff (key : Str) (sects : List Str) :
    FirstHighest HEntry.hkey depth key (sects.flatMap cfg.allOf) ↔ FirstDeepest cfg sects key := by
  have hmem (e : HEntry) : e ∈ entriesOf HEntry.hkey key (sects.flatMap cfg.allOf) ↔
      ∃ sect ∈ sects, e ∈ cfg.defs sect key := by
    simp only [← entriesOf_allOf, mem_entriesOf, mem_flatMap]
    tauto
  rw [FirstHighest, head_entriesOf]
  constructor
  · intro h first hfirst sect hsect hd
    have hdf : cfg.Defines first key := by simpa using find?_some hfirst
    obtain ⟨b, hb⟩ := hdf.head
    obtain ⟨e, he⟩ := defines_iff.mp hd
    have hle := h b (by rw [hfirst]; exact hb) e ((hmem e).mpr ⟨sect, hsect, he⟩)
    rwa [depth_of_mem_defs he, depth_of_mem_defs (mem_of_head? hb)] at hle
  · intro h b hb e he
    obtain ⟨first, hfirst, hhead⟩ := Option.bind_eq_some_iff.mp hb
    obtain ⟨sect, hsect, hes⟩ := (hmem e).mp he
    rw [depth_of_mem_defs hes, depth_of_mem_defs (mem_of_head? hhead)]
    exact h first hfirst sect hsect (defines_iff.mpr ⟨e, hes⟩)

def ranked (cctag : Option Str) (s : Str) : List Str :=
  (tagsOf cctag).map (fun t => s ++ '/' :: t) ++ subsects s

/-- A tag other than the first one does not override what `s` or a section above it says. -/
def NoOverride (cfg : Cfg) (tags : List Str) (s key : Str) : Prop :=
  (∃ t ∈ tags, cfg.Defines (s ++ '/' :: t) key) → (∃ q ∈ subsects s, cfg.Defines q key) →
    ∃ t, tags.head? = some t ∧ cfg.Defines (s ++ '/' :: t) key

variable {cctag : Option Str}

theorem not_slash_of_mem_tagsOf (h : t ∈ tagsOf cctag) : '/' ∉ t := by
  cases cctag with
  | none => exact absurd h not_mem_nil
  | some => exact Text.not_mem_of_mem_tokens h

theorem depth_tagged (h : t ∈ tagsOf cctag) (s : Str) :
    ndrxNrChars (s ++ '/' :: t) '/' = ndrxNrChars s '/' + 1 := by
  have ht : t.count '/' = 0 := count_eq_zero.mpr (not_slash_of_mem_tagsOf h)
  simp [ndrxNrChars, ht]

theorem depth_le_of_mem_subsects (h : q ∈ subsects s) : ndrxNrChars q '/' ≤ ndrxNrChars s '/' := by
  rcases mem_subsects.mp h with ⟨-, rfl⟩ | hp
  · exact Nat.le_refl _
  · exact (depth_lt_of_parent hp).le

theorem ranked_depth (cctag : Option Str) (s : Str) :
    (ranked cctag s).Pairwise (fun a b => ndrxNrChars b '/' ≤ ndrxNrChars a '/') := by
  refine pairwise_append.mpr ⟨?_, (subsects_depth s).imp Nat.le_of_lt, ?_⟩
  · refine pairwise_map.mpr (pairwise_of_forall_mem_list ?_)
    intro t ht t' ht'
    rw [depth_tagged ht, depth_tagged ht']
  · intro a ha q hq
    obtain ⟨_, ht, rfl⟩ := mem_map.mp ha
    rw [depth_tagged ht]
    exact Nat.le_succ_of_le (depth_le_of_mem_subsects hq)

theorem find_pairwise {α : Type} {R : α → α → Prop} {p : α → Bool} {l : List α} {a b : α}
    (hl : l.Pairwise R) (ha : l.find? p = some a) (hb : b ∈ l) (hpb : p b) : b = a ∨ R a b := by
  obtain ⟨-, _, _, rfl, hpre⟩ := find?_eq_some_iff_append.mp ha
  rcases mem_append.mp hb with hb | hb
  · have := hpre b hb
    simp [hpb] at this
  · rcases mem_cons.mp hb with hb | hb
    · exact .inl hb
    · exact .inr ((pairwise_cons.mp (pairwise_append.mp hl).2.1).1 b hb)

section

variable {α β : Type} {p : β → Bool} {f : α → β} {sub : List β}

theorem find_interleaved_tags (hsub : ∀ q ∈ sub, ¬ p q) (l : List α) :
    (l.flatMap (fun t => f t :: sub)).find? p = (l.map f ++ sub).find? p := by
  have hnone : sub.find? p = none := find?_eq_none.mpr hsub
  induction l with
  | nil => exact hnone.symm
  | cons t l ih =>
    rw [flatMap_cons, cons_append, find?_cons, find?_append, hnone, ih]
    rfl

theorem find_interleaved_sub {l : List α} (hne : l ≠ []) (htag : ∀ t ∈ l, ¬ p (f t)) :
    (l.flatMap (fun t => f t :: sub)).find? p = (l.map f ++ sub).find? p := by
  by_cases hsub : ∀ q ∈ sub, ¬ p q
  · exact find_interleaved_tags hsub l
  obtain ⟨q, hq⟩ : ∃ q, sub.find? p = some q := by
    rw [← Option.isSome_iff_exists]
    simpa using hsub
  have hmap : (l.map f).find? p = none := by
    rw [find?_eq_none]
    intro x hx
    obtain ⟨t, ht, rfl⟩ := mem_map.mp hx
    exact htag t ht
  cases l with
  | nil => exact absurd rfl hne
  | cons t =>
    have ht : p (f t) = false := by simpa using htag t mem_cons_self
    rw [flatMap_cons, find?_append, find?_cons, ht, find?_append, hmap, hq]
    rfl

end

variable {tags : List Str}

theorem find_visited (hne : tags ≠ []) (h : NoOverride cfg tags s key) :
    (tags.flatMap (fun t => (s ++ '/' :: t) :: subsects s)).find? (cfg.Defines · key) =
      (tags.map (fun t => s ++ '/' :: t) ++ subsects s).find? (cfg.Defines · key) := by
  by_cases htag : ∃ t ∈ tags, cfg.Defines (s ++ '/' :: t) key
  · by_cases hsub : ∃ q ∈ subsects s, cfg.Defines q key
    · obtain ⟨t, hhead, ht⟩ := h htag hsub
      obtain ⟨ts, rfl⟩ : ∃ ts, tags = t :: ts := head?_eq_some_iff.mp hhead
      simp [ht]
    · exact find_interleaved_tags (fun q hq hd => hsub ⟨q, hq, by simpa using hd⟩) tags
  · exact find_interleaved_sub hne (fun t ht hd => htag ⟨t, ht, by simpa using hd⟩)

def Looked (cctag : Option Str) : Prop :=
  cctag = none ∨ cctag = some ['/'] ∨ tagsOf cctag ≠ []

theorem tagsOf_slash : tagsOf (some ['/']) = [] := by decide

theorem mem_visited (h : Looked cctag) : q ∈ visited cctag s ↔ q ∈ ranked cctag s := by
  rw [visited, ranked]
  by_cases hc : cctag = none ∨ cctag = some ['/']
  · rw [if_pos hc]
    rcases hc with rfl | rfl
    · simp [tagsOf]
    · simp [tagsOf_slash]
  have hne : tagsOf cctag ≠ [] := (h.resolve_left (hc ∘ .inl)).resolve_left (hc ∘ .inr)
  rw [if_neg hc]
  simp only [mem_flatMap, mem_cons, mem_append, mem_map]
  constructor
  · rintro ⟨t, ht, rfl | hq⟩
    · exact .inl ⟨t, ht, rfl⟩
    · exact .inr hq
  · rintro (⟨t, ht, rfl⟩ | hq)
    · exact ⟨t, ht, .inl rfl⟩
    · obtain ⟨t, ht⟩ := exists_mem_of_ne_nil _ hne
      exact ⟨t, ht, .inr hq⟩

theorem find_ranked (h : Looked cctag) (hno : NoOverride cfg (tagsOf cctag) s key) :
    (visited cctag s).find? (cfg.Defines · key) = (ranked cctag s).find? (cfg.Defines · key) := by
  rw [visited, ranked]
  by_cases hc : cctag = none ∨ cctag = some ['/']
  · rw [if_pos hc]
    rcases hc with rfl | rfl
    · rfl
    · rw [tagsOf_slash]
      rfl
  · rw [if_neg hc]
    exact find_visited ((h.resolve_left (hc ∘ .inl)).resolve_left (hc ∘ .inr)) hno

/-- The first section visited that has the key is a deepest one just when no tag overrides it. -/
theorem firstDeepest_iff (h : Looked cctag) :
    FirstDeepest cfg (visited cctag s) key ↔ NoOverride cfg (tagsOf cctag) s key := by
  constructor
  · rintro hdeep ⟨t, ht, hdt⟩ ⟨q, hq, hdq⟩
    by_contra hno
    have hc : ¬ (cctag = none ∨ cctag = some ['/']) := by
      rintro (rfl | rfl)
      · exact absurd ht not_mem_nil
      · rw [tagsOf_slash] at ht
        exact absurd ht not_mem_nil
    obtain ⟨t0, _, htags⟩ := exists_cons_of_ne_nil (ne_nil_of_mem ht)
    have ht0 : ¬ cfg.Defines (s ++ '/' :: t0) key := fun hd => hno ⟨t0, by rw [htags]; rfl, hd⟩
    -- the first tag does not define the key, so a section without a tag comes first
    obtain ⟨first, hfirst⟩ : ∃ first, (subsects s).find? (cfg.Defines · key) = some first := by
      rw [← Option.isSome_iff_exists, find?_isSome]
      exact ⟨q, hq, by simpa using hdq⟩
    have hvisit : (visited cctag s).find? (cfg.Defines · key) = some first := by
      rw [visited, if_neg hc, htags]
      simp [ht0, hfirst]
    have hin : s ++ '/' :: t ∈ visited cctag s :=
      (mem_visited h).mpr (mem_append_left _ (mem_map_of_mem ht))
    have hle := hdeep first hvisit _ hin hdt
    have hlow := depth_le_of_mem_subsects (mem_of_find?_eq_some hfirst)
    rw [depth_tagged ht] at hle
    omega
  · intro hno first hfirst sect hsect hd
    rw [find_ranked h hno] at hfirst
    rcases find_pairwise (ranked_depth cctag s) hfirst ((mem_visited h).mp hsect)
      (by simpa using hd) with rfl | hle
    · exact Nat.le_refl _
    · exact hle

/-- A line that gives a key a value, with the place of its tag, its file and itself; the sections
without a tag have the place 0. -/
structure Cand where
  sect : Str
  tag : ℕ
  file : ℕ
  line : ℕ
  val : Str

structure Cand.Of (cfg : Cfg) (tags : List Str) (s key : Str) (c : Cand) : Prop where
  applies : (∃ t, tags[c.tag]? = some t ∧ c.sect = s ++ '/' :: t) ∨
    c.tag = 0 ∧ (c.sect = s ∨ Parent c.sect s)
  defined : ∃ lines l, cfg.files[c.file]? = some lines ∧ lines[c.line]? = some l ∧
    cfg.gives c.sect key l ∧ c.val = cfg.envSubs l.value

def Cand.Precedes (c c' : Cand) : Prop :=
  ndrxNrChars c'.sect '/' < ndrxNrChars c.sect '/' ∨
  ndrxNrChars c'.sect '/' = ndrxNrChars c.sect '/' ∧ (c.tag < c'.tag ∨
    c.tag = c'.tag ∧ (c.file < c'.file ∨ c.file = c'.file ∧ c.line ≤ c'.line))

def MostSpecific (cfg : Cfg) (tags : List Str) (s : Str) (out : List HEntry) : Prop :=
  ∀ key,
    (∀ c : Cand, ¬ c.Of cfg tags s key) ∧ entriesOf HEntry.hkey key out = [] ∨
    ∃ (c : Cand) (e : HEntry), c.Of cfg tags s key ∧
      (∀ c' : Cand, c'.Of cfg tags s key → c.Precedes c') ∧
      entriesOf HEntry.hkey key out = [e] ∧ e.kv = ⟨c.sect, key, c.val⟩

theorem first_line (h : (cfg.defs sect key).head? = some e) :
    ∃ (f n : ℕ) (lines : List Line) (l : Line), cfg.files[f]? = some lines ∧
      lines[n]? = some l ∧ cfg.gives sect key l ∧ e = cfg.found l ∧
      ∀ (f' n' : ℕ) (lines' : List Line) (l' : Line), cfg.files[f']? = some lines' →
        lines'[n']? = some l' → cfg.gives sect key l' → f < f' ∨ f = f' ∧ n ≤ n' := by
  have hhead : (cfg.defs sect key).head? =
      cfg.files.findSome? (fun lines => (lines.find? (cfg.gives sect key)).map cfg.found) := by
    rw [Cfg.defs, head?_flatMap]
    congr 1
    funext lines
    rw [head?_map, head?_filter]
  rw [hhead, findSome?_eq_some_iff] at h
  obtain ⟨pre, lines, _, hfiles, hlines, hpre⟩ := h
  obtain ⟨l, hl, rfl⟩ := Option.map_eq_some_iff.mp hlines
  obtain ⟨hg, pre', _, hsplit, hpre'⟩ := find?_eq_some_iff_append.mp hl
  refine ⟨pre.length, pre'.length, lines, l, by simp [hfiles], by simp [hsplit], hg, rfl, ?_⟩
  intro f' n' lines' l' hf' hn' hg'
  rcases Nat.lt_trichotomy f' pre.length with hlt | rfl | hgt
  · -- an earlier file has no such line
    rw [hfiles, getElem?_append_left hlt] at hf'
    have hnone := hpre lines' (mem_of_getElem? hf')
    rw [Option.map_eq_none_iff, find?_eq_none] at hnone
    exact absurd hg' (hnone l' (mem_of_getElem? hn'))
  · right
    refine ⟨rfl, ?_⟩
    have hsame : lines' = lines := by simpa [hfiles] using hf'.symm
    by_contra hlt
    rw [hsame, hsplit, getElem?_append_left (by omega)] at hn'
    have := hpre' l' (mem_of_getElem? hn')
    simp [hg'] at this
  · exact .inl hgt

theorem defines_of_cand {c : Cand} (h : c.Of cfg tags s key) : cfg.Defines c.sect key := by
  obtain ⟨lines, l, hlines, hl, hg, -⟩ := h.defined
  exact ⟨lines, mem_of_getElem? hlines, l, mem_of_getElem? hl, hg⟩

theorem mem_subsects_of_ne (hs : s ≠ []) : q ∈ subsects s ↔ q = s ∨ Parent q s := by
  rw [mem_subsects]
  exact or_congr_left ⟨And.right, fun h => ⟨h ▸ hs, h⟩⟩

theorem mem_ranked_of_cand {c : Cand} (hs : s ≠ [])
    (h : c.Of cfg (tagsOf cctag) s key) : c.sect ∈ ranked cctag s := by
  rcases h.applies with ⟨_, ht, hsect⟩ | ⟨-, hsect⟩
  · rw [hsect]
    exact mem_append_left _ (mem_map_of_mem (mem_of_getElem? ht))
  · exact mem_append_right _ ((mem_subsects_of_ne hs).mpr hsect)

/-- The first hit in the ranking precedes every other candidate. -/
theorem cand_of_ranked (hs : s ≠ [])
    (hfirst : (ranked cctag s).find? (cfg.Defines · key) = some sect)
    (he : (cfg.defs sect key).head? = some e) :
    ∃ c : Cand, c.Of cfg (tagsOf cctag) s key ∧
      (∀ c' : Cand, c'.Of cfg (tagsOf cctag) s key → c.Precedes c') ∧
      e.kv = ⟨c.sect, key, c.val⟩ := by
  obtain ⟨f, n, lines, l, hlines, hl, hg, rfl, hmin⟩ := first_line he
  have hkv : (cfg.found l).kv = ⟨sect, key, cfg.envSubs l.value⟩ := by
    simp [Cfg.found, Cfg.of_gives hg]
  have hsame (c' : Cand) (hc' : c'.Of cfg (tagsOf cctag) s key) (hsect : c'.sect = sect) :
      f < c'.file ∨ f = c'.file ∧ n ≤ c'.line := by
    obtain ⟨_, _, hf', hn', hg', -⟩ := hc'.defined
    exact hmin _ _ _ _ hf' hn' (hsect ▸ hg')
  rw [ranked, find?_append] at hfirst
  cases htag : ((tagsOf cctag).map (fun t => s ++ '/' :: t)).find? (cfg.Defines · key) with
  | some =>
    -- a section with a tag: the first tag that defines the key
    rw [htag, Option.some_or, Option.some.injEq] at hfirst
    subst hfirst
    rw [find?_map, Option.map_eq_some_iff] at htag
    obtain ⟨t, ht, rfl⟩ := htag
    obtain ⟨-, pre, _, htags, hpre⟩ := find?_eq_some_iff_append.mp ht
    have htmem : t ∈ tagsOf cctag := htags ▸ by simp
    refine ⟨⟨s ++ '/' :: t, pre.length, f, n, cfg.envSubs l.value⟩,
      ⟨.inl ⟨t, by simp [htags], rfl⟩, lines, l, hlines, hl, hg, rfl⟩, ?_, hkv⟩
    intro c' hc'
    rcases hc'.applies with ⟨t', ht', hsect'⟩ | ⟨-, hsect'⟩
    · right
      rw [hsect', depth_tagged (mem_of_getElem? ht'), depth_tagged htmem]
      refine ⟨rfl, ?_⟩
      rcases Nat.lt_trichotomy c'.tag pre.length with hlt | heq | hgt
      · rw [htags, getElem?_append_left hlt] at ht'
        have hd := hpre t' (mem_of_getElem? ht')
        have hdef := defines_of_cand hc'
        rw [hsect'] at hdef
        simp [hdef] at hd
      · have htt : t' = t := by simpa [htags, heq] using ht'.symm
        exact .inr ⟨heq.symm, hsame c' hc' (htt ▸ hsect')⟩
      · exact .inl hgt
    · left
      have hle := depth_le_of_mem_subsects ((mem_subsects_of_ne hs).mpr hsect')
      rw [depth_tagged htmem]
      exact Nat.lt_succ_of_le hle
  | none =>
    rw [htag] at hfirst
    have hsect := (mem_subsects_of_ne hs).mp (mem_of_find?_eq_some hfirst)
    refine ⟨⟨sect, 0, f, n, cfg.envSubs l.value⟩,
      ⟨.inr ⟨rfl, hsect⟩, lines, l, hlines, hl, hg, rfl⟩, ?_, hkv⟩
    intro c' hc'
    have hdef := defines_of_cand hc'
    rcases hc'.applies with ⟨_, ht', hsect'⟩ | ⟨hzero, hsect'⟩
    · have hmem := mem_map_of_mem (f := fun t => s ++ '/' :: t) (mem_of_getElem? ht')
      have hd := find?_eq_none.mp htag _ hmem
      rw [hsect'] at hdef
      simp [hdef] at hd
    rcases find_pairwise (subsects_depth s) hfirst ((mem_subsects_of_ne hs).mpr hsect')
      (by simpa using hdef) with heq | hlt
    · right
      rw [heq]
      exact ⟨rfl, .inr ⟨hzero.symm, hsame c' hc' heq⟩⟩
    · exact .inl hlt

theorem exists_cand (tags : List Str) (hs : s ≠ []) (hq : q ∈ subsects s)
    (hd : cfg.Defines q key) : ∃ c : Cand, c.Of cfg tags s key := by
  obtain ⟨lines, hlines, l, hl, hg⟩ := hd
  obtain ⟨f, hf⟩ := mem_iff_getElem?.mp hlines
  obtain ⟨n, hn⟩ := mem_iff_getElem?.mp hl
  exact ⟨⟨q, 0, f, n, cfg.envSubs l.value⟩, .inr ⟨rfl, (mem_subsects_of_ne hs).mp hq⟩,
    lines, l, hf, hn, hg, rfl⟩

theorem MostSpecific.single {out : List HEntry} (h : MostSpecific cfg tags s out) (key : Str) :
    (entriesOf HEntry.hkey key out).length ≤ 1 := by
  rcases h key with ⟨-, hnil⟩ | ⟨_, _, -, -, hone, -⟩
  · simp [hnil]
  · simp [hone]

theorem mostSpecific_of_ranked {out : List HEntry} (hs : s ≠ [])
    (hsingle : (entriesOf HEntry.hkey key out).length ≤ 1)
    (hhead : (entriesOf HEntry.hkey key out).head? =
      ((ranked cctag s).find? (cfg.Defines · key)).bind (fun sect => (cfg.defs sect key).head?)) :
    (∀ c : Cand, ¬ c.Of cfg (tagsOf cctag) s key) ∧ entriesOf HEntry.hkey key out = [] ∨
    ∃ (c : Cand) (e : HEntry), c.Of cfg (tagsOf cctag) s key ∧
      (∀ c' : Cand, c'.Of cfg (tagsOf cctag) s key → c.Precedes c') ∧
      entriesOf HEntry.hkey key out = [e] ∧ e.kv = ⟨c.sect, key, c.val⟩ := by
  cases hfirst : (ranked cctag s).find? (cfg.Defines · key) with
  | none =>
    rw [hfirst, Option.bind_none, head?_eq_none_iff] at hhead
    refine .inl ⟨?_, hhead⟩
    intro c hc
    have hno := find?_eq_none.mp hfirst c.sect (mem_ranked_of_cand hs hc)
    exact hno (by simpa using defines_of_cand hc)
  | some sect =>
    have hd : cfg.Defines sect key := by simpa using find?_some hfirst
    obtain ⟨e, he⟩ := hd.head
    rw [hfirst, Option.bind_some, he] at hhead
    obtain ⟨es, hes⟩ := head?_eq_some_iff.mp hhead
    have hnil : es = [] := by
      rw [hes] at hsingle
      simpa using hsingle
    obtain ⟨c, hc, hbest, hkv⟩ := cand_of_ranked hs hfirst he
    exact .inr ⟨c, e, hc, hbest, by rw [hes, hnil], hkv⟩

/-- A lookup gives every key its one most specific value iff it looks at anything at all where
there is something, and no tag but the first one overrides a section without a tag. -/
theorem most_specific_iff (F : Finder HEntry.hkey) (cfg : Cfg) (cctag : Option Str) (s : Str)
    (hs : s ≠ []) :
    MostSpecific cfg (tagsOf cctag) s (ndrxCconfigGetCf F cfg cctag s []) ↔
      (Looked cctag ∨ ∀ key, ∀ q ∈ subsects s, ¬ cfg.Defines q key) ∧
      ∀ key, NoOverride cfg (tagsOf cctag) s key := by
  rw [ndrxCconfigGetCf_eq]
  by_cases hlook : Looked cctag
  · have hstate (key : Str) : KeyState HEntry.hkey depth key ((visited cctag s).flatMap cfg.allOf)
        (((visited cctag s).flatMap cfg.allOf).foldl (put F depth) []) :=
      keyState_foldl_put key _
    simp only [hlook, true_or, true_and]
    constructor
    · intro hm key
      rw [← firstDeepest_iff hlook, ← firstHighest_iff, ← (hstate key).single]
      exact hm.single key
    · intro hno key
      refine mostSpecific_of_ranked hs ?_ ?_
      · rw [(hstate key).single, firstHighest_iff, firstDeepest_iff hlook]
        exact hno key
      · rw [(hstate key).head, head_entriesOf, find_ranked hlook (hno key)]
  · -- CCTAG is set but has no tag: nothing is looked up
    have htags : tagsOf cctag = [] := by
      by_contra hne
      exact hlook (.inr (.inr hne))
    have hc : ¬ (cctag = none ∨ cctag = some ['/']) := fun h => hlook (h.imp_right .inl)
    have hvis : visited cctag s = [] := by rw [visited, if_neg hc, htags]; rfl
    have hno (key : Str) : NoOverride cfg (tagsOf cctag) s key := by
      rintro ⟨_, ht, -⟩
      rw [htags] at ht
      exact absurd ht not_mem_nil
    simp only [hlook, false_or, hno, implies_true, and_true, hvis]
    constructor
    · intro hm key q hq hd
      obtain ⟨c, hcand⟩ := exists_cand (tagsOf cctag) hs hq hd
      rcases hm key with ⟨hnone, -⟩ | ⟨-, _, -, -, hone, -⟩
      · exact hnone c hcand
      · simp [entriesOf] at hone
    · intro hnone key
      refine .inl ⟨?_, rfl⟩
      intro c hcand
      have hmem := mem_ranked_of_cand hs hcand
      rw [ranked, htags] at hmem
      exact hnone key c.sect hmem (defines_of_cand hcand)

def newest : Finder HEntry.hkey where
  find l k := (entriesOf HEntry.hkey k l).getLast?
  of_some _ _ _ h := mem_of_getLast? h
  of_none _ _ h := getLast?_eq_none_iff.mp h

theorem nul_not_mem_k : '\x00' ∉ ['k'] := by decide

def twoLines : Cfg where
  sectionStartWith := none
  envSubs := id
  files := [[⟨"@g".toList, ['k'], ['1'], nul_not_mem_k⟩, ⟨"@g/B".toList, ['k'], ['2'], nul_not_mem_k⟩]]

/-- With the tags `A/B` the key gets two entries; with an empty CCTAG it gets none. -/
theorem override_adds_entry : ¬ MostSpecific twoLines (tagsOf (some "A/B".toList)) "@g".toList
      (ndrxCconfigGetCf newest twoLines (some "A/B".toList) "@g".toList []) ∧
    ¬ MostSpecific twoLines (tagsOf (some [])) "@g".toList
      (ndrxCconfigGetCf newest twoLines (some []) "@g".toList []) := by
  constructor
  · intro h
    have htwo : (entriesOf HEntry.hkey ['k']
        (ndrxCconfigGetCf newest twoLines (some "A/B".toList) "@g".toList [])).length = 2 := by
      decide
    have hle := h.single ['k']
    omega
  · intro h
    have hd : twoLines.Defines "@g".toList ['k'] := by decide
    have hne : "@g".toList ≠ [] := by decide
    have hq : "@g".toList ∈ subsects "@g".toList := by decide
    obtain ⟨c, hc⟩ := exists_cand (tagsOf (some [])) hne hq hd
    rcases h ['k'] with ⟨hnone, -⟩ | ⟨-, _, -, -, hone, -⟩
    · exact hnone c hc
    · cases hone

theorem most_specific_one_tag : MostSpecific twoLines (tagsOf (some ['B'])) "@g".toList
      (ndrxCconfigGetCf newest twoLines (some ['B']) "@g".toList []) := by
  have htags : tagsOf (some ['B']) = [['B']] := by decide
  refine (most_specific_iff newest twoLines (some ['B']) "@g".toList (by decide)).mpr
    ⟨.inl (.inr (.inr (by rw [htags]; simp))), ?_⟩
  rintro key ⟨_, ht, hd⟩ -
  rw [htags, mem_singleton] at ht
  exact ⟨['B'], by rw [htags]; rfl, ht ▸ hd⟩

end Endurox.IniCfg
