import Endurox.BaseFirst
import Endurox.BaseText

/-! The common configuration (`libnstd/inicfg.c`, `libnstd/cconfig.c`): ini files in memory, and
the lookup of a section with its subsections for each tag of CCTAG. -/

namespace Endurox.IniCfg

open Base List

abbrev Str := List Char

structure Line where
  sect : Str
  name : Str
  value : Str
  name_terminated : '\x00' ∉ name

structure KeyVal where
  sect : Str
  key : Str
  val : Str
  deriving DecidableEq

structure HEntry where
  hkey : Str
  kv : KeyVal
  deriving DecidableEq

structure Sect where
  sect : Str
  values : List HEntry

structure Cfg where
  sectionStartWith : Option (List Str)
  envSubs : Str → Str
  files : List (List Line)

section

variable (F : Finder HEntry.hkey) (cfg : Cfg)

def Cfg.needed (sect : Str) : Bool :=
  match cfg.sectionStartWith with
  | none => true
  | some starts => starts.any (fun s =>
      s.take (min s.length sect.length) = sect.take (min s.length sect.length))

def cfgSectionGet (sections : List Sect) (sect : Str) : List Sect :=
  if sections.any (fun s => s.sect = sect) then sections else sections ++ [⟨sect, []⟩]

def Cfg.entry (l : Line) : HEntry :=
  ⟨l.name ++ ['\x00'], l.sect, l.name, cfg.envSubs l.value⟩

def addValue (l : Line) (s : Sect) : Sect :=
  match F.find s.values l.name with
  | some _ => s
  | none => { s with values := s.values ++ [cfg.entry l] }

def handler (sections : List Sect) (l : Line) : List Sect :=
  if cfg.needed l.sect then
    (cfgSectionGet sections l.sect).map (fun s => if s.sect = l.sect then addValue F cfg l s else s)
  else sections

def loadSingleFile (lines : List Line) : List Sect := lines.foldl (handler F cfg) []

end

section

variable (F : Finder HEntry.hkey) (cfg : Cfg)

def sectionValues (file : List Sect) (sect : Str) : List HEntry :=
  ((file.find? (fun s => s.sect = sect)).map Sect.values).getD []

def ndrxNrChars (str : Str) (chkchar : Char) : ℕ := str.count chkchar

def keyvalHashAdd (h : List HEntry) (src : KeyVal) : List HEntry := h ++ [⟨src.key, src⟩]

def resolveVal (out : List HEntry) (vals : HEntry) : List HEntry :=
  match F.find out vals.kv.key with
  | none => keyvalHashAdd out vals.kv
  | some existing =>
    if ndrxNrChars vals.kv.sect '/' > ndrxNrChars existing.kv.sect '/' then
      keyvalHashAdd out vals.kv
    else out

def inicfgResolve (sect : Str) (out : List HEntry) : List HEntry :=
  cfg.files.foldl (fun out lines =>
    (sectionValues (loadSingleFile F cfg lines) sect).foldl (resolveVal F) out) out

def cutLast (tmp : Str) : Option Str :=
  match tmp.reverse.dropWhile (· ≠ '/') with
  | [] => none
  | _ :: rest => some rest.reverse

def subsectLoop : ℕ → Str → List HEntry → List HEntry
  | 0, _, out => out
  | fuel+1, tmp, out =>
    if tmp = [] then out
    else
      match cutLast tmp with
      | some p => subsectLoop fuel p (inicfgResolve F cfg tmp out)
      | none => inicfgResolve F cfg tmp out

def ndrxInicfgGetSubsectInt (sect : Str) (out : List HEntry) : List HEntry :=
  subsectLoop F cfg (sect.length+1) sect out

/-- `ndrx_cconfig_get_cf` with the value of `G_cctag`, which is NULL when the variable is not set. -/
def ndrxCconfigGetCf (cctag : Option Str) (sect : Str) (out : List HEntry) : List HEntry :=
  match cctag with
  | none => ndrxInicfgGetSubsectInt F cfg sect out
  | some cctag =>
    if cctag = ['/'] then ndrxInicfgGetSubsectInt F cfg sect out
    else
      (Text.tokens '/' cctag).foldl
        (fun out token => ndrxInicfgGetSubsectInt F cfg (sect ++ '/' :: token) out) out

end

variable {F : Finder HEntry.hkey} {cfg : Cfg}

def Cfg.linesOf (cfg : Cfg) (sect : Str) (lines : List Line) : List Line :=
  lines.filter (fun l => cfg.needed l.sect && l.sect = sect)

theorem sectionValues_get (sections : List Sect) (sect sect' : Str) :
    sectionValues (cfgSectionGet sections sect) sect' = sectionValues sections sect' := by
  rw [cfgSectionGet]
  split
  · rfl
  rw [sectionValues, sectionValues, find?_append]
  cases hf : sections.find? (fun s => s.sect = sect') with
  | some => rfl
  | none =>
    by_cases h : sect = sect'
    · simp [h]
    · simp [h]

theorem find_map_sect {sections : List Sect} {f : Sect → Sect} {sect : Str}
    (hname : ∀ s, (f s).sect = s.sect) :
    (sections.map f).find? (fun s => s.sect = sect) =
      (sections.find? (fun s => s.sect = sect)).map f := by
  have hcomp : ((fun s : Sect => decide (s.sect = sect)) ∘ f) =
      fun s : Sect => decide (s.sect = sect) := by
    funext s
    simp [hname]
  rw [find?_map, hcomp]

theorem cfgSectionGet_has (sections : List Sect) (sect : Str) :
    ∃ s, (cfgSectionGet sections sect).find? (fun s => s.sect = sect) = some s := by
  rw [← Option.isSome_iff_exists, find?_isSome, cfgSectionGet]
  split
  · rename_i hany
    simpa using hany
  · exact ⟨⟨sect, []⟩, by simp, by simp⟩

/-- The look for a duplicate in `handler` finds none: it is without the terminator that all hashed
keys have. -/
theorem addValue_eq {s : Sect} {ls : List Line} (h : s.values = ls.map cfg.entry) (l : Line) :
    addValue F cfg l s = { s with values := s.values ++ [cfg.entry l] } := by
  rw [addValue]
  cases hf : F.find s.values l.name with
  | none => rfl
  | some =>
    obtain ⟨he, hk⟩ := mem_entriesOf.mp (F.of_some _ _ _ hf)
    rw [h] at he
    obtain ⟨_, -, rfl⟩ := mem_map.mp he
    refine absurd ?_ l.name_terminated
    rw [← hk]
    simp [Cfg.entry]

theorem sectionValues_handler {sections : List Sect} {l : Line} {sect : Str} {ls : List Line}
    (h : sectionValues sections sect = ls.map cfg.entry) :
    sectionValues (handler F cfg sections l) sect = (ls ++ cfg.linesOf sect [l]).map cfg.entry := by
  rw [handler]
  by_cases hn : cfg.needed l.sect
  · have hname (s : Sect) : (if s.sect = l.sect then addValue F cfg l s else s).sect = s.sect := by
      split
      · rw [addValue]
        split <;> rfl
      · rfl
    rw [← sectionValues_get sections l.sect] at h
    simp only [hn, if_true]
    rw [sectionValues, find_map_sect hname]
    by_cases hs : l.sect = sect
    · obtain ⟨s, hfind⟩ := cfgSectionGet_has sections l.sect
      have hsect : s.sect = l.sect := by simpa using find?_some hfind
      rw [sectionValues, ← hs, hfind] at h
      have hadd := addValue_eq (F := F) h l
      rw [← hs, hfind]
      simp only [Option.map_some, Option.getD_some, hsect, hadd] at h ⊢
      rw [h]
      simp [Cfg.linesOf, hn]
    · have hkeep : ((cfgSectionGet sections l.sect).find? (fun s => s.sect = sect)).map
          (fun s => if s.sect = l.sect then addValue F cfg l s else s) =
          (cfgSectionGet sections l.sect).find? (fun s => s.sect = sect) := by
        cases hf : (cfgSectionGet sections l.sect).find? (fun s => s.sect = sect) with
        | none => rfl
        | some s =>
          have hsect : s.sect = sect := by simpa using find?_some hf
          have : s.sect ≠ l.sect := fun e => hs (e.symm.trans hsect)
          simp [this]
      rw [hkeep]
      simpa [Cfg.linesOf, hs, sectionValues] using h
  · simpa [Cfg.linesOf, hn] using h

theorem sectionValues_load (lines : List Line) (sect : Str) :
    sectionValues (loadSingleFile F cfg lines) sect = (cfg.linesOf sect lines).map cfg.entry := by
  induction lines using List.reverseRecOn with
  | nil => rfl
  | append_singleton lines l ih =>
    rw [loadSingleFile, foldl_append]
    have hsplit : cfg.linesOf sect (lines ++ [l]) = cfg.linesOf sect lines ++ cfg.linesOf sect [l] :=
      filter_append lines [l]
    rw [hsplit]
    exact sectionValues_handler ih

end Endurox.IniCfg
