import CheckedExceptions.Config.Inheritance
import Mathlib.Data.List.Nodup

/-! Loading a configuration file follows the chain of files that it builds on until it ends or goes
wrong, and takes each setting from the nearest file that makes it. -/

namespace CheckedExceptions

namespace Snapshot

def contents (snap : Snapshot) (p : Path) : Except LoadError ConfigFile :=
  match snap.read? p with
  | none => .error (.unreadable p)
  | some source =>
    match ConfigFile.parse source with
    | .error fault => .error (.invalid p fault)
    | .ok config => .ok config

/-- The file at the first path builds on the one at the last path, step by step. The links are the
files on the way that build on another, each with what it says. -/
inductive Leads (snap : Snapshot) : Path → List (Path × ConfigFile) → Path → Prop
  | here (p : Path) : Leads snap p [] p
  | step {p next last config target links} : snap.contents p = .ok config →
    config.base = some target → ConfigFile.basePath? p target = some next →
    Leads snap next links last → Leads snap p ((p, config) :: links) last

def marks (snap : Snapshot) (links : List (Path × ConfigFile)) : List Path :=
  links.map fun link => snap.mark link.1

/-- Why loading goes no further than the file at `p`: it has been there, or the file cannot be read
or parsed, or it builds on another file and lies in no directory from which to look for it. -/
inductive Stops (snap : Snapshot) (visited : List Path) (p : Path) : LoadError → Prop
  | cycle : snap.mark p ∈ visited → Stops snap visited p (.cycle (snap.key p))
  | broken {error} : snap.mark p ∉ visited → snap.contents p = .error error →
    Stops snap visited p error
  | stranded {config target} : snap.mark p ∉ visited → snap.contents p = .ok config →
    config.base = some target → p.parent? = none → Stops snap visited p .noDirectory

structure Completes (snap : Snapshot) (visited : List Path) (p : Path) (config : ConfigFile) :
    Prop where
  new : snap.mark p ∉ visited
  contents : snap.contents p = .ok config
  base : config.base = none

variable {snap : Snapshot} {p last : Path} {config : ConfigFile} {error : LoadError}
  {links : List (Path × ConfigFile)} {visited visited' : List Path}

theorem key_mem_of_contents (h : snap.contents p = .ok config) : snap.key p ∈ snap.files := by
  unfold contents at h
  split at h
  · cases h
  · next hread => exact snap.key_mem hread

/-- A chain of different files has no more links than there are files. -/
theorem Leads.length_le (h : snap.Leads p links last) (hnodup : (snap.marks links).Nodup) :
    links.length ≤ snap.files.length := by
  have hsubset : snap.marks links ⊆ snap.files.map Path.normalize := by
    induction h with
    | here => exact List.nil_subset _
    | step hcontents _ _ _ ih =>
      exact List.cons_subset.mpr ⟨List.mem_map_of_mem (key_mem_of_contents hcontents),
        ih (List.nodup_cons.mp hnodup).2⟩
  simpa [marks] using hnodup.length_le_of_subset hsubset

theorem Stops.congr (h : snap.Stops visited p error)
    (hsame : ∀ mark, mark ∈ visited ↔ mark ∈ visited') : snap.Stops visited' p error := by
  cases h with
  | cycle hmem => exact .cycle ((hsame _).mp hmem)
  | broken hnew hcontents => exact .broken (mt (hsame _).mpr hnew) hcontents
  | stranded hnew hcontents hbase hparent =>
    exact .stranded (mt (hsame _).mpr hnew) hcontents hbase hparent

theorem Completes.congr (h : snap.Completes visited p config)
    (hsame : ∀ mark, mark ∈ visited ↔ mark ∈ visited') : snap.Completes visited' p config :=
  ⟨mt (hsame _).mpr h.new, h.contents, h.base⟩

theorem nodup_marks_cons (h : (snap.marks ((p, config) :: links) ++ visited).Nodup) :
    snap.mark p ∉ visited ∧ (snap.marks links ++ snap.mark p :: visited).Nodup := by
  have hcons : (snap.mark p :: (snap.marks links ++ visited)).Nodup := h
  refine ⟨fun hmem => ?_, List.nodup_middle.mpr hcons⟩
  exact (List.nodup_cons.mp hcons).1 (List.mem_append_right _ hmem)

theorem mem_marks_cons {mark : Path} : mark ∈ snap.marks ((p, config) :: links) ++ visited ↔
    mark ∈ snap.marks links ++ snap.mark p :: visited := by
  have hperm : (snap.mark p :: (snap.marks links ++ visited)).Perm
      (snap.marks links ++ snap.mark p :: visited) := List.perm_middle.symm
  exact hperm.mem_iff

end Snapshot

def Settings.flags : List (Settings → Option Bool) :=
  [strict, overloadIntersection, preciseRethrow, permissiveServerPages,
    permissiveMissingFunctionalType]

def Settings.depths : List (Settings → Option Nat) := [maxTreeDepth, maxAscentDepth]

namespace ConfigFile

variable {snap : Snapshot} {p next last : Path} {config result : ConfigFile} {error : LoadError}
  {links : List (Path × ConfigFile)} {visited : List Path} {files : List ConfigFile}

section Nearest

def nearest {α : Type} (key : Settings → Option α) (files : List ConfigFile) : Option α :=
  files.findSome? fun file => file.analysis.bind key

/-- What the first of some files amounts to if each builds on the next one. -/
structure Resolves (files : List ConfigFile) (result : ConfigFile) : Prop where
  base : result.base = none
  analysis : result.analysis = none ↔ ∀ file ∈ files, file.analysis = none
  flags : ∀ key ∈ Settings.flags, result.analysis.bind key = nearest key files
  depths : ∀ key ∈ Settings.depths, result.analysis.bind key = nearest key files

theorem bind_inheriting {α : Type} {key : Settings → Option α}
    (hkey : ∀ own base : Settings, key (own.inheriting base) = (key own).or (key base))
    (hresult : result.analysis.bind key = nearest key files) (config : ConfigFile) :
    (config.inheriting result).analysis.bind key = nearest key (config :: files) := by
  have hover : (settingsOver config.analysis result.analysis).bind key =
      (config.analysis.bind key).or (result.analysis.bind key) := by
    cases config.analysis with
    | none => rfl
    | some own =>
      cases result.analysis with
      | none => exact (Option.or_none ..).symm
      | some base => exact hkey own base
  show (settingsOver config.analysis result.analysis).bind key = _
  rw [hover, hresult, nearest, nearest, List.findSome?_cons]
  cases config.analysis.bind key <;> rfl

theorem Resolves.cons (h : Resolves files result) (config : ConfigFile) :
    Resolves (config :: files) (config.inheriting result) where
  base := rfl
  analysis := by
    rw [List.forall_mem_cons, ← h.analysis]
    show settingsOver config.analysis result.analysis = none ↔ _
    cases config.analysis <;> cases result.analysis <;> simp [settingsOver]
  flags := by
    intro key hkey
    refine bind_inheriting ?_ (h.flags key hkey) config
    simp only [Settings.flags, List.mem_cons, List.not_mem_nil, or_false] at hkey
    rcases hkey with rfl | rfl | rfl | rfl | rfl <;> exact fun _ _ => rfl
  depths := by
    intro key hkey
    refine bind_inheriting ?_ (h.depths key hkey) config
    simp only [Settings.depths, List.mem_cons, List.not_mem_nil, or_false] at hkey
    rcases hkey with rfl | rfl <;> exact fun _ _ => rfl

theorem resolves_singleton (h : config.base = none) : Resolves [config] config where
  base := h
  analysis := by simp
  flags := by
    intro key _
    simp [nearest]
  depths := by
    intro key _
    simp [nearest]

end Nearest

section Step

theorem loadFrom_of_not_mem (h : snap.mark p ∉ visited) : loadFrom snap visited p =
    (snap.contents p).bind fun config =>
      match config.base with
      | none => .ok config
      | some target =>
        match basePath? p target with
        | none => .error .noDirectory
        | some base => (loadFrom snap (snap.mark p :: visited) base).map config.inheriting := by
  rw [loadFrom]
  split
  · next hseen => simp [h] at hseen
  · unfold Snapshot.contents
    split
    · next hread => simp [hread, Except.bind]
    · next source hread =>
      simp only [hread]
      cases parse source with
      | error fault => rfl
      | ok config => rfl

theorem loadFrom_stops (h : snap.Stops visited p error) :
    loadFrom snap visited p = .error error := by
  cases h with
  | cycle hmem =>
    rw [loadFrom]
    split
    · rfl
    · next hnew => simp [hmem] at hnew
  | broken hnew hcontents =>
    rw [loadFrom_of_not_mem hnew, hcontents]
    rfl
  | stranded hnew hcontents hbase hparent =>
    rw [loadFrom_of_not_mem hnew, hcontents]
    simp [Except.bind, hbase, basePath?, hparent]

theorem loadFrom_completes (h : snap.Completes visited p config) :
    loadFrom snap visited p = .ok config := by
  rw [loadFrom_of_not_mem h.new, h.contents]
  simp [Except.bind, h.base]

theorem loadFrom_step {target : String} (hnew : snap.mark p ∉ visited)
    (hcontents : snap.contents p = .ok config) (hbase : config.base = some target)
    (hnext : basePath? p target = some next) : loadFrom snap visited p =
      (loadFrom snap (snap.mark p :: visited) next).map config.inheriting := by
  rw [loadFrom_of_not_mem hnew, hcontents]
  simp [Except.bind, hbase, hnext]

end Step

section Chain

/-- By induction along the chain. What has been visited grows by each link. -/
theorem loadFrom_chain_stops (h : snap.Leads p links last)
    (hnodup : (snap.marks links ++ visited).Nodup)
    (hstops : snap.Stops (snap.marks links ++ visited) last error) :
    loadFrom snap visited p = .error error := by
  induction h generalizing visited with
  | here p => exact loadFrom_stops hstops
  | step hcontents hbase hnext _ ih =>
    obtain ⟨hnew, hrest⟩ := Snapshot.nodup_marks_cons hnodup
    have hfails := ih hrest (hstops.congr fun mark => Snapshot.mem_marks_cons)
    rw [loadFrom_step hnew hcontents hbase hnext, hfails]
    rfl

theorem loadFrom_chain_completes (h : snap.Leads p links last)
    (hnodup : (snap.marks links ++ visited).Nodup)
    (hcompletes : snap.Completes (snap.marks links ++ visited) last config) :
    ∃ result, loadFrom snap visited p = .ok result ∧
      Resolves (links.map Prod.snd ++ [config]) result := by
  induction h generalizing visited with
  | here p => exact ⟨config, loadFrom_completes hcompletes, resolves_singleton hcompletes.base⟩
  | @step p next last own target links hcontents hbase hnext _ ih =>
    obtain ⟨hnew, hrest⟩ := Snapshot.nodup_marks_cons hnodup
    obtain ⟨result, hresult, hresolves⟩ :=
      ih hrest (hcompletes.congr fun mark => Snapshot.mem_marks_cons)
    refine ⟨own.inheriting result, ?_, hresolves.cons own⟩
    rw [loadFrom_step hnew hcontents hbase hnext, hresult]
    rfl

/-- Every chain comes to a file at which loading stops or to one that builds on none. -/
theorem exists_leads_end (snap : Snapshot) (visited : List Path) (p : Path)
    (hvisited : visited.Nodup) :
    ∃ links last, snap.Leads p links last ∧ (snap.marks links ++ visited).Nodup ∧
      ((∃ error, snap.Stops (snap.marks links ++ visited) last error) ∨
        ∃ config, snap.Completes (snap.marks links ++ visited) last config) := by
  induction hcount : (unvisited snap visited).length using Nat.strongRecOn
    generalizing visited p with
  | ind count ih =>
    by_cases hmem : snap.mark p ∈ visited
    · exact ⟨[], p, .here p, hvisited, Or.inl ⟨_, .cycle hmem⟩⟩
    · cases hcontents : snap.contents p with
      | error error => exact ⟨[], p, .here p, hvisited, Or.inl ⟨_, .broken hmem hcontents⟩⟩
      | ok config =>
        cases hbase : config.base with
        | none => exact ⟨[], p, .here p, hvisited, Or.inr ⟨config, hmem, hcontents, hbase⟩⟩
        | some target =>
          cases hnext : basePath? p target with
          | none =>
            have hparent : p.parent? = none := Option.map_eq_none_iff.mp hnext
            exact ⟨[], p, .here p, hvisited, Or.inl ⟨_, .stranded hmem hcontents hbase hparent⟩⟩
          | some next =>
            have hless := unvisited_lt (Snapshot.key_mem_of_contents hcontents)
              (by simpa using hmem : visited.contains (snap.mark p) = false)
            obtain ⟨links, last, hleads, hnodup, hend⟩ := ih _ (hcount ▸ hless)
              (snap.mark p :: visited) next (List.nodup_cons.mpr ⟨hmem, hvisited⟩) rfl
            refine ⟨(p, config) :: links, last, .step hcontents hbase hnext hleads,
              List.nodup_middle.mp hnodup, ?_⟩
            rcases hend with ⟨error, hstops⟩ | ⟨config, hcompletes⟩
            · exact Or.inl ⟨error, hstops.congr fun mark => Snapshot.mem_marks_cons.symm⟩
            · exact Or.inr ⟨config, hcompletes.congr fun mark => Snapshot.mem_marks_cons.symm⟩

end Chain

/-- Loading comes to an end after at most as many links as there are files. Where it stops, it fails
with the cause; otherwise each setting is that of the nearest file on the chain that makes it. -/
theorem load_follows_chain (snap : Snapshot) (start : Path) :
    (∀ links p error, snap.Leads start links p → (snap.marks links).Nodup →
      snap.Stops (snap.marks links) p error → load snap start = .error error) ∧
    (∀ links p config, snap.Leads start links p → (snap.marks links).Nodup →
      snap.Completes (snap.marks links) p config →
      ∃ result, load snap start = .ok result ∧
        Resolves (links.map Prod.snd ++ [config]) result) ∧
    ∃ links p, snap.Leads start links p ∧ (snap.marks links).Nodup ∧
      links.length ≤ snap.files.length ∧
      ((∃ error, snap.Stops (snap.marks links) p error) ∨
        ∃ config, snap.Completes (snap.marks links) p config) := by
  refine ⟨?_, ?_, ?_⟩
  · intro links p error hleads hnodup hstops
    exact loadFrom_chain_stops hleads (by simpa using hnodup) (by simpa using hstops)
  · intro links p config hleads hnodup hcompletes
    exact loadFrom_chain_completes hleads (by simpa using hnodup) (by simpa using hcompletes)
  · obtain ⟨links, p, hleads, hnodup, hend⟩ := exists_leads_end snap [] start List.nodup_nil
    rw [List.append_nil] at hnodup hend
    exact ⟨links, p, hleads, hnodup, hleads.length_le hnodup, hend⟩

/-- Records written as lists of their fields. `exflow.json` builds on `base.json`, which has no
settings, and that on `root.json`; `loop.json` and `self.json` build on themselves, under another
path. The one in `self.json` leads nowhere, as the file is no directory. -/
def layeredTree : FileTree where
  directories := []
  files := [
    (["exflow.json"], "[\"./base\", [null, null, null, null, null, null, 75]]".toUTF8),
    (["base.json"], "[\"lib/root.json\"]".toUTF8),
    (["lib", "root.json"], "[null, [true, null, false, null, null, null, 50]]".toUTF8),
    (["loop.json"], "[\"lib/../loop\"]".toUTF8),
    (["lib", "self.json"], "[\"./self.json/\"]".toUTF8)]

theorem layeredTree_loads :
    load layeredTree.snapshot ⟨true, ["loop.json"]⟩ = .error (.cycle ⟨true, ["loop.json"]⟩) ∧
    load layeredTree.snapshot ⟨true, ["lib", "self.json"]⟩ =
      .error (.cycle ⟨true, ["lib", ".", "self.json", ""]⟩) ∧
    ∃ result, load layeredTree.snapshot ⟨true, ["exflow.json"]⟩ = .ok result ∧
      result.analysis.bind Settings.strict = some true ∧
      result.analysis.bind Settings.maxTreeDepth = none ∧
      result.analysis.bind Settings.maxAscentDepth = some 75 := by
  obtain ⟨hstops, -, -⟩ := load_follows_chain layeredTree.snapshot ⟨true, ["loop.json"]⟩
  obtain ⟨hself, -, -⟩ := load_follows_chain layeredTree.snapshot ⟨true, ["lib", "self.json"]⟩
  obtain ⟨-, hcompletes, -⟩ := load_follows_chain layeredTree.snapshot ⟨true, ["exflow.json"]⟩
  have hloop : layeredTree.snapshot.Leads ⟨true, ["loop.json"]⟩
      [(⟨true, ["loop.json"]⟩, ⟨some "lib/../loop", none⟩)] ⟨true, ["lib", "..", "loop.json"]⟩ :=
    .step rfl rfl rfl (.here _)
  have hnowhere : layeredTree.snapshot.Leads ⟨true, ["lib", "self.json"]⟩
      [(⟨true, ["lib", "self.json"]⟩, ⟨some "./self.json/", none⟩)]
      ⟨true, ["lib", ".", "self.json", ""]⟩ :=
    .step rfl rfl rfl (.here _)
  have hlayers : layeredTree.snapshot.Leads ⟨true, ["exflow.json"]⟩
      [(⟨true, ["exflow.json"]⟩,
          ⟨some "./base", some { Settings.unset with maxAscentDepth := some 75 }⟩),
        (⟨true, [".", "base.json"]⟩, ⟨some "lib/root.json", none⟩)]
      ⟨true, ["lib", "root.json"]⟩ :=
    .step rfl rfl rfl (.step rfl rfl rfl (.here _))
  obtain ⟨result, hresult, hresolves⟩ := hcompletes _ _
    ⟨none, some ⟨some true, none, some false, none, none, none, some 50⟩⟩ hlayers
    (by decide +kernel) ⟨by decide +kernel, rfl, rfl⟩
  refine ⟨hstops _ _ _ hloop (by decide +kernel) (.cycle (by decide +kernel)),
    hself _ _ _ hnowhere (by decide +kernel) (.cycle (by decide +kernel)),
    result, hresult, ?_, ?_, ?_⟩
  · exact hresolves.flags _ List.mem_cons_self
  · exact hresolves.depths _ List.mem_cons_self
  · exact hresolves.depths _ (List.mem_cons_of_mem _ List.mem_cons_self)

end ConfigFile

end CheckedExceptions
