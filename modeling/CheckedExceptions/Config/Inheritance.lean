import CheckedExceptions.Config.File
import CheckedExceptions.Config.Snapshot

/-! Configuration files that build on others, and the search for a configuration file. -/

namespace CheckedExceptions

inductive LoadError where
  | cycle (file : Path)
  | unreadable (file : Path)
  | invalid (file : Path) (fault : Json.Fault)
  | noDirectory
deriving DecidableEq, Repr

namespace LoadError

def message : LoadError → String
  | cycle file => "exflow config extends cycle detected at " ++ file.text
  | unreadable file => "failed to read exflow config: " ++ file.text
  | invalid file _ =>
    "failed to parse exflow config: " ++ file.text ++ ": " ++ ConfigFile.parseFailure
  | noDirectory => "exflow config has no parent directory"

end LoadError

namespace ConfigFile

/-- The path of the file that `target` names from within the file at `p`. A name without an extension
is one of a JSON file. -/
def basePath? (p : Path) (target : String) : Option Path :=
  p.parent?.map fun directory =>
    directory.join ((Path.ofText target).withDefaultExtension "json")

def unvisited (snap : Snapshot) (visited : List Path) : List Path :=
  snap.files.filter fun file => !visited.contains file.normalize

theorem unvisited_lt {snap : Snapshot} {visited : List Path} {file : Path}
    (mem : file ∈ snap.files) (new : visited.contains file.normalize = false) :
    (unvisited snap (file.normalize :: visited)).length < (unvisited snap visited).length := by
  have sub : unvisited snap (file.normalize :: visited)
      = (unvisited snap visited).filter fun other => other.normalize != file.normalize := by
    simp only [unvisited, List.filter_filter]
    congr 1
    funext other
    rw [List.contains_cons]
    cases eq : other.normalize == file.normalize <;> simp [bne, eq]
  rw [sub]
  refine List.length_filter_lt_length_iff_exists.mpr ⟨file, ?_, by simp⟩
  exact List.mem_filter.mpr ⟨mem, by simpa using new⟩

/-- Loads the file at `p` and those it builds on, down to one that builds on none. No file may be
visited twice. -/
def loadFrom (snap : Snapshot) (visited : List Path) (p : Path) : Except LoadError ConfigFile :=
  match seen : visited.contains (snap.mark p) with
  | true => .error (.cycle (snap.key p))
  | false =>
    match found : snap.read? p with
    | none => .error (.unreadable p)
    | some source =>
      match parse source with
      | .error fault => .error (.invalid p fault)
      | .ok config =>
        match config.base with
        | none => .ok config
        | some target =>
          match basePath? p target with
          | none => .error .noDirectory
          | some base =>
            have _ := unvisited_lt (snap.key_mem found) seen
            (loadFrom snap (snap.mark p :: visited) base).map config.inheriting
termination_by (unvisited snap visited).length

def load (snap : Snapshot) (p : Path) : Except LoadError ConfigFile := loadFrom snap [] p

/-- The configuration file in a directory, or in the nearest directory above that has one. -/
def find? (snap : Snapshot) (directory : Path) : Option Path :=
  (directory.upward.map fun d => d.join (.ofText fileName)).find? snap.isFile

end ConfigFile

end CheckedExceptions
