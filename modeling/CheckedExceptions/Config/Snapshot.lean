import CheckedExceptions.Config.Path

/-! What can be read at one time: the files that paths lead to, and their texts. -/

namespace CheckedExceptions

/-- The files within reach, each known by one canonical path among finitely many. -/
structure Snapshot where
  files : List Path
  /-- The canonical form of a path, if it leads somewhere. -/
  canonical? : Path → Option Path
  /-- The text of the file that a path leads to. -/
  read? : Path → Option String
  isFile : Path → Bool
  /-- What can be read is one of the files. -/
  canonical_mem : ∀ p source, read? p = some source → ∃ c ∈ files, canonical? p = some c

namespace Snapshot

/-- The path by which a file is known: the canonical one, or else the path as it is. -/
def key (snap : Snapshot) (p : Path) : Path := (snap.canonical? p).getD p

/-- How it is remembered that a file has been visited. -/
def mark (snap : Snapshot) (p : Path) : Path := (snap.key p).normalize

theorem key_mem (snap : Snapshot) {p : Path} {source : String} (h : snap.read? p = some source) :
    snap.key p ∈ snap.files := by
  obtain ⟨c, mem, eq⟩ := snap.canonical_mem p source h
  simpa [key, eq] using mem

end Snapshot

/-- Directories and files, each named by the way that leads to it from the root. -/
structure FileTree where
  directories : List (List String)
  files : List (List String × ByteArray)

namespace FileTree

/-- A directory is there if it is listed, or if it lies on the way to something that is. -/
def isDirectory (t : FileTree) (way : List String) : Bool :=
  way.isEmpty || t.directories.any way.isPrefixOf
    || t.files.any fun f => way.isPrefixOf f.1 && way.length < f.1.length

def file? (t : FileTree) (way : List String) : Option ByteArray := t.files.lookup way

def isThere (t : FileTree) (way : List String) : Bool :=
  t.isDirectory way || (t.file? way).isSome

/-- Follows segments from a directory. Every segment must start in a directory, and each name must be
there; the way up from the root leads to the root. -/
def follow (t : FileTree) (way : List String) : List String → Option (List String)
  | [] => if t.isThere way then some way else none
  | segment :: rest =>
    if t.isDirectory way then
      if Path.isBlank segment then follow t way rest
      else if segment = ".." then follow t way.dropLast rest
      else follow t (way ++ [segment]) rest
    else none

def resolve? (t : FileTree) (p : Path) : Option (List String) :=
  if p.rooted then t.follow [] p.segments else none

/-- The text of the file that a path leads to, if there is one and it is encoded in UTF-8. -/
def read? (t : FileTree) (p : Path) : Option String :=
  (t.resolve? p).bind fun way => (t.file? way).bind String.fromUTF8?

theorem mem_of_file? {t : FileTree} {way : List String} {bytes : ByteArray}
    (h : t.file? way = some bytes) : way ∈ t.files.map Prod.fst := by
  obtain ⟨before, after, eq, _⟩ := List.lookup_eq_some_iff.mp h
  exact List.mem_map.mpr ⟨(way, bytes), by simp [eq], rfl⟩

def snapshot (t : FileTree) : Snapshot where
  files := t.files.map fun f => ⟨true, f.1⟩
  canonical? := fun p => (t.resolve? p).map (Path.mk true)
  read? := t.read?
  isFile := fun p => (t.resolve? p).any fun way => (t.file? way).isSome
  canonical_mem := by
    intro p source h
    simp only [read?, Option.bind_eq_some_iff] at h
    obtain ⟨way, resolved, bytes, found, _⟩ := h
    obtain ⟨f, mem, rfl⟩ := List.mem_map.mp (mem_of_file? found)
    exact ⟨⟨true, f.1⟩, List.mem_map.mpr ⟨f, mem, rfl⟩, by simp [resolved]⟩

end FileTree

end CheckedExceptions
