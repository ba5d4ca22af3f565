/-! Paths of files, as they are written. -/

namespace CheckedExceptions

/-- The text of a path, cut at its slashes. A rooted path starts with a slash, and its segments are
those behind it. Empty segments and dots are kept as they are written. -/
structure Path where
  rooted : Bool
  segments : List String
deriving DecidableEq, Repr

namespace Path

def cut : List Char → List (List Char)
  | [] => [[]]
  | c :: cs =>
    if c = '/' then [] :: cut cs
    else
      match cut cs with
      | [] => [[c]]
      | segment :: rest => (c :: segment) :: rest

def ofText (text : String) : Path :=
  match text.toList with
  | '/' :: cs => ⟨true, (cut cs).map String.ofList⟩
  | cs => ⟨false, (cut cs).map String.ofList⟩

def text (p : Path) : String :=
  (if p.rooted then "/" else "") ++ "/".intercalate p.segments

/-- A segment that leads nowhere. -/
def isBlank (segment : String) : Bool := segment == "" || segment == "."

/-- The path without the segments that lead nowhere. Paths that differ in nothing else are the same.
A dot at the very front of a path that is not rooted stays. -/
def normalize (p : Path) : Path :=
  match p.rooted, p.segments with
  | false, "." :: rest => ⟨false, "." :: rest.filter (!isBlank ·)⟩
  | rooted, segments => ⟨rooted, segments.filter (!isBlank ·)⟩

def trimRight (segments : List String) : List String :=
  (segments.reverse.dropWhile isBlank).reverse

def join (p q : Path) : Path :=
  if q.rooted then q
  else if p.segments.getLast? = some "" then ⟨p.rooted, p.segments.dropLast ++ q.segments⟩
  else ⟨p.rooted, p.segments ++ q.segments⟩

/-- The path without its last segment that leads somewhere. What is left ends in such a segment
again. The root has no parent, and neither has the empty path. A dot at the very front of a path that
is not rooted leads somewhere. -/
def parent? (p : Path) : Option Path :=
  match p.rooted, p.segments with
  | true, segments =>
    match trimRight segments with
    | [] => none
    | trimmed => some ⟨true, trimRight trimmed.dropLast⟩
  | false, [] => none
  | false, first :: rest =>
    match trimRight rest with
    | [] => if first = "" then none else some ⟨false, [""]⟩
    | trimmed => some ⟨false, first :: trimRight trimmed.dropLast⟩

def fileName? (p : Path) : Option String :=
  match (trimRight p.segments).getLast? with
  | some ".." => none
  | name => name

/-- The part of a name behind its last point, unless all in front of it is empty. -/
def extensionOf? (name : String) : Option String :=
  let backwards := name.toList.reverse
  let ending := backwards.takeWhile (· != '.')
  match backwards.dropWhile (· != '.') with
  | _ :: _ :: _ => some (String.ofList ending.reverse)
  | _ => none

/-- A path whose file name has no extension, with the given one. Where there is no file name, nothing
changes. -/
def withDefaultExtension (extension : String) (p : Path) : Path :=
  match p.fileName? with
  | some name =>
    match extensionOf? name with
    | some _ => p
    | none => ⟨p.rooted, (trimRight p.segments).dropLast ++ [name ++ "." ++ extension]⟩
  | none => p

def upwardWithin : Nat → Path → List Path
  | 0, _ => []
  | steps + 1, p =>
    match p.parent? with
    | some parent => p :: upwardWithin steps parent
    | none => [p]

/-- The path and all paths above it. Each has fewer segments than the one before, but for the empty
path at the end. -/
def upward (p : Path) : List Path := upwardWithin (p.segments.length + 1) p

end Path

end CheckedExceptions
