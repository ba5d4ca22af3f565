import CheckedExceptions.Types.Shape

/-! Sets of exception types in which no member covers another. -/

namespace CheckedExceptions

/-- Exception types in order of arrival. A type and its supertype are never both members, as far as
members arrive by `insert`. -/
structure ThrowSet where
  members : List TypeRef
deriving DecidableEq, Repr

namespace ThrowSet

abbrev Subtyping := TypeRef → TypeRef → Bool

def empty : ThrowSet := ⟨[]⟩

def isEmpty (s : ThrowSet) : Bool := s.members.isEmpty

def size (s : ThrowSet) : Nat := s.members.length

def contains (s : ThrowSet) (ty : TypeRef) : Bool := s.members.contains ty

def covers (sub : Subtyping) (s : ThrowSet) (ty : TypeRef) : Bool :=
  s.members.any (sub ty)

def removeCovered (sub : Subtyping) (s : ThrowSet) (handler : TypeRef) : ThrowSet :=
  ⟨s.members.filter fun member => !sub member handler⟩

/-- A type is new to a set if it is one and no member covers it. -/
def admits (sub : Subtyping) (s : ThrowSet) (ty : TypeRef) : Bool :=
  ty.isSome && !s.covers sub ty

/-- Adds a type that is new to the set, in place of the members it covers. -/
def insert (sub : Subtyping) (s : ThrowSet) (ty : TypeRef) : ThrowSet :=
  if s.admits sub ty then ⟨(s.removeCovered sub ty).members ++ [ty]⟩ else s

def insertAll (sub : Subtyping) (s : ThrowSet) (tys : List TypeRef) : ThrowSet :=
  tys.foldl (insert sub) s

def union (sub : Subtyping) (s t : ThrowSet) : ThrowSet := s.insertAll sub t.members

def ofList (sub : Subtyping) (tys : List TypeRef) : ThrowSet := empty.insertAll sub tys

def filter (keep : TypeRef → Bool) (s : ThrowSet) : ThrowSet := ⟨s.members.filter keep⟩

end ThrowSet

end CheckedExceptions
