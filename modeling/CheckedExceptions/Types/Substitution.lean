import CheckedExceptions.Types.Shape

/-! Finite maps from type parameters to types. -/

namespace CheckedExceptions

/-- Bindings of type parameters, the latest first; a parameter is bound at most once. -/
structure Substitution where
  bindings : List (TypeRef × TypeRef)
deriving Repr

namespace Substitution

def identity : Substitution := ⟨[]⟩

def get? (s : Substitution) (param : TypeRef) : Option TypeRef :=
  s.bindings.lookup param

def insert (s : Substitution) (param arg : TypeRef) : Substitution :=
  ⟨(param, arg) :: s.bindings.filter fun b => b.1 != param⟩

def insertAll (s : Substitution) (pairs : List (TypeRef × TypeRef)) : Substitution :=
  pairs.foldl (fun s b => s.insert b.1 b.2) s

/-- Binds parameters to arguments in order; whatever has no partner is left out. -/
def ofLists (params args : List TypeRef) : Substitution :=
  identity.insertAll (params.zip args)

def isEmpty (s : Substitution) : Bool := s.bindings.isEmpty

def isSubmap (s t : Substitution) : Bool :=
  s.bindings.all fun b => t.get? b.1 == some b.2

/-- Two substitutions are equal when they bind the same parameters to the same types. -/
instance : BEq Substitution where
  beq s t := s.isSubmap t && t.isSubmap s

end Substitution

end CheckedExceptions
