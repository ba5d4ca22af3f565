import CheckedExceptions.Types.Naming
import CheckedExceptions.Types.Replacement
import CheckedExceptions.Types.Subtyping

/-! What an exception analysis asks of the types of a program. -/

namespace CheckedExceptions

/-- A type system whose state is a `σ`. Only substitution changes the state. -/
structure TypeSystem (σ : Type) where
  isSubtype : σ → TypeRef → TypeRef → Bool
  substitute : TypeRef → Substitution → StateM σ (Option TypeRef)
  alternatives : σ → TypeRef → List TypeRef
  isArray : σ → TypeRef → Bool
  wellKnown? : σ → WellKnown → Option TypeRef
  nameOf : σ → TypeRef → String

namespace TypeSystem

def ofStore : TypeSystem TypeStore where
  isSubtype := TypeStore.isSubtype
  substitute := TypeStore.substitute
  alternatives := TypeStore.alternatives
  isArray := TypeStore.isArray
  wellKnown? := TypeStore.wellKnown?
  nameOf := TypeStore.nameOf

/-- The same types, with every disjunction taken as one type. -/
def undivided {σ : Type} (types : TypeSystem σ) : TypeSystem σ :=
  { types with alternatives := fun _ ty => [ty] }

def areEquivalent {σ : Type} (types : TypeSystem σ) (st : σ) (a b : TypeRef) : Bool :=
  a == b || (types.isSubtype st a b && types.isSubtype st b a)

end TypeSystem

end CheckedExceptions
