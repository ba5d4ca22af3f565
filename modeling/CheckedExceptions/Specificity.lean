import CheckedExceptions.ThrowSet

/-! Exception types ordered so that the more specific ones come first. -/

namespace CheckedExceptions

namespace Specificity

/-- Moves a type down a list, past each type that is more specific. Where the next type is not, that
type is the one that is carried on. -/
def sink (sub : ThrowSet.Subtyping) (ty : TypeRef) : List TypeRef → List TypeRef
  | [] => [ty]
  | next :: rest =>
    if ty ≠ next ∧ sub next ty then next :: sink sub ty rest
    else ty :: sink sub next rest

/-- Sorts so that no type stands right before one of its proper subtypes. Unrelated types keep their
order. -/
def sort (sub : ThrowSet.Subtyping) : List TypeRef → List TypeRef
  | [] => []
  | ty :: rest => sink sub ty (sort sub rest)

end Specificity

end CheckedExceptions
