import CheckedExceptions.Types.Store

/-! Applying a substitution to a type. The types that this makes are interned, so the store may grow
on the way, and a component that was missing at first may be there when it is reached. -/

namespace CheckedExceptions

namespace TypeStore

/-- Replaces type parameters in `ty`, where `part` replaces them in its components, and interns what
the replacement makes. A type in which nothing is replaced stays as it is. -/
def applyStep (s : Substitution) (part : TypeRef → StateM TypeStore TypeRef) (ty : TypeRef) :
    StateM TypeStore TypeRef := do
  match (← get).shape? ty with
  | some (.typeParam ..) => pure ((s.get? ty).getD ty)
  | some (.instantiation origin args) =>
    let replaced ← args.mapM part
    if replaced = args then pure ty
    else modifyGet fun st =>
      let (id, st) := st.instantiate origin replaced
      (some id, st)
  | some (.array elem) =>
    let replaced ← part elem
    if replaced = elem then pure ty
    else modifyGet fun st =>
      let (id, st) := st.arrayOf replaced
      (some id, st)
  | some (.disjunction alternatives) =>
    let replaced ← alternatives.mapM part
    if replaced = alternatives then pure ty
    else modifyGet fun st => st.disjunction replaced
  | _ => pure ty

/-- A component precedes the whole if it has the smaller id. One that does not was still missing when
the whole was made. -/
def precedes : (part whole : TypeRef) → Bool
  | some part, some whole => part < whole
  | _, _ => false

/-- Applies `s` to a type whose id is less than `bound`. It follows the components that precede their
whole, and leaves the others to `ahead`. -/
def applyBelow (s : Substitution) (ahead : TypeRef → StateM TypeStore TypeRef) :
    (bound : Nat) → TypeRef → StateM TypeStore TypeRef
  | 0, ty => pure ty
  | bound + 1, ty =>
    applyStep s (fun part =>
      if precedes part ty then applyBelow s ahead bound part else ahead part) ty

/-- Applies `s` to a type, with fewer than `leaps` components in a row that do not precede their
whole. -/
def applyWithin (s : Substitution) : (leaps : Nat) → TypeRef → StateM TypeStore TypeRef
  | 0, ty => pure ty
  | leaps + 1, ty => applyBelow s (applyWithin s leaps) ((ty.map Nat.succ).getD 0) ty

def componentsAhead (st : TypeStore) : List TypeRef :=
  st.shapes.toList.zipIdx.flatMap fun (shape, id) =>
    shape.components.filter fun part => !precedes part (some id)

/-- Replaces the type parameters bound by `s` throughout `ty`. A component that does not precede its
whole stood in the store from the start or came in through `s`. On the way down from a type that
never comes to contain itself, each is met at most once. -/
def apply (s : Substitution) (ty : TypeRef) : StateM TypeStore TypeRef := do
  applyWithin s ((← get).componentsAhead.length + s.bindings.length + 1) ty

/-- Substitutes in an exception type. There is no result if what comes out cannot be thrown. -/
def substitute (ty : TypeRef) (s : Substitution) : StateM TypeStore (Option TypeRef) := do
  let result ← if s.isEmpty then pure ty else apply s ty
  match (← get).shape? result with
  | some shape => pure (if shape.isThrowable then some result else none)
  | none => pure none

end TypeStore

end CheckedExceptions
