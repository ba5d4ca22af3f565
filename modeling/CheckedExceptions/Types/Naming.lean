import CheckedExceptions.Types.Store

/-! The names of types in messages. -/

namespace CheckedExceptions

namespace TypeStore

def nameWithin (st : TypeStore) : Nat → TypeRef → String
  | 0, _ => "<none>"
  | depth + 1, ty =>
    match st.shape? ty with
    | none => "<none>"
    | some (.declared name ..) => name
    | some (.typeParam name _) => name
    | some (.primitive name) => name
    | some (.array elem) => nameWithin st depth elem ++ "[]"
    | some (.instantiation origin args) =>
      nameWithin st depth origin ++ "<" ++ ", ".intercalate (args.map (nameWithin st depth)) ++ ">"
    | some (.disjunction alternatives) =>
      " | ".intercalate (alternatives.map (nameWithin st depth))

/-- The name of a type. A type that does not contain itself nests no deeper than the number of
types, and a missing component costs one level more. -/
def nameOf (st : TypeStore) (ty : TypeRef) : String :=
  st.nameWithin (st.size + 1) ty

end TypeStore

end CheckedExceptions
