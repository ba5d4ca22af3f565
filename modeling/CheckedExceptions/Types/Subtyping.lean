import CheckedExceptions.Types.Store

/-! The subtype relation of a type store. -/

namespace CheckedExceptions

namespace TypeStore

def erase (st : TypeStore) (ty : TypeRef) : TypeRef :=
  match st.shape? ty with
  | some (.instantiation origin _) => origin
  | _ => ty

def isDeclared (st : TypeStore) (ty : TypeRef) : Bool :=
  match st.shape? ty with
  | some (.declared ..) => true
  | _ => false

def isTop (st : TypeStore) (ty : TypeRef) : Bool :=
  st.wellKnown? .object == some ty

def supertypesOf (st : TypeStore) (ty : TypeRef) : List TypeRef :=
  match st.shape? ty with
  | some (.declared _ supertypes _) => supertypes
  | _ => []

/-- A search through the classes above a type: the types that it has been at, and those that it has
still to go to, the next one first. A type can stand in the queue more than once. -/
structure Search where
  visited : List TypeRef
  queue : List TypeRef
deriving DecidableEq, Repr

def searchFrom (ty : TypeRef) : Search := ⟨[], [ty]⟩

/-- One pass of the search. It is over at the target, or when the queue is empty. -/
def pass? (st : TypeStore) (target : TypeRef) (s : Search) : Option Search :=
  match s.queue with
  | [] => none
  | current :: rest =>
    if current = target then none
    else if s.visited.contains current then some ⟨s.visited, rest⟩
    else some ⟨current :: s.visited, rest ++ (st.supertypesOf current).map st.erase⟩

def searchWithin (st : TypeStore) (target : TypeRef) : (passes : Nat) → Search → Search
  | 0, s => s
  | passes + 1, s =>
    match st.pass? target s with
    | some next => searchWithin st target passes next
    | none => s

/-- How many supertypes are declared in all. The search puts each of them into its queue at most
once. -/
def declaredSupertypes (st : TypeStore) : Nat :=
  (List.range st.size).foldr (fun id count => (st.supertypesOf (some id)).length + count) 0

/-- Whether the class `target` is among the classes above `ty`, or is `ty`: if it is, the search for
it stops with the target at the front of the queue. -/
def inherits (st : TypeStore) (ty target : TypeRef) : Bool :=
  st.isDeclared target &&
    !(st.searchWithin target (st.declaredSupertypes + 1) (searchFrom ty)).queue.isEmpty

/-- The subtype relation, with bounds, elements and alternatives followed at most `depth` levels
deep. Beyond that only equal types are related. -/
def isSubtypeWithin (st : TypeStore) : Nat → TypeRef → TypeRef → Bool
  | 0, sub, sup => sub == sup
  | depth + 1, sub, sup =>
    sub == sup ||
      match st.shape? sub, st.shape? sup with
      | some (.disjunction alternatives), some _ =>
        alternatives.all fun alternative => isSubtypeWithin st depth alternative sup
      | some _, some (.disjunction alternatives) =>
        alternatives.any fun alternative => isSubtypeWithin st depth sub alternative
      | some (.primitive _), some _ => false
      | some (.typeParam _ none), some _ => st.isTop sup
      | some (.typeParam _ bound), some _ => isSubtypeWithin st depth bound sup
      | some (.array elem), some (.array supElem) => isSubtypeWithin st depth elem supElem
      | some (.array _), some _ => st.isTop sup
      | some _, some _ => st.isTop sup || st.inherits (st.erase sub) (st.erase sup)
      | _, _ => false

def nestingLimit : Nat := 64

/-- The subtype relation. A type is a subtype of itself, even one that the store does not hold. -/
def isSubtype (st : TypeStore) : TypeRef → TypeRef → Bool :=
  st.isSubtypeWithin (nestingLimit + 1)

end TypeStore

end CheckedExceptions
