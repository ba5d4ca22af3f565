import CheckedExceptions.Types.Substitution

/-! The store of types: declaring classes and interning structural types. -/

namespace CheckedExceptions

/-- All types known so far, each at the position that is its id, and the well-known classes among
them. Structural types and class names are found through an index of each, with the latest entry
first. -/
@[ext]
structure TypeStore where
  shapes : Array Shape
  interned : List (Shape × TypeId)
  classes : List (String × TypeId)
  wellKnown? : WellKnown → Option TypeRef
  interned_lt : ∀ entry ∈ interned, entry.2 < shapes.size

namespace TypeStore

def empty : TypeStore := ⟨#[], [], [], fun _ => none, fun _ h => nomatch h⟩

def size (st : TypeStore) : Nat := st.shapes.size

def shape? (st : TypeStore) (ty : TypeRef) : Option Shape :=
  ty.bind fun id => st.shapes[id]?

/-- Appends a type that no index leads to. -/
def push (st : TypeStore) (shape : Shape) : TypeId × TypeStore :=
  (st.size, { st with
    shapes := st.shapes.push shape
    interned_lt := fun entry h => by
      rw [Array.size_push]
      exact Nat.lt_succ_of_lt (st.interned_lt entry h) })

def find? (st : TypeStore) (shape : Shape) : Option TypeId := st.interned.lookup shape

/-- Appends a structural type and enters it in the index. -/
def enter (st : TypeStore) (shape : Shape) : TypeId × TypeStore :=
  let grown := (st.push shape).2
  (st.size, { grown with
    interned := (shape, st.size) :: st.interned
    interned_lt := List.forall_mem_cons.mpr ⟨by simp [grown, push, size], grown.interned_lt⟩ })

/-- The id of a structural type, which is entered if the index does not lead to it. -/
def intern (st : TypeStore) (shape : Shape) : TypeId × TypeStore :=
  match st.find? shape with
  | some id => (id, st)
  | none => st.enter shape

def classNamed? (st : TypeStore) (name : String) : Option TypeId := st.classes.lookup name

def enterClass (st : TypeStore) (name : String) (supertypes params : List TypeRef) :
    TypeId × TypeStore :=
  let grown := (st.push (.declared name supertypes params)).2
  (st.size, { grown with classes := (name, st.size) :: st.classes })

def pushTypeParams (st : TypeStore) : List String → List TypeRef × TypeStore
  | [] => ([], st)
  | name :: names =>
    let (id, st) := st.push (.typeParam name none)
    let (ids, st) := pushTypeParams st names
    (some id :: ids, st)

def typeParamsOf (st : TypeStore) (ty : TypeRef) : List TypeRef :=
  match st.shape? ty with
  | some (.declared _ _ params) => params
  | _ => []

/-- Declares a generic class together with its type parameters. Declaring a name again gives the
class that has it, unchanged. -/
def declareGeneric (st : TypeStore) (name : String) (params : List String)
    (supertypes : List TypeRef) : (TypeId × List TypeRef) × TypeStore :=
  match st.classNamed? name with
  | some id => ((id, st.typeParamsOf (some id)), st)
  | none =>
    let (ids, st) := st.pushTypeParams params
    let (id, st) := st.enterClass name supertypes ids
    ((id, ids), st)

def declare (st : TypeStore) (name : String) (supertypes : List TypeRef) : TypeId × TypeStore :=
  let (declared, st) := st.declareGeneric name [] supertypes
  (declared.1, st)

/-- A type parameter of its own, as generic methods have. -/
def typeParam (st : TypeStore) (name : String) (bound : TypeRef) : TypeId × TypeStore :=
  st.push (.typeParam name bound)

def primitive (st : TypeStore) (name : String) : TypeId × TypeStore :=
  st.intern (.primitive name)

def arrayOf (st : TypeStore) (elem : TypeRef) : TypeId × TypeStore :=
  st.intern (.array elem)

def instantiate (st : TypeStore) (origin : TypeRef) (args : List TypeRef) : TypeId × TypeStore :=
  st.intern (.instantiation origin args)

/-- The disjunction of some types; of one type alone it is that type. -/
def disjunction (st : TypeStore) : List TypeRef → TypeRef × TypeStore
  | [single] => (single, st)
  | alternatives =>
    let (id, st) := st.intern (.disjunction alternatives)
    (some id, st)

def designate (st : TypeStore) (which : WellKnown) (ty : TypeRef) : TypeStore :=
  { st with wellKnown? := fun w => if w = which then some ty else st.wellKnown? w }

def declareDesignated (st : TypeStore) (which : WellKnown) (supertypes : List TypeRef) :
    TypeId × TypeStore :=
  let (id, st) := st.declare which.qualifiedName supertypes
  (id, st.designate which (some id))

def withRoots : TypeStore :=
  let (object, st) := empty.declareDesignated .object []
  let (throwable, st) := st.declareDesignated .throwable [some object]
  let (exception, st) := st.declareDesignated .exception [some throwable]
  let (_, st) := st.declareDesignated .runtimeException [some exception]
  let (_, st) := st.declareDesignated .error [some throwable]
  st

def argumentsOf (st : TypeStore) (ty : TypeRef) : Substitution :=
  match st.shape? ty with
  | some (.instantiation origin args) => .ofLists (st.typeParamsOf origin) args
  | _ => .identity

/-- The alternatives of a disjunction; any other type is its own single alternative. -/
def alternatives (st : TypeStore) (ty : TypeRef) : List TypeRef :=
  match st.shape? ty with
  | some (.disjunction alternatives) => alternatives
  | _ => [ty]

def isArray (st : TypeStore) (ty : TypeRef) : Bool :=
  match st.shape? ty with
  | some (.array _) => true
  | _ => false

end TypeStore

end CheckedExceptions
