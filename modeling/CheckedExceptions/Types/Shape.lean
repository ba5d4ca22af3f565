/-! Types as data: how a type is referred to and the shapes it can have. -/

namespace CheckedExceptions

/-- A type is known by its position in the store that holds it. -/
abbrev TypeId := Nat

/-- A place where a type may stand. It may be empty, and it may name a type that no store holds. -/
abbrev TypeRef := Option TypeId

inductive WellKnown where
  | object
  | throwable
  | exception
  | runtimeException
  | error
deriving DecidableEq, Repr

namespace WellKnown

def all : List WellKnown := [object, throwable, exception, runtimeException, error]

def qualifiedName : WellKnown → String
  | object => "java.lang.Object"
  | throwable => "java.lang.Throwable"
  | exception => "java.lang.Exception"
  | runtimeException => "java.lang.RuntimeException"
  | error => "java.lang.Error"

end WellKnown

/-- The structure of one type. Components are references, so a shape may mention types that do not
exist, or itself. -/
inductive Shape where
  | declared (name : String) (supertypes typeParams : List TypeRef)
  | instantiation (origin : TypeRef) (args : List TypeRef)
  | typeParam (name : String) (bound : TypeRef)
  | array (elem : TypeRef)
  | primitive (name : String)
  | disjunction (alternatives : List TypeRef)
deriving DecidableEq, Repr

namespace Shape

/-- Structural shapes are held at most once; classes and type parameters have an identity of
their own. -/
def isStructural : Shape → Bool
  | declared .. => false
  | typeParam .. => false
  | instantiation .. => true
  | array _ => true
  | primitive _ => true
  | disjunction _ => true

/-- The places of a structural shape in which a substitution can replace type parameters. -/
def components : Shape → List TypeRef
  | declared .. => []
  | typeParam .. => []
  | primitive _ => []
  | instantiation _ args => args
  | array elem => [elem]
  | disjunction alternatives => alternatives

def isThrowable : Shape → Bool
  | declared .. => true
  | instantiation .. => true
  | typeParam .. => true
  | disjunction _ => true
  | array _ => false
  | primitive _ => false

end Shape

end CheckedExceptions
