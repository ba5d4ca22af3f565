import CheckedExceptions.Callable
import CheckedExceptions.Tree.Construct

/-! What is known about calls, resources and expressions from outside the tree. -/

namespace CheckedExceptions

/-- Answers to the questions that a tree alone does not settle. -/
structure Resolution where
  /-- The target of a call, an object creation or a method reference. -/
  target? : NodeRef → Option CallTarget
  closer? : TypeRef → Option Candidate
  /-- The method that a lambda or method reference implements. -/
  implemented? : NodeRef → Option Candidate
  staticType? : NodeRef → Option TypeRef
  /-- An overload is just being chosen, so calls must not report what they declare. -/
  choosingOverload : Bool

namespace Resolution

def record {α β : Type} [DecidableEq α] (f : α → Option β) (a : α) (b : β) : α → Option β :=
  fun x => if x = a then some b else f x

def unknown : Resolution where
  target? := fun _ => none
  closer? := fun _ => none
  implemented? := fun _ => none
  staticType? := fun _ => none
  choosingOverload := false

def withTarget (r : Resolution) (site : NodeRef) (target : CallTarget) : Resolution :=
  { r with target? := record r.target? site target }

def withCloser (r : Resolution) (ty : TypeRef) (closer : Candidate) : Resolution :=
  { r with closer? := record r.closer? ty closer }

def withImplemented (r : Resolution) (expr : NodeRef) (method : Candidate) : Resolution :=
  { r with implemented? := record r.implemented? expr method }

def withStaticType (r : Resolution) (expr : NodeRef) (ty : TypeRef) : Resolution :=
  { r with staticType? := record r.staticType? expr ty }

def choosing (r : Resolution) (choosing : Bool) : Resolution :=
  { r with choosingOverload := choosing }

end Resolution

end CheckedExceptions
