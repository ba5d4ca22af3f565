import CheckedExceptions.Callable

/-! The constructs of the language that matter to exceptions. -/

namespace CheckedExceptions

/-- A node is known by its position in its tree. -/
abbrev NodeId := Nat

/-- A place where a node may stand. It may be empty, and it may name a node that no tree holds. -/
abbrev NodeRef := Option NodeId

/-- What a file is for. The code of a server page has no caller in the program. -/
inductive FileRole where
  | source
  | serverPage
deriving DecidableEq, Repr

inductive Jump where
  | returning
  | breaking
  | continuing
deriving DecidableEq, Repr

/-- The parts of a try statement: the list of its resources, its block, its catch clauses and its
`finally` block. -/
structure TryParts where
  resources : NodeRef
  body : NodeRef
  clauses : List NodeRef
  cleanup : NodeRef
deriving DecidableEq, Repr

/-- What a node is. A class without a name is anonymous. -/
inductive Payload where
  | file (name : String) (role : FileRole) (statements : List NodeRef)
  | fragment (statements : List NodeRef)
  | classDecl (name : Option String) (classType : TypeRef) (arguments members : List NodeRef)
  | method (name : String) (kind : CallableKind) (isStatic : Bool) (throws : List TypeRef)
      (parameters : List NodeRef) (body : NodeRef)
  | field (name : String) (isStatic : Bool) (fieldType : TypeRef) (value : NodeRef)
  | initBlock (isStatic : Bool) (body : NodeRef)
  | parameter (name : String) (declaredType : TypeRef) (reassigned : Bool)
  | block (statements : List NodeRef)
  | throwing (expression : NodeRef)
  | trying (parts : TryParts)
  | resourceList (resources : List NodeRef)
  | resourceVariable (name : String) (declaredType : TypeRef) (value : NodeRef)
  | catchClause (parameter block : NodeRef)
  | jump (way : Jump) (expression : NodeRef)
  | call (methodName : String) (qualifier : NodeRef) (arguments : List NodeRef)
  | creation (classType : TypeRef) (arguments : List NodeRef) (anonymousClass : NodeRef)
  | lambda (parameters : List NodeRef) (body : NodeRef)
  | methodRef (qualifier : NodeRef) (methodName : String)
  | reference (name : String) (declaration : NodeRef)
  | other (label : String) (children : List NodeRef)
deriving DecidableEq, Repr

namespace Payload

def slots : Payload → List NodeRef
  | file _ _ statements => statements
  | fragment statements => statements
  | classDecl _ _ arguments members => arguments ++ members
  | method _ _ _ _ parameters body => parameters ++ [body]
  | field _ _ _ value => [value]
  | initBlock _ body => [body]
  | parameter .. => []
  | block statements => statements
  | throwing expression => [expression]
  | trying parts =>
    parts.resources :: parts.body :: (parts.clauses ++ [parts.cleanup])
  | resourceList resources => resources
  | resourceVariable _ _ value => [value]
  | catchClause caught body => [caught, body]
  | jump _ expression => [expression]
  | call _ qualifier arguments => qualifier :: arguments
  | creation _ arguments anonymousClass => arguments ++ [anonymousClass]
  | lambda parameters body => parameters ++ [body]
  | methodRef qualifier _ => [qualifier]
  | reference .. => []
  | other _ children => children

def children (p : Payload) : List NodeId := p.slots.filterMap id

def kindName : Payload → String
  | file .. => "SourceFile"
  | fragment _ => "CodeFragment"
  | classDecl .. => "Class"
  | method .. => "Method"
  | field .. => "Field"
  | initBlock .. => "Initializer"
  | parameter .. => "Parameter"
  | block _ => "Block"
  | throwing _ => "Throw"
  | trying _ => "Try"
  | resourceList _ => "ResourceList"
  | resourceVariable .. => "ResourceVariable"
  | catchClause .. => "Catch"
  | jump .. => "Jump"
  | call .. => "Call"
  | creation .. => "New"
  | lambda .. => "Lambda"
  | methodRef .. => "MethodRef"
  | reference .. => "Reference"
  | other .. => "Other"

end Payload

structure Node where
  start : Nat
  stop : Nat
  payload : Payload
  parent : NodeRef
deriving DecidableEq, Repr

namespace Node

/-- The length of the text; a stretch that ends before it starts is empty. -/
def width (n : Node) : Nat := n.stop - n.start

def children (n : Node) : List NodeId := n.payload.children

end Node

end CheckedExceptions
