import CheckedExceptions.Tree.Construct

/-! Syntax trees as indexed nodes with parent links. -/

namespace CheckedExceptions

/-- Nodes in order of creation. Nothing ties the parent links to the lists of children: a node may
be listed by several nodes or by none, and either kind of link may run in circles. -/
structure SyntaxTree where
  nodes : Array Node
deriving Repr

namespace SyntaxTree

def empty : SyntaxTree := ⟨#[]⟩

def size (t : SyntaxTree) : Nat := t.nodes.size

def node? (t : SyntaxTree) (n : NodeRef) : Option Node :=
  n.bind fun id => t.nodes[id]?

def payload? (t : SyntaxTree) (n : NodeRef) : Option Payload :=
  (t.node? n).map Node.payload

def children (t : SyntaxTree) (n : NodeRef) : List NodeId :=
  match t.node? n with
  | some node => node.children
  | none => []

/-- The node that `n` belongs to. Roots and unknown nodes belong to none. -/
def parent (t : SyntaxTree) (n : NodeRef) : NodeRef :=
  (t.node? n).bind Node.parent

def reparent (t : SyntaxTree) (child parent : NodeRef) : SyntaxTree :=
  match child with
  | some id => ⟨t.nodes.modify id fun node => { node with parent := parent }⟩
  | none => t

def adopt (t : SyntaxTree) (parent : NodeRef) (children : List NodeId) : SyntaxTree :=
  children.foldl (fun t child => t.reparent (some child) parent) t

/-- Appends a node, which adopts those of its children that exist by then, itself included. -/
def add (t : SyntaxTree) (start stop : Nat) (payload : Payload) : NodeId × SyntaxTree :=
  let id := t.size
  let t : SyntaxTree := ⟨t.nodes.push ⟨start, stop, payload, none⟩⟩
  (id, t.adopt (some id) payload.children)

end SyntaxTree

end CheckedExceptions
