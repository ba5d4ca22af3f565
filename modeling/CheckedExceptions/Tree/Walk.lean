import CheckedExceptions.Tree.Basic

/-! Ways through a syntax tree: upwards along parents, and downwards in source order. -/

namespace CheckedExceptions

namespace SyntaxTree

/-- `n` and what lies above it, at most `steps` nodes. -/
def upwardWithin (t : SyntaxTree) : Nat → NodeRef → List NodeId
  | 0, _ => []
  | _ + 1, none => []
  | steps + 1, some id => id :: upwardWithin t steps (t.parent (some id))

/-- The nodes above `n`, nearest first. The walk takes no more steps than there are nodes, so it
ends even where parent links run in a circle. -/
def ancestors (t : SyntaxTree) (n : NodeRef) : List NodeId :=
  t.upwardWithin t.size (t.parent n)

def enclosingFile? (t : SyntaxTree) (n : NodeRef) : Option (String × FileRole) :=
  (n :: (t.ancestors n).map some).findSome? fun m =>
    match t.payload? m with
    | some (.file name role _) => some (name, role)
    | _ => none

def isConstructor (t : SyntaxTree) (n : NodeRef) : Bool :=
  match t.payload? n with
  | some (.method _ .constructor ..) => true
  | _ => false

def constructorsIn (t : SyntaxTree) (n : NodeRef) : List NodeRef :=
  match t.payload? n with
  | some (.classDecl _ _ _ members) => members.filter t.isConstructor
  | _ => []

/-- Puts `n` and the nodes below it in source order, at most `depth` levels deep, in front of a
list. -/
def preorderOnto (t : SyntaxTree) : Nat → NodeRef → (rest : List NodeId) → List NodeId
  | 0, _, rest => rest
  | depth + 1, n, rest =>
    match n, t.node? n with
    | some id, some node =>
      id :: node.children.foldr (fun child rest => preorderOnto t depth (some child) rest) rest
    | _, _ => rest

/-- What stands behind the nodes does not affect them. -/
theorem preorderOnto_append (t : SyntaxTree) (depth : Nat) (n : NodeRef) (rest more : List NodeId) :
    t.preorderOnto depth n (rest ++ more) = t.preorderOnto depth n rest ++ more := by
  induction depth generalizing n rest with
  | zero => rfl
  | succ depth ih =>
    simp only [preorderOnto]
    split
    · next node _ =>
      rw [List.cons_append]
      congr 1
      induction node.children with
      | nil => rfl
      | cons child children ihc => rw [List.foldr_cons, ihc, ih, List.foldr_cons]
    · rfl

/-- `n` and the nodes below it in source order. Where no node lies below itself there are no more
levels than nodes. -/
def preorder (t : SyntaxTree) (n : NodeRef) : List NodeId :=
  t.preorderOnto t.size n []

end SyntaxTree

end CheckedExceptions
