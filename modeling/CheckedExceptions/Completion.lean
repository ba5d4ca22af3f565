import CheckedExceptions.Tree.Basic

/-! Whether statements can complete normally, judged by their syntax. -/

namespace CheckedExceptions

inductive Cancelled where
  | cancelled
deriving DecidableEq, Repr

namespace Cancelled

def message : Cancelled → String
  | cancelled => "control-flow analysis cancelled"

end Cancelled

abbrev Completion := NodeRef → Except Cancelled Bool

namespace Completion

def sequence (completes : Completion) : List NodeRef → Except Cancelled Bool
  | [] => .ok true
  | statement :: rest => do
    if ← completes statement then sequence completes rest else .ok false

def choice (completes : Completion) : List NodeRef → Except Cancelled Bool
  | [] => .ok false
  | way :: rest => do
    if ← completes way then .ok true else choice completes rest

/-- A try statement completes if its block or a catch clause does, and its `finally` block too. -/
def ofTry (completes : Completion) (parts : TryParts) : Except Cancelled Bool := do
  let body ← choice completes (parts.body :: parts.clauses)
  if parts.cleanup.isNone then pure body
  else
    let final ← completes parts.cleanup
    pure (body && final)

/-- Judges `n`, which may be nested less than `depth` levels deep. What the syntax does not show is
taken to complete. -/
def within (t : SyntaxTree) : Nat → Completion
  | 0, _ => .error .cancelled
  | depth + 1, n =>
    match t.payload? n with
    | some (.throwing _) => .ok false
    | some (.jump ..) => .ok false
    | some (.block statements) => sequence (within t depth) statements
    | some (.catchClause _ block) => within t depth block
    | some (.trying parts) => ofTry (within t depth) parts
    | _ => .ok true

/-- Judges by the syntax of a tree, and gives up on what is nested deeper than `maxDepth`. -/
def syntactic (t : SyntaxTree) (maxDepth : Nat) : Completion :=
  within t (maxDepth + 1)

end Completion

end CheckedExceptions
