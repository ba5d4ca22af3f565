import CheckedExceptions.Analysis.CallSite

/-! The exceptions that leave a node, computed from the nodes below it. -/

namespace CheckedExceptions

structure RethrownParameter where
  clause : NodeRef
  declaredType : TypeRef
  reassigned : Bool

namespace SyntaxTree

def isCatch (t : SyntaxTree) (n : NodeRef) : Bool :=
  match t.payload? n with
  | some (.catchClause ..) => true
  | _ => false

def rethrown? (t : SyntaxTree) (expr : NodeRef) : Option RethrownParameter :=
  match t.payload? expr with
  | some (.reference _ declaration) =>
    match t.payload? declaration with
    | some (.parameter _ declaredType reassigned) =>
      let clause := t.parent declaration
      if t.isCatch clause then some ⟨clause, declaredType, reassigned⟩ else none
    | _ => none
  | _ => none

theorem rethrown?_eq_some {t : SyntaxTree} {expr : NodeRef} {caught : RethrownParameter}
    (h : t.rethrown? expr = some caught) : ∃ name label declaration,
      t.payload? expr = some (.reference name declaration) ∧
      t.payload? declaration = some (.parameter label caught.declaredType caught.reassigned) ∧
      t.parent declaration = caught.clause ∧ t.isCatch caught.clause = true := by
  unfold rethrown? at h
  split at h
  · next name declaration hexpr =>
    split at h
    · next label declaredType reassigned hdeclaration =>
      dsimp only at h
      split at h
      · next hcatch =>
        obtain rfl := Option.some.inj h
        exact ⟨name, label, declaration, hexpr, hdeclaration, rfl, hcatch⟩
      · cases h
    · cases h
  · cases h

def catchType (t : SyntaxTree) (clause : NodeRef) : TypeRef :=
  match t.payload? clause with
  | some (.catchClause parameter _) =>
    match t.payload? parameter with
    | some (.parameter _ declaredType _) => declaredType
    | _ => none
  | _ => none

def tryResources (t : SyntaxTree) (parts : TryParts) : List NodeRef :=
  match t.payload? parts.resources with
  | some (.resourceList resources) => resources
  | _ => []

end SyntaxTree

namespace Program

variable {σ : Type} (p : Program σ)

def caughtTypes (st : σ) (clause : NodeRef) : List TypeRef :=
  match p.tree.catchType clause with
  | some ty => p.types.alternatives st (some ty)
  | none => []

def resourceThrows (below : NodeRef → StateM σ ThrowSet) (resource : NodeRef) :
    StateM σ ThrowSet :=
  match p.tree.payload? resource with
  | some (.resourceVariable ..) => below resource
  | some _ => do
    let closing ← p.closingThrows resource
    let producing ← below resource
    p.unite closing producing
  | none => pure .empty

def bodyThrows (below : NodeRef → StateM σ ThrowSet) (parts : TryParts) :
    StateM σ ThrowSet := do
  let resources ← p.uniteAll (p.resourceThrows below) .empty (p.tree.tryResources parts)
  p.uniteAll below resources [parts.body]

/-- The form in which an exception reaches a catch clause: itself if the clause catches it, or an
alternative of the clause that may be hidden behind it. -/
def reaching? (sub : ThrowSet.Subtyping) (alternatives : List TypeRef) (ty : TypeRef) :
    Option TypeRef :=
  alternatives.findSome? fun alternative =>
    if sub ty alternative then some ty
    else if sub alternative ty then some alternative
    else none

/-- The types that can reach a catch clause: the checked exceptions of the try block and the
unchecked roots, as far as the clause catches them and no earlier clause does. -/
def arrivingTypes (below : NodeRef → StateM σ ThrowSet) (clause : NodeRef) :
    StateM σ (List TypeRef) := do
  let st ← get
  let alternatives := p.caughtTypes st clause
  match p.tree.payload? (p.tree.parent clause) with
  | some (.trying parts) =>
    let thrown ← p.bodyThrows below parts
    let st ← get
    let sub := p.types.isSubtype st
    let arriving := thrown.members.filter (p.isChecked st) ++ p.exemptRoots st
    let reached := (arriving.filterMap (reaching? sub alternatives)).eraseDups
    let earlier := (parts.clauses.takeWhile (· != clause)).flatMap (p.caughtTypes st)
    pure (reached.filter fun ty => !earlier.any (sub ty))
  | _ => pure alternatives

def thrownType? (expr : NodeRef) : Option TypeRef :=
  match p.resolution.staticType? expr with
  | some ty => some ty
  | none =>
    match p.tree.payload? expr with
    | some (.creation (some ty) ..) => some (some ty)
    | _ => none

def raisedTypes (below : NodeRef → StateM σ ThrowSet) (expr : NodeRef) :
    StateM σ (List TypeRef) := do
  let st ← get
  match p.tree.rethrown? expr with
  | some caught =>
    if p.options.preciseRethrow && !caught.reassigned then p.arrivingTypes below caught.clause
    else pure (p.types.alternatives st caught.declaredType)
  | none =>
    match p.thrownType? expr with
    | some ty => pure (p.types.alternatives st ty)
    | none => pure []

def uncaught (st : σ) (parts : TryParts) (set : ThrowSet) : ThrowSet :=
  (parts.clauses.flatMap (p.caughtTypes st)).foldl
    (ThrowSet.removeCovered (p.types.isSubtype st)) set

/-- What leaves a try statement. The catch clauses take out what they catch and add what they
throw. A `finally` block that completes adds what it throws, and one that does not is all that is
left. -/
def leavingTry (below : NodeRef → StateM σ ThrowSet) (parts : TryParts) :
    StateM σ ThrowSet := do
  let body ← p.bodyThrows below parts
  let st ← get
  let pending ← p.uniteAll below (p.uncaught st parts body) parts.clauses
  match parts.cleanup with
  | none => pure pending
  | some block =>
    let final ← below (some block)
    if p.completesNormally (some block) then p.unite pending final else pure final

def thrownByChildren (below : NodeRef → StateM σ ThrowSet) (n : NodeRef) : StateM σ ThrowSet :=
  p.uniteAll below .empty ((p.tree.children n).map some)

def thrownByInvocation (below : NodeRef → StateM σ ThrowSet) (n : NodeRef) : StateM σ ThrowSet := do
  let own ← p.invocationThrows n
  let operands ← p.thrownByChildren below n
  p.unite own operands

/-- What leaves `n`, where `below` is what leaves the nodes under it. Creating a lambda, a method
reference or a class runs no code of its body. -/
def thrownStep (below : NodeRef → StateM σ ThrowSet) (n : NodeRef) : StateM σ ThrowSet := do
  match p.tree.payload? n with
  | none => pure .empty
  | some (.classDecl none _ arguments _) => p.uniteAll below .empty arguments
  | some (.classDecl (some _) ..) => pure .empty
  | some (.lambda ..) => pure .empty
  | some (.methodRef ..) => pure .empty
  | some (.throwing expression) =>
    let tys ← p.raisedTypes below expression
    let own ← p.setOf tys
    p.uniteAll below own [expression]
  | some (.trying parts) => p.leavingTry below parts
  | some (.resourceVariable _ _ value) =>
    let closing ← p.closingThrows n
    p.uniteAll below closing [value]
  | some (.call ..) => p.thrownByInvocation below n
  | some (.creation ..) => p.thrownByInvocation below n
  | some _ => p.thrownByChildren below n

/-- What leaves `n`, as far as the nodes less than `depth` levels down show. -/
def thrownWithin : Nat → NodeRef → StateM σ ThrowSet
  | 0, _ => pure .empty
  | depth + 1, n => p.thrownStep (thrownWithin depth) n

def thrown (n : NodeRef) : StateM σ ThrowSet :=
  p.thrownWithin (p.options.maxTreeDepth + 1) n

def thrownChecked (n : NodeRef) : StateM σ ThrowSet := do
  let set ← p.thrown n
  let st ← get
  pure (set.filter (p.isChecked st))

def typesReaching (clause : NodeRef) : StateM σ (List TypeRef) :=
  p.arrivingTypes (p.thrownWithin p.options.maxTreeDepth) clause

end Program

end CheckedExceptions
