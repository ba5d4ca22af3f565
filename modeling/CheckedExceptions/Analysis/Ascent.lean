import CheckedExceptions.Analysis.Propagation
import CheckedExceptions.Tree.Walk

/-! Whether something around a node handles an exception that leaves it. -/

namespace CheckedExceptions

/-- One level on the way up: the question is settled there, or it moves to the node above. -/
inductive Ascent where
  | settled (handled : Bool)
  | climb (next : NodeRef)

namespace Program

variable {σ : Type} (p : Program σ)

def catches (st : σ) (parts : TryParts) (exception : TypeRef) : Bool :=
  parts.clauses.any fun clause =>
    (p.caughtTypes st clause).any fun handler => p.types.isSubtype st exception handler

def discardsPending (parts : TryParts) : Bool :=
  parts.cleanup.isSome && !p.completesNormally parts.cleanup

/-- Whether a try statement handles `exception` when it comes from `element`, one of its parts. -/
def stopsInTry (st : σ) (parts : TryParts) (element : NodeRef) (exception : TypeRef) : Bool :=
  if element == parts.body || (parts.resources.isSome && element == parts.resources) then
    p.catches st parts exception || p.discardsPending parts
  else if parts.clauses.contains element then p.discardsPending parts
  else false

def implementedAllows (expr : NodeRef) (exception : TypeRef) : StateM σ Bool :=
  match p.resolution.implemented? expr with
  | some method => do
    let tys ← p.throwsAtSite method
    let st ← get
    pure (p.declares st tys exception)
  | none => pure p.options.permissiveMissingFunctionalType

def constructorAllows (st : σ) (exception : TypeRef) (constructor : NodeRef) : Bool :=
  match p.tree.payload? constructor with
  | some (.method _ _ _ throws ..) => p.declares st throws exception
  | _ => false

/-- The class of `member` declares constructors, and all of them declare `exception`. -/
def everyConstructorAllows (st : σ) (member : NodeRef) (exception : TypeRef) : Bool :=
  let constructors := p.tree.constructorsIn (p.tree.parent member)
  !constructors.isEmpty && constructors.all (p.constructorAllows st exception)

def isMemberOfNamed (member : NodeRef) : Bool :=
  match p.tree.payload? (p.tree.parent member) with
  | some (.classDecl (some _) ..) => true
  | _ => false

/-- The code at `element` runs as part of every constructor of the class of `member`. -/
def runsInConstructors (element member : NodeRef) : Bool :=
  p.isMemberOfNamed member &&
    match p.tree.payload? member with
    | some (.initBlock isStatic _) => !isStatic
    | some (.field _ isStatic _ value) => !isStatic && value == element
    | _ => false

/-- Custom handlers decide where the language has no rule of its own. -/
def customStep (element parent : NodeRef) (exception : TypeRef) (top : NodeRef) : Ascent :=
  if p.handlers.someCustom p.tree element exception top then .settled true else .climb parent

/-- The rule of the node above `element` for an `exception` that leaves `element`. -/
def ascentStep (element : NodeRef) (exception : TypeRef) (top : NodeRef) : StateM σ Ascent := do
  let parent := p.tree.parent element
  let st ← get
  if parent.isNone || parent == top then pure (.settled false)
  else if p.isMethodRef element then .settled <$> p.implementedAllows element exception
  else
    match p.tree.payload? parent with
    | none => pure (.settled false)
    | some (.method _ _ _ throws ..) => pure (.settled (p.declares st throws exception))
    | some (.classDecl none ..) => pure (.climb parent)
    | some (.classDecl (some _) ..) => pure (.settled false)
    | some (.lambda ..) => .settled <$> p.implementedAllows parent exception
    | some (.trying parts) =>
      pure (if p.stopsInTry st parts element exception then .settled true else .climb parent)
    | some (.fragment _) => pure (.settled (p.handlers.fragmentAllows parent exception))
    | some (.file _ role _) =>
      pure (.settled (role == .serverPage && p.options.permissiveServerPages))
    | some _ =>
      pure (if p.runsInConstructors element parent then
          .settled (p.everyConstructorAllows st parent exception)
        else p.customStep element parent exception top)

/-- Climbs from `element` by at most `steps` nodes. Where that is not far enough, `exception` counts
as not handled. -/
def isHandledWithin (exception : TypeRef) (top : NodeRef) : Nat → NodeRef → StateM σ Bool
  | 0, _ => pure false
  | steps + 1, element => do
    match ← p.ascentStep element exception top with
    | .settled handled => pure handled
    | .climb next => isHandledWithin exception top steps next

def isHandledUpTo (element : NodeRef) (exception : TypeRef) (top : NodeRef) : StateM σ Bool :=
  p.isHandledWithin exception top p.options.maxAscentDepth element

def collectRemaining (n top : NodeRef) (found : ThrowSet) : List TypeRef → StateM σ ThrowSet
  | [] => pure found
  | ty :: rest => do
    let st ← get
    if p.isChecked st ty then
      if ← p.isHandledUpTo n ty top then collectRemaining n top found rest
      else
        let st ← get
        collectRemaining n top (found.insert (p.types.isSubtype st) ty) rest
    else collectRemaining n top found rest

/-- The checked exceptions of a set that leave `n` and are not handled up to `top`. -/
def remaining (n : NodeRef) (set : ThrowSet) (top : NodeRef) : StateM σ ThrowSet :=
  p.collectRemaining n top .empty set.members

/-- The checked exceptions of `n` that nothing between `n` and `top` handles. Of a method reference
this is about invoking it. -/
def unhandled (n top : NodeRef) : StateM σ ThrowSet := do
  let set ← if p.isMethodRef n then p.referencedThrows n else p.thrown n
  p.remaining n set top

def unhandledClosing (resource top : NodeRef) : StateM σ ThrowSet := do
  let set ← p.closingThrows resource
  p.remaining resource set top

end Program

end CheckedExceptions
