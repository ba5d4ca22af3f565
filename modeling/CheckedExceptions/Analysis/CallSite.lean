import CheckedExceptions.Analysis.Program

/-! What a call declares to throw, also when several callables are in question. -/

namespace CheckedExceptions

namespace Program

variable {σ : Type} (p : Program σ)

/-- `c` is overridden by `other`: both are methods, and `other` is declared in a proper subtype of
the class that declares `c`. Constructors are not inherited. -/
def isOverriddenBy (st : σ) (c other : Candidate) : Bool :=
  c.callable.kind == .method && other.callable.kind == .method && c.callable != other.callable
    && c.callable.owner != other.callable.owner
    && p.types.isSubtype st other.callable.owner c.callable.owner

def survivors (st : σ) (candidates : List Candidate) : List Candidate :=
  candidates.filter fun c => !candidates.any (p.isOverriddenBy st c)

/-- What two `throws` clauses have in common. A type remains if the other clause has it or a
supertype of it; if the other clause has a subtype instead, then that remains, provided both are
checked or both are not. -/
def meet (st : σ) (ours theirs : List TypeRef) : List TypeRef :=
  (ours.flatMap fun a => theirs.filterMap fun b =>
    if p.types.isSubtype st a b then some a
    else if p.types.isSubtype st b a && p.isUnchecked st b == p.isUnchecked st a then some b
    else none).eraseDups

/-- What `common` and the clauses of all `candidates` have in common: nothing, as soon as one of
them has no checked exception. -/
def meetAll (common : List TypeRef) : List Candidate → StateM σ (List TypeRef)
  | [] => pure common
  | c :: rest => do
    let tys ← p.throwsAtSite c
    let st ← get
    if tys.all (p.isUnchecked st) then pure []
    else meetAll (p.meet st common tys) rest

def commonThrows : List Candidate → StateM σ (List TypeRef)
  | [] => pure []
  | c :: rest => do
    let tys ← p.throwsAtSite c
    let st ← get
    if tys.all (p.isUnchecked st) then pure [] else p.meetAll tys rest

/-- What an ambiguous call throws whichever candidate it runs. There is no answer unless two
candidates remain that are not overridden. -/
def agreedThrows (target : CallTarget) : StateM σ (Option ThrowSet) := do
  let st ← get
  match p.survivors st target.distinct with
  | first :: second :: rest =>
    let tys ← p.commonThrows (first :: second :: rest)
    some <$> p.setOf tys
  | _ => pure none

def qualifierOf (site : NodeRef) : NodeRef :=
  match p.tree.payload? site with
  | some (.call _ qualifier _) => qualifier
  | some (.methodRef qualifier _) => qualifier
  | _ => none

def isInvocation (site : NodeRef) : Bool :=
  match p.tree.payload? site with
  | some (.call ..) => true
  | some (.methodRef ..) => true
  | _ => false

/-- Arrays are cloned by the method of the root class, but throw nothing then. -/
def clonesArray (st : σ) (site : NodeRef) (c : Candidate) : Bool :=
  c.callable.kind == .method && c.callable.name == "clone"
    && p.types.wellKnown? st .object == some c.callable.owner
    && p.isInvocation site
    && (p.resolution.staticType? (p.qualifierOf site)).any (p.types.isArray st)

/-- The exceptions declared by what a call, an object creation or a method reference invokes, apart
from its operands. -/
def invocationThrows (site : NodeRef) : StateM σ ThrowSet := do
  if p.resolution.choosingOverload then pure .empty
  else
    match p.resolution.target? site with
    | none => pure .empty
    | some target =>
      let st ← get
      if p.clonesArray st site target.chosen then pure .empty
      else if p.options.overloadIntersection && target.isAmbiguous then
        match ← p.agreedThrows target with
        | some set => pure set
        | none => p.declaredSet target.chosen
      else p.declaredSet target.chosen

def resourceType (resource : NodeRef) : TypeRef :=
  match p.tree.payload? resource with
  | some (.resourceVariable _ declaredType _) => declaredType
  | some _ => (p.resolution.staticType? resource).join
  | none => none

def closingThrows (resource : NodeRef) : StateM σ ThrowSet :=
  match p.resourceType resource with
  | none => pure .empty
  | some ty =>
    match p.resolution.closer? (some ty) with
    | some closer => p.declaredSet closer
    | none => pure .empty

def isMethodRef (n : NodeRef) : Bool :=
  match p.tree.payload? n with
  | some (.methodRef ..) => true
  | _ => false

/-- What invoking a method reference throws, as opposed to creating it. -/
def referencedThrows (n : NodeRef) : StateM σ ThrowSet :=
  if p.isMethodRef n then p.invocationThrows n else pure .empty

end Program

end CheckedExceptions
