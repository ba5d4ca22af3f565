import CheckedExceptions.Analysis.Ascent

/-! The places in a program where exceptions arise that nothing handles. -/

namespace CheckedExceptions

/-- A construct that leaves exceptions unhandled, by itself or by closing a resource. -/
structure Site where
  node : NodeRef
  byClosing : Bool
  exceptions : ThrowSet
deriving DecidableEq, Repr

namespace Program

variable {σ : Type} (p : Program σ)

/-- The node stands directly in a list of try resources and declares no variable. -/
def isBareResource (n : NodeRef) : Bool :=
  (match p.tree.payload? (p.tree.parent n) with
    | some (.resourceList _) => true
    | _ => false) &&
  match p.tree.payload? n with
  | some (.resourceVariable ..) => false
  | _ => true

def ownThrows (site : NodeRef) : StateM σ ThrowSet := do
  match p.tree.payload? site with
  | none => pure .empty
  | some (.call ..) => p.invocationThrows site
  | some (.creation ..) => p.invocationThrows site
  | some (.methodRef ..) => p.invocationThrows site
  | some (.throwing expression) =>
    let tys ← p.raisedTypes (p.thrownWithin p.options.maxTreeDepth) expression
    p.setOf tys
  | some (.resourceVariable ..) => p.closingThrows site
  | some _ => if p.isBareResource site then p.closingThrows site else pure .empty

def unhandledItself (site top : NodeRef) : StateM σ ThrowSet := do
  let own ← p.ownThrows site
  p.remaining site own top

def isClosed (n : NodeRef) : Bool :=
  match p.tree.payload? n with
  | none => false
  | some (.resourceVariable ..) => true
  | some _ => p.isBareResource n

def isThrower (n : NodeRef) : Bool :=
  match p.tree.payload? n with
  | some (.call ..) => true
  | some (.creation ..) => true
  | some (.methodRef ..) => true
  | some (.throwing _) => true
  | _ => false

def siteOf (n : NodeRef) (byClosing : Bool) (set : ThrowSet) : List Site :=
  if set.isEmpty then [] else [⟨n, byClosing, set⟩]

def sitesAt (top n : NodeRef) : StateM σ (List Site) := do
  let closing ← if p.isClosed n then siteOf n true <$> p.unhandledClosing n top else pure []
  let own ← if p.isThrower n then siteOf n false <$> p.unhandledItself n top else pure []
  pure (closing ++ own)

/-- The sites at `root` and below, in source order. What is inside lambdas and classes is judged
there, like everything else. -/
def sites (root top : NodeRef) : StateM σ (List Site) := do
  let found ← (p.tree.preorder root).mapM fun n => p.sitesAt top (some n)
  pure found.flatten

end Program

end CheckedExceptions
