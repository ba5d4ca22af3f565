import CheckedExceptions.Completion
import CheckedExceptions.Handlers
import CheckedExceptions.Options
import CheckedExceptions.Resolution
import CheckedExceptions.ThrowSet
import CheckedExceptions.Types.System

/-! The subject of an exception analysis, and the questions that every part of it asks. -/

namespace CheckedExceptions

/-- A program: its tree, and what is known about its types, its control flow and its calls. -/
structure Program (σ : Type) where
  tree : SyntaxTree
  types : TypeSystem σ
  completion : Completion
  resolution : Resolution
  handlers : Handlers
  options : Options

namespace Program

variable {σ : Type} (p : Program σ)

/-- The roots of the exceptions that need not be declared, as far as they are known. -/
def exemptRoots (st : σ) : List TypeRef :=
  [WellKnown.runtimeException, .error].filterMap (p.types.wellKnown? st)

def isUnchecked (st : σ) (ty : TypeRef) : Bool :=
  (p.exemptRoots st).any fun root => p.types.isSubtype st ty root

def isChecked (st : σ) (ty : TypeRef) : Bool := !p.isUnchecked st ty

def declares (st : σ) (throws : List TypeRef) (exception : TypeRef) : Bool :=
  throws.any fun declared => p.types.isSubtype st exception declared

/-- A block of which nothing is known is taken to complete abruptly. -/
def completesNormally (block : NodeRef) : Bool :=
  match p.completion block with
  | .ok completes => completes
  | .error .cancelled => false

def setOf (tys : List TypeRef) : StateM σ ThrowSet := do
  let st ← get
  pure (ThrowSet.ofList (p.types.isSubtype st) tys)

def unite (s t : ThrowSet) : StateM σ ThrowSet := do
  let st ← get
  pure (s.union (p.types.isSubtype st) t)

def uniteAll (thrownBy : NodeRef → StateM σ ThrowSet) (s : ThrowSet) (nodes : List NodeRef) :
    StateM σ ThrowSet :=
  nodes.foldlM (fun s n => do
    let t ← thrownBy n
    p.unite s t) s

/-- The `throws` clause of a candidate at its site. What cannot be thrown there is left out. -/
def throwsAtSite (c : Candidate) : StateM σ (List TypeRef) := do
  let results ← c.callable.throws.mapM fun ty => p.types.substitute ty c.substitution
  pure (results.filterMap id)

def declaredSet (c : Candidate) : StateM σ ThrowSet := do
  let tys ← p.throwsAtSite c
  p.setOf tys

def describe : String :=
  "ExceptionAnalyzer \x7b nodes: " ++ toString p.tree.size
    ++ ", hooks: " ++ p.handlers.describe
    ++ ", options: " ++ p.options.describe ++ ", .. \x7d"

end Program

end CheckedExceptions
