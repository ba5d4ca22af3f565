/-! The options of an exception analysis. -/

namespace CheckedExceptions

structure Options where
  /-- An ambiguous call throws only what all its candidates agree on. -/
  overloadIntersection : Bool
  /-- A catch parameter that is never reassigned is rethrown with the types that reach it. -/
  preciseRethrow : Bool
  /-- A server page handles whatever its code throws. -/
  permissiveServerPages : Bool
  /-- A lambda or method reference of unknown type handles whatever it throws. -/
  permissiveMissingFunctionalType : Bool
  /-- Levels of the tree that are searched for thrown exceptions, the first one not counted. -/
  maxTreeDepth : Nat
  /-- Nodes that are passed on the way up to a handler. -/
  maxAscentDepth : Nat
deriving DecidableEq, Repr

namespace Options

def defaultTreeDepth : Nat := 2000

def defaultAscentDepth : Nat := 10000

def default : Options where
  overloadIntersection := true
  preciseRethrow := true
  permissiveServerPages := true
  permissiveMissingFunctionalType := true
  maxTreeDepth := defaultTreeDepth
  maxAscentDepth := defaultAscentDepth

/-- Nothing is let pass for want of knowledge. -/
def strict : Options :=
  { default with permissiveServerPages := false, permissiveMissingFunctionalType := false }

def describe (o : Options) : String :=
  "AnalysisOptions \x7b overload_intersection: " ++ toString o.overloadIntersection
    ++ ", precise_rethrow: " ++ toString o.preciseRethrow
    ++ ", permissive_server_pages: " ++ toString o.permissiveServerPages
    ++ ", permissive_missing_functional_type: " ++ toString o.permissiveMissingFunctionalType
    ++ ", max_tree_depth: " ++ toString o.maxTreeDepth
    ++ ", max_ascent_depth: " ++ toString o.maxAscentDepth ++ " \x7d"

end Options

end CheckedExceptions
