import CheckedExceptions.Json.Record
import CheckedExceptions.Options

/-! Settings as configuration files write them, and the options they amount to. -/

namespace CheckedExceptions

/-- Depths are written as 32-bit numbers. -/
def depth : Json.Reader Nat := Json.natBelow UInt32.size

namespace Options

def fields : List (Json.Field Options) :=
  [ .ofReader "overloadIntersection" Json.bool fun v o => { o with overloadIntersection := v },
    .ofReader "preciseRethrow" Json.bool fun v o => { o with preciseRethrow := v },
    .ofReader "permissiveServerPages" Json.bool fun v o => { o with permissiveServerPages := v },
    .ofReader "permissiveMissingFunctionalType" Json.bool fun v o =>
      { o with permissiveMissingFunctionalType := v },
    .ofReader "maxTreeDepth" depth fun v o => { o with maxTreeDepth := v },
    .ofReader "maxAscentDepth" depth fun v o => { o with maxAscentDepth := v } ]

def parse (source : String) : Except Json.Fault Options :=
  Json.document (Json.record fields default) source

end Options

structure Settings where
  strict : Option Bool
  overloadIntersection : Option Bool
  preciseRethrow : Option Bool
  permissiveServerPages : Option Bool
  permissiveMissingFunctionalType : Option Bool
  maxTreeDepth : Option Nat
  maxAscentDepth : Option Nat
deriving DecidableEq, Repr

namespace Settings

def unset : Settings := ⟨none, none, none, none, none, none, none⟩

def fields : List (Json.Field Settings) :=
  [ .ofReader "strict" (Json.nullable Json.bool) fun v s => { s with strict := v },
    .ofReader "overloadIntersection" (Json.nullable Json.bool) fun v s =>
      { s with overloadIntersection := v },
    .ofReader "preciseRethrow" (Json.nullable Json.bool) fun v s => { s with preciseRethrow := v },
    .ofReader "permissiveServerPages" (Json.nullable Json.bool) fun v s =>
      { s with permissiveServerPages := v },
    .ofReader "permissiveMissingFunctionalType" (Json.nullable Json.bool) fun v s =>
      { s with permissiveMissingFunctionalType := v },
    .ofReader "maxTreeDepth" (Json.nullable depth) fun v s => { s with maxTreeDepth := v },
    .ofReader "maxAscentDepth" (Json.nullable depth) fun v s => { s with maxAscentDepth := v } ]

def inheriting (s base : Settings) : Settings where
  strict := s.strict.or base.strict
  overloadIntersection := s.overloadIntersection.or base.overloadIntersection
  preciseRethrow := s.preciseRethrow.or base.preciseRethrow
  permissiveServerPages := s.permissiveServerPages.or base.permissiveServerPages
  permissiveMissingFunctionalType :=
    s.permissiveMissingFunctionalType.or base.permissiveMissingFunctionalType
  maxTreeDepth := s.maxTreeDepth.or base.maxTreeDepth
  maxAscentDepth := s.maxAscentDepth.or base.maxAscentDepth

/-- The options that settings amount to. What is left open is as in the strict options or as in the
default ones, by choice. -/
def options (s : Settings) : Options :=
  let preset := if s.strict.getD false then Options.strict else Options.default
  { overloadIntersection := s.overloadIntersection.getD preset.overloadIntersection
    preciseRethrow := s.preciseRethrow.getD preset.preciseRethrow
    permissiveServerPages := s.permissiveServerPages.getD preset.permissiveServerPages
    permissiveMissingFunctionalType :=
      s.permissiveMissingFunctionalType.getD preset.permissiveMissingFunctionalType
    maxTreeDepth := s.maxTreeDepth.getD preset.maxTreeDepth
    maxAscentDepth := s.maxAscentDepth.getD preset.maxAscentDepth }

end Settings

end CheckedExceptions
