import CheckedExceptions.Config.Settings

/-! Configuration files and their contents. -/

namespace CheckedExceptions

structure ConfigFile where
  base : Option String
  analysis : Option Settings
deriving DecidableEq, Repr

namespace ConfigFile

def fileName : String := "exflow.json"

def fields : List (Json.Field ConfigFile) :=
  [ .ofReader "extends" (Json.nullable Json.string) fun v c => { c with base := v },
    .ofReader "analysis" (Json.nullable (Json.record Settings.fields .unset)) fun v c =>
      { c with analysis := v } ]

def parse (source : String) : Except Json.Fault ConfigFile :=
  Json.document (Json.record fields ⟨none, none⟩) source

def parseFailure : String := "failed to parse exflow config JSON"

def settingsOver : (own base : Option Settings) → Option Settings
  | some own, some base => some (own.inheriting base)
  | some own, none => some own
  | none, base => base

/-- The contents with what `base` adds. Nothing remains to be built on. -/
def inheriting (c base : ConfigFile) : ConfigFile where
  base := none
  analysis := settingsOver c.analysis base.analysis

def options (c : ConfigFile) : Options :=
  match c.analysis with
  | some settings => settings.options
  | none => .default

end ConfigFile

end CheckedExceptions
