import CheckedExceptions.Text.Blank

/-! The format of logs. -/

namespace CheckedExceptions

inductive LogFormat where
  | text
  | tree
  | json
deriving DecidableEq, Repr

namespace LogFormat

def name : LogFormat → String
  | text => "Text"
  | tree => "Tree"
  | json => "Json"

/-- Reads the name of a format. White space around it does not count, nor does case: the only
characters whose lower case is a letter of these names are that letter itself and its ASCII
capital. Anything else means plain text. -/
def parse (value : String) : LogFormat :=
  match String.ofList ((Text.trim value.toList).map Char.toLower) with
  | "tree" => tree
  | "json" => json
  | _ => text

end LogFormat

end CheckedExceptions
