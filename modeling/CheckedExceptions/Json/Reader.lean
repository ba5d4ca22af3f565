/-! Reading JSON from left to right, up to the first problem. -/

namespace CheckedExceptions

namespace Json

inductive Fault where
  | truncated
  /-- The text is not JSON. -/
  | malformed
  /-- The text is JSON as far as it was read, but not what is expected there. -/
  | mismatched
deriving DecidableEq, Repr

/-- Reads a value from the front of a text and leaves the rest. -/
abbrev Reader (α : Type) := List Char → Except Fault (α × List Char)

def isBlank (c : Char) : Bool := c == ' ' || c == '\n' || c == '\t' || c == '\r'

def skipBlanks (cs : List Char) : List Char := cs.dropWhile isBlank

def expect : List Char → List Char → Except Fault (List Char)
  | [], cs => .ok cs
  | _ :: _, [] => .error .truncated
  | w :: word, c :: cs => if c = w then expect word cs else .error .malformed

def expectNext (w : Char) (cs : List Char) : Except Fault (List Char) :=
  expect [w] (skipBlanks cs)

end Json

end CheckedExceptions
