import CheckedExceptions.Json.Number
import CheckedExceptions.Json.Quoted

/-! Passing over values that are not looked at. -/

namespace CheckedExceptions

namespace Json

abbrev Skipper := List Char → Except Fault (List Char)

def skipElements (value : Skipper) : Nat → Skipper
  | 0, _ => .error .truncated
  | fuel + 1, cs =>
    match skipBlanks cs with
    | [] => .error .truncated
    | ']' :: cs => .ok cs
    | ',' :: cs => do
      let cs ← value cs
      skipElements value fuel cs
    | _ => .error .malformed

def skipMember (value : Skipper) : Skipper := fun cs => do
  let cs ← expectNext '"' cs
  let cs ← skipQuoted cs
  let cs ← expectNext ':' cs
  value cs

def skipMembers (value : Skipper) : Nat → Skipper
  | 0, _ => .error .truncated
  | fuel + 1, cs =>
    match skipBlanks cs with
    | [] => .error .truncated
    | '}' :: cs => .ok cs
    | ',' :: cs => do
      let cs ← skipMember value cs
      skipMembers value fuel cs
    | _ => .error .malformed

def skipList (value : Skipper) (fuel : Nat) : Skipper := fun cs =>
  match skipBlanks cs with
  | [] => .error .truncated
  | ']' :: cs => .ok cs
  | cs => do
    let cs ← value cs
    skipElements value fuel cs

def skipObject (value : Skipper) (fuel : Nat) : Skipper := fun cs =>
  match skipBlanks cs with
  | [] => .error .truncated
  | '}' :: cs => .ok cs
  | cs => do
    let cs ← skipMember value cs
    skipMembers value fuel cs

/-- Passes over a value. Each level and each member or element uses up one unit of fuel. -/
def skipValueWithin : Nat → Skipper
  | 0, _ => .error .truncated
  | fuel + 1, cs =>
    match skipBlanks cs with
    | [] => .error .truncated
    | '"' :: cs => skipQuoted cs
    | '[' :: cs => skipList (skipValueWithin fuel) fuel cs
    | '{' :: cs => skipObject (skipValueWithin fuel) fuel cs
    | 'n' :: cs => expect ['u', 'l', 'l'] cs
    | 't' :: cs => expect ['r', 'u', 'e'] cs
    | 'f' :: cs => expect ['a', 'l', 's', 'e'] cs
    | c :: cs => if c == '-' || c.isDigit then skipNumber (c :: cs) else .error .malformed

/-- Passes over a value. A text has no more levels, members and elements than characters. -/
def skipValue : Skipper := fun cs => skipValueWithin (cs.length + 1) cs

end Json

end CheckedExceptions
