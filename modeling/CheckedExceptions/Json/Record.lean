import CheckedExceptions.Json.Skip

/-! Reading values of an expected form: scalars, optional values, and records of named fields. -/

namespace CheckedExceptions

namespace Json

/-- What is wrong with a value that is not of the expected form. A list or an object is refused at
once, anything else must still be JSON. -/
def refuse (cs : List Char) : Fault :=
  let faultOf {α : Type} (read : Except Fault α) : Fault :=
    match read with
    | .ok _ => .mismatched
    | .error fault => fault
  match cs with
  | [] => .truncated
  | '[' :: _ => .mismatched
  | '{' :: _ => .mismatched
  | '"' :: cs => faultOf (quoted cs)
  | 'n' :: cs => faultOf (expect ['u', 'l', 'l'] cs)
  | 't' :: cs => faultOf (expect ['r', 'u', 'e'] cs)
  | 'f' :: cs => faultOf (expect ['a', 'l', 's', 'e'] cs)
  | c :: cs => if c == '-' || c.isDigit then faultOf (number (c :: cs)) else .malformed

def bool : Reader Bool := fun cs =>
  match skipBlanks cs with
  | 't' :: cs => (expect ['r', 'u', 'e'] cs).map fun cs => (true, cs)
  | 'f' :: cs => (expect ['a', 'l', 's', 'e'] cs).map fun cs => (false, cs)
  | cs => .error (refuse cs)

def natBelow (limit : Nat) : Reader Nat := fun cs =>
  match skipBlanks cs with
  | [] => .error .truncated
  | c :: cs =>
    if c == '-' || c.isDigit then do
      let (t, cs) ← number (c :: cs)
      match t.natural? with
      | some n => if n < limit then .ok (n, cs) else .error .mismatched
      | none => .error .mismatched
    else .error (refuse (c :: cs))

def string : Reader String := fun cs =>
  match skipBlanks cs with
  | '"' :: cs => (quoted cs).map fun r => (String.ofList r.1, r.2)
  | cs => .error (refuse cs)

def nullable {α : Type} (value : Reader α) : Reader (Option α) := fun cs =>
  match skipBlanks cs with
  | 'n' :: cs => (expect ['u', 'l', 'l'] cs).map fun cs => (none, cs)
  | cs => (value cs).map fun r => (some r.1, r.2)

/-- A field of a record: its key, and how its value changes the record. -/
structure Field (ρ : Type) where
  key : String
  read : Reader (ρ → ρ)

namespace Field

def ofReader {ρ α : Type} (key : String) (value : Reader α) (set : α → ρ → ρ) : Field ρ where
  key := key
  read := fun cs => (value cs).map fun r => (set r.1, r.2)

def readInto {ρ : Type} (f : Field ρ) (record : ρ) : Reader ρ := fun cs =>
  (f.read cs).map fun r => (r.1 record, r.2)

end Field

section Record

variable {ρ : Type} (fields : List (Field ρ))

/-- Reads a key and its value, from behind the opening quote of the key. A known key must not have
been `seen` before; an unknown one is passed over. -/
def member (seen : List String) (record : ρ) : Reader (List String × ρ) := fun cs => do
  let (key, cs) ← quoted cs
  let key := String.ofList key
  match fields.find? fun f => f.key == key with
  | some f =>
    if seen.contains key then .error .mismatched
    else
      let cs ← expectNext ':' cs
      let (record, cs) ← f.readInto record cs
      .ok ((key :: seen, record), cs)
  | none =>
    let cs ← expectNext ':' cs
    let cs ← skipValue cs
    .ok ((seen, record), cs)

def moreMembers : Nat → (seen : List String) → (record : ρ) → Reader ρ
  | 0, _, _, _ => .error .truncated
  | fuel + 1, seen, record, cs =>
    match skipBlanks cs with
    | [] => .error .truncated
    | '}' :: cs => .ok (record, cs)
    | ',' :: cs => do
      let cs ← expectNext '"' cs
      let ((seen, record), cs) ← member fields seen record cs
      moreMembers fuel seen record cs
    | _ => .error .malformed

/-- Reads an object, from behind its opening brace. A text has no more members than characters. -/
def object (record : ρ) : Reader ρ := fun cs =>
  match skipBlanks cs with
  | [] => .error .truncated
  | '}' :: cs => .ok (record, cs)
  | '"' :: cs => do
    let ((seen, record), rest) ← member fields [] record cs
    moreMembers fields cs.length seen record rest
  | _ => .error .malformed

/-- Reads the elements of a list that follow another element, as the values of `fields`. The list may
end before the fields do, but not after them. -/
def moreElements : List (Field ρ) → (record : ρ) → Reader ρ
  | [], record, cs => (expectNext ']' cs).map fun cs => (record, cs)
  | f :: fields, record, cs =>
    match skipBlanks cs with
    | [] => .error .truncated
    | ']' :: cs => .ok (record, cs)
    | ',' :: cs =>
      match skipBlanks cs with
      | ']' :: _ => .error .malformed
      | cs => do
        let (record, cs) ← f.readInto record cs
        moreElements fields record cs
    | _ => .error .malformed

def elements (record : ρ) : Reader ρ := fun cs =>
  match fields with
  | [] => (expectNext ']' cs).map fun cs => (record, cs)
  | f :: fields =>
    match skipBlanks cs with
    | [] => .error .truncated
    | ']' :: cs => .ok (record, cs)
    | cs => do
      let (record, cs) ← f.readInto record cs
      moreElements fields record cs

/-- Reads a record, which is an object or the list of its values. What is left out stays as it is in
`initial`. -/
def record (initial : ρ) : Reader ρ := fun cs =>
  match skipBlanks cs with
  | '[' :: cs => elements fields initial cs
  | '{' :: cs => object fields initial cs
  | cs => .error (refuse cs)

end Record

/-- Reads a text that holds one value and nothing else. -/
def document {α : Type} (value : Reader α) (source : String) : Except Fault α := do
  let (a, cs) ← value source.toList
  if (skipBlanks cs).isEmpty then .ok a else .error .malformed

end Json

end CheckedExceptions
