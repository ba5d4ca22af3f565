import CheckedExceptions.Json.Reader

/-! Strings of JSON, from behind the opening quote to behind the closing one. -/

namespace CheckedExceptions

namespace Json

def hexDigit? (c : Char) : Option Nat :=
  if '0' ≤ c ∧ c ≤ '9' then some (c.toNat - '0'.toNat)
  else if 'a' ≤ c ∧ c ≤ 'f' then some (c.toNat - 'a'.toNat + 10)
  else if 'A' ≤ c ∧ c ≤ 'F' then some (c.toNat - 'A'.toNat + 10)
  else none

def codeUnit? (a b c d : Char) : Option Nat := do
  let a ← hexDigit? a
  let b ← hexDigit? b
  let c ← hexDigit? c
  let d ← hexDigit? d
  pure (((a * 16 + b) * 16 + c) * 16 + d)

def isLeading (unit : Nat) : Bool := 0xD800 ≤ unit && unit ≤ 0xDBFF

def isTrailing (unit : Nat) : Bool := 0xDC00 ≤ unit && unit ≤ 0xDFFF

/-- The character beyond the basic plane that a pair of code units stands for. -/
def pairedChar (leading trailing : Nat) : Char :=
  Char.ofNat ((leading - 0xD800) * 0x400 + (trailing - 0xDC00) + 0x10000)

/-- What is wrong where four hexadecimal digits should stand and there are fewer than four
characters: the text has ended, unless what is left is four bytes long all the same. -/
def shortEscape (cs : List Char) : Fault :=
  if cs.foldr (fun c size => c.utf8Size + size) 0 < 4 then .truncated else .malformed

def missingPair : List Char → Fault
  | [] => .truncated
  | ['\\'] => .truncated
  | '\\' :: 'u' :: cs => shortEscape cs
  | _ => .malformed

def escaped? : Char → Option Char
  | '"' => some '"'
  | '\\' => some '\\'
  | '/' => some '/'
  | 'b' => some '\x08'
  | 'f' => some '\x0c'
  | 'n' => some '\n'
  | 'r' => some '\r'
  | 't' => some '\t'
  | _ => none

def prepend (c : Char) (read : Except Fault (List Char × List Char)) :
    Except Fault (List Char × List Char) :=
  read.map fun r => (c :: r.1, r.2)

/-- Reads a string and resolves its escapes. Code units that do not stand for a character must come
in pairs that do. -/
def quoted : Reader (List Char)
  | [] => .error .truncated
  | '"' :: cs => .ok ([], cs)
  | '\\' :: 'u' :: a :: b :: c :: d :: cs =>
    match codeUnit? a b c d with
    | none => .error .malformed
    | some unit =>
      if isTrailing unit then .error .malformed
      else if isLeading unit then
        match cs with
        | '\\' :: 'u' :: e :: f :: g :: h :: cs =>
          match codeUnit? e f g h with
          | none => .error .malformed
          | some next =>
            if isTrailing next then prepend (pairedChar unit next) (quoted cs)
            else .error .malformed
        | cs => .error (missingPair cs)
      else prepend (Char.ofNat unit) (quoted cs)
  | '\\' :: 'u' :: cs => .error (shortEscape cs)
  | ['\\'] => .error .truncated
  | '\\' :: c :: cs =>
    match escaped? c with
    | some e => prepend e (quoted cs)
    | none => .error .malformed
  | c :: cs => if c < ' ' then .error .malformed else prepend c (quoted cs)

/-- Passes over a string. Its escapes must be well formed, but need not stand for characters. -/
def skipQuoted : List Char → Except Fault (List Char)
  | [] => .error .truncated
  | '"' :: cs => .ok cs
  | '\\' :: 'u' :: a :: b :: c :: d :: cs =>
    if (codeUnit? a b c d).isSome then skipQuoted cs else .error .malformed
  | '\\' :: 'u' :: cs => .error (shortEscape cs)
  | ['\\'] => .error .truncated
  | '\\' :: c :: cs => if (escaped? c).isSome then skipQuoted cs else .error .malformed
  | c :: cs => if c < ' ' then .error .malformed else skipQuoted cs

end Json

end CheckedExceptions
