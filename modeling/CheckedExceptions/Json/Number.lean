import CheckedExceptions.Json.Reader

/-! Numbers of JSON: their spelling, and which of them are natural numbers or too large to read. -/

namespace CheckedExceptions

namespace Json

structure NumberText where
  negative : Bool
  whole : List Char
  fraction : Option (List Char)
  /-- The sign, positive or not, and the digits. -/
  exponent : Option (Bool × List Char)
deriving DecidableEq, Repr

/-- The digits at the front of a text, of which there is at least one, and the rest. At the end of
the text the fault is `atEnd`. -/
def digits (atEnd : Fault) : Reader (List Char)
  | [] => .error atEnd
  | c :: cs =>
    if c.isDigit then .ok (c :: cs.takeWhile Char.isDigit, cs.dropWhile Char.isDigit)
    else .error .malformed

/-- The digits before the point, which do not start with a superfluous zero. -/
def wholeDigits (atEnd : Fault) : Reader (List Char)
  | '0' :: c :: cs => if c.isDigit then .error .malformed else .ok (['0'], c :: cs)
  | cs => digits atEnd cs

def fractionDigits (atEnd : Fault) : Reader (Option (List Char))
  | '.' :: cs => (digits atEnd cs).map fun r => (some r.1, r.2)
  | cs => .ok (none, cs)

def exponentSign : List Char → Bool × List Char
  | '+' :: cs => (true, cs)
  | '-' :: cs => (false, cs)
  | cs => (true, cs)

def exponentDigits (atEnd : Fault) (cs : List Char) :
    Except Fault (Option (Bool × List Char) × List Char) :=
  let (positive, cs) := exponentSign cs
  (digits atEnd cs).map fun r => (some (positive, r.1), r.2)

def exponentPart (atEnd : Fault) : Reader (Option (Bool × List Char))
  | 'e' :: cs => exponentDigits atEnd cs
  | 'E' :: cs => exponentDigits atEnd cs
  | cs => .ok (none, cs)

def minusSign : List Char → Bool × List Char
  | '-' :: cs => (true, cs)
  | cs => (false, cs)

def numberText (atEnd : Fault) (cs : List Char) : Except Fault (NumberText × List Char) := do
  let (negative, cs) := minusSign cs
  let (whole, cs) ← wholeDigits atEnd cs
  let (fraction, cs) ← fractionDigits atEnd cs
  let (exponent, cs) ← exponentPart atEnd cs
  pure (⟨negative, whole, fraction, exponent⟩, cs)

def digitValue (c : Char) : Nat := c.toNat - '0'.toNat

def digitsValue (ds : List Char) : Nat := ds.foldl (fun n c => n * 10 + digitValue c) 0

/-- Appends digits to a number as long as it stays below `2 ^ 64`, and tells how many digits were
left over. -/
def appendDigits : Nat → List Char → Nat × Nat
  | n, [] => (n, 0)
  | n, d :: ds =>
    let next := n * 10 + digitValue d
    if next < UInt64.size then appendDigits next ds else (n, (d :: ds).length)

/-- The nearest number with a mantissa of 53 bits; of two equally near ones, the one with the even
mantissa. -/
def roundToDouble (n : Nat) : Nat :=
  let unit := 1 <<< (n.log2 + 1 - 53)
  let mantissa := n / unit
  let rest := n % unit
  if 2 * rest < unit then mantissa * unit
  else if 2 * rest = unit ∧ mantissa % 2 = 0 then mantissa * unit
  else (mantissa + 1) * unit

/-- From here on a number rounds beyond the largest finite double. -/
def doubleLimit : Nat := 1 <<< 1024 - 1 <<< 970

namespace NumberText

/-- The number as its leading digits, as many as fit into 64 bits, times a power of ten. -/
def scaled (t : NumberText) : Nat × Int :=
  let (whole, dropped) := appendDigits 0 t.whole
  let fraction := t.fraction.getD []
  let (significand, unused) := appendDigits whole fraction
  let power : Int := dropped - (fraction.length - unused : Nat)
  match t.exponent with
  | none => (significand, power)
  | some (true, ds) => (significand, power + digitsValue ds)
  | some (false, ds) => (significand, power - digitsValue ds)

/-- The number is too large for a double. Digits and power of ten are rounded separately. -/
def isTooLarge (t : NumberText) : Bool :=
  let (significand, power) := t.scaled
  significand ≠ 0 && 0 ≤ power &&
    (308 < power || doubleLimit ≤ roundToDouble significand * roundToDouble (Nat.pow 10 power.toNat))

def natural? (t : NumberText) : Option Nat :=
  if t.negative || t.fraction.isSome || t.exponent.isSome then none else some (digitsValue t.whole)

end NumberText

/-- Reads a number. One that is too large for a double is no JSON. -/
def number : Reader NumberText := fun cs => do
  let (t, cs) ← numberText .truncated cs
  if t.isTooLarge then .error .malformed else .ok (t, cs)

def skipNumber (cs : List Char) : Except Fault (List Char) :=
  (numberText .malformed cs).map Prod.snd

end Json

end CheckedExceptions
