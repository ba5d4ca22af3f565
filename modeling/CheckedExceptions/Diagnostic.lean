import CheckedExceptions.Text.Replace

/-! Messages to the user: the catalogue of templates, and diagnostics made from them. -/

namespace CheckedExceptions

inductive Category where
  | error
  | message
deriving DecidableEq, Repr

namespace Category

def name : Category → String
  | error => "Error"
  | message => "Message"

end Category

structure Template where
  code : Nat
  category : Category
  text : String
deriving DecidableEq, Repr

namespace Template

def oneUnhandled : Template :=
  ⟨1001, .error, "Unhandled exception: \x7b0\x7d"⟩

def severalUnhandled : Template :=
  ⟨1002, .error, "Unhandled exceptions: \x7b0\x7d"⟩

def unhandledAtClosing : Template :=
  ⟨1003, .error, "Unhandled exception from auto-closeable resource: \x7b0\x7d"⟩

def origin : Template :=
  ⟨1100, .message, "'\x7b0\x7d' is thrown here."⟩

def catalogue : List Template :=
  [oneUnhandled, severalUnhandled, unhandledAtClosing, origin]

def withCode? (code : Nat) : Option Template :=
  catalogue.find? fun t => t.code == code

def place (index : Nat) : List Char :=
  '\x7b' :: (toString index).toList ++ ['\x7d']

/-- Fills the places numbered from `index` on, one argument after the other. What an argument brings
along is filled in by the arguments that follow it. -/
def fillFrom : (index : Nat) → List Char → List (List Char) → List Char
  | _, text, [] => text
  | index, text, arg :: args => fillFrom (index + 1) (Text.replaceAll (place index) arg text) args

def fill (text : String) (args : List String) : String :=
  String.ofList (fillFrom 0 text.toList (args.map String.toList))

end Template

structure RelatedPlace where
  file : String
  start : Nat
  length : Nat
  message : String
deriving DecidableEq, Repr

namespace RelatedPlace

def category : Category := Template.origin.category

def code : Nat := Template.origin.code

end RelatedPlace

structure Diagnostic where
  file : String
  start : Nat
  length : Nat
  message : String
  code : Nat
  related : List RelatedPlace
deriving DecidableEq, Repr

namespace Diagnostic

def category : Category := .error

end Diagnostic

end CheckedExceptions
