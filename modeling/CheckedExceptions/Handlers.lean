import CheckedExceptions.Tree.Basic

/-! Handlers of exceptions that the program text does not show. -/

namespace CheckedExceptions

/-- Decides whether an exception that leaves an element is handled there, in a search that ends at
a boundary: tree, element, exception, boundary. -/
abbrev CustomHandler := SyntaxTree → NodeRef → TypeRef → NodeRef → Bool

/-- Decides which exceptions may leave a code fragment. -/
abbrev FragmentRule := TypeRef → Bool

/-- The handlers in force, those of fragments one to a fragment. -/
structure Handlers where
  custom : List CustomHandler
  fragments : List (NodeRef × FragmentRule)

namespace Handlers

def empty : Handlers := ⟨[], []⟩

def addCustom (h : Handlers) (handler : CustomHandler) : Handlers :=
  { h with custom := h.custom ++ [handler] }

def setFragment (h : Handlers) (fragment : NodeRef) (handler : FragmentRule) : Handlers :=
  { h with fragments := (fragment, handler) :: h.fragments.filter fun f => f.1 != fragment }

def fragment? (h : Handlers) (fragment : NodeRef) : Option FragmentRule :=
  h.fragments.lookup fragment

def someCustom (h : Handlers) (t : SyntaxTree) (element : NodeRef) (exception : TypeRef)
    (top : NodeRef) : Bool :=
  h.custom.any fun handler => handler t element exception top

def fragmentAllows (h : Handlers) (fragment : NodeRef) (exception : TypeRef) : Bool :=
  match h.fragment? fragment with
  | some handler => handler exception
  | none => false

def describe (h : Handlers) : String :=
  "ExceptionHooks \x7b custom: " ++ toString h.custom.length
    ++ ", fragments: " ++ toString h.fragments.length ++ " \x7d"

end Handlers

end CheckedExceptions
