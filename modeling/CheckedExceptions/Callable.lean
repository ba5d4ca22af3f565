import CheckedExceptions.Types.Substitution

/-! Methods and constructors as a call site sees them. -/

namespace CheckedExceptions

inductive CallableKind where
  | method
  | constructor
deriving DecidableEq, Repr

/-- A method or constructor with the class that declares it and its `throws` clause, which is in
terms of its own type parameters. -/
structure Callable where
  name : String
  kind : CallableKind
  owner : TypeRef
  throws : List TypeRef
deriving DecidableEq, Repr

namespace Callable

def method (name : String) (owner : TypeRef) (throws : List TypeRef) : Callable :=
  ⟨name, .method, owner, throws⟩

/-- All constructors have the same name. -/
def constructor (owner : TypeRef) (throws : List TypeRef) : Callable :=
  ⟨"<init>", .constructor, owner, throws⟩

end Callable

structure Candidate where
  callable : Callable
  substitution : Substitution
deriving Repr

/-- What a call, an object creation or a method reference resolves to: the chosen candidate, and
the others that apply as well. -/
structure CallTarget where
  chosen : Candidate
  others : List Candidate
deriving Repr

namespace CallTarget

def isAmbiguous (target : CallTarget) : Bool :=
  target.others.any fun c => c.callable != target.chosen.callable

def appendNew (listed : List Candidate) (c : Candidate) : List Candidate :=
  if listed.any fun l => l.callable == c.callable then listed else listed ++ [c]

def distinct (target : CallTarget) : List Candidate :=
  target.others.foldl appendNew [target.chosen]

end CallTarget

end CheckedExceptions
