/-! Replacing a piece of text by another. -/

namespace CheckedExceptions

namespace Text

/-- Replaces each occurrence of `pattern`, from left to right and without overlap, after passing
over `skip` characters that belong to the occurrence before. -/
def replaceFrom (pattern replacement : List Char) : (skip : Nat) → List Char → List Char
  | _, [] => []
  | skip + 1, _ :: cs => replaceFrom pattern replacement skip cs
  | 0, c :: cs =>
    if pattern.isPrefixOf (c :: cs) then
      replacement ++ replaceFrom pattern replacement (pattern.length - 1) cs
    else c :: replaceFrom pattern replacement 0 cs

/-- Replaces each occurrence of `pattern`, which is not empty, from left to right. -/
def replaceAll (pattern replacement text : List Char) : List Char :=
  replaceFrom pattern replacement 0 text

end Text

end CheckedExceptions
