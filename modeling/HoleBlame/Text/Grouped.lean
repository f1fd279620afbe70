/-!
# Thousands separators

`grouped` puts a comma before every third character from the right, as one writes large numbers.  The
positions are counted in bytes of UTF-8, from the length of the whole text, so that a text beyond
ASCII is grouped less evenly; a sign counts as a digit.
-/

namespace HoleBlame.Text

/-- Puts a comma before every character, except the first, that has a multiple of three positions
from itself to the end.  The first argument says how many positions are left, the second whether
this is the first character. -/
def groupFrom : Nat → Bool → List Char → List Char
  | _, _, [] => []
  | left, first, c :: rest =>
    if !first && left % 3 == 0 then ',' :: c :: groupFrom (left - 1) false rest
    else c :: groupFrom (left - 1) false rest

/-- A text with thousands separators. -/
def grouped (text : String) : String :=
  String.ofList (groupFrom text.utf8ByteSize true text.toList)

end HoleBlame.Text
