import HoleBlame.Text.Class

/-!
# Scanning a line

The pieces from which the recognisers of lines and properties are put together.  Each works on a list
of characters and either splits it or takes something off its front.  `trim` and `words` treat all
white space alike, and no text has blanks at an end after `trim`.
-/

namespace HoleBlame.Text

/-- The text without the blanks in front. -/
def skipBlanks (text : List Char) : List Char :=
  text.dropWhile isBlank

/-- The text without the blanks at its end. -/
def dropBlankEnd (text : List Char) : List Char :=
  (text.reverse.dropWhile isBlank).reverse

/-- The text without the blanks at either end. -/
def trim (text : List Char) : List Char :=
  dropBlankEnd (skipBlanks text)

/-- The words of a text that continues a word, given backwards: the longest runs without a blank. -/
def wordsFrom : List Char → List Char → List (List Char)
  | [], [] => []
  | current, [] => [current.reverse]
  | [], c :: rest => if isBlank c then wordsFrom [] rest else wordsFrom [c] rest
  | current, c :: rest =>
    if isBlank c then current.reverse :: wordsFrom [] rest else wordsFrom (c :: current) rest

/-- The words of a text, which blanks separate. -/
def words (text : List Char) : List (List Char) :=
  wordsFrom [] text

/-- What follows a word, if the text starts with it. -/
def after? : List Char → List Char → Option (List Char)
  | [], text => some text
  | _ :: _, [] => none
  | c :: word, d :: text => if c = d then after? word text else none

/-- What follows at least one blank and all further ones, if the text starts with a blank. -/
def afterBlanks? : List Char → Option (List Char)
  | [] => none
  | c :: rest => if isBlank c then some (skipBlanks rest) else none

/-- The longest run of decimal digits in front, if there is one, and what follows it. -/
def number? (text : List Char) : Option (List Char × List Char) :=
  let digits := text.takeWhile isDecimalDigit
  if digits = [] then none else some (digits, text.dropWhile isDecimalDigit)

/-- The longest run without a blank in front, if there is one, and what follows it. -/
def word? (text : List Char) : Option (List Char × List Char) :=
  let word := text.takeWhile fun c => !isBlank c
  if word = [] then none else some (word, text.dropWhile fun c => !isBlank c)

/-- What stands before the first occurrence of a character, and what follows it. -/
def upTo? (stop : Char) : List Char → Option (List Char × List Char)
  | [] => none
  | c :: rest =>
    if c = stop then some ([], rest)
    else (upTo? stop rest).map fun (before, after) => (c :: before, after)

end HoleBlame.Text
