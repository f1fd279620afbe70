import HoleBlame.Decimal.Nearest
import HoleBlame.Decimal.Shortest

/-!
# Numbers in print

Every number in a file, a message or an answer is written with the fewest digits that read back, in
positional notation and never with an exponent: whole numbers without a point, other numbers with at
least one digit on either side of it.  Zero keeps its sign, infinite values are `inf` and `-inf`, and
the undefined value is `NaN`.

Reports that are meant for the eye use `compactText` instead: six places, but none for whole numbers.
-/

namespace HoleBlame

namespace Decimal

/-- The digits of a natural number. -/
def natDigits (n : Nat) : List Char :=
  Nat.toDigits 10 n

/-- Lays out digits so that the last `places` of them follow the point, filling up with zeros so that
at least one digit precedes it.  Without places there is no point. -/
def withPlaces (digits : List Char) (places : Nat) : List Char :=
  if places = 0 then digits
  else
    let filled := List.replicate (places + 1 - digits.length) '0' ++ digits
    filled.take (filled.length - places) ++ '.' :: filled.drop (filled.length - places)

/-- Drops the zeros at the end of the digits, each of which raises the exponent by one.  The first
argument bounds how many are dropped. -/
def stripZeros : Nat → Decimal → Decimal
  | 0, d => d
  | k + 1, d =>
    if d.digits ≠ 0 ∧ d.digits % 10 = 0 then stripZeros k ⟨d.digits / 10, d.exponent + 1⟩ else d

/-- The positional text of a decimal. -/
def positional (d : Decimal) : List Char :=
  let d := d.stripZeros (natDigits d.digits).length
  if d.exponent < 0 then withPlaces (natDigits d.digits) (-d.exponent).toNat
  else natDigits d.digits ++ List.replicate d.exponent.toNat '0'

end Decimal

namespace Binary

/-- The magnitude with exactly the given number of places; the exact value is rounded, half to even. -/
def fixed (x : Binary) (places : Nat) : List Char :=
  Decimal.withPlaces (Decimal.natDigits (Decimal.roundDiv (x.scaledNum places) (x.scaledDen places))) places

/-- The magnitude in positional notation. -/
def positional (x : Binary) : List Char :=
  if x.mantissa = 0 then ['0'] else x.shortest.positional

end Binary

/-- The sign bit of a binary64 value. -/
def isNegative (x : Float) : Bool :=
  x.toBits >>> 63 = 1

/-- Puts a minus sign in front of the text of a magnitude. -/
def signed (negative : Bool) (magnitude : List Char) : String :=
  String.ofList (if negative then '-' :: magnitude else magnitude)

/-- The text of a number. -/
def numberText (x : Float) : String :=
  if x.isNaN then "NaN"
  else if x.isInf then signed (isNegative x) ['i', 'n', 'f']
  else signed (isNegative x) (Binary.ofBits x.toBits).positional

/-- The text of a probability or an expected reward in a report: six places, none for whole numbers
below a quadrillion, and no sign on zero. -/
def compactText (x : Float) : String :=
  if x.isNaN then "NaN"
  else if x.isInf then signed (isNegative x) ['i', 'n', 'f']
  else
    let magnitude := Binary.ofBits x.toBits
    match magnitude.whole? with
    | some n =>
      if n < 1000000000000000 then signed (isNegative x && n != 0) (Decimal.natDigits n)
      else signed (isNegative x) (magnitude.fixed 6)
    | none => signed (isNegative x) (magnitude.fixed 6)

end HoleBlame
