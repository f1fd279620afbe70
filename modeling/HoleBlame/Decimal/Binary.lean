/-!
# Binary64 values as exact numbers

A finite binary64 value is a whole number times a power of two.  The real numbers that round to it
form an interval, from halfway to the neighbour below up to halfway to the neighbour above; the two
ends belong to it exactly when the whole number is even.  `Binary.readsBack` decides membership in
that interval for a decimal, by comparing natural numbers and nothing else.
-/

namespace HoleBlame

/-- The decimal number `digits * 10 ^ exponent`. -/
structure Decimal where
  /-- The digits, read as one natural number. -/
  digits : Nat
  /-- The power of ten they are multiplied with. -/
  exponent : Int
deriving Repr, DecidableEq

/-- The magnitude `mantissa * 2 ^ exponent` of a finite binary64 value. -/
structure Binary where
  /-- The whole number. -/
  mantissa : Nat
  /-- The power of two it is multiplied with. -/
  exponent : Int
  /-- The gap to the value below is half the gap to the value above. -/
  narrowBelow : Bool
deriving Repr, DecidableEq

namespace Binary

/-- The magnitude behind the bits of a finite value.  The sign bit is ignored; infinite and
undefined values have no magnitude and must be told apart beforehand. -/
def ofBits (bits : UInt64) : Binary :=
  let biased := ((bits >>> 52) &&& 0x7FF).toNat
  let fraction := (bits &&& 0xFFFFFFFFFFFFF).toNat
  if biased = 0 then ⟨fraction, -1074, false⟩
  else ⟨Nat.pow 2 52 + fraction, (biased : Int) - 1075, fraction = 0 && biased > 1⟩

/-- The numerator of the magnitude times a power of ten, as a fraction of natural numbers. -/
def scaledNum (x : Binary) (tens : Int) : Nat :=
  x.mantissa * Nat.pow 2 x.exponent.toNat * Nat.pow 10 tens.toNat

/-- The denominator of the magnitude times a power of ten. -/
def scaledDen (x : Binary) (tens : Int) : Nat :=
  Nat.pow 2 (-x.exponent).toNat * Nat.pow 10 (-tens).toNat

/-- Compares a decimal with `numerator * 2 ^ power`. -/
def compareDecimal (d : Decimal) (numerator : Nat) (power : Int) : Ordering :=
  compare (d.digits * Nat.pow 10 d.exponent.toNat * Nat.pow 2 (-power).toNat)
    (numerator * Nat.pow 2 power.toNat * Nat.pow 10 (-d.exponent).toNat)

/-- The decimal lies among the real numbers that round to this value: to nearest, a tie to the even
mantissa.  The ends of that interval are taken in quarters of the last place, since below a power of
two the neighbour is only half as far away. -/
def readsBack (x : Binary) (d : Decimal) : Bool :=
  let low := compareDecimal d (4 * x.mantissa - if x.narrowBelow then 1 else 2) (x.exponent - 2)
  let high := compareDecimal d (4 * x.mantissa + 2) (x.exponent - 2)
  let closed := x.mantissa % 2 = 0
  (low = .gt || closed && low = .eq) && (high = .lt || closed && high = .eq)

/-- The whole part, when nothing follows it. -/
def whole? (x : Binary) : Option Nat :=
  let num := x.scaledNum 0
  let den := x.scaledDen 0
  if num % den = 0 then some (num / den) else none

end Binary

end HoleBlame
