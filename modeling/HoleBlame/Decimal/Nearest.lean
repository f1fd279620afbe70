import HoleBlame.Decimal.Binary

/-!
# The nearest value of a format

Rounding a quotient to a whole number, and a decimal to binary64: of the two neighbours the nearer one
is taken, and of two that are equally near the even one.

For binary64 the quotient is first measured in units of the last place that a value of its size has.
The bits of the result are the number of these units plus the biased exponent, so that a quotient that
is rounded up to the next power of two carries into the exponent by itself.
-/

namespace HoleBlame.Decimal

/-- A quotient of natural numbers rounded to a whole one, where an exact half goes to the even
neighbour. -/
def roundDiv (num den : Nat) : Nat :=
  let below := num / den
  if 2 * (num % den) < den then below
  else if den < 2 * (num % den) then below + 1
  else if below % 2 = 0 then below else below + 1

/-- The numerator of a quotient divided by a power of two. -/
def numAt (num : Nat) (twos : Int) : Nat :=
  num * Nat.pow 2 (-twos).toNat

/-- The denominator of a quotient divided by a power of two. -/
def denAt (den : Nat) (twos : Int) : Nat :=
  den * Nat.pow 2 twos.toNat

/-- The power of two that is the last place of a quotient in binary64.  A quotient has 53 places, but
none below `2 ^ -1074`. -/
def lastPlace (num den : Nat) : Int :=
  let twos : Int := (num.log2 : Int) - den.log2 - 53
  max (-1074) (if numAt num twos < Nat.pow 2 53 * denAt den twos then twos else twos + 1)

/-- The bits of the infinite value. -/
def infinityBits : Nat :=
  0x7FF0000000000000

/-- The bits of the binary64 value nearest to a quotient, which is infinite beyond the largest one. -/
def nearestBits (num den : Nat) : Nat :=
  let twos := lastPlace num den
  let bits := roundDiv (numAt num twos) (denAt den twos) + (twos + 1074).toNat * Nat.pow 2 52
  min bits infinityBits

/-- The bits of the binary64 value nearest to a decimal.  A decimal that is far too large or far too
small to matter is not written out. -/
def bits (d : Decimal) : Nat :=
  if d.digits = 0 ∨ (d.digits.log2 : Int) + 3 * d.exponent < -1080 then 0
  else if 400 < d.exponent then infinityBits
  else nearestBits (d.digits * Nat.pow 10 d.exponent.toNat) (Nat.pow 10 (-d.exponent).toNat)

/-- The binary64 value nearest to a decimal. -/
def toFloat (d : Decimal) : Float :=
  .ofBits (.ofNat d.bits)

end HoleBlame.Decimal
