import HoleBlame.Decimal.Binary

/-!
# The fewest digits that read back

`Binary.shortest` selects the decimal that stands for a binary64 value in print.  It tries grids of
one, two, three and more digits.  On each grid only the two neighbours of the value can lie in the
rounding interval if anything on that grid does, so testing these two is enough, and the first grid
with a hit gives the fewest digits.  Of two hits the nearer one is taken, and of two that are equally
near the one above.
-/

namespace HoleBlame.Binary

/-- The least power of ten above the value: `m * 2 ^ q < 10 ^ k`.  The binary logarithm leaves three
candidates, which are then compared exactly. -/
def scale (x : Binary) : Int :=
  let estimate := Int.fdiv (((x.mantissa.log2 : Int) + x.exponent) * 30103) 100000
  if x.scaledNum (-estimate) < x.scaledDen (-estimate) then estimate
  else if x.scaledNum (-(estimate + 1)) < x.scaledDen (-(estimate + 1)) then estimate + 1
  else estimate + 2

/-- The neighbour of the value on the grid of multiples of `10 ^ exponent` that reads back, if one
does; the nearer of two, and the upper one of two that are equally near. -/
def onGrid? (x : Binary) (exponent : Int) : Option Decimal :=
  let num := x.scaledNum (-exponent)
  let den := x.scaledDen (-exponent)
  let below : Decimal := ⟨num / den, exponent⟩
  let above : Decimal := ⟨num / den + 1, exponent⟩
  match x.readsBack below, x.readsBack above with
  | true, true => if 2 * num < (2 * below.digits + 1) * den then some below else some above
  | true, false => some below
  | false, true => some above
  | false, false => none

/-- The exact decimal value, which every binary value has. -/
def exact (x : Binary) : Decimal :=
  if x.exponent < 0 then ⟨x.mantissa * Nat.pow 5 (-x.exponent).toNat, x.exponent⟩
  else ⟨x.mantissa * Nat.pow 2 x.exponent.toNat, 0⟩

/-- The decimal with the fewest digits that reads back as a non-zero value.  Seventeen digits always
suffice for binary64; beyond them the exact value stands in. -/
def shortest (x : Binary) : Decimal :=
  let k := x.scale
  ((List.range 17).findSome? fun (n : Nat) => x.onGrid? (k - 1 - n)).getD x.exact

end HoleBlame.Binary
