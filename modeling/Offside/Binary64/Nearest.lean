import Offside.Binary64

set_option autoImplicit false

/-!
# The nearest binary64 number

A quotient goes to the nearest number of the format, and to the one of even rank where it lies halfway
between two. A quotient too large for every finite number is infinite.
-/
namespace Offside.Binary64

/-- The whole number nearest to `a / b`, a half going to the even neighbour. -/
def divideToEven (a b : Nat) : Nat :=
  let q := a / b
  let r := a % b
  if 2 * r < b then q
  else if b < 2 * r then q + 1
  else q + q % 2

/-- The rank of the magnitude nearest to `a / b`, or one past the last rank. -/
def nearestRank (a b : Nat) : Nat :=
  let scaled := a * Nat.pow 2 1074
  let shift := Nat.log2 (scaled / b) - 52
  shift * fractionCount + divideToEven scaled (b * Nat.pow 2 shift)

/-- The number nearest to `digits * 10 ^ exponent`, where `digits` has `length` decimal digits.
Exponents outside the format's range are settled without computing the power. -/
def ofDecimal (negative : Bool) (digits length : Nat) (exponent : Int) : Binary64 :=
  if digits = 0 then ofRank negative 0
  else if 310 < exponent + length then .infinite negative
  else if exponent + length < -330 then ofRank negative 0
  else if 0 ≤ exponent then ofRank negative (nearestRank (digits * Nat.pow 10 exponent.toNat) 1)
  else ofRank negative (nearestRank digits (Nat.pow 10 (-exponent).toNat))

end Offside.Binary64
