import Offside.Binary64
import Offside.Text.Padding

set_option autoImplicit false

/-!
# The shortest decimal text of a number

A decimal reads back as a number when it lies between the midpoints to the neighbouring magnitudes; the
midpoints themselves belong to numbers of even rank. The text has the fewest digits that read back, of
these the nearest ones, and of two equally near ones the greater. It is positional, without an exponent,
and a whole number has no point.
-/
namespace Offside.Binary64

/-- A decimal magnitude, `digits * 10 ^ exponent`. -/
structure Decimal where
  digits : Nat
  exponent : Int
  deriving DecidableEq

namespace Decimal

/-- Numerator and denominator of a power of ten. -/
def powerOfTen (k : Int) : Nat × Nat := (Nat.pow 10 k.toNat, Nat.pow 10 (-k).toNat)

/-- Whether the decimal reads back as the magnitude of rank `rank`. -/
def readsBack (rank : Nat) (d : Decimal) : Bool :=
  let (p, q) := powerOfTen d.exponent
  let value := d.digits * p * Nat.pow 2 1075
  let low := (units (rank - 1) + units rank) * q
  let high := (units rank + units (rank + 1)) * q
  if rank % 2 = 0 then low ≤ value && value ≤ high else low < value && value < high

/-- The magnitude's two neighbours among the multiples of `10 ^ k`, the lower one first, and whether the
upper one is at least as near. -/
def neighbours (rank : Nat) (k : Int) : Decimal × Decimal × Bool :=
  let (p, q) := powerOfTen k
  let step := p * Nat.pow 2 1074
  let digits := units rank * q / step
  let past := units rank * q % step
  (⟨digits, k⟩, ⟨digits + 1, k⟩, step ≤ 2 * past)

/-- The multiple of `10 ^ k` that reads back, the nearer one if two do. -/
def onGrid? (rank : Nat) (k : Int) : Option Decimal :=
  let (lower, upper, upperIsNearer) := neighbours rank k
  match readsBack rank lower, readsBack rank upper with
  | true, true => some (if upperIsNearer then upper else lower)
  | true, false => some lower
  | false, true => some upper
  | false, false => none

/-- Tries the grids `10 ^ k`, `10 ^ (k - 1)`, and so on. -/
def firstOnGrid (rank : Nat) : Nat → Int → Decimal
  | 0, k => (neighbours rank k).1
  | n + 1, k =>
    match onGrid? rank k with
    | some d => d
    | none => firstOnGrid rank n (k - 1)

/-- The shortest decimal of a magnitude above zero. The first grid tried is coarser than the magnitude,
and seventeen digits always read back. -/
def shortest (rank : Nat) : Decimal :=
  firstOnGrid rank 20 (((Nat.log2 (units rank) : Int) - 1073) * 30103 / 100000 + 1)

def toText (d : Decimal) : String :=
  let digits := toString d.digits
  if 0 ≤ d.exponent then digits ++ Text.fill '0' d.exponent.toNat
  else
    let places := (-d.exponent).toNat
    let padded := (Text.alignRight '0' (places + 1) digits).toList
    String.ofList (padded.take (padded.length - places)) ++ "." ++
      String.ofList (padded.drop (padded.length - places))

end Decimal

def sign (negative : Bool) : String := if negative then "-" else ""

def toText : Binary64 → String
  | .finite negative rank =>
    sign negative ++ (if rank.val = 0 then "0" else (Decimal.shortest rank.val).toText)
  | .infinite negative => sign negative ++ "inf"
  | .nan => "NaN"

end Offside.Binary64
