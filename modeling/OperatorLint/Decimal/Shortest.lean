import OperatorLint.Decimal.Binary
import OperatorLint.Text.Digits

/-!
# The fewest digits that read back

Every double is the nearest one to an interval of real numbers around it. Its shortest decimal
form is the coarsest decimal grid that has a point in that interval; of two such points the one
nearer to the value is taken, and of two equally near ones the upper. All tests are exact.
-/

namespace OperatorLint.Shortest

/-- A decimal number `digits * 10 ^ exponent`. -/
structure Decimal where
  /-- The digits, read as one whole number. -/
  digits : Nat
  /-- The power of ten that the last digit counts. -/
  exponent : Int
deriving DecidableEq, Repr

/-- The real numbers that round to one double, in units of a quarter of its last binary place:
`centre` is the double itself. -/
structure Rounding where
  /-- The lower end. -/
  low : Nat
  /-- The double. -/
  centre : Nat
  /-- The upper end. -/
  high : Nat
  /-- The ends themselves still round to the double. -/
  closed : Bool
  /-- The power of two of one unit. -/
  exponent : Int

/-- The interval of a nonzero finite double. Ends belong to it when the mantissa is even, and
below a power of two the neighbours stand twice as close. -/
def Rounding.of (mantissa : Nat) (exponent : Int) : Rounding where
  low := 4 * mantissa - (if mantissa = 1 <<< 52 ∧ -1074 < exponent then 1 else 2)
  centre := 4 * mantissa
  high := 4 * mantissa + 2
  closed := mantissa % 2 == 0
  exponent := exponent - 2

/-- One decimal grid against one binary unit: `n` units lie at `n * up / down` on the grid. -/
structure Scale where
  /-- The factor of a number of units. -/
  up : Nat
  /-- The divisor of a number of units. -/
  down : Nat

/-- The scale between units of `2 ^ binary` and the grid of multiples of `10 ^ decimal`. -/
def Scale.of (binary decimal : Int) : Scale where
  up := Nat.pow 10 (-decimal).toNat <<< binary.toNat
  down := Nat.pow 10 decimal.toNat <<< (-binary).toNat

/-- The grid point just below the double, or at it. -/
def below (r : Rounding) (s : Scale) : Nat := r.centre * s.up / s.down

/-- A grid point at or below the double rounds to it. -/
def reachesDown (r : Rounding) (s : Scale) (point : Nat) : Bool :=
  if r.closed then r.low * s.up ≤ point * s.down else r.low * s.up < point * s.down

/-- A grid point above the double rounds to it. -/
def reachesUp (r : Rounding) (s : Scale) (point : Nat) : Bool :=
  if r.closed then point * s.down ≤ r.high * s.up else point * s.down < r.high * s.up

/-- The grid point nearest to the double, the upper one of two equally near. -/
def nearest (r : Rounding) (s : Scale) : Nat :=
  if 2 * (r.centre * s.up % s.down) < s.down then below r s else below r s + 1

/-- The point of one grid that rounds to the double, if there is one: the nearer of its two
neighbours when both do. -/
def pick? (r : Rounding) (s : Scale) : Option Nat :=
  match reachesDown r s (below r s), reachesUp r s (below r s + 1) with
  | true, true => some (nearest r s)
  | true, false => some (below r s)
  | false, true => some (below r s + 1)
  | false, false => none

/-- The number of decimal digits of a whole number, one for zero. -/
def digitCount (n : Nat) : Nat := (Digits.write n).length

/-- The power of ten of the leading digit of `up / down`, a positive fraction. -/
def leading (up down : Nat) : Int :=
  if down ≤ up then (digitCount (up / down) : Int) - 1 else -(digitCount ((down - 1) / up) : Int)

/-- The first grid with a hit, going finer one digit at a time; after `steps` grids the nearest
point is taken as it is. -/
def search (r : Rounding) : Nat → Int → Decimal
  | 0, place => ⟨nearest r (Scale.of r.exponent place), place⟩
  | steps + 1, place =>
    match pick? r (Scale.of r.exponent place) with
    | some digits => ⟨digits, place⟩
    | none => search r steps (place - 1)

/-- The shortest decimal of a nonzero finite double. Seventeen digits tell all doubles apart, and
a carry may need one place more. -/
def ofBinary (mantissa : Nat) (exponent : Int) : Decimal :=
  let r := Rounding.of mantissa exponent
  let units := Scale.of r.exponent 0
  search r 18 (leading (r.centre * units.up) units.down + 1)

end OperatorLint.Shortest
