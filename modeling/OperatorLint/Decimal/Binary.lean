/-!
# Doubles as exact numbers

A finite double is a mantissa below `2 ^ 53` times a power of two, with a sign. Reading the bits
this way turns every question about its value (is it whole, what is its whole part, which
decimals lie next to it) into arithmetic on natural numbers.
-/

namespace OperatorLint

/-- What the bits of a double stand for. -/
inductive Binary where
  /-- Not a number. -/
  | nan
  /-- An infinity, negative or not. -/
  | infinite (negative : Bool)
  /-- The number `mantissa * 2 ^ exponent`, with its sign; zero has a sign too. -/
  | finite (negative : Bool) (mantissa : Nat) (exponent : Int)
deriving DecidableEq, Repr

namespace Binary

/-- The number that a bit pattern of 1 sign, 11 exponent and 52 fraction bits stands for. -/
def ofBits (bits : Nat) : Binary :=
  let negative := bits >>> 63 % 2 == 1
  let exponent : Nat := bits >>> 52 % 2048
  let fraction : Nat := bits % 1 <<< 52
  if exponent = 2047 then
    if fraction = 0 then infinite negative else nan
  else if exponent = 0 then finite negative fraction (-1074)
  else finite negative (1 <<< 52 + fraction) ((exponent : Int) - 1075)

/-- The number that a double stands for. -/
def ofFloat (x : Float) : Binary := ofBits x.toBits.toNat

/-- The whole part of `mantissa * 2 ^ exponent`. -/
def floor (mantissa : Nat) (exponent : Int) : Nat :=
  if 0 ≤ exponent then mantissa <<< exponent.toNat else mantissa >>> (-exponent).toNat

/-- The number `mantissa * 2 ^ exponent` has no fractional part. -/
def isWhole (mantissa : Nat) (exponent : Int) : Bool :=
  0 ≤ exponent || mantissa % 1 <<< (-exponent).toNat == 0

/-- A magnitude with its sign. -/
def signed (negative : Bool) (n : Nat) : Int := if negative then -(n : Int) else n

/-- The value cut toward zero, when it is finite. -/
def truncate? : Binary → Option Int
  | finite negative mantissa exponent => some (signed negative (floor mantissa exponent))
  | _ => none

end Binary

end OperatorLint
