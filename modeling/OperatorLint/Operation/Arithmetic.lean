import OperatorLint.Ty.Coercion

/-!
# Arithmetic on types

The operators `+ - * / **` convert both operands to numbers. Two constants give a constant: the
exact integer when both are integers and the result is one that fits, else a double. Without two
constants a double on either side makes a double.
-/

namespace OperatorLint.Operation

/-- What one arithmetic operator does. -/
structure Arithmetic where
  /-- The integer result on integers, when there is one. -/
  whole? : Int64 → Int64 → Option Int64
  /-- The result on doubles. -/
  approximate : Float → Float → Float
  /-- Integers of unknown value give an integer. -/
  closed : Bool
  /-- The operation fails when the right operand is zero. -/
  rejectsZero : Bool

namespace Arithmetic

/-- Addition. -/
def plus : Arithmetic := ⟨Integer.add?, (· + ·), true, false⟩

/-- Subtraction. -/
def minus : Arithmetic := ⟨Integer.sub?, (· - ·), true, false⟩

/-- Multiplication. -/
def mul : Arithmetic := ⟨Integer.mul?, (· * ·), true, false⟩

/-- Division, exact when it leaves no remainder. -/
def div : Arithmetic := ⟨Integer.quotient?, (· / ·), false, true⟩

/-- Exponentiation. -/
def pow : Arithmetic := ⟨Integer.power?, Float.pow, false, false⟩

end Arithmetic

/-- The type is a constant zero, integer or double. -/
def isZero : Ty → Bool
  | .constant (.int value) => value == 0
  | .constant (.float value) => value == 0.0
  | _ => false

/-- The double that a constant number stands for. -/
def constantFloat? : Ty → Option Float
  | .constant (.int value) => some (Float.ofInt value.toInt)
  | .constant (.float value) => some value
  | _ => none

/-- The exact integer result on two constant integers. -/
def wholeResult? (op : Arithmetic) : Ty → Ty → Option Int64
  | .constant (.int a), .constant (.int b) => op.whole? a b
  | _, _ => none

/-- The double that an operator gives on two constant numbers. -/
def doubleResult? (op : Arithmetic) (left right : Ty) : Option Float := do
  let a ← constantFloat? left
  let b ← constantFloat? right
  pure (op.approximate a b)

/-- The kind of number that an operator gives without two constants. -/
def numberKind (op : Arithmetic) (left right : Ty) : Ty :=
  if Ty.includes .float left || Ty.includes .float right then .float
  else if op.closed && Ty.includes .int left && Ty.includes .int right then .int
  else .number

/-- The result of an operator on two types of numbers. -/
def onNumbers (op : Arithmetic) (left right : Ty) : Ty :=
  if left.isError || right.isError || (op.rejectsZero && isZero right) then .error
  else
    match wholeResult? op left right, doubleResult? op left right with
    | some value, _ => .constant (.int value)
    | none, some value => .constant (.float value)
    | none, none => numberKind op left right

/-- The result of an operator on two types. -/
def arithmetic (op : Arithmetic) (left right : Ty) : Ty :=
  onNumbers op left.toNumber right.toNumber

/-- An operand that cannot become a number fails the operation. -/
theorem arithmetic_of_error {op : Arithmetic} {left right : Ty}
    (h : left.toNumber = .error ∨ right.toNumber = .error) : arithmetic op left right = .error := by
  rcases h with h | h <;> simp [arithmetic, onNumbers, h, Ty.isError]

end OperatorLint.Operation
