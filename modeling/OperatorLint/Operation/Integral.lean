import OperatorLint.Decimal.Binary
import OperatorLint.Ty.Coercion

/-!
# Operators on whole numbers

The operators `% << >>`, and `& | ^` away from strings, convert both operands to numbers and cut
constant doubles to integers. The result is always an integer, or a failure.
-/

namespace OperatorLint.Operation

/-- What one operator on whole numbers does. -/
structure Integral where
  /-- The result on two integers, missing where the operation fails. -/
  fold? : Int64 → Int64 → Option Int64
  /-- A right operand that is zero fails the operation whatever the left one is. -/
  rejectsZero : Bool

namespace Integral

/-- The remainder of division toward zero. -/
def mod : Integral := ⟨fun a b => if b = 0 then none else some (a % b), true⟩

/-- The bits set in both words. -/
def bitwiseAnd : Integral := ⟨fun a b => some (a &&& b), false⟩

/-- The bits set in either word. -/
def bitwiseOr : Integral := ⟨fun a b => some (a ||| b), false⟩

/-- The bits set in just one word. -/
def bitwiseXor : Integral := ⟨fun a b => some (a ^^^ b), false⟩

/-- The shift to the left, which fails on a negative number of places. -/
def shiftLeft : Integral :=
  ⟨fun a b => if b.toInt < 0 then none else some (Integer.shiftLeft a b), false⟩

/-- The shift to the right, which fails on a negative number of places. -/
def shiftRight : Integral :=
  ⟨fun a b => if b.toInt < 0 then none else some (Integer.shiftRight a b), false⟩

end Integral

/-- The integer that a double is cut to: its whole part when that fits, else zero. -/
def cut (x : Float) : Int64 := ((Binary.ofFloat x).truncate?.bind Integer.ofInt?).getD 0

/-- A type of numbers with constant doubles cut to integers. -/
def cutToInt : Ty → Ty
  | .constant (.float x) => .constant (.int (cut x))
  | t => t

/-- The type is the constant integer zero. -/
def isIntZero : Ty → Bool
  | .constant (.int value) => value == 0
  | _ => false

/-- The result of an operator on two types of numbers without constant doubles. -/
def onIntegers (op : Integral) (left right : Ty) : Ty :=
  if left.isError || right.isError then .error
  else
    match left, right with
    | .constant (.int a), .constant (.int b) =>
      match op.fold? a b with
      | some value => .constant (.int value)
      | none => .error
    | _, _ => if op.rejectsZero && isIntZero right then .error else .int

/-- The result of an operator on two types. -/
def integral (op : Integral) (left right : Ty) : Ty :=
  onIntegers op (cutToInt left.toNumber) (cutToInt right.toNumber)

/-- An operand that cannot become a number fails the operation. -/
theorem integral_of_error {op : Integral} {left right : Ty}
    (h : left.toNumber = .error ∨ right.toNumber = .error) : integral op left right = .error := by
  rcases h with h | h <;> simp [integral, onIntegers, h, cutToInt, Ty.isError]

end OperatorLint.Operation
