import OperatorLint.Operation.Arithmetic
import OperatorLint.Operation.Integral
import OperatorLint.Operator

/-!
# The type of an operation

`Operator.result` gives the type of a binary operation from the types of its operands, and
`error` when the operation is bound to fail. A compound form has the type of its base.
-/

namespace OperatorLint.Operation

/-- Every value of the type is a string. -/
def isString (t : Ty) : Bool := Ty.includes .string t

/-- Two texts one after the other: a constant when both are constant. -/
def concatTexts : Ty → Ty → Ty
  | .constant (.string a), .constant (.string b) => .constant (.string (a ++ b))
  | left, right => if left.isError || right.isError then .error else .string

/-- The result of concatenation. -/
def concat (left right : Ty) : Ty := concatTexts left.toText right.toText

/-- The result of a bitwise operator: byte by byte on two strings, else on whole numbers. -/
def bitwise (op : Integral) (left right : Ty) : Ty :=
  if isString left && isString right then .string else integral op left right

/-- The key and the item of an array type. -/
def arrayParts? : Ty → Option (Ty × Ty)
  | .array key item => some (key, item)
  | _ => none

/-- The keys and items of the members of a type, when all of them are arrays. -/
def allArrays? (t : Ty) : Option (List (Ty × Ty)) :=
  if t.members.all fun m => (arrayParts? m).isSome then some (t.members.filterMap arrayParts?)
  else none

/-- The array type that stands for all arrays of a list. -/
def mergeArrays (parts : List (Ty × Ty)) : Ty :=
  .array (.join (parts.map Prod.fst)) (.join (parts.map Prod.snd))

/-- The result of addition, which merges arrays and adds all else. -/
def plus (left right : Ty) : Ty :=
  match allArrays? left, allArrays? right with
  | some parts, some parts' => mergeArrays (parts ++ parts')
  | _, _ => arithmetic .plus left right

/-- The result of falling back on the right operand where the left one is null. A failing left
operand is one that is not defined, which is what the operator guards against. -/
def coalesce (left right : Ty) : Ty :=
  if left.isError then right else .join [left.withoutNull, right]

end OperatorLint.Operation

namespace OperatorLint

open Operation

/-- The type that a computing operator gives. -/
def Computation.result : Computation → Ty → Ty → Ty
  | plus => Operation.plus
  | minus => arithmetic .minus
  | mul => arithmetic .mul
  | div => arithmetic .div
  | mod => integral .mod
  | pow => arithmetic .pow
  | concat => Operation.concat
  | bitwiseAnd => bitwise .bitwiseAnd
  | bitwiseOr => bitwise .bitwiseOr
  | bitwiseXor => bitwise .bitwiseXor
  | shiftLeft => integral .shiftLeft
  | shiftRight => integral .shiftRight
  | coalesce => Operation.coalesce

/-- The type that a comparison gives. -/
def Comparison.result : Comparison → Ty
  | spaceship => .int
  | _ => .bool

/-- The type of an operation on operands of two types. -/
def Operator.result : Operator → Ty → Ty → Ty
  | compute op => op.result
  | assign op => op.result
  | connect _ => fun _ _ => .bool
  | compare op => fun _ _ => op.result

/-- A compound form has the type of its base. -/
theorem Operator.result_base (op : Operator) : op.base.result = op.result := by
  cases op <;> rfl

end OperatorLint
