import OperatorLint.Decimal.Written
import OperatorLint.Integer
import OperatorLint.Text.Numeral
import OperatorLint.Ty.Union

/-!
# Conversions to numbers and to strings

Operators convert their operands. Each conversion maps the type of a value to the type of the
converted value, and to `error` when the conversion is bound to fail. A union converts member by
member, so one member that fails makes the whole union fail.
-/

namespace OperatorLint.Ty

/-- The constant that a numeric text denotes: an integer when neither point nor exponent is
written and the number fits, else the nearest double. -/
def ofNumeral (n : Numeral) : Ty :=
  match n.integer?.bind Integer.ofInt? with
  | some value => constant (.int value)
  | none => constant (.float n.toFloat)

/-- The constant number that a text denotes, if it is numeric. -/
def parseNumeric (text : String) : Option Ty := (Numeral.read? text).map ofNumeral

/-- The number that a kind of value converts to. -/
def kindToNumber : Kind → Ty
  | .null => constant (.int 0)
  | .bool => int
  | .int => int
  | .float => float
  | .string => number
  | .resource => int

/-- The number that a constant converts to. -/
def constantToNumber : Constant → Ty
  | .bool value => constant (.int (if value then 1 else 0))
  | .int value => constant (.int value)
  | .float value => constant (.float value)
  | .string text => (parseNumeric text).getD error

mutual
/-- The type of a value after conversion to a number. -/
def toNumber : Ty → Ty
  | mixed => number
  | never => never
  | error => error
  | kind k => kindToNumber k
  | constant c => constantToNumber c
  | array _ _ => error
  | object _ _ => error
  | union ts => join (toNumberEach ts)

/-- The conversions of a list of types. -/
def toNumberEach : List Ty → List Ty
  | [] => []
  | t :: ts => toNumber t :: toNumberEach ts
end

/-- The string that a kind of value converts to. -/
def kindToText : Kind → Ty
  | .null => constant (.string "")
  | _ => string

/-- The text that a constant converts to. -/
def constantText : Constant → String
  | .bool value => if value then "1" else ""
  | .int value => Written.integer value
  | .float value => Written.converted value
  | .string text => text

mutual
/-- The type of a value after conversion to a string. -/
def toText : Ty → Ty
  | mixed => string
  | never => never
  | error => error
  | kind k => kindToText k
  | constant c => constant (.string (constantText c))
  | array _ _ => error
  | object _ stringable => if stringable then string else error
  | union ts => join (toTextEach ts)

/-- The conversions of a list of types. -/
def toTextEach : List Ty → List Ty
  | [] => []
  | t :: ts => toText t :: toTextEach ts
end

/-- The list conversion converts each type by itself. -/
theorem toNumberEach_eq_map (ts : List Ty) : toNumberEach ts = ts.map toNumber := by
  induction ts with
  | nil => rfl
  | cons t ts ih => simp [toNumberEach, ih]

/-- The list conversion converts each type by itself. -/
theorem toTextEach_eq_map (ts : List Ty) : toTextEach ts = ts.map toText := by
  induction ts with
  | nil => rfl
  | cons t ts ih => simp [toTextEach, ih]

/-- A union converts to the join of its converted members. -/
theorem toNumber_union (ts : List Ty) : toNumber (union ts) = join (ts.map toNumber) := by
  rw [toNumber, toNumberEach_eq_map]

/-- A union converts to the join of its converted members. -/
theorem toText_union (ts : List Ty) : toText (union ts) = join (ts.map toText) := by
  rw [toText, toTextEach_eq_map]

end OperatorLint.Ty
