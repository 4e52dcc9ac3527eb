import OperatorLint.Decimal.Written
import OperatorLint.Ty.Basic

/-!
# Constants and types as text

A constant is written in a program and shown in a report by the same literal: `true` and `false`,
the decimal digits of an integer, a double that keeps its fractional part, a quoted string. Quotes
are single, with a backslash before every quote and every backslash in the text, so that the first
unescaped quote after the opening one ends it. A report shows constants by their value or only by
their kind; members of a union that then read alike are shown once.
-/

namespace OperatorLint

namespace Quoted

/-- The characters that need a backslash inside quotes. -/
def isSpecial (c : Char) : Bool := c == '\'' || c == '\\'

/-- The inside of a quoted text: each special character follows a backslash. -/
def escape : List Char → List Char
  | [] => []
  | c :: cs => if isSpecial c then '\\' :: c :: escape cs else c :: escape cs

/-- The characters of a quoted text. -/
def quoteChars (text : List Char) : List Char := '\'' :: (escape text ++ ['\''])

/-- The quoted form of a text. -/
def quote (text : String) : String := String.ofList (quoteChars text.toList)

end Quoted

namespace Constant

/-- The characters of the literal of a constant. -/
def literalChars : Constant → List Char
  | bool value => if value then ['t', 'r', 'u', 'e'] else ['f', 'a', 'l', 's', 'e']
  | int value => Written.integerChars value
  | float value => Written.literalChars (.ofFloat value)
  | string text => Quoted.quoteChars text.toList

/-- The literal of a constant. -/
def literal (c : Constant) : String := String.ofList c.literalChars

/-- The number of bytes that a constant takes in source text. A double takes its plain digits. -/
def width : Constant → Nat
  | bool value => if value then 4 else 5
  | int value => (Written.integerChars value).length
  | float value => (Written.plainChars (.ofFloat value)).length
  | string text => text.utf8ByteSize + 2

end Constant

namespace Ty

/-- How much of a type a description shows. -/
inductive Detail where
  /-- Constants appear as their kind, arrays without their parts. -/
  | kinds
  /-- Constants appear as their value. -/
  | values
deriving DecidableEq, Repr

/-- The name of a kind. -/
def kindName : Kind → String
  | .null => "null"
  | .bool => "bool"
  | .int => "int"
  | .float => "float"
  | .string => "string"
  | .resource => "resource"

mutual
/-- The text by which a type is shown. -/
def describe (detail : Detail) : Ty → String
  | mixed => "mixed"
  | never => "*NEVER*"
  | error => "*ERROR*"
  | kind k => kindName k
  | constant c =>
    match detail with
    | .kinds => kindName c.kind
    | .values => c.literal
  | array key item =>
    match detail, key, item with
    | .kinds, _, _ => "array"
    | .values, never, never => "array()"
    | .values, mixed, mixed => "array"
    | .values, mixed, _ => "array<" ++ describe detail item ++ ">"
    | .values, _, _ => "array<" ++ describe detail key ++ ", " ++ describe detail item ++ ">"
  | object className _ => className
  | union ts => "|".intercalate (describeEach detail ts).eraseDups

/-- The texts of a list of types. -/
def describeEach (detail : Detail) : List Ty → List String
  | [] => []
  | t :: ts => describe detail t :: describeEach detail ts
end

/-- The text by which a type is shown when nothing else is asked for. -/
def display (t : Ty) : String := describe .values t

end Ty

end OperatorLint
