import OperatorLint.Decimal.Shortest
import OperatorLint.Text.Digits

/-!
# Doubles as text

Three texts of a double are needed. The plain text has the fewest digits that read back, never an
exponent and never a needless point. The literal text keeps a fractional part, so that it is not
taken for an integer. The converted text is what a program gets when it uses the number as a
string: whole numbers below `10 ^ 15` drop the sign of zero and the fractional part.
-/

namespace OperatorLint.Written

open Shortest (Decimal)

/-- A decimal number in positional notation. -/
def positional (d : Decimal) : List Char :=
  let text := Digits.write d.digits
  let places := (-d.exponent).toNat
  if places = 0 then text ++ List.replicate d.exponent.toNat '0'
  else if places < text.length then
    text.take (text.length - places) ++ '.' :: text.drop (text.length - places)
  else '0' :: '.' :: (List.replicate (places - text.length) '0' ++ text)

/-- A text behind its sign. -/
def signed (negative : Bool) (text : List Char) : List Char :=
  if negative then '-' :: text else text

/-- The plain text of a decoded double. -/
def plainChars : Binary → List Char
  | .nan => ['N', 'a', 'N']
  | .infinite negative => signed negative ['i', 'n', 'f']
  | .finite negative 0 _ => signed negative ['0']
  | .finite negative mantissa exponent =>
    signed negative (positional (Shortest.ofBinary mantissa exponent))

/-- The literal text of a decoded double: all digits of a whole number and `.0`, else the plain
text. -/
def literalChars : Binary → List Char
  | .finite negative mantissa exponent =>
    if Binary.isWhole mantissa exponent then
      signed negative (Digits.write (Binary.floor mantissa exponent) ++ ['.', '0'])
    else plainChars (.finite negative mantissa exponent)
  | other => plainChars other

/-- The bound below which whole numbers convert to their integer digits. -/
def wholeLimit : Nat := Nat.pow 10 15

/-- The converted text of a decoded double. -/
def convertedChars : Binary → List Char
  | .finite negative mantissa exponent =>
    let whole := Binary.floor mantissa exponent
    if Binary.isWhole mantissa exponent && whole < wholeLimit then
      signed (negative && whole != 0) (Digits.write whole)
    else plainChars (.finite negative mantissa exponent)
  | other => plainChars other

/-- The plain text of a double. -/
def plain (x : Float) : String := String.ofList (plainChars (.ofFloat x))

/-- The literal text of a double. -/
def literal (x : Float) : String := String.ofList (literalChars (.ofFloat x))

/-- The text of a double that is used as a string. -/
def converted (x : Float) : String := String.ofList (convertedChars (.ofFloat x))

/-- The decimal digits of a 64-bit integer, behind a minus sign when it is negative. -/
def integerChars (n : Int64) : List Char := signed (n.toInt < 0) (Digits.write n.toInt.natAbs)

/-- The decimal text of a 64-bit integer. -/
def integer (n : Int64) : String := String.ofList (integerChars n)

end OperatorLint.Written
