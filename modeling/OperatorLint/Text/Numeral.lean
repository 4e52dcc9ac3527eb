import OperatorLint.Text.Digits

/-!
# Numeric texts

A numeric text is blank space, an optional sign, digits with an optional point among, before or
after them, an optional exponent, and blank space. `Numeral.read?` takes such a text apart and
refuses every other one; at least one digit must stand before or after the point. A numeral stands
for the double nearest to its number. Numbers whose leading digit stands far outside the range of
doubles are settled by the position of that digit alone, so the size of a written exponent costs
nothing.
-/

namespace OperatorLint

namespace Reading

/-- The position of the leading digit past which every number is infinite or zero as a double. -/
def reach : Int := 400

/-- The double nearest to `digits * 10 ^ exponent`. -/
def nearest (digits : Nat) (exponent : Int) : Float :=
  let leading := ((Digits.write digits).length : Int) + exponent
  if digits = 0 ∨ leading < -reach then 0.0
  else if reach < leading then 1.0 / 0.0
  else Float.ofScientific digits (exponent < 0) exponent.natAbs

end Reading

/-- The parts of a numeric text. -/
structure Numeral where
  /-- A minus sign is written. -/
  negative : Bool
  /-- The digits before the point. -/
  whole : List Char
  /-- The digits after the point, when a point is written. -/
  fraction : Option (List Char)
  /-- The number after an exponent mark, when one is written. -/
  exponent : Option Int
deriving DecidableEq, Repr

namespace Numeral

/-- The characters that may surround a number: space, tab, line feed, carriage return, vertical
tab and form feed. -/
def isBlank (c : Char) : Bool :=
  c == ' ' || c == '\t' || c == '\n' || c == '\r' || c == '\x0b' || c == '\x0c'

/-- A text without the blanks at its two ends. -/
def trim (text : List Char) : List Char :=
  ((text.dropWhile isBlank).reverse.dropWhile isBlank).reverse

/-- An optional sign, negative or not, and the text behind it. -/
def takeSign : List Char → Bool × List Char
  | '-' :: text => (true, text)
  | '+' :: text => (false, text)
  | text => (false, text)

/-- The digits after a point, if the text starts with one, and the rest. -/
def takeFraction : List Char → Option (List Char) × List Char
  | '.' :: text => (some (text.takeWhile Char.isDigit), text.dropWhile Char.isDigit)
  | text => (none, text)

/-- The exponent that makes up the whole text: nothing, or a mark, an optional sign and digits. -/
def exponent? : List Char → Option (Option Int)
  | [] => some none
  | c :: text =>
    let (negative, digits) := takeSign text
    if (c == 'e' || c == 'E') && !digits.isEmpty && digits.all Char.isDigit then
      some (some (if negative then -(Digits.value digits : Int) else Digits.value digits))
    else none

/-- The numeral that makes up the whole text, without blanks around it. -/
def readTrimmed? (text : List Char) : Option Numeral :=
  let (negative, text) := takeSign text
  let whole := text.takeWhile Char.isDigit
  let (after, text) := takeFraction (text.dropWhile Char.isDigit)
  if whole.isEmpty && (after.getD []).isEmpty then none
  else (exponent? text).map fun e => ⟨negative, whole, after, e⟩

/-- The numeral that a text holds. -/
def read? (text : String) : Option Numeral := readTrimmed? (trim text.toList)

/-- The whole number that a numeral denotes, when neither a point nor an exponent is written. -/
def integer? (n : Numeral) : Option Int :=
  if n.fraction.isNone && n.exponent.isNone then
    some (if n.negative then -(Digits.value n.whole : Int) else Digits.value n.whole)
  else none

/-- The double nearest to the number that a numeral denotes. -/
def toFloat (n : Numeral) : Float :=
  let after := n.fraction.getD []
  let places := n.exponent.getD 0 - after.length
  let magnitude := Reading.nearest (Digits.value (n.whole ++ after)) places
  if n.negative then -magnitude else magnitude

end Numeral

end OperatorLint
