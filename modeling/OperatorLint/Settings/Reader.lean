/-!
# Reading a JSON document step by step

A `Reader` takes characters off the front of a document and stops at the first thing that is
wrong. Three things can be wrong: the document ends too early, it is not JSON, or it is JSON of
another form than the one asked for. Values of a wrong form are still read as far as is needed to
see whether they are JSON at all.
-/

namespace OperatorLint

/-- What is wrong with a document at the place where reading stops. -/
inductive Fault where
  /-- The document ends too early. -/
  | truncated
  /-- The document is not JSON. -/
  | malformed
  /-- The document is JSON, but not of the form asked for. -/
  | mistyped
deriving DecidableEq, Repr

/-- A step that takes characters off the front of a document. -/
abbrev Reader (α : Type) := StateT (List Char) (Except Fault) α

namespace Reader

/-- The characters that may stand between the parts of a document. -/
def isBlank (c : Char) : Bool := c == ' ' || c == '\t' || c == '\n' || c == '\r'

/-- Stops reading. -/
def fail {α : Type} (fault : Fault) : Reader α := throw fault

/-- The next character, left in place. -/
def peek? : Reader (Option Char) := do return (← get).head?

/-- Takes one character off. -/
def skip : Reader Unit := modify (List.drop 1)

/-- Takes blanks off, and looks at the next character. -/
def peekAfterBlanks? : Reader (Option Char) := do
  modify (List.dropWhile isBlank)
  peek?

/-- Takes off the longest run of characters of one sort. -/
def takeWhile (p : Char → Bool) : Reader (List Char) := do
  let text ← get
  set (text.dropWhile p)
  return text.takeWhile p

/-- Takes off the characters of a word. -/
def word : List Char → Reader Unit
  | [] => pure ()
  | c :: cs => do
    match ← peek? with
    | none => fail .truncated
    | some d => if c = d then do skip; word cs else fail .malformed

/-- The number that a hexadecimal digit stands for. -/
def hexDigit? (c : Char) : Option Nat :=
  if c.isDigit then some (c.toNat - '0'.toNat)
  else if 'a' ≤ c ∧ c ≤ 'f' then some (c.toNat - 'a'.toNat + 10)
  else if 'A' ≤ c ∧ c ≤ 'F' then some (c.toNat - 'A'.toNat + 10)
  else none

/-- The number that four hexadecimal digits stand for. -/
def hex? (digits : List Char) : Option Nat :=
  digits.foldl (fun n c => do pure (16 * (← n) + (← hexDigit? c))) (some 0)

/-- The number of bytes of a text. -/
def byteCount (text : List Char) : Nat := (String.ofList text).utf8ByteSize

/-- A 16-bit unit written as four hexadecimal digits. Four bytes have to be there before they are
looked at. -/
def unit : Reader Nat := do
  let text ← get
  if byteCount text < 4 then fail .truncated
  match hex? (text.take 4) with
  | some n => if (text.take 4).length = 4 then do set (text.drop 4); return n else fail .malformed
  | none => fail .malformed

/-- The unit is the first half of a pair that stands for one character. -/
def isLeading (n : Nat) : Bool := 0xD800 ≤ n && n ≤ 0xDBFF

/-- The unit is the second half of such a pair. -/
def isTrailing (n : Nat) : Bool := 0xDC00 ≤ n && n ≤ 0xDFFF

/-- A character written as one unit, or as a pair of units that belong together. -/
def unitEscape : Reader Char := do
  let n ← unit
  if isTrailing n then fail .malformed
  if isLeading n then
    word ['\\', 'u']
    let m ← unit
    if isTrailing m then return Char.ofNat (0x10000 + (n - 0xD800) * 0x400 + (m - 0xDC00))
    else fail .malformed
  else return Char.ofNat n

/-- The character that is written behind a backslash. -/
def escape : Reader Char := do
  match ← peek? with
  | none => fail .truncated
  | some c =>
    skip
    match c with
    | '"' => return '"'
    | '\\' => return '\\'
    | '/' => return '/'
    | 'b' => return '\x08'
    | 'f' => return '\x0c'
    | 'n' => return '\n'
    | 'r' => return '\r'
    | 't' => return '\t'
    | 'u' => unitEscape
    | _ => fail .malformed

/-- The rest of a string behind its opening quote. Every character takes at least one step, so as
many steps as there are characters are enough. -/
def stringRest : Nat → Reader (List Char)
  | 0 => fail .truncated
  | steps + 1 => do
    match ← peek? with
    | none => fail .truncated
    | some c =>
      skip
      if c = '"' then return []
      else if c = '\\' then return (← escape) :: (← stringRest steps)
      else if c.toNat < 0x20 then fail .malformed
      else return c :: (← stringRest steps)

/-- A string behind its opening quote. -/
def string : Reader (List Char) := do stringRest ((← get).length + 1)

/-- The largest number that is kept exactly. -/
def exactLimit : Nat := UInt64.size - 1

/-- Adds digits to a number as long as it is kept exactly; the second result counts them. -/
def absorb (n : Nat) : List Char → Nat × Nat
  | [] => (n, 0)
  | c :: cs =>
    let next := 10 * n + (c.toNat - '0'.toNat)
    if next ≤ exactLimit then
      let (result, count) := absorb next cs
      (result, count + 1)
    else (n, 0)

/-- The number `significand * 10 ^ exponent` is beyond all doubles. -/
def isBeyondDoubles (significand : Nat) (exponent : Int) : Bool :=
  0 ≤ exponent && significand != 0 &&
    (308 < exponent ||
      (Float.ofNat significand * Float.ofScientific 1 false exponent.toNat).isInf)

/-- The digits before a point: without leading zeros. -/
def wholeDigits : Reader (List Char) := do
  let digits ← takeWhile Char.isDigit
  match digits with
  | [] => if (← peek?).isNone then fail .truncated else fail .malformed
  | '0' :: _ :: _ => fail .malformed
  | _ => return digits

/-- The digits after a point, if there is one. -/
def fractionDigits : Reader (Option (List Char)) := do
  if (← peek?) = some '.' then
    skip
    let digits ← takeWhile Char.isDigit
    if digits.isEmpty then
      if (← peek?).isNone then fail .truncated else fail .malformed
    else return some digits
  else return none

/-- The number behind an exponent mark, if there is one. -/
def exponent : Reader (Option Int) := do
  match ← peek? with
  | some 'e' | some 'E' =>
    skip
    let sign ← peek?
    if sign = some '-' ∨ sign = some '+' then skip
    let digits ← takeWhile Char.isDigit
    if digits.isEmpty then
      if (← peek?).isNone then fail .truncated else fail .malformed
    else
      let n := digits.foldl (fun n c => 10 * n + (c.toNat - '0'.toNat)) 0
      return some (if sign = some '-' then -(n : Int) else n)
  | _ => return none

/-- A number behind its sign: its value when only digits are written and it is kept exactly, and
nothing when it is a double. A number beyond all doubles is not accepted. -/
def magnitude : Reader (Option Nat) := do
  let whole ← wholeDigits
  let fraction ← fractionDigits
  let power ← exponent
  let (significand, count) := absorb 0 whole
  let dropped := whole.length - count
  if fraction.isNone && power.isNone && dropped == 0 then return some significand
  else
    let (significand, count) := absorb significand (fraction.getD [])
    if isBeyondDoubles significand (dropped - count + power.getD 0) then fail .malformed
    else return none

/-- Reads a value of a form that was not asked for, as far as is needed to see whether it is JSON,
and stops. -/
def refuse {α : Type} : Reader α := do
  match ← peek? with
  | some 'n' => word ['n', 'u', 'l', 'l']
  | some 't' => word ['t', 'r', 'u', 'e']
  | some 'f' => word ['f', 'a', 'l', 's', 'e']
  | some '"' => do skip; discard string
  | some '-' => do skip; discard magnitude
  | some '[' | some '\x7b' => pure ()
  | some c => if c.isDigit then discard magnitude else fail .malformed
  | none => fail .malformed
  fail .mistyped

/-- A number from 0 to 255, written without sign, point and exponent. -/
def byte : Reader Nat := do
  match ← peekAfterBlanks? with
  | none => fail .truncated
  | some c =>
    if c.isDigit then
      match ← magnitude with
      | some n => if n ≤ 255 then return n else fail .mistyped
      | none => fail .mistyped
    else refuse

/-- A truth value. -/
def flag : Reader Bool := do
  match ← peekAfterBlanks? with
  | none => fail .truncated
  | some 't' => do word ['t', 'r', 'u', 'e']; return true
  | some 'f' => do word ['f', 'a', 'l', 's', 'e']; return false
  | some _ => refuse

/-- A value, or `null` for none. -/
def optional {α : Type} (value : Reader α) : Reader (Option α) := do
  match ← peekAfterBlanks? with
  | some 'n' => do word ['n', 'u', 'l', 'l']; return none
  | _ => return some (← value)

/-- Nothing but blanks is left. -/
def finish : Reader Unit := do
  if (← peekAfterBlanks?).isSome then fail .malformed

/-- The result of reading a whole document. -/
def run {α : Type} (reader : Reader α) (document : List Char) : Except Fault α :=
  (StateT.run reader document).map Prod.fst

end Reader

end OperatorLint
