import OperatorLint.Settings.Basic
import OperatorLint.Settings.Reader

/-!
# Settings documents

Choices are written as a JSON object with up to four keys, or as a list of their four values in a
fixed order. `null` stands for a choice that is left out. A key that is unknown, or that comes a
second time, is met as soon as it is read.
-/

namespace OperatorLint

/-- The choices that a document can hold. -/
inductive Field where
  | level
  | unionTypes
  | nullables
  | binaryOperations
deriving DecidableEq, Repr

namespace Field

/-- Every choice, in the order of the list form. -/
def all : List Field := [level, unionTypes, nullables, binaryOperations]

/-- The key of a choice. -/
def key : Field → String
  | level => "level"
  | unionTypes => "checkUnionTypes"
  | nullables => "checkNullables"
  | binaryOperations => "reportBinaryOperations"

/-- The choice of a key. -/
def ofKey? (key : List Char) : Option Field := all.find? fun f => f.key.toList == key

/-- Reads the value of a choice into the choices made so far. -/
def read (c : Choices) : Field → Reader Choices
  | level => do return { c with level := ← Reader.optional Reader.byte }
  | unionTypes => do return { c with unionTypes := ← Reader.optional Reader.flag }
  | nullables => do return { c with nullables := ← Reader.optional Reader.flag }
  | binaryOperations => do return { c with binaryOperations := ← Reader.optional Reader.flag }

end Field

namespace Choices

/-- Reads up to the quote that opens the next key of an object; `false` when the object ends. -/
def nextKey (first : Bool) : Reader Bool := do
  match ← Reader.peekAfterBlanks? with
  | none => Reader.fail .truncated
  | some '\x7d' => do Reader.skip; return false
  | some '"' => if first then do Reader.skip; return true else Reader.fail .malformed
  | some ',' =>
    if first then Reader.fail .malformed
    Reader.skip
    match ← Reader.peekAfterBlanks? with
    | none => Reader.fail .truncated
    | some '"' => do Reader.skip; return true
    | some _ => Reader.fail .malformed
  | some _ => Reader.fail .malformed

/-- Reads the colon behind a key. -/
def colon : Reader Unit := do
  match ← Reader.peekAfterBlanks? with
  | none => Reader.fail .truncated
  | some ':' => Reader.skip
  | some _ => Reader.fail .malformed

/-- Reads the entries of an object behind its opening brace. As no key may come twice, there is
one step for each key that is still unused, and at most one more key is looked at. -/
def entries (c : Choices) (used : List Field) : Nat → Reader Choices
  | 0 => do
    if ← nextKey used.isEmpty then
      discard Reader.string
      Reader.fail .mistyped
    return c
  | unused + 1 => do
    if ← nextKey used.isEmpty then
      match Field.ofKey? (← Reader.string) with
      | some field =>
        if field ∈ used then Reader.fail .mistyped
        colon
        let c ← field.read c
        entries c (field :: used) unused
      | none => Reader.fail .mistyped
    else return c

/-- Reads up to the next value of a list. -/
def nextItem (first : Bool) : Reader Unit := do
  match ← Reader.peekAfterBlanks? with
  | none => Reader.fail .truncated
  | some ']' => Reader.fail .mistyped
  | some ',' =>
    if !first then
      Reader.skip
      match ← Reader.peekAfterBlanks? with
      | none => Reader.fail .truncated
      | some ']' => Reader.fail .malformed
      | some _ => return
  | some _ => if !first then Reader.fail .malformed

/-- Reads the values of the remaining choices of a list, and its closing bracket. -/
def items (c : Choices) (first : Bool) : List Field → Reader Choices
  | [] => do
    match ← Reader.peekAfterBlanks? with
    | none => Reader.fail .truncated
    | some ']' => do Reader.skip; return c
    | some _ => Reader.fail .malformed
  | field :: fields => do
    nextItem first
    let c ← field.read c
    items c false fields

/-- Reads a whole document. -/
def document : Reader Choices := do
  let c ← match ← Reader.peekAfterBlanks? with
    | none => Reader.fail .truncated
    | some '[' => do Reader.skip; items .empty true Field.all
    | some '\x7b' => do Reader.skip; entries .empty [] Field.all.length
    | some _ => Reader.refuse
  Reader.finish
  return c

end Choices

/-- Why there are no settings. -/
inductive SettingsError where
  /-- The file does not exist. -/
  | missing
  /-- The file does not hold text. -/
  | notText
  /-- The document cannot be read. -/
  | document (fault : Fault)
  /-- The level is past the highest one. -/
  | levelTooHigh (level : Nat)
deriving DecidableEq, Repr

/-- The text about a level that is past the highest one. -/
def SettingsError.levelMessage (level : Nat) : String :=
  "Invalid level " ++ toString level ++ ": levels range from 0 to " ++ toString Settings.maxLevel

namespace Choices

/-- The choices that a text holds. -/
def ofText (text : String) : Except SettingsError Choices :=
  (document.run text.toList).mapError .document

/-- The choices that a file holds, given its bytes if it exists. -/
def ofFile (contents : Option ByteArray) : Except SettingsError Choices :=
  match contents with
  | none => .error .missing
  | some bytes =>
    match String.fromUTF8? bytes with
    | none => .error .notText
    | some text => ofText text

/-- The settings that choices lead to. -/
def settings (c : Choices) : Except SettingsError Settings := c.resolve.mapError .levelTooHigh

end Choices

/-- The settings that a text holds. -/
def Settings.ofText (text : String) : Except SettingsError Settings := do
  (← Choices.ofText text).settings

end OperatorLint
