import OperatorLint.Narrowing

/-!
# Settings

Checks are grouped by levels from 0 to 8: each level adds to the checks of the one below it.
Choices written next to a level override what the level implies.
-/

namespace OperatorLint

/-- What is checked, and how strictly. -/
structure Settings where
  /-- The level that the other fields start from. -/
  level : Nat
  /-- All members of a union have to work, not just one. -/
  unionTypes : Bool
  /-- Null is kept in the types of operands. -/
  nullables : Bool
  /-- Binary operations are checked. -/
  binaryOperations : Bool
deriving DecidableEq, Repr

namespace Settings

/-- The highest level. -/
def maxLevel : Nat := 8

/-- The level from which binary operations are checked. -/
def binaryOperationsLevel : Nat := 2

/-- The level from which all members of a union have to work. -/
def unionTypesLevel : Nat := 7

/-- The level from which null is kept. -/
def nullablesLevel : Nat := 8

/-- The level that holds when none is written. -/
def defaultLevel : Nat := 5

/-- What a level implies. Levels past the highest one imply all that it does. -/
def forLevel (level : Nat) : Settings where
  level := level
  unionTypes := unionTypesLevel ≤ level
  nullables := nullablesLevel ≤ level
  binaryOperations := binaryOperationsLevel ≤ level

/-- The settings that hold when nothing is written. -/
def default : Settings := forLevel defaultLevel

/-- How strictly operands are checked. -/
def strictness (s : Settings) : Strictness := ⟨s.nullables, s.unionTypes⟩

end Settings

/-- Settings as they are written: each part may be left out. -/
structure Choices where
  /-- The level. -/
  level : Option Nat
  /-- The choice on unions. -/
  unionTypes : Option Bool
  /-- The choice on null. -/
  nullables : Option Bool
  /-- The choice on binary operations. -/
  binaryOperations : Option Bool
deriving DecidableEq, Repr

namespace Choices

/-- Nothing is written. -/
def empty : Choices := ⟨none, none, none, none⟩

/-- The settings that choices lead to; a level past the highest one is refused and given back. -/
def resolve (c : Choices) : Except Nat Settings :=
  let level := c.level.getD Settings.defaultLevel
  if Settings.maxLevel < level then .error level
  else
    let implied := Settings.forLevel level
    .ok {
      level := level
      unionTypes := c.unionTypes.getD implied.unionTypes
      nullables := c.nullables.getD implied.nullables
      binaryOperations := c.binaryOperations.getD implied.binaryOperations }

end Choices

end OperatorLint
