/-!
# Binary operators

The operators of the checked language come in three groups. Thirteen compute a value from their
operands, and each of these also has a compound form that assigns the value to its left side;
fourteen test or combine truth values and orders. A compound form is thus always the form of one
computing operator, and nothing else has one.
-/

namespace OperatorLint

/-- The operators that compute a value and have a compound form. -/
inductive Computation where
  | plus
  | minus
  | mul
  | div
  | mod
  | pow
  | concat
  | bitwiseAnd
  | bitwiseOr
  | bitwiseXor
  | shiftLeft
  | shiftRight
  | coalesce
deriving DecidableEq, Repr

/-- The operators that combine truth values. -/
inductive Connective where
  | booleanAnd
  | booleanOr
  | logicalAnd
  | logicalOr
  | logicalXor
deriving DecidableEq, Repr

/-- The operators that compare two values; all but `spaceship` give a truth value. -/
inductive Comparison where
  | equal
  | notEqual
  | identical
  | notIdentical
  | smaller
  | smallerOrEqual
  | greater
  | greaterOrEqual
  | spaceship
deriving DecidableEq, Repr

/-- A binary operator. -/
inductive Operator where
  /-- The plain form of a computing operator. -/
  | compute (op : Computation)
  /-- The compound form, which also assigns the result to the left operand. -/
  | assign (op : Computation)
  /-- A combination of truth values. -/
  | connect (op : Connective)
  /-- A comparison. -/
  | compare (op : Comparison)
deriving DecidableEq, Repr

/-- How an operator reads its operands. -/
inductive Category where
  /-- Both operands are turned into strings. -/
  | concatenation
  /-- Two strings are combined byte by byte, all else as numbers. -/
  | bitwise
  /-- Both operands are turned into numbers. -/
  | default
deriving DecidableEq, Repr

namespace Computation

/-- The token of the plain form. -/
def token : Computation → String
  | plus => "+"
  | minus => "-"
  | mul => "*"
  | div => "/"
  | mod => "%"
  | pow => "**"
  | concat => "."
  | bitwiseAnd => "&"
  | bitwiseOr => "|"
  | bitwiseXor => "^"
  | shiftLeft => "<<"
  | shiftRight => ">>"
  | coalesce => "??"

/-- The English name of the plain form. -/
def name : Computation → String
  | plus => "Plus"
  | minus => "Minus"
  | mul => "Mul"
  | div => "Div"
  | mod => "Mod"
  | pow => "Pow"
  | concat => "Concat"
  | bitwiseAnd => "BitwiseAnd"
  | bitwiseOr => "BitwiseOr"
  | bitwiseXor => "BitwiseXor"
  | shiftLeft => "ShiftLeft"
  | shiftRight => "ShiftRight"
  | coalesce => "Coalesce"

/-- How the operator reads its operands. -/
def category : Computation → Category
  | concat => .concatenation
  | bitwiseAnd | bitwiseOr | bitwiseXor => .bitwise
  | _ => .default

/-- Every computing operator but `coalesce`, which is listed after the connectives. -/
def calculating : List Computation :=
  [plus, minus, mul, div, mod, pow, concat, bitwiseAnd, bitwiseOr, bitwiseXor, shiftLeft,
    shiftRight]

end Computation

namespace Connective

/-- The token of a connective. -/
def token : Connective → String
  | booleanAnd => "&&"
  | booleanOr => "||"
  | logicalAnd => "and"
  | logicalOr => "or"
  | logicalXor => "xor"

/-- The English name of a connective. -/
def name : Connective → String
  | booleanAnd => "BooleanAnd"
  | booleanOr => "BooleanOr"
  | logicalAnd => "LogicalAnd"
  | logicalOr => "LogicalOr"
  | logicalXor => "LogicalXor"

/-- Every connective. -/
def all : List Connective := [booleanAnd, booleanOr, logicalAnd, logicalOr, logicalXor]

end Connective

namespace Comparison

/-- The token of a comparison. -/
def token : Comparison → String
  | equal => "=="
  | notEqual => "!="
  | identical => "==="
  | notIdentical => "!=="
  | smaller => "<"
  | smallerOrEqual => "<="
  | greater => ">"
  | greaterOrEqual => ">="
  | spaceship => "<=>"

/-- The English name of a comparison. -/
def name : Comparison → String
  | equal => "Equal"
  | notEqual => "NotEqual"
  | identical => "Identical"
  | notIdentical => "NotIdentical"
  | smaller => "Smaller"
  | smallerOrEqual => "SmallerOrEqual"
  | greater => "Greater"
  | greaterOrEqual => "GreaterOrEqual"
  | spaceship => "Spaceship"

/-- Every comparison. -/
def all : List Comparison :=
  [equal, notEqual, identical, notIdentical, smaller, smallerOrEqual, greater, greaterOrEqual,
    spaceship]

end Comparison

namespace Operator

/-- The token of an operator; a compound form adds an equals sign. -/
def token : Operator → String
  | compute op => op.token
  | assign op => op.token ++ "="
  | connect op => op.token
  | compare op => op.token

/-- The English name of an operator. -/
def name : Operator → String
  | compute op => op.name
  | assign op => op.name ++ "Assign"
  | connect op => op.name
  | compare op => op.name

/-- The operator that a compound form applies; every other operator is its own base. -/
def base : Operator → Operator
  | assign op => compute op
  | op => op

/-- The operator assigns its result to its left operand. -/
def isCompound : Operator → Bool
  | assign _ => true
  | _ => false

/-- How the operator reads its operands. -/
def category : Operator → Category
  | compute op | assign op => op.category
  | connect _ | compare _ => .default

/-- Every operator, plain forms first. -/
def all : List Operator :=
  Computation.calculating.map compute ++ Connective.all.map connect ++ [compute .coalesce] ++
    Comparison.all.map compare ++ (Computation.calculating ++ [Computation.coalesce]).map assign

/-- The operator that a token spells. -/
def ofToken? (token : String) : Option Operator := all.find? (·.token == token)

/-- The list of operators leaves none out. -/
theorem mem_all (op : Operator) : op ∈ all := by
  cases op with
  | compute op => cases op <;> decide
  | assign op => cases op <;> decide
  | connect op => cases op <;> decide
  | compare op => cases op <;> decide

/-- The list of operators names each once. -/
theorem nodup_all : all.Nodup := by decide

/-- A compound form differs from its base, and nothing else does. -/
theorem isCompound_iff (op : Operator) : op.isCompound = true ↔ op.base ≠ op := by
  cases op <;> simp [isCompound, base]

/-- A compound form reads its operands as its base does. -/
theorem category_base (op : Operator) : op.base.category = op.category := by
  cases op <;> rfl

/-- Every token names its operator. -/
theorem ofToken?_token (op : Operator) : ofToken? op.token = some op := by
  cases op with
  | compute op => cases op <;> decide
  | assign op => cases op <;> decide
  | connect op => cases op <;> decide
  | compare op => cases op <;> decide

/-- Different operators have different tokens. -/
theorem token_injective {a b : Operator} (h : a.token = b.token) : a = b := by
  have ha := ofToken?_token a
  rw [h, ofToken?_token b] at ha
  exact (Option.some.inj ha).symm

end Operator

end OperatorLint
