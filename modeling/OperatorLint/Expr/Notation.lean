import OperatorLint.Expr.Basic
import OperatorLint.Ty.Description

/-!
# Expressions and statements as source text

Every tree is written the same way whatever its tags are: a variable behind a dollar sign, the
literal of a constant, items between brackets, an operator between blanks. Nothing is added to
keep operands apart, so a tree is written as grouped as it is built.
-/

namespace OperatorLint

namespace Expr

variable {α : Type}

mutual
/-- The characters of an expression. -/
def chars : Expr α → List Char
  | var _ name => '$' :: name.toList
  | constant _ value => value.literalChars
  | null _ => ['n', 'u', 'l', 'l']
  | list _ items => '[' :: ([',', ' '].intercalate (charsEach items) ++ [']'])
  | paren _ inner => '(' :: (chars inner ++ [')'])
  | binary _ left op right => chars left ++ ' ' :: (op.token.toList ++ ' ' :: chars right)

/-- The characters of each expression of a list. -/
def charsEach : List (Expr α) → List (List Char)
  | [] => []
  | e :: es => chars e :: charsEach es
end

/-- The text of an expression. -/
def text (e : Expr α) : String := String.ofList e.chars

/-- The texts are those of the single expressions, in order. -/
theorem charsEach_eq_map (es : List (Expr α)) : charsEach es = es.map chars := by
  induction es with
  | nil => rfl
  | cons e es ih => simp [charsEach, ih]

end Expr

/-- How the statements of a unit are put together. -/
structure Layout where
  /-- The text between two statements. -/
  newLine : String
  /-- The last statement is followed by a new line too. -/
  trailingNewLine : Bool

/-- One statement a line, with the last line ended. -/
def Layout.default : Layout := ⟨"\n", true⟩

namespace Statement

variable {α : Type}

/-- The text of a statement. -/
def text : Statement α → String
  | expression _ value => value.text ++ ";"
  | assign _ _ target value => "$" ++ target ++ " = " ++ value.text ++ ";"

/-- The text of the statements of a unit. A text that is still empty gets no line end. -/
def textOfUnit (layout : Layout) (statements : List (Statement α)) : String :=
  let body := layout.newLine.intercalate (statements.map text)
  if layout.trailingNewLine && !body.isEmpty then body ++ layout.newLine else body

end Statement

end OperatorLint
