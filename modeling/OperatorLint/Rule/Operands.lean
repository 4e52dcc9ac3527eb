import OperatorLint.Narrowing
import OperatorLint.Rule.Trace

/-!
# Operands that can never be combined

A binary operation is reported when it fails in two ways. The whole operation has to be a
failure, and it has to stay one when both operands are cut down to the parts that are checked.
The second test puts two reserved variables of the narrowed types in the place of the operands,
and the text of the operation on them is where the operator is read off.
-/

namespace OperatorLint

/-- The message about operands that cannot be combined. -/
def Message.operands : Message where
  code := 2001
  severity := .error
  template :=
    "Binary operation \"\x7b0\x7d\" between \x7b1\x7d and \x7b2\x7d results in an error."

namespace Operands

/-- The reserved variable for the left operand. -/
def leftName : String := "__OPCHECK_LEFT__"

/-- The reserved variable for the right operand. -/
def rightName : String := "__OPCHECK_RIGHT__"

/-- The scope with the two reserved variables. -/
def placeholderScope (scope : Scope) (left right : Ty) : Scope :=
  (scope.assign leftName left .yes).assign rightName right .yes

/-- The operation on the two reserved variables, in the place of the given one. -/
def placeholderExpr (origin : Origin) (op : Operator) : Expr Origin :=
  .binary origin.remade (.placeholder leftName) op (.placeholder rightName)

/-- How certainly the right operand is read byte by byte, once the left one is known. -/
def bytewise (op : Operator) (left : Ty) : Certainty :=
  if op.category = .bitwise then left.bytewise else .maybe

/-- What stands before the operator in the text of an operation on the reserved variables. -/
def textBefore : List Char := '$' :: (leftName.toList ++ [' '])

/-- What stands behind the operator in the text of an operation on the reserved variables. -/
def textBehind : List Char := ' ' :: '$' :: rightName.toList

/-- The operator as it stands in the text of an operation on the reserved variables; its token
where the text is not framed by these variables. -/
def operatorText (e : Expr Origin) (op : Operator) : String :=
  ((textBefore.isPrefixOf? e.chars).bind fun rest => textBehind.isSuffixOf? rest).elim op.token
    String.ofList

/-- The findings at an operation. Every step but the first asks only if the one before it left
the failure standing. -/
def examine (s : Strictness) (scope : Scope) (origin : Origin) (left : Expr Origin)
    (op : Operator) (right : Expr Origin) : Inquiry (List String) := do
  let whole ← Inquiry.typeOf scope (.binary origin left op right)
  if !whole.isError then return []
  let leftPart ← s.typeToCheck (op.category.accepts .maybe) scope left
  if leftPart.isError then return []
  let rightPart ← s.typeToCheck (op.category.accepts (bytewise op leftPart)) scope right
  if rightPart.isError then return []
  let narrowedExpr := placeholderExpr origin op
  let narrowed ← Inquiry.typeOf (placeholderScope scope leftPart rightPart) narrowedExpr
  if !narrowed.isError then return []
  let leftType ← Inquiry.typeOf scope left
  let rightType ← Inquiry.typeOf scope right
  return [Message.operands.format
    [operatorText narrowedExpr op, leftType.display, rightType.display]]

/-- The findings at an expression: there are none where no operator stands. -/
def inquiry (s : Strictness) (scope : Scope) : Expr Origin → Inquiry (List String)
  | .binary origin left op right => examine s scope origin left op right
  | _ => pure []

end Operands

/-- The rule about operands that cannot be combined, with the types of an oracle. -/
def Rule.operands (oracle : Oracle) (s : Strictness) : Rule where
  name := "invalidBinaryOperation"
  message := .operands
  inspect scope e := (Operands.inquiry s scope e).result oracle

end OperatorLint
