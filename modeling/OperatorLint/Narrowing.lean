import OperatorLint.Inquiry
import OperatorLint.Ty.Coercion

/-!
# The part of an operand that is checked

How strictly operands are checked is a matter of choice. A lenient check drops null and those
members of a union that the operator cannot work with; what is left is the part of the operand's
type that a report must be true of. A type about which too little is known is not checked at all,
which is answered by `error`.
-/

namespace OperatorLint

/-- How strictly operands are checked. -/
structure Strictness where
  /-- Null is kept in the types of operands. -/
  nullables : Bool
  /-- All members of a union have to work, not just one. -/
  unions : Bool
deriving DecidableEq, Repr

namespace Strictness

/-- The type of an operand without the null that is not checked; null alone stays. -/
def stripped (s : Strictness) (t : Ty) : Ty := if s.nullables || t.isNull then t else t.withoutNull

/-- Too little is known about a type to report anything. -/
def isUnknown (t : Ty) : Bool := t.isError || t.isMixed || t.isNever

/-- The members of a union that are accepted, if there are any; all of any other type. -/
def acceptedPart (accepts : Ty → Bool) : Ty → Ty
  | .union ts => if (ts.filter accepts).isEmpty then .union ts else .join (ts.filter accepts)
  | t => t

/-- The part of a type that is checked, or `error` when there is nothing to check. -/
def narrow (s : Strictness) (accepts : Ty → Bool) (t : Ty) : Ty :=
  let t := s.stripped t
  if isUnknown t then .error else if s.unions then t else acceptedPart accepts t

/-- The part of the type of an operand that is checked. -/
def typeToCheck (s : Strictness) (accepts : Ty → Bool) (scope : Scope) (e : Expr Origin) :
    Inquiry Ty := do
  let t ← Inquiry.typeOf scope e
  pure (s.narrow accepts t)

end Strictness

/-- How certainly a bitwise operator with this left operand works byte by byte: `yes` when the
operand covers every string and cannot become a number, `no` when it shares nothing with the
strings and can. -/
def Ty.bytewise (left : Ty) : Certainty :=
  .agree (left.covers .string) (.ofBool left.toNumber.isError)

/-- The operand types that an operator can work with. The certainty that it works byte by byte
matters to bitwise operators only: `yes` rules the numbers out, `no` the strings. -/
def Category.accepts (category : Category) (bytewise : Certainty) (t : Ty) : Bool :=
  match category with
  | .concatenation => !t.toText.isError
  | .bitwise =>
    (!bytewise.isNo && !(t.covers .string).isNo) || (!bytewise.isYes && !t.toNumber.isError)
  | .default => !t.toNumber.isError

end OperatorLint
