import OperatorLint.Diagnostic
import OperatorLint.Ty.Description
import OperatorLint.Typing

/-!
# Rules

A rule looks at one expression in one scope and says what it finds there, as texts of one message.
Which expressions it is shown, and in which scopes, is not its own affair. The trace is a rule that
finds nothing wrong: for every expression it tells the expression itself and the variables of the
scope, and so makes visible where rules are applied.
-/

namespace OperatorLint

/-- A check of single expressions. -/
structure Rule where
  /-- The name by which the rule is known. -/
  name : String
  /-- The message that its findings are made from. -/
  message : Message
  /-- The texts of the findings at an expression. -/
  inspect : Scope → Expr Origin → List String

/-- The findings of a rule at an expression, located there. -/
def Rule.report (rule : Rule) (scope : Scope) (e : Expr Origin) : List Diagnostic :=
  (rule.inspect scope e).map fun text =>
    (Diagnostic.ofText rule.message text).withSpan e.range.toSpan

/-- One variable of a scope with its type, or a question mark where it has none. -/
def Scope.describeName (s : Scope) (name : String) : String :=
  name ++ "=" ++ ((s.typeOf? name).elim "?" Ty.display)

/-- The variables of a scope with their types. -/
def Scope.describe (s : Scope) : String := ";".intercalate (s.names.map s.describeName)

/-- The message of the trace: its text is the finding itself. -/
def Message.trace : Message := ⟨9001, .suggestion, "\x7b0\x7d"⟩

/-- The rule that tells what it is shown. -/
def Rule.trace : Rule where
  name := "trace"
  message := .trace
  inspect scope e := [e.text, scope.describe]

end OperatorLint
