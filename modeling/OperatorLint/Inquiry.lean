import OperatorLint.Typing

/-!
# Computations that ask for types

An `Inquiry` is a computation that may ask for the type of an expression in a scope and goes on
with the answer. Given an oracle it has a result and a list of the questions it put, so what a
check concludes and what it asked for come from one definition.
-/

namespace OperatorLint

/-- A request for the type of an expression in a scope. -/
structure Question where
  /-- The scope asked about. -/
  scope : Scope
  /-- The expression asked about. -/
  expr : Expr Origin

/-- A computation that ends with a result or asks a question and goes on with the answer. -/
inductive Inquiry (α : Type) where
  /-- The result. -/
  | done (result : α)
  /-- A question, with what follows each answer. -/
  | ask (question : Question) (next : Ty → Inquiry α)

namespace Inquiry

variable {α β : Type}

/-- The type of an expression in a scope. -/
def typeOf (scope : Scope) (expr : Expr Origin) : Inquiry Ty := ask ⟨scope, expr⟩ done

/-- One computation, then another that depends on its result. -/
def bind : Inquiry α → (α → Inquiry β) → Inquiry β
  | done result, f => f result
  | ask question next, f => ask question fun answer => bind (next answer) f

instance : Monad Inquiry where
  pure := done
  bind := bind

/-- The result that the answers of an oracle lead to. -/
def result (oracle : Oracle) : Inquiry α → α
  | done result => result
  | ask question next => result oracle (next (oracle question.scope question.expr))

/-- The questions put on the way to the result, each with its answer, in order. -/
def questions (oracle : Oracle) : Inquiry α → List (Question × Ty)
  | done _ => []
  | ask question next =>
    let answer := oracle question.scope question.expr
    (question, answer) :: questions oracle (next answer)

end Inquiry

end OperatorLint
