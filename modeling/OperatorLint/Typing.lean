import OperatorLint.Expr.Notation
import OperatorLint.Operation.Result
import OperatorLint.Scope

/-!
# The type of an expression

`Expr.typeIn` is the reference typing: constants have their own type, variables the type that the
scope gives them, operations the type of their result. A variable that is certainly undefined is
a failure. Compound forms are typed without changing the scope.

An `Oracle` is any such typing of placed expressions; the checks work with every oracle.
-/

namespace OperatorLint

namespace Expr

variable {α : Type}

/-- The type of an array literal with items of the given types. -/
def listType : List Ty → Ty
  | [] => .emptyArray
  | ts => if (Ty.join ts).isError then .error else .array .int (.join ts)

mutual
/-- The type of an expression in a scope. -/
def typeIn (scope : Scope) : Expr α → Ty
  | var _ name => (scope.typeOf? name).getD .error
  | constant _ value => .constant value
  | null _ => .null
  | list _ items => listType (typeInEach scope items)
  | paren _ inner => typeIn scope inner
  | binary _ left op right => op.result (typeIn scope left) (typeIn scope right)

/-- The types of a list of expressions in one scope. -/
def typeInEach (scope : Scope) : List (Expr α) → List Ty
  | [] => []
  | e :: es => typeIn scope e :: typeInEach scope es
end

/-- The types are those of the single expressions, in order. -/
theorem typeInEach_eq_map (scope : Scope) (es : List (Expr α)) :
    typeInEach scope es = es.map (typeIn scope) := by
  induction es with
  | nil => rfl
  | cons e es ih => simp [typeInEach, ih]

/-- Tags do not matter to the type. -/
theorem typeIn_mapTags {β : Type} (f : α → β) (scope : Scope) (e : Expr α) :
    (e.mapTags f).typeIn scope = e.typeIn scope := by
  induction e using Expr.rec
    (motive_2 := fun es => typeInEach scope (mapTagsEach f es) = typeInEach scope es) with
  | var | constant | null => rfl
  | list _ _ ih => simp [mapTags, typeIn, ih]
  | paren _ _ ih => simp [mapTags, typeIn, ih]
  | binary _ _ _ _ ihl ihr => simp [mapTags, typeIn, ihl, ihr]
  | nil => rfl
  | cons _ _ ihe ihes => simp [mapTagsEach, typeInEach, ihe, ihes]

end Expr

/-- A typing of expressions in scopes. -/
abbrev Oracle := Scope → Expr Origin → Ty

namespace Oracle

/-- The oracle that gives every expression its type. -/
def reference : Oracle := fun scope e => e.typeIn scope

/-- An oracle that answers some expressions, named by their text, from a list, and asks another
oracle about all else. -/
def override (answers : List (String × Ty)) (base : Oracle) : Oracle := fun scope e =>
  match answers.find? fun answer => answer.1 == e.text with
  | some answer => answer.2
  | none => base scope e

end Oracle

end OperatorLint
