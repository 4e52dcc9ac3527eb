import OperatorLint.Rule.Operands
import OperatorLint.Settings.Basic

/-!
# Checking statements and units

Every expression of a statement is offered to every rule, parts before the whole and from left to
right. The scope of an offer is the one in which the expression starts: it knows what compound
forms to the left of it have assigned, and nothing of those inside it. A statement ends with all
of them done; an assignment then binds its target to the type that its value had at the start. A
unit is a list of statements with the scope it starts in, such as a file or the body of a function.
Units are checked by themselves; their findings carry the name of their file and are put together
in the order of files and positions.
-/

namespace OperatorLint

/-- An expression together with the scope in which rules are shown it. -/
structure Offer where
  /-- The scope in which the expression starts. -/
  scope : Scope
  /-- The expression. -/
  expr : Expr Origin

/-- A typing and the rules that are applied with it. -/
structure Checker where
  /-- The typing by which variables are bound. -/
  oracle : Oracle
  /-- The rules, in the order in which they are applied. -/
  rules : List Rule

namespace Checker

/-- A checker for some settings, with the reference typing. -/
def ofSettings (settings : Settings) : Checker where
  oracle := .reference
  rules :=
    if settings.binaryOperations then [.operands .reference settings.strictness] else []

/-- The checker with one more rule, applied after the others. -/
def addRule (c : Checker) (rule : Rule) : Checker := { c with rules := c.rules ++ [rule] }

/-- The scope after an expression whose parts are done: a compound form on a variable binds it to
the type that the operation has in the scope where it starts. -/
def rebind (oracle : Oracle) (before after : Scope) : Expr Origin → Scope
  | .binary tag (.var tag' name) (.assign op) right =>
    after.assign name (oracle before (.binary tag (.var tag' name) (.assign op) right)) .yes
  | _ => after

mutual
/-- The offers of an expression that starts in a scope, and the scope after it. -/
def offers (oracle : Oracle) (scope : Scope) : Expr Origin → List Offer × Scope
  | .var tag name => ([⟨scope, .var tag name⟩], scope)
  | .constant tag value => ([⟨scope, .constant tag value⟩], scope)
  | .null tag => ([⟨scope, .null tag⟩], scope)
  | .list tag items =>
    let (inner, after) := offersEach oracle scope items
    (inner ++ [⟨scope, .list tag items⟩], after)
  | .paren tag inner =>
    let (offered, after) := offers oracle scope inner
    (offered ++ [⟨scope, .paren tag inner⟩], after)
  | .binary tag left op right =>
    let (first, middle) := offers oracle scope left
    let (second, after) := offers oracle middle right
    let whole := .binary tag left op right
    (first ++ second ++ [⟨scope, whole⟩], rebind oracle scope after whole)

/-- The offers of a list of expressions, each of which starts where the one before it ended. -/
def offersEach (oracle : Oracle) (scope : Scope) : List (Expr Origin) → List Offer × Scope
  | [] => ([], scope)
  | e :: es =>
    let (first, middle) := offers oracle scope e
    let (rest, after) := offersEach oracle middle es
    (first ++ rest, after)
end

/-- The findings of all rules at one offer. -/
def report (c : Checker) (offer : Offer) : List Diagnostic :=
  c.rules.flatMap fun rule => rule.report offer.scope offer.expr

/-- The findings in an expression and the scope after it. -/
def checkExpr (c : Checker) (scope : Scope) (e : Expr Origin) : List Diagnostic × Scope :=
  let (offered, after) := offers c.oracle scope e
  (offered.flatMap c.report, after)

/-- The findings in a statement and the scope after it. -/
def checkStatement (c : Checker) (scope : Scope) : Statement Origin → List Diagnostic × Scope
  | .expression _ value => c.checkExpr scope value
  | .assign _ _ target value =>
    let (found, after) := c.checkExpr scope value
    (found, after.assign target (c.oracle scope value) .yes)

/-- What checking a list of statements leaves: for each the findings in it and the scope after
it. -/
def steps (c : Checker) (scope : Scope) : List (Statement Origin) → List (List Diagnostic × Scope)
  | [] => []
  | s :: ss =>
    let step := c.checkStatement scope s
    step :: c.steps step.2 ss

/-- The findings in a list of statements. -/
def checkAll (c : Checker) (scope : Scope) (ss : List (Statement Origin)) : List Diagnostic :=
  (c.steps scope ss).flatMap Prod.fst

mutual
/-- Every node is offered once, parts before the whole. -/
theorem exprs_offers (oracle : Oracle) (scope : Scope) (e : Expr Origin) :
    (offers oracle scope e).1.map Offer.expr = e.postorder := by
  cases e with
  | var | constant | null => rfl
  | list tag items => simp [offers, Expr.postorder, exprs_offersEach oracle scope items]
  | paren tag inner => simp [offers, Expr.postorder, exprs_offers oracle scope inner]
  | binary tag left op right =>
    simp [offers, Expr.postorder, exprs_offers oracle scope left,
      exprs_offers oracle (offers oracle scope left).2 right]

/-- Every node of a list of expressions is offered once, expression by expression. -/
theorem exprs_offersEach (oracle : Oracle) (scope : Scope) (es : List (Expr Origin)) :
    (offersEach oracle scope es).1.map Offer.expr = Expr.postorderEach es := by
  cases es with
  | nil => rfl
  | cons e es =>
    simp [offersEach, Expr.postorderEach, exprs_offers oracle scope e,
      exprs_offersEach oracle (offers oracle scope e).2 es]
end

end Checker

/-- A part of a program that is checked by itself. -/
structure AnalysisUnit where
  /-- The name of its file. -/
  file : String
  /-- The variables it may rely on. -/
  scope : Scope
  /-- Its statements. -/
  statements : List (Statement Origin)

/-- The findings in one unit, in the order in which they were made. -/
def AnalysisUnit.findings (u : AnalysisUnit) (c : Checker) : List Diagnostic :=
  (c.checkAll u.scope u.statements).map fun d => d.withFile u.file

/-- The findings in a list of units. -/
def analyse (settings : Settings) (units : List AnalysisUnit) : List Diagnostic :=
  Diagnostic.sort (units.flatMap fun u => u.findings (.ofSettings settings))

end OperatorLint
