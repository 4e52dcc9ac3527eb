import OperatorLint.Proofs.Narrowing
import OperatorLint.Rule.Operands

/-!
# The check of operands decides on types

For every typing the check of an operation goes through one agenda of questions, ends with the first
answer that leaves no failure standing, and finds something only at the end of the agenda. With the
reference typing the questions about expressions come down to a decision on the types of the two
operands: the operation fails on the types as they are, something is left to check on both sides,
and the operation fails on what is left. The reserved variables drop out, also where a program uses
their names itself, and between them the token of the operator is read.
-/

namespace OperatorLint.Operands

open Strictness (isUnknown isError_narrow isError_narrow_of_unions)

/-- The part of the left operand's type that is checked. -/
def leftPart (s : Strictness) (op : Operator) (left : Ty) : Ty :=
  s.narrow (op.category.accepts .maybe) left

/-- The part of the right operand's type that is checked, once the left one is narrowed. -/
def rightPart (s : Strictness) (op : Operator) (left right : Ty) : Ty :=
  s.narrow (op.category.accepts (bytewise op (leftPart s op left))) right

/-- An operation on operands of two types is reported. -/
def reported (s : Strictness) (op : Operator) (left right : Ty) : Bool :=
  (op.result left right).isError && !(leftPart s op left).isError &&
    !(rightPart s op left right).isError &&
      (op.result (leftPart s op left) (rightPart s op left right)).isError

/-- An assigned variable that is defined for certain has its type. -/
theorem typeOf?_assign_self (scope : Scope) (name : String) (t : Ty) :
    (scope.assign name t .yes).typeOf? name = some t := by
  rw [Scope.typeOf?, Scope.find?_assign_self]
  rfl

/-- Other variables keep their types. -/
theorem typeOf?_assign_of_ne (scope : Scope) {name other : String} (h : other ≠ name) (t : Ty)
    (c : Certainty) : (scope.assign name t c).typeOf? other = scope.typeOf? other := by
  rw [Scope.typeOf?, Scope.find?_assign_of_ne scope h, Scope.typeOf?]

/-- In the scope with the reserved variables both have their types for certain, and all other
variables are bound as before. -/
theorem find?_placeholderScope (scope : Scope) (left right : Ty) (name : String) :
    (placeholderScope scope left right).find? name =
      if name = leftName then some ⟨leftName, left, .yes⟩
      else if name = rightName then some ⟨rightName, right, .yes⟩
      else scope.find? name := by
  unfold placeholderScope
  by_cases hleft : name = leftName
  · have hne : leftName ≠ rightName := by decide
    rw [if_pos hleft, hleft, Scope.find?_assign_of_ne _ hne, Scope.find?_assign_self]
  · by_cases hright : name = rightName
    · rw [if_neg hleft, if_pos hright, hright, Scope.find?_assign_self]
    · rw [if_neg hleft, if_neg hright, Scope.find?_assign_of_ne _ hright,
        Scope.find?_assign_of_ne _ hleft]

/-- The operation on the reserved variables has the result for the types they are given. -/
theorem typeIn_placeholder (scope : Scope) (origin : Origin) (op : Operator) (left right : Ty) :
    (placeholderExpr origin op).typeIn (placeholderScope scope left right) =
      op.result left right := by
  have hne : rightName ≠ leftName := by decide
  have hleft : (placeholderScope scope left right).typeOf? leftName = some left := by
    rw [Scope.typeOf?, find?_placeholderScope, if_pos rfl]
    rfl
  have hright : (placeholderScope scope left right).typeOf? rightName = some right := by
    rw [Scope.typeOf?, find?_placeholderScope, if_neg hne, if_pos rfl]
    rfl
  simp only [placeholderExpr, Expr.placeholder, Expr.typeIn, hleft, hright, Option.getD_some]

/-- A list starts with its first part, and the rest is left. -/
theorem isPrefixOf?_append {α : Type} [BEq α] [LawfulBEq α] (first rest : List α) :
    first.isPrefixOf? (first ++ rest) = some rest := by
  induction first with
  | nil => cases rest <;> rfl
  | cons a first ih => simp [List.isPrefixOf?, ih]

/-- A list ends with its last part, and the rest is left. -/
theorem isSuffixOf?_append {α : Type} [BEq α] [LawfulBEq α] (rest last : List α) :
    last.isSuffixOf? (rest ++ last) = some rest := by
  rw [List.isSuffixOf?, List.reverse_append, isPrefixOf?_append, Option.map_some,
    List.reverse_reverse]

/-- Between the reserved variables stands the token of the operator. -/
theorem chars_placeholderExpr (origin : Origin) (op : Operator) :
    (placeholderExpr origin op).chars = textBefore ++ (op.token.toList ++ textBehind) := by
  simp [placeholderExpr, Expr.placeholder, Expr.chars, textBefore, textBehind]

/-- The token of every operator is read off the operation on the reserved variables. -/
theorem operatorText_placeholderExpr (origin : Origin) (op : Operator) :
    operatorText (placeholderExpr origin op) op = op.token := by
  rw [operatorText, chars_placeholderExpr, isPrefixOf?_append, Option.bind_some,
    isSuffixOf?_append, Option.elim_some, String.ofList_toList]

/-- The text of a finding. -/
def finding (op : Operator) (left right : Ty) : String :=
  Message.operands.format [op.token, left.display, right.display]

section Agenda

variable (oracle : Oracle) (s : Strictness) (scope : Scope) (origin : Origin)
  (left : Expr Origin) (op : Operator) (right : Expr Origin)

/-- The scope in which the operation on the reserved variables is asked about: they have the types
that are checked of the operands. -/
def narrowedScope : Scope :=
  placeholderScope scope (leftPart s op (oracle scope left))
    (rightPart s op (oracle scope left) (oracle scope right))

/-- The questions that the check of an operation can put, in their order: the whole, its operands,
the operation on the reserved variables, and the operands once more for the text. -/
def agenda : List Question :=
  [⟨scope, .binary origin left op right⟩, ⟨scope, left⟩, ⟨scope, right⟩,
    ⟨narrowedScope oracle s scope left op right, placeholderExpr origin op⟩,
    ⟨scope, left⟩, ⟨scope, right⟩]

/-- How many questions of the agenda are put. -/
def extent : Nat :=
  if !(oracle scope (.binary origin left op right)).isError then 1
  else if (leftPart s op (oracle scope left)).isError then 2
  else if (rightPart s op (oracle scope left) (oracle scope right)).isError then 3
  else if !(oracle (narrowedScope oracle s scope left op right)
    (placeholderExpr origin op)).isError then 4
  else 6

/-- The check of an operation, question by question. -/
theorem examine_eq : examine s scope origin left op right =
    .ask ⟨scope, .binary origin left op right⟩ fun whole =>
      if !whole.isError then .done [] else
    .ask ⟨scope, left⟩ fun leftType =>
      if (leftPart s op leftType).isError then .done [] else
    .ask ⟨scope, right⟩ fun rightType =>
      if (rightPart s op leftType rightType).isError then .done [] else
    .ask ⟨placeholderScope scope (leftPart s op leftType) (rightPart s op leftType rightType),
        placeholderExpr origin op⟩ fun narrowed =>
      if !narrowed.isError then .done [] else
    .ask ⟨scope, left⟩ fun leftType => .ask ⟨scope, right⟩ fun rightType =>
      .done [finding op leftType rightType] := by
  simp only [finding, ← operatorText_placeholderExpr origin op]
  rfl

/-- The check of an operation puts the questions of its agenda as far as its extent. It finds one
text when that is the whole agenda, and nothing otherwise. -/
theorem examine_run :
    (examine s scope origin left op right).questions oracle =
        ((agenda oracle s scope origin left op right).take
          (extent oracle s scope origin left op right)).map
            (fun q => (q, oracle q.scope q.expr)) ∧
      (examine s scope origin left op right).result oracle =
        if extent oracle s scope origin left op right = 6 then
          [finding op (oracle scope left) (oracle scope right)]
        else [] := by
  unfold extent narrowedScope
  rw [examine_eq]
  simp only [Inquiry.questions, Inquiry.result, apply_ite (Inquiry.questions oracle),
    apply_ite (Inquiry.result oracle)]
  split
  · exact ⟨rfl, rfl⟩
  · split
    · exact ⟨rfl, rfl⟩
    · split
      · exact ⟨rfl, rfl⟩
      · split
        · exact ⟨rfl, rfl⟩
        · exact ⟨rfl, rfl⟩

/-- The check of an operation gets to the end of its agenda when the operation fails, something is
left to check on both sides, and the operation on what is left fails. -/
theorem extent_eq_six_iff : extent oracle s scope origin left op right = 6 ↔
    (oracle scope (.binary origin left op right)).isError = true ∧
      (leftPart s op (oracle scope left)).isError = false ∧
        (rightPart s op (oracle scope left) (oracle scope right)).isError = false ∧
          (oracle (narrowedScope oracle s scope left op right)
            (placeholderExpr origin op)).isError = true := by
  unfold extent
  grind

end Agenda

/-- The check of an operation finds one text when the types of the operands are reported, and
nothing otherwise. -/
theorem inspect_binary (s : Strictness) (scope : Scope) (origin : Origin)
    (left right : Expr Origin) (op : Operator) :
    (Rule.operands .reference s).inspect scope (.binary origin left op right) =
      if reported s op (left.typeIn scope) (right.typeIn scope) = true then
        [finding op (left.typeIn scope) (right.typeIn scope)]
      else [] := by
  have hend : extent .reference s scope origin left op right = 6 ↔
      reported s op (left.typeIn scope) (right.typeIn scope) = true := by
    rw [extent_eq_six_iff]
    simp only [narrowedScope, Oracle.reference, typeIn_placeholder, Expr.typeIn, reported,
      Bool.and_eq_true, Bool.not_eq_true', and_assoc]
  change (examine s scope origin left op right).result .reference = _
  rw [(examine_run .reference s scope origin left op right).2]
  simp only [hend]
  rfl

/-- Something is found at an operation exactly when it is reported. -/
theorem inspect_ne_nil_iff (s : Strictness) (scope : Scope) (origin : Origin)
    (left right : Expr Origin) (op : Operator) :
    (Rule.operands .reference s).inspect scope (.binary origin left op right) ≠ [] ↔
      reported s op (left.typeIn scope) (right.typeIn scope) = true := by
  rw [inspect_binary]
  by_cases h : reported s op (left.typeIn scope) (right.typeIn scope) = true
  · rw [if_pos h]
    exact iff_of_true (List.cons_ne_nil _ _) h
  · rw [if_neg h]
    exact iff_of_false (fun hne => hne rfl) h

section Reported

variable {s : Strictness} {op : Operator} {left right : Ty}

/-- An operation is reported when something is known about both operands and it fails on the
whole types and on what is checked of them, where something is checked of every known operand. -/
theorem reported_iff_of_isError
    (hleft : (leftPart s op left).isError = isUnknown (s.stripped left))
    (hright : (rightPart s op left right).isError = isUnknown (s.stripped right)) :
    reported s op left right = true ↔
      (isUnknown (s.stripped left) = false ∧ isUnknown (s.stripped right) = false) ∧
        op.result left right = .error ∧
          op.result (leftPart s op left) (rightPart s op left right) = .error := by
  rw [reported, hleft, hright]
  simp only [Bool.and_eq_true, Bool.not_eq_true', Ty.isError_iff]
  tauto

/-- An operation is reported when something is known about both operands and it fails on the
whole types and on what is checked of them. -/
theorem reported_iff (hl : left.Normal) (hr : right.Normal) :
    reported s op left right = true ↔
      (isUnknown (s.stripped left) = false ∧ isUnknown (s.stripped right) = false) ∧
        op.result left right = .error ∧
          op.result (leftPart s op left) (rightPart s op left right) = .error :=
  reported_iff_of_isError (isError_narrow hl) (isError_narrow hr)

/-- With all members of unions checked, an operation is reported when something is known about both
operands and it fails both with null and without the null that is not checked. -/
theorem reported_iff_of_unions (hunions : s.unions = true) :
    reported s op left right = true ↔
      (isUnknown (s.stripped left) = false ∧ isUnknown (s.stripped right) = false) ∧
        op.result left right = .error ∧
          op.result (s.stripped left) (s.stripped right) = .error := by
  rw [reported_iff_of_isError (isError_narrow_of_unions hunions) (isError_narrow_of_unions hunions)]
  apply and_congr_right
  rintro ⟨hleft, hright⟩
  rw [leftPart, rightPart, Strictness.narrow_of_unions hunions hleft,
    Strictness.narrow_of_unions hunions hright]

end Reported

/-- A scope with the variables `x` and `y` of given types. -/
def pairScope (x y : Ty) : Scope := (Scope.empty.assign "x" x .yes).assign "y" y .yes

/-- The variable `x` at the start of a text. -/
def pairLeft : Expr Origin := .var (.written ⟨0, 2⟩) "x"

/-- The variable `y` behind it. -/
def pairRight : Expr Origin := .var (.written ⟨3, 5⟩) "y"

/-- The operation on the two variables. -/
def pairExpr (op : Operator) : Expr Origin := .binary (.written ⟨0, 5⟩) pairLeft op pairRight

end OperatorLint.Operands
