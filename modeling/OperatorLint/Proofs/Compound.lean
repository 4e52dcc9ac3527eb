import OperatorLint.Expr.Placement
import OperatorLint.Proofs.Retagging
import OperatorLint.Proofs.Wording

/-!
# Compound forms and assignments

A compound form on a variable is checked like the assignment of its plain operation to that
variable: it leaves the same scope, and it finds the same but for the token in the text about the
operation itself. The variable is bound inside the walk in one case and after the statement in the
other; in both it gets the type that the operation has where the statement starts, whatever the
value assigns on the way.
-/

namespace OperatorLint

namespace Operands

/-- An operator is checked like the one that a compound form applies. -/
theorem reported_base (s : Strictness) (op : Operator) (left right : Ty) :
    reported s op.base left right = reported s op left right := by
  cases op <;> rfl

/-- What is found, at no known place, at an operation that is written with a token, when its
operands have two types. -/
def verdict (settings : Settings) (op : Operator) (token : String) (left right : Ty) :
    List Diagnostic :=
  if settings.binaryOperations = true ∧ reported settings.strictness op left right = true then
    [Diagnostic.ofText .operands ("Binary operation \"" ++ token ++ "\" between " ++
      left.describe .values ++ " and " ++ right.describe .values ++ " results in an error.")]
  else []

/-- A compound form has the verdict on the operator that it applies. -/
theorem verdict_base (settings : Settings) (op : Operator) (token : String) (left right : Ty) :
    verdict settings op.base token left right = verdict settings op token left right := by
  simp only [verdict, reported_base]

end Operands

namespace Checker

open Operands (verdict)

variable {settings : Settings} {scope : Scope}

/-- What a checker for some settings finds at an operation is the verdict on the types that its
operands have there. -/
theorem report_binary (origin : Origin) (left right : Expr Origin) (op : Operator) :
    ((ofSettings settings).report ⟨scope, .binary origin left op right⟩).map
        Diagnostic.unplaced =
      verdict settings op op.token (left.typeIn scope) (right.typeIn scope) := by
  rw [report_ofSettings, Rule.report, Operands.inspect_binary, Operands.finding,
    Operands.format_operands, verdict]
  cases settings.binaryOperations with
  | false => rfl
  | true =>
    simp only [if_true, true_and]
    split
    · rfl
    · rfl

/-- Nothing is found at a variable. -/
theorem report_var (origin : Origin) (name : String) :
    (ofSettings settings).report ⟨scope, .var origin name⟩ = [] := by
  rw [report_ofSettings]
  split
  · rfl
  · rfl

/-- An operation on a variable is found to be what its right operand is, in the same scope, and
then what the verdict on it says. -/
theorem checkExpr_var_binary (origin varOrigin : Origin) (name : String) (op : Operator)
    (value : Expr Origin) :
    let whole : Expr Origin := .binary origin (.var varOrigin name) op value
    let inner := (ofSettings settings).checkExpr scope value
    ((ofSettings settings).checkExpr scope whole).1.map Diagnostic.unplaced =
        inner.1.map Diagnostic.unplaced ++
          verdict settings op op.token ((scope.typeOf? name).getD .error) (value.typeIn scope) ∧
      ((ofSettings settings).checkExpr scope whole).2 =
        rebind .reference scope inner.2 whole := by
  intro whole inner
  have hvar := @report_var settings scope varOrigin name
  have hroot := @report_binary settings scope origin (.var varOrigin name) value op
  refine ⟨?_, rfl⟩
  simp only [whole, inner, checkExpr, offers, List.flatMap_append, List.flatMap_singleton, hvar,
    List.nil_append, List.map_append, hroot]
  rfl

/-- A compound form on a variable and the assignment of its plain operation to that variable leave
the same scope: the one after the value, with the variable bound to the type that the operation has
at the start. Both find what is found in the value, in the same order, and then come to the same
verdict on the operation, of which the one shows the compound token and the other the plain one.
The value may assign variables itself, this one too, and may stand at different places. -/
theorem checkStatement_compound (settings : Settings) (scope : Scope) (op : Computation)
    (name : String) {value value' : Expr Origin} (hshape : value.shape = value'.shape)
    (tag origin varOrigin tag' targetOrigin origin' varOrigin' : Origin) :
    let c := ofSettings settings
    let compound := c.checkStatement scope
      (.expression tag (.binary origin (.var varOrigin name) (.assign op) value))
    let plain := c.checkStatement scope (.assign tag' targetOrigin name
      (.binary origin' (.var varOrigin' name) (.compute op) value'))
    let inner := (c.checkExpr scope value).1.map Diagnostic.unplaced
    let left := (scope.typeOf? name).getD .error
    let right := value.typeIn scope
    compound.2 = plain.2 ∧
      compound.2 = (c.checkExpr scope value).2.assign name (op.result left right) .yes ∧
      compound.1.map Diagnostic.unplaced =
        inner ++ verdict settings (.compute op) (op.token ++ "=") left right ∧
      plain.1.map Diagnostic.unplaced =
        inner ++ verdict settings (.compute op) op.token left right := by
  intro c compound plain inner left right
  obtain ⟨hfound, hscope⟩ := @checkExpr_of_shape scope settings value value' hshape
  have htype : value.typeIn scope = value'.typeIn scope := Expr.typeIn_of_shape hshape scope
  have hcompound := @checkExpr_var_binary settings scope origin varOrigin name (.assign op) value
  have hplain :=
    @checkExpr_var_binary settings scope origin' varOrigin' name (.compute op) value'
  have hafter : compound.2 =
      (c.checkExpr scope value).2.assign name (op.result left right) .yes := hcompound.2
  refine ⟨?_, hafter, ?_, ?_⟩
  · calc compound.2
        = (c.checkExpr scope value).2.assign name (op.result left right) .yes := hafter
      _ = (c.checkExpr scope value').2.assign name
            (op.result left (value'.typeIn scope)) .yes := by rw [hscope, ← htype]
      _ = plain.2 := rfl
  · calc compound.1.map Diagnostic.unplaced
        = inner ++ verdict settings (.assign op) (op.token ++ "=") left right := hcompound.1
      _ = inner ++ verdict settings (.compute op) (op.token ++ "=") left right := by
          rw [← Operands.verdict_base settings (.assign op), Operator.base]
  · calc plain.1.map Diagnostic.unplaced
        = (c.checkExpr scope value').1.map Diagnostic.unplaced ++
            verdict settings (.compute op) op.token left (value'.typeIn scope) := hplain.1
      _ = inner ++ verdict settings (.compute op) op.token left right := by
          rw [← hfound, ← htype]

/-- The shape of `[($x .= 'a') == 1]`. -/
def listWithAppend : Expr Unit :=
  .list () [.binary () (.paren () (.binary () (.var () "x") (.assign .concat)
    (.constant () (.string "a")))) (.compare .equal) (.constant () (.int 1))]

/-- For an array `$x` the statements `$x -= [($x .= 'a') == 1]` and `$x = $x - [($x .= 'a') == 1]`
leave the same scope, though the value assigns `$x` too, and find the same but for one token. -/
theorem checkStatement_compound_nested :
    let scope := Scope.empty.assign "x" (.array .mixed .mixed) .yes
    let value := (listWithAppend.place 3).1
    let value' := (listWithAppend.place 15).1
    let compound := (ofSettings .default).checkStatement scope
      (.expression (.written ⟨0, 11⟩) (.binary (.written ⟨0, 11⟩) (.var (.written ⟨0, 2⟩) "x")
        (.assign .minus) value))
    let plain := (ofSettings .default).checkStatement scope
      (.assign (.written ⟨12, 26⟩) (.written ⟨24, 26⟩) "x" (.binary (.written ⟨12, 23⟩)
        (.var (.written ⟨12, 14⟩) "x") (.compute .minus) value'))
    value.shape = value'.shape ∧ compound.2 = plain.2 ∧
      compound.1.map (fun d => d.unplaced.text) =
        ["Binary operation \".=\" between array and 'a' results in an error.",
          "Binary operation \"-=\" between array and array<int, bool> results in an error."] ∧
      plain.1.map (fun d => d.unplaced.text) =
        ["Binary operation \".=\" between array and 'a' results in an error.",
          "Binary operation \"-\" between array and array<int, bool> results in an error."] := by
  intro scope value value' compound plain
  have hshape : value.shape = value'.shape := rfl
  obtain ⟨hscope, _, hcompound, hplain⟩ := checkStatement_compound .default scope .minus "x" hshape
    (.written ⟨0, 11⟩) (.written ⟨0, 11⟩) (.written ⟨0, 2⟩) (.written ⟨12, 26⟩)
    (.written ⟨24, 26⟩) (.written ⟨12, 23⟩) (.written ⟨12, 14⟩)
  have htexts := congrArg (List.map Diagnostic.text) hcompound
  have htexts' := congrArg (List.map Diagnostic.text) hplain
  rw [List.map_map] at htexts htexts'
  exact ⟨hshape, hscope, htexts.trans (by decide +kernel), htexts'.trans (by decide +kernel)⟩

end Checker

end OperatorLint
