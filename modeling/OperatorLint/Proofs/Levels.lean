import OperatorLint.Proofs.Threading
import OperatorLint.Proofs.Widening

/-!
# Levels

A level adds to what the level below it finds. The levels reach their full strictness in two
steps, first checking all members of unions and only then keeping null, so that every step is one
that loses no finding at an expression; and as all levels meet the same offers, none is lost in a
list of statements.
-/

namespace OperatorLint

namespace Settings

variable {l l' : Nat}

/-- A higher level is at least as strict, and keeps more null only where it checks all members of
unions. -/
theorem strictness_forLevel_mono (h : l ≤ l') :
    ((forLevel l).strictness.unions = true → (forLevel l').strictness.unions = true) ∧
      ((forLevel l).strictness.nullables = true → (forLevel l').strictness.nullables = true) ∧
        ((forLevel l').strictness.unions = true ∨
          (forLevel l).strictness.nullables = (forLevel l').strictness.nullables) := by
  have horder : unionTypesLevel ≤ nullablesLevel := by decide
  simp only [strictness, forLevel, decide_eq_true_eq, decide_eq_decide]
  omega

/-- A higher level checks binary operations when a lower one does. -/
theorem binaryOperations_forLevel_mono (h : l ≤ l')
    (hl : (forLevel l).binaryOperations = true) : (forLevel l').binaryOperations = true := by
  simp only [forLevel, decide_eq_true_eq] at hl ⊢
  omega

end Settings

namespace Operands

/-- At a higher level the check finds at an expression what it finds at a lower one. -/
theorem inspect_sublist_of_level_le {l l' : Nat} (h : l ≤ l') {scope : Scope}
    (hscope : scope.Normal) (e : Expr Origin) :
    ((Rule.operands .reference (Settings.forLevel l).strictness).inspect scope e).Sublist
      ((Rule.operands .reference (Settings.forLevel l').strictness).inspect scope e) := by
  cases e with
  | binary origin left op right =>
    rw [inspect_binary, inspect_binary]
    split
    · next hreported =>
      obtain ⟨hunions, hnullables, hkept⟩ := Settings.strictness_forLevel_mono h
      have hhigher := reported_mono hunions hnullables hkept (left.normal_typeIn hscope)
        (right.normal_typeIn hscope) hreported
      rw [if_pos hhigher]
    · exact List.nil_sublist _
  | _ => exact List.Sublist.refl _

end Operands

namespace Checker

/-- A checker for a level reports at an offer what the check of operands finds, from the level on
from which binary operations are checked. -/
theorem report_forLevel (l : Nat) (o : Offer) :
    (ofSettings (.forLevel l)).report o =
      if (Settings.forLevel l).binaryOperations = true then
        (Rule.operands .reference (Settings.forLevel l).strictness).report o.scope o.expr
      else [] :=
  report_ofSettings (.forLevel l) o

/-- At a higher level everything is found that is found at a lower one, in the same order. -/
theorem checkAll_sublist_of_level_le {scope : Scope} (hscope : scope.Normal) {l l' : Nat}
    (h : l ≤ l') (ss : List (Statement Origin)) :
    ((ofSettings (.forLevel l)).checkAll scope ss).Sublist
      ((ofSettings (.forLevel l')).checkAll scope ss) := by
  refine checkAll_sublist rfl rfl hscope ?_ ss
  intro o ho
  rw [report_forLevel, report_forLevel]
  split
  · next hl =>
    rw [if_pos (Settings.binaryOperations_forLevel_mono h hl)]
    exact (Operands.inspect_sublist_of_level_le h ho o.expr).map _
  · exact List.nil_sublist _

/-- The concatenation of a string or an array and an integer is found at the level of unions, that
of a list and an integer at every level that checks binary operations. -/
theorem checkAll_sublist_strictest :
    let scope := Operands.pairScope (.union [.string, .array .mixed .mixed]) .int
    let statements : List (Statement Origin) :=
      [.expression (.written ⟨0, 5⟩) (Operands.pairExpr (.compute .concat)),
        .expression (.written ⟨6, 11⟩)
          (.binary (.written ⟨6, 11⟩) (.list (.written ⟨6, 8⟩) []) (.assign .concat)
            (.var (.written ⟨9, 11⟩) "y"))]
    scope.Normal ∧ 5 ≤ 8 ∧
      (((ofSettings (.forLevel 5)).checkAll scope statements).length = 1 ∧
        ((ofSettings (.forLevel 8)).checkAll scope statements).length = 2) ∧
        ((ofSettings (.forLevel 5)).checkAll scope statements).Sublist
          ((ofSettings (.forLevel 8)).checkAll scope statements) := by
  intro scope statements
  have hscope : scope.Normal := by decide
  have hle : 5 ≤ 8 := by decide
  exact ⟨hscope, hle, ⟨by decide +kernel, by decide +kernel⟩,
    checkAll_sublist_of_level_le hscope hle statements⟩

end Checker

end OperatorLint
