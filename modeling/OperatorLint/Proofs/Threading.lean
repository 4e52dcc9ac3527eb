import Mathlib.Data.List.Flatten
import OperatorLint.Analysis
import OperatorLint.Proofs.Preservation

/-!
# Scopes along a run

A rebinding binds the type of an operation and an assignment the type of a value, so a run that
starts in normal form stays there, and every rule is shown every expression in such a scope. The
scopes of a run do not depend on the rules: two checkers that differ in their rules only meet the
same offers, and their findings compare offer by offer.
-/

namespace OperatorLint

/-- What a list of bindings holds once a binding is put in. -/
theorem Binding.mem_of_mem_putIn {b c : Binding} {cs : List Binding} (h : c ∈ b.putIn cs) :
    c = b ∨ c ∈ cs := by
  induction cs with
  | nil => exact Or.inl (List.mem_singleton.mp h)
  | cons d cs ih =>
    unfold putIn at h
    split at h
    · exact (List.mem_cons.mp h).imp_right (List.mem_cons_of_mem d)
    · rcases List.mem_cons.mp h with rfl | h
      · exact Or.inr List.mem_cons_self
      · exact (ih h).imp_right (List.mem_cons_of_mem d)

/-- Assigning a type in normal form keeps a scope in normal form. -/
theorem Scope.Normal.assign {s : Scope} (h : s.Normal) (name : String) {t : Ty} (ht : t.Normal)
    (c : Certainty) : (s.assign name t c).Normal := by
  intro b hb
  rcases Binding.mem_of_mem_putIn hb with rfl | hb
  · exact ht
  · exact h b hb

namespace Checker

/-- A rebinding keeps a scope in normal form. -/
theorem normal_rebind {before after : Scope} (hbefore : before.Normal) (hafter : after.Normal)
    (e : Expr Origin) : (rebind .reference before after e).Normal := by
  unfold rebind
  split
  · exact hafter.assign _ (Expr.normal_typeIn hbefore _) .yes
  · exact hafter

mutual
/-- An expression is offered in scopes in normal form and leaves one. -/
theorem normal_offers {scope : Scope} (h : scope.Normal) (e : Expr Origin) :
    (∀ o ∈ (offers .reference scope e).1, o.scope.Normal) ∧
      (offers .reference scope e).2.Normal := by
  cases e with
  | var | constant | null => simpa [offers] using h
  | list tag items =>
    obtain ⟨hitems, hafter⟩ := normal_offersEach h items
    simp only [offers, List.forall_mem_append, List.forall_mem_singleton]
    exact ⟨⟨hitems, h⟩, hafter⟩
  | paren tag inner =>
    obtain ⟨hinner, hafter⟩ := normal_offers h inner
    simp only [offers, List.forall_mem_append, List.forall_mem_singleton]
    exact ⟨⟨hinner, h⟩, hafter⟩
  | binary tag left op right =>
    obtain ⟨hleft, hmiddle⟩ := normal_offers h left
    obtain ⟨hright, hafter⟩ := normal_offers hmiddle right
    simp only [offers, List.forall_mem_append, List.forall_mem_singleton]
    exact ⟨⟨⟨hleft, hright⟩, h⟩, normal_rebind h hafter _⟩

/-- A list of expressions is offered in scopes in normal form and leaves one. -/
theorem normal_offersEach {scope : Scope} (h : scope.Normal) (es : List (Expr Origin)) :
    (∀ o ∈ (offersEach .reference scope es).1, o.scope.Normal) ∧
      (offersEach .reference scope es).2.Normal := by
  cases es with
  | nil => simpa [offersEach] using h
  | cons e es =>
    obtain ⟨hfirst, hmiddle⟩ := normal_offers h e
    obtain ⟨hrest, hafter⟩ := normal_offersEach hmiddle es
    simp only [offersEach, List.forall_mem_append]
    exact ⟨⟨hfirst, hrest⟩, hafter⟩
end

/-- A checker for some settings reports at an offer what the check of operands finds, when binary
operations are checked at all. -/
theorem report_ofSettings (settings : Settings) (o : Offer) :
    (ofSettings settings).report o =
      if settings.binaryOperations = true then
        (Rule.operands .reference settings.strictness).report o.scope o.expr
      else [] := by
  unfold report ofSettings
  split
  · exact List.append_nil _
  · rfl

variable {c c' : Checker} {scope : Scope}

/-- A statement leaves a scope in normal form. -/
theorem normal_checkStatement (horacle : c.oracle = .reference) (h : scope.Normal)
    (s : Statement Origin) : (c.checkStatement scope s).2.Normal := by
  cases s with
  | expression tag value =>
    simp only [checkStatement, checkExpr, horacle]
    exact (normal_offers h value).2
  | assign tag targetTag target value =>
    simp only [checkStatement, checkExpr, horacle]
    exact (normal_offers h value).2.assign target (value.normal_typeIn h) .yes

/-- The scope after a statement does not depend on the rules. -/
theorem checkStatement_scope (horacle : c.oracle = c'.oracle) (s : Statement Origin) :
    (c.checkStatement scope s).2 = (c'.checkStatement scope s).2 := by
  cases s with
  | expression tag value => simp only [checkStatement, checkExpr, horacle]
  | assign tag targetTag target value => simp only [checkStatement, checkExpr, horacle]

/-- The findings in a list of statements are those in the first and, from the scope that it
leaves, those in the others. -/
theorem checkAll_cons (s : Statement Origin) (ss : List (Statement Origin)) :
    c.checkAll scope (s :: ss) =
      (c.checkStatement scope s).1 ++ c.checkAll (c.checkStatement scope s).2 ss := rfl

/-- A checker whose rules find less at every offer finds less in a statement. -/
theorem checkStatement_sublist (horacle : c.oracle = .reference)
    (horacle' : c'.oracle = .reference) (hscope : scope.Normal)
    (h : ∀ o : Offer, o.scope.Normal → (c.report o).Sublist (c'.report o))
    (s : Statement Origin) :
    (c.checkStatement scope s).1.Sublist (c'.checkStatement scope s).1 := by
  have hoffers (e : Expr Origin) : (c.checkExpr scope e).1.Sublist (c'.checkExpr scope e).1 := by
    simp only [checkExpr, horacle, horacle']
    apply List.Sublist.flatMap_right
    intro o ho
    exact h o ((normal_offers hscope e).1 o ho)
  cases s with
  | expression tag value => exact hoffers value
  | assign tag targetTag target value => exact hoffers value

/-- A checker whose rules find less at every offer finds less in a list of statements, and in the
same order. -/
theorem checkAll_sublist (horacle : c.oracle = .reference) (horacle' : c'.oracle = .reference)
    (hscope : scope.Normal)
    (h : ∀ o : Offer, o.scope.Normal → (c.report o).Sublist (c'.report o))
    (ss : List (Statement Origin)) : (c.checkAll scope ss).Sublist (c'.checkAll scope ss) := by
  induction ss generalizing scope with
  | nil => exact List.Sublist.refl _
  | cons s ss ih =>
    have hfirst := checkStatement_sublist horacle horacle' hscope h s
    have hrest := ih (normal_checkStatement horacle hscope s)
    rw [checkAll_cons, checkAll_cons,
      ← checkStatement_scope (horacle.trans horacle'.symm) s]
    exact hfirst.append hrest

end Checker

end OperatorLint
