import OperatorLint.Expr.Placement
import OperatorLint.Proofs.Decision
import OperatorLint.Proofs.Threading

/-!
# Nothing leaves the normal forms

From types and scopes in normal form a run makes only such types and scopes. The joins, the
conversions, the operations and the narrowing of operands keep to them one by one; so do the types
of expressions and the scopes in which rules are applied, whatever statements a run goes through.
The check of operands, which makes a scope of its own, also asks only for such types.
-/

namespace OperatorLint

namespace Inquiry

variable {α : Type}

/-- The answers to the questions of an inquiry are those of the oracle. -/
theorem answer_of_mem_questions {oracle : Oracle} {m : Inquiry α} {question : Question}
    {answer : Ty} (h : (question, answer) ∈ m.questions oracle) :
    answer = oracle question.scope question.expr := by
  induction m with
  | done => exact absurd h List.not_mem_nil
  | ask first next ih =>
    rcases List.mem_cons.mp h with heq | hrest
    · cases heq
      rfl
    · exact ih _ hrest

/-- With the reference typing the inquiry asks about scopes in normal form only. -/
def AsksNormal (m : Inquiry α) : Prop := ∀ q ∈ m.questions .reference, q.1.scope.Normal

/-- In a scope in normal form such an inquiry gets answers in normal form. -/
theorem AsksNormal.answers {m : Inquiry α} (h : AsksNormal m) :
    ∀ q ∈ m.questions .reference, q.2.Normal := by
  intro q hq
  rw [answer_of_mem_questions hq]
  exact q.1.expr.normal_typeIn (h q hq)

end Inquiry

namespace Strictness

variable {scope : Scope}

/-- In a scope in normal form the part of an operand that is checked is in normal form. -/
theorem normal_typeToCheck (s : Strictness) (accepts : Ty → Bool) (h : scope.Normal)
    (e : Expr Origin) : ((s.typeToCheck accepts scope e).result .reference).Normal :=
  normal_narrow (e.normal_typeIn h)

end Strictness

namespace Operands

variable {scope : Scope}

/-- With the reserved variables bound to types in normal form a scope stays in normal form. -/
theorem normal_placeholderScope (h : scope.Normal) {left right : Ty} (hl : left.Normal)
    (hr : right.Normal) : (placeholderScope scope left right).Normal :=
  (h.assign leftName hl .yes).assign rightName hr .yes

/-- The check of an operation asks about scopes in normal form only: its own and, with what is
checked of the operands bound as well, that of the operation on the reserved variables. -/
theorem asksNormal_examine (s : Strictness) (h : scope.Normal) (origin : Origin)
    (left : Expr Origin) (op : Operator) (right : Expr Origin) :
    (examine s scope origin left op right).AsksNormal := by
  have hnarrowed : (narrowedScope .reference s scope left op right).Normal :=
    normal_placeholderScope h (Strictness.normal_narrow (left.normal_typeIn h))
      (Strictness.normal_narrow (right.normal_typeIn h))
  have hagenda : ∀ q ∈ agenda .reference s scope origin left op right, q.scope.Normal := by
    simp only [agenda, List.forall_mem_cons, List.not_mem_nil, false_implies, implies_true,
      and_true]
    exact ⟨h, h, h, hnarrowed, h, h⟩
  intro q hq
  rw [(examine_run .reference s scope origin left op right).1, List.mem_map] at hq
  obtain ⟨question, hquestion, rfl⟩ := hq
  exact hagenda question (List.mem_of_mem_take hquestion)

/-- The check of operands asks about scopes in normal form only. -/
theorem asksNormal_inquiry (s : Strictness) (h : scope.Normal) (e : Expr Origin) :
    (inquiry s scope e).AsksNormal := by
  cases e with
  | binary origin left op right => exact asksNormal_examine s h origin left op right
  | _ => exact List.forall_mem_nil _

end Operands

namespace Checker

variable {scope : Scope}

/-- Every statement of a run leaves a scope in normal form. -/
theorem normal_steps {c : Checker} (horacle : c.oracle = .reference) (h : scope.Normal)
    (ss : List (Statement Origin)) : ∀ step ∈ c.steps scope ss, step.2.Normal := by
  induction ss generalizing scope with
  | nil => exact List.forall_mem_nil _
  | cons s ss ih =>
    have hfirst := normal_checkStatement horacle h s
    exact List.forall_mem_cons.mpr ⟨hfirst, ih hfirst⟩

/-- From types and a scope in normal form only such types and scopes are made. Types are joined,
rid of null and converted, operators are applied to them and parts of them are checked, whatever
is accepted; expressions are typed and shown to rules, the check of operands asks its questions,
and lists of statements are checked by any rules. -/
theorem normal_computed {ts : List Ty} (hts : ∀ t ∈ ts, t.Normal) {scope : Scope}
    (hscope : scope.Normal) :
    (Ty.join ts).Normal ∧
      (∀ t ∈ ts, t.withoutNull.Normal ∧ t.toNumber.Normal ∧ t.toText.Normal) ∧
      (∀ (op : Operator), ∀ left ∈ ts, ∀ right ∈ ts, (op.result left right).Normal) ∧
      (∀ (s : Strictness) (accepts : Ty → Bool),
        (∀ t ∈ ts, (s.narrow accepts t).Normal) ∧
          ∀ e, ((s.typeToCheck accepts scope e).result .reference).Normal) ∧
      (∀ e : Expr Origin, (e.typeIn scope).Normal ∧
        (∀ o ∈ (offers .reference scope e).1, o.scope.Normal ∧ (o.expr.typeIn o.scope).Normal) ∧
          ∀ s, ∀ q ∈ (Operands.inquiry s scope e).questions .reference,
            q.1.scope.Normal ∧ q.2.Normal) ∧
      ∀ (rules : List Rule) (ss : List (Statement Origin)),
        ∀ step ∈ (Checker.mk .reference rules).steps scope ss, step.2.Normal := by
  refine ⟨Ty.normal_join hts, ?_, ?_, ?_, ?_, ?_⟩
  · intro t ht
    exact ⟨Ty.normal_withoutNull (hts t ht), t.normal_toNumber, t.normal_toText⟩
  · intro op left hleft right hright
    exact op.normal_result (hts left hleft) (hts right hright)
  · intro s accepts
    refine ⟨?_, s.normal_typeToCheck accepts hscope⟩
    intro t ht
    exact Strictness.normal_narrow (hts t ht)
  · intro e
    refine ⟨e.normal_typeIn hscope, ?_, ?_⟩
    · intro o ho
      have hoffer := (normal_offers hscope e).1 o ho
      exact ⟨hoffer, o.expr.normal_typeIn hoffer⟩
    · intro s q hq
      have hasks := Operands.asksNormal_inquiry s hscope e
      exact ⟨hasks q hq, hasks.answers q hq⟩
  · intro rules ss
    exact normal_steps rfl hscope ss

/-- The types `true|null` and `false|int`. -/
def truthsApart : List Ty :=
  [.union [.constant (.bool true), .null], .union [.constant (.bool false), .int]]

/-- The statements `$y = [$x, $x += 1]` and `$x ??= $y`. -/
def listThenFallback : List (Statement Origin) :=
  Statement.placeAll
    [.assign () () "y" (.list () [.var () "x",
      .binary () (.var () "x") (.assign .plus) (.constant () (.int 1))]),
    .expression () (.binary () (.var () "x") (.assign .coalesce) (.var () "y"))]

/-- The join of `true|null` and `false|int` is `bool|null|int`, which is in normal form; and where
`$x` is `int|null` the scopes after `$y = [$x, $x += 1]` and `$x ??= $y` are, though the last one
holds a union with an array that holds a union. -/
theorem normal_computed_truths :
    let scope := Scope.empty.assign "x" (.union [.int, .null]) .yes
    let steps := (ofSettings .default).steps scope listThenFallback
    (∀ t ∈ truthsApart, t.Normal) ∧ scope.Normal ∧
      Ty.join truthsApart = .union [.bool, .null, .int] ∧
      Ty.Normal (.union [.bool, .null, .int]) ∧
      steps.map (fun step => (step.2.typeOf? "x").map (Ty.describe .values)) =
        [some "int", some "int|array<int, int|null>"] ∧
      ∀ step ∈ steps, step.2.Normal := by
  intro scope steps
  have hts : ∀ t ∈ truthsApart, t.Normal := by decide
  have hscope : scope.Normal := by decide
  have hvalue : Ty.join truthsApart = .union [.bool, .null, .int] := rfl
  obtain ⟨hjoin, _, _, _, _, hsteps⟩ := normal_computed hts hscope
  rw [hvalue] at hjoin
  exact ⟨hts, hscope, hvalue, hjoin, by decide +kernel,
    hsteps (ofSettings .default).rules listThenFallback⟩

end Checker

end OperatorLint
