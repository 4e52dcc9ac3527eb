import OperatorLint.Proofs.Decision

/-!
# What is asked about an operation

Nothing needs to link the answers of a typing to one another: whatever they are, the check of an
operation puts a first part of its agenda, and only the question about the reserved variables is
put in a scope of its own. A finding costs the whole agenda, and its absence says that one of the
answers left no failure standing. With the reference typing and nothing left out of the operands
the answers are linked so closely that the first question and what is known of the operands decide
by themselves.
-/

namespace OperatorLint.Operands

open Strictness (isUnknown_eq_false_iff)

section Agenda

variable (oracle : Oracle) (s : Strictness) (scope : Scope) (origin : Origin)
  (left : Expr Origin) (op : Operator) (right : Expr Origin)

/-- The check of an operation ends with any of its first four questions, or with the last one. -/
theorem extent_mem : extent oracle s scope origin left op right ∈ [1, 2, 3, 4, 6] := by
  unfold extent
  repeat' split
  all_goals decide

/-- Of the questions on the agenda as many are put as the check extends to. -/
theorem length_questions_examine :
    ((examine s scope origin left op right).questions oracle).length =
      extent oracle s scope origin left op right := by
  have hextent := extent_mem oracle s scope origin left op right
  have hle : extent oracle s scope origin left op right ≤ 6 := by
    simp only [List.mem_cons, List.not_mem_nil, or_false] at hextent
    omega
  rw [(examine_run oracle s scope origin left op right).1, List.length_map, List.length_take]
  exact min_eq_left hle

/-- The questions put about an operation are the first ones of its agenda. -/
theorem questions_examine_agenda :
    ((examine s scope origin left op right).questions oracle).map Prod.fst <+:
      agenda oracle s scope origin left op right := by
  rw [(examine_run oracle s scope origin left op right).1, List.map_map]
  have hfst : (Prod.fst ∘ fun q : Question => (q, oracle q.scope q.expr)) = id := rfl
  rw [hfst, List.map_id]
  exact List.take_prefix _ _

end Agenda

/-- An operation is found only when it fails, as it stands and on the reserved variables, and
something is known about both operands without the null that is not checked. -/
theorem answers_of_extent {oracle : Oracle} {s : Strictness} {scope : Scope} {origin : Origin}
    {left : Expr Origin} {op : Operator} {right : Expr Origin}
    (h : extent oracle s scope origin left op right = 6) :
    oracle scope (.binary origin left op right) = .error ∧
      oracle (narrowedScope oracle s scope left op right) (placeholderExpr origin op) = .error ∧
        s.stripped (oracle scope left) ∉ [Ty.error, Ty.mixed, Ty.never] ∧
          s.stripped (oracle scope right) ∉ [Ty.error, Ty.mixed, Ty.never] := by
  obtain ⟨hwhole, hleft, hright, hnarrowed⟩ :=
    (extent_eq_six_iff oracle s scope origin left op right).mp h
  refine ⟨Ty.isError_iff.mp hwhole, Ty.isError_iff.mp hnarrowed, ?_, ?_⟩
  · exact Strictness.known_of_narrow hleft
  · exact Strictness.known_of_narrow hright

/-- With any typing an expression that is no operation is not asked about, and nothing is found at
it. At an operation the questions are a first part of the whole expression, its operands, the
operation on the reserved variables and the operands once more: one, two, three, four or all six.
Only the fourth has a scope of its own, in which the reserved variables are bound for certain to
what is checked of the operands. One text is found after all six questions and none otherwise; it
is found only if the whole and the operation on the reserved variables were answered by a failure
and the operands by types that are neither failures nor unknown nor empty, without the null that
is not checked. -/
theorem inquiry_agenda (oracle : Oracle) (s : Strictness) (scope : Scope) (e : Expr Origin) :
    let asked := (inquiry s scope e).questions oracle
    let found := (Rule.operands oracle s).inspect scope e
    match e with
    | .binary origin left op right =>
      let narrowed := narrowedScope oracle s scope left op right
      asked.map Prod.fst <+:
          [⟨scope, .binary origin left op right⟩, ⟨scope, left⟩, ⟨scope, right⟩,
            ⟨narrowed, placeholderExpr origin op⟩, ⟨scope, left⟩, ⟨scope, right⟩] ∧
        asked.length ∈ [1, 2, 3, 4, 6] ∧
        (∀ name, narrowed.find? name =
          if name = leftName then some ⟨leftName, leftPart s op (oracle scope left), .yes⟩
          else if name = rightName then
            some ⟨rightName, rightPart s op (oracle scope left) (oracle scope right), .yes⟩
          else scope.find? name) ∧
        found = (if asked.length = 6 then [finding op (oracle scope left) (oracle scope right)]
          else []) ∧
        (found ≠ [] →
          oracle scope (.binary origin left op right) = .error ∧
            oracle narrowed (placeholderExpr origin op) = .error ∧
              s.stripped (oracle scope left) ∉ [Ty.error, Ty.mixed, Ty.never] ∧
                s.stripped (oracle scope right) ∉ [Ty.error, Ty.mixed, Ty.never])
    | _ => asked = [] ∧ found = [] := by
  intro asked found
  cases e with
  | binary origin left op right =>
    dsimp only
    have hlength : asked.length = extent oracle s scope origin left op right :=
      length_questions_examine oracle s scope origin left op right
    have hfound : found = if asked.length = 6 then
        [finding op (oracle scope left) (oracle scope right)] else [] := by
      rw [hlength]
      exact (examine_run oracle s scope origin left op right).2
    refine ⟨questions_examine_agenda oracle s scope origin left op right, ?_,
      find?_placeholderScope scope _ _, hfound, ?_⟩
    · rw [hlength]
      exact extent_mem oracle s scope origin left op right
    · intro hne
      apply answers_of_extent
      rw [← hlength]
      by_contra hshort
      exact hne (hfound.trans (if_neg hshort))
  | _ => exact ⟨rfl, rfl⟩

/-- A typing with which every operation fails and all else is an integer or null. -/
def failingOperations : Oracle
  | _, .binary _ _ _ _ => .error
  | _, _ => .union [.int, .null]

/-- With a typing that fails every operation all six questions are put about a comparison, which
the reference typing never finds; what is known of its operands is the integer. -/
theorem inquiry_agenda_comparison :
    let e := pairExpr (.compare .smaller)
    let found := (Rule.operands failingOperations ⟨false, false⟩).inspect .empty e
    ((inquiry ⟨false, false⟩ .empty e).questions failingOperations).length = 6 ∧
      found = ["Binary operation \"<\" between int|null and int|null results in an error."] ∧
        Strictness.stripped ⟨false, false⟩ (failingOperations .empty pairLeft) ∉
          [Ty.error, Ty.mixed, Ty.never] ∧
        (Rule.operands .reference ⟨false, false⟩).inspect .empty e = [] := by
  intro e found
  have hfound :
      found = ["Binary operation \"<\" between int|null and int|null results in an error."] := by
    decide +kernel
  obtain ⟨_, _, _, _, hanswers⟩ := inquiry_agenda failingOperations ⟨false, false⟩ .empty e
  have hne : found ≠ [] := by
    rw [hfound]
    exact List.cons_ne_nil _ _
  exact ⟨rfl, hfound, (hanswers hne).2.2.1, rfl⟩

/-- With the reference typing and nothing left out of the operands, one text is found at an
operation exactly when it fails and neither operand is a failure, unknown or empty, and nothing is
found otherwise, whatever the scope. Nothing is taken out of the operands, so the second failure is
the first one. -/
theorem inspect_strictest (scope : Scope) (origin : Origin) (left : Expr Origin) (op : Operator)
    (right : Expr Origin) :
    let whole : Expr Origin := .binary origin left op right
    let found := (Rule.operands .reference ⟨true, true⟩).inspect scope whole
    (found = [finding op (left.typeIn scope) (right.typeIn scope)] ↔
        whole.typeIn scope = .error ∧
          left.typeIn scope ∉ [Ty.error, Ty.mixed, Ty.never] ∧
            right.typeIn scope ∉ [Ty.error, Ty.mixed, Ty.never]) ∧
      (found = [] ↔
        ¬ (whole.typeIn scope = .error ∧
          left.typeIn scope ∉ [Ty.error, Ty.mixed, Ty.never] ∧
            right.typeIn scope ∉ [Ty.error, Ty.mixed, Ty.never])) := by
  intro whole found
  have hreported : reported ⟨true, true⟩ op (left.typeIn scope) (right.typeIn scope) = true ↔
      whole.typeIn scope = .error ∧
        left.typeIn scope ∉ [Ty.error, Ty.mixed, Ty.never] ∧
          right.typeIn scope ∉ [Ty.error, Ty.mixed, Ty.never] := by
    rw [reported_iff_of_unions rfl, ← isUnknown_eq_false_iff, ← isUnknown_eq_false_iff]
    exact ⟨fun ⟨hknown, hwhole, _⟩ => ⟨hwhole, hknown⟩,
      fun ⟨hwhole, hknown⟩ => ⟨hknown, hwhole, hwhole⟩⟩
  have hfound : found ≠ [] ↔
      reported ⟨true, true⟩ op (left.typeIn scope) (right.typeIn scope) = true :=
    inspect_ne_nil_iff ⟨true, true⟩ scope origin left right op
  rw [← hreported, ← hfound, not_not]
  refine ⟨?_, Iff.rfl⟩
  constructor
  · intro hone
    rw [hone]
    exact List.cons_ne_nil _ _
  · intro hne
    have hdecided := inspect_binary ⟨true, true⟩ scope origin left right op
    rw [if_pos (hfound.mp hne)] at hdecided
    exact hdecided

end OperatorLint.Operands
