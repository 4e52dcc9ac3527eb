import OperatorLint.Proofs.Addresses
import OperatorLint.Proofs.Combination
import OperatorLint.Proofs.Decision

/-!
# How far a failure reaches

A part that fails makes the whole fail: through parentheses, array literals and every operator but
those that give a result whatever becomes of their operands. These shield what stands above them.
An operation is found only where both operands are known to be something, so of two findings one
inside the other there is always a shield between.
-/

namespace OperatorLint

open Operation

/-- The operator can give a result where an operand fails: it tells a truth value, compares, or
falls back on its other operand. -/
def Operator.shields : Operator → Bool
  | compute op | assign op => op = .coalesce
  | connect _ | compare _ => true

/-- No operator accepts an operand that fails. -/
theorem Category.accepts_error (category : Category) (c : Certainty) :
    category.accepts c .error = false := by
  cases category <;> cases c <;> rfl

/-- An operator that computes a value fails on a failing operand, unless it falls back on the other
one. Neither an array nor a string fails, so no second reading of the operands saves them. -/
theorem Computation.result_of_error {op : Computation} (h : op ≠ coalesce) {left right : Ty}
    (herror : left = .error ∨ right = .error) : op.result left right = .error := by
  have hnumber : left.toNumber = .error ∨ right.toNumber = .error :=
    herror.imp (congrArg Ty.toNumber) (congrArg Ty.toNumber)
  have hstring : ¬ (isString left = true ∧ isString right = true) := by
    rintro ⟨hl, hr⟩
    rcases herror with rfl | rfl
    · exact Bool.noConfusion hl
    · exact Bool.noConfusion hr
  have harray : ¬ (left.members.all isArray = true ∧ right.members.all isArray = true) := by
    rintro ⟨hl, hr⟩
    rcases herror with rfl | rfl
    · exact Bool.noConfusion hl
    · exact Bool.noConfusion hr
  have hreject : op.category.accepts .maybe left = false ∨
      op.category.accepts .maybe right = false := by
    rcases herror with rfl | rfl
    · exact Or.inl (op.category.accepts_error .maybe)
    · exact Or.inr (op.category.accepts_error .maybe)
  cases op with
  | coalesce => exact absurd rfl h
  | plus => exact plus_eq_error.mpr ⟨harray, hnumber⟩
  | bitwiseAnd | bitwiseOr | bitwiseXor =>
    exact (result_eq_error_of_bitwise rfl).mpr ⟨hstring, hnumber⟩
  | minus | mul | div | mod | pow | concat | shiftLeft | shiftRight =>
    exact result_of_rejected (by decide) hreject

/-- The operators that do not shield are those that fail on every failing operand. -/
theorem Operator.shields_eq_false_iff {op : Operator} :
    op.shields = false ↔
      ∀ left right, left = .error ∨ right = .error → op.result left right = .error := by
  constructor
  · intro h left right herror
    cases op with
    | compute op | assign op =>
      have hop : op ≠ .coalesce := by simpa [shields] using h
      exact Computation.result_of_error hop herror
    | connect op | compare op => exact Bool.noConfusion h
  · intro h
    have hint : op.result .error .int = .error := h .error .int (Or.inl rfl)
    cases op with
    | compute op | assign op =>
      have hop : op ≠ .coalesce := by
        rintro rfl
        exact Ty.noConfusion hint
      simpa [shields] using hop
    | connect op => exact Ty.noConfusion hint
    | compare op => cases op <;> exact Ty.noConfusion hint

namespace Expr

variable {α : Type} {scope : Scope}

/-- The expression is an operation that shields what stands above it. -/
def isShield : Expr α → Bool
  | binary _ _ op _ => op.shields
  | _ => false

/-- A shield is an operation. -/
theorem exists_of_isShield {e : Expr α} (h : e.isShield = true) :
    ∃ tag left op right, e = .binary tag left op right ∧ op.shields = true := by
  cases e with
  | binary tag left op right => exact ⟨tag, left, op, right, rfl, h⟩
  | _ => exact Bool.noConfusion h

/-- A direct part that fails makes the whole fail, unless the whole is a shield. -/
theorem typeIn_eq_error_of_child {e c : Expr α} (hc : c ∈ e.children)
    (hopen : e.isShield = false) (herror : c.typeIn scope = .error) :
    e.typeIn scope = .error := by
  cases e with
  | var | constant | null => exact absurd hc List.not_mem_nil
  | list tag items =>
    have hitem : .error ∈ items.map (typeIn scope) := List.mem_map.mpr ⟨c, hc, herror⟩
    have hjoin : Ty.join (items.map (typeIn scope)) = .error :=
      Ty.join_of_error (List.mem_flatMap.mpr ⟨.error, hitem, List.mem_singleton.mpr rfl⟩)
    obtain ⟨first, rest, hitems⟩ := List.exists_cons_of_ne_nil (List.ne_nil_of_mem hitem)
    rw [hitems] at hjoin
    rw [typeIn, typeInEach_eq_map, hitems, listType, if_pos (Ty.isError_iff.mpr hjoin)]
    exact List.cons_ne_nil first rest
  | paren tag inner =>
    rw [← List.mem_singleton.mp hc]
    exact herror
  | binary tag left op right =>
    rw [typeIn]
    apply Operator.shields_eq_false_iff.mp hopen
    rcases List.mem_pair.mp hc with rfl | rfl
    · exact Or.inl herror
    · exact Or.inr herror

/-- A node that fails makes the whole fail, unless a shield stands above it on the way there. -/
theorem typeIn_eq_error_of_at? {e n : Expr α} {a : Address} (hn : e.at? a = some n)
    (hopen : ∀ b m, b <+: a → b ≠ a → e.at? b = some m → m.isShield = false)
    (herror : n.typeIn scope = .error) : e.typeIn scope = .error := by
  induction a generalizing e with
  | nil =>
    cases hn
    exact herror
  | cons i a ih =>
    obtain ⟨c, hc, hcn⟩ := at?_cons_eq_some_iff.mp hn
    have hpart : c.typeIn scope = .error := by
      apply ih hcn
      intro b m hb hne hm
      apply hopen (i :: b) m
      · exact List.cons_prefix_cons.mpr ⟨rfl, hb⟩
      · exact fun heq => hne (List.cons_eq_cons.mp heq).2
      · exact at?_cons_eq_some_iff.mpr ⟨c, hc, hm⟩
    have hroot : e.isShield = false := hopen [] e List.nil_prefix (List.cons_ne_nil i a).symm rfl
    exact typeIn_eq_error_of_child (List.mem_of_getElem? hc) hroot hpart

end Expr

namespace Operands

variable {s : Strictness} {scope : Scope}

/-- Where something is found an operation fails, and neither of its operands does. -/
theorem types_of_inspect {e : Expr Origin}
    (h : (Rule.operands .reference s).inspect scope e ≠ []) :
    e.typeIn scope = .error ∧ ∀ c ∈ e.children, c.typeIn scope ≠ .error := by
  cases e with
  | binary origin left op right =>
    have hreported := (inspect_ne_nil_iff s scope origin left right op).mp h
    simp only [reported, Bool.and_eq_true, Bool.not_eq_true'] at hreported
    obtain ⟨⟨⟨hwhole, hleft⟩, hright⟩, _⟩ := hreported
    refine ⟨Ty.isError_iff.mp hwhole, fun c hc herror => ?_⟩
    rcases List.mem_pair.mp hc with rfl | rfl
    · rw [leftPart, herror, Strictness.narrow_error] at hleft
      exact Bool.noConfusion hleft
    · rw [rightPart, herror, Strictness.narrow_error] at hright
      exact Bool.noConfusion hright
  | _ => exact absurd rfl h

/-- When something is found at a node and at a node inside it, in one scope, then a comparison, a
connective or a falling back stands strictly between the two. -/
theorem exists_shield_between {e outer inner : Expr Origin} {a b : Address}
    (houter : e.at? a = some outer) (hinner : e.at? (a ++ b) = some inner) (hb : b ≠ [])
    (hfound : (Rule.operands .reference s).inspect scope outer ≠ [])
    (hfound' : (Rule.operands .reference s).inspect scope inner ≠ []) :
    ∃ c, c <+: b ∧ c ≠ [] ∧ c ≠ b ∧
      ∃ tag left op right, e.at? (a ++ c) = some (.binary tag left op right) ∧
        op.shields = true := by
  by_contra hnone
  obtain ⟨_, hknown⟩ := types_of_inspect hfound
  obtain ⟨hfails, _⟩ := types_of_inspect hfound'
  rw [Expr.at?_append, houter, Option.bind_some] at hinner
  obtain ⟨i, b, rfl⟩ := List.exists_cons_of_ne_nil hb
  obtain ⟨operand, hoperand, hway⟩ := Expr.at?_cons_eq_some_iff.mp hinner
  apply hknown operand (List.mem_of_getElem? hoperand)
  apply Expr.typeIn_eq_error_of_at? hway _ hfails
  intro c m hc hne hm
  rw [← Bool.not_eq_true]
  intro hshield
  obtain ⟨tag, left, op, right, rfl, hop⟩ := Expr.exists_of_isShield hshield
  apply hnone
  refine ⟨i :: c, List.cons_prefix_cons.mpr ⟨rfl, hc⟩, List.cons_ne_nil i c, ?_, tag, left, op,
    right, ?_, hop⟩
  · exact fun heq => hne (List.cons_eq_cons.mp heq).2
  · rw [Expr.at?_append, houter, Option.bind_some]
    exact Expr.at?_cons_eq_some_iff.mpr ⟨operand, hoperand, hm⟩

/-- The difference `'a' - 1`, which is taken from a text that is no number. -/
def innerDifference : Expr Origin :=
  .binary (.written ⟨2, 7⟩) (.constant (.written ⟨2, 5⟩) (.string "a")) (.compute .minus)
    (.constant (.written ⟨6, 7⟩) (.int 1))

/-- The difference `[1] - (('a' - 1) == $x)`, which is taken from an array. -/
def outerDifference : Expr Origin :=
  .binary (.written ⟨0, 10⟩)
    (.list (.written ⟨0, 1⟩) [.constant (.written ⟨0, 1⟩) (.int 1)]) (.compute .minus)
    (.paren (.written ⟨2, 10⟩) (.binary (.written ⟨2, 10⟩)
      (.paren (.written ⟨2, 7⟩) innerDifference) (.compare .equal) (.var (.written ⟨8, 10⟩) "x")))

/-- In `[1] - (('a' - 1) == $x)` both differences are found, and the comparison stands between
them. -/
theorem exists_shield_between_differences :
    let s : Strictness := ⟨false, false⟩
    let find := (Rule.operands .reference s).inspect Scope.empty
    outerDifference.at? ([] ++ [1, 0, 0, 0]) = some innerDifference ∧
      find outerDifference ≠ [] ∧ find innerDifference ≠ [] ∧
        ∃ c, c <+: [1, 0, 0, 0] ∧ c ≠ [] ∧ c ≠ [1, 0, 0, 0] ∧
          ∃ tag left op right,
            outerDifference.at? ([] ++ c) = some (.binary tag left op right) ∧
              op.shields = true := by
  intro s find
  have houter : outerDifference.at? [] = some outerDifference := rfl
  have hinner : outerDifference.at? ([] ++ [1, 0, 0, 0]) = some innerDifference := rfl
  have hfound : find outerDifference ≠ [] :=
    (inspect_ne_nil_iff s Scope.empty _ _ _ _).mpr (by decide)
  have hfound' : find innerDifference ≠ [] :=
    (inspect_ne_nil_iff s Scope.empty _ _ _ _).mpr (by decide)
  exact ⟨hinner, hfound, hfound',
    exists_shield_between houter hinner (List.cons_ne_nil _ _) hfound hfound'⟩

end Operands

end OperatorLint
