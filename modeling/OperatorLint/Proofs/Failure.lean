import Mathlib.Tactic.ByContra
import Mathlib.Tactic.Tauto
import OperatorLint.Operation.Result
import OperatorLint.Proofs.Conversion

/-!
# When an operation fails

Each operator fails under a condition on its converted operands: one of them fails to convert,
the divisor is zero, or the number of places to shift by is negative. The conditions are stated
here once for every operator; what narrowing, reporting and typing say about failures is read off
from them.
-/

namespace OperatorLint.Operation

open Ty (members Normal)

/-- Arithmetic on numbers fails on a failing operand and on a rejected zero. -/
theorem onNumbers_eq_error {op : Arithmetic} {left right : Ty} :
    onNumbers op left right = .error ↔
      left = .error ∨ right = .error ∨ op.rejectsZero = true ∧ isZero right = true := by
  unfold onNumbers
  by_cases h : (left.isError || right.isError || (op.rejectsZero && isZero right)) = true
  · rw [if_pos h]
    simp only [Bool.or_eq_true, Bool.and_eq_true, Ty.isError_iff, or_assoc] at h
    exact iff_of_true rfl h
  · rw [if_neg h]
    simp only [Bool.or_eq_true, Bool.and_eq_true, Ty.isError_iff, or_assoc] at h
    refine iff_of_false ?_ h
    split
    · exact Ty.noConfusion
    · exact Ty.noConfusion
    · unfold numberKind
      split
      · exact Ty.noConfusion
      · split
        · exact Ty.noConfusion
        · rw [Ty.number_eq]
          exact Ty.noConfusion

/-- Arithmetic fails when an operand is no number or the divisor is zero. -/
theorem arithmetic_eq_error {op : Arithmetic} {left right : Ty} :
    arithmetic op left right = .error ↔ left.toNumber = .error ∨ right.toNumber = .error ∨
      op.rejectsZero = true ∧ isZero right.toNumber = true := onNumbers_eq_error

/-- Cutting doubles makes no failure. -/
theorem cutToInt_eq_error {t : Ty} : cutToInt t = .error ↔ t = .error := by
  cases t with
  | constant c => cases c <;> simp [cutToInt]
  | _ => simp [cutToInt]

/-- Only a constant is cut to a constant. -/
theorem eq_constant_of_cutToInt {t : Ty} {value : Int64}
    (h : cutToInt t = .constant (.int value)) : ∃ c, t = .constant c := by
  cases t with
  | constant c => exact ⟨c, rfl⟩
  | _ => exact Ty.noConfusion h

/-- Types alike to one constant are cut to the same type. -/
theorem cutToInt_of_alike {c : Constant} {t : Ty} (h : Ty.Alike c t) :
    cutToInt t = cutToInt (.constant c) := by
  obtain ⟨d, rfl, rfl | hsame⟩ := h
  · rfl
  · exact (cutToInt_of_same hsame).symm

/-- A constant zero stays one under another sign. -/
theorem isZero_of_alike {c : Constant} {t : Ty} (h : Ty.Alike c t)
    (hc : isZero (.constant c) = true) : isZero t = true := by
  obtain ⟨d, rfl, rfl | hsame⟩ := h
  · exact hc
  · cases c with
    | int a =>
      cases d <;> simp only [Constant.same, Bool.false_eq_true, beq_iff_eq] at hsame
      exact hsame ▸ hc
    | float x =>
      cases d <;> simp only [Constant.same, Bool.false_eq_true] at hsame
      have hback := Constant.same_symm (a := .float x) (b := .float _) hsame
      exact Constant.same_trans hback (c := .float 0.0) hc
    | bool _ => exact Bool.noConfusion hc
    | string _ => exact Bool.noConfusion hc

/-- Operators on integers fail on a failing operand, on two constants without a result, and on a
rejected zero behind a left operand of unknown value. -/
theorem onIntegers_eq_error {op : Integral} {left right : Ty} :
    onIntegers op left right = .error ↔ left = .error ∨ right = .error ∨
      ∃ b, right = .constant (.int b) ∧
        ((∃ a, left = .constant (.int a) ∧ op.fold? a b = none) ∨
          (∀ a, left ≠ .constant (.int a)) ∧ op.rejectsZero = true ∧ b = 0) := by
  unfold onIntegers
  by_cases herror : (left.isError || right.isError) = true
  · rw [if_pos herror]
    rw [Bool.or_eq_true, Ty.isError_iff, Ty.isError_iff] at herror
    exact iff_of_true rfl (by tauto)
  · rw [if_neg herror]
    rw [Bool.or_eq_true, Ty.isError_iff, Ty.isError_iff, not_or] at herror
    simp only [herror.1, herror.2, false_or]
    split
    · next a b =>
      cases hfold : op.fold? a b with
      | some value => simp [hfold]
      | none => simp [hfold]
    · next hnot =>
      constructor
      · intro h
        have hzero : (op.rejectsZero && isIntZero right) = true := by
          by_contra hno
          rw [if_neg hno] at h
          exact Ty.noConfusion h
        obtain ⟨hrejects, hright⟩ := Bool.and_eq_true_iff.mp hzero
        cases right with
        | constant c =>
          cases c with
          | int b =>
            refine ⟨b, rfl, Or.inr ⟨?_, hrejects, by simpa [isIntZero] using hright⟩⟩
            intro a ha
            exact hnot a b ha rfl
          | _ => exact Bool.noConfusion hright
        | _ => exact Bool.noConfusion hright
      · rintro ⟨b, rfl, ⟨a, rfl, _⟩ | ⟨_, hrejects, rfl⟩⟩
        · exact absurd rfl (hnot a b rfl)
        · rw [hrejects]
          rfl

/-- Operators on whole numbers fail when an operand is no number, when two constants have no
result, and on a rejected zero behind a left operand of unknown value. -/
theorem integral_eq_error {op : Integral} {left right : Ty} :
    integral op left right = .error ↔ left.toNumber = .error ∨ right.toNumber = .error ∨
      ∃ b, cutToInt right.toNumber = .constant (.int b) ∧
        ((∃ a, cutToInt left.toNumber = .constant (.int a) ∧ op.fold? a b = none) ∨
          (∀ a, cutToInt left.toNumber ≠ .constant (.int a)) ∧
            op.rejectsZero = true ∧ b = 0) := by
  rw [integral, onIntegers_eq_error, cutToInt_eq_error, cutToInt_eq_error]

/-- Concatenation fails when an operand is no string. -/
theorem concat_eq_error {left right : Ty} :
    concat left right = .error ↔ left.toText = .error ∨ right.toText = .error := by
  unfold concat concatTexts
  split
  · next hl hr => simp [hl, hr]
  · by_cases herror : (left.toText.isError || right.toText.isError) = true
    · rw [if_pos herror]
      rw [Bool.or_eq_true, Ty.isError_iff, Ty.isError_iff] at herror
      exact iff_of_true rfl herror
    · rw [if_neg herror]
      rw [Bool.or_eq_true, Ty.isError_iff, Ty.isError_iff] at herror
      exact iff_of_false Ty.noConfusion herror

/-- A bitwise operator whose constants always fold fails on operands that are not both strings
and not both numbers. -/
theorem bitwise_eq_error {op : Integral} (hfold : ∀ a b, op.fold? a b ≠ none)
    (hzero : op.rejectsZero = false) {left right : Ty} :
    bitwise op left right = .error ↔ ¬ (isString left = true ∧ isString right = true) ∧
      (left.toNumber = .error ∨ right.toNumber = .error) := by
  unfold bitwise
  by_cases hstring : (isString left && isString right) = true
  · rw [if_pos hstring]
    rw [Bool.and_eq_true_iff] at hstring
    exact iff_of_false Ty.noConfusion (fun h => h.1 hstring)
  · rw [if_neg hstring, integral_eq_error]
    rw [Bool.and_eq_true_iff] at hstring
    constructor
    · rintro (hl | hr | ⟨b, _, ⟨a, _, hnone⟩ | ⟨_, hrejects, _⟩⟩)
      · exact ⟨hstring, Or.inl hl⟩
      · exact ⟨hstring, Or.inr hr⟩
      · exact absurd hnone (hfold a b)
      · rw [hzero] at hrejects
        exact Bool.noConfusion hrejects
    · rintro ⟨_, hl | hr⟩
      · exact Or.inl hl
      · exact Or.inr (Or.inl hr)

/-- The type is an array type. -/
def isArray : Ty → Bool
  | .array _ _ => true
  | _ => false

/-- Array types are those that have a key and an item. -/
theorem isSome_arrayParts? (t : Ty) : (arrayParts? t).isSome = isArray t := by
  cases t <;> rfl

/-- The parts of all members are there exactly when every member is an array type. -/
theorem allArrays?_eq (t : Ty) : allArrays? t =
    if t.members.all isArray then some (t.members.filterMap arrayParts?) else none := by
  simp only [allArrays?, isSome_arrayParts?]

/-- Addition of operands that are both made of arrays merges all of them. -/
theorem plus_of_arrays {left right : Ty}
    (h : left.members.all isArray = true ∧ right.members.all isArray = true) :
    plus left right =
      mergeArrays (left.members.filterMap arrayParts? ++ right.members.filterMap arrayParts?) := by
  rw [plus, allArrays?_eq, allArrays?_eq, if_pos h.1, if_pos h.2]

/-- Addition with an operand that is not made of arrays is arithmetic. -/
theorem plus_of_not_arrays {left right : Ty}
    (h : ¬ (left.members.all isArray = true ∧ right.members.all isArray = true)) :
    plus left right = arithmetic .plus left right := by
  rw [plus, allArrays?_eq, allArrays?_eq]
  by_cases hleft : left.members.all isArray = true
  · rw [if_pos hleft, if_neg fun hright => h ⟨hleft, hright⟩]
  · rw [if_neg hleft]

/-- Addition fails on operands that are not both made of arrays and not both numbers. -/
theorem plus_eq_error {left right : Ty} :
    plus left right = .error ↔
      ¬ (left.members.all isArray = true ∧ right.members.all isArray = true) ∧
        (left.toNumber = .error ∨ right.toNumber = .error) := by
  by_cases harrays : left.members.all isArray = true ∧ right.members.all isArray = true
  · rw [plus_of_arrays harrays]
    exact iff_of_false Ty.noConfusion fun h => h.1 harrays
  · rw [plus_of_not_arrays harrays, arithmetic_eq_error, and_iff_right harrays]
    simp [Arithmetic.plus]

/-- Falling back fails exactly when what is fallen back on does. -/
theorem coalesce_eq_error {left right : Ty} (hl : Normal left) (hr : Normal right) :
    coalesce left right = .error ↔ right = .error := by
  unfold coalesce
  split
  · rfl
  · next hleft =>
    have hnormal : ∀ t ∈ [left.withoutNull, right], Normal t := by
      intro t ht
      rcases List.mem_pair.mp ht with rfl | rfl
      · exact Ty.normal_withoutNull hl
      · exact hr
    have hkeep : left.withoutNull ≠ .error := by
      rw [Ne, Ty.withoutNull_eq_error hl, ← Ty.isError_iff]
      exact hleft
    rw [Ty.join_eq_error hnormal, List.mem_pair, or_iff_right hkeep.symm]
    exact eq_comm

/-- Only a constant is zero. -/
theorem eq_constant_of_isZero {t : Ty} (h : isZero t = true) : ∃ c, t = .constant c := by
  cases t with
  | constant c => exact ⟨c, rfl⟩
  | _ => exact Bool.noConfusion h

/-- Arithmetic that fails on numbers fails on every member of the right operand. -/
theorem arithmetic_of_members {op : Arithmetic} {left right : Ty} (hright : Normal right)
    (hl : left.toNumber ≠ .error) (hr : right.toNumber ≠ .error)
    (h : arithmetic op left right = .error) (l : Ty) :
    ∀ r ∈ right.members, arithmetic op l r = .error := by
  intro r hrm
  rcases arithmetic_eq_error.mp h with he | he | ⟨hrejects, hzero⟩
  · exact absurd he hl
  · exact absurd he hr
  · obtain ⟨c, hc⟩ := eq_constant_of_isZero hzero
    rw [hc] at hzero
    have hmember := isZero_of_alike (Ty.alike_of_toNumber hright hc r hrm) hzero
    exact arithmetic_eq_error.mpr (Or.inr (Or.inr ⟨hrejects, hmember⟩))

/-- An operator on whole numbers that fails on numbers fails on every pair of members. -/
theorem integral_of_members {op : Integral}
    (hfold : op.rejectsZero = true → ∀ a, op.fold? a 0 = none) {left right : Ty}
    (hleft : Normal left) (hright : Normal right) (hl : left.toNumber ≠ .error)
    (hr : right.toNumber ≠ .error) (h : integral op left right = .error) :
    ∀ l ∈ left.members, ∀ r ∈ right.members, integral op l r = .error := by
  intro l hlm r hrm
  rw [integral_eq_error]
  rcases integral_eq_error.mp h with he | he | ⟨b, hb, hcase⟩
  · exact absurd he hl
  · exact absurd he hr
  · obtain ⟨c, hc⟩ := eq_constant_of_cutToInt hb
    have hrb : cutToInt r.toNumber = .constant (.int b) := by
      rw [cutToInt_of_alike (Ty.alike_of_toNumber hright hc r hrm), ← hc, hb]
    refine Or.inr (Or.inr ⟨b, hrb, ?_⟩)
    rcases hcase with ⟨a, ha, hnone⟩ | ⟨_, hrejects, rfl⟩
    · obtain ⟨d, hd⟩ := eq_constant_of_cutToInt ha
      have hla : cutToInt l.toNumber = .constant (.int a) := by
        rw [cutToInt_of_alike (Ty.alike_of_toNumber hleft hd l hlm), ← hd, ha]
      exact Or.inl ⟨a, hla, hnone⟩
    · by_cases hconst : ∃ a, cutToInt l.toNumber = .constant (.int a)
      · obtain ⟨a, ha⟩ := hconst
        exact Or.inl ⟨a, ha, hfold hrejects a⟩
      · exact Or.inr ⟨fun a ha => hconst ⟨a, ha⟩, hrejects, rfl⟩

end OperatorLint.Operation
