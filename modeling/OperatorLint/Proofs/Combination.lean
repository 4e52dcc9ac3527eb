import OperatorLint.Narrowing
import OperatorLint.Proofs.Failure

/-!
# Operations on types and on their members

An operation on two unions looks at both as a whole, and its failure need not be the failure of
any one pair of members. For the operators that only convert their operands a failure with
convertible operands is one of every pair, and an operand that does not convert fails with
everything. In the other direction a single failing pair fails the whole operation, unless the
operator rejects constants for their value.
-/

namespace OperatorLint

open Operation
open Ty (members Normal)

/-- No member of the left type can be combined with a member of the right one. -/
def Operator.Hopeless (op : Operator) (left right : Ty) : Prop :=
  ∀ l ∈ left.members, ∀ r ∈ right.members, op.result l r = .error

instance (op : Operator) (left right : Ty) : Decidable (op.Hopeless left right) :=
  decidable_of_iff (∀ l ∈ left.members, ∀ r ∈ right.members, (op.result l r).isError = true)
    (by simp only [Operator.Hopeless, Ty.isError_iff])

/-- An operator gives the results of its base. -/
theorem Operator.result_of_base {op : Operator} {c : Computation} (h : op.base = .compute c) :
    op.result = c.result := by
  rw [← op.result_base, h]
  rfl

/-- An operator reads its operands as its base does. -/
theorem Operator.category_of_base {op : Operator} {c : Computation} (h : op.base = .compute c) :
    op.category = c.category := by
  rw [← op.category_base, h]
  rfl

namespace Operation

/-- A type is one of strings exactly when all its members are. -/
theorem isString_iff {t : Ty} : isString t = true ↔ ∀ m ∈ t.members, isString m = true := by
  cases t with
  | union ts =>
    simp only [isString, Ty.includes, Certainty.isYes_iff, members,
      @Ty.covers_union_source .string Ty.noConfusion Ty.noConfusion Ty.noConfusion,
      Certainty.agreeAll_eq_yes, List.forall_mem_map]
  | _ => simp [members]

/-- A member of a type in normal form is its own only member. -/
theorem members_of_mem {t m : Ty} (h : Normal t) (hm : m ∈ t.members) : m.members = [m] := by
  have hunion := h.isUnion_of_mem hm
  cases m with
  | union ts => exact Bool.noConfusion hunion
  | _ => rfl

end Operation

namespace Computation

/-- The operators that convert both operands and have no second reading of them. -/
def converting : List Computation := [concat, minus, mul, pow, div, mod, shiftLeft, shiftRight]

/-- The operators that fail on some constants for their value. -/
def selective : List Computation := [div, mod, shiftLeft, shiftRight]

/-- A converting operator is concatenation, arithmetic, or an operator on whole numbers that
rejects zero only where it has no result on it. -/
theorem converting_cases {op : Computation} (h : op ∈ converting) :
    op = concat ∨
      op.category = .default ∧ ((∃ a, op.result = arithmetic a) ∨
        ∃ i, op.result = integral i ∧ (i.rejectsZero = true → ∀ a, i.fold? a 0 = none)) := by
  have hmod (a : Int64) : Integral.mod.fold? a 0 = none := by simp [Integral.mod]
  cases op with
  | concat => exact Or.inl rfl
  | minus => exact Or.inr ⟨rfl, Or.inl ⟨_, rfl⟩⟩
  | mul => exact Or.inr ⟨rfl, Or.inl ⟨_, rfl⟩⟩
  | pow => exact Or.inr ⟨rfl, Or.inl ⟨_, rfl⟩⟩
  | div => exact Or.inr ⟨rfl, Or.inl ⟨_, rfl⟩⟩
  | mod => exact Or.inr ⟨rfl, Or.inr ⟨_, rfl, fun _ => hmod⟩⟩
  | shiftLeft => exact Or.inr ⟨rfl, Or.inr ⟨_, rfl, fun hrejects => Bool.noConfusion hrejects⟩⟩
  | shiftRight => exact Or.inr ⟨rfl, Or.inr ⟨_, rfl, fun hrejects => Bool.noConfusion hrejects⟩⟩
  | _ => exact absurd h (by decide)

/-- The operators with two readings of numbers and strings fail in neither for the values of
constants. -/
theorem bitwise_cases {op : Computation} (h : op.category = .bitwise) :
    ∃ i, op.result = bitwise i ∧ (∀ a b, i.fold? a b ≠ none) ∧ i.rejectsZero = false := by
  cases op with
  | bitwiseAnd => exact ⟨_, rfl, fun _ _ => Option.some_ne_none _, rfl⟩
  | bitwiseOr => exact ⟨_, rfl, fun _ _ => Option.some_ne_none _, rfl⟩
  | bitwiseXor => exact ⟨_, rfl, fun _ _ => Option.some_ne_none _, rfl⟩
  | _ => exact Category.noConfusion h

/-- A bitwise operator fails on operands that are not both strings and not both numbers. -/
theorem result_eq_error_of_bitwise {op : Computation} (h : op.category = .bitwise)
    {left right : Ty} :
    op.result left right = .error ↔ ¬ (isString left = true ∧ isString right = true) ∧
      (left.toNumber = .error ∨ right.toNumber = .error) := by
  obtain ⟨i, hresult, hfold, hzero⟩ := bitwise_cases h
  rw [hresult]
  exact bitwise_eq_error hfold hzero

end Computation

/-- Away from the bitwise operators an operand is accepted exactly when all its members are. -/
theorem Category.accepts_iff {category : Category} (h : category ≠ .bitwise) (c : Certainty)
    {t : Ty} : category.accepts c t = true ↔ ∀ m ∈ t.members, category.accepts c m = true := by
  cases category with
  | concatenation =>
    simp only [accepts, Bool.not_eq_true', ← Bool.not_eq_true, Ty.isError_iff]
    rw [Ty.toText_eq_error]
    push Not
    rfl
  | bitwise => exact absurd rfl h
  | default =>
    simp only [accepts, Bool.not_eq_true', ← Bool.not_eq_true, Ty.isError_iff]
    rw [Ty.toNumber_eq_error]
    push Not
    rfl

namespace Computation

variable {op : Computation} {b c : Certainty} {left right : Ty}

/-- A converting operator reads no operand byte by byte. -/
theorem category_of_converting (h : op ∈ converting) : op.category ≠ .bitwise := by
  rcases converting_cases h with rfl | ⟨hcategory, _⟩
  · exact Category.noConfusion
  · rw [hcategory]
    exact Category.noConfusion

/-- A converting operator fails on an operand that it does not accept. -/
theorem result_of_rejected (h : op ∈ converting)
    (hreject : op.category.accepts b left = false ∨ op.category.accepts c right = false) :
    op.result left right = .error := by
  rcases converting_cases h with rfl | ⟨hcategory, ⟨a, hresult⟩ | ⟨i, hresult, _⟩⟩
  · simp only [category, Category.accepts, Bool.not_eq_false', Ty.isError_iff] at hreject
    exact concat_eq_error.mpr hreject
  · simp only [hcategory, Category.accepts, Bool.not_eq_false', Ty.isError_iff] at hreject
    rw [hresult]
    exact arithmetic_of_error hreject
  · simp only [hcategory, Category.accepts, Bool.not_eq_false', Ty.isError_iff] at hreject
    rw [hresult]
    exact integral_of_error hreject

/-- A converting operator that fails on accepted operands fails on every pair of members. -/
theorem result_of_members (h : op ∈ converting) (hleft : Normal left) (hright : Normal right)
    (hl : op.category.accepts b left = true) (hr : op.category.accepts c right = true)
    (herror : op.result left right = .error) :
    ∀ l ∈ left.members, ∀ r ∈ right.members, op.result l r = .error := by
  rcases converting_cases h with rfl | ⟨hcategory, ⟨a, hresult⟩ | ⟨i, hresult, hfold⟩⟩
  · simp only [category, Category.accepts, Bool.not_eq_true', ← Bool.not_eq_true,
      Ty.isError_iff] at hl hr
    exact absurd (concat_eq_error.mp herror) (not_or.mpr ⟨hl, hr⟩)
  · simp only [hcategory, Category.accepts, Bool.not_eq_true', ← Bool.not_eq_true,
      Ty.isError_iff] at hl hr
    rw [hresult] at herror ⊢
    exact fun l _ => arithmetic_of_members hright hl hr herror l
  · simp only [hcategory, Category.accepts, Bool.not_eq_true', ← Bool.not_eq_true,
      Ty.isError_iff] at hl hr
    rw [hresult] at herror ⊢
    exact integral_of_members hfold hleft hright hl hr herror

/-- An operator that does not select by value is addition, concatenation, falling back, a bitwise
operator, or arithmetic that takes zero. -/
theorem cases_of_not_selective (h : op ∉ selective) :
    op = plus ∨ op = concat ∨ op = coalesce ∨ op.category = .bitwise ∨
      ∃ a, op.result = arithmetic a ∧ a.rejectsZero = false := by
  cases op with
  | minus | mul | pow => exact Or.inr (Or.inr (Or.inr (Or.inr ⟨_, rfl, rfl⟩)))
  | div | mod | shiftLeft | shiftRight => simp [selective] at h
  | _ => simp [category]

/-- An operator that does not select by value fails on two types as soon as it fails on a pair of
their members. -/
theorem result_of_pair (h : op ∉ selective) (hleft : Normal left) (hright : Normal right)
    {l r : Ty} (hl : l ∈ left.members) (hr : r ∈ right.members)
    (herror : op.result l r = .error) : op.result left right = .error := by
  have hnumber (hlr : l.toNumber = .error ∨ r.toNumber = .error) :
      left.toNumber = .error ∨ right.toNumber = .error :=
    hlr.imp (fun hn => Ty.toNumber_eq_error.mpr ⟨l, hl, hn⟩)
      (fun hn => Ty.toNumber_eq_error.mpr ⟨r, hr, hn⟩)
  rcases cases_of_not_selective h with rfl | rfl | rfl | hbitwise | ⟨a, hresult, hzero⟩
  · obtain ⟨harrays, hlr⟩ := plus_eq_error.mp herror
    refine plus_eq_error.mpr ⟨?_, hnumber hlr⟩
    rintro ⟨hall, hall'⟩
    apply harrays
    rw [members_of_mem hleft hl, members_of_mem hright hr]
    simp [List.all_eq_true.mp hall l hl, List.all_eq_true.mp hall' r hr]
  · refine concat_eq_error.mpr ((concat_eq_error.mp herror).imp ?_ ?_)
    · exact fun ht => Ty.toText_eq_error.mpr ⟨l, hl, ht⟩
    · exact fun ht => Ty.toText_eq_error.mpr ⟨r, hr, ht⟩
  · have hmember := (coalesce_eq_error (hleft.of_mem hl) (hright.of_mem hr)).mp herror
    exact (coalesce_eq_error hleft hright).mpr (hright.error_mem.mp (hmember ▸ hr))
  · obtain ⟨hstring, hlr⟩ := (result_eq_error_of_bitwise hbitwise).mp herror
    refine (result_eq_error_of_bitwise hbitwise).mpr ⟨?_, hnumber hlr⟩
    rintro ⟨hall, hall'⟩
    exact hstring ⟨isString_iff.mp hall l hl, isString_iff.mp hall' r hr⟩
  · rw [hresult] at herror ⊢
    rw [arithmetic_eq_error] at herror ⊢
    rcases herror with hn | hn | ⟨hrejects, _⟩
    · exact (hnumber (Or.inl hn)).imp_right Or.inl
    · exact (hnumber (Or.inr hn)).imp_right Or.inl
    · rw [hzero] at hrejects
      exact Bool.noConfusion hrejects

end Computation

/-- An operator with a base that does not select by value fails on two types as soon as it fails on
a pair of their members. -/
theorem Operator.result_of_pair {op : Operator} (h : op.base ∉ Computation.selective.map compute)
    {left right : Ty} (hleft : Normal left) (hright : Normal right) {l r : Ty}
    (hl : l ∈ left.members) (hr : r ∈ right.members) (herror : op.result l r = .error) :
    op.result left right = .error := by
  have hselective {c : Computation} (hbase : op.base = compute c) : c ∉ Computation.selective := by
    intro hc
    rw [hbase] at h
    exact h (List.mem_map_of_mem hc)
  cases op with
  | compute c => exact Computation.result_of_pair (hselective rfl) hleft hright hl hr herror
  | assign c => exact Computation.result_of_pair (hselective rfl) hleft hright hl hr herror
  | connect c => exact Ty.noConfusion herror
  | compare c => cases c <;> exact Ty.noConfusion herror

end OperatorLint
