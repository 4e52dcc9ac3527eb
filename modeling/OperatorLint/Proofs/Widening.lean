import OperatorLint.Proofs.Ambiguity

/-!
# What a stricter check finds

What fails on the checked parts of two operands fails on the operands without null: a converting
operator is only ever narrowed away from members that it rejects, and such a member already fails
the wider operation. Hence nothing is lost when all members of unions are checked, and nothing
when null is kept as well. Keeping null alone can lose findings, as null is itself an operand that
works.
-/

namespace OperatorLint

open Ty (Normal)

/-- An operator converts its operands, adds, works on bits, falls back, connects or compares. -/
theorem Operator.base_cases (op : Operator) :
    op.base ∈ Computation.converting.map compute ∨ op.base = compute .plus ∨
      op.category = .bitwise ∨ op.base = compute .coalesce ∨
        (∃ c, op = connect c) ∨ ∃ c, op = compare c := by
  cases op with
  | compute c => cases c <;> simp [base, category, Computation.category, Computation.converting]
  | assign c => cases c <;> simp [base, category, Computation.category, Computation.converting]
  | connect c => simp
  | compare c => simp

namespace Operands

open Strictness (isUnknown)

variable {s s' : Strictness} {op : Operator} {left right : Ty}

/-- With one reading of operands, either all of an operand is checked or the operand is not
accepted as a whole. -/
theorem narrow_eq_or_rejected {category : Category} (hcategory : category ≠ .bitwise)
    (c : Certainty) {t : Ty} (h : Normal t) (hknown : isUnknown (s.stripped t) = false) :
    s.narrow (category.accepts c) t = s.stripped t ∨
      category.accepts c (s.stripped t) = false := by
  cases haccepts : category.accepts c (s.stripped t) with
  | false => exact Or.inr rfl
  | true =>
    have hall := (Category.accepts_iff hcategory c).mp haccepts
    exact Or.inl (Strictness.narrow_of_accepted h hknown hall)

/-- A conversion that fails on what is checked fails on the operands without null. -/
theorem result_stripped_of_converting (hop : op.base ∈ Computation.converting.map .compute)
    (hl : Normal left) (hr : Normal right) (hleft : isUnknown (s.stripped left) = false)
    (hright : isUnknown (s.stripped right) = false) {b c : Certainty}
    (h : op.result (s.narrow (op.category.accepts b) left)
      (s.narrow (op.category.accepts c) right) = .error) :
    op.result (s.stripped left) (s.stripped right) = .error := by
  obtain ⟨conversion, hc, hbase⟩ := List.mem_map.mp hop
  have hnot : conversion.category ≠ .bitwise := Computation.category_of_converting hc
  rw [Operator.category_of_base hbase.symm, Operator.result_of_base hbase.symm] at h
  rw [Operator.result_of_base hbase.symm]
  rcases narrow_eq_or_rejected hnot b hl hleft with hkeptLeft | hreject
  · rcases narrow_eq_or_rejected hnot c hr hright with hkeptRight | hreject
    · rw [hkeptLeft, hkeptRight] at h
      exact h
    · exact Computation.result_of_rejected (b := b) hc (Or.inr hreject)
  · exact Computation.result_of_rejected (c := c) hc (Or.inl hreject)

/-- An operation with two readings that fails on what is checked fails on the operands without
null. -/
theorem result_stripped_of_reads {p : Ty → Bool} (hreads : op.Reads p) (hl : Normal left)
    (hr : Normal right) (hleft : isUnknown (s.stripped left) = false)
    (hright : isUnknown (s.stripped right) = false) {accepts accepts' : Ty → Bool}
    (h : op.result (s.narrow accepts left) (s.narrow accepts' right) = .error) :
    op.result (s.stripped left) (s.stripped right) = .error := by
  have hleftPart : (s.narrow accepts left).members ⊆ (s.stripped left).members := fun _ hm =>
    Strictness.mem_of_mem_narrow hl hleft hm
  have hrightPart : (s.narrow accepts' right).members ⊆ (s.stripped right).members := fun _ hm =>
    Strictness.mem_of_mem_narrow hr hright hm
  exact hreads.result_of_subset hleftPart hrightPart h

/-- Every operation that fails on what is checked fails on the operands without null. Falling back
fails only on a failing right operand, of which nothing is checked. -/
theorem result_stripped (hl : Normal left) (hr : Normal right)
    (hleft : isUnknown (s.stripped left) = false)
    (hright : isUnknown (s.stripped right) = false)
    (h : op.result (leftPart s op left) (rightPart s op left right) = .error) :
    op.result (s.stripped left) (s.stripped right) = .error := by
  rcases op.base_cases with hop | hop | hop | hop | ⟨c, rfl⟩ | ⟨c, rfl⟩
  · exact result_stripped_of_converting hop hl hr hleft hright h
  · exact result_stripped_of_reads (Operator.reads_plus hop) hl hr hleft hright h
  · exact result_stripped_of_reads (Operator.reads_bitwise hop) hl hr hleft hright h
  · have hnormal : Normal (rightPart s op left right) := Strictness.normal_narrow hr
    rw [Operator.result_of_base hop] at h
    have hpart := (Operation.coalesce_eq_error (Strictness.normal_narrow hl) hnormal).mp h
    have hknown : (rightPart s op left right).isError = isUnknown (s.stripped right) :=
      Strictness.isError_narrow hr
    rw [hpart, hright] at hknown
    exact Bool.noConfusion hknown
  · exact Ty.noConfusion h
  · cases c <;> exact Ty.noConfusion h

/-- What is reported under some strictness is reported when all members of unions are checked. -/
theorem reported_of_unions (hl : Normal left) (hr : Normal right)
    (h : reported s op left right = true) :
    reported ⟨s.nullables, true⟩ op left right = true := by
  obtain ⟨hknown, hwhole, hparts⟩ := (reported_iff hl hr).mp h
  have hstripped := result_stripped hl hr hknown.1 hknown.2 hparts
  exact (reported_iff_of_unions rfl).mpr ⟨hknown, hwhole, hstripped⟩

/-- A type is known when it is known without null. -/
theorem isUnknown_of_stripped {t : Ty} (h : isUnknown (s.stripped t) = false) :
    isUnknown t = false := by
  cases hunknown : isUnknown t with
  | false => rfl
  | true =>
    rw [Strictness.stripped_of_isUnknown hunknown, hunknown] at h
    exact h

/-- What is reported under some strictness is reported when nothing is left out. -/
theorem reported_of_all (hl : Normal left) (hr : Normal right)
    (h : reported s op left right = true) : reported ⟨true, true⟩ op left right = true := by
  obtain ⟨⟨hleft, hright⟩, hwhole, _⟩ := (reported_iff hl hr).mp h
  exact (reported_iff_of_unions rfl).mpr
    ⟨⟨isUnknown_of_stripped hleft, isUnknown_of_stripped hright⟩, hwhole, hwhole⟩

/-- Raising the strictness loses no finding, if null is only kept in addition where all members of
unions are checked. -/
theorem reported_mono (hunions : s.unions = true → s'.unions = true)
    (hnullables : s.nullables = true → s'.nullables = true)
    (hkept : s'.unions = true ∨ s.nullables = s'.nullables) (hl : Normal left) (hr : Normal right)
    (h : reported s op left right = true) : reported s' op left right = true := by
  obtain ⟨nullables', unions'⟩ := s'
  cases unions' with
  | true =>
    cases nullables' with
    | true => exact reported_of_all hl hr h
    | false =>
      have hn : s.nullables = false := by simpa using hnullables
      rw [← hn]
      exact reported_of_unions hl hr h
  | false =>
    have hu : s.unions = false := by simpa using hunions
    have hn : s.nullables = nullables' := by simpa using hkept
    rw [← hu, ← hn]
    exact h

/-- Keeping null without checking all members of unions loses a finding: null can be subtracted
from, an array cannot. -/
example : reported ⟨false, false⟩ (.compute .minus) (.union [.array .mixed .mixed, .null]) .int ∧
    ¬ reported ⟨true, false⟩ (.compute .minus) (.union [.array .mixed .mixed, .null]) .int := by
  decide

end Operands

end OperatorLint
