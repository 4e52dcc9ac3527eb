import OperatorLint.Proofs.Combination
import OperatorLint.Proofs.Narrowing
import OperatorLint.Rule.Operands

/-!
# Operators with two readings

Addition reads two arrays as arrays and all else as numbers, the bitwise operators read two
strings as strings and all else as numbers. Such an operator succeeds on two types exactly when
all members of both have the one reading or all have the other; a pair of members only needs one
reading that both of them have. The two notions are compared here, on whole types and on
narrowed ones.
-/

namespace OperatorLint

open Operation
open Ty (members Normal)

/-- All members of the type have a property. -/
def Ty.Each (p : Ty → Bool) (t : Ty) : Prop := ∀ m ∈ t.members, p m = true

/-- A member of the type has a property. -/
def Ty.Has (p : Ty → Bool) (t : Ty) : Prop := ∃ m ∈ t.members, p m = true

instance (p : Ty → Bool) (t : Ty) : Decidable (t.Each p) :=
  inferInstanceAs (Decidable (∀ m ∈ t.members, p m = true))

instance (p : Ty → Bool) (t : Ty) : Decidable (t.Has p) :=
  inferInstanceAs (Decidable (∃ m ∈ t.members, p m = true))

/-- Every value of the type can become a number. -/
def Operation.isNumeric (t : Ty) : Bool := !t.toNumber.isError

/-- The operator succeeds on two types of one reading and on two types of numbers, and on nothing
else. -/
def Operator.Reads (op : Operator) (p : Ty → Bool) : Prop :=
  ∀ left right, op.result left right = .error ↔
    ¬ (left.Each p ∧ right.Each p) ∧ ¬ (left.Each isNumeric ∧ right.Each isNumeric)

namespace Ty

variable {p q : Ty → Bool} {t : Ty}

/-- A type in normal form whose members all have a property has a member with it. -/
theorem Each.has (h : t.Each p) (ht : Normal t) : t.Has p := by
  obtain ⟨m, hm⟩ := List.exists_mem_of_ne_nil _ ht.members_ne_nil
  exact ⟨m, hm, h m hm⟩

/-- A member of a type in normal form has a property alone as it has it in the type. -/
theorem each_of_mem {m : Ty} (ht : Normal t) (hm : m ∈ t.members) : m.Each p ↔ p m = true := by
  rw [Each, members_of_mem ht hm]
  exact List.forall_mem_singleton

end Ty

/-- A type becomes a number when all its members do. -/
theorem Operation.toNumber_eq_error_iff {t : Ty} : t.toNumber = .error ↔ ¬ t.Each isNumeric := by
  rw [Ty.toNumber_eq_error, Ty.Each]
  simp only [isNumeric, Bool.not_eq_true', ← Bool.not_eq_true, Ty.isError_iff]
  push Not
  rfl

namespace Operator

variable {op : Operator} {p : Ty → Bool} {left right : Ty}

/-- Addition has the reading of arrays. -/
theorem reads_plus (h : op.base = .compute .plus) : op.Reads isArray := by
  intro left right
  have hresult : op.result = plus := Operator.result_of_base h
  rw [hresult, plus_eq_error, toNumber_eq_error_iff, toNumber_eq_error_iff, List.all_eq_true,
    List.all_eq_true, ← not_and_or]
  rfl

/-- A bitwise operator has the reading of strings. -/
theorem reads_bitwise (h : op.category = .bitwise) : op.Reads isString := by
  intro left right
  have hcompute (c : Computation) (hc : c.category = .bitwise) :
      c.result left right = .error ↔ ¬ (left.Each isString ∧ right.Each isString) ∧
        ¬ (left.Each isNumeric ∧ right.Each isNumeric) := by
    rw [Computation.result_eq_error_of_bitwise hc, toNumber_eq_error_iff, toNumber_eq_error_iff,
      isString_iff, isString_iff, ← not_and_or]
    rfl
  cases op with
  | compute c => exact hcompute c h
  | assign c => exact hcompute c h
  | connect c => exact Category.noConfusion h
  | compare c => exact Category.noConfusion h

/-- An operator with two readings fails on every pair of members when no reading has a member on
both sides. -/
theorem Reads.hopeless_iff (h : op.Reads p) (hl : Normal left) (hr : Normal right) :
    op.Hopeless left right ↔
      ¬ (left.Has p ∧ right.Has p) ∧ ¬ (left.Has isNumeric ∧ right.Has isNumeric) := by
  have hpair {l r : Ty} (hlm : l ∈ left.members) (hrm : r ∈ right.members) :
      op.result l r = .error ↔
        ¬ (p l = true ∧ p r = true) ∧ ¬ (isNumeric l = true ∧ isNumeric r = true) := by
    rw [h l r, Ty.each_of_mem hl hlm, Ty.each_of_mem hl hlm, Ty.each_of_mem hr hrm,
      Ty.each_of_mem hr hrm]
  constructor
  · intro hall
    constructor
    · rintro ⟨⟨l, hlm, hlp⟩, r, hrm, hrp⟩
      exact ((hpair hlm hrm).mp (hall l hlm r hrm)).1 ⟨hlp, hrp⟩
    · rintro ⟨⟨l, hlm, hln⟩, r, hrm, hrn⟩
      exact ((hpair hlm hrm).mp (hall l hlm r hrm)).2 ⟨hln, hrn⟩
  · rintro ⟨hreading, hnumeric⟩ l hlm r hrm
    refine (hpair hlm hrm).mpr ⟨?_, ?_⟩
    · rintro ⟨hlp, hrp⟩
      exact hreading ⟨⟨l, hlm, hlp⟩, r, hrm, hrp⟩
    · rintro ⟨hln, hrn⟩
      exact hnumeric ⟨⟨l, hlm, hln⟩, r, hrm, hrn⟩

/-- What fails an operator with two readings on some members of two types fails it on the types. -/
theorem Reads.result_of_subset (h : op.Reads p) {l r : Ty} (hl : l.members ⊆ left.members)
    (hr : r.members ⊆ right.members) (herror : op.result l r = .error) :
    op.result left right = .error := by
  obtain ⟨hreading, hnumeric⟩ := (h l r).mp herror
  refine (h left right).mpr ⟨?_, ?_⟩
  · rintro ⟨hlp, hrp⟩
    exact hreading ⟨fun m hm => hlp m (hl hm), fun m hm => hrp m (hr hm)⟩
  · rintro ⟨hln, hrn⟩
    exact hnumeric ⟨fun m hm => hln m (hl hm), fun m hm => hrn m (hr hm)⟩

end Operator

namespace Strictness

variable {s : Strictness} {accepts q : Ty → Bool} {t : Ty}

/-- What is left to check of a known type has a property of accepted members throughout when some
member is accepted and all accepted members have it. -/
theorem each_narrow_iff (h : Normal t) (hunions : s.unions = false)
    (hknown : isUnknown (s.stripped t) = false)
    (hq : ∀ m ∈ (s.stripped t).members, q m = true → accepts m = true) :
    (s.narrow accepts t).Each q ↔
      (s.stripped t).Has accepts ∧ ∀ m ∈ (s.stripped t).members, accepts m = true → q m = true := by
  by_cases hm : (s.stripped t).Has accepts
  · rw [Ty.Each, members_narrow h hunions hknown hm]
    simp only [List.mem_filter, and_imp]
    exact (and_iff_right hm).symm
  · refine iff_of_false ?_ (fun hboth => hm hboth.1)
    intro heach
    obtain ⟨m, hmem, hqm⟩ := heach.has (normal_narrow h)
    have hmem := mem_of_mem_narrow h hknown hmem
    exact hm ⟨m, hmem, hq m hmem hqm⟩

/-- What is left to check of a known type has a member with a property of accepted members when
the type has one. -/
theorem has_narrow_iff (h : Normal t) (hunions : s.unions = false)
    (hknown : isUnknown (s.stripped t) = false)
    (hq : ∀ m ∈ (s.stripped t).members, q m = true → accepts m = true) :
    (s.narrow accepts t).Has q ↔ (s.stripped t).Has q := by
  constructor
  · rintro ⟨m, hm, hqm⟩
    exact ⟨m, mem_of_mem_narrow h hknown hm, hqm⟩
  · rintro ⟨m, hm, hqm⟩
    refine ⟨m, ?_, hqm⟩
    rw [members_narrow h hunions hknown ⟨m, hm, hq m hm hqm⟩]
    exact List.mem_filter.mpr ⟨hm, hq m hm hqm⟩

/-- What is left to check of a known type has a property of rejected members throughout when the
type has it. -/
theorem each_narrow_of_rejected (h : Normal t) (hunions : s.unions = false)
    (hknown : isUnknown (s.stripped t) = false)
    (hq : ∀ m ∈ (s.stripped t).members, q m = true → accepts m = false) :
    (s.narrow accepts t).Each q ↔ (s.stripped t).Each q := by
  by_cases hm : (s.stripped t).Has accepts
  · obtain ⟨m, hmem, hma⟩ := hm
    have hmembers := members_narrow h hunions hknown ⟨m, hmem, hma⟩
    have hrejected : ¬ q m = true := by
      intro hqm
      rw [hq m hmem hqm] at hma
      exact Bool.false_ne_true hma
    refine iff_of_false ?_ (fun heach => hrejected (heach m hmem))
    intro heach
    apply hrejected (heach m _)
    rw [hmembers]
    exact List.mem_filter.mpr ⟨hmem, hma⟩
  · rw [narrow_of_rejected h hknown]
    intro m hmem
    rw [Bool.eq_false_iff]
    exact fun hma => hm ⟨m, hmem, hma⟩

end Strictness

namespace Ty

variable {t m : Ty}

/-- A single type shares nothing with the strings exactly when it is no type of strings. -/
theorem covers_string_of_isSingle (hm : m.isSingle = true) :
    m.covers .string = .no ↔ isString m = false := by
  cases m with
  | kind k => cases k <;> decide
  | constant c =>
    cases c with
    | string text => exact iff_of_false Certainty.noConfusion Bool.noConfusion
    | _ => exact iff_of_true rfl rfl
  | array key item => exact iff_of_true rfl rfl
  | object name stringable => exact iff_of_true rfl rfl
  | _ => exact Bool.noConfusion hm

/-- The only single type that covers the strings is the type of all strings. -/
theorem eq_string_of_covers (hm : m.isSingle = true) (h : m.covers .string = .yes) :
    m = .string := by
  cases m with
  | kind k =>
    cases k with
    | string => rfl
    | _ => exact Certainty.noConfusion h
  | constant c => cases c <;> exact Certainty.noConfusion h
  | array key item => exact Certainty.noConfusion h
  | object name stringable => exact Certainty.noConfusion h
  | _ => exact Bool.noConfusion hm

/-- A type with single members has no string in common with the strings exactly when no member
is a type of strings. -/
theorem covers_string_eq_no (hsingle : ∀ m ∈ t.members, m.isSingle = true) :
    t.covers .string = .no ↔ ¬ t.Has isString := by
  have hmembers : t.covers .string = .no ↔ ∀ m ∈ t.members, m.covers .string = .no := by
    cases t with
    | union ts =>
      rw [covers_union_target Ty.noConfusion Ty.noConfusion rfl, Certainty.strongest_eq_no,
        List.forall_mem_map]
      rfl
    | _ => simp only [members, List.forall_mem_singleton]
  rw [hmembers, Has]
  push Not
  constructor
  · intro hall m hm
    rw [(covers_string_of_isSingle (hsingle m hm)).mp (hall m hm)]
    exact Bool.false_ne_true
  · intro hall m hm
    exact (covers_string_of_isSingle (hsingle m hm)).mpr (Bool.eq_false_iff.mpr (hall m hm))

/-- A type with single members covers the strings only when it has the type of all strings. -/
theorem string_mem_of_covers (hsingle : ∀ m ∈ t.members, m.isSingle = true)
    (h : t.covers .string = .yes) : .string ∈ t.members := by
  have hmember : ∃ m ∈ t.members, m.covers .string = .yes := by
    cases t with
    | union ts =>
      rw [covers_union_target Ty.noConfusion Ty.noConfusion rfl, Certainty.strongest_eq_yes,
        List.mem_map] at h
      exact h
    | _ => exact ⟨_, List.mem_singleton.mpr rfl, h⟩
  obtain ⟨m, hm, hcovers⟩ := hmember
  rw [← eq_string_of_covers (hsingle m hm) hcovers]
  exact hm

/-- Only strings without other strings beside them cover the strings, and these become numbers:
accepted operands of a bitwise operator are never bound to be read byte by byte. -/
theorem bytewise_ne_yes (h : Normal t) (hsingle : ∀ m ∈ t.members, m.isSingle = true)
    (hsorted : t.Has isString → ∀ m ∈ t.members, isString m = true ∨ isNumeric m = true) :
    t.bytewise ≠ .yes := by
  intro hyes
  obtain ⟨hcovers, hfails⟩ := Certainty.agree_eq_yes.mp hyes
  have hstring := string_mem_of_covers hsingle hcovers
  have herror : t.toNumber = .error := by
    cases herror : t.toNumber.isError with
    | true => exact isError_iff.mp herror
    | false =>
      rw [herror] at hfails
      exact Certainty.noConfusion hfails
  rw [toNumber_eq_error_iff] at herror
  apply herror
  intro m hm
  rcases hsorted ⟨.string, hstring, rfl⟩ m hm with hms | hmn
  · by_cases heq : m = .string
    · rw [heq]
      rfl
    · have hapart := h.apart_of_mem hstring hm (Ne.symm heq)
      rw [isString, hapart.1] at hms
      exact Bool.noConfusion hms
  · exact hmn

/-- The operand of a bitwise operator is known to be no string exactly when no member is a type of
strings and all become numbers. -/
theorem bytewise_eq_no (hsingle : ∀ m ∈ t.members, m.isSingle = true) :
    t.bytewise = .no ↔ ¬ t.Has isString ∧ t.Each isNumeric := by
  have hnumber : Certainty.ofBool t.toNumber.isError = .no ↔ t.Each isNumeric := by
    rw [← not_iff_not, ← toNumber_eq_error_iff, ← isError_iff]
    cases t.toNumber.isError <;> simp [Certainty.ofBool]
  rw [bytewise, Certainty.agree_eq_no, covers_string_eq_no hsingle, hnumber]

end Ty

end OperatorLint
