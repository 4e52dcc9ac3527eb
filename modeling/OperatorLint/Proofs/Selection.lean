import OperatorLint.Proofs.Narrowing

/-!
# Narrowing selects members

Narrowing takes null out of a type and selects the accepted ones of the members that are left. A
type in normal form stands for its members in their order, whatever they are: joining a selection
of them neither drops one nor merges two nor changes their places. What was selected is accepted
and has no null, so selecting once more with the same strictness finds nothing to take out.
-/

namespace OperatorLint

namespace Ty

variable {t : Ty}

/-- Taking null out of any type but null leaves the other members. -/
theorem withoutNull_eq (h : Normal t) (hnull : t.isNull = false) :
    t.withoutNull = ofMembers (t.members.filter fun m => !m.isNull) := by
  cases t with
  | union ts => exact withoutNull_union h
  | kind k =>
    cases k with
    | null => exact Bool.noConfusion hnull
    | _ => rfl
  | _ => rfl

/-- A type without null among its members stays as it is when null is taken out. -/
theorem withoutNull_of_members (h : Normal t) (hm : ∀ m ∈ t.members, m.isNull = false) :
    t.withoutNull = t := by
  have hnull : t.isNull = false := by
    cases t with
    | kind k => exact hm _ (List.mem_singleton.mpr rfl)
    | _ => rfl
  have hall : t.members.filter (fun m => !m.isNull) = t.members := by
    rw [List.filter_eq_self]
    intro m hmem
    rw [hm m hmem]
    rfl
  rw [withoutNull_eq h hnull, hall, h.ofMembers_members]

end Ty

namespace Strictness

open Ty (Normal)

variable {s : Strictness} {accepts : Ty → Bool} {t : Ty}

/-- What is left of the type of an operand are its members without the null that is not
checked. -/
theorem stripped_eq (h : Normal t) : s.stripped t =
    if s.nullables || t.isNull then t else .ofMembers (t.members.filter fun m => !m.isNull) := by
  unfold stripped
  cases hkeep : s.nullables || t.isNull with
  | true => rfl
  | false =>
    have hnull : t.isNull = false := (Bool.or_eq_false_iff.mp hkeep).2
    exact Ty.withoutNull_eq h hnull

/-- Null alone is not taken out of itself. -/
theorem stripped_null : s.stripped .null = .null := if_pos (Bool.or_true s.nullables)

/-- Null alone is left to check as it is. -/
theorem narrow_null : s.narrow accepts .null = .null := by
  simp only [narrow, stripped_null]
  exact ite_self _

/-- What is left to check has no null that is not checked. -/
theorem stripped_narrow (h : Normal t) (hknown : isUnknown (s.stripped t) = false) :
    s.stripped (s.narrow accepts t) = s.narrow accepts t := by
  cases hnull : t.isNull with
  | true =>
    rw [Ty.isNull_iff.mp hnull, narrow_null, stripped_null]
  | false =>
    cases hkeep : s.nullables with
    | true => simp only [stripped, hkeep, Bool.true_or, if_true]
    | false =>
      have hstripped : s.stripped t = t.withoutNull := by
        simp only [stripped, hkeep, hnull, Bool.or_self, Bool.false_eq_true, if_false]
      have hnever : t.withoutNull ≠ .never := by
        intro hnever
        rw [hstripped, hnever] at hknown
        exact Bool.noConfusion hknown
      have hfree : ∀ m ∈ (s.narrow accepts t).members, m.isNull = false := by
        intro m hm
        have hleft : m ∈ t.withoutNull.members := hstripped ▸ mem_of_mem_narrow h hknown hm
        exact (Ty.mem_of_mem_withoutNull h hleft hnever).2
      unfold stripped
      rw [Ty.withoutNull_of_members (normal_narrow h) hfree]
      exact ite_self _

/-- Narrowing leaves what is known of a type as it is, unless it is a union with accepted members
and one working member is enough. -/
theorem narrow_of_unselected (h : Normal t) (hknown : isUnknown (s.stripped t) = false)
    (hnone : ¬ (s.unions = false ∧ (s.stripped t).isUnion = true ∧
      ∃ m ∈ (s.stripped t).members, accepts m = true)) :
    s.narrow accepts t = s.stripped t := by
  cases hunions : s.unions with
  | true => exact narrow_of_unions hunions hknown
  | false =>
    cases hunion : (s.stripped t).isUnion with
    | false =>
      rw [narrow_of_lenient hunions hknown]
      cases hs : s.stripped t with
      | union ts =>
        rw [hs] at hunion
        exact Bool.noConfusion hunion
      | _ => rfl
    | true =>
      apply narrow_of_rejected h hknown
      intro m hm
      rw [Bool.eq_false_iff]
      exact fun haccepted => hnone ⟨hunions, hunion, m, hm, haccepted⟩

/-- Narrowing only looks at what a type holds besides the null that is not checked. -/
theorem narrow_of_stripped_eq {u : Ty} (h : s.stripped t = s.stripped u) :
    s.narrow accepts t = s.narrow accepts u := by
  simp only [narrow, h]

/-- Narrowing what was narrowed before changes nothing. Where nothing was selected, the same type is
narrowed twice; what was selected is accepted, so all of it is selected again. -/
theorem narrow_narrow (h : Normal t) :
    s.narrow accepts (s.narrow accepts t) = s.narrow accepts t := by
  cases hknown : isUnknown (s.stripped t) with
  | true => rw [narrow_of_isUnknown hknown, narrow_error]
  | false =>
    have hstripped : s.stripped (s.narrow accepts t) = s.narrow accepts t :=
      stripped_narrow h hknown
    rcases @narrow_cases s accepts t h hknown with hsame | hmembers
    · exact narrow_of_stripped_eq (hstripped.trans hsame)
    · have hpart : isUnknown (s.stripped (s.narrow accepts t)) = false := by
        rw [hstripped]
        exact isUnknown_narrow h hknown
      have hall : ∀ m ∈ (s.stripped (s.narrow accepts t)).members, accepts m = true := by
        intro m hm
        rw [hstripped, hmembers] at hm
        exact (List.mem_filter.mp hm).2
      rw [narrow_of_accepted (normal_narrow h) hpart hall, hstripped]

/-- The part of an operand that is checked, for an answer in normal form. Of the answer is left
what it holds besides the null that is not checked. There is nothing to check exactly when that is
a failure, the unknown or the empty type. Otherwise, when one working member is enough and some
members of a union are accepted, the part has exactly these members in their order; in every other
case it is what is left of the answer. An operand answered by this part is narrowed to it again. -/
theorem typeToCheck_selects (oracle : Oracle) (s : Strictness) (accepts : Ty → Bool) (scope : Scope)
    (e : Expr Origin) (h : (oracle scope e).Normal) :
    let t := oracle scope e
    let rest := if s.nullables || t.isNull then t
      else .ofMembers (t.members.filter fun m => !m.isNull)
    let part := (s.typeToCheck accepts scope e).result oracle
    let selects := s.unions = false ∧ rest.isUnion = true ∧ ∃ m ∈ rest.members, accepts m = true
    (part = .error ↔ rest ∈ [Ty.error, Ty.mixed, Ty.never]) ∧
      (rest ∉ [Ty.error, Ty.mixed, Ty.never] →
        (selects → part.members = rest.members.filter accepts) ∧ (¬ selects → part = rest)) ∧
      ∀ (oracle' : Oracle) (scope' : Scope) (e' : Expr Origin), oracle' scope' e' = part →
        (s.typeToCheck accepts scope' e').result oracle' = part := by
  intro t rest part selects
  have hrest : rest = s.stripped t := (stripped_eq h).symm
  have hpart : part = s.narrow accepts t := rfl
  refine ⟨?_, ?_, ?_⟩
  · have herror : part.isError = isUnknown rest := by
      rw [hrest]
      exact isError_narrow h
    rw [← Ty.isError_iff, herror, ← not_iff_not, Bool.not_eq_true, isUnknown_eq_false_iff]
  · rw [hrest, ← isUnknown_eq_false_iff]
    intro hknown
    constructor
    · rintro ⟨hunions, _, hm⟩
      rw [hrest] at hm
      exact members_narrow h hunions hknown hm
    · intro hnone
      apply narrow_of_unselected h hknown
      rwa [← hrest]
  · intro oracle' scope' e' hanswer
    calc (s.typeToCheck accepts scope' e').result oracle'
        = s.narrow accepts (oracle' scope' e') := rfl
      _ = s.narrow accepts (s.narrow accepts t) := by rw [hanswer, hpart]
      _ = part := narrow_narrow h

/-- A double that is no number. -/
def undefinedFloat : Ty := .constant (.float (0 / 0))

/-- The union of an array of integers and null, of null, of a text that is a number, and of twice
the double that differs from itself. -/
def tangledAnswer : Ty :=
  .union [undefinedFloat, .array .int (.union [.int, .null]), .null, undefinedFloat,
    .constant (.string "1")]

/-- Of the tangled union a lenient check of a number keeps both doubles and the text, and keeps
them once more when it is answered by these. -/
theorem typeToCheck_selects_numbers :
    let part := (Strictness.typeToCheck ⟨false, false⟩ (Category.accepts .default .maybe) .empty
      (.null .invented)).result fun _ _ => tangledAnswer
    tangledAnswer.Normal ∧
      part.members = [undefinedFloat, undefinedFloat, .constant (.string "1")] ∧
        (Strictness.typeToCheck ⟨false, false⟩ (Category.accepts .default .maybe) .empty
          (.null .invented)).result (fun _ _ => part) = part := by
  intro part
  have hnormal : tangledAnswer.Normal := by decide
  obtain ⟨_, hknown, hagain⟩ := typeToCheck_selects (fun _ _ => tangledAnswer) ⟨false, false⟩
    (Category.accepts .default .maybe) .empty (.null .invented) hnormal
  have hrest : Ty.ofMembers (tangledAnswer.members.filter fun m => !m.isNull) ∉
      [Ty.error, Ty.mixed, Ty.never] := isUnknown_eq_false_iff.mp rfl
  have hselected := (hknown hrest).1
    ⟨rfl, rfl, undefinedFloat, List.mem_cons_self, by decide⟩
  exact ⟨hnormal, hselected, hagain _ _ _ rfl⟩

end Strictness

end OperatorLint
