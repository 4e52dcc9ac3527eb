import OperatorLint.Narrowing
import OperatorLint.Proofs.Join

/-!
# What narrowing keeps

A type about which something is known is narrowed to the members that are accepted, in their
order, or is left as it is when there are none. The accepted members of a type in normal form
stand apart already, so that joining them again changes nothing.
-/

namespace OperatorLint.Strictness

open Ty (Normal members)

variable {s : Strictness} {accepts : Ty → Bool} {t : Ty}

/-- Nothing is known about the failure, the unknown type and the empty type. -/
theorem isUnknown_iff : isUnknown t = true ↔ t = .error ∨ t = .mixed ∨ t = .never := by
  rw [isUnknown, Bool.or_eq_true, Bool.or_eq_true, Ty.isError_iff, Ty.isMixed_iff, Ty.isNever_iff,
    or_assoc]

/-- Something is known about all other types. -/
theorem isUnknown_eq_false_iff : isUnknown t = false ↔ t ∉ [Ty.error, Ty.mixed, Ty.never] := by
  rw [← Bool.not_eq_true, isUnknown_iff]
  simp only [List.mem_cons, List.not_mem_nil, or_false]

/-- An unknown type stays as it is without null. -/
theorem stripped_of_isUnknown (h : isUnknown t = true) : s.stripped t = t := by
  rcases isUnknown_iff.mp h with rfl | rfl | rfl
  · exact ite_self _
  · exact ite_self _
  · exact ite_self _

/-- A type about which something is known is no failure. -/
theorem isError_of_known (h : isUnknown t = false) : t.isError = false := by
  rw [isUnknown, Bool.or_eq_false_iff, Bool.or_eq_false_iff] at h
  exact h.1.1

/-- The members of a type in normal form about which something is known are single. -/
theorem isSingle_of_mem {m : Ty} (h : Normal t) (hknown : isUnknown t = false)
    (hm : m ∈ t.members) : m.isSingle = true := by
  have hnot : ¬ (t = .error ∨ t = .mixed ∨ t = .never) := by
    rw [← isUnknown_iff, hknown]
    exact Bool.false_ne_true
  rw [not_or, not_or] at hnot
  exact h.isSingle_of_mem hm hnot.1 hnot.2.1 hnot.2.2

/-- The type of an operand without null is in normal form. -/
theorem normal_stripped (s : Strictness) (h : Normal t) : Normal (s.stripped t) := by
  unfold stripped
  split
  · exact h
  · exact Ty.normal_withoutNull h

/-- The members that are left when null is taken out are members of the type. -/
theorem mem_of_mem_stripped {m : Ty} (h : Normal t) (hknown : isUnknown (s.stripped t) = false)
    (hm : m ∈ (s.stripped t).members) : m ∈ t.members := by
  unfold stripped at hm hknown
  split at hm
  · exact hm
  · next hstrip =>
    rw [if_neg hstrip] at hknown
    apply (Ty.mem_of_mem_withoutNull h hm ?_).1
    intro hnever
    rw [hnever] at hknown
    exact Bool.noConfusion hknown

/-- The accepted part of a union in normal form. -/
theorem acceptedPart_union {ts : List Ty} (h : Normal (.union ts)) :
    acceptedPart accepts (.union ts) =
      if ts.filter accepts = [] then .union ts else .ofMembers (ts.filter accepts) := by
  have hfiltered := (Ty.normal_union.mp h).2.2.sublist (List.filter_sublist (p := accepts))
  simp only [acceptedPart, List.isEmpty_iff, Ty.join_of_separate hfiltered]

/-- The accepted part of a type in normal form is in normal form. -/
theorem normal_acceptedPart (h : Normal t) : Normal (acceptedPart accepts t) := by
  cases t with
  | union ts =>
    have hts := Ty.normal_union.mp h
    rw [acceptedPart_union h]
    split
    · exact h
    · apply Ty.normal_ofMembers (hts.2.2.sublist List.filter_sublist)
      intro m hm
      exact hts.1 m (List.mem_of_mem_filter hm)
  | _ => exact h

/-- A type without accepted members is its own accepted part. -/
theorem acceptedPart_of_rejected (h : Normal t) (hm : ∀ m ∈ t.members, accepts m = false) :
    acceptedPart accepts t = t := by
  cases t with
  | union ts =>
    have hempty : ts.filter accepts = [] := by
      rw [List.filter_eq_nil_iff]
      intro m hmem
      rw [hm m hmem]
      exact Bool.false_ne_true
    rw [acceptedPart_union h, if_pos hempty]
  | _ => rfl

/-- A type with accepted members only is its own accepted part. -/
theorem acceptedPart_of_accepted (h : Normal t) (hm : ∀ m ∈ t.members, accepts m = true) :
    acceptedPart accepts t = t := by
  cases t with
  | union ts =>
    have hall : ts.filter accepts = ts := List.filter_eq_self.mpr hm
    rw [acceptedPart_union h, hall]
    split
    · rfl
    · exact h.ofMembers_members
  | _ => rfl

/-- The accepted part of a type with accepted members has exactly them. -/
theorem members_acceptedPart (h : Normal t) (hm : ∃ m ∈ t.members, accepts m = true) :
    (acceptedPart accepts t).members = t.members.filter accepts := by
  obtain ⟨m, hmem, hma⟩ := hm
  cases t with
  | union ts =>
    have hts := Ty.normal_union.mp h
    have hne : ts.filter accepts ≠ [] := List.ne_nil_of_mem (List.mem_filter.mpr ⟨hmem, hma⟩)
    rw [acceptedPart_union h, if_neg hne]
    exact (hts.2.2.sublist List.filter_sublist).members_ofMembers hne
  | _ =>
    rw [List.mem_singleton.mp hmem] at hma
    simp [acceptedPart, members, hma]

/-- Nothing is left to check when too little is known. -/
theorem narrow_of_isUnknown (h : isUnknown (s.stripped t) = true) :
    s.narrow accepts t = .error := if_pos h

/-- Where something is left to check, something is known about the operand without null. -/
theorem known_of_narrow (h : (s.narrow accepts t).isError = false) :
    s.stripped t ∉ [Ty.error, Ty.mixed, Ty.never] := by
  rw [← isUnknown_eq_false_iff, ← Bool.not_eq_true]
  intro hunknown
  rw [narrow_of_isUnknown hunknown] at h
  exact Bool.noConfusion h

/-- Nothing is left to check of an operand that fails. -/
theorem narrow_error : s.narrow accepts .error = .error :=
  narrow_of_isUnknown (by rw [stripped_of_isUnknown rfl]; rfl)

/-- With all members of unions checked, narrowing takes out null and no more. -/
theorem narrow_of_unions (hunions : s.unions = true) (h : isUnknown (s.stripped t) = false) :
    s.narrow accepts t = s.stripped t := by
  simp [narrow, h, hunions]

/-- With one working member enough, a known type is narrowed to its accepted part. -/
theorem narrow_of_lenient (hunions : s.unions = false) (h : isUnknown (s.stripped t) = false) :
    s.narrow accepts t = acceptedPart accepts (s.stripped t) := by
  simp [narrow, h, hunions]

/-- What is left to check is in normal form. -/
theorem normal_narrow (h : Normal t) : Normal (s.narrow accepts t) := by
  have hnormal := normal_stripped s h
  unfold narrow
  dsimp only
  split
  · trivial
  · split
    · exact hnormal
    · exact normal_acceptedPart hnormal

/-- Narrowing only asks about the members of the type without null. -/
theorem narrow_congr {b : Ty → Bool} (h : ∀ m ∈ (s.stripped t).members, accepts m = b m) :
    s.narrow accepts t = s.narrow b t := by
  have hpart : acceptedPart accepts (s.stripped t) = acceptedPart b (s.stripped t) := by
    cases hs : s.stripped t with
    | union ts =>
      rw [hs] at h
      have hfilter : ts.filter accepts = ts.filter b := List.filter_congr h
      rw [acceptedPart, acceptedPart, hfilter]
    | _ => rfl
  simp only [narrow, hpart]

/-- A type without accepted members is left as it is. -/
theorem narrow_of_rejected (h : Normal t) (hknown : isUnknown (s.stripped t) = false)
    (hm : ∀ m ∈ (s.stripped t).members, accepts m = false) :
    s.narrow accepts t = s.stripped t := by
  cases hunions : s.unions with
  | true => exact narrow_of_unions hunions hknown
  | false =>
    rw [narrow_of_lenient hunions hknown]
    exact acceptedPart_of_rejected (normal_stripped s h) hm

/-- A type with accepted members only is left as it is. -/
theorem narrow_of_accepted (h : Normal t) (hknown : isUnknown (s.stripped t) = false)
    (hm : ∀ m ∈ (s.stripped t).members, accepts m = true) :
    s.narrow accepts t = s.stripped t := by
  cases hunions : s.unions with
  | true => exact narrow_of_unions hunions hknown
  | false =>
    rw [narrow_of_lenient hunions hknown]
    exact acceptedPart_of_accepted (normal_stripped s h) hm

/-- A type with accepted members is narrowed to them, in their order. -/
theorem members_narrow (h : Normal t) (hunions : s.unions = false)
    (hknown : isUnknown (s.stripped t) = false)
    (hm : ∃ m ∈ (s.stripped t).members, accepts m = true) :
    (s.narrow accepts t).members = (s.stripped t).members.filter accepts := by
  rw [narrow_of_lenient hunions hknown]
  exact members_acceptedPart (normal_stripped s h) hm

/-- What is left to check of a known type: all of it, or the accepted members of it. -/
theorem narrow_cases (h : Normal t) (hknown : isUnknown (s.stripped t) = false) :
    s.narrow accepts t = s.stripped t ∨
      (s.narrow accepts t).members = (s.stripped t).members.filter accepts := by
  cases hunions : s.unions with
  | true => exact Or.inl (narrow_of_unions hunions hknown)
  | false =>
    by_cases hm : ∃ m ∈ (s.stripped t).members, accepts m = true
    · exact Or.inr (members_narrow h hunions hknown hm)
    · refine Or.inl (narrow_of_rejected h hknown ?_)
      intro m hmem
      rw [Bool.eq_false_iff]
      exact fun hma => hm ⟨m, hmem, hma⟩

/-- What is left to check has only members of the type without null. -/
theorem mem_of_mem_narrow {m : Ty} (h : Normal t) (hknown : isUnknown (s.stripped t) = false)
    (hm : m ∈ (s.narrow accepts t).members) : m ∈ (s.stripped t).members := by
  rcases @narrow_cases s accepts t h hknown with heq | heq
  · exact heq ▸ hm
  · rw [heq] at hm
    exact List.mem_of_mem_filter hm

/-- What is left to check has only members of the type. -/
theorem members_narrow_subset (h : Normal t) (hknown : isUnknown (s.stripped t) = false) :
    (s.narrow accepts t).members ⊆ t.members := by
  intro m hm
  have hstripped := mem_of_mem_narrow h hknown hm
  exact mem_of_mem_stripped h hknown hstripped

/-- What is left to check of a known type has single members only. -/
theorem isSingle_of_mem_narrow (h : Normal t) (hknown : isUnknown (s.stripped t) = false) :
    ∀ m ∈ (s.narrow accepts t).members, m.isSingle = true := fun _ hm =>
  isSingle_of_mem (normal_stripped s h) hknown (mem_of_mem_narrow h hknown hm)

/-- Something is left to check of every known type. -/
theorem isUnknown_narrow (h : Normal t) (hknown : isUnknown (s.stripped t) = false) :
    isUnknown (s.narrow accepts t) = false := by
  have hsingle := @isSingle_of_mem_narrow s accepts t h hknown
  generalize s.narrow accepts t = u at *
  cases u with
  | error => exact Bool.noConfusion (hsingle .error List.mem_cons_self)
  | mixed => exact Bool.noConfusion (hsingle .mixed List.mem_cons_self)
  | never => exact Bool.noConfusion (hsingle .never List.mem_cons_self)
  | _ => rfl

/-- Nothing is left to check exactly when too little is known, where something is left of every
known type. -/
theorem isError_narrow_of_known
    (h : isUnknown (s.stripped t) = false → isUnknown (s.narrow accepts t) = false) :
    (s.narrow accepts t).isError = isUnknown (s.stripped t) := by
  cases hknown : isUnknown (s.stripped t) with
  | true =>
    rw [narrow_of_isUnknown hknown]
    rfl
  | false => exact isError_of_known (h hknown)

/-- Nothing is left to check exactly when too little is known. -/
theorem isError_narrow (h : Normal t) :
    (s.narrow accepts t).isError = isUnknown (s.stripped t) :=
  isError_narrow_of_known (isUnknown_narrow h)

/-- With all members of unions checked, nothing is left to check exactly when too little is known,
of types in any form. -/
theorem isError_narrow_of_unions (hunions : s.unions = true) :
    (s.narrow accepts t).isError = isUnknown (s.stripped t) := by
  apply isError_narrow_of_known
  intro hknown
  rw [narrow_of_unions hunions hknown]
  exact hknown

end OperatorLint.Strictness
