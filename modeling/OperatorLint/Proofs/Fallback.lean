import OperatorLint.Proofs.Preservation
import OperatorLint.Proofs.Selection
import OperatorLint.Proofs.Supremum

/-!
# Chains of fallbacks

Falling back takes null out of the left operand and joins the right one. A type lies above the
result exactly when it lies above both parts, and taking null out of a result takes it out of both
operands; so the two groupings of a chain have the same upper bounds and include one another. A
failure in the middle is the exception: it makes the first two operands fail together, a failing
left operand is skipped as one that is not defined, and the first operand is lost with it.
-/

namespace OperatorLint

namespace Ty

variable {a b t u : Ty}

/-- Both types fail, or each one covers the other for certain. -/
def Equivalent (a b : Ty) : Prop :=
  a = error ∧ b = error ∨ covers a b = .yes ∧ covers b a = .yes

/-- All members but null stay. -/
theorem mem_withoutNull {m : Ty} (h : Normal t) (hm : m ∈ t.members) (hnull : m.isNull = false) :
    m ∈ t.withoutNull.members := by
  cases t with
  | union ts =>
    have hleft : m ∈ ts.filter fun t => !t.isNull := List.mem_filter.mpr ⟨hm, by rw [hnull]; rfl⟩
    have hs := (normal_union.mp h).2.2.sublist (List.filter_sublist (p := fun t => !t.isNull))
    rw [withoutNull_union h, hs.members_ofMembers (List.ne_nil_of_mem hleft)]
    exact hleft
  | kind k =>
    cases k with
    | null =>
      rw [List.mem_singleton.mp hm] at hnull
      exact Bool.noConfusion hnull
    | _ => exact hm
  | _ => exact hm

/-- Taking null out once more changes nothing. -/
theorem withoutNull_withoutNull (h : Normal t) : t.withoutNull.withoutNull = t.withoutNull := by
  apply withoutNull_of_members (normal_withoutNull h)
  intro m hm
  by_cases hnever : t.withoutNull = never
  · rw [hnever] at hm
    rw [List.mem_singleton.mp hm]
    rfl
  · exact (mem_of_mem_withoutNull h hm hnever).2

/-- A regular type is regular without null. -/
theorem isRegular_withoutNull (h : Normal t) (hr : t.isRegular = true) :
    t.withoutNull.isRegular = true := by
  apply isRegular_of_members
  intro m hm
  by_cases hnever : t.withoutNull = never
  · rw [hnever] at hm
    rw [List.mem_singleton.mp hm]
    rfl
  · exact isRegular_of_mem hr (mem_of_mem_withoutNull h hm hnever).1

/-- Null includes nothing else that has values. -/
theorem eq_never_of_includes_null {m : Ty} (hm : m.isUnion = false) (hnull : m.isNull = false)
    (h : includes null m = true) : m = never := by
  rcases single_of_includes rfl hm h with hnever | hsingle
  · exact hnever
  · rcases includes_kind hsingle h with rfl | ⟨c, rfl, hc⟩
    · exact Bool.noConfusion hnull
    · cases c <;> exact Kind.noConfusion hc

/-- A type includes another one without null exactly when it includes the members other than
null. -/
theorem includes_withoutNull_iff (hu : u ≠ error) (h : Normal t) :
    includes u t.withoutNull = true ↔
      ∀ m ∈ t.members, m.isNull = false → includes u m = true := by
  rw [includes_source (normal_withoutNull h)]
  constructor
  · intro hall m hm hnull
    exact hall m (mem_withoutNull h hm hnull)
  · intro hall m hm
    by_cases hnever : t.withoutNull = never
    · rw [hnever] at hm
      rw [List.mem_singleton.mp hm]
      exact includes_never hu
    · obtain ⟨hmt, hnull⟩ := mem_of_mem_withoutNull h hm hnever
      exact hall m hmt hnull

/-- A type that includes another one is no failure. -/
theorem ne_error_of_includes (h : includes a b = true) : a ≠ error := by
  rintro rfl
  rw [includes_error] at h
  exact Bool.noConfusion h

/-- Taking null out keeps inclusion. -/
theorem includes_withoutNull (ha : Normal a) (hb : Normal b) (h : includes a b = true) :
    includes a.withoutNull b.withoutNull = true := by
  have hleft : a.withoutNull ≠ error := mt (withoutNull_eq_error ha).mp (ne_error_of_includes h)
  rw [includes_withoutNull_iff hleft hb]
  intro m hm hnull
  have hunion := hb.isUnion_of_mem hm
  obtain ⟨k, hk, hkm⟩ := (includes_target ha hunion).mp ((includes_source hb).mp h m hm)
  cases hknull : k.isNull with
  | true =>
    rw [isNull_iff.mp hknull] at hkm
    rw [eq_never_of_includes_null hunion hnull hkm]
    exact includes_never hleft
  | false =>
    have hka := mem_withoutNull ha hk hknull
    exact (includes_target (normal_withoutNull ha) hunion).mpr ⟨k, hka, hkm⟩

section UpperBounds

variable {ts : List Ty} (hn : ∀ t ∈ ts, Normal t) (hr : ∀ t ∈ ts, t.isRegular = true)
  (hu : Normal u) (herror : u ≠ error)

include hn hr hu herror

/-- A type includes a join exactly when it includes all joined types. -/
theorem includes_join_iff : includes u (join ts) = true ↔ ∀ t ∈ ts, includes u t = true := by
  constructor
  · intro h t ht
    exact includes_trans hu (normal_join hn) (hn t ht) h (includes_join hn hr t ht)
  · exact includes_join_of_forall hn hu herror

/-- A type includes a join without null exactly when it includes all joined types without null. -/
theorem includes_withoutNull_join_iff :
    includes u (join ts).withoutNull = true ↔ ∀ t ∈ ts, includes u t.withoutNull = true := by
  have hjoin := normal_join hn
  constructor
  · intro h t ht
    have hbelow := includes_withoutNull hjoin (hn t ht) (includes_join hn hr t ht)
    exact includes_trans hu (normal_withoutNull hjoin) (normal_withoutNull (hn t ht)) h hbelow
  · intro h
    rw [includes_withoutNull_iff herror hjoin]
    refine forall_members_join hn (fun _ => includes_never herror) ?_ ?_
    · intro htruths _
      exact includes_bool_of_truths hu fun b => htruths b rfl
    · intro t ht
      exact (includes_withoutNull_iff herror (hn t ht)).mp (h t ht)

end UpperBounds

/-- Regular types in normal form with the same upper bounds are equivalent. -/
theorem equivalent_of_bounds (ha : Normal a) (hb : Normal b) (hra : a.isRegular = true)
    (hrb : b.isRegular = true)
    (h : ∀ u, Normal u → u ≠ error → (includes u a = true ↔ includes u b = true)) :
    Equivalent a b := by
  have hab := (h a ha (ne_error_of_isRegular hra)).mp (includes_self ha hra)
  have hba := (h b hb (ne_error_of_isRegular hrb)).mpr (includes_self hb hrb)
  exact Or.inr ⟨Certainty.isYes_iff.mp hab, Certainty.isYes_iff.mp hba⟩

/-- A type in normal form that is regular unless it fails is equivalent to itself. -/
theorem equivalent_self (h : Normal t) (hr : t = error ∨ t.isRegular = true) : Equivalent t t := by
  rcases hr with he | hr
  · exact Or.inl ⟨he, he⟩
  · have hself := Certainty.isYes_iff.mp (includes_self h hr)
    exact Or.inr ⟨hself, hself⟩

end Ty

namespace Operation

open Ty (Normal Equivalent)

variable {a b c u : Ty}

/-- A left operand that does not fail is joined without its null. -/
theorem coalesce_of_ne_error (h : a ≠ .error) : coalesce a b = .join [a.withoutNull, b] :=
  if_neg fun he => h (Ty.isError_iff.mp he)

/-- What is joined for two operands in normal form is in normal form. -/
theorem normal_joined (ha : Normal a) (hb : Normal b) : ∀ t ∈ [a.withoutNull, b], Normal t :=
  List.forall_mem_cons.mpr ⟨Ty.normal_withoutNull ha, List.forall_mem_singleton.mpr hb⟩

section Regular

variable (ha : Normal a) (hb : Normal b) (hra : a.isRegular = true) (hrb : b.isRegular = true)

include ha hb hra hrb

/-- What is joined for two regular operands is in normal form and regular. -/
theorem regular_parts : (∀ t ∈ [a.withoutNull, b], Normal t) ∧
    ∀ t ∈ [a.withoutNull, b], t.isRegular = true := by
  have hr := Ty.isRegular_withoutNull ha hra
  exact ⟨normal_joined ha hb, List.forall_mem_cons.mpr ⟨hr, List.forall_mem_singleton.mpr hrb⟩⟩

/-- Falling back from a regular type to a regular one gives a regular type. -/
theorem isRegular_coalesce : (coalesce a b).isRegular = true := by
  obtain ⟨hn, hr⟩ := regular_parts ha hb hra hrb
  rw [coalesce_of_ne_error (Ty.ne_error_of_isRegular hra)]
  exact Ty.isRegular_join hn hr

section UpperBounds

variable (hu : Normal u) (herror : u ≠ .error)

include hu herror

/-- The upper bounds of a fallback. -/
theorem includes_coalesce_iff : u.includes (coalesce a b) = true ↔
    u.includes a.withoutNull = true ∧ u.includes b = true := by
  obtain ⟨hn, hr⟩ := regular_parts ha hb hra hrb
  rw [coalesce_of_ne_error (Ty.ne_error_of_isRegular hra), Ty.includes_join_iff hn hr hu herror,
    List.forall_mem_cons, List.forall_mem_singleton]

/-- The upper bounds of a fallback without null. -/
theorem includes_withoutNull_coalesce_iff : u.includes (coalesce a b).withoutNull = true ↔
    u.includes a.withoutNull = true ∧ u.includes b.withoutNull = true := by
  obtain ⟨hn, hr⟩ := regular_parts ha hb hra hrb
  rw [coalesce_of_ne_error (Ty.ne_error_of_isRegular hra),
    Ty.includes_withoutNull_join_iff hn hr hu herror, List.forall_mem_cons,
    List.forall_mem_singleton, Ty.withoutNull_withoutNull ha]

end UpperBounds

/-- A regular type is equivalent to falling back on it exactly when it includes what comes before
it without null. -/
theorem equivalent_coalesce_iff :
    Equivalent b (coalesce a b) ↔ b.covers a.withoutNull = .yes := by
  have heb := Ty.ne_error_of_isRegular hrb
  have hab := normal_coalesce ha hb
  have hrab := isRegular_coalesce ha hb hra hrb
  have hbelow := includes_coalesce_iff ha hb hra hrb hb heb
  have habove := (includes_coalesce_iff ha hb hra hrb hab (Ty.ne_error_of_isRegular hrab)).mp
    (Ty.includes_self hab hrab)
  rw [← Certainty.isYes_iff]
  constructor
  · rintro (⟨he, _⟩ | ⟨hleft, _⟩)
    · exact absurd he heb
    · exact (hbelow.mp (Certainty.isYes_iff.mpr hleft)).1
  · intro h
    have hself := Ty.includes_self hb hrb
    exact Or.inr ⟨Certainty.isYes_iff.mp (hbelow.mpr ⟨h, hself⟩),
      Certainty.isYes_iff.mp habove.2⟩

end Regular

/-- Two groupings of a chain of regular types are equivalent. -/
theorem coalesce_regular (ha : Normal a) (hb : Normal b) (hc : Normal c)
    (hra : a.isRegular = true) (hrb : b.isRegular = true) (hrc : c.isRegular = true) :
    Equivalent (coalesce (coalesce a b) c) (coalesce a (coalesce b c)) := by
  have hab := normal_coalesce ha hb
  have hbc := normal_coalesce hb hc
  have hrab := isRegular_coalesce ha hb hra hrb
  have hrbc := isRegular_coalesce hb hc hrb hrc
  apply Ty.equivalent_of_bounds (normal_coalesce hab hc) (normal_coalesce ha hbc)
    (isRegular_coalesce hab hc hrab hrc) (isRegular_coalesce ha hbc hra hrbc)
  intro u hu herror
  rw [includes_coalesce_iff hab hc hrab hrc hu herror,
    includes_withoutNull_coalesce_iff ha hb hra hrb hu herror,
    includes_coalesce_iff ha hbc hra hrbc hu herror, includes_coalesce_iff hb hc hrb hrc hu herror,
    and_assoc]

/-- A failing right operand makes every fallback on it fail. -/
theorem coalesce_error (ha : Normal a) : coalesce a .error = .error := by
  have herror : Normal .error := trivial
  exact (coalesce_eq_error ha herror).mpr rfl

/-- A chain whose last operand fails does so in both groupings. -/
theorem coalesce_fails (ha : Normal a) (hb : Normal b) :
    coalesce (coalesce a b) .error = .error ∧ coalesce a (coalesce b .error) = .error := by
  rw [coalesce_error hb]
  exact ⟨coalesce_error (normal_coalesce ha hb), coalesce_error ha⟩

/-- With a failing right operand a left one fails too, and is then skipped. -/
theorem coalesce_of_failing (ha : Normal a) : coalesce (coalesce a .error) c = c := by
  rw [coalesce_error ha]
  rfl

/-- With a failure in the middle one grouping is the third operand alone and the other one falls
back on it, so that they are equivalent exactly when the third covers the first without null. -/
theorem equivalent_of_failing (ha : Normal a) (hc : Normal c) (hra : a.isRegular = true)
    (hrc : c.isRegular = true) :
    Equivalent (coalesce (coalesce a .error) c) (coalesce a (coalesce .error c)) ↔
      c.covers a.withoutNull = .yes := by
  have hright : coalesce .error c = c := rfl
  rw [coalesce_of_failing ha, hright, equivalent_coalesce_iff ha hc hra hrc]

end Operation

open Operation
open Ty (Normal Equivalent)

/-- On types in normal form without not-a-number, each of them possibly a failure, the two groupings
of a chain of fallbacks both fail or cover one another exactly when the first operand fails, the
second does not, the third fails, or the third covers the first without null. When the second one
fails and the first does not, the first two operands fail together: grouping to the left then gives
the third operand alone, and grouping to the right joins it to the first without null. -/
theorem Operator.coalesce_assoc_iff {a b c : Ty} (ha : Normal a) (hb : Normal b) (hc : Normal c)
    (hra : a = .error ∨ a.isRegular = true) (hrb : b = .error ∨ b.isRegular = true)
    (hrc : c = .error ∨ c.isRegular = true) :
    let fallback := (Operator.compute .coalesce).result
    let grouped := Equivalent (fallback (fallback a b) c) (fallback a (fallback b c))
    (grouped ↔ a = .error ∨ b ≠ .error ∨ c = .error ∨ c.covers a.withoutNull = .yes) ∧
      (a ≠ .error → b = .error → fallback a b = .error ∧ fallback (fallback a b) c = c ∧
        fallback a (fallback b c) = .join [a.withoutNull, c]) := by
  intro fallback grouped
  have hremaining (hea : a ≠ .error) (heb : b = .error) : fallback a b = .error ∧
      fallback (fallback a b) c = c ∧ fallback a (fallback b c) = .join [a.withoutNull, c] := by
    rw [heb]
    exact ⟨coalesce_error ha, coalesce_of_failing ha, coalesce_of_ne_error hea⟩
  refine ⟨?_, hremaining⟩
  rcases hrc with rfl | hrc
  · exact iff_of_true (Or.inl (coalesce_fails ha hb)) (Or.inr (Or.inr (Or.inl rfl)))
  · rcases hra with rfl | hra
    · have hbc : coalesce b c = .error ∨ (coalesce b c).isRegular = true := by
        rcases hrb with rfl | hrb
        · exact Or.inr hrc
        · exact Or.inr (isRegular_coalesce hb hc hrb hrc)
      exact iff_of_true (Ty.equivalent_self (normal_coalesce hb hc) hbc) (Or.inl rfl)
    · have hea := Ty.ne_error_of_isRegular hra
      rcases hrb with rfl | hrb
      · have hec := Ty.ne_error_of_isRegular hrc
        have hgrouped : grouped ↔ c.covers a.withoutNull = .yes :=
          equivalent_of_failing ha hc hra hrc
        rw [hgrouped]
        simp [hea, hec]
      · have heb := Ty.ne_error_of_isRegular hrb
        exact iff_of_true (coalesce_regular ha hb hc hra hrb hrc) (Or.inr (Or.inl heb))

/-- An integer or null, true or null, and false may be grouped either way. -/
theorem Operator.coalesce_assoc_truths :
    let a := Ty.union [.int, .null]
    let b := Ty.union [.constant (.bool true), .null]
    let c := Ty.constant (.bool false)
    let fallback := (Operator.compute .coalesce).result
    (Normal a ∧ Normal b ∧ Normal c) ∧
      (a.isRegular = true ∧ b.isRegular = true ∧ c.isRegular = true) ∧
      Equivalent (fallback (fallback a b) c) (fallback a (fallback b c)) := by
  intro a b c fallback
  have ha : Normal a := by decide
  have hb : Normal b := by decide
  have hc : Normal c := by decide
  have hassoc := coalesce_assoc_iff ha hb hc (Or.inr rfl) (Or.inr rfl) (Or.inr rfl)
  exact ⟨⟨ha, hb, hc⟩, ⟨rfl, rfl, rfl⟩, hassoc.1.mpr (Or.inr (Or.inl Ty.noConfusion))⟩

/-- An integer, a variable that is not defined and a string: grouped to the left they give a string,
and to the right an integer or a string, which the string does not cover. -/
theorem Operator.coalesce_not_assoc :
    let fallback := (Operator.compute .coalesce).result
    fallback (fallback .int .error) .string = .string ∧
      fallback .int (fallback .error .string) = .union [.int, .string] ∧
      ¬ Equivalent (fallback (fallback .int .error) .string)
        (fallback .int (fallback .error .string)) := by
  intro fallback
  refine ⟨rfl, rfl, ?_⟩
  rintro (⟨hleft, _⟩ | ⟨hleft, _⟩)
  · exact Ty.noConfusion hleft
  · exact Certainty.noConfusion hleft

end OperatorLint
