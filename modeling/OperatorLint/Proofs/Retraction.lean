import OperatorLint.Proofs.Numerals
import OperatorLint.Proofs.Supremum

/-!
# Conversions as monotone retractions

The conversions to numbers and to strings take every type that they do not refuse into the types
of one kind, leave the types of that kind alone, and keep inclusion. What the two share is said
once, for a conversion that goes through unions member by member; each of them then only answers
for the types that are no unions. Nothing is asked of the types that are converted: unions in any
form, failing parts of arrays and not-a-number are included.
-/

namespace OperatorLint.Ty

/-- A conversion into the types that a whole includes. -/
structure Retraction (convert : Ty → Ty) (whole : Ty) : Prop extends Memberwise convert where
  /-- The whole is in normal form. -/
  normal_whole : Normal whole
  /-- The whole is no failure. -/
  whole_ne_error : whole ≠ error
  /-- A failure stays one. -/
  keeps_error : convert error = error
  /-- A type other than a union converts to a part of the whole or fails. -/
  lands : ∀ t, t.isUnion = false → convert t ≠ error → includes whole (convert t) = true
  /-- The parts of the whole that are no unions are left alone. -/
  fixes : ∀ t, t.isUnion = false → includes whole t = true → convert t = t

/-- What a conversion into the types that a whole covers does to a type. -/
structure SettledBy (convert : Ty → Ty) (whole t : Ty) : Prop where
  /-- Converting once more changes nothing. -/
  again : convert (convert t) = convert t
  /-- The type fails to convert exactly when a member does. -/
  fails_iff : convert t = error ↔ ∃ m ∈ t.members, convert m = error
  /-- Where it does not fail, the whole covers what it converts to. -/
  lands : convert t ≠ error → covers whole (convert t) = .yes
  /-- In normal form and covered by the whole, it is left alone. -/
  fixed : Normal t → covers whole t = .yes → convert t = t

namespace Retraction

variable {convert : Ty → Ty} {whole : Ty} (h : Retraction convert whole)

include h

/-- The whole includes what a type converts to, if it does. -/
theorem includes_whole {t : Ty} (ht : convert t ≠ error) : includes whole (convert t) = true := by
  induction t using unionInduction with
  | alone t halone => exact h.lands t halone ht
  | union ts ih =>
    rw [h.union]
    apply includes_join_of_forall (h.normal_map ts) h.normal_whole h.whole_ne_error
    rw [List.forall_mem_map]
    intro m hm
    exact ih m hm fun he => ht (h.eq_error.mpr ⟨m, hm, he⟩)

/-- A type in normal form that the whole includes is left alone. -/
theorem convert_eq {t : Ty} (hn : Normal t) (ht : includes whole t = true) : convert t = t := by
  cases t with
  | union ts =>
    have hts := normal_union.mp hn
    have hfixed : ∀ m ∈ ts, convert m = m := fun m hm =>
      h.fixes m (isUnion_of_isSingle (hts.2.2.single m hm)) (includes_of_includes_union ht hm)
    have hsame : ts.map convert = ts := (List.map_congr_left hfixed).trans (List.map_id ts)
    calc convert (union ts) = join (ts.map convert) := h.union ts
      _ = join ts := by rw [hsame]
      _ = ofMembers ts := join_of_separate hts.2.2
      _ = union ts := hn.ofMembers_members
  | _ => exact h.fixes _ rfl ht

/-- Converting once more changes nothing. -/
theorem convert_convert (t : Ty) : convert (convert t) = convert t := by
  by_cases he : convert t = error
  · rw [he, h.keeps_error]
  · exact h.convert_eq (h.normal t) (h.includes_whole he)

/-- A retraction settles every type. -/
theorem settledBy (t : Ty) : SettledBy convert whole t where
  again := h.convert_convert t
  fails_iff := h.eq_error
  lands he := Certainty.isYes_iff.mp (h.includes_whole he)
  fixed hn hcovers := h.convert_eq hn (Certainty.isYes_iff.mpr hcovers)

section Inclusion

variable (halone : ∀ a b, a.isUnion = false → b.isUnion = false → includes a b = true →
  convert a ≠ error → convert b ≠ error → includes (convert a) (convert b) = true)

include halone

/-- Keeping inclusion between types that are no unions, a retraction keeps inclusion in any type of
a type that is no union. A union includes such a type because one of its members does. -/
theorem includes_convert_alone {a b : Ty} (hb : b.isUnion = false) (hab : includes a b = true)
    (hea : convert a ≠ error) (heb : convert b ≠ error) :
    includes (convert a) (convert b) = true := by
  induction a using unionInduction with
  | alone a ha => exact halone a b ha hb hab hea heb
  | union ts ih =>
    by_cases hnever : b = never
    · have hwhole := includes_never h.whole_ne_error
      rw [hnever, h.fixes never rfl hwhole]
      exact includes_never hea
    · have herror : b ≠ error := fun he =>
        Ty.noConfusion (eq_mixed_of_includes_error (he ▸ hab))
      rw [includes, Certainty.isYes_iff, covers_union_target herror hnever hb,
        Certainty.strongest_eq_yes, List.mem_map] at hab
      obtain ⟨t, ht, htb⟩ := hab
      have hmembers : ∀ m ∈ ts, convert m ≠ error := fun m hm he =>
        hea (h.eq_error.mpr ⟨m, hm, he⟩)
      have hpart := ih t ht (Certainty.isYes_iff.mpr htb) (hmembers t ht)
      have hnone : error ∉ ts.map convert := by
        intro he
        obtain ⟨m, hm, hme⟩ := List.mem_map.mp he
        exact hmembers m hm hme
      rw [h.union]
      exact includes_join_of_includes (h.normal_map ts) hnone (List.mem_map_of_mem ht)
        (h.normal b) hpart

/-- Keeping inclusion between types that are no unions, a retraction keeps inclusion. -/
theorem includes_convert {a b : Ty} (hab : includes a b = true) (hea : convert a ≠ error)
    (heb : convert b ≠ error) : includes (convert a) (convert b) = true := by
  induction b using unionInduction with
  | alone b hb => exact h.includes_convert_alone halone hb hab hea heb
  | union us ih =>
    rw [h.union]
    apply includes_join_of_forall (h.normal_map us) (h.normal a) hea
    rw [List.forall_mem_map]
    intro u hu
    exact ih u hu (includes_of_includes_union hab hu) fun he => heb (h.eq_error.mpr ⟨u, hu, he⟩)

end Inclusion

end Retraction

/-- A constant converts to a number or fails. -/
theorem includes_number_constantToNumber {c : Constant} (h : constantToNumber c ≠ error) :
    includes number (constantToNumber c) = true := by
  obtain ⟨d, hd, hkind, _⟩ := exists_of_constantToNumber h
  rw [hd, number_eq]
  cases d with
  | int | float => rfl
  | bool | string => simp [Constant.kind] at hkind

/-- A kind converts to a number that includes those of its constants. -/
theorem includes_kindToNumber (c : Constant) (h : constantToNumber c ≠ error) :
    includes (kindToNumber c.kind) (constantToNumber c) = true := by
  cases c with
  | string text => exact includes_number_constantToNumber h
  | _ => rfl

/-- Constants that are the same value convert to numbers that include one another. -/
theorem includes_constantToNumber {c d : Constant} (h : c.same d = true)
    (herror : constantToNumber c ≠ error) :
    includes (constantToNumber c) (constantToNumber d) = true := by
  rcases Constant.eq_or_beq_of_same h with rfl | ⟨x, y, rfl, rfl, hxy⟩
  · obtain ⟨d, hd, _, hnan⟩ := exists_of_constantToNumber herror
    rw [hd, includes_constant_constant]
    exact Constant.same_self (hnan (Constant.isNaN_of_same h))
  · rw [constantToNumber, constantToNumber, includes_constant_constant]
    exact h

/-- The conversion to numbers is a retraction into the integers and the doubles. -/
theorem retraction_toNumber : Retraction toNumber number where
  toMemberwise := memberwise_toNumber
  normal_whole := normal_number
  whole_ne_error := by rw [number_eq]; exact Ty.noConfusion
  keeps_error := rfl
  lands t ht h := by
    cases t with
    | mixed | never => rfl
    | error | array | object => exact absurd rfl h
    | kind k => cases k <;> rfl
    | constant c => exact includes_number_constantToNumber h
    | union ts => exact Bool.noConfusion ht
  fixes t ht h := by
    cases t with
    | never => rfl
    | kind k =>
      cases k with
      | int | float => rfl
      | _ => exact Bool.noConfusion h
    | constant c =>
      cases c with
      | int | float => rfl
      | _ => exact Bool.noConfusion h
    | union ts => exact Bool.noConfusion ht
    | _ => exact Bool.noConfusion h

/-- Between types that are no unions the conversion to numbers keeps inclusion. -/
theorem includes_toNumber_alone (a b : Ty) (ha : a.isUnion = false) (hb : b.isUnion = false)
    (hab : includes a b = true) (hea : toNumber a ≠ error) (heb : toNumber b ≠ error) :
    includes (toNumber a) (toNumber b) = true := by
  cases a with
  | mixed => exact retraction_toNumber.includes_whole heb
  | never =>
    rw [includes_never_iff.mp hab]
    rfl
  | error | array | object => exact absurd rfl hea
  | kind k =>
    rcases single_of_includes rfl hb hab with rfl | hsingle
    · exact includes_never hea
    · rcases includes_kind hsingle hab with rfl | ⟨c, rfl, rfl⟩
      · cases k <;> rfl
      · exact includes_kindToNumber c heb
  | constant c =>
    rcases single_of_includes rfl hb hab with rfl | hsingle
    · exact includes_never hea
    · obtain ⟨d, rfl, hsame⟩ := includes_constant hsingle hab
      exact includes_constantToNumber hsame hea
  | union ts => exact Bool.noConfusion ha

/-- The conversion to strings is a retraction into the strings. -/
theorem retraction_toText : Retraction toText string where
  toMemberwise := memberwise_toText
  normal_whole := trivial
  whole_ne_error := Ty.noConfusion
  keeps_error := rfl
  lands t ht h := by
    cases t with
    | mixed | never | constant => rfl
    | error | array => exact absurd rfl h
    | kind k => cases k <;> rfl
    | object className stringable =>
      cases stringable with
      | true => rfl
      | false => exact absurd rfl h
    | union ts => exact Bool.noConfusion ht
  fixes t ht h := by
    cases t with
    | never => rfl
    | kind k =>
      cases k with
      | string => rfl
      | _ => exact Bool.noConfusion h
    | constant c =>
      cases c with
      | string => rfl
      | _ => exact Bool.noConfusion h
    | union ts => exact Bool.noConfusion ht
    | _ => exact Bool.noConfusion h

/-- Between types that are no unions the conversion to strings keeps inclusion. -/
theorem includes_toText_alone (a b : Ty) (ha : a.isUnion = false) (hb : b.isUnion = false)
    (hab : includes a b = true) (hea : toText a ≠ error) (heb : toText b ≠ error) :
    includes (toText a) (toText b) = true := by
  have hstring : includes string (toText b) = true := retraction_toText.includes_whole heb
  cases a with
  | mixed => exact hstring
  | never =>
    rw [includes_never_iff.mp hab]
    rfl
  | error | array => exact absurd rfl hea
  | object className stringable =>
    cases stringable with
    | true => exact hstring
    | false => exact absurd rfl hea
  | kind k =>
    cases k with
    | null =>
      rcases single_of_includes rfl hb hab with rfl | hsingle
      · rfl
      · rcases includes_kind hsingle hab with rfl | ⟨c, rfl, hc⟩
        · rfl
        · cases c <;> exact Kind.noConfusion hc
    | _ => exact hstring
  | constant c =>
    rcases single_of_includes rfl hb hab with rfl | hsingle
    · rfl
    · obtain ⟨d, rfl, hsame⟩ := includes_constant hsingle hab
      rw [toText, toText, constantText_of_same hsame]
      exact includes_self trivial rfl
  | union ts => exact Bool.noConfusion ha

/-- The conversions to numbers and to strings keep inclusion wherever they do not fail: a type that
covers another one for certain converts to one that covers what the other converts to. -/
theorem conversions_mono {a b : Ty} (h : covers a b = .yes) :
    (a.toNumber ≠ error → b.toNumber ≠ error → covers a.toNumber b.toNumber = .yes) ∧
      (a.toText ≠ error → b.toText ≠ error → covers a.toText b.toText = .yes) := by
  simp only [← Certainty.isYes_iff] at h ⊢
  exact ⟨retraction_toNumber.includes_convert includes_toNumber_alone h,
    retraction_toText.includes_convert includes_toText_alone h⟩

/-- Null, zero or true covers the negative zero or true; as numbers and as strings the zeros are
the same. -/
theorem conversions_mono_zeros :
    let a := union [null, constant (.float 0), constant (.bool true)]
    let b := union [constant (.float (-0)), constant (.bool true)]
    covers a b = .yes ∧
      a.toNumber = union [constant (.int 0), constant (.float 0), constant (.int 1)] ∧
      b.toNumber = union [constant (.float (-0)), constant (.int 1)] ∧
      covers a.toNumber b.toNumber = .yes ∧
      b.toText = union [constant (.string "0"), constant (.string "1")] ∧
      covers a.toText b.toText = .yes := by
  intro a b
  have hab : covers a b = .yes := by decide
  have ha : a.toNumber = union [constant (.int 0), constant (.float 0), constant (.int 1)] := rfl
  have hb : b.toNumber = union [constant (.float (-0)), constant (.int 1)] := rfl
  have htext : b.toText = union [constant (.string "0"), constant (.string "1")] := rfl
  have hmono := conversions_mono hab
  refine ⟨hab, ha, hb, hmono.1 ?_ ?_, htext, hmono.2 ?_ ?_⟩
  · exact Ty.noConfusion
  · exact Ty.noConfusion
  · exact Ty.noConfusion
  · exact Ty.noConfusion

/-- Converting a type to a number or to a string fails exactly when it fails for a member. Otherwise
it gives integers and doubles, or strings; converting once more changes nothing, and types in normal
form of these kinds are left alone. -/
theorem conversions_settle (t : Ty) :
    SettledBy toNumber (union [int, float]) t ∧ SettledBy toText string t := by
  rw [← number_eq]
  exact ⟨retraction_toNumber.settledBy t, retraction_toText.settledBy t⟩

end OperatorLint.Ty
