import OperatorLint.Proofs.Constants
import OperatorLint.Proofs.Join
import OperatorLint.Ty.Coercion

/-!
# When conversions fail

A conversion fails exactly with a member that fails to convert, and what it gives is in normal
form. A type that converts to one constant number has no member that converts to another one:
this is what lets an operation that fails on a constant fail on every member behind it.
-/

namespace OperatorLint.Ty

/-- The integers and the doubles are in normal form. -/
theorem normal_number : Normal number := by
  rw [number_eq, normal_union]
  refine ⟨?_, by simp, by decide⟩
  intro t ht
  rcases List.mem_pair.mp ht with rfl | rfl <;> trivial

/-- A numeral denotes a constant integer or its double. -/
theorem ofNumeral_cases (n : Numeral) :
    (∃ value, ofNumeral n = constant (.int value)) ∨ ofNumeral n = constant (.float n.toFloat) := by
  unfold ofNumeral
  split
  · exact Or.inl ⟨_, rfl⟩
  · exact Or.inr rfl

/-- A text fails to convert or denotes the number of a numeral. -/
theorem constantToNumber_string (text : String) :
    constantToNumber (.string text) = error ∨
      ∃ n, constantToNumber (.string text) = ofNumeral n := by
  simp only [constantToNumber, parseNumeric]
  cases Numeral.read? text with
  | none => exact Or.inl rfl
  | some n => exact Or.inr ⟨n, rfl⟩

/-- A constant converts to a constant number or fails to convert. -/
theorem constantToNumber_cases (c : Constant) :
    constantToNumber c = error ∨ ∃ d, constantToNumber c = constant d := by
  cases c with
  | string text =>
    rcases constantToNumber_string text with he | ⟨n, hn⟩
    · exact Or.inl he
    · rw [hn]
      rcases ofNumeral_cases n with ⟨value, hvalue⟩ | hfloat
      · exact Or.inr ⟨_, hvalue⟩
      · exact Or.inr ⟨_, hfloat⟩
  | _ => exact Or.inr ⟨_, rfl⟩

/-- What a type that is no union converts to: the empty type, a failure, a number of unknown
value, or a constant number. -/
theorem toNumber_cases {t : Ty} (h : t.isUnion = false) :
    t = never ∧ toNumber t = never ∨ toNumber t = error ∨ toNumber t = int ∨
      toNumber t = float ∨ toNumber t = number ∨ ∃ c, toNumber t = constant c := by
  cases t with
  | never => exact Or.inl ⟨rfl, rfl⟩
  | constant c =>
    rcases constantToNumber_cases c with he | hc
    · simp [toNumber, he]
    · simp [toNumber, hc]
  | kind k => cases k <;> simp [toNumber, kindToNumber]
  | union ts => simp [isUnion] at h
  | _ => simp [toNumber]

/-- A conversion that goes through a union member by member and gives normal forms. -/
structure Memberwise (convert : Ty → Ty) : Prop where
  /-- A union converts to the join of its converted members. -/
  union : ∀ ts, convert (.union ts) = join (ts.map convert)
  /-- Every other type converts to a type in normal form. -/
  alone : ∀ t, t.isUnion = false → Normal (convert t)

namespace Memberwise

variable {convert : Ty → Ty} (h : Memberwise convert)

include h

/-- Every type converts to a type in normal form. -/
theorem normal (t : Ty) : Normal (convert t) := by
  induction t using unionInduction with
  | alone t ht => exact h.alone t ht
  | union ts ih =>
    rw [h.union]
    exact normal_join (List.forall_mem_map.mpr ih)

/-- The types that the types of a list convert to are in normal form. -/
theorem normal_map (ts : List Ty) : ∀ u ∈ ts.map convert, Normal u :=
  List.forall_mem_map.mpr fun t _ => h.normal t

/-- A type fails to convert exactly when a member does. -/
theorem eq_error {t : Ty} : convert t = error ↔ ∃ m ∈ t.members, convert m = error := by
  cases t with
  | union ts =>
    rw [h.union, join_eq_error (h.normal_map ts), List.mem_map]
    rfl
  | _ => simp [members]

end Memberwise

/-- Numbers are found member by member. -/
theorem memberwise_toNumber : Memberwise toNumber where
  union := toNumber_union
  alone t ht := by
    cases t with
    | mixed => exact normal_number
    | kind k =>
      cases k with
      | string => exact normal_number
      | _ => trivial
    | constant c =>
      rcases constantToNumber_cases c with he | ⟨d, hd⟩
      · rw [toNumber, he]
        trivial
      · rw [toNumber, hd]
        trivial
    | union ts => exact Bool.noConfusion ht
    | _ => trivial

/-- Strings are found member by member. -/
theorem memberwise_toText : Memberwise toText where
  union := toText_union
  alone t ht := by
    cases t with
    | kind k => cases k <;> trivial
    | object className stringable => cases stringable <;> trivial
    | union ts => exact Bool.noConfusion ht
    | _ => trivial

/-- Every number that a type converts to is in normal form. -/
theorem normal_toNumber (t : Ty) : Normal (toNumber t) := memberwise_toNumber.normal t

/-- Every string that a type converts to is in normal form. -/
theorem normal_toText (t : Ty) : Normal (toText t) := memberwise_toText.normal t

/-- A type fails to become a number exactly when a member does. -/
theorem toNumber_eq_error {t : Ty} : toNumber t = error ↔ ∃ m ∈ t.members, toNumber m = error :=
  memberwise_toNumber.eq_error

/-- A type fails to become a string exactly when a member does. -/
theorem toText_eq_error {t : Ty} : toText t = error ↔ ∃ m ∈ t.members, toText m = error :=
  memberwise_toText.eq_error

/-- A constant includes a single type only when that is the same constant. -/
theorem includes_constant {c : Constant} {t : Ty} (ht : t.isSingle = true)
    (h : includes (constant c) t = true) : ∃ d, t = constant d ∧ c.same d = true := by
  cases t with
  | constant d =>
    refine ⟨d, rfl, ?_⟩
    cases hs : c.same d with
    | true => rfl
    | false =>
      simp [includes, covers, onMembers, constantCovers, Certainty.isYes, Certainty.ofBool, hs] at h
  | kind k =>
    by_cases hc : c.kind = k <;>
      simp [includes, covers, onMembers, constantCovers, Certainty.isYes, hc] at h
  | array => simp [includes, covers, onMembers, constantCovers, Certainty.isYes] at h
  | object => simp [includes, covers, onMembers, constantCovers, Certainty.isYes] at h
  | mixed | never | error | union => simp [isSingle] at ht

/-- The type is a given constant or one that is the same value. -/
def Alike (c : Constant) (t : Ty) : Prop := ∃ d, t = constant d ∧ (d = c ∨ c.same d = true)

/-- Being alike to a constant passes down. -/
theorem passesDown_alike (c : Constant) : PassesDown (Alike c) := by
  rintro a b _ hb hi ⟨d, rfl, hd⟩
  obtain ⟨e, rfl, he⟩ := includes_constant hb hi
  refine ⟨e, rfl, Or.inr ?_⟩
  rcases hd with rfl | hd
  · exact he
  · exact Constant.same_trans hd he

/-- A type in normal form that converts to a constant number has only members that convert to
that number. -/
theorem alike_of_toNumber {t : Ty} (h : Normal t) {c : Constant}
    (hc : toNumber t = constant c) : ∀ m ∈ t.members, Alike c (toNumber m) := by
  intro m hm
  cases t with
  | union ts =>
    have hsingle := (normal_union.mp h).2.2.single m hm
    rw [toNumber_union] at hc
    have hnormal := memberwise_toNumber.normal_map ts
    have hjoined : ∀ u ∈ (join (ts.map toNumber)).members, Alike c u := by
      intro u hu
      rw [hc] at hu
      exact ⟨c, List.mem_singleton.mp hu, Or.inl rfl⟩
    have hall := forall_of_join (passesDown_alike c) hnormal (by rw [hc]; exact Ty.noConfusion)
      (by rw [hc]; exact Ty.noConfusion) hjoined (toNumber m) (List.mem_map_of_mem hm)
    rcases toNumber_cases (isUnion_of_isSingle hsingle) with ⟨rfl, _⟩ | he | he | he | he | ⟨d, he⟩
    · exact Bool.noConfusion hsingle
    · exact absurd (join_eq_error hnormal |>.mpr (he ▸ List.mem_map_of_mem hm)) (by simp [hc])
    · exact hall _ (by simp [he, members]) (by simp [he])
    · exact hall _ (by simp [he, members]) (by simp [he])
    · obtain ⟨d, hd, _⟩ := hall int (by simp [he, number_eq, members]) (by simp)
      exact Ty.noConfusion hd
    · exact hall _ (by simp [he, members]) (by simp [he])
  | _ =>
    rw [List.mem_singleton.mp hm]
    exact ⟨c, hc, Or.inl rfl⟩

end OperatorLint.Ty
