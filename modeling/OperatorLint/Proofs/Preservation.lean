import OperatorLint.Proofs.Failure
import OperatorLint.Typing

/-!
# Typing stays in normal form

Operations on types in normal form have a result in normal form, and in a scope that binds only
such types every expression has one. No hypothesis is made on the expression: array literals,
undefined variables and failing operations are included.
-/

namespace OperatorLint

namespace Operation

open Ty (Normal)

/-- Arithmetic gives a type in normal form. -/
theorem normal_arithmetic (op : Arithmetic) (left right : Ty) :
    Normal (arithmetic op left right) := by
  unfold arithmetic onNumbers
  split
  · trivial
  · split
    · trivial
    · trivial
    · unfold numberKind
      split
      · trivial
      · split
        · trivial
        · exact Ty.normal_number

/-- An operator on whole numbers gives a type in normal form. -/
theorem normal_integral (op : Integral) (left right : Ty) : Normal (integral op left right) := by
  unfold integral onIntegers
  split
  · trivial
  · split
    · split
      · trivial
      · trivial
    · split
      · trivial
      · trivial

/-- Concatenation gives a type in normal form. -/
theorem normal_concat (left right : Ty) : Normal (concat left right) := by
  unfold concat concatTexts
  split
  · trivial
  · split
    · trivial
    · trivial

/-- A bitwise operator gives a type in normal form. -/
theorem normal_bitwise (op : Integral) (left right : Ty) : Normal (bitwise op left right) := by
  unfold bitwise
  split
  · trivial
  · exact normal_integral op left right

/-- The parts of an array member in normal form are in normal form and no failures. -/
theorem normal_parts {t : Ty} (h : Normal t) {parts : Ty × Ty}
    (hparts : parts ∈ t.members.filterMap arrayParts?) :
    Normal parts.1 ∧ Normal parts.2 ∧ parts.1 ≠ .error ∧ parts.2 ≠ .error := by
  obtain ⟨m, hm, hmp⟩ := List.mem_filterMap.mp hparts
  have hnormal := h.of_mem hm
  cases m with
  | array key item =>
    cases hmp
    obtain ⟨hkey, hitem, hke, hie⟩ := hnormal
    have hk : key ≠ .error := fun he => Bool.false_ne_true (hke ▸ Ty.isError_iff.mpr he)
    have hi : item ≠ .error := fun he => Bool.false_ne_true (hie ▸ Ty.isError_iff.mpr he)
    exact ⟨hkey, hitem, hk, hi⟩
  | _ => exact absurd hmp (by simp [arrayParts?])

/-- Merged arrays are in normal form when all their parts are in normal form and no failures. -/
theorem normal_mergeArrays {parts : List (Ty × Ty)} (h : ∀ p ∈ parts,
    Normal p.1 ∧ Normal p.2 ∧ p.1 ≠ .error ∧ p.2 ≠ .error) : Normal (mergeArrays parts) := by
  have hkeys : ∀ t ∈ parts.map Prod.fst, Normal t := by
    intro t ht
    obtain ⟨p, hp, rfl⟩ := List.mem_map.mp ht
    exact (h p hp).1
  have hitems : ∀ t ∈ parts.map Prod.snd, Normal t := by
    intro t ht
    obtain ⟨p, hp, rfl⟩ := List.mem_map.mp ht
    exact (h p hp).2.1
  have hkey : (Ty.join (parts.map Prod.fst)).isError = false := by
    rw [Bool.eq_false_iff, Ne, Ty.isError_iff, Ty.join_eq_error hkeys]
    rintro he
    obtain ⟨p, hp, hpe⟩ := List.mem_map.mp he
    exact (h p hp).2.2.1 hpe
  have hitem : (Ty.join (parts.map Prod.snd)).isError = false := by
    rw [Bool.eq_false_iff, Ne, Ty.isError_iff, Ty.join_eq_error hitems]
    rintro he
    obtain ⟨p, hp, hpe⟩ := List.mem_map.mp he
    exact (h p hp).2.2.2 hpe
  exact ⟨Ty.normal_join hkeys, Ty.normal_join hitems, hkey, hitem⟩

/-- Addition gives a type in normal form. -/
theorem normal_plus {left right : Ty} (hl : Normal left) (hr : Normal right) :
    Normal (plus left right) := by
  by_cases harrays : left.members.all isArray = true ∧ right.members.all isArray = true
  · rw [plus_of_arrays harrays]
    apply normal_mergeArrays
    intro p hp
    rcases List.mem_append.mp hp with hp | hp
    · exact normal_parts hl hp
    · exact normal_parts hr hp
  · rw [plus_of_not_arrays harrays]
    exact normal_arithmetic _ left right

/-- Falling back gives a type in normal form. -/
theorem normal_coalesce {left right : Ty} (hl : Normal left) (hr : Normal right) :
    Normal (coalesce left right) := by
  unfold coalesce
  split
  · exact hr
  · apply Ty.normal_join
    intro t ht
    rcases List.mem_pair.mp ht with rfl | rfl
    · exact Ty.normal_withoutNull hl
    · exact hr

end Operation

open Operation in
/-- A computing operator gives a type in normal form. -/
theorem Computation.normal_result (op : Computation) {left right : Ty} (hl : left.Normal)
    (hr : right.Normal) : (op.result left right).Normal := by
  cases op with
  | plus => exact normal_plus hl hr
  | minus | mul | div | pow => exact normal_arithmetic _ left right
  | mod | shiftLeft | shiftRight => exact normal_integral _ left right
  | concat => exact normal_concat left right
  | bitwiseAnd | bitwiseOr | bitwiseXor => exact normal_bitwise _ left right
  | coalesce => exact normal_coalesce hl hr

/-- Every operation gives a type in normal form. -/
theorem Operator.normal_result (op : Operator) {left right : Ty} (hl : left.Normal)
    (hr : right.Normal) : (op.result left right).Normal := by
  cases op with
  | compute op => exact op.normal_result hl hr
  | assign op => exact op.normal_result hl hr
  | connect op => trivial
  | compare op => cases op <;> trivial

/-- The scope binds only types in normal form. -/
def Scope.Normal (s : Scope) : Prop := ∀ b ∈ s.bindings, b.type.Normal

instance (s : Scope) : Decidable s.Normal :=
  inferInstanceAs (Decidable (∀ b ∈ s.bindings, b.type.Normal))

/-- A variable of a scope in normal form has a type in normal form. -/
theorem Scope.Normal.typeOf? {s : Scope} (h : s.Normal) {name : String} {t : Ty}
    (ht : s.typeOf? name = some t) : t.Normal := by
  unfold Scope.typeOf? at ht
  obtain ⟨b, hb, rfl⟩ := Option.map_eq_some_iff.mp ht
  obtain ⟨hfind, _⟩ := Option.filter_eq_some_iff.mp hb
  exact h b (List.mem_of_find?_eq_some hfind)

namespace Expr

/-- An array literal of items in normal form has a type in normal form. -/
theorem normal_listType {ts : List Ty} (h : ∀ t ∈ ts, t.Normal) : (listType ts).Normal := by
  unfold listType
  split
  · exact ⟨trivial, trivial, rfl, rfl⟩
  · split
    · trivial
    · next herror =>
      exact ⟨trivial, Ty.normal_join h, rfl, by simpa using herror⟩

/-- In a scope that binds types in normal form every expression has a type in normal form. -/
theorem normal_typeIn {α : Type} {scope : Scope} (h : scope.Normal) (e : Expr α) :
    (e.typeIn scope).Normal := by
  induction e using Expr.rec
    (motive_2 := fun es => Ty.NormalEach (typeInEach scope es)) with
  | var _ name =>
    rw [typeIn]
    cases ht : scope.typeOf? name with
    | none => trivial
    | some t => exact h.typeOf? ht
  | constant | null => trivial
  | list _ items ih => exact normal_listType (Ty.normalEach_iff.mp ih)
  | paren _ _ ih => exact ih
  | binary _ _ op _ ihl ihr => exact op.normal_result ihl ihr
  | nil => trivial
  | cons _ _ ihe ihes => exact ⟨ihe, ihes⟩

end Expr

end OperatorLint
