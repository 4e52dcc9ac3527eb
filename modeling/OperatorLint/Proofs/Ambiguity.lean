import OperatorLint.Proofs.Decision
import OperatorLint.Proofs.Preservation
import OperatorLint.Proofs.Readings

/-!
# What is reported of operators with two readings

Narrowing knows one reading of addition, the numbers, and keeps arrays only where nothing becomes
a number. Of the bitwise operators it knows both readings and keeps members of either. On types
that mix the readings the narrowed operation then fails although single pairs of members could be
combined. The conditions are exact: they say for all types in normal form what is reported. What
the left operand of a bitwise operator says about the right one never rules the numbers out there.
-/

namespace OperatorLint.Operands

open Operation
open Strictness (isUnknown)
open Ty (Normal)

variable {s : Strictness} {op : Operator} {p : Ty → Bool} {left right : Ty}

/-- An operation with two readings is reported when neither reading is that of everything that is
checked. -/
theorem reported_of_reads (hreads : op.Reads p) (hl : Normal left) (hr : Normal right) :
    reported s op left right = true ↔
      (isUnknown (s.stripped left) = false ∧ isUnknown (s.stripped right) = false) ∧
        ¬ ((leftPart s op left).Each p ∧ (rightPart s op left right).Each p) ∧
          ¬ ((leftPart s op left).Each isNumeric ∧ (rightPart s op left right).Each isNumeric) := by
  rw [reported_iff hl hr, ← hreads]
  constructor
  · rintro ⟨hknown, _, hnarrowed⟩
    exact ⟨hknown, hnarrowed⟩
  · rintro ⟨hknown, hnarrowed⟩
    have hleft : (leftPart s op left).members ⊆ left.members :=
      Strictness.members_narrow_subset hl hknown.1
    have hright : (rightPart s op left right).members ⊆ right.members :=
      Strictness.members_narrow_subset hr hknown.2
    exact ⟨hknown, hreads.result_of_subset hleft hright hnarrowed, hnarrowed⟩

/-- What is checked of an operand of addition is made of numbers once some member becomes one. -/
theorem each_isNumeric_narrow (hunions : s.unions = false) {t : Ty} (h : Normal t)
    (hknown : isUnknown (s.stripped t) = false) :
    (s.narrow isNumeric t).Each isNumeric ↔ (s.stripped t).Has isNumeric := by
  rw [Strictness.each_narrow_iff h hunions hknown (fun _ _ hm => hm)]
  exact and_iff_left (fun _ _ hm => hm)

/-- What is checked of an operand of addition is made of arrays when the operand is. -/
theorem each_isArray_narrow (hunions : s.unions = false) {t : Ty} (h : Normal t)
    (hknown : isUnknown (s.stripped t) = false) :
    (s.narrow isNumeric t).Each isArray ↔ (s.stripped t).Each isArray := by
  apply Strictness.each_narrow_of_rejected h hunions hknown
  intro m _ hm
  cases m with
  | array key item => rfl
  | _ => exact Bool.noConfusion hm

/-- Arrays stand on both sides, not all of both sides is arrays, and no member of the one side can
be added to one of the other as a number. -/
def Tangled (left right : Ty) : Prop :=
  (left.Has isArray ∧ right.Has isArray) ∧ ¬ (left.Each isArray ∧ right.Each isArray) ∧
    ¬ (left.Has isNumeric ∧ right.Has isNumeric)

instance (left right : Ty) : Decidable (Tangled left right) :=
  inferInstanceAs (Decidable (_ ∧ _ ∧ _))

/-- Tangled operands have arrays that can be added. -/
theorem Tangled.not_hopeless (h : Tangled left right) (hop : op.base = .compute .plus)
    (hl : Normal left) (hr : Normal right) : ¬ op.Hopeless left right := by
  rw [(Operator.reads_plus hop).hopeless_iff hl hr]
  exact fun hhopeless => hhopeless.1 h.1

/-- Something is known about a type with arrays. -/
theorem isUnknown_of_has_isArray {t : Ty} (h : t.Has isArray) : isUnknown t = false := by
  obtain ⟨m, hm, hma⟩ := h
  cases t with
  | mixed | error | never =>
    rw [List.mem_singleton.mp hm] at hma
    exact Bool.noConfusion hma
  | _ => rfl

/-- Addition is reported when something is known about both operands and no two members can be
added, or the arrays among them are tangled with members that become no numbers. -/
theorem reported_plus_iff (hunions : s.unions = false) (hop : op.base = .compute .plus)
    (hl : Normal left) (hr : Normal right) :
    reported s op left right = true ↔
      (isUnknown (s.stripped left) = false ∧ isUnknown (s.stripped right) = false) ∧
        (op.Hopeless (s.stripped left) (s.stripped right) ∨
          Tangled (s.stripped left) (s.stripped right)) := by
  have hcategory : op.category = .default := Operator.category_of_base hop
  have hleft : leftPart s op left = s.narrow isNumeric left := by rw [leftPart, hcategory]; rfl
  have hright : rightPart s op left right = s.narrow isNumeric right := by
    rw [rightPart, hcategory]
    rfl
  have hreads := Operator.reads_plus hop
  have hls : Normal (s.stripped left) := Strictness.normal_stripped s hl
  have hrs : Normal (s.stripped right) := Strictness.normal_stripped s hr
  rw [reported_of_reads hreads hl hr, hleft, hright, hreads.hopeless_iff hls hrs]
  refine and_congr_right ?_
  rintro ⟨hkl, hkr⟩
  rw [each_isNumeric_narrow hunions hl hkl, each_isNumeric_narrow hunions hr hkr,
    each_isArray_narrow hunions hl hkl, each_isArray_narrow hunions hr hkr, Tangled]
  have hhas (hall : (s.stripped left).Each isArray ∧ (s.stripped right).Each isArray) :
      (s.stripped left).Has isArray ∧ (s.stripped right).Has isArray :=
    ⟨hall.1.has hls, hall.2.has hrs⟩
  tauto

/-- Addition is reported exactly when something is known about both operands and either no two
members can be added or arrays that could be are tangled with members that become no numbers;
so a report is true of every pair of members exactly when the operands are not tangled. -/
theorem addition_reported_iff {scope : Scope} (hscope : scope.Normal) (nullables : Bool)
    {op : Operator} (hop : op.base = .compute .plus) (origin : Origin) (left right : Expr Origin) :
    let s : Strictness := ⟨nullables, false⟩
    let l := s.stripped (left.typeIn scope)
    let r := s.stripped (right.typeIn scope)
    let found := (Rule.operands .reference s).inspect scope (.binary origin left op right)
    (found ≠ [] ↔ (isUnknown l = false ∧ isUnknown r = false) ∧ (op.Hopeless l r ∨ Tangled l r)) ∧
      ((found ≠ [] → op.Hopeless l r) ↔ ¬ Tangled l r) := by
  intro s l r found
  have hl : Normal (left.typeIn scope) := left.normal_typeIn hscope
  have hr : Normal (right.typeIn scope) := right.normal_typeIn hscope
  have hfound : found ≠ [] ↔
      (isUnknown l = false ∧ isUnknown r = false) ∧ (op.Hopeless l r ∨ Tangled l r) :=
    (inspect_ne_nil_iff s scope origin left right op).trans (reported_plus_iff rfl hop hl hr)
  refine ⟨hfound, ?_⟩
  rw [hfound]
  constructor
  · intro htrue htangled
    have hkl := isUnknown_of_has_isArray htangled.1.1
    have hkr := isUnknown_of_has_isArray htangled.1.2
    have hhopeless := htrue ⟨⟨hkl, hkr⟩, Or.inr htangled⟩
    exact htangled.not_hopeless hop (Strictness.normal_stripped s hl)
      (Strictness.normal_stripped s hr) hhopeless
  · rintro hnot ⟨_, hhopeless | htangled⟩
    · exact hhopeless
    · exact absurd htangled hnot

/-- A bitwise operator can work with a member of this type. -/
def isWorkable (t : Ty) : Bool := isString t || isNumeric t

/-- A single type is accepted by a bitwise operator for the readings that are left open. -/
theorem accepts_bitwise {m : Ty} (hm : m.isSingle = true) (c : Certainty) :
    Category.bitwise.accepts c m = (!c.isNo && isString m || !c.isYes && isNumeric m) := by
  have hstring : (m.covers .string).isNo = !isString m := by
    have hno := Ty.covers_string_of_isSingle hm
    rw [← Certainty.isNo_iff] at hno
    cases h : isString m with
    | true =>
      rw [h] at hno
      exact Bool.eq_false_iff.mpr fun hcovers => Bool.noConfusion (hno.mp hcovers)
    | false => exact hno.mpr h
  rw [Category.accepts, hstring, Bool.not_not, isNumeric]

/-- The addition of an integer or an array and an array is reported, and the operands are
tangled. -/
theorem addition_reported_of_tangled :
    let scope := pairScope (.union [.int, .array .mixed .mixed]) (.array .mixed .mixed)
    scope.Normal ∧ (Operator.assign .plus).base = .compute .plus ∧
      (Rule.operands .reference ⟨false, false⟩).inspect scope (pairExpr (.assign .plus)) ≠ [] := by
  intro scope
  have hscope : scope.Normal := by decide
  have hexact := @addition_reported_iff scope hscope false (.assign .plus) rfl (.written ⟨0, 5⟩)
    pairLeft pairRight
  exact ⟨hscope, rfl, hexact.1.mpr ⟨⟨by decide, by decide⟩, Or.inr (by decide)⟩⟩

/-- The addition of an integer or an array and an array is reported, though arrays can be added. -/
theorem addition_reported_not_hopeless :
    let scope := pairScope (.union [.int, .array .mixed .mixed]) (.array .mixed .mixed)
    let s : Strictness := ⟨false, false⟩
    scope.Normal ∧
      (Rule.operands .reference s).inspect scope (pairExpr (.compute .plus)) ≠ [] ∧
        ¬ (Operator.compute .plus).Hopeless (s.stripped (pairLeft.typeIn scope))
          (s.stripped (pairRight.typeIn scope)) := by
  intro scope s
  refine ⟨by decide, ?_, by decide⟩
  exact (inspect_ne_nil_iff s scope _ pairLeft pairRight _).mpr (by decide)

/-- Strings are workable. -/
theorem isWorkable_of_isString {m : Ty} (h : isString m = true) : isWorkable m = true :=
  Bool.or_eq_true_iff.mpr (Or.inl h)

/-- Numbers are workable. -/
theorem isWorkable_of_isNumeric {m : Ty} (h : isNumeric m = true) : isWorkable m = true :=
  Bool.or_eq_true_iff.mpr (Or.inr h)

/-- The strings that are no numbers. -/
def isBareString (t : Ty) : Bool := isString t && !isNumeric t

/-- The numbers that are no strings. -/
def isBareNumber (t : Ty) : Bool := isNumeric t && !isString t

/-- The left type has strings, and between them the two types have strings that are no numbers
and numbers that are no strings. -/
def Ambiguous (left right : Ty) : Prop :=
  left.Has isString ∧ (left.Has isBareString ∨ right.Has isBareString) ∧
    (left.Has isBareNumber ∨ right.Has isBareNumber)

instance (left right : Ty) : Decidable (Ambiguous left right) :=
  inferInstanceAs (Decidable (_ ∧ _ ∧ _))

/-- The members that a bitwise operator can work with are the strings and the numbers. -/
theorem has_isWorkable {t : Ty} : t.Has isWorkable ↔ t.Has isString ∨ t.Has isNumeric := by
  simp only [Ty.Has, isWorkable, Bool.or_eq_true, and_or_left, exists_or]

/-- A type with strings has strings that are no numbers, or numbers. -/
theorem has_isString {t : Ty} (h : t.Has isString) : t.Has isBareString ∨ t.Has isNumeric := by
  obtain ⟨m, hm, hms⟩ := h
  cases hmn : isNumeric m with
  | true => exact Or.inr ⟨m, hm, hmn⟩
  | false => exact Or.inl ⟨m, hm, by rw [isBareString, hms, hmn]; rfl⟩

/-- A type with numbers has numbers that are no strings, or strings. -/
theorem has_isNumeric {t : Ty} (h : t.Has isNumeric) : t.Has isBareNumber ∨ t.Has isString := by
  obtain ⟨m, hm, hmn⟩ := h
  cases hms : isString m with
  | true => exact Or.inr ⟨m, hm, hms⟩
  | false => exact Or.inl ⟨m, hm, by rw [isBareNumber, hms, hmn]; rfl⟩

/-- What is checked of an operand of both readings is made of strings when it has workable members
and all of them are strings. -/
theorem each_isString_narrow (hunions : s.unions = false) {t : Ty} (h : Normal t)
    (hknown : isUnknown (s.stripped t) = false) :
    (s.narrow isWorkable t).Each isString ↔
      (s.stripped t).Has isWorkable ∧ ¬ (s.stripped t).Has isBareNumber := by
  rw [Strictness.each_narrow_iff h hunions hknown
    (fun _ _ hm => isWorkable_of_isString hm)]
  refine and_congr_right fun _ => ?_
  simp only [Ty.Has, isBareNumber, isWorkable, Bool.or_eq_true, Bool.and_eq_true,
    Bool.not_eq_true', ← Bool.not_eq_true, not_exists, not_and, not_not]
  exact forall₂_congr fun m _ => by tauto

/-- What is checked of an operand of both readings is made of numbers when it has workable members
and all of them are numbers. -/
theorem each_isNumeric_narrow_isWorkable (hunions : s.unions = false) {t : Ty} (h : Normal t)
    (hknown : isUnknown (s.stripped t) = false) :
    (s.narrow isWorkable t).Each isNumeric ↔
      (s.stripped t).Has isWorkable ∧ ¬ (s.stripped t).Has isBareString := by
  rw [Strictness.each_narrow_iff h hunions hknown
    (fun _ _ hm => isWorkable_of_isNumeric hm)]
  refine and_congr_right fun _ => ?_
  simp only [Ty.Has, isBareString, isWorkable, Bool.or_eq_true, Bool.and_eq_true,
    Bool.not_eq_true', ← Bool.not_eq_true, not_exists, not_and, not_not]
  exact forall₂_congr fun m _ => by tauto

/-- With strings on the left and something workable on the right, neither reading is that of all
workable members when no reading has members on both sides, or the readings are ambiguous. -/
theorem fails_iff_of_isString (hstring : left.Has isString) (hwork : right.Has isWorkable) :
    ¬ ((left.Has isWorkable ∧ ¬ left.Has isBareNumber) ∧
          right.Has isWorkable ∧ ¬ right.Has isBareNumber) ∧
        ¬ ((left.Has isWorkable ∧ ¬ left.Has isBareString) ∧
          right.Has isWorkable ∧ ¬ right.Has isBareString) ↔
      ¬ (left.Has isString ∧ right.Has isString) ∧ ¬ (left.Has isNumeric ∧ right.Has isNumeric) ∨
        Ambiguous left right := by
  have hleft : left.Has isWorkable := has_isWorkable.mpr (Or.inl hstring)
  simp only [Ambiguous, hleft, hwork, hstring, true_and, not_and_or, not_not]
  constructor
  · exact fun h => Or.inr h.symm
  · rintro (⟨hnostring, hnonumeric⟩ | h)
    · have hnumeric := (has_isWorkable.mp hwork).resolve_left hnostring
      have hleftnumeric := hnonumeric.resolve_right (not_not.mpr hnumeric)
      exact ⟨Or.inr ((has_isNumeric hnumeric).resolve_right hnostring),
        Or.inl ((has_isString hstring).resolve_right hleftnumeric)⟩
    · exact h.symm

/-- With both readings left open the members of either are checked. -/
theorem narrow_accepts_bitwise {t : Ty} (h : Normal t)
    (hknown : isUnknown (s.stripped t) = false) :
    s.narrow (Category.bitwise.accepts .maybe) t = s.narrow isWorkable t := by
  apply Strictness.narrow_congr
  intro m hm
  exact accepts_bitwise
    (Strictness.isSingle_of_mem (Strictness.normal_stripped s h) hknown hm) .maybe

/-- What is checked of an operand of both readings is never bound to be read byte by byte: where the
type of all strings is left, every other member becomes a number. -/
theorem bytewise_narrow_ne_yes (hunions : s.unions = false) {t : Ty} (h : Normal t)
    (hknown : isUnknown (s.stripped t) = false) : (s.narrow isWorkable t).bytewise ≠ .yes := by
  apply Ty.bytewise_ne_yes (Strictness.normal_narrow h) (Strictness.isSingle_of_mem_narrow h hknown)
  intro hstring m hm
  obtain ⟨k, hk, hks⟩ := (Strictness.has_narrow_iff h hunions hknown
    (fun _ _ hms => isWorkable_of_isString hms)).mp hstring
  rw [Strictness.members_narrow h hunions hknown ⟨k, hk, isWorkable_of_isString hks⟩] at hm
  exact Bool.or_eq_true_iff.mp (List.mem_filter.mp hm).2

/-- A type that becomes a number is accepted unless the numbers are ruled out. -/
theorem accepts_of_toNumber {c : Certainty} (hc : c ≠ .yes) {t : Ty} (ht : t.toNumber ≠ .error) :
    Category.bitwise.accepts c t = true := by
  have hopen : c.isYes = false := decide_eq_false hc
  have hnumber : t.toNumber.isError = false := by
    rw [← Bool.not_eq_true, Ty.isError_iff]
    exact ht
  simp only [Category.accepts, hopen, hnumber, Bool.not_false, Bool.and_true, Bool.or_true]

section Bitwise

variable (hop : op.category = .bitwise)

include hop

/-- Of the left operand of a bitwise operator the members of both readings are checked. -/
theorem leftPart_bitwise (hl : Normal left) (hknown : isUnknown (s.stripped left) = false) :
    leftPart s op left = s.narrow isWorkable left := by
  rw [leftPart, hop]
  exact narrow_accepts_bitwise hl hknown

/-- The right operand of a bitwise operator is asked for numbers alone when the left one has
numbers and no strings, and for both readings otherwise. -/
theorem bytewise_leftPart (hunions : s.unions = false) (hl : Normal left)
    (hknown : isUnknown (s.stripped left) = false) :
    bytewise op (leftPart s op left) =
      if ¬ (s.stripped left).Has isString ∧ (s.stripped left).Has isNumeric then .no
      else .maybe := by
  have hsingle := @Strictness.isSingle_of_mem_narrow s isWorkable left hl hknown
  have hstring : (s.narrow isWorkable left).Has isString ↔ (s.stripped left).Has isString :=
    Strictness.has_narrow_iff hl hunions hknown (fun _ _ hm => isWorkable_of_isString hm)
  have hnumeric : (s.narrow isWorkable left).Has isNumeric ↔ (s.stripped left).Has isNumeric :=
    Strictness.has_narrow_iff hl hunions hknown (fun _ _ hm => isWorkable_of_isNumeric hm)
  rw [leftPart_bitwise hop hl hknown, bytewise, if_pos hop]
  by_cases hno : ¬ (s.stripped left).Has isString ∧ (s.stripped left).Has isNumeric
  · rw [if_pos hno, Ty.bytewise_eq_no hsingle, hstring]
    refine ⟨hno.1, ?_⟩
    rw [Strictness.each_narrow_iff hl hunions hknown (fun _ _ hm => isWorkable_of_isNumeric hm)]
    obtain ⟨m, hm, hmn⟩ := hno.2
    refine ⟨⟨m, hm, isWorkable_of_isNumeric hmn⟩, ?_⟩
    intro k hk hkw
    rcases Bool.or_eq_true_iff.mp hkw with hks | hkn
    · exact absurd ⟨k, hk, hks⟩ hno.1
    · exact hkn
  · rw [if_neg hno]
    have hnot : (s.narrow isWorkable left).bytewise ≠ .no := by
      rw [Ne, Ty.bytewise_eq_no hsingle, hstring]
      rintro ⟨hs, heach⟩
      exact hno ⟨hs, hnumeric.mp (heach.has (Strictness.normal_narrow hl))⟩
    have hyes := bytewise_narrow_ne_yes hunions hl hknown
    cases h : (s.narrow isWorkable left).bytewise with
    | yes => exact absurd h hyes
    | no => exact absurd h hnot
    | maybe => rfl

/-- Of the right operand of a bitwise operator the numbers are checked when the left one has
numbers and no strings, and the members of both readings otherwise. -/
theorem rightPart_bitwise (hunions : s.unions = false) (hl : Normal left) (hr : Normal right)
    (hleft : isUnknown (s.stripped left) = false)
    (hright : isUnknown (s.stripped right) = false) :
    rightPart s op left right =
      if ¬ (s.stripped left).Has isString ∧ (s.stripped left).Has isNumeric then
        s.narrow isNumeric right
      else s.narrow isWorkable right := by
  have hsingle : ∀ m ∈ (s.stripped right).members, m.isSingle = true := fun m hm =>
    Strictness.isSingle_of_mem (Strictness.normal_stripped s hr) hright hm
  rw [rightPart, bytewise_leftPart hop hunions hl hleft, hop]
  split
  · apply Strictness.narrow_congr
    intro m hm
    exact accepts_bitwise (hsingle m hm) .no
  · apply Strictness.narrow_congr
    intro m hm
    exact accepts_bitwise (hsingle m hm) .maybe

/-- A bitwise operation is reported when something is known about both operands and no two members
can be combined, or the readings of the members are ambiguous. Without strings on the left only
numbers are asked for on the right. -/
theorem reported_bitwise_iff (hunions : s.unions = false) (hl : Normal left)
    (hr : Normal right) :
    reported s op left right = true ↔
      (isUnknown (s.stripped left) = false ∧ isUnknown (s.stripped right) = false) ∧
        (op.Hopeless (s.stripped left) (s.stripped right) ∨
          Ambiguous (s.stripped left) (s.stripped right)) := by
  have hreads := Operator.reads_bitwise hop
  have hls : Normal (s.stripped left) := Strictness.normal_stripped s hl
  have hrs : Normal (s.stripped right) := Strictness.normal_stripped s hr
  rw [reported_of_reads hreads hl hr, hreads.hopeless_iff hls hrs]
  refine and_congr_right ?_
  rintro ⟨hkl, hkr⟩
  rw [leftPart_bitwise hop hl hkl, rightPart_bitwise hop hunions hl hr hkl hkr,
    each_isString_narrow hunions hl hkl, each_isNumeric_narrow_isWorkable hunions hl hkl]
  by_cases hcase : ¬ (s.stripped left).Has isString ∧ (s.stripped left).Has isNumeric
  · have hwork := has_isWorkable.mpr (Or.inr hcase.2)
    have hnumber := (has_isNumeric hcase.2).resolve_right hcase.1
    have hbare : ¬ (s.stripped left).Has isBareString := by
      rintro ⟨m, hm, hmb⟩
      exact hcase.1 ⟨m, hm, (Bool.and_eq_true_iff.mp hmb).1⟩
    rw [if_pos hcase, each_isNumeric_narrow hunions hr hkr]
    constructor
    · rintro ⟨_, hnone⟩
      exact Or.inl ⟨fun hs => hcase.1 hs.1, fun hn => hnone ⟨⟨hwork, hbare⟩, hn.2⟩⟩
    · rintro (⟨_, hnone⟩ | hambiguous)
      · exact ⟨fun hs => hs.1.2 hnumber, fun hn => hnone ⟨hcase.2, hn.2⟩⟩
      · exact absurd hambiguous.1 hcase.1
  · rw [if_neg hcase, each_isString_narrow hunions hr hkr,
      each_isNumeric_narrow_isWorkable hunions hr hkr]
    by_cases hboth : (s.stripped left).Has isString ∧ (s.stripped right).Has isWorkable
    · exact fails_iff_of_isString hboth.1 hboth.2
    · have hnone : ¬ ((s.stripped left).Has isWorkable ∧ (s.stripped right).Has isWorkable) := by
        rintro ⟨hlw, hrw⟩
        rcases has_isWorkable.mp hlw with hs | hn
        · exact hboth ⟨hs, hrw⟩
        · exact hcase ⟨fun hs => hboth ⟨hs, hrw⟩, hn⟩
      have hwork {p : Ty → Bool} (hp : ∀ m, p m = true → isWorkable m = true) :
          ¬ ((s.stripped left).Has p ∧ (s.stripped right).Has p) := by
        rintro ⟨⟨l, hlm, hlp⟩, r, hrm, hrp⟩
        exact hnone ⟨⟨l, hlm, hp l hlp⟩, r, hrm, hp r hrp⟩
      exact iff_of_true ⟨fun hs => hnone ⟨hs.1.1, hs.2.1⟩, fun hn => hnone ⟨hn.1.1, hn.2.1⟩⟩
        (Or.inl ⟨hwork fun _ => isWorkable_of_isString, hwork fun _ => isWorkable_of_isNumeric⟩)

end Bitwise

/-- A bitwise operation is reported exactly when something is known about both operands and either
no two members can be combined, or the left operand has strings and the two operands between them
have both strings that are no numbers and numbers that are no strings. -/
theorem bitwise_reported_iff {scope : Scope} (hscope : scope.Normal) (nullables : Bool)
    {op : Operator}
    (hop : op.base ∈ [.compute .bitwiseAnd, .compute .bitwiseOr, .compute .bitwiseXor])
    (origin : Origin) (left right : Expr Origin) :
    let s : Strictness := ⟨nullables, false⟩
    let l := s.stripped (left.typeIn scope)
    let r := s.stripped (right.typeIn scope)
    (Rule.operands .reference s).inspect scope (.binary origin left op right) ≠ [] ↔
      (isUnknown l = false ∧ isUnknown r = false) ∧ (op.Hopeless l r ∨ Ambiguous l r) := by
  intro s l r
  have hcategory : op.category = .bitwise := by
    simp only [List.mem_cons, List.not_mem_nil, or_false] at hop
    rcases hop with hbase | hbase | hbase
    · exact Operator.category_of_base hbase
    · exact Operator.category_of_base hbase
    · exact Operator.category_of_base hbase
  have hl : Normal (left.typeIn scope) := left.normal_typeIn hscope
  have hr : Normal (right.typeIn scope) := right.normal_typeIn hscope
  exact (inspect_ne_nil_iff s scope origin left right op).trans
    (reported_bitwise_iff hcategory rfl hl hr)

/-- An operation on a string or an integer and on a string that is no number is ambiguous. -/
theorem bitwise_reported_of_ambiguous :
    let scope := pairScope (.union [.string, .int]) (.constant (.string "abc"))
    scope.Normal ∧
      (Operator.compute .bitwiseOr).base ∈
        [.compute .bitwiseAnd, .compute .bitwiseOr, .compute .bitwiseXor] ∧
      (Rule.operands .reference ⟨true, false⟩).inspect scope
        (pairExpr (.compute .bitwiseOr)) ≠ [] := by
  intro scope
  have hscope : scope.Normal := by decide
  have hop : (Operator.compute .bitwiseOr).base ∈
      [.compute .bitwiseAnd, .compute .bitwiseOr, .compute .bitwiseXor] := by decide
  have hexact := bitwise_reported_iff hscope true hop (.written ⟨0, 5⟩) pairLeft pairRight
  exact ⟨hscope, hop, hexact.mpr ⟨⟨by decide, by decide⟩, Or.inr (by decide +kernel)⟩⟩

/-- The operation on a string that is no number and on a string or an integer is reported, though
two strings can be combined. -/
theorem bitwise_reported_not_hopeless :
    let scope := pairScope (.constant (.string "abc")) (.union [.string, .int])
    let s : Strictness := ⟨false, false⟩
    scope.Normal ∧
      (Rule.operands .reference s).inspect scope (pairExpr (.compute .bitwiseOr)) ≠ [] ∧
        ¬ (Operator.compute .bitwiseOr).Hopeless (s.stripped (pairLeft.typeIn scope))
          (s.stripped (pairRight.typeIn scope)) := by
  intro scope s
  refine ⟨by decide, ?_, by decide +kernel⟩
  exact (inspect_ne_nil_iff s scope _ pairLeft pairRight _).mpr (by decide +kernel)

/-- Of an operand in normal form a lenient check with both readings left open leaves a part that is
never bound to be read byte by byte; so whatever becomes a number is accepted on the other side. -/
theorem numeric_reading_open (oracle : Oracle) (nullables : Bool) (scope : Scope) (e : Expr Origin)
    (h : (oracle scope e).Normal) :
    let part := (Strictness.typeToCheck ⟨nullables, false⟩ (Category.bitwise.accepts .maybe) scope
      e).result oracle
    part.bytewise ≠ .yes ∧
      ∀ t : Ty, t.toNumber ≠ .error → Category.bitwise.accepts part.bytewise t = true := by
  intro part
  have hpart : part =
      Strictness.narrow ⟨nullables, false⟩ (Category.bitwise.accepts .maybe) (oracle scope e) := rfl
  have hopen : part.bytewise ≠ .yes := by
    rw [hpart]
    cases hknown : isUnknown (Strictness.stripped ⟨nullables, false⟩ (oracle scope e)) with
    | true =>
      rw [Strictness.narrow_of_isUnknown hknown]
      exact Certainty.noConfusion
    | false =>
      rw [narrow_accepts_bitwise h hknown]
      exact bytewise_narrow_ne_yes rfl h hknown
  exact ⟨hopen, fun t ht => accepts_of_toNumber hopen ht⟩

/-- A string, an array or null would be bound to be read byte by byte without null, but of it a
lenient check leaves the strings alone, and an integer is accepted beside them. -/
theorem numeric_reading_open_strings :
    let answer : Ty := .union [.string, .array .int .mixed, .null]
    let part := (Strictness.typeToCheck ⟨false, false⟩ (Category.bitwise.accepts .maybe) .empty
      (.null .invented)).result fun _ _ => answer
    answer.Normal ∧ answer.withoutNull.bytewise = .yes ∧ part = .string ∧ part.bytewise ≠ .yes ∧
      Category.bitwise.accepts part.bytewise .int = true := by
  intro answer part
  have hnormal : answer.Normal := by decide
  obtain ⟨hopen, haccepted⟩ :=
    numeric_reading_open (fun _ _ => answer) false .empty (.null .invented) hnormal
  exact ⟨hnormal, rfl, rfl, hopen, haccepted .int Ty.noConfusion⟩

end OperatorLint.Operands
