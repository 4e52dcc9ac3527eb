import OperatorLint.Proofs.Combination
import OperatorLint.Proofs.Fallback

/-!
# Operands that change places

Addition, multiplication and the bitwise operators convert both operands alike and combine what
they get by an operation that does not depend on the order, on integers as well as on doubles. The
result is the same type when the operands change places. Only addition of arrays joins the parts of
both sides in the order in which they come: there the two results hold their members in different
orders, and they cover one another because both are least upper bounds of the same parts.
-/

namespace OperatorLint

namespace Binary

open Float.Model Float.Model.UnpackedFloat

/-- The sign of a product does not depend on the order. -/
theorem sign_mul_comm (s t : Sign) : s * t = t * s := by
  cases s <;> cases t <;> rfl

/-- A sum of unpacked doubles does not depend on the order. Both mantissas are brought to the
smaller exponent and added as integers. -/
theorem unpacked_add_comm (spec : Format) (x y : UnpackedFloat) :
    UnpackedFloat.add spec x y = UnpackedFloat.add spec y x := by
  cases x with
  | notANumber => cases y <;> rfl
  | infinity s =>
    cases y with
    | infinity t => cases s <;> cases t <;> rfl
    | _ => rfl
  | zero s =>
    cases y with
    | zero t => cases s <;> cases t <;> rfl
    | _ => rfl
  | finite s m e hm =>
    cases y with
    | finite t n f hn =>
      simp only [UnpackedFloat.add]
      rw [min_comm, Int.add_comm]
    | _ => rfl

/-- A product of unpacked doubles does not depend on the order. -/
theorem unpacked_mul_comm (spec : Format) (x y : UnpackedFloat) :
    UnpackedFloat.mul spec x y = UnpackedFloat.mul spec y x := by
  cases x with
  | finite s m e hm =>
    cases y with
    | finite t n f hn =>
      simp only [UnpackedFloat.mul]
      rw [sign_mul_comm, Nat.mul_comm, Int.add_comm]
    | _ => simp only [UnpackedFloat.mul, sign_mul_comm]
  | _ => cases y <;> simp only [UnpackedFloat.mul, sign_mul_comm]

/-- A sum of doubles does not depend on the order. -/
theorem float_add_comm (x y : Float) : x + y = y + x :=
  congrArg (fun z => Float.ofModel (Float.Model.pack z)) (unpacked_add_comm .binary64 _ _)

/-- A product of doubles does not depend on the order. -/
theorem float_mul_comm (x y : Float) : x * y = y * x :=
  congrArg (fun z => Float.ofModel (Float.Model.pack z)) (unpacked_mul_comm .binary64 _ _)

end Binary

namespace Operation

open Ty (Normal Equivalent)

namespace Arithmetic

/-- An operator that does not depend on the order of its operands, neither on integers nor on
doubles. -/
structure Symmetric (op : Arithmetic) : Prop where
  /-- The integer result stays the same. -/
  whole : ∀ a b, op.whole? a b = op.whole? b a
  /-- The result on doubles stays the same. -/
  approximate : ∀ x y, op.approximate x y = op.approximate y x
  /-- No zero is rejected on the right only. -/
  rejectsZero : op.rejectsZero = false

/-- Addition is symmetric. -/
theorem symmetric_plus : plus.Symmetric where
  whole _ _ := congrArg Integer.ofInt? (Int.add_comm _ _)
  approximate := Binary.float_add_comm
  rejectsZero := rfl

/-- Multiplication is symmetric. -/
theorem symmetric_mul : mul.Symmetric where
  whole _ _ := congrArg Integer.ofInt? (Int.mul_comm _ _)
  approximate := Binary.float_mul_comm
  rejectsZero := rfl

/-- The kind of number without two constants stays the same. -/
theorem numberKind_comm (op : Arithmetic) (l r : Ty) : numberKind op l r = numberKind op r l := by
  unfold numberKind
  rw [Bool.or_comm, Bool.and_right_comm]

variable {op : Arithmetic} (h : op.Symmetric) (l r : Ty)

include h

/-- The integer result on two constants stays the same. -/
theorem Symmetric.wholeResult? : wholeResult? op l r = wholeResult? op r l := by
  unfold Operation.wholeResult?
  split
  · exact h.whole _ _
  · next hleft =>
    split
    · next b a => exact absurd rfl (hleft a b rfl)
    · rfl

/-- The double on two constants stays the same. -/
theorem Symmetric.doubleResult? : doubleResult? op l r = doubleResult? op r l := by
  unfold Operation.doubleResult?
  cases constantFloat? l with
  | none => cases constantFloat? r <;> rfl
  | some x =>
    cases constantFloat? r with
    | none => rfl
    | some y => exact congrArg some (h.approximate x y)

/-- A symmetric operator gives the same type when its operands change places. -/
theorem Symmetric.arithmetic_comm : arithmetic op l r = arithmetic op r l := by
  unfold arithmetic onNumbers
  rw [h.rejectsZero, Bool.false_and, Bool.false_and, Bool.or_comm l.toNumber.isError,
    h.wholeResult?, h.doubleResult?, numberKind_comm]

end Arithmetic

namespace Integral

/-- An operator on whole numbers that does not depend on the order of its operands. -/
structure Symmetric (op : Integral) : Prop where
  /-- The result on two integers stays the same. -/
  fold : ∀ a b, op.fold? a b = op.fold? b a
  /-- No zero is rejected on the right only. -/
  rejectsZero : op.rejectsZero = false

/-- The bits set in both words are symmetric. -/
theorem symmetric_bitwiseAnd : bitwiseAnd.Symmetric where
  fold a b := congrArg some (Int64.and_comm a b)
  rejectsZero := rfl

/-- The bits set in either word are symmetric. -/
theorem symmetric_bitwiseOr : bitwiseOr.Symmetric where
  fold a b := congrArg some (Int64.or_comm a b)
  rejectsZero := rfl

/-- The bits set in just one word are symmetric. -/
theorem symmetric_bitwiseXor : bitwiseXor.Symmetric where
  fold a b := congrArg some (Int64.xor_comm a b)
  rejectsZero := rfl

variable {op : Integral} (h : op.Symmetric) (l r : Ty)

include h

/-- The result on types of numbers stays the same. -/
theorem Symmetric.onIntegers_comm : onIntegers op l r = onIntegers op r l := by
  unfold onIntegers
  simp only [h.rejectsZero, Bool.false_and, Bool.false_eq_true, if_false]
  rw [Bool.or_comm]
  split
  · rfl
  · split
    · rw [h.fold]
    · next hleft =>
      split
      · next b a _ => exact absurd rfl (hleft a b rfl)
      · rfl

/-- A symmetric operator reads two strings byte by byte in either order, and all else as whole
numbers. -/
theorem Symmetric.bitwise_comm : bitwise op l r = bitwise op r l := by
  unfold bitwise integral
  rw [Bool.and_comm, h.onIntegers_comm]

end Integral

/-- The parts of the array members of a regular type in normal form are regular and in normal
form. -/
theorem regular_of_parts {t : Ty} (hn : Normal t) (hr : t.isRegular = true) {parts : Ty × Ty}
    (hparts : parts ∈ t.members.filterMap arrayParts?) :
    (Normal parts.1 ∧ parts.1.isRegular = true) ∧ Normal parts.2 ∧ parts.2.isRegular = true := by
  obtain ⟨hkey, hitem, _⟩ := normal_parts hn hparts
  obtain ⟨m, hm, hmp⟩ := List.mem_filterMap.mp hparts
  have hregular := Ty.isRegular_of_mem hr hm
  cases m with
  | array key item =>
    cases hmp
    rw [Ty.isRegular, Bool.and_eq_true] at hregular
    exact ⟨⟨hkey, hregular.1⟩, hitem, hregular.2⟩
  | _ => exact absurd hmp (by simp [arrayParts?])

/-- Joins of the same regular types cover one another, whatever their order. -/
theorem covers_join_of_perm {ts us : List Ty} (hn : ∀ t ∈ ts, Normal t ∧ t.isRegular = true)
    (hperm : us.Perm ts) : (Ty.join ts).covers (Ty.join us) = .yes := by
  have hts := Ty.supremum_join (fun t ht => (hn t ht).1) (fun t ht => (hn t ht).2)
  have hus := Ty.supremum_join (fun t ht => (hn t (hperm.subset ht)).1)
    (fun t ht => (hn t (hperm.subset ht)).2)
  exact Certainty.isYes_iff.mp (hus.includes_of_subset hts hperm.subset)

/-- Merged arrays of the same regular parts cover one another, whatever their order. -/
theorem covers_mergeArrays_of_perm {parts parts' : List (Ty × Ty)}
    (h : ∀ p ∈ parts, (Normal p.1 ∧ p.1.isRegular = true) ∧ Normal p.2 ∧ p.2.isRegular = true)
    (hperm : parts'.Perm parts) : (mergeArrays parts).covers (mergeArrays parts') = .yes := by
  have hkeys : ∀ t ∈ parts.map Prod.fst, Normal t ∧ t.isRegular = true :=
    List.forall_mem_map.mpr fun p hp => (h p hp).1
  have hitems : ∀ t ∈ parts.map Prod.snd, Normal t ∧ t.isRegular = true :=
    List.forall_mem_map.mpr fun p hp => (h p hp).2
  rw [mergeArrays, mergeArrays, Ty.covers_array, covers_join_of_perm hkeys (hperm.map _),
    covers_join_of_perm hitems (hperm.map _)]
  rfl

/-- Additions of the same regular types that are made of arrays cover one another. -/
theorem equivalent_plus_of_arrays {l r : Ty} (hl : Normal l) (hr : Normal r)
    (hrl : l.isRegular = true) (hrr : r.isRegular = true)
    (harrays : l.members.all isArray = true ∧ r.members.all isArray = true) :
    Equivalent (plus l r) (plus r l) := by
  have hparts : ∀ p ∈ l.members.filterMap arrayParts? ++ r.members.filterMap arrayParts?,
      (Normal p.1 ∧ p.1.isRegular = true) ∧ Normal p.2 ∧ p.2.isRegular = true :=
    List.forall_mem_append.mpr
      ⟨fun p hp => regular_of_parts hl hrl hp, fun p hp => regular_of_parts hr hrr hp⟩
  have hperm : (r.members.filterMap arrayParts? ++ l.members.filterMap arrayParts?).Perm
      (l.members.filterMap arrayParts? ++ r.members.filterMap arrayParts?) :=
    List.perm_append_comm
  have hcovers := covers_mergeArrays_of_perm hparts hperm
  have hback := covers_mergeArrays_of_perm (fun p hp => hparts p (hperm.subset hp)) hperm.symm
  rw [plus_of_arrays harrays, plus_of_arrays harrays.symm]
  exact Or.inr ⟨hcovers, hback⟩

end Operation

open Operation
open Ty (Normal Equivalent)

namespace Computation

/-- The operators whose operands may change places. -/
def symmetric : List Computation := [plus, mul, bitwiseAnd, bitwiseOr, bitwiseXor]

/-- A symmetric operator gives the same type when its operands change places, unless it adds
arrays. -/
theorem result_comm_of_not_arrays {op : Computation} (h : op ∈ symmetric) {l r : Ty}
    (harrays : op = plus → ¬ (l.members.all isArray = true ∧ r.members.all isArray = true)) :
    op.result l r = op.result r l := by
  cases op with
  | plus =>
    have hnot := harrays rfl
    rw [Computation.result, plus_of_not_arrays hnot, plus_of_not_arrays fun h => hnot h.symm]
    exact Arithmetic.symmetric_plus.arithmetic_comm l r
  | mul => exact Arithmetic.symmetric_mul.arithmetic_comm l r
  | bitwiseAnd => exact Integral.symmetric_bitwiseAnd.bitwise_comm l r
  | bitwiseOr => exact Integral.symmetric_bitwiseOr.bitwise_comm l r
  | bitwiseXor => exact Integral.symmetric_bitwiseXor.bitwise_comm l r
  | _ => exact absurd h (by decide)

end Computation

/-- Addition, multiplication and the bitwise operators, plain or compound, give the same type when
operands in normal form without not-a-number change places, or two types that both fail or cover
one another. The operands may be failures. -/
theorem Operator.result_comm {op : Operator} (h : op.base ∈ Computation.symmetric.map compute)
    {l r : Ty} (hl : Normal l) (hr : Normal r) (hrl : l = .error ∨ l.isRegular = true)
    (hrr : r = .error ∨ r.isRegular = true) :
    op.result l r = op.result r l ∨ Equivalent (op.result l r) (op.result r l) := by
  obtain ⟨c, hc, hbase⟩ := List.mem_map.mp h
  rw [result_of_base hbase.symm]
  by_cases hplus : c = .plus ∧ l.members.all isArray = true ∧ r.members.all isArray = true
  · obtain ⟨rfl, harrays⟩ := hplus
    have hregular {t : Ty} (hrt : t = .error ∨ t.isRegular = true)
        (hat : t.members.all isArray = true) : t.isRegular = true := by
      rcases hrt with rfl | hrt
      · exact Bool.noConfusion hat
      · exact hrt
    exact Or.inr (equivalent_plus_of_arrays hl hr (hregular hrl harrays.1)
      (hregular hrr harrays.2) harrays)
  · exact Or.inl (Computation.result_comm_of_not_arrays hc fun hc ha => hplus ⟨hc, ha⟩)

/-- Arrays with the item true and arrays with integers or false: the truth values come first among
the items or last, according to the place of the operand with true. -/
theorem Operator.result_comm_arrays :
    let op := Operator.assign .plus
    let l := Ty.array .int (.constant (.bool true))
    let r := Ty.union [.array .string .int, .array .mixed (.constant (.bool false))]
    (Normal l ∧ Normal r ∧ l.isRegular = true ∧ r.isRegular = true) ∧
      op.result l r = .array .mixed (.union [.bool, .int]) ∧
      op.result r l = .array .mixed (.union [.int, .bool]) ∧
      Equivalent (op.result l r) (op.result r l) := by
  intro op l r
  have hl : Normal l := by decide
  have hr : Normal r := by decide
  have hlr : op.result l r = .array .mixed (.union [.bool, .int]) := rfl
  have hrl : op.result r l = .array .mixed (.union [.int, .bool]) := rfl
  have hne : op.result l r ≠ op.result r l := by
    rw [hlr, hrl]
    intro heq
    cases heq
  have hsymmetric : op.base ∈ Computation.symmetric.map compute := by decide
  have hcomm := result_comm hsymmetric hl hr (Or.inr rfl) (Or.inr rfl)
  exact ⟨⟨hl, hr, rfl, rfl⟩, hlr, hrl, hcomm.resolve_left hne⟩

end OperatorLint
