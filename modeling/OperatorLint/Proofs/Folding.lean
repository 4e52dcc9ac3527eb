import Mathlib.Algebra.Order.Ring.Int
import Mathlib.Data.Int.Bitwise
import OperatorLint.Operation.Result

/-!
# Operations on constant integers

On two constant integers every operator gives its exact result. Sums, differences, products and
quotients that leave the 64 bits, and quotients that are not whole, become doubles; all other
operators stay within the word. The remainder is that of division toward zero. The bitwise
operators and the shifts act on the two's complement, which is said here on whole numbers: bit by
bit, as a product by a power of two that is reduced to the word, and as a quotient rounded down.
-/

namespace OperatorLint

namespace Integer

/-- The whole number has 64 bits, one of them for its sign. -/
def Fits (n : Int) : Prop := -2 ^ 63 ≤ n ∧ n < 2 ^ 63

instance (n : Int) : Decidable (Fits n) := inferInstanceAs (Decidable (-2 ^ 63 ≤ n ∧ n < 2 ^ 63))

/-- A number that fits is kept with its exact value. -/
theorem ofInt?_of_fits {n : Int} (h : Fits n) : ∃ r, ofInt? n = some r ∧ r.toInt = n := by
  have hbounds : Int64.minValue.toInt ≤ n ∧ n ≤ Int64.maxValue.toInt :=
    ⟨h.1, Int.le_sub_one_of_lt h.2⟩
  obtain ⟨r, hr⟩ := Option.isSome_iff_exists.mp (isSome_ofInt?.mpr hbounds)
  exact ⟨r, hr, toInt_of_ofInt? hr⟩

/-- A number that does not fit is not kept. -/
theorem ofInt?_of_not_fits {n : Int} (h : ¬ Fits n) : ofInt? n = none := by
  rw [← Option.not_isSome_iff_eq_none, isSome_ofInt?]
  rintro ⟨hlow, hhigh⟩
  exact h ⟨hlow, Int.lt_of_le_sub_one hhigh⟩

/-- A word read as a whole number has the bits of the word, and its sign at all higher places. -/
theorem testBit_toInt {w : Nat} (x : BitVec w) (i : Nat) :
    x.toInt.testBit i = if i < w then x.getLsbD i else x.msb := by
  rw [BitVec.toInt_eq_msb_cond]
  cases hmsb : x.msb with
  | false =>
    rw [if_neg Bool.false_ne_true]
    change x.toNat.testBit i = _
    rw [BitVec.testBit_toNat]
    split
    · rfl
    · next hi => exact BitVec.getLsbD_of_ge x i (Nat.le_of_not_lt hi)
  | true =>
    have hlt := x.isLt
    have hneg : (x.toNat : Int) - (2 ^ w : Nat) = Int.negSucc (2 ^ w - (x.toNat + 1)) := by
      rw [Int.negSucc_eq]
      omega
    rw [if_pos rfl, hneg]
    change (!(2 ^ w - (x.toNat + 1)).testBit i) = _
    rw [Nat.testBit_two_pow_sub_succ hlt, BitVec.testBit_toNat]
    by_cases hi : i < w <;> simp [hi]

/-- A bit of a conjunction is set when it is set on both sides. -/
theorem testBit_and (a b : Int64) (i : Nat) :
    (a &&& b).toInt.testBit i = (a.toInt.testBit i && b.toInt.testBit i) := by
  simp only [Int64.toInt, Int64.toBitVec_and, testBit_toInt, BitVec.getLsbD_and, BitVec.msb_and]
  split <;> rfl

/-- A bit of a disjunction is set when it is set on one side. -/
theorem testBit_or (a b : Int64) (i : Nat) :
    (a ||| b).toInt.testBit i = (a.toInt.testBit i || b.toInt.testBit i) := by
  simp only [Int64.toInt, Int64.toBitVec_or, testBit_toInt, BitVec.getLsbD_or, BitVec.msb_or]
  split <;> rfl

/-- A bit of an exclusive disjunction is set when it is set on just one side. -/
theorem testBit_xor (a b : Int64) (i : Nat) :
    (a ^^^ b).toInt.testBit i = (a.toInt.testBit i ^^ b.toInt.testBit i) := by
  simp only [Int64.toInt, Int64.toBitVec_xor, testBit_toInt, BitVec.getLsbD_xor, BitVec.msb_xor]
  split <;> rfl

variable {a b : Int64}

/-- A number of places below 64 is not reduced. -/
theorem toNat_places (h : 0 ≤ b.toInt) (hsmall : b.toInt < 64) :
    (b.toBitVec.smod 64).toNat = b.toInt.toNat := by
  have hplaces : (b.toBitVec.smod 64).toInt = b.toInt := by
    have h64 : (64 : BitVec 64).toInt = 64 := rfl
    rw [BitVec.toInt_smod, h64, Int.fmod_eq_emod_of_nonneg _ (by decide)]
    exact Int.emod_eq_of_lt h hsmall
  have hlt := (b.toBitVec.smod 64).isLt
  rw [BitVec.toInt_eq_msb_cond] at hplaces
  split at hplaces <;> omega

/-- A shift to the left multiplies by a power of two and reduces the product to the word. -/
theorem toInt_shiftLeft (h : 0 ≤ b.toInt) :
    (shiftLeft a b).toInt = (a.toInt * 2 ^ b.toInt.toNat).bmod (2 ^ 64) := by
  unfold shiftLeft
  split
  · next hlarge =>
    have hpow : (2 : Int) ^ 64 ∣ 2 ^ b.toInt.toNat := pow_dvd_pow 2 (by omega)
    have hdvd : ((2 ^ 64 : Nat) : Int) ∣ a.toInt * 2 ^ b.toInt.toNat := hpow.mul_left a.toInt
    rw [Int.bmod_eq_zero_of_dvd hdvd]
    rfl
  · next hsmall =>
    have hword : a.toInt = (a.toBitVec.toNat : Int).bmod (2 ^ 64) := BitVec.toInt_eq_toNat_bmod _
    rw [hword, Int.bmod_mul_bmod]
    change (a <<< b).toBitVec.toInt = _
    rw [Int64.toBitVec_shiftLeft, BitVec.shiftLeft_eq', BitVec.toInt_shiftLeft,
      toNat_places h (Int.not_le.mp hsmall), Nat.shiftLeft_eq, Int.natCast_mul, Int.natCast_pow]
    rfl

/-- A shift to the right divides by a power of two and rounds down. -/
theorem toInt_shiftRight (h : 0 ≤ b.toInt) :
    (shiftRight a b).toInt = a.toInt.fdiv (2 ^ b.toInt.toNat) := by
  rw [Int.fdiv_eq_ediv_of_nonneg _ (pow_nonneg (by decide) _)]
  unfold shiftRight
  split
  · next hlarge =>
    have hpow : (2 : Int) ^ 64 ≤ 2 ^ b.toInt.toNat := pow_le_pow_right₀ (by decide) (by omega)
    have hlow := a.le_toInt
    have hhigh := a.toInt_lt
    split
    · next hneg =>
      rw [Int.ediv_eq_neg_one_of_neg_of_le hneg (by omega)]
      rfl
    · next hneg =>
      rw [Int.ediv_eq_zero_of_lt (Int.not_lt.mp hneg) (by omega)]
      rfl
  · next hsmall =>
    change (a >>> b).toBitVec.toInt = _
    rw [Int64.toBitVec_shiftRight, BitVec.sshiftRight_eq', BitVec.toInt_sshiftRight,
      toNat_places h (Int.not_le.mp hsmall), Int.shiftRight_eq_div_pow, Int.natCast_pow]
    rfl

end Integer

open Integer (Fits)
open Operation

namespace Ty

/-- The type is the constant integer of a value. -/
def IsInteger (t : Ty) (n : Int) : Prop := ∃ r : Int64, r.toInt = n ∧ t = constant (.int r)

/-- The type is a constant double. -/
def IsDouble (t : Ty) : Prop := ∃ x : Float, t = constant (.float x)

/-- The type is the constant integer of a value that fits, and a constant double where the value
does not fit. -/
def Keeps (t : Ty) (n : Int) : Prop := (Fits n → t.IsInteger n) ∧ (¬ Fits n → t.IsDouble)

/-- The type is the constant integer that combines the bits of two words. -/
def HasBits (t : Ty) (combine : Bool → Bool → Bool) (a b : Int64) : Prop :=
  ∃ r : Int64, (∀ i, r.toInt.testBit i = combine (a.toInt.testBit i) (b.toInt.testBit i)) ∧
    t = constant (.int r)

end Ty

namespace Operation

variable {a b : Int64}

section Arithmetic

variable (op : Arithmetic) (h : op.rejectsZero = true → b.toInt ≠ 0)

include h

/-- Arithmetic on two constant integers keeps the integer result, and has a double without one. -/
theorem arithmetic_int : arithmetic op (.constant (.int a)) (.constant (.int b)) =
    match op.whole? a b with
    | some value => .constant (.int value)
    | none => .constant (.float
        (op.approximate (Float.ofInt a.toInt) (Float.ofInt b.toInt))) := by
  have hzero : (op.rejectsZero && b == 0) = false := by
    rw [Bool.and_eq_false_imp]
    intro hrejects
    rw [beq_eq_false_iff_ne]
    rintro rfl
    exact h hrejects rfl
  simp only [arithmetic, Ty.toNumber, Ty.constantToNumber, onNumbers, Ty.isError, isZero, hzero,
    Bool.or_self, Bool.false_eq_true, if_false, wholeResult?]
  cases op.whole? a b <;> rfl

/-- Arithmetic keeps an exact result. -/
theorem keeps_arithmetic {n : Int} (hwhole : op.whole? a b = Integer.ofInt? n) :
    (arithmetic op (.constant (.int a)) (.constant (.int b))).Keeps n := by
  rw [arithmetic_int op h, hwhole]
  constructor
  · intro hfits
    obtain ⟨r, hr, hvalue⟩ := Integer.ofInt?_of_fits hfits
    rw [hr]
    exact ⟨r, hvalue, rfl⟩
  · intro hfits
    rw [Integer.ofInt?_of_not_fits hfits]
    exact ⟨_, rfl⟩

/-- Arithmetic without an integer result gives a double. -/
theorem isDouble_arithmetic (hwhole : op.whole? a b = none) :
    (arithmetic op (.constant (.int a)) (.constant (.int b))).IsDouble := by
  rw [arithmetic_int op h, hwhole]
  exact ⟨_, rfl⟩

end Arithmetic

/-- An operator on whole numbers gives its result on two constant integers. -/
theorem integral_int {op : Integral} {r : Int64} (h : op.fold? a b = some r) :
    integral op (.constant (.int a)) (.constant (.int b)) = .constant (.int r) := by
  simp [integral, Ty.toNumber, Ty.constantToNumber, cutToInt, onIntegers, Ty.isError, h]

/-- An operator on whole numbers fails on two constant integers on which it has no result. -/
theorem integral_int_eq_error {op : Integral} (h : op.fold? a b = none) :
    integral op (.constant (.int a)) (.constant (.int b)) = .error := by
  simp [integral, Ty.toNumber, Ty.constantToNumber, cutToInt, onIntegers, Ty.isError, h]

/-- A constant integer is no string, so the bitwise operators read it as a number. -/
theorem hasBits_bitwise {op : Integral} {combine : Bool → Bool → Bool} {r : Int64}
    (h : op.fold? a b = some r)
    (hbits : ∀ i, r.toInt.testBit i = combine (a.toInt.testBit i) (b.toInt.testBit i)) :
    (bitwise op (.constant (.int a)) (.constant (.int b))).HasBits combine a b :=
  ⟨r, hbits, integral_int h⟩

end Operation

/-- What the operators give on two constant integers. -/
structure FoldsExactly (a b : Int64) (result : Computation → Ty) : Prop where
  /-- The sum. -/
  sum : (result .plus).Keeps (a.toInt + b.toInt)
  /-- The difference. -/
  difference : (result .minus).Keeps (a.toInt - b.toInt)
  /-- The product. -/
  product : (result .mul).Keeps (a.toInt * b.toInt)
  /-- No quotient by zero. -/
  quotient_of_zero : b.toInt = 0 → result .div = .error
  /-- The quotient of a multiple. -/
  quotient_of_dvd : b.toInt ≠ 0 → b.toInt ∣ a.toInt → (result .div).Keeps (a.toInt / b.toInt)
  /-- The quotient that is not whole. -/
  quotient_of_not_dvd : b.toInt ≠ 0 → ¬ b.toInt ∣ a.toInt → (result .div).IsDouble
  /-- No remainder by zero. -/
  remainder_of_zero : b.toInt = 0 → result .mod = .error
  /-- The remainder of the quotient rounded toward zero. -/
  remainder : b.toInt ≠ 0 → (result .mod).IsInteger (a.toInt.tmod b.toInt)
  /-- The bits that are set in both. -/
  bitwiseAnd : (result .bitwiseAnd).HasBits and a b
  /-- The bits that are set in either. -/
  bitwiseOr : (result .bitwiseOr).HasBits or a b
  /-- The bits that are set in just one. -/
  bitwiseXor : (result .bitwiseXor).HasBits xor a b
  /-- No shift by a negative number of places. -/
  shift_of_neg : b.toInt < 0 → result .shiftLeft = .error ∧ result .shiftRight = .error
  /-- The multiple by a power of two, reduced to 64 bits with a sign. -/
  shiftLeft : 0 ≤ b.toInt →
    (result .shiftLeft).IsInteger ((a.toInt * 2 ^ b.toInt.toNat).bmod (2 ^ 64))
  /-- The quotient by a power of two, rounded down. -/
  shiftRight : 0 ≤ b.toInt → (result .shiftRight).IsInteger (a.toInt.fdiv (2 ^ b.toInt.toNat))

/-- The computing operators fold two constant integers exactly. -/
theorem Computation.folds (a b : Int64) : FoldsExactly a b
    fun op => op.result (.constant (.int a)) (.constant (.int b)) where
  sum := keeps_arithmetic .plus Bool.noConfusion rfl
  difference := keeps_arithmetic .minus Bool.noConfusion rfl
  product := keeps_arithmetic .mul Bool.noConfusion rfl
  quotient_of_zero h := by
    rw [Int64.toInt_inj.mp (h.trans Int64.toInt_zero.symm)]
    rfl
  quotient_of_dvd h hdvd := keeps_arithmetic .div (fun _ => h) (if_pos hdvd)
  quotient_of_not_dvd h hdvd := isDouble_arithmetic .div (fun _ => h) (if_neg hdvd)
  remainder_of_zero h := by
    rw [Int64.toInt_inj.mp (h.trans Int64.toInt_zero.symm)]
    rfl
  remainder h := by
    have hb : b ≠ 0 := fun hzero => h (congrArg Int64.toInt hzero)
    exact ⟨a % b, Int64.toInt_mod a b, integral_int (if_neg hb)⟩
  bitwiseAnd := hasBits_bitwise rfl (Integer.testBit_and a b)
  bitwiseOr := hasBits_bitwise rfl (Integer.testBit_or a b)
  bitwiseXor := hasBits_bitwise rfl (Integer.testBit_xor a b)
  shift_of_neg h := ⟨integral_int_eq_error (if_pos h), integral_int_eq_error (if_pos h)⟩
  shiftLeft h := ⟨_, Integer.toInt_shiftLeft h, integral_int (if_neg (Int.not_lt.mpr h))⟩
  shiftRight h := ⟨_, Integer.toInt_shiftRight h, integral_int (if_neg (Int.not_lt.mpr h))⟩

/-- On any two constant integers the operators, compound or not, give the exact result: an integer
where it fits, a double where it does not fit or is not whole, and a failure for a zero divisor and
a negative number of places. -/
theorem Operator.constants_fold (a b : Int64) :
    FoldsExactly a b (fun op =>
      (Operator.compute op).result (.constant (.int a)) (.constant (.int b))) ∧
    FoldsExactly a b fun op =>
      (Operator.assign op).result (.constant (.int a)) (.constant (.int b)) :=
  ⟨Computation.folds a b, Computation.folds a b⟩

/-- The quotient of the least integer by -1 does not fit; the remainder is zero. -/
example :
    let result (op : Computation) :=
      op.result (.constant (.int Int64.minValue)) (.constant (.int (-1)))
    (result .div).IsDouble ∧ result .mod = .constant (.int 0) := ⟨⟨_, rfl⟩, rfl⟩

end OperatorLint
