import Mathlib
import OperatorLint.Operation.Integral

/-!
# Constants that are the same value

Doubles are compared as numbers: not-a-number is the same as nothing, and the two zeros are the
same. The decoding of bits meets the logical model of doubles here, so that equality of doubles
becomes a statement about decoded numbers. What an operation does with a constant depends only
on the number, hence two constants that are the same value are cut to the same integer.
-/

namespace OperatorLint

namespace Binary

open Float.Model Float.Model.UnpackedFloat

/-- The sign is the negative one. -/
def isNegative : Sign → Bool
  | .negative => true
  | .positive => false

/-- The number that an unpacked double stands for. -/
def ofUnpacked : UnpackedFloat → Binary
  | .notANumber => nan
  | .infinity s => infinite (isNegative s)
  | .zero s => finite (isNegative s) 0 (-1074)
  | .finite s mantissa exponent _ => finite (isNegative s) mantissa exponent

/-- The number is a zero of either sign. -/
def isZero : Binary → Bool
  | finite _ 0 _ => true
  | _ => false

/-- Two decoded doubles are the same number. Not-a-number is none. -/
def SameNumber (a b : Binary) : Prop := a ≠ nan ∧ (a = b ∨ a.isZero = true ∧ b.isZero = true)

/-- Being the same number does not depend on the order. -/
theorem SameNumber.symm {a b : Binary} (h : SameNumber a b) : SameNumber b a := by
  obtain ⟨hnan, rfl | ⟨ha, hb⟩⟩ := h
  · exact ⟨hnan, Or.inl rfl⟩
  · refine ⟨?_, Or.inr ⟨hb, ha⟩⟩
    rintro rfl
    simp [isZero] at hb

/-- Being the same number carries over a third one. -/
theorem SameNumber.trans {a b c : Binary} (hab : SameNumber a b) (hbc : SameNumber b c) :
    SameNumber a c := by
  obtain ⟨hnan, rfl | ⟨ha, hb⟩⟩ := hab
  · exact hbc
  · obtain ⟨_, rfl | ⟨_, hc⟩⟩ := hbc
    · exact ⟨hnan, Or.inr ⟨ha, hb⟩⟩
    · exact ⟨hnan, Or.inr ⟨ha, hc⟩⟩

/-- A zero is cut to zero. -/
theorem truncate?_of_isZero {a : Binary} (h : a.isZero = true) : a.truncate? = some 0 := by
  cases a with
  | nan => simp [isZero] at h
  | infinite negative => simp [isZero] at h
  | finite negative mantissa exponent =>
    cases mantissa with
    | succ n => simp [isZero] at h
    | zero =>
      have hfloor : floor 0 exponent = 0 := by simp [floor]
      cases negative <;> simp [truncate?, hfloor, signed]

/-- The same number is cut to the same integer. -/
theorem SameNumber.truncate?_eq {a b : Binary} (h : SameNumber a b) :
    a.truncate? = b.truncate? := by
  obtain ⟨_, rfl | ⟨ha, hb⟩⟩ := h
  · rfl
  · rw [truncate?_of_isZero ha, truncate?_of_isZero hb]

/-- The sign bit is the top bit of a word of 64 bits. -/
theorem isNegative_ofBitVec (b : BitVec 1) : isNegative (Sign.ofBitVec b) = (b.toNat == 1) := by
  revert b
  decide

/-- An implicit leading bit adds its weight to a fraction of 52 bits. -/
theorem toNat_implicit (m : BitVec 52) : (1#1 ++ m).toNat = 1 <<< 52 + m.toNat := by
  have hbits : (1#1 ++ m).toNat = 1 <<< 52 ||| m.toNat := BitVec.toNat_append 1#1 m
  rw [hbits, Nat.one_shiftLeft]
  exact (Nat.two_pow_add_eq_or_of_lt m.isLt 1).symm

/-- The fraction consists of the low 52 bits. -/
theorem toNat_unpackMantissa (b : BitVec 64) :
    (@unpackMantissa Format.binary64 b).toNat = b.toNat % 1 <<< 52 := by
  simp [unpackMantissa]

/-- The exponent consists of the next 11 bits. -/
theorem toNat_unpackExponent (b : BitVec 64) :
    (@unpackExponent Format.binary64 b).toNat = b.toNat >>> 52 % 2048 := by
  simp [unpackExponent]

/-- The sign is the last bit. -/
theorem toNat_unpackSign (b : BitVec 64) :
    (@unpackSign Format.binary64 b).toNat = b.toNat >>> 63 % 2 := by
  simp [unpackSign]

/-- Reading the bits of a word gives the number that the logical model unpacks from it. -/
theorem ofBits_eq_ofUnpacked (b : BitVec 64) :
    ofBits b.toNat = ofUnpacked (unpack Format.binary64 b) := by
  have hm := toNat_unpackMantissa b
  have he := toNat_unpackExponent b
  have hs := toNat_unpackSign b
  have hbias : (Format.binary64).exponentBias = 1023 := rfl
  unfold ofBits UnpackedFloat.unpack
  dsimp only
  rw [← hm, ← he, ← hs, ← isNegative_ofBitVec]
  have htop (e : BitVec 11) : e = -1#11 ↔ e.toNat = 2047 := BitVec.toNat_inj.symm
  have hbottom (e : BitVec 11) : e = 0#11 ↔ e.toNat = 0 := BitVec.toNat_inj.symm
  have hempty (f : BitVec 52) : f = 0#52 ↔ f.toNat = 0 := BitVec.toNat_inj.symm
  by_cases h1 : (@unpackExponent Format.binary64 b).toNat = 2047
  · rw [if_pos h1, if_pos ((htop _).mpr h1)]
    by_cases h2 : (@unpackMantissa Format.binary64 b).toNat = 0
    · rw [if_pos h2, if_pos ((hempty _).mpr h2)]
      rfl
    · rw [if_neg h2, if_neg (fun h => h2 ((hempty _).mp h))]
      rfl
  · rw [if_neg h1, if_neg (fun h => h1 ((htop _).mp h))]
    by_cases h2 : (@unpackExponent Format.binary64 b).toNat = 0
    · rw [if_pos h2, if_pos ((hbottom _).mpr h2), h2, hbias]
      by_cases h3 : (@unpackMantissa Format.binary64 b).toNat = 0
      · rw [dif_pos ((hempty _).mpr h3), h3]
        rfl
      · rw [dif_neg (fun h => h3 ((hempty _).mp h))]
        rfl
    · rw [if_neg h2, if_neg (fun h => h2 ((hbottom _).mp h)), hbias]
      dsimp only [ofUnpacked]
      rw [toNat_implicit]
      rfl

/-- A double is decoded to the number that the logical model unpacks from it. -/
theorem ofFloat_eq_ofUnpacked (x : Float) : ofFloat x = ofUnpacked x.toModel.unpack :=
  ofBits_eq_ofUnpacked x.toModel.toBits.toBitVec

/-- Unpacked doubles compare as equal exactly when they are the same number. -/
theorem compare_eq_iff (a b : UnpackedFloat) :
    a.compare b = some .eq ↔ SameNumber (ofUnpacked a) (ofUnpacked b) := by
  cases a with
  | notANumber => cases b <;> simp [UnpackedFloat.compare, SameNumber, ofUnpacked]
  | infinity s =>
    cases b with
    | infinity t =>
      cases s <;> cases t <;>
        simp [UnpackedFloat.compare, SameNumber, ofUnpacked, isZero, isNegative, compare]
    | notANumber => cases s <;> simp [UnpackedFloat.compare, SameNumber, ofUnpacked, isZero]
    | zero t => cases s <;> simp [UnpackedFloat.compare, SameNumber, ofUnpacked, isZero]
    | finite t n f hn => cases s <;> simp [UnpackedFloat.compare, SameNumber, ofUnpacked, isZero]
  | zero s =>
    cases b with
    | infinity t => cases t <;> simp [UnpackedFloat.compare, SameNumber, ofUnpacked, isZero]
    | notANumber => simp [UnpackedFloat.compare, SameNumber, ofUnpacked, isZero]
    | zero t => simp [UnpackedFloat.compare, SameNumber, ofUnpacked, isZero]
    | finite t n f hn =>
      obtain ⟨k, rfl⟩ := Nat.exists_eq_add_one.mpr hn
      cases t <;> simp [UnpackedFloat.compare, SameNumber, ofUnpacked, isZero]
  | finite s m e hm =>
    obtain ⟨j, rfl⟩ := Nat.exists_eq_add_one.mpr hm
    cases b with
    | infinity t => cases t <;> simp [UnpackedFloat.compare, SameNumber, ofUnpacked, isZero]
    | notANumber => cases s <;> simp [UnpackedFloat.compare, SameNumber, ofUnpacked, isZero]
    | zero t => cases s <;> simp [UnpackedFloat.compare, SameNumber, ofUnpacked, isZero]
    | finite t n f hn =>
      obtain ⟨k, rfl⟩ := Nat.exists_eq_add_one.mpr hn
      cases s <;> cases t <;>
        simp [UnpackedFloat.compare, SameNumber, ofUnpacked, isZero, isNegative,
          Ordering.swap_eq_eq, Ordering.then_eq_eq, and_comm]

/-- Doubles are equal exactly when they are decoded to the same number. -/
theorem float_beq_iff (x y : Float) : (x == y) = true ↔ SameNumber (ofFloat x) (ofFloat y) := by
  rw [ofFloat_eq_ofUnpacked, ofFloat_eq_ofUnpacked, ← compare_eq_iff]
  change (x.toModel.unpack.compare y.toModel.unpack == some .eq) = true ↔ _
  rw [beq_iff_eq]

end Binary

namespace Constant

/-- Being the same constant does not depend on the order. -/
theorem same_symm {a b : Constant} (h : a.same b = true) : b.same a = true := by
  cases a <;> cases b <;> simp only [same, Bool.false_eq_true, beq_iff_eq] at h ⊢
  case bool.bool => exact h.symm
  case int.int => exact h.symm
  case string.string => exact h.symm
  case float.float => exact (Binary.float_beq_iff _ _).mpr ((Binary.float_beq_iff _ _).mp h).symm

/-- Being the same constant carries over a third one. -/
theorem same_trans {a b c : Constant} (hab : a.same b = true) (hbc : b.same c = true) :
    a.same c = true := by
  cases a <;> cases b <;> simp only [same, Bool.false_eq_true, beq_iff_eq] at hab
  all_goals cases c <;> simp only [same, Bool.false_eq_true, beq_iff_eq] at hbc ⊢
  case bool.bool.bool => exact hab.trans hbc
  case int.int.int => exact hab.trans hbc
  case string.string.string => exact hab.trans hbc
  case float.float.float =>
    have hx := (Binary.float_beq_iff _ _).mp hab
    have hy := (Binary.float_beq_iff _ _).mp hbc
    exact (Binary.float_beq_iff _ _).mpr (hx.trans hy)

/-- Constants that are the same value are of one kind. -/
theorem kind_eq_of_same {a b : Constant} (h : a.same b = true) : a.kind = b.kind := by
  cases a <;> cases b <;> first | rfl | exact Bool.noConfusion h

end Constant

namespace Operation

/-- Equal doubles are cut to the same integer. -/
theorem cut_of_beq {x y : Float} (h : (x == y) = true) : cut x = cut y := by
  have hnumber := (Binary.float_beq_iff x y).mp h
  rw [cut, cut, hnumber.truncate?_eq]

/-- The same constants are cut to the same type. -/
theorem cutToInt_of_same {c d : Constant} (h : c.same d = true) :
    cutToInt (.constant c) = cutToInt (.constant d) := by
  cases c <;> cases d <;> simp only [Constant.same, Bool.false_eq_true, beq_iff_eq] at h
  case bool.bool => rw [h]
  case int.int => rw [h]
  case string.string => rw [h]
  case float.float => rw [cutToInt, cutToInt, cut_of_beq h]

end Operation

end OperatorLint
