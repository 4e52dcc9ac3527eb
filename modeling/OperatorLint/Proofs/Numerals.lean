import OperatorLint.Proofs.Order

/-!
# Doubles and their texts

A double that is read from a text is a number: it may be infinite or zero, but it is never
not-a-number. In the logical model not-a-number only comes from itself, from subtracting or
dividing infinities and from multiplying or dividing zeros, and reading divides and multiplies by
finite numbers other than zero. In the other direction equal doubles, the two zeros included, have
one text when they are used as strings.
-/

namespace OperatorLint

namespace Binary

open Float.Model Float.Model.UnpackedFloat

variable {x y : UnpackedFloat}

/-- The number is finite and not zero. -/
def isOrdinary : UnpackedFloat → Bool
  | .finite .. => true
  | _ => false

/-- Rounding gives a number. -/
theorem isNaN_roundWithAccuracy (spec : Format) (sign : Sign) (mantissa : Nat) (exponent : Int)
    (accuracy : Accuracy) :
    (roundWithAccuracy spec sign mantissa exponent accuracy).isNaN = false := by
  unfold roundWithAccuracy
  dsimp only
  split
  · rfl
  · rfl

/-- Every natural number is a number as a double. -/
theorem isNaN_ofNat (spec : Format) (n : Nat) : (UnpackedFloat.ofNat spec n).isNaN = false := by
  unfold UnpackedFloat.ofNat UnpackedFloat.ofInt UnpackedFloat.normalize
  split
  · exact isNaN_roundWithAccuracy ..
  · rfl
  · exact isNaN_roundWithAccuracy ..

/-- A number times a finite number other than zero is a number. -/
theorem isNaN_mul (spec : Format) (hx : x.isNaN = false) (hy : isOrdinary y = true) :
    (UnpackedFloat.mul spec x y).isNaN = false := by
  cases y with
  | finite =>
    cases x with
    | notANumber => exact Bool.noConfusion hx
    | infinity | zero => rfl
    | finite => exact isNaN_roundWithAccuracy ..
  | _ => exact Bool.noConfusion hy

/-- A number divided by a finite number other than zero is a number. -/
theorem isNaN_div (spec : Format) (hx : x.isNaN = false) (hy : isOrdinary y = true) :
    (UnpackedFloat.div spec x y).isNaN = false := by
  cases y with
  | finite =>
    cases x with
    | notANumber => exact Bool.noConfusion hx
    | infinity | zero => rfl
    | finite => exact isNaN_roundWithAccuracy ..
  | _ => exact Bool.noConfusion hy

/-- The opposite of a number is a number. -/
theorem isNaN_neg (hx : x.isNaN = false) : x.neg.isNaN = false := by
  cases x with
  | notANumber => exact Bool.noConfusion hx
  | _ => rfl

/-- Digits and a power of ten make a number. -/
theorem isNaN_ofDigits (spec : Format) (digits : Nat) (exponent : Int) :
    (UnpackedFloat.ofScientific spec digits exponent).isNaN = false := by
  unfold UnpackedFloat.ofScientific
  split_ifs
  · rfl
  · rfl
  · rfl
  · exact isNaN_mul spec rfl rfl
  · exact isNaN_div spec rfl rfl

/-- Only an exponent with all bits set and a fraction other than zero make not-a-number. -/
theorem isNaN_unpack_components (sign : Sign) (exponent : BitVec 11) (fraction : BitVec 52)
    (h : exponent ≠ -1#11 ∨ fraction = 0#52) :
    (unpack .binary64 (packComponents .binary64 sign exponent fraction)).isNaN = false := by
  unfold UnpackedFloat.unpack
  simp only [unpackExponent_packComponents, unpackMantissa_packComponents]
  split_ifs with htop hempty
  · rfl
  · exact absurd h (not_or.mpr ⟨not_not.mpr htop, hempty⟩)
  · rfl
  · rfl
  · rfl

/-- A number that is packed into bits is unpacked as a number. Exponents with all bits set are taken
to infinity before. -/
theorem isNaN_unpack_pack (hx : x.isNaN = false) : (Float.Model.pack x).unpack.isNaN = false := by
  change (unpack .binary64 (UnpackedFloat.pack .binary64 x)).isNaN = false
  cases x with
  | notANumber => exact Bool.noConfusion hx
  | infinity sign => exact isNaN_unpack_components sign _ _ (Or.inr rfl)
  | zero sign => exact isNaN_unpack_components sign _ _ (Or.inr rfl)
  | finite sign mantissa exponent hm =>
    unfold UnpackedFloat.pack
    dsimp only
    split_ifs with hlarge hnormal
    · exact isNaN_unpack_components sign _ _ (Or.inr rfl)
    · refine isNaN_unpack_components sign _ _ (Or.inl ?_)
      intro htop
      have hbits := congrArg BitVec.toNat htop
      rw [BitVec.toNat_ofNat] at hbits
      have hall : (-1#11).toNat = 2047 := rfl
      omega
    · exact isNaN_unpack_components sign _ _ (Or.inl (by decide))

/-- The exact powers of ten are finite and not zero. -/
theorem isOrdinary_power (i : Fin 23) :
    isOrdinary (Float.exactlyRepresentablePowersOfTen[i]).toModel.unpack = true := by
  revert i
  decide

end Binary

open Binary

/-- The double nearest to a decimal number is a number. -/
theorem Reading.isNaN_nearest (digits : Nat) (exponent : Int) :
    (Reading.nearest digits exponent).isNaN = false := by
  have hread (negative : Bool) (places : Nat) :
      (Float.ofScientific digits negative places).isNaN = false := by
    have hwhole : digits.toUInt64.toFloat.isNaN = false := isNaN_unpack_pack (isNaN_ofNat _ _)
    unfold Float.ofScientific
    split_ifs with hsmall hnegative
    · exact isNaN_unpack_pack (isNaN_div _ hwhole (isOrdinary_power ⟨places, by omega⟩))
    · exact isNaN_unpack_pack (isNaN_mul _ hwhole (isOrdinary_power ⟨places, by omega⟩))
    · exact isNaN_unpack_pack (isNaN_ofDigits ..)
    · exact isNaN_unpack_pack (isNaN_ofDigits ..)
  unfold Reading.nearest
  dsimp only
  split_ifs
  · decide
  · decide
  · exact hread _ _

/-- The double that a numeral denotes is a number. -/
theorem Numeral.isNaN_toFloat (n : Numeral) : n.toFloat.isNaN = false := by
  unfold Numeral.toFloat
  dsimp only
  split
  · exact isNaN_unpack_pack (isNaN_neg (Reading.isNaN_nearest _ _))
  · exact Reading.isNaN_nearest _ _

/-- A zero of either sign is used as the text of the number zero. -/
theorem Written.convertedChars_of_isZero {b : Binary} (h : b.isZero = true) :
    convertedChars b = Digits.write 0 := by
  cases b with
  | nan | infinite => exact Bool.noConfusion h
  | finite negative mantissa exponent =>
    cases mantissa with
    | succ n => exact Bool.noConfusion h
    | zero =>
      have hfloor : floor 0 exponent = 0 := by simp [floor]
      have hwhole : isWhole 0 exponent = true := by simp [isWhole]
      have hsmall : (0 : Nat) < wholeLimit := by decide
      simp [convertedChars, hfloor, hwhole, hsmall, Written.signed]

/-- Equal doubles are used as the same string. -/
theorem Written.converted_of_beq {x y : Float} (h : (x == y) = true) :
    converted x = converted y := by
  unfold converted
  obtain ⟨_, heq | ⟨hx, hy⟩⟩ := (float_beq_iff x y).mp h
  · rw [heq]
  · rw [convertedChars_of_isZero hx, convertedChars_of_isZero hy]

/-- Constants that are the same value are equal or equal doubles. -/
theorem Constant.eq_or_beq_of_same {c d : Constant} (h : c.same d = true) :
    c = d ∨ ∃ x y, c = float x ∧ d = float y ∧ (x == y) = true := by
  cases c <;> cases d <;> simp only [same, Bool.false_eq_true, beq_iff_eq] at h
  case bool.bool => exact Or.inl (congrArg bool h)
  case int.int => exact Or.inl (congrArg int h)
  case string.string => exact Or.inl (congrArg string h)
  case float.float x y => exact Or.inr ⟨x, y, rfl, rfl, h⟩

/-- Constants that are the same value are used as the same string. -/
theorem Ty.constantText_of_same {c d : Constant} (h : c.same d = true) :
    constantText c = constantText d := by
  rcases Constant.eq_or_beq_of_same h with rfl | ⟨x, y, rfl, rfl, hxy⟩
  · rfl
  · exact Written.converted_of_beq hxy

/-- A constant that converts to a number converts to an integer or a double, and not-a-number comes
from itself only. -/
theorem Ty.exists_of_constantToNumber {c : Constant} (h : constantToNumber c ≠ error) :
    ∃ d, constantToNumber c = constant d ∧ (d.kind = .int ∨ d.kind = .float) ∧
      (c.isNaN = false → d.isNaN = false) := by
  cases c with
  | bool value => exact ⟨_, rfl, Or.inl rfl, fun _ => rfl⟩
  | int value => exact ⟨_, rfl, Or.inl rfl, fun _ => rfl⟩
  | float x => exact ⟨_, rfl, Or.inr rfl, id⟩
  | string text =>
    rcases constantToNumber_string text with he | ⟨n, hn⟩
    · exact absurd he h
    · rw [hn]
      rcases ofNumeral_cases n with ⟨value, hvalue⟩ | hfloat
      · exact ⟨_, hvalue, Or.inl rfl, fun _ => rfl⟩
      · exact ⟨_, hfloat, Or.inr rfl, fun _ => n.isNaN_toFloat⟩

end OperatorLint
