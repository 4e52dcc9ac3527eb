import Mathlib.Algebra.Ring.Parity
import OperatorLint.Proofs.Combination
import OperatorLint.Proofs.Folding

/-!
# Powers of constant integers

An exponent of at most 32 bits gives the exact power where it fits and a double where it does not;
every larger exponent gives a double. From the exponent 64 on only the bases -1, 0 and 1 have powers
that fit, so the limit on exponents shows on these three bases and on no other one. For the same
reason a large exponent may be cut down to its parity before the power is taken.
-/

namespace OperatorLint

namespace Integer

variable {x : Int} {n : Nat} {a b : Int64}

/-- From the exponent 64 on the powers of every base other than -1, 0 and 1 leave the range. -/
theorem not_fits_pow (hx : 1 < x.natAbs) (hn : 64 ≤ n) : ¬ Fits (x ^ n) := by
  have hpower : 2 ^ 64 ≤ (x ^ n).natAbs := by
    calc 2 ^ 64 ≤ 2 ^ n := Nat.pow_le_pow_right (by decide) hn
      _ ≤ x.natAbs ^ n := Nat.pow_le_pow_left hx n
      _ = (x ^ n).natAbs := (Int.natAbs_pow x n).symm
  rintro ⟨hlow, hhigh⟩
  omega

/-- The powers of -1, 0 and 1 stay in the range. -/
theorem fits_pow (hx : x.natAbs ≤ 1) (n : Nat) : Fits (x ^ n) := by
  have hpower : (x ^ n).natAbs ≤ 1 := by
    calc (x ^ n).natAbs = x.natAbs ^ n := Int.natAbs_pow x n
      _ ≤ 1 ^ n := Nat.pow_le_pow_left hx n
      _ = 1 := Nat.one_pow n
  unfold Fits
  omega

/-- Powers of -1, 0 and 1 depend on the parity of a large exponent only. -/
theorem pow_shortExponent (hx : x.natAbs ≤ 1) (n : Nat) : x ^ shortExponent n = x ^ n := by
  unfold shortExponent
  split
  · rfl
  · next hn =>
    have hcases : x = -1 ∨ x = 0 ∨ x = 1 := by omega
    rcases hcases with rfl | rfl | rfl
    · rw [neg_one_pow_eq_pow_mod_two, neg_one_pow_eq_pow_mod_two n]
      congr 1
      omega
    · rw [zero_pow (by omega), zero_pow (by omega)]
    · rw [one_pow, one_pow]

/-- Cutting down an exponent changes nothing in what fits. -/
theorem ofInt?_pow_shortExponent (x : Int) (n : Nat) :
    ofInt? (x ^ shortExponent n) = ofInt? (x ^ n) := by
  by_cases hx : x.natAbs ≤ 1
  · rw [pow_shortExponent hx]
  · by_cases hn : n < 64
    · rw [shortExponent, if_pos hn]
    · have hlarge : 64 ≤ shortExponent n := by
        rw [shortExponent, if_neg hn]
        exact Nat.le_add_right 64 _
      rw [ofInt?_of_not_fits (not_fits_pow (Nat.lt_of_not_le hx) hlarge),
        ofInt?_of_not_fits (not_fits_pow (Nat.lt_of_not_le hx) (Nat.le_of_not_lt hn))]

/-- The power by an exponent of at most 32 bits is the exact one, when that fits. -/
theorem power?_of_lt (h : 0 ≤ b.toInt) (hb : b.toInt < 2 ^ 32) :
    power? a b = ofInt? (a.toInt ^ b.toInt.toNat) := by
  have hlimit : b.toInt ≤ maxExponent := Int.le_sub_one_of_lt hb
  rw [power?, if_pos ⟨h, hlimit⟩]
  exact ofInt?_pow_shortExponent a.toInt b.toInt.toNat

/-- No larger exponent is admitted. -/
theorem power?_of_le (hb : 2 ^ 32 ≤ b.toInt) : power? a b = none := by
  have hlimit : ¬ b.toInt ≤ maxExponent := fun hle =>
    absurd (Int.lt_of_le_sub_one hle) (Int.not_lt.mpr hb)
  rw [power?, if_neg fun h => hlimit h.2]

end Integer

open Integer (Fits)

/-- A constant double is not the constant integer of a value. -/
theorem Ty.IsDouble.not_keeps {t : Ty} {n : Int} (h : t.IsDouble) (hn : Fits n) :
    ¬ t.Keeps n := by
  intro hkeeps
  obtain ⟨x, rfl⟩ := h
  obtain ⟨r, _, hr⟩ := hkeeps.1 hn
  cases hr

namespace Operation

variable {a b : Int64}

/-- Up to 32 bits of exponent a power is kept exactly. -/
theorem keeps_power (h : 0 ≤ b.toInt) (hb : b.toInt < 2 ^ 32) :
    (arithmetic .pow (.constant (.int a)) (.constant (.int b))).Keeps
      (a.toInt ^ b.toInt.toNat) :=
  keeps_arithmetic .pow Bool.noConfusion (Integer.power?_of_lt h hb)

/-- Past 32 bits of exponent every power is a double. -/
theorem isDouble_power (hb : 2 ^ 32 ≤ b.toInt) :
    (arithmetic .pow (.constant (.int a)) (.constant (.int b))).IsDouble :=
  isDouble_arithmetic .pow Bool.noConfusion (Integer.power?_of_le hb)

end Operation

open Operation

/-- The power of two constant integers with an exponent that is not negative is the exact integer
where that fits and a double where it does not, unless the exponent has more than 32 bits and the
base is -1, 0 or 1; every exponent of more than 32 bits gives a double. -/
theorem Operator.power_kept_iff {op : Operator} (hop : op.base = .compute .pow) {a b : Int64}
    (h : 0 ≤ b.toInt) :
    let power := op.result (.constant (.int a)) (.constant (.int b))
    (power.Keeps (a.toInt ^ b.toInt.toNat) ↔ b.toInt < 2 ^ 32 ∨ a.toInt ∉ [-1, 0, 1]) ∧
      (2 ^ 32 ≤ b.toInt → power.IsDouble) := by
  rw [Operator.result_of_base hop]
  have hbase : a.toInt ∉ [-1, 0, 1] ↔ 1 < a.toInt.natAbs := by
    simp only [List.mem_cons, List.not_mem_nil, or_false]
    omega
  intro power
  rw [hbase]
  refine ⟨⟨?_, ?_⟩, isDouble_power⟩
  · intro hkeeps
    by_contra hnot
    rw [not_or, Int.not_lt, Nat.not_lt] at hnot
    exact (isDouble_power hnot.1).not_keeps (Integer.fits_pow hnot.2 _) hkeeps
  · rintro (hb | ha)
    · exact keeps_power h hb
    · by_cases hb : b.toInt < 2 ^ 32
      · exact keeps_power h hb
      · have hlarge : 2 ^ 32 ≤ b.toInt := Int.not_lt.mp hb
        have hnot : ¬ Fits (a.toInt ^ b.toInt.toNat) := Integer.not_fits_pow ha (by omega)
        exact ⟨fun hfits => absurd hfits hnot, fun _ => isDouble_power hlarge⟩

/-- The power `(-2) ** 63` is the least integer, and `2 **= 4294967296` is a double. -/
theorem Operator.power_kept_at_edge :
    ((Operator.compute .pow).result (.constant (.int (-2))) (.constant (.int 63))).Keeps
        ((-2) ^ 63) ∧
      ((Operator.assign .pow).result (.constant (.int 2)) (.constant (.int 4294967296))).IsDouble :=
  ⟨(power_kept_iff rfl (by decide)).1.mpr (Or.inl (by decide)),
    (power_kept_iff rfl (by decide)).2 (by decide)⟩

/-- The power `1 ** 4294967296` is one, but a double. -/
theorem Operator.power_of_one_not_kept :
    let power := (Operator.compute .pow).result (.constant (.int 1)) (.constant (.int 4294967296))
    Fits (1 ^ 4294967296) ∧ power.IsDouble ∧ ¬ power.Keeps (1 ^ 4294967296) := by
  have hfits : Fits (1 ^ 4294967296) := by
    rw [one_pow]
    decide
  have hdouble := @isDouble_power 1 4294967296 (by decide)
  exact ⟨hfits, hdouble, hdouble.not_keeps hfits⟩

end OperatorLint
