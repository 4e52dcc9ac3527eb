/-!
# Integer operations that know their limits

The integers of the checked language have 64 bits. Arithmetic on constants is done exactly and
kept only when the exact result fits; shifts lose the bits that leave the word.
-/

namespace OperatorLint.Integer

/-- The 64-bit integer of a given value, if there is one. -/
def ofInt? (n : Int) : Option Int64 :=
  if Int64.minValue.toInt ≤ n ∧ n ≤ Int64.maxValue.toInt then some (Int64.ofInt n) else none

/-- The exact sum, when it fits. -/
def add? (a b : Int64) : Option Int64 := ofInt? (a.toInt + b.toInt)

/-- The exact difference, when it fits. -/
def sub? (a b : Int64) : Option Int64 := ofInt? (a.toInt - b.toInt)

/-- The exact product, when it fits. -/
def mul? (a b : Int64) : Option Int64 := ofInt? (a.toInt * b.toInt)

/-- The quotient, when the division leaves no remainder and the quotient fits. -/
def quotient? (a b : Int64) : Option Int64 :=
  if b.toInt ∣ a.toInt then ofInt? (a.toInt / b.toInt) else none

/-- The largest exponent that a power takes, the largest word of 32 bits. -/
def maxExponent : Int := UInt32.size - 1

/-- An exponent cut down without a change to what fits: from 64 on, only its parity matters to
the bases -1, 0 and 1, and every other base has left the range. -/
def shortExponent (n : Nat) : Nat := if n < 64 then n else 64 + n % 2

/-- The exact power, when the exponent is admitted and the power fits. -/
def power? (a b : Int64) : Option Int64 :=
  if 0 ≤ b.toInt ∧ b.toInt ≤ maxExponent then
    ofInt? (Int.pow a.toInt (shortExponent b.toInt.toNat))
  else none

/-- The word shifted left by a number of places that is not negative. -/
def shiftLeft (a b : Int64) : Int64 := if 64 ≤ b.toInt then 0 else a <<< b

/-- The word shifted right by a number of places that is not negative, keeping its sign. -/
def shiftRight (a b : Int64) : Int64 :=
  if 64 ≤ b.toInt then (if a.toInt < 0 then -1 else 0) else a >>> b

/-- A kept result has the exact value. -/
theorem toInt_of_ofInt? {n : Int} {r : Int64} (h : ofInt? n = some r) : r.toInt = n := by
  unfold ofInt? at h
  split at h
  · next hbounds =>
    cases h
    have hhigh : n < 2 ^ 63 := Int.lt_of_le_sub_one hbounds.2
    exact Int64.toInt_ofInt_of_le hbounds.1 hhigh
  · cases h

/-- A result is kept exactly when it fits. -/
theorem isSome_ofInt? {n : Int} :
    (ofInt? n).isSome ↔ Int64.minValue.toInt ≤ n ∧ n ≤ Int64.maxValue.toInt := by
  unfold ofInt?
  split <;> simp_all

/-- Every word is kept as it is. -/
theorem ofInt?_toInt (a : Int64) : ofInt? a.toInt = some a := by
  rw [ofInt?, if_pos ⟨a.minValue_le_toInt, a.toInt_le⟩, Int64.ofInt_toInt]

end OperatorLint.Integer
