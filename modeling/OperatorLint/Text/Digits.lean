/-!
# Runs of decimal digits

The ten ASCII digits, the number that a run of them denotes, and the run that a number is
written as. Reading undoes writing.
-/

namespace OperatorLint.Digits

/-- The number that a single digit stands for. -/
def digitValue (c : Char) : Nat := c.toNat - '0'.toNat

/-- The number that a run of digits denotes, most significant digit first. -/
def value (digits : List Char) : Nat := digits.foldl (fun n c => 10 * n + digitValue c) 0

/-- The number that a text denotes, refused when it is empty or holds anything but digits. -/
def read? (text : List Char) : Option Nat :=
  if text.isEmpty || !text.all Char.isDigit then none else some (value text)

/-- The digits of a number, without leading zeros. -/
def write (n : Nat) : List Char := Nat.toDigits 10 n

/-- One more digit at the end counts once, all before it ten times. -/
theorem value_append_singleton (digits : List Char) (c : Char) :
    value (digits ++ [c]) = 10 * value digits + digitValue c := by
  simp [value]

/-- The digits of a number below ten are one character of that value. -/
theorem digitValue_digitChar {n : Nat} (h : n < 10) : digitValue n.digitChar = n := by
  have hall : ∀ m < 10, digitValue (Nat.digitChar m) = m := by decide
  exact hall n h

/-- Reading the digits of a number gives the number back. -/
theorem value_write (n : Nat) : value (write n) = n := by
  induction n using Nat.strongRecOn with
  | ind n ih =>
    by_cases h : n < 10
    · simp [write, Nat.toDigits_of_lt_base h, value, digitValue_digitChar h]
    · have hdiv : 0 < n / 10 := by omega
      have hsplit : write n = write (n / 10) ++ [(n % 10).digitChar] := by
        have hmod : n % 10 < 10 := Nat.mod_lt _ (by decide)
        have happ := Nat.toDigits_append_toDigits (b := 10) (n := n / 10) (d := n % 10)
          (by decide) hdiv hmod
        rw [Nat.toDigits_of_lt_base hmod, Nat.div_add_mod] at happ
        exact happ.symm
      rw [hsplit, value_append_singleton, ih (n / 10) (by omega),
        digitValue_digitChar (Nat.mod_lt _ (by decide))]
      omega

/-- A number is written in digits only. -/
theorem isDigit_of_mem_write {n : Nat} {c : Char} (h : c ∈ write n) : c.isDigit = true :=
  Nat.isDigit_of_mem_toDigits (by decide) (by decide) h

/-- The digits of a number are read as that number. -/
theorem read?_write (n : Nat) : read? (write n) = some n := by
  have hempty : (write n).isEmpty = false := List.isEmpty_eq_false_iff.mpr Nat.toDigits_ne_nil
  have hall : (write n).all Char.isDigit = true :=
    List.all_eq_true.mpr fun _ hc => isDigit_of_mem_write hc
  rw [read?, hempty, hall, value_write]
  rfl

end OperatorLint.Digits
