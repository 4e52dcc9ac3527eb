import OperatorLint.Expr.Notation
import OperatorLint.Ty.Description

/-!
# Where a quoted text ends

A quoted text is read from its opening quote on: the character behind a backslash is taken as it
is, and the first quote that is met otherwise ends the text. Reading a quoted text so gives the text
back, with whatever follows the closing quote. Two quoted texts that start a common text are
therefore quotations of one text, and what follows them is the same.
-/

namespace OperatorLint

namespace Quoted

/-- Reads up to the first quote that does not stand behind a backslash, and gives what was read and
what follows that quote. The flag says that a backslash stands before. -/
def inside? : Bool → List Char → Option (List Char × List Char)
  | _, [] => none
  | true, c :: rest => (inside? false rest).map fun r => (c :: r.1, r.2)
  | false, c :: rest =>
    if c = '\\' then inside? true rest
    else if c = '\'' then some ([], rest)
    else (inside? false rest).map fun r => (c :: r.1, r.2)

/-- Reads a quoted text at the start of a text, and gives it with what follows. -/
def read? : List Char → Option (List Char × List Char)
  | [] => none
  | c :: rest => if c = '\'' then inside? false rest else none

/-- The quote and the backslash are the special characters. -/
theorem isSpecial_iff {c : Char} : isSpecial c = true ↔ c = '\'' ∨ c = '\\' := by
  rw [isSpecial, Bool.or_eq_true, beq_iff_eq, beq_iff_eq]

/-- An escaped text is read up to the quote that follows it, whatever quotes and backslashes it
holds. -/
theorem inside?_escape (text rest : List Char) :
    inside? false (escape text ++ '\'' :: rest) = some (text, rest) := by
  induction text with
  | nil => rfl
  | cons c text ih =>
    by_cases hc : isSpecial c = true
    · have hescape : escape (c :: text) = '\\' :: c :: escape text := if_pos hc
      rw [hescape, List.cons_append, List.cons_append, inside?, if_pos rfl, inside?, ih]
      rfl
    · have hescape : escape (c :: text) = c :: escape text := if_neg hc
      have hplain := mt isSpecial_iff.mpr hc
      rw [not_or] at hplain
      rw [hescape, List.cons_append, inside?, if_neg hplain.2, if_neg hplain.1, ih]
      rfl

/-- A quoted text is read as that text, and what follows it is left. -/
theorem read?_quoteChars (text rest : List Char) :
    read? (quoteChars text ++ rest) = some (text, rest) := by
  have hinside := inside?_escape text rest
  rw [quoteChars, List.cons_append, List.append_assoc, List.singleton_append, read?, if_pos rfl]
  exact hinside

/-- Quoted texts at the start of one text are quotations of the same text, and what follows is the
same. -/
theorem quoteChars_append_inj {a b x y : List Char} :
    quoteChars a ++ x = quoteChars b ++ y ↔ a = b ∧ x = y := by
  constructor
  · intro h
    have hread : read? (quoteChars a ++ x) = read? (quoteChars b ++ y) := congrArg read? h
    rw [read?_quoteChars, read?_quoteChars, Option.some.injEq, Prod.mk.injEq] at hread
    exact hread
  · rintro ⟨rfl, rfl⟩
    rfl

/-- Quotations at the start of one text are quotations of the same text, and what follows is the
same. -/
theorem quote_delimits {a b x y : String} : quote a ++ x = quote b ++ y ↔ a = b ∧ x = y := by
  have hchars := @quoteChars_append_inj a.toList b.toList x.toList y.toList
  rw [String.toList_inj, String.toList_inj] at hchars
  rw [← hchars, ← String.toList_inj, String.toList_append, String.toList_append, quote, quote,
    String.toList_ofList, String.toList_ofList]

/-- A quotation tells the quoted text and its own end, whatever quotes and backslashes the text
holds. So do the text of a constant string in a program and the description of its type in a
report, which both are the quotation. -/
theorem quote_append_inj {α : Type} (s t : α) (a b x y : String) :
    (quote a ++ x = quote b ++ y ↔ a = b ∧ x = y) ∧
      ((Expr.constant s (.string a)).text ++ x = (Expr.constant t (.string b)).text ++ y ↔
        a = b ∧ x = y) ∧
        ((Ty.constant (.string a)).describe .values ++ x =
          (Ty.constant (.string b)).describe .values ++ y ↔ a = b ∧ x = y) := by
  have hprinted : ∀ (tag : α) (text : String),
      (Expr.constant tag (.string text)).text = quote text := fun _ _ => rfl
  have hdescribed : ∀ text : String, (Ty.constant (.string text)).describe .values = quote text :=
    fun _ => rfl
  rw [hprinted, hprinted, hdescribed, hdescribed]
  exact ⟨quote_delimits, quote_delimits, quote_delimits⟩

/-- The quotation of a text that ends in a backslash ends behind it: `'\\'` and then `'`. -/
example : read? "'\\\\''".toList = some (['\\'], ['\'']) := rfl

end Quoted

end OperatorLint
