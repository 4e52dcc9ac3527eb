import OperatorLint.Proofs.Conversion

/-!
# The grammar of numeric texts

A numeric text is a sign, digits with a point among them, before them or behind them, and an
exponent, with blanks around it; all but the digits may be missing. The grammar is stated part by
part together with what each part contributes to the numeral. Reading accepts the texts of the
grammar and no other ones: each part ends at the first character that cannot belong to it, and the
next part of a text of the grammar starts with such a character. Integers that fit are read as
integers, and the text of an integer is read as that integer.
-/

namespace OperatorLint

namespace Numeral

/-- The text consists of blanks. -/
def Blank (text : List Char) : Prop := ∀ c ∈ text, isBlank c = true

instance (text : List Char) : Decidable (Blank text) :=
  decidable_of_iff (text.all isBlank = true) List.all_eq_true

/-- The text consists of digits. -/
def Digital (text : List Char) : Prop := ∀ c ∈ text, c.isDigit = true

instance (text : List Char) : Decidable (Digital text) :=
  decidable_of_iff (text.all Char.isDigit = true) List.all_eq_true

/-- An optional sign, negative or not. -/
inductive Sign : List Char → Bool → Prop where
  /-- No sign. -/
  | none : Sign [] false
  /-- A plus sign. -/
  | plus : Sign ['+'] false
  /-- A minus sign. -/
  | minus : Sign ['-'] true

/-- Digits with an optional point, with the digits before it and, if there is a point, those behind
it. At least one digit is written. -/
inductive Mantissa : List Char → List Char → Option (List Char) → Prop where
  /-- Digits without a point. -/
  | whole {digits : List Char} (h : Digital digits) (hne : digits ≠ []) :
      Mantissa digits digits none
  /-- Digits and a point, behind which there may be more of them. -/
  | point {digits after : List Char} (h : Digital digits) (hne : digits ≠ [])
      (hafter : Digital after) : Mantissa (digits ++ '.' :: after) digits (some after)
  /-- A point and digits. -/
  | fraction {after : List Char} (h : Digital after) (hne : after ≠ []) :
      Mantissa ('.' :: after) [] (some after)

/-- An optional exponent, with its number. -/
inductive Power : List Char → Option Int → Prop where
  /-- No exponent. -/
  | none : Power [] none
  /-- A mark, an optional sign and digits. -/
  | written {mark : Char} {sign digits : List Char} {negative : Bool}
      (hmark : mark = 'e' ∨ mark = 'E') (hsign : Sign sign negative) (h : Digital digits)
      (hne : digits ≠ []) : Power (mark :: (sign ++ digits))
        (some (if negative then -(Digits.value digits : Int) else Digits.value digits))

/-- The text is a numeral without anything around it. -/
inductive Spells : List Char → Numeral → Prop where
  /-- A sign, a mantissa and an exponent. -/
  | intro {sign mantissa power whole : List Char} {negative : Bool}
      {fraction : Option (List Char)} {exponent : Option Int} (hsign : Sign sign negative)
      (hmantissa : Mantissa mantissa whole fraction) (hpower : Power power exponent) :
      Spells (sign ++ (mantissa ++ power)) ⟨negative, whole, fraction, exponent⟩

/-- The text is a numeral with blanks around it. -/
inductive Holds : List Char → Numeral → Prop where
  /-- Blanks, a numeral and blanks. -/
  | intro {front core back : List Char} {n : Numeral} (hfront : Blank front) (h : Spells core n)
      (hback : Blank back) : Holds (front ++ (core ++ back)) n

section Runs

variable {p : Char → Bool} {run rest : List Char} (hrun : ∀ c ∈ run, p c = true)
  (hrest : ∀ c ∈ rest.head?, p c = false)

include hrun hrest

/-- A run ends at the first character that does not belong to it. -/
theorem takeWhile_run : (run ++ rest).takeWhile p = run := by
  rw [List.takeWhile_append_of_pos hrun]
  cases rest with
  | nil => simp
  | cons c rest => simp [hrest c rfl]

/-- Behind a run stands the first character that does not belong to it. -/
theorem dropWhile_run : (run ++ rest).dropWhile p = rest := by
  rw [List.dropWhile_append_of_pos hrun]
  cases rest with
  | nil => rfl
  | cons c rest => simp [hrest c rfl]

end Runs

/-- Digits are read up to the first character that is none. -/
theorem digital_takeWhile (text : List Char) : Digital (text.takeWhile Char.isDigit) :=
  fun _ hc => List.mem_takeWhile_imp hc

/-- Neither sign character starts the text. -/
def Unsigned (text : List Char) : Prop := ∀ c ∈ text.head?, c ≠ '-' ∧ c ≠ '+'

/-- A digit is no sign. -/
theorem unsigned_of_digital {digits : List Char} (h : Digital digits) (hne : digits ≠ [])
    (rest : List Char) : Unsigned (digits ++ rest) := by
  cases digits with
  | nil => exact absurd rfl hne
  | cons d digits =>
    intro c hc
    cases hc
    have hd := h d List.mem_cons_self
    exact ⟨by rintro rfl; exact absurd hd (by decide), by rintro rfl; exact absurd hd (by decide)⟩

/-- A sign is taken from what stands behind it. -/
theorem takeSign_append {sign rest : List Char} {negative : Bool} (h : Sign sign negative)
    (hrest : Unsigned rest) : takeSign (sign ++ rest) = (negative, rest) := by
  cases h with
  | plus | minus => rfl
  | none =>
    rw [List.nil_append]
    unfold takeSign
    split
    · exact absurd rfl (hrest _ rfl).1
    · exact absurd rfl (hrest _ rfl).2
    · rfl

/-- What is taken is a sign, and it stood before the rest. -/
theorem exists_sign {text rest : List Char} {negative : Bool}
    (h : takeSign text = (negative, rest)) : ∃ sign, Sign sign negative ∧ text = sign ++ rest := by
  unfold takeSign at h
  split at h
  · cases h
    exact ⟨_, Sign.minus, rfl⟩
  · cases h
    exact ⟨_, Sign.plus, rfl⟩
  · cases h
    exact ⟨_, Sign.none, rfl⟩

/-- An exponent is read from its texts only. -/
theorem exponent?_eq_some_iff {text : List Char} {exponent : Option Int} :
    exponent? text = some exponent ↔ Power text exponent := by
  constructor
  · intro h
    cases text with
    | nil =>
      cases h
      exact Power.none
    | cons mark text =>
      rcases htake : takeSign text with ⟨negative, digits⟩
      obtain ⟨sign, hsign, rfl⟩ := exists_sign htake
      simp only [exponent?, htake] at h
      split at h
      · next hdigits =>
        simp only [Bool.and_eq_true, Bool.or_eq_true, beq_iff_eq, Bool.not_eq_true',
          List.isEmpty_eq_false_iff, List.all_eq_true] at hdigits
        obtain ⟨⟨hmark, hne⟩, hall⟩ := hdigits
        cases h
        exact Power.written hmark hsign hall hne
      · cases h
  · intro h
    cases h with
    | none => rfl
    | @written mark sign digits negative hmark hsign hdigits hne =>
      have hunsigned := unsigned_of_digital hdigits hne []
      rw [List.append_nil] at hunsigned
      have hall : digits.all Char.isDigit = true := List.all_eq_true.mpr hdigits
      have hmarked : (mark == 'e' || mark == 'E') = true := by simpa using hmark
      simp [exponent?, takeSign_append hsign hunsigned, hmarked, hall, hne]

/-- The text starts with neither a digit nor a point. -/
def Closing (text : List Char) : Prop := ∀ c ∈ text.head?, c.isDigit = false ∧ c ≠ '.'

/-- An exponent ends the digits before it. -/
theorem Power.closing {text : List Char} {exponent : Option Int} (h : Power text exponent) :
    Closing text := by
  cases h with
  | none =>
    intro c hc
    cases hc
  | written hmark =>
    intro c hc
    cases hc
    rcases hmark with rfl | rfl <;> decide

/-- No point is taken where none starts the text. -/
theorem takeFraction_of_closing {text : List Char} (h : Closing text) :
    takeFraction text = (none, text) := by
  unfold takeFraction
  split
  · exact absurd rfl (h _ rfl).2
  · rfl

/-- The digits behind a point are taken up to the end of a mantissa. -/
theorem takeFraction_point {after rest : List Char} (h : Digital after) (hrest : Closing rest) :
    takeFraction ('.' :: (after ++ rest)) = (some after, rest) := by
  have hstop : ∀ c ∈ rest.head?, c.isDigit = false := fun c hc => (hrest c hc).1
  rw [takeFraction, takeWhile_run h hstop, dropWhile_run h hstop]

/-- A mantissa starts without a sign. -/
theorem Mantissa.unsigned {text whole : List Char} {fraction : Option (List Char)}
    (h : Mantissa text whole fraction) (rest : List Char) : Unsigned (text ++ rest) := by
  cases h with
  | whole h hne => exact unsigned_of_digital h hne rest
  | point h hne hafter =>
    rw [List.append_assoc]
    exact unsigned_of_digital h hne _
  | fraction h hne =>
    intro c hc
    cases hc
    decide

/-- A mantissa is taken apart in front of what ends it. -/
theorem Mantissa.taken {text whole rest : List Char} {fraction : Option (List Char)}
    (h : Mantissa text whole fraction) (hrest : Closing rest) :
    (text ++ rest).takeWhile Char.isDigit = whole ∧
      takeFraction ((text ++ rest).dropWhile Char.isDigit) = (fraction, rest) ∧
        (whole.isEmpty && (fraction.getD []).isEmpty) = false := by
  have hstop : ∀ c ∈ rest.head?, c.isDigit = false := fun c hc => (hrest c hc).1
  have hpoint (after : List Char) : ∀ c ∈ ('.' :: after).head?, c.isDigit = false := by
    intro c hc
    cases hc
    decide
  cases h with
  | whole h hne =>
    rw [takeWhile_run h hstop, dropWhile_run h hstop, takeFraction_of_closing hrest]
    exact ⟨rfl, rfl, by simp [hne]⟩
  | point h hne hafter =>
    rw [List.append_assoc, List.cons_append, takeWhile_run h (hpoint _),
      dropWhile_run h (hpoint _), takeFraction_point hafter hrest]
    exact ⟨rfl, rfl, by simp [hne]⟩
  | @fraction after h hne =>
    have htake : ('.' :: (after ++ rest)).takeWhile Char.isDigit = [] := rfl
    have hdrop : ('.' :: (after ++ rest)).dropWhile Char.isDigit = '.' :: (after ++ rest) := rfl
    rw [List.cons_append, htake, hdrop, takeFraction_point h hrest]
    exact ⟨rfl, rfl, by simp [hne]⟩

/-- What is taken is a mantissa when a digit is among it, and it stood before the rest. -/
theorem exists_mantissa {text whole rest : List Char} {fraction : Option (List Char)}
    (hwhole : text.takeWhile Char.isDigit = whole)
    (hfraction : takeFraction (text.dropWhile Char.isDigit) = (fraction, rest))
    (hdigit : (whole.isEmpty && (fraction.getD []).isEmpty) = false) :
    ∃ mantissa, Mantissa mantissa whole fraction ∧ text = mantissa ++ rest := by
  have hdigital := digital_takeWhile text
  have hsplit := List.takeWhile_append_dropWhile (p := Char.isDigit) (l := text)
  rw [hwhole] at hdigital hsplit
  unfold takeFraction at hfraction
  split at hfraction
  · next after hpoint =>
    cases hfraction
    have hafter := digital_takeWhile after
    have hbehind := List.takeWhile_append_dropWhile (p := Char.isDigit) (l := after)
    rw [hpoint] at hsplit
    by_cases hne : whole = []
    · rw [hne] at hdigit hsplit ⊢
      have hsome : after.takeWhile Char.isDigit ≠ [] := by simpa using hdigit
      refine ⟨_, Mantissa.fraction hafter hsome, ?_⟩
      rw [List.cons_append, hbehind, ← hsplit, List.nil_append]
    · refine ⟨_, Mantissa.point hdigital hne hafter, ?_⟩
      rw [List.append_assoc, List.cons_append, hbehind, hsplit]
  · cases hfraction
    have hne : whole ≠ [] := by simpa using hdigit
    exact ⟨_, Mantissa.whole hdigital hne, hsplit.symm⟩

/-- A text without blanks around it is read as the numeral that it spells, and refused when it
spells none. -/
theorem readTrimmed?_eq_some_iff {text : List Char} {n : Numeral} :
    readTrimmed? text = some n ↔ Spells text n := by
  constructor
  · intro h
    rcases hsigned : takeSign text with ⟨negative, unsigned⟩
    rcases hfraction : takeFraction (unsigned.dropWhile Char.isDigit) with ⟨fraction, rest⟩
    simp only [readTrimmed?, hsigned, hfraction] at h
    split at h
    · cases h
    · next hdigit =>
      obtain ⟨exponent, hexponent, rfl⟩ := Option.map_eq_some_iff.mp h
      obtain ⟨sign, hsign, rfl⟩ := exists_sign hsigned
      obtain ⟨mantissa, hmantissa, rfl⟩ :=
        exists_mantissa rfl hfraction (Bool.eq_false_iff.mpr hdigit)
      exact Spells.intro hsign hmantissa (exponent?_eq_some_iff.mp hexponent)
  · rintro ⟨hsign, hmantissa, hpower⟩
    obtain ⟨hwhole, hfraction, hdigit⟩ := hmantissa.taken hpower.closing
    simp [readTrimmed?, takeSign_append hsign (hmantissa.unsigned _), hwhole, hfraction, hdigit,
      exponent?_eq_some_iff.mpr hpower]

/-- A blank is none of the characters that a numeral is written with. -/
theorem isBlank_eq_false {c : Char}
    (h : c.isDigit = true ∨ c = '-' ∨ c = '+' ∨ c = '.' ∨ c = 'e' ∨ c = 'E') :
    isBlank c = false := by
  rw [Bool.eq_false_iff]
  intro hblank
  simp only [isBlank, Bool.or_eq_true, beq_iff_eq] at hblank
  rcases hblank with ((((rfl | rfl) | rfl) | rfl) | rfl) | rfl <;> exact absurd h (by decide)

/-- A sign holds no blank. -/
theorem Sign.solid {text : List Char} {negative : Bool} (h : Sign text negative) :
    ∀ c ∈ text, isBlank c = false := by
  cases h with
  | none => exact fun c hc => absurd hc List.not_mem_nil
  | plus | minus => exact List.forall_mem_singleton.mpr rfl

/-- Digits hold no blank. -/
theorem Digital.solid {text : List Char} (h : Digital text) : ∀ c ∈ text, isBlank c = false :=
  fun c hc => isBlank_eq_false (Or.inl (h c hc))

/-- A mantissa holds no blank. -/
theorem Mantissa.solid {text whole : List Char} {fraction : Option (List Char)}
    (h : Mantissa text whole fraction) : ∀ c ∈ text, isBlank c = false := by
  have hpoint : isBlank '.' = false := rfl
  cases h with
  | whole h => exact h.solid
  | point h _ hafter =>
    exact List.forall_mem_append.mpr ⟨h.solid, List.forall_mem_cons.mpr ⟨hpoint, hafter.solid⟩⟩
  | fraction h => exact List.forall_mem_cons.mpr ⟨hpoint, h.solid⟩

/-- An exponent holds no blank. -/
theorem Power.solid {text : List Char} {exponent : Option Int} (h : Power text exponent) :
    ∀ c ∈ text, isBlank c = false := by
  cases h with
  | none => exact fun c hc => absurd hc List.not_mem_nil
  | written hmark hsign h =>
    have hsolid := isBlank_eq_false (Or.inr (Or.inr (Or.inr (Or.inr hmark))))
    exact List.forall_mem_cons.mpr ⟨hsolid, List.forall_mem_append.mpr ⟨hsign.solid, h.solid⟩⟩

/-- A numeral holds no blank. -/
theorem Spells.solid {text : List Char} {n : Numeral} (h : Spells text n) :
    ∀ c ∈ text, isBlank c = false := by
  obtain ⟨hsign, hmantissa, hpower⟩ := h
  exact List.forall_mem_append.mpr
    ⟨hsign.solid, List.forall_mem_append.mpr ⟨hmantissa.solid, hpower.solid⟩⟩

/-- A numeral is not empty. -/
theorem Spells.ne_nil {text : List Char} {n : Numeral} (h : Spells text n) : text ≠ [] := by
  obtain ⟨_, hmantissa, _⟩ := h
  cases hmantissa <;> simp_all

/-- Trimming takes the blanks around a text without blanks. -/
theorem trim_append {front core back : List Char} (hfront : Blank front)
    (hcore : ∀ c ∈ core, isBlank c = false) (hne : core ≠ []) (hback : Blank back) :
    trim (front ++ (core ++ back)) = core := by
  have hhead : ∀ c ∈ (core ++ back).head?, isBlank c = false := by
    intro c hc
    rw [List.head?_append_of_ne_nil _ hne] at hc
    exact hcore c (List.mem_of_mem_head? hc)
  have hlast : ∀ c ∈ core.reverse.head?, isBlank c = false := fun c hc =>
    hcore c (List.mem_reverse.mp (List.mem_of_mem_head? hc))
  have hreverse : Blank back.reverse := fun c hc => hback c (List.mem_reverse.mp hc)
  rw [trim, dropWhile_run hfront hhead, List.reverse_append, dropWhile_run hreverse hlast,
    List.reverse_reverse]

/-- Trimming takes nothing but blanks. -/
theorem exists_blanks (text : List Char) :
    ∃ front back, Blank front ∧ Blank back ∧ text = front ++ (trim text ++ back) := by
  have hfront := List.takeWhile_append_dropWhile (p := isBlank) (l := text)
  have hback := List.takeWhile_append_dropWhile (p := isBlank)
    (l := (text.dropWhile isBlank).reverse)
  have hsplit := congrArg List.reverse hback
  rw [List.reverse_append, List.reverse_reverse] at hsplit
  refine ⟨text.takeWhile isBlank, ((text.dropWhile isBlank).reverse.takeWhile isBlank).reverse,
    fun c hc => List.mem_takeWhile_imp hc, ?_, ?_⟩
  · intro c hc
    exact List.mem_takeWhile_imp (List.mem_reverse.mp hc)
  · rw [trim, hsplit, hfront]

/-- A text is read as the numeral that it holds, and refused when it holds none. -/
theorem read?_eq_some_iff {text : String} {n : Numeral} :
    read? text = some n ↔ Holds text.toList n := by
  rw [read?, readTrimmed?_eq_some_iff]
  constructor
  · intro h
    obtain ⟨front, back, hfront, hback, htext⟩ := exists_blanks text.toList
    rw [htext]
    exact Holds.intro hfront h hback
  · intro h
    generalize text.toList = chars at h
    obtain ⟨hfront, hspells, hback⟩ := h
    rw [trim_append hfront hspells.solid hspells.ne_nil hback]
    exact hspells

/-- The whole number of a numeral with neither a point nor an exponent. -/
theorem integer?_eq_some_iff {n : Numeral} {value : Int} : n.integer? = some value ↔
    n.fraction = none ∧ n.exponent = none ∧
      (if n.negative then -(Digits.value n.whole : Int) else Digits.value n.whole) = value := by
  rw [integer?]
  split
  · next h =>
    rw [Bool.and_eq_true, Option.isNone_iff_eq_none, Option.isNone_iff_eq_none] at h
    simp [h]
  · next h =>
    rw [Bool.and_eq_true, Option.isNone_iff_eq_none, Option.isNone_iff_eq_none] at h
    simp only [reduceCtorEq, false_iff]
    exact fun hparts => h ⟨hparts.1, hparts.2.1⟩

/-- The digits of an integer behind its sign spell it, without a point and an exponent. -/
theorem spells_integerChars (value : Int64) : Spells (Written.integerChars value)
    ⟨value.toInt < 0, Digits.write value.toInt.natAbs, none, none⟩ := by
  have hdigits : Digital (Digits.write value.toInt.natAbs) := fun c hc =>
    Digits.isDigit_of_mem_write hc
  have hmantissa := Mantissa.whole hdigits Nat.toDigits_ne_nil
  rw [Written.integerChars, Written.signed]
  by_cases hneg : value.toInt < 0
  · simpa [hneg] using Spells.intro Sign.minus hmantissa Power.none
  · simpa [hneg] using Spells.intro Sign.none hmantissa Power.none

/-- The text of an integer has its value. -/
theorem integer?_integerChars (value : Int64) :
    (Numeral.mk (value.toInt < 0) (Digits.write value.toInt.natAbs) none none).integer? =
      some value.toInt := by
  rw [integer?_eq_some_iff]
  refine ⟨rfl, rfl, ?_⟩
  rw [Digits.value_write]
  by_cases hneg : value.toInt < 0
  · simp only [hneg, decide_true, if_true]
    omega
  · simp only [hneg, decide_false, Bool.false_eq_true, if_false]
    omega

end Numeral

namespace Ty

open Numeral (Holds Blank)

/-- A numeral is a constant integer exactly when its whole number is that integer. -/
theorem ofNumeral_eq_int_iff {n : Numeral} {value : Int64} :
    ofNumeral n = constant (.int value) ↔ n.integer? = some value.toInt := by
  unfold ofNumeral
  constructor
  · intro h
    split at h
    · next r hr =>
      cases h
      obtain ⟨k, hk, hkr⟩ := Option.bind_eq_some_iff.mp hr
      rw [hk, Integer.toInt_of_ofInt? hkr]
    · cases h
  · intro h
    rw [h, Option.bind_some, Integer.ofInt?_toInt]

/-- A text is a number exactly when it holds a numeral, and then it is the constant of that. -/
theorem parseNumeric_eq_some_iff {text : String} {t : Ty} :
    parseNumeric text = some t ↔ ∃ n, Holds text.toList n ∧ ofNumeral n = t := by
  rw [parseNumeric, Option.map_eq_some_iff]
  simp only [Numeral.read?_eq_some_iff]

/-- A text that holds a numeral is the constant of that numeral. -/
theorem parseNumeric_of_holds {text : String} {n : Numeral} (h : Holds text.toList n) :
    parseNumeric text = some (ofNumeral n) := parseNumeric_eq_some_iff.mpr ⟨n, h, rfl⟩

/-- The text of an integer is that integer, also between blanks. -/
theorem parseNumeric_integer (value : Int64) {front back : String} (hfront : Blank front.toList)
    (hback : Blank back.toList) :
    parseNumeric (front ++ Written.integer value ++ back) = some (constant (.int value)) := by
  have hholds := Holds.intro hfront (Numeral.spells_integerChars value) hback
  have htext : (front ++ Written.integer value ++ back).toList =
      front.toList ++ (Written.integerChars value ++ back.toList) := by
    simp [Written.integer]
  rw [← htext] at hholds
  rw [parseNumeric_of_holds hholds, ofNumeral_eq_int_iff.mpr (Numeral.integer?_integerChars value)]

/-- A constant integer that is used as a text and read as a number is the same integer. -/
theorem toNumber_toText_int (value : Int64) :
    (constant (.int value)).toText.toNumber = constant (.int value) := by
  have hempty : Blank "".toList := fun c hc => absurd hc List.not_mem_nil
  have hparse := parseNumeric_integer value hempty hempty
  rw [String.empty_append, String.append_empty] at hparse
  change (parseNumeric (Written.integer value)).getD error = _
  rw [hparse, Option.getD_some]

/-- A text is a number exactly when it is blanks, a numeral of the grammar and blanks. It is a
constant integer exactly when neither a point nor an exponent is written and the signed value of the
digits fits, and the double of the numeral in every other case. In particular the text of an
integer, with any blanks around it, is that integer. -/
theorem parseNumeric_grammar (text : String) :
    ((parseNumeric text).isSome = true ↔ ∃ n, Holds text.toList n) ∧
      (∀ n, Holds text.toList n →
        (∀ value : Int64, parseNumeric text = some (constant (.int value)) ↔
          n.fraction = none ∧ n.exponent = none ∧
            (if n.negative then -(Digits.value n.whole : Int) else Digits.value n.whole) =
              value.toInt) ∧
        ((∀ value : Int64, parseNumeric text ≠ some (constant (.int value))) →
          parseNumeric text = some (constant (.float n.toFloat)))) ∧
      ∀ value : Int64,
        (∀ front back : String, Blank front.toList → Blank back.toList →
          parseNumeric (front ++ Written.integer value ++ back) = some (constant (.int value))) ∧
        (constant (.int value)).toText.toNumber = constant (.int value) := by
  refine ⟨?_, ?_, ?_⟩
  · rw [Option.isSome_iff_exists]
    constructor
    · rintro ⟨t, ht⟩
      obtain ⟨n, hn, _⟩ := parseNumeric_eq_some_iff.mp ht
      exact ⟨n, hn⟩
    · rintro ⟨n, hn⟩
      exact ⟨_, parseNumeric_of_holds hn⟩
  · intro n hn
    rw [parseNumeric_of_holds hn]
    constructor
    · intro value
      rw [Option.some_inj, ofNumeral_eq_int_iff, Numeral.integer?_eq_some_iff]
    · intro hno
      rcases ofNumeral_cases n with ⟨value, hvalue⟩ | hfloat
      · exact absurd (congrArg some hvalue) (hno value)
      · rw [hfloat]
  · intro value
    exact ⟨fun _ _ => parseNumeric_integer value, toNumber_toText_int value⟩

/-- The least integer between a tabulator and a line feed is an integer, and the number below it is
a double. -/
theorem parseNumeric_grammar_least :
    let digits := "9223372036854775808".toList
    let beyond := "9223372036854775809".toList
    (Holds "\t-9223372036854775808\n".toList ⟨true, digits, none, none⟩ ∧
      parseNumeric "\t-9223372036854775808\n" = some (constant (.int Int64.minValue))) ∧
    Holds "-9223372036854775809".toList ⟨true, beyond, none, none⟩ ∧
      ∃ x, parseNumeric "-9223372036854775809" = some (constant (.float x)) := by
  intro digits beyond
  have hdigits : Numeral.Digital digits := by decide
  have hbeyond : Numeral.Digital beyond := by decide
  have hleast : Holds "\t-9223372036854775808\n".toList ⟨true, digits, none, none⟩ :=
    @Holds.intro ['\t'] _ ['\n'] _ (by decide) (.intro .minus (.whole hdigits (by decide)) .none)
      (by decide)
  have hbelow : Holds "-9223372036854775809".toList ⟨true, beyond, none, none⟩ :=
    @Holds.intro [] _ [] _ (by decide) (.intro .minus (.whole hbeyond (by decide)) .none)
      (by decide)
  have hint := (parseNumeric_grammar _).2.1 _ hleast
  have hfloat := (parseNumeric_grammar _).2.1 _ hbelow
  refine ⟨⟨hleast, (hint.1 _).mpr ⟨rfl, rfl, by decide⟩⟩, hbelow, _, hfloat.2 ?_⟩
  intro value hvalue
  have hvalue := ((hfloat.1 value).mp hvalue).2.2
  have hle := value.minValue_le_toInt
  rw [← hvalue] at hle
  exact absurd hle (by decide)

end Ty

end OperatorLint
