import OperatorLint.Proofs.Decision
import OperatorLint.Text.Template

/-!
# Templates and the texts of findings

A template is a row of pieces, each of them a text without an opening brace or a numbered gap.
Expansion leaves the texts as they stand and puts the arguments into the gaps. Arguments are not
read again, so that braces in them stay what they are. Where there are no arguments, no brace opens
a gap and every template stays as it is. What is found at an operation is decided by the types of
its operands, and the text that says so is made of the operator's token and of the two types as they
are shown, with the names of classes and the texts of constants in them.
-/

namespace OperatorLint

namespace Template

/-- A part of a template. -/
inductive Piece where
  /-- A text that stands as it is. -/
  | literal (text : List Char)
  /-- The place of an argument. -/
  | gap (index : Nat)

namespace Piece

/-- The characters of a piece in a template. -/
def chars : Piece → List Char
  | literal text => text
  | gap index => '{' :: (Digits.write index ++ ['}'])

/-- The characters that expansion puts in the place of a piece. -/
def filled (args : List (List Char)) : Piece → List Char
  | literal text => text
  | gap index => args[index]?.getD []

/-- The text of the piece opens no gap, and its gap has an argument. -/
def Fits (args : List (List Char)) : Piece → Prop
  | literal text => '{' ∉ text
  | gap index => index < args.length

end Piece

variable {args : List (List Char)}

/-- Text without an opening brace stays as it is. -/
theorem expandChars_literal {text : List Char} (h : '{' ∉ text) (rest : List Char) :
    expandChars args (text ++ rest) = text ++ expandChars args rest := by
  induction text with
  | nil => rfl
  | cons c text ih =>
    rw [List.mem_cons, not_or] at h
    rw [List.cons_append, expandChars, if_neg (Ne.symm h.1), ih h.2, List.cons_append]

/-- The digits of a number make an index. -/
theorem index?_write (index : Nat) : index? (Digits.write index) = some index := by
  unfold index?
  split
  · next text hplus =>
    have hdigit : '+'.isDigit = true :=
      Digits.isDigit_of_mem_write (n := index) (hplus ▸ List.mem_cons_self)
    exact absurd hdigit (by decide)
  · exact Digits.read?_write index

/-- A gap with an argument is found with it, and reading goes on behind the gap. -/
theorem gap?_write {index : Nat} (h : index < args.length) (rest : List Char) :
    gap? args (Digits.write index ++ '}' :: rest) = some (args[index], rest) := by
  have hbrace : ∀ c ∈ Digits.write index, (c != '}') = true := by
    intro c hc
    have hdigit := Digits.isDigit_of_mem_write hc
    rw [bne_iff_ne]
    rintro rfl
    exact absurd hdigit (by decide)
  rw [gap?, List.dropWhile_append_of_pos hbrace, List.takeWhile_append_of_pos hbrace]
  simp [index?_write, h]

/-- A gap with an argument becomes that argument. -/
theorem expandChars_gap {index : Nat} (h : index < args.length) (rest : List Char) :
    expandChars args ('{' :: (Digits.write index ++ '}' :: rest)) =
      args[index] ++ expandChars args rest := by
  rw [expandChars, if_pos rfl]
  split
  · next arg behind hgap =>
    rw [gap?_write h, Option.some.injEq, Prod.mk.injEq] at hgap
    rw [hgap.1, hgap.2]
  · next hgap =>
    rw [gap?_write h] at hgap
    exact absurd hgap (Option.some_ne_none _)

/-- A row of pieces is expanded piece by piece. -/
theorem expandChars_pieces {pieces : List Piece} (h : ∀ p ∈ pieces, p.Fits args) :
    expandChars args (pieces.flatMap Piece.chars) = pieces.flatMap (Piece.filled args) := by
  induction pieces with
  | nil => rw [List.flatMap_nil, List.flatMap_nil, expandChars]
  | cons p pieces ih =>
    obtain ⟨hp, hrest⟩ := List.forall_mem_cons.mp h
    rw [List.flatMap_cons, List.flatMap_cons, ← ih hrest]
    cases p with
    | literal text => exact expandChars_literal hp _
    | gap index =>
      have hindex : index < args.length := hp
      rw [Piece.chars, Piece.filled, List.cons_append, List.append_assoc, List.singleton_append,
        expandChars_gap hindex, List.getElem?_eq_getElem hindex, Option.getD_some]

/-- Without arguments no gap is found. -/
theorem gap?_nil (text : List Char) : gap? [] text = none := by
  unfold gap?
  split
  · rfl
  · simp

/-- Without arguments every text stays as it is. -/
theorem expandChars_nil (text : List Char) : expandChars [] text = text := by
  induction text with
  | nil => rw [expandChars]
  | cons c text ih =>
    rw [expandChars]
    split
    · split
      · next arg rest hgap =>
        rw [gap?_nil] at hgap
        exact absurd hgap.symm (Option.some_ne_none _)
      · rw [ih]
    · rw [ih]

/-- A template that is written as a row of pieces, texts without an opening brace and numbered gaps
with an argument, is expanded to the texts as they stand and the arguments as they are, whatever
braces these hold. Without arguments every template, whatever its braces, is its own expansion. -/
theorem expand_pieces :
    (∀ (args : List String) (pieces : List Piece),
      (∀ p ∈ pieces, p.Fits (args.map String.toList)) →
        expand (String.ofList (pieces.flatMap Piece.chars)) args =
          String.ofList (pieces.flatMap (Piece.filled (args.map String.toList)))) ∧
      ∀ template : String, expand template [] = template := by
  constructor
  · intro args pieces h
    rw [expand, String.toList_ofList, expandChars_pieces h]
  · intro template
    rw [expand, List.map_nil, expandChars_nil, String.ofList_toList]

/-- Closing braces in the text stand, and arguments that look like gaps are copied. -/
theorem expand_pieces_braces :
    let args := ["\x7b1\x7d", "\x7b0\x7d\x7d"]
    let pieces := [Piece.literal "\x7d: ".toList, .gap 1, .gap 0, .literal "\x7d".toList]
    (∀ p ∈ pieces, p.Fits (args.map String.toList)) ∧
      expand "\x7d: \x7b1\x7d\x7b0\x7d\x7d" args = "\x7d: \x7b0\x7d\x7d\x7b1\x7d\x7d" := by
  intro args pieces
  have hfits : ∀ p ∈ pieces, p.Fits (args.map String.toList) := by
    simp only [pieces, List.forall_mem_cons, List.not_mem_nil, false_implies, implies_true,
      Piece.Fits]
    decide
  exact ⟨hfits, expand_pieces.1 args pieces hfits⟩

end Template

namespace Operands

open Template (Piece)

/-- The parts of the message about operands. -/
def messagePieces : List Piece :=
  [.literal "Binary operation \"".toList, .gap 0, .literal "\" between ".toList, .gap 1,
    .literal " and ".toList, .gap 2, .literal " results in an error.".toList]

/-- The message about operands is made of its parts. -/
theorem template_operands :
    Message.operands.template.toList = messagePieces.flatMap Piece.chars := by
  decide

/-- The parts of the message fit three arguments, whatever these are. -/
theorem fits_messagePieces (operator left right : List Char) :
    ∀ p ∈ messagePieces, p.Fits [operator, left, right] := by
  simp only [messagePieces, List.forall_mem_cons, List.not_mem_nil, false_implies, implies_true,
    Piece.Fits, List.length_cons, List.length_nil]
  decide

/-- The message about operands with its gaps filled. -/
theorem format_operands (operator left right : String) :
    Message.operands.format [operator, left, right] =
      "Binary operation \"" ++ operator ++ "\" between " ++ left ++ " and " ++ right ++
        " results in an error." := by
  have hfits := fits_messagePieces operator.toList left.toList right.toList
  rw [Message.format, Template.expand, template_operands, ← String.toList_inj,
    String.toList_ofList]
  simp only [List.map_cons, List.map_nil]
  rw [Template.expandChars_pieces hfits]
  simp [messagePieces, Piece.filled]

/-- Whatever the scope binds and the operands are, the check of an operation finds one text when
the types of the operands are reported, and nothing otherwise. The text shows the operator and the
two types. -/
theorem inspect_eq_of_types (s : Strictness) (scope : Scope) (origin : Origin) (op : Operator)
    (left right : Expr Origin) :
    (Rule.operands .reference s).inspect scope (.binary origin left op right) =
      if reported s op (left.typeIn scope) (right.typeIn scope) = true then
        ["Binary operation \"" ++ op.token ++ "\" between " ++
          (left.typeIn scope).describe .values ++ " and " ++
            (right.typeIn scope).describe .values ++ " results in an error."]
      else [] := by
  rw [inspect_binary, finding, format_operands]
  rfl

end Operands

end OperatorLint
