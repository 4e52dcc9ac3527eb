import OperatorLint.Text.Digits

/-!
# Message templates

A template is a text with numbered gaps such as `{0}`. Expansion reads the template once, from
left to right: a gap whose number names an argument is replaced by that argument as it stands,
and every other brace is ordinary text. Argument text is never searched for gaps again.
-/

namespace OperatorLint.Template

/-- The number written in a gap: decimal digits, leading zeros allowed, with an optional plus
sign before them. -/
def index? : List Char → Option Nat
  | '+' :: text => Digits.read? text
  | text => Digits.read? text

/-- The argument that a gap stands for, given the text just after its opening brace, together
with the text that follows the closing brace. -/
def gap? (args : List (List Char)) (text : List Char) : Option (List Char × List Char) :=
  match text.dropWhile (· != '}') with
  | [] => none
  | _ :: rest => do
    let index ← index? (text.takeWhile (· != '}'))
    let arg ← args[index]?
    pure (arg, rest)

/-- A gap leaves less text than it found. -/
theorem gap?_shortens {args : List (List Char)} {text arg rest : List Char}
    (h : gap? args text = some (arg, rest)) : rest.length < text.length := by
  unfold gap? at h
  split at h
  · cases h
  next head tail heq =>
    have hle := (List.dropWhile_sublist (l := text) (· != '}')).length_le
    rw [heq] at hle
    simp only [Option.bind_eq_bind, Option.pure_def, Option.bind_eq_some_iff, Option.some.injEq,
      Prod.mk.injEq] at h
    obtain ⟨_, _, _, _, _, rfl⟩ := h
    simp only [List.length_cons] at hle
    omega

/-- The characters of an expanded template. -/
def expandChars (args : List (List Char)) : List Char → List Char
  | [] => []
  | c :: text =>
    if c = '{' then
      match _h : gap? args text with
      | some (arg, rest) => arg ++ expandChars args rest
      | none => c :: expandChars args text
    else c :: expandChars args text
termination_by text => text.length
decreasing_by
  · have := gap?_shortens _h
    simp only [List.length_cons]
    omega
  all_goals simp

/-- The template with its gaps filled by the arguments. -/
def expand (template : String) (args : List String) : String :=
  String.ofList (expandChars (args.map String.toList) template.toList)

end OperatorLint.Template
