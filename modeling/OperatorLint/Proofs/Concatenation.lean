import OperatorLint.Proofs.Refinement
import OperatorLint.Typing

/-!
# Chains of concatenations

A chain joins leaves by concatenations and by parentheses around them. What a concatenation gives
is its own text: a failure, a constant string or an unknown string, which conversion leaves as it
is. So nothing is lost when a result is converted again one level up, and the type of a chain is
read off from the texts of its leaves, whatever their grouping.
-/

namespace OperatorLint

namespace Operation

open Ty (constant)

variable {l r : Ty}

/-- A concatenation fails, gives a constant text or gives an unknown string. -/
theorem concat_cases (l r : Ty) :
    concat l r = .error ∨ (∃ s, concat l r = constant (.string s)) ∨ concat l r = .string := by
  by_cases he : concat l r = .error
  · exact Or.inl he
  · obtain ⟨_, _, hstring | ⟨a, b, _, _, htext⟩⟩ := concatTexts_cases he
    · exact Or.inr (Or.inr hstring)
    · exact Or.inr (Or.inl ⟨a ++ b, htext⟩)

/-- What a concatenation gives is a text already. -/
theorem toText_concat (l r : Ty) : (concat l r).toText = concat l r := by
  rcases concat_cases l r with he | ⟨s, htext⟩ | hstring
  · rw [he]
    rfl
  · rw [htext]
    rfl
  · rw [hstring]
    rfl

/-- A concatenation gives a constant text exactly when both operands have one. -/
theorem concat_eq_text {s : String} : concat l r = constant (.string s) ↔
    ∃ a b, l.toText = constant (.string a) ∧ r.toText = constant (.string b) ∧ s = a ++ b := by
  constructor
  · intro h
    have he : concat l r ≠ .error := h ▸ Ty.noConfusion
    obtain ⟨_, _, hstring | ⟨a, b, ha, hb, htext⟩⟩ := concatTexts_cases he
    · exact Ty.noConfusion (hstring.symm.trans h)
    · refine ⟨a, b, ha, hb, ?_⟩
      have heq := h.symm.trans htext
      cases heq
      rfl
  · rintro ⟨a, b, ha, hb, rfl⟩
    rw [concat, ha, hb]
    rfl

end Operation

namespace Expr

open Operation

variable {α : Type}

/-- The expression joins the leaves, from left to right, by concatenations, plain or compound, and
by parentheses. Any expression may be a leaf. -/
inductive Joins : Expr α → List (Expr α) → Prop where
  /-- A leaf by itself. -/
  | leaf (e : Expr α) : Joins e [e]
  /-- Parentheses around a chain. -/
  | paren (tag : α) {e : Expr α} {leaves : List (Expr α)} (h : Joins e leaves) :
      Joins (.paren tag e) leaves
  /-- A chain behind another one. -/
  | concat (tag : α) {left right : Expr α} {op : Operator} {before after : List (Expr α)}
      (hop : op.base = .compute .concat) (hleft : Joins left before) (hright : Joins right after) :
      Joins (.binary tag left op right) (before ++ after)

variable {e : Expr α} {leaves : List (Expr α)} (scope : Scope)

/-- The type of the text that an expression is used as. -/
def textIn (e : Expr α) : Ty := (e.typeIn scope).toText

/-- A concatenation has the type that its operator gives. -/
theorem typeIn_concat {tag : α} {left right : Expr α} {op : Operator}
    (hop : op.base = .compute .concat) : (Expr.binary tag left op right).typeIn scope =
      Operation.concat (left.typeIn scope) (right.typeIn scope) := by
  rw [typeIn, Operator.result_of_base hop]
  rfl

namespace Joins

/-- A chain fails as a text exactly when one of its leaves does. -/
theorem textIn_eq_error (h : Joins e leaves) :
    e.textIn scope = .error ↔ ∃ leaf ∈ leaves, leaf.textIn scope = .error := by
  induction h with
  | leaf e => simp
  | paren tag h ih => exact ih
  | concat tag hop hleft hright ihleft ihright =>
    rw [textIn, typeIn_concat scope hop, toText_concat, concat_eq_error]
    simp only [List.mem_append, or_and_right, exists_or]
    exact or_congr ihleft ihright

/-- A chain is a constant text exactly when its leaves are constant texts, which make it up. -/
theorem textIn_eq_text (h : Joins e leaves) {s : String} :
    e.textIn scope = .constant (.string s) ↔
      ∃ texts : List String,
        leaves.map (textIn scope) = texts.map (fun text => .constant (.string text)) ∧
          s = String.join texts := by
  induction h generalizing s with
  | leaf e =>
    constructor
    · intro htext
      exact ⟨[s], by simp [htext], by simp⟩
    · rintro ⟨texts, hmap, rfl⟩
      match texts with
      | [] => exact absurd hmap (by simp)
      | [a] => simpa using hmap
      | _ :: _ :: _ => exact absurd hmap (by simp)
  | paren tag h ih => exact ih
  | concat tag hop hleft hright ihleft ihright =>
    rw [textIn, typeIn_concat scope hop, toText_concat, concat_eq_text]
    constructor
    · rintro ⟨a, b, ha, hb, rfl⟩
      obtain ⟨before, hbefore, rfl⟩ := ihleft.mp ha
      obtain ⟨after, hafter, rfl⟩ := ihright.mp hb
      refine ⟨before ++ after, ?_, String.join_append.symm⟩
      rw [List.map_append, List.map_append, hbefore, hafter]
    · rintro ⟨texts, hmap, rfl⟩
      rw [List.map_append, List.append_eq_map_iff] at hmap
      obtain ⟨before, after, rfl, hbefore, hafter⟩ := hmap
      exact ⟨_, _, ihleft.mpr ⟨before, hbefore.symm, rfl⟩, ihright.mpr ⟨after, hafter.symm, rfl⟩,
        String.join_append⟩

/-- A leaf without a constant text leaves the chain without one. -/
theorem textIn_ne_text (h : Joins e leaves) {leaf : Expr α} (hleaf : leaf ∈ leaves)
    (hunknown : ∀ text, leaf.textIn scope ≠ .constant (.string text)) (s : String) :
    e.textIn scope ≠ .constant (.string s) := by
  intro hs
  obtain ⟨texts, hmap, _⟩ := (h.textIn_eq_text scope).mp hs
  have himage := List.mem_map_of_mem (f := textIn scope) hleaf
  rw [hmap] at himage
  obtain ⟨text, _, htext⟩ := List.mem_map.mp himage
  exact hunknown text htext.symm

section Linked

variable (h : Joins e leaves) (hlinked : 2 ≤ leaves.length)

include h hlinked

/-- A chain of at least two leaves is a concatenation, with or without parentheses. -/
theorem exists_concat : ∃ l r, e.typeIn scope = Operation.concat l r := by
  induction h with
  | leaf e => exact absurd hlinked (by simp)
  | paren tag h ih => exact ih hlinked
  | concat tag hop hleft hright => exact ⟨_, _, typeIn_concat scope hop⟩

/-- A chain of at least two leaves is its own text. -/
theorem textIn_eq_typeIn : e.textIn scope = e.typeIn scope := by
  obtain ⟨l, r, htype⟩ := h.exists_concat scope hlinked
  rw [textIn, htype, toText_concat]

/-- A chain of at least two leaves that neither fails nor is a constant text is an unknown
string. -/
theorem typeIn_eq_string (herror : e.textIn scope ≠ .error)
    (htext : ∀ s, e.textIn scope ≠ .constant (.string s)) : e.typeIn scope = .string := by
  rw [h.textIn_eq_typeIn scope hlinked] at herror htext
  obtain ⟨l, r, htype⟩ := h.exists_concat scope hlinked
  rw [htype] at herror htext ⊢
  rcases concat_cases l r with he | ⟨s, hs⟩ | hstring
  · exact absurd he herror
  · exact absurd hs (htext s)
  · exact hstring

/-- Two chains of the same leaves, at least two of them, have the same type. -/
theorem typeIn_eq {e' : Expr α} (h' : Joins e' leaves) : e'.typeIn scope = e.typeIn scope := by
  have hfails : e'.textIn scope = .error ↔ e.textIn scope = .error :=
    (h'.textIn_eq_error scope).trans (h.textIn_eq_error scope).symm
  have htexts (s : String) : e'.textIn scope = .constant (.string s) ↔
      e.textIn scope = .constant (.string s) :=
    (h'.textIn_eq_text scope).trans (h.textIn_eq_text scope).symm
  by_cases herror : e.textIn scope = .error
  · rw [← h'.textIn_eq_typeIn scope hlinked, ← h.textIn_eq_typeIn scope hlinked, herror,
      hfails.mpr herror]
  · by_cases htext : ∃ s, e.textIn scope = .constant (.string s)
    · obtain ⟨s, hs⟩ := htext
      rw [← h'.textIn_eq_typeIn scope hlinked, ← h.textIn_eq_typeIn scope hlinked, hs,
        (htexts s).mpr hs]
    · have hunknown (s : String) (hs : e.textIn scope = .constant (.string s)) : False :=
        htext ⟨s, hs⟩
      rw [h.typeIn_eq_string scope hlinked herror hunknown, h'.typeIn_eq_string scope hlinked
        (mt hfails.mp herror) fun s hs => hunknown s ((htexts s).mp hs)]

end Linked

end Joins

/-- A chain with a concatenation in it, and so with two leaves or more, fails when the text of a
leaf does, is the constant text of its leaves joined in order when all of these are constant, and
an unknown string in every other case. Chains of the same leaves have the same type, however they
are grouped. -/
theorem typeIn_of_joins (h : Joins e leaves) (hlinked : 2 ≤ leaves.length) :
    ((∃ leaf ∈ leaves, leaf.textIn scope = .error) → e.typeIn scope = .error) ∧
      (∀ texts : List String,
        leaves.map (textIn scope) = texts.map (fun text => .constant (.string text)) →
          e.typeIn scope = .constant (.string (String.join texts))) ∧
      ((∀ leaf ∈ leaves, leaf.textIn scope ≠ .error) →
        (∃ leaf ∈ leaves, ∀ text, leaf.textIn scope ≠ .constant (.string text)) →
          e.typeIn scope = .string) ∧
      ∀ e' : Expr α, Joins e' leaves → e'.typeIn scope = e.typeIn scope := by
  have htype := h.textIn_eq_typeIn scope hlinked
  refine ⟨?_, ?_, ?_, fun e' h' => h.typeIn_eq scope hlinked h'⟩
  · intro hfail
    rw [← htype]
    exact (h.textIn_eq_error scope).mpr hfail
  · intro texts htexts
    rw [← htype]
    exact (h.textIn_eq_text scope).mpr ⟨texts, htexts, rfl⟩
  · rintro hnone ⟨leaf, hleaf, hunknown⟩
    refine h.typeIn_eq_string scope hlinked ?_ (h.textIn_ne_text scope hleaf hunknown)
    intro herror
    obtain ⟨failing, hmem, hfails⟩ := (h.textIn_eq_error scope).mp herror
    exact hnone failing hmem hfails

/-- Null, a variable that is true or the text of a one, and a seven: the texts are constant and make
up 17, with the parentheses on the left as well as with the compound form on the right. -/
theorem typeIn_of_joins_union :
    let one := Ty.union [.constant (.bool true), .constant (.string "1")]
    let scope := Scope.empty.assign "x" one .yes
    let seven : Expr Unit := .constant () (.int 7)
    let leaves := [.null (), .var () "x", seven]
    let left := Expr.binary () (.paren () (.binary () (.null ()) (.compute .concat) (.var () "x")))
      (.compute .concat) seven
    let right := Expr.binary () (.null ()) (.compute .concat)
      (.binary () (.var () "x") (.assign .concat) seven)
    (Joins left leaves ∧ Joins right leaves ∧ 2 ≤ leaves.length) ∧
      left.typeIn scope = .constant (.string "17") ∧ right.typeIn scope = left.typeIn scope := by
  intro one scope seven leaves left right
  have hleft : Joins left leaves :=
    .concat () rfl (.paren () (.concat () rfl (.leaf _) (.leaf _))) (.leaf seven)
  have hright : Joins right leaves :=
    .concat () rfl (.leaf _) (.concat () rfl (.leaf _) (.leaf seven))
  have hlinked : 2 ≤ leaves.length := by decide
  have htexts : leaves.map (textIn scope) =
    ["", "1", "7"].map (fun text => .constant (.string text)) := rfl
  obtain ⟨_, htext, _, hgrouping⟩ := typeIn_of_joins scope hleft hlinked
  exact ⟨⟨hleft, hright, hlinked⟩, htext _ htexts, hgrouping right hright⟩

end Expr

end OperatorLint
