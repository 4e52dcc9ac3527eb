import OperatorLint.Proofs.Siblings

/-!
# Replacing a part by a variable

The type of an expression depends on its parts through their types alone. So a part anywhere in an
expression can be replaced by a variable that is bound to the type of the part, as long as the
expression does not mention the variable otherwise; the nodes above the part are rebuilt, and what
tags they then carry does not matter. A part that fails is no exception: a variable bound to a
failure fails as well.
-/

namespace OperatorLint.Expr

variable {α : Type}

/-- The root of an expression with other direct parts, as many as it has; its tag is changed. -/
def rebuild (mark : α → α) : Expr α → List (Expr α) → Expr α
  | list tag _, parts => list (mark tag) parts
  | paren tag _, [inner] => paren (mark tag) inner
  | binary tag _ op _, [left, right] => binary (mark tag) left op right
  | e, _ => e

/-- An expression with the node under an address replaced. The nodes above it are rebuilt, with
their tags changed. -/
def replaceAt (mark : α → α) : Expr α → Address → Expr α → Expr α
  | _, [], new => new
  | e, i :: a, new => e.rebuild mark (e.children.modify i fun c => replaceAt mark c a new)

/-- The direct parts of a rebuilt expression are the new ones, when they are as many as the old. -/
theorem children_rebuild (mark : α → α) {e : Expr α} {parts : List (Expr α)}
    (h : parts.length = e.children.length) : (e.rebuild mark parts).children = parts := by
  cases e with
  | var | constant | null => exact (List.eq_nil_of_length_eq_zero h).symm
  | list tag items => rfl
  | paren tag inner =>
    obtain ⟨inner', rfl⟩ := List.length_eq_one_iff.mp h
    rfl
  | binary tag left op right =>
    obtain ⟨left', right', rfl⟩ := List.length_eq_two.mp h
    rfl

/-- Replacing below the root replaces inside one direct part. -/
theorem children_replaceAt_cons (mark : α → α) (e : Expr α) (i : Nat) (a : Address)
    (new : Expr α) :
    (e.replaceAt mark (i :: a) new).children =
      e.children.modify i fun c => c.replaceAt mark a new :=
  children_rebuild mark (List.length_modify _ _ _)

/-- The new node stands where the replaced one stood. -/
theorem at?_replaceAt (mark : α → α) {e part : Expr α} {a : Address}
    (hpart : e.at? a = some part) (new : Expr α) :
    (e.replaceAt mark a new).at? a = some new := by
  induction a generalizing e with
  | nil => rfl
  | cons i a ih =>
    obtain ⟨c, hc, hcpart⟩ := at?_cons_eq_some_iff.mp hpart
    rw [at?_cons_eq_some_iff, children_replaceAt_cons, List.getElem?_modify_eq, hc]
    exact ⟨c.replaceAt mark a new, rfl, ih hcpart⟩

/-- A rebuilt expression has the type of the old one when the new parts have the types of the old
ones, each in its own scope. -/
theorem typeIn_rebuild {s t : Scope} {e : Expr α} {parts : List (Expr α)} (mark : α → α)
    (hparts : e.children ≠ []) (h : parts.map (typeIn t) = e.children.map (typeIn s)) :
    (e.rebuild mark parts).typeIn t = e.typeIn s := by
  cases e with
  | var | constant | null => exact absurd rfl hparts
  | list tag items =>
    rw [rebuild, typeIn, typeIn, typeInEach_eq_map, typeInEach_eq_map]
    exact congrArg listType h
  | paren tag inner =>
    obtain ⟨inner', rfl, hinner⟩ := List.map_eq_singleton_iff.mp h
    exact hinner
  | binary tag left op right =>
    obtain ⟨left', rest, rfl, hleft, hrest⟩ := List.map_eq_cons_iff.mp h
    obtain ⟨right', rfl, hright⟩ := List.map_eq_singleton_iff.mp hrest
    rw [rebuild, typeIn, typeIn, hleft, hright]

/-- An expression keeps its type when a part is replaced by something that has the type of the part,
also in another scope in which the variables of the expression have the types they had. The other
parts stay, and they mention nothing that changed its type. -/
theorem typeIn_replaceAt {s t : Scope} {e part new : Expr α} {a : Address}
    (hpart : e.at? a = some part)
    (hagree : ∀ name, e.Mentions name →
      (t.typeOf? name).getD .error = (s.typeOf? name).getD .error)
    (hnew : new.typeIn t = part.typeIn s) (mark : α → α) :
    (e.replaceAt mark a new).typeIn t = e.typeIn s := by
  induction a generalizing e with
  | nil =>
    cases hpart
    exact hnew
  | cons i a ih =>
    obtain ⟨c, hc, hcpart⟩ := at?_cons_eq_some_iff.mp hpart
    have hmem : c ∈ e.children := List.mem_of_getElem? hc
    have hreplaced : (c.replaceAt mark a new).typeIn t = c.typeIn s :=
      ih hcpart fun name hname => hagree name (hname.of_child hmem)
    apply typeIn_rebuild mark (List.ne_nil_of_mem hmem)
    apply List.ext_getElem?
    intro j
    rw [List.getElem?_map, List.getElem?_map, List.getElem?_modify]
    by_cases hj : i = j
    · rw [← hj, hc]
      simp [hreplaced]
    · have hkept : ∀ d ∈ e.children[j]?, d.typeIn t = d.typeIn s := fun d hd =>
        typeIn_congr fun name hname => hagree name (hname.of_child (List.mem_of_getElem? hd))
      simpa [hj] using Option.map_congr hkept

/-- When a part anywhere in an expression is replaced by a variable that the expression does not
mention and that is bound to the type of the part, the variable stands there and the expression
keeps its type, whatever becomes of the tags above the part. -/
theorem typeIn_replaceAt_var {e part : Expr α} {a : Address} (hpart : e.at? a = some part)
    {name : String} (hfresh : ¬ e.Mentions name) (scope : Scope) (mark : α → α) (tag : α) :
    let replaced := e.replaceAt mark a (.var tag name)
    replaced.at? a = some (.var tag name) ∧
      replaced.typeIn (scope.assign name (part.typeIn scope) .yes) = e.typeIn scope := by
  intro replaced
  have hbound : (scope.assign name (part.typeIn scope) .yes).typeOf? name =
      some (part.typeIn scope) := Operands.typeOf?_assign_self scope name _
  refine ⟨at?_replaceAt mark hpart _, typeIn_replaceAt hpart ?_ ?_ mark⟩
  · intro other hother
    have hne : other ≠ name := by
      rintro rfl
      exact hfresh hother
    rw [Operands.typeOf?_assign_of_ne scope hne]
  · rw [typeIn, hbound, Option.getD_some]

/-- The expression `[$x .= ($y ?? 'a'), 2]`. -/
def listWithFallback : Expr Origin :=
  (Expr.place (.list () [.binary () (.var () "x") (.assign .concat)
    (.paren () (.binary () (.var () "y") (.compute .coalesce) (.constant () (.string "a")))),
      .constant () (.int 2)]) 0).1

/-- In `[$x .= ($y ?? 'a'), 2]` the variable `y` can be replaced by `z` though it is not defined:
the failure that `z` is bound to is fallen back from as well, and what is appended stays known. -/
theorem typeIn_replaceAt_undefined :
    let scope := Scope.empty.assign "x" (.constant (.string "b")) .yes
    let replaced := listWithFallback.replaceAt .remade [0, 1, 0, 0] (.placeholder "z")
    listWithFallback.at? [0, 1, 0, 0] = some (.var (.written ⟨3, 5⟩) "y") ∧
      ¬ listWithFallback.Mentions "z" ∧
        (replaced.at? [0, 1, 0, 0] = some (.placeholder "z") ∧
          replaced.typeIn (scope.assign "z" .error .yes) = listWithFallback.typeIn scope) ∧
            listWithFallback.typeIn scope =
              .array .int (.union [.constant (.string "ba"), .constant (.int 2)]) := by
  intro scope replaced
  have hpart : listWithFallback.at? [0, 1, 0, 0] = some (.var (.written ⟨3, 5⟩) "y") := rfl
  have hfresh : ¬ listWithFallback.Mentions "z" := by
    rintro ⟨tag, htag⟩
    have hnodes : listWithFallback.postorder = [_, _, _, _, _, _, _, _] := rfl
    rw [hnodes] at htag
    simp at htag
  exact ⟨hpart, hfresh, typeIn_replaceAt_var hpart hfresh scope .remade .invented, rfl⟩

end OperatorLint.Expr
