import OperatorLint.Expr.Placement
import OperatorLint.Proofs.Decision
import OperatorLint.Proofs.Visits

/-!
# Parts that are typed twice

A direct part of an expression is typed when it is shown to the rules, in the scope in which the
part starts, and once more when the whole is typed, in the scope in which the whole starts. The
two scopes differ by what the parts before it assign. Both typings of the part and of everything
in it agree exactly when each variable that the part mentions was given the type it had, where the
parts before assign it; a part that follows an assignment to one of its variables is typed
differently in general.
-/

namespace OperatorLint

namespace Expr

variable {α : Type}

/-- The variable stands somewhere in the expression. -/
def Mentions (e : Expr α) (name : String) : Prop := ∃ tag, var tag name ∈ e.postorder

/-- What a direct part mentions the whole mentions. -/
theorem Mentions.of_child {e c : Expr α} {name : String} (h : c.Mentions name)
    (hc : c ∈ e.children) : e.Mentions name := by
  obtain ⟨tag, htag⟩ := h
  refine ⟨tag, ?_⟩
  rw [postorder_eq, List.mem_append, mem_postorderEach]
  exact Or.inl ⟨c, hc, htag⟩

/-- What a node mentions the tree mentions. -/
theorem Mentions.of_node {e n : Expr α} {name : String} (h : n.Mentions name)
    (hn : n ∈ e.postorder) : e.Mentions name := by
  obtain ⟨tag, htag⟩ := h
  exact ⟨tag, postorder_subset hn htag⟩

/-- An expression has the same type in two scopes that agree on the variables it mentions. -/
theorem typeIn_congr {s t : Scope} {e : Expr α} (h : ∀ name, e.Mentions name →
    (s.typeOf? name).getD .error = (t.typeOf? name).getD .error) : e.typeIn s = e.typeIn t := by
  induction e using childInduction with
  | node e ih =>
    have hparts : ∀ c ∈ e.children, c.typeIn s = c.typeIn t := fun c hc =>
      ih c hc fun name hname => h name (hname.of_child hc)
    cases e with
    | var tag name => exact h name ⟨tag, self_mem_postorder _⟩
    | constant | null => rfl
    | list tag items =>
      rw [typeIn, typeIn, typeInEach_eq_map, typeInEach_eq_map]
      exact congrArg listType (List.map_congr_left hparts)
    | paren tag inner => exact hparts inner List.mem_cons_self
    | binary tag left op right =>
      have hleft : left.typeIn s = left.typeIn t := hparts left List.mem_cons_self
      have hright : right.typeIn s = right.typeIn t :=
        hparts right (List.mem_cons_of_mem left List.mem_cons_self)
      rw [typeIn, typeIn, hleft, hright]

/-- All nodes of an expression have the same types in two scopes exactly when the variables that
it mentions do. -/
theorem typeIn_nodes_iff {s t : Scope} {e : Expr α} :
    (∀ n ∈ e.postorder, n.typeIn s = n.typeIn t) ↔ ∀ name, e.Mentions name →
      (s.typeOf? name).getD .error = (t.typeOf? name).getD .error := by
  constructor
  · intro h name hname
    obtain ⟨tag, htag⟩ := hname
    exact h (var tag name) htag
  · intro h n hn
    exact typeIn_congr fun name hname => h name (hname.of_node hn)

end Expr

/-- The last of a list of offers that assigns a variable. -/
def lastAssignment (name : String) (os : List Offer) : Option Offer :=
  (os.filter fun o => o.expr.assigned? = some name).getLast?

namespace Scope

variable {oracle : Oracle} {start : Scope}

/-- A variable has the type of the last assignment to it, and its old one when there is none. -/
theorem typeOf?_rebound (os : List Offer) (name : String) :
    (start.rebound oracle os).typeOf? name =
      ((lastAssignment name os).map fun o => oracle o.scope o.expr).or (start.typeOf? name) := by
  induction os using List.reverseRec with
  | nil => rfl
  | append_singleton os o ih =>
    rw [rebound_concat, Offer.update, lastAssignment, List.filter_append, List.getLast?_append]
    cases ho : o.expr.assigned? with
    | none =>
      have hnone : [o].filter (fun o => o.expr.assigned? = some name) = [] := by simp [ho]
      rw [hnone]
      exact ih
    | some other =>
      by_cases hname : other = name
      · have hone : [o].filter (fun o => o.expr.assigned? = some name) = [o] := by
          simp [ho, hname]
        rw [hone, hname]
        exact Operands.typeOf?_assign_self _ _ _
      · have hnone : [o].filter (fun o => o.expr.assigned? = some name) = [] := by
          simp [ho, hname]
        rw [hnone]
        exact (Operands.typeOf?_assign_of_ne _ (Ne.symm hname) _ _).trans ih

/-- A variable keeps its type through a list of assignments exactly when the last one to it, if
there is any, gives it that type again. -/
theorem typeOf?_rebound_eq_iff {os : List Offer} {name : String} :
    ((start.rebound oracle os).typeOf? name).getD .error = (start.typeOf? name).getD .error ↔
      ∀ o, lastAssignment name os = some o →
        oracle o.scope o.expr = (start.typeOf? name).getD .error := by
  rw [typeOf?_rebound]
  cases lastAssignment name os with
  | none => simp
  | some o => simp

end Scope

namespace Checker

variable {oracle : Oracle}

/-- Only the whole expression is visited under the empty address. -/
theorem eq_root_of_address {scope : Scope} {e : Expr Origin} {v : Visit}
    (hv : v ∈ visits oracle scope e) (ha : v.address = []) : v = ⟨⟨scope, e⟩, []⟩ := by
  rcases mem_visits.mp hv with rfl | ⟨i, _, _, w, _, rfl⟩
  · rfl
  · exact absurd ha (List.cons_ne_nil _ _)

/-- What is visited in a direct part is visited in that part alone, which starts where the parts
before it end. -/
theorem exists_within_of_address {scope : Scope} {e : Expr Origin} {v : Visit} {i : Nat}
    {a : Address} (hv : v ∈ visits oracle scope e) (ha : v.address = i :: a) :
    ∃ c, e.children[i]? = some c ∧
      ∃ w ∈ visits oracle (offersEach oracle scope (e.children.take i)).2 c,
        w.address = a ∧ v = w.within i := by
  rcases mem_visits.mp hv with rfl | ⟨j, c, hc, w, hw, rfl⟩
  · exact absurd ha.symm (List.cons_ne_nil _ _)
  · obtain ⟨rfl, hwa⟩ := List.cons_eq_cons.mp ha
    exact ⟨c, hc, w, hw, hwa, rfl⟩

/-- A direct part of a visited node is visited in the scope in which the parts before it leave that
of the node. The way down to the node is followed in both visits at once. -/
theorem visit_of_part {scope : Scope} {e : Expr Origin} {whole part : Visit}
    (hwhole : whole ∈ visits oracle scope e) (hpart : part ∈ visits oracle scope e) {i : Nat}
    (haddress : part.address = whole.address ++ [i]) :
    whole.expr.children[i]? = some part.expr ∧
      part.scope = whole.scope.rebound oracle
        (offersEach oracle whole.scope (whole.expr.children.take i)).1 := by
  rw [← offersEach_snd]
  generalize ha : whole.address = a at haddress
  induction a generalizing scope e whole part with
  | nil =>
    rw [eq_root_of_address hwhole ha]
    obtain ⟨c, hc, w, hw, hwa, rfl⟩ := exists_within_of_address hpart haddress
    rw [eq_root_of_address hw hwa]
    exact ⟨hc, rfl⟩
  | cons j a ih =>
    obtain ⟨c, hc, w, hw, hwa, rfl⟩ := exists_within_of_address hwhole ha
    obtain ⟨c', hc', w', hw', hwa', rfl⟩ := exists_within_of_address hpart haddress
    rw [hc] at hc'
    cases hc'
    have hinner := ih hw hw' hwa hwa'
    exact hinner

/-- A direct part of a visited node and everything in it have the same types in the scope in which
the part is visited and in that of the node exactly when, of the variables that the part mentions,
each one that the parts before it assign was given at last the type that it has at the node. The
scope of the part is that of the node with those assignments done. -/
theorem typeIn_part_iff {scope : Scope} {e : Expr Origin} {whole part : Visit}
    (hwhole : whole ∈ visits .reference scope e) (hpart : part ∈ visits .reference scope e)
    {i : Nat} (haddress : part.address = whole.address ++ [i]) :
    let before := (offersEach .reference whole.scope (whole.expr.children.take i)).1
    whole.expr.children[i]? = some part.expr ∧
      part.scope = whole.scope.rebound .reference before ∧
        ((∀ n ∈ part.expr.postorder, n.typeIn part.scope = n.typeIn whole.scope) ↔
          ∀ name, part.expr.Mentions name → ∀ o, lastAssignment name before = some o →
            o.expr.typeIn o.scope = (whole.scope.typeOf? name).getD .error) := by
  intro before
  obtain ⟨hchild, hscope⟩ := visit_of_part hwhole hpart haddress
  refine ⟨hchild, hscope, ?_⟩
  rw [Expr.typeIn_nodes_iff, hscope]
  exact forall₂_congr fun name _ => Scope.typeOf?_rebound_eq_iff

/-- A scope in which the variable `x` is an integer constant. -/
def constantScope (value : Int64) : Scope := Scope.empty.assign "x" (.constant (.int value)) .yes

/-- The expression `'a' . [$x += 0, $x - 1]`. -/
def listWithSum : Expr Origin :=
  (Expr.place (.binary () (.constant () (.string "a")) (.compute .concat) (.list ()
    [.binary () (.var () "x") (.assign .plus) (.constant () (.int 0)),
      .binary () (.var () "x") (.compute .minus) (.constant () (.int 1))])) 0).1

/-- In `'a' . [$x += 0, $x - 1]` the second item and its parts have the same types in their own
scope and in that of the list, though the first item assigns their variable. -/
theorem typeIn_part_of_same_value :
    let visited := visits .reference (constantScope 5) listWithSum
    ∃ whole ∈ visited, ∃ part ∈ visited, part.address = whole.address ++ [1] ∧
      (lastAssignment "x" (offersEach .reference whole.scope
        (whole.expr.children.take 1)).1).isSome = true ∧
        ∀ n ∈ part.expr.postorder, n.typeIn part.scope = n.typeIn whole.scope := by
  intro visited
  have hwhole : visited[7] ∈ visited := List.getElem_mem _
  have hpart : visited[6] ∈ visited := List.getElem_mem _
  have haddress : visited[6].address = visited[7].address ++ [1] := rfl
  obtain ⟨_, _, hsame⟩ := typeIn_part_iff hwhole hpart haddress
  refine ⟨_, hwhole, _, hpart, haddress, rfl, hsame.mpr ?_⟩
  intro name hname o ho
  have hx : name = "x" := by
    obtain ⟨tag, htag⟩ := hname
    have hnodes : visited[6].expr.postorder = [_, _, _] := rfl
    rw [hnodes] at htag
    simp only [List.mem_cons, Expr.var.injEq, reduceCtorEq, List.not_mem_nil, or_false] at htag
    exact htag.2
  rw [hx] at ho ⊢
  cases ho
  rfl

/-- The expression `($x += 5) % $x`. -/
def remainderAfterSum : Expr Origin :=
  (Expr.place (.binary () (.paren () (.binary () (.var () "x") (.assign .plus)
    (.constant () (.int 5)))) (.compute .mod) (.var () "x")) 0).1

/-- In `($x += 5) % $x` the right operand is five in its own scope and zero in that of the whole,
when it is zero at the start; so the whole is reported as a remainder by zero. -/
theorem typeIn_part_of_assignment :
    let visited := visits .reference (constantScope 0) remainderAfterSum
    (∃ whole ∈ visited, ∃ part ∈ visited, part.address = whole.address ++ [1] ∧
      part.expr.typeIn part.scope = .constant (.int 5) ∧
        part.expr.typeIn whole.scope = .constant (.int 0)) ∧
      ((ofSettings .default).checkAll (constantScope 0)
        [.expression remainderAfterSum.tag remainderAfterSum]).map Diagnostic.text =
          ["Binary operation \"%\" between 5 and 0 results in an error."] := by
  intro visited
  have hwhole : visited[5] ∈ visited := List.getElem_mem _
  have hpart : visited[4] ∈ visited := List.getElem_mem _
  exact ⟨⟨_, hwhole, _, hpart, rfl, rfl, rfl⟩, by decide +kernel⟩

end Checker

end OperatorLint
