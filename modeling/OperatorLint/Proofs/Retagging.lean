import OperatorLint.Proofs.Decision
import OperatorLint.Proofs.Threading
import OperatorLint.Proofs.Visits

/-!
# Findings apart from their places

Where a tree stands in source text matters to the places of findings only. A tree with other tags
is offered node by node in the same scopes, the check of operands finds the same texts in it, and
it leaves the same scope; so trees of one shape have the same findings up to their places.
-/

namespace OperatorLint

namespace Expr

variable {α β γ : Type}

/-- A tree with other tags has the parts of the tree, with other tags. -/
theorem children_mapTags (f : α → β) (e : Expr α) :
    (e.mapTags f).children = e.children.map (mapTags f) := by
  cases e <;> simp [mapTags, children, mapTagsEach_eq_map]

/-- Tags are changed twice by changing them once. -/
theorem mapTags_mapTags (f : α → β) (g : β → γ) (e : Expr α) :
    (e.mapTags f).mapTags g = e.mapTags (g ∘ f) := by
  induction e using childInduction with
  | node e ih =>
    cases e with
    | var | constant | null => rfl
    | list tag items =>
      simp only [mapTags, mapTagsEach_eq_map, List.map_map]
      exact congrArg _ (List.map_congr_left ih)
    | paren tag inner =>
      have hinner := ih inner List.mem_cons_self
      simp only [mapTags, hinner, Function.comp_apply]
    | binary tag left op right =>
      have hleft := ih left List.mem_cons_self
      have hright := ih right (List.mem_cons_of_mem left List.mem_cons_self)
      simp only [mapTags, hleft, hright, Function.comp_apply]

/-- Trees of one shape are the same once all nodes have the same tag. -/
theorem mapTags_const_of_shape {e : Expr α} {e' : Expr β} (h : e.shape = e'.shape) (tag : γ) :
    e.mapTags (fun _ => tag) = e'.mapTags (fun _ => tag) := by
  have hmap := congrArg (mapTags fun _ => tag) h
  rw [shape, shape, mapTags_mapTags, mapTags_mapTags] at hmap
  exact hmap

/-- Trees of one shape have the same type. -/
theorem typeIn_of_shape {e : Expr α} {e' : Expr β} (h : e.shape = e'.shape) (scope : Scope) :
    e.typeIn scope = e'.typeIn scope := by
  have htype := congrArg (typeIn scope) h
  rw [shape, shape, typeIn_mapTags, typeIn_mapTags] at htype
  exact htype

/-- The variable that a compound form assigns does not depend on the tags. -/
theorem assigned?_mapTags (f : α → β) (e : Expr α) : (e.mapTags f).assigned? = e.assigned? := by
  cases e with
  | binary tag left op right => cases left <;> cases op <;> rfl
  | _ => rfl

end Expr

/-- An offer of the same expression with other tags. -/
def Offer.retag (f : Origin → Origin) (o : Offer) : Offer := ⟨o.scope, o.expr.mapTags f⟩

/-- The assignment of an offered expression does not depend on the tags. -/
theorem Offer.update_retag (f : Origin → Origin) (scope : Scope) (o : Offer) :
    (o.retag f).update .reference scope = o.update .reference scope := by
  have htype : Oracle.reference o.scope (o.expr.mapTags f) = Oracle.reference o.scope o.expr :=
    Expr.typeIn_mapTags f o.scope o.expr
  simp only [update, retag, Expr.assigned?_mapTags, htype]

/-- The same finding at no known place. -/
def Diagnostic.unplaced (d : Diagnostic) : Diagnostic := { d with span := none }

namespace Operands

/-- What the check of operands finds at an expression does not depend on its tags. -/
theorem inspect_mapTags (s : Strictness) (scope : Scope) (f : Origin → Origin) (e : Expr Origin) :
    (Rule.operands .reference s).inspect scope (e.mapTags f) =
      (Rule.operands .reference s).inspect scope e := by
  cases e with
  | binary origin left op right =>
    simp only [Expr.mapTags, inspect_binary, Expr.typeIn_mapTags]
  | _ => rfl

end Operands

namespace Checker

variable {scope : Scope}

/-- A list of trees with other tags is offered as the trees are, when each of them is. -/
theorem offersEach_mapTags_of {f : Origin → Origin} {es : List (Expr Origin)}
    (h : ∀ e ∈ es, ∀ scope, offers .reference scope (e.mapTags f) =
      ((offers .reference scope e).1.map (Offer.retag f), (offers .reference scope e).2))
    (scope : Scope) :
    offersEach .reference scope (es.map (Expr.mapTags f)) =
      ((offersEach .reference scope es).1.map (Offer.retag f),
        (offersEach .reference scope es).2) := by
  induction es generalizing scope with
  | nil => rfl
  | cons e es ih =>
    obtain ⟨hfirst, hrest⟩ := List.forall_mem_cons.mp h
    simp only [List.map_cons, offersEach, hfirst scope, ih hrest, List.map_append]

/-- A tree with other tags is offered as the tree is, node by node, and leaves the same scope. -/
theorem offers_mapTags (f : Origin → Origin) (scope : Scope) (e : Expr Origin) :
    offers .reference scope (e.mapTags f) =
      ((offers .reference scope e).1.map (Offer.retag f), (offers .reference scope e).2) := by
  induction e using Expr.childInduction generalizing scope with
  | node e ih =>
    have hupdate (after : Scope) : Offer.update .reference after ⟨scope, e.mapTags f⟩ =
        Offer.update .reference after ⟨scope, e⟩ := Offer.update_retag f after ⟨scope, e⟩
    rw [offers_eq, offers_eq scope e, Expr.children_mapTags, offersEach_mapTags_of ih, hupdate,
      List.map_append]
    rfl

variable {settings : Settings}

/-- What is found at an offer is the same up to its place when the tags are others. -/
theorem report_retag (f : Origin → Origin) (o : Offer) :
    ((ofSettings settings).report (o.retag f)).map Diagnostic.unplaced =
      ((ofSettings settings).report o).map Diagnostic.unplaced := by
  rw [report_ofSettings, report_ofSettings]
  split
  · have hinspect := Operands.inspect_mapTags settings.strictness o.scope f o.expr
    simp only [Offer.retag, Rule.report, hinspect, List.map_map]
    rfl
  · rfl

/-- A tree with other tags has the same findings up to their places and leaves the same scope. -/
theorem checkExpr_mapTags (f : Origin → Origin) (e : Expr Origin) :
    ((ofSettings settings).checkExpr scope (e.mapTags f)).1.map Diagnostic.unplaced =
        ((ofSettings settings).checkExpr scope e).1.map Diagnostic.unplaced ∧
      ((ofSettings settings).checkExpr scope (e.mapTags f)).2 =
        ((ofSettings settings).checkExpr scope e).2 := by
  have horacle : (ofSettings settings).oracle = .reference := rfl
  simp only [checkExpr, horacle, offers_mapTags, List.flatMap_map, List.map_flatMap, report_retag,
    and_self]

/-- Trees of one shape have the same findings up to their places and leave the same scope. -/
theorem checkExpr_of_shape {e e' : Expr Origin} (h : e.shape = e'.shape) :
    ((ofSettings settings).checkExpr scope e).1.map Diagnostic.unplaced =
        ((ofSettings settings).checkExpr scope e').1.map Diagnostic.unplaced ∧
      ((ofSettings settings).checkExpr scope e).2 =
        ((ofSettings settings).checkExpr scope e').2 := by
  have hsame := Expr.mapTags_const_of_shape h Origin.invented
  obtain ⟨hfound, hscope⟩ := @checkExpr_mapTags scope settings (fun _ => .invented) e
  obtain ⟨hfound', hscope'⟩ := @checkExpr_mapTags scope settings (fun _ => .invented) e'
  rw [hsame] at hfound hscope
  exact ⟨hfound.symm.trans hfound', hscope.symm.trans hscope'⟩

end Checker

end OperatorLint
