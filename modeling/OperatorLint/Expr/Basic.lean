import OperatorLint.Operator
import OperatorLint.Text.Span
import OperatorLint.Ty.Basic

/-!
# Expressions and statements

The trees that are checked. A tree carries a tag of a chosen type at every node: no tag at all
while it is only a shape, and an `Origin` once it has its place in source text. Definitions that
do not ask about places work for every type of tags.
-/

namespace OperatorLint

/-- Where a node comes from. -/
structure Origin where
  /-- The source text of the node. -/
  range : Range
  /-- The node was made by the analysis, not read from source. -/
  synthesized : Bool
deriving DecidableEq, Repr

namespace Origin

/-- The origin of a node that stands in source text. -/
def written (range : Range) : Origin := ⟨range, false⟩

/-- The origin of a node without source text. -/
def invented : Origin := ⟨.emptyAt 0, true⟩

/-- The same place, marked as made by the analysis. -/
def remade (o : Origin) : Origin := { o with synthesized := true }

end Origin

/-- An expression with a tag at every node. -/
inductive Expr (α : Type) where
  /-- A variable. -/
  | var (tag : α) (name : String)
  /-- The literal of a constant. -/
  | constant (tag : α) (value : Constant)
  /-- The keyword `null`. -/
  | null (tag : α)
  /-- An array literal, which lists its items. -/
  | list (tag : α) (items : List (Expr α))
  /-- An expression in parentheses. -/
  | paren (tag : α) (inner : Expr α)
  /-- An operator between two operands; the left operand of a compound form is its target. -/
  | binary (tag : α) (left : Expr α) (op : Operator) (right : Expr α)

/-- A statement with a tag at every node. -/
inductive Statement (α : Type) where
  /-- An expression that is evaluated for its effects. -/
  | expression (tag : α) (value : Expr α)
  /-- An assignment of a value to a variable, which has a tag of its own. -/
  | assign (tag targetTag : α) (target : String) (value : Expr α)

namespace Expr

variable {α β : Type}

/-- The tag of the root. -/
def tag : Expr α → α
  | var tag _ => tag
  | constant tag _ => tag
  | null tag => tag
  | list tag _ => tag
  | paren tag _ => tag
  | binary tag _ _ _ => tag

/-- The source text of the root. -/
def range (e : Expr Origin) : Range := e.tag.range

mutual
/-- The same tree with every tag changed. -/
def mapTags (f : α → β) : Expr α → Expr β
  | var tag name => .var (f tag) name
  | constant tag value => .constant (f tag) value
  | null tag => .null (f tag)
  | list tag items => .list (f tag) (mapTagsEach f items)
  | paren tag inner => .paren (f tag) (mapTags f inner)
  | binary tag left op right => .binary (f tag) (mapTags f left) op (mapTags f right)

/-- The same trees with every tag changed. -/
def mapTagsEach (f : α → β) : List (Expr α) → List (Expr β)
  | [] => []
  | e :: es => mapTags f e :: mapTagsEach f es
end

/-- The tags of a list of trees are changed tree by tree. -/
theorem mapTagsEach_eq_map (f : α → β) (es : List (Expr α)) :
    mapTagsEach f es = es.map (mapTags f) := by
  induction es with
  | nil => rfl
  | cons e es ih => simp [mapTagsEach, ih]

/-- The shape of a tree, which has no tags. -/
def shape (e : Expr α) : Expr Unit := e.mapTags fun _ => ()

/-- The direct parts of an expression, from left to right. -/
def children : Expr α → List (Expr α)
  | var _ _ => []
  | constant _ _ => []
  | null _ => []
  | list _ items => items
  | paren _ inner => [inner]
  | binary _ left _ right => [left, right]

/-- The expression is an operator between two operands. -/
def isOperation : Expr α → Bool
  | binary _ _ _ _ => true
  | _ => false

mutual
/-- Every node, parents before their parts, from left to right. -/
def preorder : Expr α → List (Expr α)
  | var tag name => [.var tag name]
  | constant tag value => [.constant tag value]
  | null tag => [.null tag]
  | list tag items => .list tag items :: preorderEach items
  | paren tag inner => .paren tag inner :: preorder inner
  | binary tag left op right => .binary tag left op right :: (preorder left ++ preorder right)

/-- The nodes of a list of trees, tree by tree. -/
def preorderEach : List (Expr α) → List (Expr α)
  | [] => []
  | e :: es => preorder e ++ preorderEach es
end

mutual
/-- Every node, parents after their parts, from left to right. -/
def postorder : Expr α → List (Expr α)
  | var tag name => [.var tag name]
  | constant tag value => [.constant tag value]
  | null tag => [.null tag]
  | list tag items => postorderEach items ++ [.list tag items]
  | paren tag inner => postorder inner ++ [.paren tag inner]
  | binary tag left op right => postorder left ++ postorder right ++ [.binary tag left op right]

/-- The nodes of a list of trees, tree by tree. -/
def postorderEach : List (Expr α) → List (Expr α)
  | [] => []
  | e :: es => postorder e ++ postorderEach es
end

mutual
/-- The texts that a tree mentions, from left to right: names of variables and string constants. -/
def texts : Expr α → List String
  | var _ name => [name]
  | constant _ (.string text) => [text]
  | constant _ _ => []
  | null _ => []
  | list _ items => textsEach items
  | paren _ inner => texts inner
  | binary _ left _ right => texts left ++ texts right

/-- The texts that a list of trees mentions, tree by tree. -/
def textsEach : List (Expr α) → List String
  | [] => []
  | e :: es => texts e ++ textsEach es
end

mutual
/-- Two trees are written alike and have the same tags; constant doubles are compared as
numbers. -/
def same [BEq α] : Expr α → Expr α → Bool
  | var tag name, var tag' name' => tag == tag' && name == name'
  | constant tag value, constant tag' value' => tag == tag' && value.same value'
  | null tag, null tag' => tag == tag'
  | list tag items, list tag' items' => tag == tag' && sameEach items items'
  | paren tag inner, paren tag' inner' => tag == tag' && same inner inner'
  | binary tag left op right, binary tag' left' op' right' =>
    tag == tag' && same left left' && op == op' && same right right'
  | _, _ => false

/-- Two lists of trees are written alike and have the same tags. -/
def sameEach [BEq α] : List (Expr α) → List (Expr α) → Bool
  | [], [] => true
  | e :: es, e' :: es' => same e e' && sameEach es es'
  | _, _ => false
end

/-- A variable that the analysis made. -/
def placeholder (name : String) : Expr Origin := .var .invented name

/-- A copy of an operation with other operands, marked as made by the analysis. -/
def withOperands? (e left right : Expr Origin) : Option (Expr Origin) :=
  match e with
  | binary tag _ op _ => some (.binary tag.remade left op right)
  | _ => none

end Expr

namespace Statement

variable {α : Type}

/-- The tag of the statement itself. -/
def tag : Statement α → α
  | expression tag _ => tag
  | assign tag _ _ _ => tag

/-- The expression that a statement evaluates. -/
def value : Statement α → Expr α
  | expression _ value => value
  | assign _ _ _ value => value

end Statement

end OperatorLint
