import Mathlib.Data.List.Sort
import OperatorLint.Expr.Basic

/-!
# Addresses of nodes

Equal expressions can stand at several places of a tree, so nodes are told apart by their
addresses: the positions of the parts on the way down from the root. Two addresses stand in an
order that knows nothing of trees, in which parts come before the whole and earlier parts before
later ones. The addresses of a tree are listed in that order, so the list is determined by which
addresses lead to a node.
-/

namespace OperatorLint

/-- The way down from the root of a tree: at each node the position of the part to go to. -/
abbrev Address := List Nat

namespace Address

/-- The order of nodes in which parts come before the whole, from left to right. -/
def Before : Address → Address → Prop
  | [], _ => False
  | _ :: _, [] => True
  | i :: a, j :: b => i < j ∨ i = j ∧ Before a b

/-- The order goes one way only. -/
theorem Before.asymm {a b : Address} (h : Before a b) : ¬ Before b a := by
  induction a generalizing b with
  | nil => exact False.elim h
  | cons i a ih =>
    cases b with
    | nil => exact id
    | cons j b =>
      intro hba
      have hab : i < j ∨ i = j ∧ Before a b := h
      have hrev : j < i ∨ j = i ∧ Before b a := hba
      rcases hab with hlt | ⟨heq, hrest⟩
      · omega
      · have hback : Before b a := by
          rcases hrev with hlt | ⟨_, hrest'⟩
          · omega
          · exact hrest'
        exact ih hrest hback

instance : Std.Irrefl Before := ⟨fun _ h => h.asymm h⟩

instance : Std.Antisymm Before := ⟨fun _ _ h h' => absurd h' h.asymm⟩

end Address

namespace Expr

variable {α : Type}

/-- Induction over expressions by their direct parts. -/
@[elab_as_elim] theorem childInduction {motive : Expr α → Prop}
    (node : ∀ e : Expr α, (∀ c ∈ e.children, motive c) → motive e) (e : Expr α) : motive e := by
  refine Expr.rec (motive_1 := motive) (motive_2 := fun es => ∀ c ∈ es, motive c)
    ?var ?constant ?null ?list ?paren ?binary ?nil ?cons e
  case var => exact fun tag name => node _ (List.forall_mem_nil _)
  case constant => exact fun tag value => node _ (List.forall_mem_nil _)
  case null => exact fun tag => node _ (List.forall_mem_nil _)
  case list => exact fun tag items ih => node _ ih
  case paren => exact fun tag inner ih => node _ (List.forall_mem_singleton.mpr ih)
  case binary =>
    intro tag left op right ihl ihr
    exact node _ (List.forall_mem_cons.mpr ⟨ihl, List.forall_mem_singleton.mpr ihr⟩)
  case nil => exact List.forall_mem_nil _
  case cons => exact fun c cs ihc ihcs => List.forall_mem_cons.mpr ⟨ihc, ihcs⟩

/-- The node that an address leads to. -/
def at? : Expr α → Address → Option (Expr α)
  | e, [] => some e
  | e, i :: a => e.children[i]?.bind fun c => c.at? a

/-- An address that leads below the root leads into one of the direct parts. -/
theorem at?_cons_eq_some_iff {e n : Expr α} {i : Nat} {a : Address} :
    e.at? (i :: a) = some n ↔ ∃ c, e.children[i]? = some c ∧ c.at? a = some n := by
  rw [at?, Option.bind_eq_some_iff]

/-- Two ways down, one after the other, lead where the second leads from where the first does. -/
theorem at?_append (e : Expr α) (a b : Address) :
    e.at? (a ++ b) = (e.at? a).bind fun c => c.at? b := by
  induction a generalizing e with
  | nil => rfl
  | cons i a ih =>
    rw [List.cons_append, at?, at?, Option.bind_assoc]
    exact Option.bind_congr fun c _ => ih c

mutual
/-- The addresses of the nodes of a tree, parts before the whole, from left to right. -/
def addresses : Expr α → List Address
  | var _ _ => [[]]
  | constant _ _ => [[]]
  | null _ => [[]]
  | list _ items => addressesEach 0 items ++ [[]]
  | paren _ inner => (addresses inner).map (0 :: ·) ++ [[]]
  | binary _ left _ right =>
    (addresses left).map (0 :: ·) ++ (addresses right).map (1 :: ·) ++ [[]]

/-- The addresses of the nodes of a list of trees, the first of which is the part at a given
position. -/
def addressesEach (n : Nat) : List (Expr α) → List Address
  | [] => []
  | e :: es => (addresses e).map (n :: ·) ++ addressesEach (n + 1) es
end

/-- The addresses of a tree are those in its direct parts and that of the root. -/
theorem addresses_eq (e : Expr α) : e.addresses = addressesEach 0 e.children ++ [[]] := by
  cases e <;> simp [addresses, addressesEach, children]

/-- The nodes of a tree are those of its direct parts and the root. -/
theorem postorder_eq (e : Expr α) : e.postorder = postorderEach e.children ++ [e] := by
  cases e <;> simp [postorder, postorderEach, children]

/-- The nodes of a list of trees are those of its trees. -/
theorem mem_postorderEach {n : Expr α} {es : List (Expr α)} :
    n ∈ postorderEach es ↔ ∃ e ∈ es, n ∈ e.postorder := by
  induction es with
  | nil => simp [postorderEach]
  | cons e es ih => simp [postorderEach, ih]

/-- A tree is one of its nodes. -/
theorem self_mem_postorder (e : Expr α) : e ∈ e.postorder := by
  rw [postorder_eq]
  exact List.mem_concat_self

/-- The nodes of a node are nodes of the tree. -/
theorem postorder_subset {e n : Expr α} (hn : n ∈ e.postorder) : n.postorder ⊆ e.postorder := by
  induction e using childInduction with
  | node e ih =>
    rw [postorder_eq, List.mem_append, List.mem_singleton] at hn
    rcases hn with hn | rfl
    · obtain ⟨c, hc, hnc⟩ := mem_postorderEach.mp hn
      intro m hm
      rw [postorder_eq e, List.mem_append]
      exact Or.inl (mem_postorderEach.mpr ⟨c, hc, ih c hc hnc hm⟩)
    · exact List.Subset.refl _

/-- As many addresses are listed for a list of trees as nodes. -/
theorem length_addressesEach_of {es : List (Expr α)}
    (h : ∀ e ∈ es, e.addresses.length = e.postorder.length) (n : Nat) :
    (addressesEach n es).length = (postorderEach es).length := by
  induction es generalizing n with
  | nil => rfl
  | cons e es ih =>
    obtain ⟨hfirst, hrest⟩ := List.forall_mem_cons.mp h
    simp only [addressesEach, postorderEach, List.length_append, List.length_map]
    rw [hfirst, ih hrest]

/-- As many addresses are listed as nodes. -/
theorem length_addresses (e : Expr α) : e.addresses.length = e.postorder.length := by
  induction e using childInduction with
  | node e ih =>
    rw [addresses_eq, postorder_eq, List.length_append, List.length_append,
      length_addressesEach_of ih 0]
    rfl

/-- As many addresses are listed for a list of trees as nodes. -/
theorem length_addressesEach (n : Nat) (es : List (Expr α)) :
    (addressesEach n es).length = (postorderEach es).length :=
  length_addressesEach_of (fun e _ => length_addresses e) n

/-- In `($x += null) % $x` the sum is visited with its operands, then its parentheses, then the
right operand and the whole. -/
example : addresses (.binary () (.paren () (.binary () (.var () "x") (.assign .plus) (.null ())))
    (.compute .mod) (.var () "x")) = [[0, 0, 0], [0, 0, 1], [0, 0], [0], [1], []] := rfl

end Expr

end OperatorLint
