import OperatorLint.Proofs.Placement

/-!
# How laid out statements nest

Only leaves take text when statements are laid out: the leaves of all statements, with the variables
that are assigned to, stand one after the other in the order in which they are laid out, and the
place of each follows from the widths of those before it. Everything else covers leaves. So nodes
contain their parts, parts and statements follow one another with a byte between them, and leaves
never overlap. Positions are natural numbers; a cursor of 32 bits finds the same ones as long as the
text does not grow beyond what it can count.
-/

namespace OperatorLint

namespace Range

/-- The number of bytes that ranges of the given widths take, each with the byte that separates it
from the next. -/
def extent : List Nat → Nat
  | [] => 0
  | width :: widths => width + 1 + extent widths

/-- The ranges of the given widths, one after the other from an offset on. -/
def successive : Nat → List Nat → List Range
  | _, [] => []
  | offset, width :: widths =>
    ⟨offset, offset + width⟩ :: successive (offset + width + 1) widths

/-- The ranges that a cursor of 32 bits reserves for the given widths. Its additions wrap around. -/
def reserved : UInt32 → List Nat → List Range
  | _, [] => []
  | cursor, width :: widths =>
    let stop := cursor + UInt32.ofNat width
    ⟨cursor.toNat, stop.toNat⟩ :: reserved (stop + 1) widths

/-- Two rows of ranges take the bytes of both. -/
theorem extent_append (ws vs : List Nat) : extent (ws ++ vs) = extent ws + extent vs := by
  induction ws with
  | nil => rw [List.nil_append, extent, Nat.zero_add]
  | cons w ws ih =>
    rw [List.cons_append, extent, extent, ih]
    omega

/-- A row of ranges goes on where its first part ends. -/
theorem successive_append (offset : Nat) (ws vs : List Nat) :
    successive offset (ws ++ vs) =
      successive offset ws ++ successive (offset + extent ws) vs := by
  induction ws generalizing offset with
  | nil => rfl
  | cons w ws ih =>
    have hoffset : offset + w + 1 + extent ws = offset + extent (w :: ws) := by
      rw [extent]
      omega
    rw [List.cons_append, successive, ih, hoffset]
    rfl

/-- No range of a row starts before the row does. -/
theorem le_of_mem_successive {offset : Nat} {ws : List Nat} {r : Range}
    (h : r ∈ successive offset ws) : offset ≤ r.pos := by
  induction ws generalizing offset with
  | nil => exact absurd h List.not_mem_nil
  | cons w ws ih =>
    rcases List.mem_cons.mp h with rfl | h
    · exact Nat.le_refl offset
    · have hpos := ih h
      omega

/-- The ranges of a row stand apart. -/
theorem pairwise_successive (offset : Nat) (ws : List Nat) :
    (successive offset ws).Pairwise fun a b => a.stop < b.pos := by
  induction ws generalizing offset with
  | nil => exact List.Pairwise.nil
  | cons w ws ih =>
    refine List.pairwise_cons.mpr ⟨fun r hr => ?_, ih _⟩
    have hpos := le_of_mem_successive hr
    exact hpos

/-- A cursor of 32 bits reserves the ranges of a row that ends before it wraps around. -/
theorem reserved_eq {cursor : UInt32} {ws : List Nat}
    (h : cursor.toNat + extent ws < UInt32.size) :
    reserved cursor ws = successive cursor.toNat ws := by
  induction ws generalizing cursor with
  | nil => rfl
  | cons w ws ih =>
    rw [extent] at h
    have hfits : w < UInt32.size := by omega
    have hwidth : (UInt32.ofNat w).toNat = w := UInt32.toNat_ofNat_of_lt' hfits
    have hone : (1 : UInt32).toNat = 1 := rfl
    have hstop : (cursor + UInt32.ofNat w).toNat = cursor.toNat + w := by
      rw [UInt32.toNat_add, hwidth]
      exact Nat.mod_eq_of_lt (show _ < UInt32.size by omega)
    have hnext : (cursor + UInt32.ofNat w + 1).toNat = cursor.toNat + w + 1 := by
      rw [UInt32.toNat_add, hstop, hone]
      exact Nat.mod_eq_of_lt (show _ < UInt32.size by omega)
    have hrest : (cursor + UInt32.ofNat w + 1).toNat + extent ws < UInt32.size := by
      rw [hnext]
      omega
    rw [reserved, successive, hstop, ih hrest, hnext]

end Range

namespace Expr

variable {α : Type}

/-- The nodes without parts, from left to right. -/
def leaves (e : Expr α) : List (Expr α) := e.postorder.filter fun n => n.children.isEmpty

/-- The number of bytes that a node has of its own; a node with parts has none. -/
def ownWidth : Expr α → Nat
  | var _ name => varWidth name
  | constant _ value => value.width
  | null _ => nullWidth
  | list _ [] => emptyListWidth
  | list _ (_ :: _) | paren _ _ | binary _ _ _ _ => 0

/-- The widths of the leaves, from left to right. -/
def leafWidths (e : Expr α) : List Nat := e.leaves.map ownWidth

/-- The ranges of the leaves, from left to right. -/
def leafRanges (e : Expr Origin) : List Range := e.leaves.map range

/-- The nodes of a list of trees are those of the trees, in order. -/
theorem postorderEach_eq_flatMap (es : List (Expr α)) :
    postorderEach es = es.flatMap postorder := by
  induction es with
  | nil => rfl
  | cons e es ih => rw [postorderEach, List.flatMap_cons, ih]

/-- The leaves of a node with parts are the leaves of its parts. -/
theorem leaves_eq_flatMap {e : Expr α} (h : e.children ≠ []) :
    e.leaves = e.children.flatMap leaves := by
  have hself : e.children.isEmpty = false := List.isEmpty_eq_false_iff.mpr h
  rw [leaves, postorder_eq, List.filter_append, List.filter_singleton, hself,
    postorderEach_eq_flatMap, List.filter_flatMap]
  exact List.append_nil _

/-- The tree fills the text from the offset on with its leaves, and what follows starts behind
them. -/
def Fills (e : Expr α) (offset : Nat) : Prop :=
  (place e offset).1.leafRanges = Range.successive offset e.leafWidths ∧
    (place e offset).2 = offset + Range.extent e.leafWidths

/-- Trees fill the text one after the other, when each of them does. -/
theorem fills_placeEach_of {es : List (Expr α)} (h : ∀ e ∈ es, ∀ offset, Fills e offset)
    (offset : Nat) :
    (placeEach es offset).1.flatMap leafRanges =
        Range.successive offset (es.flatMap leafWidths) ∧
      (placeEach es offset).2 = offset + Range.extent (es.flatMap leafWidths) := by
  induction es generalizing offset with
  | nil => exact ⟨rfl, rfl⟩
  | cons e es ih =>
    obtain ⟨hfirst, hrest⟩ := List.forall_mem_cons.mp h
    obtain ⟨hranges, hnext⟩ := hfirst offset
    obtain ⟨hothers, hend⟩ := ih hrest (place e offset).2
    rw [List.flatMap_cons, Range.successive_append, Range.extent_append, ← Nat.add_assoc, ← hnext,
      ← hranges, ← hothers, ← hend]
    exact ⟨rfl, rfl⟩

/-- Every tree fills the text from its offset on. -/
theorem fills (e : Expr α) (offset : Nat) : Fills e offset := by
  induction e using childInduction generalizing offset with
  | node e ih =>
    by_cases hchildren : e.children = []
    · cases e with
      | var | constant | null => exact ⟨rfl, rfl⟩
      | list tag items =>
        cases items with
        | nil => exact ⟨rfl, rfl⟩
        | cons => exact absurd hchildren (List.cons_ne_nil _ _)
      | paren | binary => exact absurd hchildren (List.cons_ne_nil _ _)
    · obtain ⟨hranges, hnext⟩ := fills_placeEach_of ih offset
      have hplaced : (place e offset).1.children ≠ [] := by
        rw [children_place]
        cases hparts : e.children with
        | nil => exact absurd hparts hchildren
        | cons c cs => exact List.cons_ne_nil _ _
      have hwidths : e.leafWidths = e.children.flatMap leafWidths := by
        rw [leafWidths, leaves_eq_flatMap hchildren, List.map_flatMap]
        rfl
      have hleaves : (place e offset).1.leafRanges =
          (placeEach e.children offset).1.flatMap leafRanges := by
        rw [leafRanges, leaves_eq_flatMap hplaced, children_place, List.map_flatMap]
        rfl
      rw [Fills, hleaves, hwidths, place_snd hchildren]
      exact ⟨hranges, hnext⟩

end Expr

namespace Statement

variable {α : Type}

/-- The widths of the leaves of a statement, from left to right; the variable that is assigned to
comes last. -/
def leafWidths : Statement α → List Nat
  | expression _ value => value.leafWidths
  | assign _ _ target value => value.leafWidths ++ [Expr.varWidth target]

/-- The ranges of the leaves of a statement, in the same order. -/
def leafRanges : Statement Origin → List Range
  | expression _ value => value.leafRanges
  | assign _ targetTag _ value => value.leafRanges ++ [targetTag.range]

/-- The ranges of the direct parts of a statement: its expression and the variable that is assigned
to. -/
def parts : Statement Origin → List Range
  | expression _ value => [value.range]
  | assign _ targetTag _ value => [value.range, targetTag.range]

/-- The source text of a statement. -/
def range (s : Statement Origin) : Range := s.tag.range

/-- A statement that has some text and contains its parts, which have some text and stand apart; so
it is with the nodes of its expression. -/
structure WellPlaced (s : Statement Origin) : Prop where
  /-- The statement has some text. -/
  nonempty : s.range.pos < s.range.stop
  /-- The parts have some text. -/
  solid : ∀ r ∈ s.parts, r.pos < r.stop
  /-- The parts stand in the text of the statement. -/
  contains : ∀ r ∈ s.parts, s.range.pos ≤ r.pos ∧ r.stop ≤ s.range.stop
  /-- The parts stand apart, in their order. -/
  apart : s.parts.Pairwise fun a b => a.stop < b.pos
  /-- The nodes of the expression are well placed. -/
  nodes : ∀ n ∈ s.value.postorder, n.WellPlaced

/-- A statement fills the text from its offset on with its leaves. -/
theorem fills (s : Statement α) (offset : Nat) :
    (s.place offset).1.leafRanges = Range.successive offset s.leafWidths ∧
      (s.place offset).2 = offset + Range.extent s.leafWidths := by
  cases s with
  | expression tag value => exact value.fills offset
  | assign tag targetTag target value =>
    obtain ⟨hranges, hnext⟩ := value.fills offset
    have hlast : (Statement.assign tag targetTag target value).leafWidths =
      value.leafWidths ++ [Expr.varWidth target] := rfl
    rw [hlast, Range.successive_append, Range.extent_append, ← hranges, ← Nat.add_assoc, ← hnext]
    exact ⟨rfl, rfl⟩

/-- Statements fill the text from the offset on with their leaves. -/
theorem fills_placeEach (ss : List (Statement α)) (offset : Nat) :
    (placeEach ss offset).1.flatMap leafRanges =
        Range.successive offset (ss.flatMap leafWidths) ∧
      (placeEach ss offset).2 = offset + Range.extent (ss.flatMap leafWidths) := by
  induction ss generalizing offset with
  | nil => exact ⟨rfl, rfl⟩
  | cons s ss ih =>
    obtain ⟨hranges, hnext⟩ := s.fills offset
    obtain ⟨hothers, hend⟩ := ih (s.place offset).2
    rw [List.flatMap_cons, Range.successive_append, Range.extent_append, ← Nat.add_assoc, ← hnext,
      ← hranges, ← hothers, ← hend]
    exact ⟨rfl, rfl⟩

/-- A statement that is laid out is well placed, and stands in the text from its offset to that of
what follows. -/
theorem wellPlaced_place (s : Statement α) (offset : Nat) :
    (s.place offset).1.WellPlaced ∧ (s.place offset).1.range.pos = offset ∧
      (s.place offset).1.range.stop + 1 = (s.place offset).2 := by
  cases s with
  | expression tag value =>
    obtain ⟨start, nonempty, hnext⟩ := Expr.Row.singleton_iff.mp (value.row_place offset)
    have hnodes := value.wellPlaced_of_mem_place offset
    have hsolid : (value.place offset).1.range.pos < (value.place offset).1.range.stop := by omega
    refine ⟨⟨hsolid, ?_, ?_, List.pairwise_singleton _ _, hnodes⟩, start, hnext⟩
    · exact List.forall_mem_singleton.mpr hsolid
    · exact List.forall_mem_singleton.mpr ⟨Nat.le_refl _, Nat.le_refl _⟩
  | assign tag targetTag target value =>
    obtain ⟨start, nonempty, hnext⟩ := Expr.Row.singleton_iff.mp (value.row_place offset)
    have hnodes := value.wellPlaced_of_mem_place offset
    have hwidth := Expr.varWidth_pos target
    let middle := (value.place offset).2
    let written : Range := ⟨middle, middle + Expr.varWidth target⟩
    have hparts : ((Statement.assign tag targetTag target value).place offset).1.parts =
      [(value.place offset).1.range, written] := rfl
    have hrange : ((Statement.assign tag targetTag target value).place offset).1.range =
        ⟨offset, middle + Expr.varWidth target⟩ := by
      change written.cover (value.place offset).1.range = _
      rw [Range.cover, Range.mk.injEq]
      dsimp only [written, middle]
      omega
    have hbefore : (value.place offset).1.range.stop < middle := by omega
    refine ⟨⟨?_, ?_, ?_, ?_, hnodes⟩, ?_, ?_⟩
    · rw [hrange]
      dsimp only
      omega
    · rw [hparts, List.forall_mem_cons, List.forall_mem_singleton]
      dsimp only [written]
      omega
    · rw [hparts, hrange, List.forall_mem_cons, List.forall_mem_singleton]
      dsimp only [written]
      omega
    · rw [hparts, List.pairwise_pair]
      exact hbefore
    · rw [hrange]
    · rw [hrange]
      rfl

/-- Statements that are laid out are well placed, none of them starts before the offset, and they
stand apart. -/
theorem wellPlaced_placeEach (ss : List (Statement α)) (offset : Nat) :
    (∀ s ∈ (placeEach ss offset).1, s.WellPlaced ∧ offset ≤ s.range.pos) ∧
      (placeEach ss offset).1.Pairwise fun s t => s.range.stop < t.range.pos := by
  induction ss generalizing offset with
  | nil => exact ⟨List.forall_mem_nil _, List.Pairwise.nil⟩
  | cons s ss ih =>
    obtain ⟨hothers, hapart⟩ := ih (s.place offset).2
    obtain ⟨hplaced, hstart, hnext⟩ := s.wellPlaced_place offset
    have hnonempty := hplaced.nonempty
    rw [placeEach, List.forall_mem_cons, List.pairwise_cons]
    refine ⟨⟨⟨hplaced, hstart.ge⟩, fun t ht => ?_⟩, fun t ht => ?_, hapart⟩
    · obtain ⟨ht, hpos⟩ := hothers t ht
      exact ⟨ht, by omega⟩
    · have hpos := (hothers t ht).2
      omega

/-- Statements that nest: each of them is well placed, and they stand apart, as all their leaves
do. -/
structure Nested (ss : List (Statement Origin)) : Prop where
  /-- Every statement is well placed. -/
  placed : ∀ s ∈ ss, s.WellPlaced
  /-- The statements stand apart, in their order. -/
  apart : ss.Pairwise fun s t => s.range.stop < t.range.pos
  /-- The leaves of all statements stand apart, in their order. -/
  leavesApart : (ss.flatMap leafRanges).Pairwise fun a b => a.stop < b.pos

/-- As long as the widths of all leaves, with a byte for each leaf, stay below `2 ^ 32`, a cursor of
32 bits finds the place of every leaf. Every node and every statement has some text and contains its
parts; parts, statements and leaves follow one another with at least a byte between them. -/
theorem placeAll_nested (ss : List (Statement α))
    (h : Range.extent (ss.flatMap leafWidths) < UInt32.size) :
    (placeAll ss).flatMap leafRanges = Range.reserved 0 (ss.flatMap leafWidths) ∧
      Nested (placeAll ss) := by
  obtain ⟨hplaced, hapart⟩ := wellPlaced_placeEach ss 0
  have hranges := (fills_placeEach ss 0).1
  have hstart : (0 : UInt32).toNat + Range.extent (ss.flatMap leafWidths) < UInt32.size := by
    rw [UInt32.toNat_zero]
    omega
  refine ⟨?_, fun s hs => (hplaced s hs).1, hapart, ?_⟩
  · rw [Range.reserved_eq hstart]
    exact hranges
  · rw [placeAll, hranges]
    exact Range.pairwise_successive 0 _

/-- A list with parentheses and an empty list in it is assigned, and the variable is used: the
leaves are `'é'`, `null`, `[]`, the target, and the variable. -/
theorem placeAll_nested_assignment :
    let value := Expr.list () [.paren () (.binary () (.constant () (.string "é"))
      (.compute .concat) (.null ())), .list () []]
    let ss := [Statement.assign () () "xs" value, .expression () (.var () "xs")]
    Range.extent (ss.flatMap leafWidths) < UInt32.size ∧
      Range.reserved 0 (ss.flatMap leafWidths) =
        [⟨0, 4⟩, ⟨5, 9⟩, ⟨10, 12⟩, ⟨13, 16⟩, ⟨17, 20⟩] ∧
      (placeAll ss).flatMap leafRanges = Range.reserved 0 (ss.flatMap leafWidths) ∧
      Nested (placeAll ss) := by
  intro value ss
  have hextent : Range.extent (ss.flatMap leafWidths) < UInt32.size := by decide +kernel
  exact ⟨hextent, by decide +kernel, placeAll_nested ss hextent⟩

end Statement

end OperatorLint
