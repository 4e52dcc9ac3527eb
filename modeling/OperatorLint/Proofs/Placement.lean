import OperatorLint.Expr.Placement
import OperatorLint.Proofs.Addresses

/-!
# Where laid out trees stand

A tree that is laid out fills the stretch of text from its offset to the offset of what follows,
but for one byte at the end, and so do its direct parts in a row. Each node therefore has some text,
contains its direct parts, and these stand apart from one another. This says of one node what it
takes to know of the tree: of two nodes in the order of a walk the first ends before the second
starts, or it stands inside the second. Positions are natural numbers here and never run out.
-/

namespace OperatorLint

namespace Written

/-- A text that is not empty has some text behind its sign. -/
theorem signed_ne_nil (negative : Bool) {text : List Char} (h : text ≠ []) :
    signed negative text ≠ [] := by
  unfold signed
  split
  · exact List.cons_ne_nil _ _
  · exact h

/-- A decimal number has some text. -/
theorem positional_ne_nil (d : Shortest.Decimal) : positional d ≠ [] := by
  have hdigits : Digits.write d.digits ≠ [] := Nat.toDigits_ne_nil
  simp only [positional]
  split
  · exact List.append_ne_nil_of_left_ne_nil hdigits _
  split
  · exact List.append_ne_nil_of_right_ne_nil _ (List.cons_ne_nil _ _)
  · exact List.cons_ne_nil _ _

/-- A double has some text. -/
theorem plainChars_ne_nil (b : Binary) : plainChars b ≠ [] := by
  cases b with
  | nan => exact List.cons_ne_nil _ _
  | infinite negative => exact signed_ne_nil negative (List.cons_ne_nil _ _)
  | finite negative mantissa exponent =>
    cases mantissa with
    | zero => exact signed_ne_nil negative (List.cons_ne_nil _ _)
    | succ mantissa => exact signed_ne_nil negative (positional_ne_nil _)

end Written

/-- The literal of a constant has at least one byte. -/
theorem Constant.width_pos (c : Constant) : 0 < c.width := by
  cases c with
  | bool value => cases value <;> exact Nat.succ_pos _
  | int value =>
    exact List.length_pos_iff.mpr (Written.signed_ne_nil _ Nat.toDigits_ne_nil)
  | float value => exact List.length_pos_iff.mpr (Written.plainChars_ne_nil _)
  | string text => exact Nat.succ_pos _

namespace Expr

variable {α : Type} {offset next : Nat}

/-- Trees that stand one after the other from an offset on, each with some text and followed by the
byte that separates it from the next; they end at the offset of what follows. -/
inductive Row : Nat → List (Expr Origin) → Nat → Prop
  /-- Where no tree stands no text is needed. -/
  | nil (offset : Nat) : Row offset [] offset
  /-- A tree stands at the offset, and the others follow it. -/
  | cons {offset next : Nat} {e : Expr Origin} {es : List (Expr Origin)}
      (start : e.range.pos = offset) (nonempty : offset < e.range.stop)
      (rest : Row (e.range.stop + 1) es next) : Row offset (e :: es) next

namespace Row

variable {e : Expr Origin} {es : List (Expr Origin)}

/-- A single tree fills the text up to the byte that separates it from what follows. -/
theorem singleton_iff : Row offset [e] next ↔
    e.range.pos = offset ∧ offset < e.range.stop ∧ e.range.stop + 1 = next := by
  constructor
  · intro h
    cases h with
    | cons start nonempty rest =>
      cases rest
      exact ⟨start, nonempty, rfl⟩
  · rintro ⟨start, nonempty, rfl⟩
    exact .cons start nonempty (.nil _)

/-- A row ends where it starts or later. -/
theorem le (h : Row offset es next) : offset ≤ next := by
  induction h with
  | nil => exact Nat.le_refl _
  | cons start nonempty rest ih => omega

/-- Every tree of a row stands in the text of the row and has some text. -/
theorem bounds (h : Row offset es next) :
    ∀ e ∈ es, offset ≤ e.range.pos ∧ e.range.pos < e.range.stop ∧ e.range.stop < next := by
  induction h with
  | nil => exact List.forall_mem_nil _
  | cons start nonempty rest ih =>
    have hle := rest.le
    refine List.forall_mem_cons.mpr ⟨by omega, fun d hd => ?_⟩
    have hd := ih d hd
    omega

/-- The trees of a row stand apart. -/
theorem apart (h : Row offset es next) :
    es.Pairwise fun d e => d.range.stop < e.range.pos := by
  induction h with
  | nil => exact List.Pairwise.nil
  | cons start nonempty rest ih =>
    refine List.pairwise_cons.mpr ⟨fun d hd => ?_, ih⟩
    have hd := rest.bounds d hd
    omega

/-- The last tree of a row ends one byte before what follows. -/
theorem stop_getLast (h : Row offset es next) (hne : es ≠ []) :
    (es.getLast hne).range.stop + 1 = next := by
  induction h with
  | nil => exact absurd rfl hne
  | cons start nonempty rest ih =>
    cases rest with
    | nil => rfl
    | cons => exact ih (List.cons_ne_nil _ _)

/-- The first and the last tree of a row cover its text but for the last byte. -/
theorem cover_eq (h : Row offset (e :: es) next) :
    e.range.cover ((e :: es).getLast (List.cons_ne_nil e es)).range = ⟨offset, next - 1⟩ := by
  have hlast := h.stop_getLast (List.cons_ne_nil e es)
  have hfirst := h.bounds e List.mem_cons_self
  have hend := h.bounds _ (List.getLast_mem (List.cons_ne_nil e es))
  cases h with
  | cons start nonempty rest =>
    rw [Range.cover, Range.mk.injEq]
    omega

/-- A tree that covers a row stands in the text of the row. -/
theorem whole (h : Row offset es next) (hne : es ≠ []) (hrange : e.range = ⟨offset, next - 1⟩) :
    Row offset [e] next := by
  obtain ⟨d, hd⟩ := List.exists_mem_of_ne_nil es hne
  have hbounds := h.bounds d hd
  rw [singleton_iff, hrange]
  dsimp only
  omega

end Row

/-- A leaf of some width stands in the text that it takes. -/
theorem row_leaf {e : Expr Origin} {width : Nat} (hwidth : 0 < width)
    (h : e.tag = (Origin.leaf offset width).1) : Row offset [e] (offset + width + 1) := by
  have hrange : e.range = ⟨offset, offset + width⟩ := congrArg Origin.range h
  rw [Row.singleton_iff, hrange]
  dsimp only
  omega

/-- A variable has at least one byte. -/
theorem varWidth_pos (name : String) : 0 < varWidth name := Nat.succ_pos _

/-- The direct parts of a tree are laid out one after the other. -/
theorem children_place (e : Expr α) (offset : Nat) :
    (place e offset).1.children = (placeEach e.children offset).1 := by
  cases e with
  | list tag items => cases items <;> rfl
  | _ => rfl

/-- What follows a tree with parts follows its last part. -/
theorem place_snd {e : Expr α} (h : e.children ≠ []) (offset : Nat) :
    (place e offset).2 = (placeEach e.children offset).2 := by
  cases e with
  | list tag items =>
    cases items with
    | nil => exact absurd rfl h
    | cons => rfl
  | paren | binary => rfl
  | _ => exact absurd rfl h

/-- Trees are laid out in a row, when each of them stands in its text. -/
theorem row_placeEach_of {es : List (Expr α)}
    (h : ∀ e ∈ es, ∀ offset, Row offset [(place e offset).1] (place e offset).2) (offset : Nat) :
    Row offset (placeEach es offset).1 (placeEach es offset).2 := by
  induction es generalizing offset with
  | nil => exact .nil offset
  | cons e es ih =>
    obtain ⟨hfirst, hrest⟩ := List.forall_mem_cons.mp h
    obtain ⟨start, nonempty, hnext⟩ := Row.singleton_iff.mp (hfirst offset)
    refine .cons start nonempty ?_
    rw [hnext]
    exact ih hrest _

/-- A tree stands in the text from its offset to that of what follows. -/
theorem row_place (e : Expr α) (offset : Nat) :
    Row offset [(place e offset).1] (place e offset).2 := by
  induction e using childInduction generalizing offset with
  | node e ih =>
    have hrow := row_placeEach_of ih offset
    cases e with
    | var tag name => exact row_leaf (varWidth_pos name) rfl
    | constant tag value => exact row_leaf value.width_pos rfl
    | null tag => exact row_leaf (Nat.succ_pos 3) rfl
    | list tag items =>
      cases items with
      | nil => exact row_leaf (Nat.succ_pos 1) rfl
      | cons item items => exact hrow.whole (List.cons_ne_nil _ _) hrow.cover_eq
    | paren tag inner =>
      obtain ⟨start, nonempty, hnext⟩ := Row.singleton_iff.mp hrow
      exact Row.singleton_iff.mpr ⟨start, nonempty, hnext⟩
    | binary tag left op right => exact hrow.whole (List.cons_ne_nil _ _) hrow.cover_eq

/-- Trees are laid out in a row. -/
theorem row_placeEach (es : List (Expr α)) (offset : Nat) :
    Row offset (placeEach es offset).1 (placeEach es offset).2 :=
  row_placeEach_of (fun e _ => row_place e) offset

/-- A node that has some text and contains its direct parts, which stand apart. -/
structure WellPlaced (e : Expr Origin) : Prop where
  /-- The node has some text. -/
  nonempty : e.range.pos < e.range.stop
  /-- The direct parts stand in the text of the node. -/
  contains : ∀ c ∈ e.children, e.range.pos ≤ c.range.pos ∧ c.range.stop ≤ e.range.stop
  /-- The direct parts stand apart, in their order. -/
  apart : e.children.Pairwise fun c d => c.range.stop < d.range.pos

/-- The root of a tree that is laid out is well placed. -/
theorem wellPlaced_place (e : Expr α) (offset : Nat) : WellPlaced (place e offset).1 := by
  have hrow := row_placeEach e.children offset
  rw [← children_place] at hrow
  obtain ⟨start, nonempty, hnext⟩ := Row.singleton_iff.mp (row_place e offset)
  refine ⟨by omega, fun c hc => ?_, hrow.apart⟩
  have hparts : e.children ≠ [] := by
    intro hnil
    rw [children_place, hnil] at hc
    exact absurd hc List.not_mem_nil
  have hbounds := hrow.bounds c hc
  rw [← place_snd hparts, ← hnext] at hbounds
  omega

/-- The nodes of trees laid out one after the other are well placed, when those of each tree are. -/
theorem wellPlaced_placeEach_of {es : List (Expr α)}
    (h : ∀ e ∈ es, ∀ offset, ∀ n ∈ (place e offset).1.postorder, WellPlaced n) (offset : Nat) :
    ∀ n ∈ postorderEach (placeEach es offset).1, WellPlaced n := by
  induction es generalizing offset with
  | nil => exact List.forall_mem_nil _
  | cons e es ih =>
    obtain ⟨hfirst, hrest⟩ := List.forall_mem_cons.mp h
    exact List.forall_mem_append.mpr ⟨hfirst offset, ih hrest _⟩

/-- Every node of a tree that is laid out is well placed. -/
theorem wellPlaced_of_mem_place (e : Expr α) (offset : Nat) :
    ∀ n ∈ (place e offset).1.postorder, WellPlaced n := by
  induction e using childInduction generalizing offset with
  | node e ih =>
    rw [postorder_eq, children_place, List.forall_mem_append, List.forall_mem_singleton]
    exact ⟨wellPlaced_placeEach_of ih offset, wellPlaced_place e offset⟩

/-- The first node stands inside the second and is not the second itself. -/
def Inside (u v : Expr α) : Prop := ∃ c ∈ v.children, u ∈ c.postorder

/-- What stands inside a node is a node of it. -/
theorem Inside.mem_postorder {u v : Expr α} (h : Inside u v) : u ∈ v.postorder := by
  obtain ⟨c, hc, hu⟩ := h
  rw [postorder_eq, List.mem_append, mem_postorderEach]
  exact Or.inl ⟨c, hc, hu⟩

/-- The nodes of a tree whose nodes are all well placed stand in its text. -/
theorem range_of_mem_postorder {e : Expr Origin} (h : ∀ n ∈ e.postorder, WellPlaced n) :
    ∀ n ∈ e.postorder, e.range.pos ≤ n.range.pos ∧ n.range.stop ≤ e.range.stop := by
  induction e using childInduction with
  | node e ih =>
    intro n hn
    rw [postorder_eq, List.mem_append, List.mem_singleton, mem_postorderEach] at hn
    rcases hn with ⟨c, hc, hn⟩ | rfl
    · have hsub : c.postorder ⊆ e.postorder := fun m hm => Inside.mem_postorder ⟨c, hc, hm⟩
      have hpart := ih c hc (fun m hm => h m (hsub hm)) n hn
      have hwhole := (h e (self_mem_postorder e)).contains c hc
      omega
    · exact ⟨Nat.le_refl _, Nat.le_refl _⟩

/-- Of two nodes of trees that stand apart, in the order of a walk, the first ends before the second
starts or stands inside it, when this holds in each tree. -/
theorem pairwise_postorderEach_of {es : List (Expr Origin)}
    (hplaced : ∀ e ∈ es, ∀ n ∈ e.postorder, WellPlaced n)
    (hapart : es.Pairwise fun d e => d.range.stop < e.range.pos)
    (h : ∀ e ∈ es, e.postorder.Pairwise fun u v => u.range.stop < v.range.pos ∨ Inside u v) :
    (postorderEach es).Pairwise fun u v => u.range.stop < v.range.pos ∨ Inside u v := by
  induction es with
  | nil => exact List.Pairwise.nil
  | cons e es ih =>
    obtain ⟨hfirst, hrest⟩ := List.forall_mem_cons.mp h
    obtain ⟨hbefore, hothers⟩ := List.pairwise_cons.mp hapart
    obtain ⟨hplacede, hplacedes⟩ := List.forall_mem_cons.mp hplaced
    rw [postorderEach, List.pairwise_append]
    refine ⟨hfirst, ih hplacedes hothers hrest, fun u hu v hv => Or.inl ?_⟩
    obtain ⟨d, hd, hvd⟩ := mem_postorderEach.mp hv
    have hu := range_of_mem_postorder hplacede u hu
    have hv := range_of_mem_postorder (hplacedes d hd) v hvd
    have hed := hbefore d hd
    omega

/-- Of two nodes of a tree whose nodes are all well placed, in the order of a walk, the first ends
before the second starts or stands inside it. -/
theorem pairwise_postorder {e : Expr Origin} (h : ∀ n ∈ e.postorder, WellPlaced n) :
    e.postorder.Pairwise fun u v => u.range.stop < v.range.pos ∨ Inside u v := by
  induction e using childInduction with
  | node e ih =>
    have hparts : ∀ c ∈ e.children, ∀ n ∈ c.postorder, WellPlaced n := fun c hc n hn =>
      h n (Inside.mem_postorder ⟨c, hc, hn⟩)
    have hapart := (h e (self_mem_postorder e)).apart
    rw [postorder_eq, List.pairwise_append]
    refine ⟨?_, List.pairwise_singleton _ _, fun u hu v hv => Or.inr ?_⟩
    · exact pairwise_postorderEach_of hparts hapart fun c hc => ih c hc (hparts c hc)
    · rw [List.mem_singleton.mp hv]
      exact mem_postorderEach.mp hu

end Expr

end OperatorLint
