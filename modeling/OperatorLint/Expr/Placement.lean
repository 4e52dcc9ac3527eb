import OperatorLint.Expr.Basic
import OperatorLint.Ty.Description

/-!
# Places in source text

A tree without places gets its places by laying its leaves out one after the other, each followed
by one byte that separates it from the next. A composed node has no bytes of its own: it covers
its first and its last part. An assignment lays its value out before its target.
-/

namespace OperatorLint

/-- The origin of a leaf of some width at an offset, and the offset of what follows. -/
def Origin.leaf (offset width : Nat) : Origin × Nat :=
  (.written ⟨offset, offset + width⟩, offset + width + 1)

namespace Expr

variable {α : Type}

/-- The number of bytes of an array literal without items. -/
def emptyListWidth : Nat := 2

/-- The number of bytes of the keyword `null`. -/
def nullWidth : Nat := 4

/-- The number of bytes of a variable: its name and the dollar sign. -/
def varWidth (name : String) : Nat := name.utf8ByteSize + 1

/-- The origin of a node that covers its first and its last part. -/
def span (first last : Expr Origin) : Origin := .written (first.range.cover last.range)

mutual
/-- Lays a tree out from an offset on; the second result is the offset of what follows. -/
def place : Expr α → Nat → Expr Origin × Nat
  | var _ name, offset =>
    let (origin, next) := Origin.leaf offset (varWidth name)
    (.var origin name, next)
  | constant _ value, offset =>
    let (origin, next) := Origin.leaf offset value.width
    (.constant origin value, next)
  | null _, offset =>
    let (origin, next) := Origin.leaf offset nullWidth
    (.null origin, next)
  | list _ items, offset =>
    match placeEach items offset with
    | ([], _) =>
      let (origin, next) := Origin.leaf offset emptyListWidth
      (.list origin [], next)
    | (first :: rest, next) =>
      (.list (span first ((first :: rest).getLast (by simp))) (first :: rest), next)
  | paren _ inner, offset =>
    let (inner, next) := place inner offset
    (.paren (.written inner.range) inner, next)
  | binary _ left op right, offset =>
    let (left, middle) := place left offset
    let (right, next) := place right middle
    (.binary (span left right) left op right, next)

/-- Lays a list of trees out one after the other. -/
def placeEach : List (Expr α) → Nat → List (Expr Origin) × Nat
  | [], offset => ([], offset)
  | e :: es, offset =>
    let (e, middle) := place e offset
    let (es, next) := placeEach es middle
    (e :: es, next)
end

end Expr

namespace Statement

variable {α : Type}

/-- Lays a statement out from an offset on. -/
def place : Statement α → Nat → Statement Origin × Nat
  | expression _ value, offset =>
    let (value, next) := value.place offset
    (.expression (.written value.range) value, next)
  | assign _ _ target value, offset =>
    let (value, middle) := value.place offset
    let (origin, next) := Origin.leaf middle (Expr.varWidth target)
    (.assign (.written (origin.range.cover value.range)) origin target value, next)

/-- Lays a list of statements out one after the other. -/
def placeEach : List (Statement α) → Nat → List (Statement Origin) × Nat
  | [], offset => ([], offset)
  | s :: ss, offset =>
    let (s, middle) := s.place offset
    let (ss, next) := placeEach ss middle
    (s :: ss, next)

/-- The statements of a text that starts with them. -/
def placeAll (statements : List (Statement α)) : List (Statement Origin) :=
  (placeEach statements 0).1

end Statement

end OperatorLint
