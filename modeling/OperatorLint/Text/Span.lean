/-!
# Places in source text

A `Range` is the half-open interval of byte offsets that a tree node occupies; a `Span` is the
same interval given by its start and its length, the form in which a finding is located. Turning
a forward range into a span and back loses nothing.
-/

namespace OperatorLint

/-- A stretch of source text, given by where it starts and how long it is. -/
structure Span where
  /-- The offset of the first byte. -/
  start : Nat
  /-- The number of bytes. -/
  length : Nat
deriving DecidableEq, Repr, Inhabited

/-- A stretch of source text, given by where it starts and where it ends. -/
structure Range where
  /-- The offset of the first byte. -/
  pos : Nat
  /-- The offset just past the last byte. -/
  stop : Nat
deriving DecidableEq, Repr, Inhabited

namespace Span

/-- The offset just past the last byte. -/
def stop (s : Span) : Nat := s.start + s.length

/-- The span holds no byte. -/
def isEmpty (s : Span) : Bool := s.length == 0

/-- The offset lies inside the span. -/
def contains (s : Span) (pos : Nat) : Bool := s.start ≤ pos && pos < s.stop

/-- The span between two offsets, empty when they are given backwards. -/
def ofBounds (start stop : Nat) : Span := ⟨start, stop - start⟩

/-- The smallest span that covers both spans. -/
def union (a b : Span) : Span := ofBounds (min a.start b.start) (max a.stop b.stop)

/-- The text `start..stop`. -/
def dotted (s : Span) : String := s!"{s.start}..{s.stop}"

/-- The text `[start, stop)`, the usual way to write a half-open interval. -/
def interval (s : Span) : String := s!"[{s.start}, {s.stop})"

/-- The range with the same bytes. -/
def toRange (s : Span) : Range := ⟨s.start, s.stop⟩

/-- Forward bounds are the bounds of their span. -/
theorem stop_ofBounds {start stop : Nat} (h : start ≤ stop) :
    (ofBounds start stop).stop = stop := by
  simp only [Span.stop, ofBounds]
  omega

/-- The covering span starts and stops at the outermost of the four bounds. -/
theorem union_bounds (a b : Span) :
    (union a b).start = min a.start b.start ∧ (union a b).stop = max a.stop b.stop := by
  refine ⟨rfl, stop_ofBounds ?_⟩
  simp only [Span.stop]
  omega

end Span

namespace Range

/-- The empty range at an offset, where nodes that were never written stand. -/
def emptyAt (pos : Nat) : Range := ⟨pos, pos⟩

/-- The number of bytes, zero for a backward range. -/
def length (r : Range) : Nat := r.stop - r.pos

/-- The range starts where it stops. -/
def isEmpty (r : Range) : Bool := r.pos == r.stop

/-- The smallest range that covers both ranges. -/
def cover (a b : Range) : Range := ⟨min a.pos b.pos, max a.stop b.stop⟩

/-- The text `pos..stop`. -/
def dotted (r : Range) : String := s!"{r.pos}..{r.stop}"

/-- The span with the same bytes. -/
def toSpan (r : Range) : Span := Span.ofBounds r.pos r.stop

/-- A span survives the way to a range and back. -/
theorem toSpan_toRange (s : Span) : s.toRange.toSpan = s := by
  cases s
  simp [Span.toRange, toSpan, Span.ofBounds, Span.stop]

/-- A forward range survives the way to a span and back. -/
theorem toRange_toSpan {r : Range} (h : r.pos ≤ r.stop) : r.toSpan.toRange = r := by
  cases r
  simp only [toSpan, Span.toRange, Span.stop_ofBounds h]
  rfl

end Range

end OperatorLint
