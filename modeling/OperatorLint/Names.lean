/-!
# Tables of names

A table keeps every text once and hands out handles for them: the first text gets handle 0, the
next new one handle 1. Two handles are equal exactly when their texts are.
-/

namespace OperatorLint

/-- A table of different texts. -/
structure NameTable where
  /-- The texts, in the order in which they came. -/
  names : List String
  /-- No text is kept twice. -/
  distinct : names.Nodup

namespace NameTable

/-- The table without texts. -/
def empty : NameTable := ⟨[], List.nodup_nil⟩

/-- The table that surely holds a text. -/
def insert (t : NameTable) (text : String) : NameTable :=
  if h : text ∈ t.names then t
  else
    { names := t.names ++ [text]
      distinct := by
        rw [List.nodup_append]
        refine ⟨t.distinct, by simp, ?_⟩
        intro a ha b hb
        rw [List.mem_singleton] at hb
        exact fun hab => h (hb ▸ hab ▸ ha) }

/-- The handle of a text, if the table holds it. -/
def handle? (t : NameTable) (text : String) : Option Nat := t.names.idxOf? text

/-- The text behind a handle. -/
def text? (t : NameTable) (handle : Nat) : Option String := t.names[handle]?

/-- The number of texts. -/
def size (t : NameTable) : Nat := t.names.length

/-- The table holds no text. -/
def isEmpty (t : NameTable) : Bool := t.names.isEmpty

/-- The table that holds a list of texts. -/
def ofList (texts : List String) : NameTable := texts.foldl insert empty

/-- The line by which a table is shown. -/
def summary (t : NameTable) : String := "StringInterner \x7b len: " ++ toString t.size ++ " \x7d"

/-- An inserted text is in the table, and what was there stays. -/
theorem mem_insert (t : NameTable) (text other : String) :
    other ∈ (t.insert text).names ↔ other = text ∨ other ∈ t.names := by
  unfold insert
  split
  · next h =>
    constructor
    · exact .inr
    · rintro (rfl | hother)
      · exact h
      · exact hother
  · simp [or_comm]

end NameTable

end OperatorLint
