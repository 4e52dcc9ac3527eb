import OperatorLint.Certainty
import OperatorLint.Ty.Basic

/-!
# Scopes

A scope holds the variables that are known at one point of a program, each with its type and with
how certainly it is defined. Names stand in the order in which they were first assigned; a later
assignment keeps the place. A variable that is certainly undefined has no type.
-/

namespace OperatorLint

/-- What a scope knows about one variable. -/
structure Binding where
  /-- The variable, without the dollar sign. -/
  name : String
  /-- The type of its values. -/
  type : Ty
  /-- How certainly it is defined. -/
  certainty : Certainty

/-- Puts a binding in the place of the one of the same name, or at the end. -/
def Binding.putIn (b : Binding) : List Binding → List Binding
  | [] => [b]
  | c :: cs => if c.name = b.name then b :: cs else c :: b.putIn cs

/-- A binding adds its own name at most, and at the end. -/
theorem Binding.names_putIn (b : Binding) (cs : List Binding) :
    (b.putIn cs).map Binding.name =
      if b.name ∈ cs.map Binding.name then cs.map Binding.name
      else cs.map Binding.name ++ [b.name] := by
  induction cs with
  | nil => rfl
  | cons c cs ih =>
    by_cases h : c.name = b.name
    · simp [putIn, h]
    · simp only [putIn, h, if_false, List.map_cons, ih, List.mem_cons, Ne.symm h, false_or]
      split <;> simp

/-- Looking a name up after a binding was put in: its own name gives the binding, any other name
what it gave before. -/
theorem Binding.find?_putIn (b : Binding) (cs : List Binding) (name : String) :
    (b.putIn cs).find? (fun c => c.name == name) =
      if name = b.name then some b else cs.find? fun c => c.name == name := by
  induction cs with
  | nil =>
    by_cases h : name = b.name
    · simp [putIn, h]
    · simp [putIn, h, Ne.symm h]
  | cons c cs ih =>
    by_cases hc : c.name = b.name
    · by_cases h : name = b.name
      · simp [putIn, hc, h]
      · simp [putIn, hc, h, Ne.symm h]
    · by_cases h : c.name = name
      · subst h
        simp [putIn, hc]
      · simp [putIn, hc, h, ih]

/-- The variables known at one point of a program. -/
structure Scope where
  /-- The bindings, in the order of first assignment. -/
  bindings : List Binding
  /-- No name is bound twice. -/
  distinct : (bindings.map Binding.name).Nodup

namespace Scope

/-- The scope without variables. -/
def empty : Scope := ⟨[], List.nodup_nil⟩

/-- The scope with one variable assigned. -/
def assign (s : Scope) (name : String) (type : Ty) (certainty : Certainty) : Scope where
  bindings := (Binding.mk name type certainty).putIn s.bindings
  distinct := by
    rw [Binding.names_putIn]
    split
    · exact s.distinct
    · next h =>
      rw [List.nodup_append]
      refine ⟨s.distinct, by simp, ?_⟩
      intro a ha b hb
      rw [List.mem_singleton] at hb
      exact fun hab => h (hb ▸ hab ▸ ha)

/-- The binding of a variable. -/
def find? (s : Scope) (name : String) : Option Binding :=
  s.bindings.find? fun b => b.name == name

/-- How certainly a variable is defined, `no` when it was never assigned. -/
def certainty (s : Scope) (name : String) : Certainty :=
  (s.find? name).elim .no Binding.certainty

/-- The type of a variable, unless it is certainly undefined. -/
def typeOf? (s : Scope) (name : String) : Option Ty :=
  ((s.find? name).filter fun b => !b.certainty.isNo).map Binding.type

/-- The names bound, in the order of first assignment. -/
def names (s : Scope) : List String := s.bindings.map Binding.name

/-- The number of variables. -/
def size (s : Scope) : Nat := s.bindings.length

/-- The scope holds no variable. -/
def isEmpty (s : Scope) : Bool := s.bindings.isEmpty

/-- The scope that a list of assignments leads to. -/
def ofList (bindings : List Binding) : Scope :=
  bindings.foldl (fun s b => s.assign b.name b.type b.certainty) empty

/-- Scopes with the same bindings are the same. -/
@[ext] theorem ext {s t : Scope} (h : s.bindings = t.bindings) : s = t := by
  cases s
  cases t
  cases h
  rfl

/-- An assigned variable is found with what was assigned. -/
theorem find?_assign_self (s : Scope) (name : String) (type : Ty) (certainty : Certainty) :
    (s.assign name type certainty).find? name = some ⟨name, type, certainty⟩ := by
  simp [find?, assign, Binding.find?_putIn]

/-- Other variables are found as before. -/
theorem find?_assign_of_ne (s : Scope) {name other : String} (h : other ≠ name) (type : Ty)
    (certainty : Certainty) : (s.assign name type certainty).find? other = s.find? other := by
  simp [find?, assign, Binding.find?_putIn, h]

/-- An assignment adds its own name at most, and at the end. -/
theorem names_assign (s : Scope) (name : String) (type : Ty) (certainty : Certainty) :
    (s.assign name type certainty).names =
      if name ∈ s.names then s.names else s.names ++ [name] :=
  Binding.names_putIn ⟨name, type, certainty⟩ s.bindings

end Scope

end OperatorLint
