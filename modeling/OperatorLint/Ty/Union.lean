import OperatorLint.Ty.Covering

/-!
# Unions

`Ty.union` joins a list of types into the one type that stands for all their values. A failure
absorbs everything, the unknown type absorbs all else, the empty type vanishes, and a type that
another one includes gives way to it. What is left keeps the order in which it came.
-/

namespace OperatorLint.Ty

/-- Writes a type over the types that it includes: it takes the place of the first of them and
the others go; with none there, it goes to the end. -/
def overwrite (t : Ty) (kept : List Ty) : List Ty :=
  kept.takeWhile (fun k => !includes t k) ++
    t :: ((kept.dropWhile (fun k => !includes t k)).drop 1).filter (fun k => !includes t k)

/-- Adds a type to the kept ones, unless it has no value or one of them includes it. -/
def keep (kept : List Ty) (t : Ty) : List Ty :=
  if t.isNever || kept.any (fun k => includes k t) then kept else overwrite t kept

/-- The type is the given constant truth value. -/
def isTruth (b : Bool) : Ty → Bool
  | constant (.bool b') => b == b'
  | _ => false

/-- The constants true and false together are the type of all truth values. -/
def mergeTruths (kept : List Ty) : List Ty :=
  if kept.any (isTruth true) && kept.any (isTruth false) then overwrite bool kept else kept

/-- The type of a list of kept members. -/
def ofMembers : List Ty → Ty
  | [] => never
  | [t] => t
  | ts => union ts

/-- The members that a list of single types leaves. -/
def kept (ts : List Ty) : List Ty := mergeTruths (ts.foldl keep [])

/-- The type that stands for the values of a list of types. -/
def join (ts : List Ty) : Ty :=
  let flat := ts.flatMap members
  if flat.any isError then error
  else if flat.any isMixed then mixed
  else ofMembers (kept flat)

/-- The type of the integers and the doubles. -/
def number : Ty := join [int, float]

/-- The type without the value null. -/
def withoutNull : Ty → Ty
  | null => never
  | union ts => join (ts.filter fun t => !t.isNull)
  | t => t

/-- A failure absorbs every other type. -/
theorem join_of_error {ts : List Ty} (h : error ∈ ts.flatMap members) : join ts = error := by
  have hany : (ts.flatMap members).any isError = true := List.any_eq_true.2 ⟨error, h, rfl⟩
  simp [join, hany]

/-- The integers and the doubles do not include one another. -/
theorem number_eq : number = union [int, float] := by
  rfl

end OperatorLint.Ty
