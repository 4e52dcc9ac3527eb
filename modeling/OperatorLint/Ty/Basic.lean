/-!
# Static types

A static type stands for a set of values. Besides the kinds of values and the constants there
are three types that say something about knowledge: `mixed` knows nothing, `never` has no value,
and `error` marks an operation that is bound to fail. Unions are built by `Ty.join` only, which
keeps them flat and free of members that another member covers.
-/

namespace OperatorLint

/-- The kinds of values that are not built from other values. -/
inductive Kind where
  | null
  | bool
  | int
  | float
  | string
  | resource
deriving DecidableEq, Repr

/-- A value that is known before the program runs. -/
inductive Constant where
  /-- A truth value. -/
  | bool (value : Bool)
  /-- A 64-bit integer. -/
  | int (value : Int64)
  /-- A double. -/
  | float (value : Float)
  /-- A text. -/
  | string (value : String)
deriving DecidableEq

/-- The kind of a constant. -/
def Constant.kind : Constant → Kind
  | bool _ => .bool
  | int _ => .int
  | float _ => .float
  | string _ => .string

/-- Two constants are the same value. Doubles are compared as numbers, so the zeros are the same
and not-a-number differs from itself. -/
def Constant.same : Constant → Constant → Bool
  | bool a, bool b => a == b
  | int a, int b => a == b
  | float a, float b => a == b
  | string a, string b => a == b
  | _, _ => false

/-- A static type. -/
inductive Ty where
  /-- Any value. -/
  | mixed
  /-- No value. -/
  | never
  /-- The result of an operation that is bound to fail. -/
  | error
  /-- Every value of a kind. -/
  | kind (k : Kind)
  /-- A single known value. -/
  | constant (c : Constant)
  /-- The arrays whose keys and items have the given types. -/
  | array (key item : Ty)
  /-- The objects of a class; `stringable` ones convert to strings. -/
  | object (className : String) (stringable : Bool)
  /-- The values of all members together. -/
  | union (members : List Ty)

namespace Ty

/-- The type of the value null. -/
@[match_pattern] abbrev null : Ty := kind .null

/-- The type of the truth values. -/
@[match_pattern] abbrev bool : Ty := kind .bool

/-- The type of the integers. -/
@[match_pattern] abbrev int : Ty := kind .int

/-- The type of the doubles. -/
@[match_pattern] abbrev float : Ty := kind .float

/-- The type of the strings. -/
@[match_pattern] abbrev string : Ty := kind .string

/-- The type of the external resources. -/
@[match_pattern] abbrev resource : Ty := kind .resource

/-- The type of the array without elements. -/
def emptyArray : Ty := array never never

/-- The members of a union; any other type is its own single member. -/
def members : Ty → List Ty
  | union ts => ts
  | t => [t]

/-- The type marks a failure. -/
def isError : Ty → Bool
  | error => true
  | _ => false

/-- The type is `mixed`. -/
def isMixed : Ty → Bool
  | mixed => true
  | _ => false

/-- The type has no value. -/
def isNever : Ty → Bool
  | never => true
  | _ => false

/-- The type is that of the value null. -/
def isNull : Ty → Bool
  | null => true
  | _ => false

/-- The type is a union. -/
def isUnion : Ty → Bool
  | union _ => true
  | _ => false

mutual
/-- Two types are written alike, with constant doubles compared as numbers. -/
def same : Ty → Ty → Bool
  | mixed, mixed => true
  | never, never => true
  | error, error => true
  | kind a, kind b => a == b
  | constant a, constant b => a.same b
  | array key item, array key' item' => same key key' && same item item'
  | object name stringable, object name' stringable' =>
    name == name' && stringable == stringable'
  | union ts, union us => sameEach ts us
  | _, _ => false

/-- Two lists of types are written alike. -/
def sameEach : List Ty → List Ty → Bool
  | [], [] => true
  | t :: ts, u :: us => same t u && sameEach ts us
  | _, _ => false
end

/-- The failure mark is recognised. -/
theorem isError_iff {t : Ty} : t.isError = true ↔ t = error := by
  cases t <;> simp [isError]

/-- The empty type is recognised. -/
theorem isNever_iff {t : Ty} : t.isNever = true ↔ t = never := by
  cases t <;> simp [isNever]

/-- The unknown type is recognised. -/
theorem isMixed_iff {t : Ty} : t.isMixed = true ↔ t = mixed := by
  cases t <;> simp [isMixed]

/-- The type of null is recognised. -/
theorem isNull_iff {t : Ty} : t.isNull = true ↔ t = null := by
  cases t with
  | kind k => cases k <;> simp [isNull]
  | _ => simp [isNull]

/-- A type that is not a union is its own single member. -/
theorem members_of_not_union {t : Ty} (h : t.isUnion = false) : t.members = [t] := by
  cases t <;> simp_all [isUnion, members]

end Ty

end OperatorLint
