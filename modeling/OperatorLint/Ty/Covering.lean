import OperatorLint.Certainty
import OperatorLint.Ty.Basic

/-!
# Which type covers which

`covers target source` says how certainly every value of `source` is a value of `target`. A
union on the source side is answered member by member and the answers have to agree; a union on
the target side gives its strongest member's answer.
-/

namespace OperatorLint.Ty

mutual
/-- Lifts an answer about single types to all types: a failure is never covered, the empty type
always is, and the members of a union must agree. -/
def onMembers (f : Ty → Certainty) : Ty → Certainty
  | error => .no
  | never => .yes
  | union ts => .agreeAll (onMembersEach f ts)
  | t => f t

/-- The lifted answers for a list of types. -/
def onMembersEach (f : Ty → Certainty) : List Ty → List Certainty
  | [] => []
  | t :: ts => onMembers f t :: onMembersEach f ts
end

/-- Class names are compared without regard to the case of ASCII letters. -/
def sameClass (a b : String) : Bool := a.toList.map Char.toLower == b.toList.map Char.toLower

/-- The answer of a kind for a single type. -/
def kindCovers (k : Kind) : Ty → Certainty
  | mixed => .maybe
  | kind k' => .ofBool (k = k')
  | constant c => .ofBool (c.kind = k)
  | _ => .no

/-- The answer of a constant for a single type. -/
def constantCovers (c : Constant) : Ty → Certainty
  | mixed => .maybe
  | kind k => if c.kind = k then .maybe else .no
  | constant d => .ofBool (c.same d)
  | _ => .no

/-- The answer of a class for a single type. -/
def objectCovers (className : String) : Ty → Certainty
  | mixed => .maybe
  | object className' _ => .ofBool (sameClass className className')
  | _ => .no

/-- The answer of an array type for a single type, from the answers of its key and item. -/
def arrayCovers (key item : Ty → Certainty) : Ty → Certainty
  | mixed => .maybe
  | array key' item' => (key key').and (item item')
  | _ => .no

mutual
/-- How certainly every value of the second type is a value of the first. -/
def covers : Ty → Ty → Certainty
  | mixed => fun _ => .yes
  | error => fun _ => .no
  | never => fun source => .ofBool source.isNever
  | kind k => onMembers (kindCovers k)
  | constant c => onMembers (constantCovers c)
  | array key item => onMembers (arrayCovers (covers key) (covers item))
  | object className _ => onMembers (objectCovers className)
  | union ts => onMembers (coversAny ts)

/-- The strongest answer of a list of types. -/
def coversAny : List Ty → Ty → Certainty
  | [] => fun _ => .no
  | t :: ts => fun source => (covers t source).or (coversAny ts source)
end

/-- Every value of the second type certainly is a value of the first. -/
def includes (target source : Ty) : Bool := (covers target source).isYes

/-- The lifted answers are those of the members, in order. -/
theorem onMembersEach_eq_map (f : Ty → Certainty) (ts : List Ty) :
    onMembersEach f ts = ts.map (onMembers f) := by
  induction ts with
  | nil => rfl
  | cons t ts ih => simp [onMembersEach, ih]

/-- A list of types answers with its strongest member. -/
theorem coversAny_eq_strongest (ts : List Ty) (source : Ty) :
    coversAny ts source = .strongest (ts.map fun t => covers t source) := by
  induction ts with
  | nil => rfl
  | cons t ts ih => simp [coversAny, ih, Certainty.strongest]

/-- Class names are compared after their letters are made small. -/
theorem sameClass_iff {a b : String} :
    sameClass a b = true ↔ a.toList.map Char.toLower = b.toList.map Char.toLower := beq_iff_eq

/-- The unknown type covers everything. -/
theorem covers_mixed (source : Ty) : covers mixed source = .yes := by
  simp [covers]

/-- A target other than `mixed`, `error` and `never` is asked about each member of a union. -/
theorem covers_union_source {target : Ty} (hmixed : target ≠ mixed) (herror : target ≠ error)
    (hnever : target ≠ never) (ts : List Ty) :
    covers target (union ts) = .agreeAll (ts.map (covers target)) := by
  cases target <;> simp_all [covers, onMembers, onMembersEach_eq_map]

/-- A union target gives the strongest answer of its members for a single type. -/
theorem covers_union_target {source : Ty} (herror : source ≠ error) (hnever : source ≠ never)
    (hunion : source.isUnion = false) (ts : List Ty) :
    covers (union ts) source = .strongest (ts.map fun t => covers t source) := by
  cases source <;> simp_all [covers, onMembers, isUnion, coversAny_eq_strongest]

/-- An array type covers another exactly as far as its key and its item do. -/
theorem covers_array (key item key' item' : Ty) :
    covers (array key item) (array key' item') = (covers key key').and (covers item item') := by
  simp [covers, onMembers, arrayCovers]

end OperatorLint.Ty
