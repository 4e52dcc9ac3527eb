import OperatorLint.Ty.Union

/-!
# Types in normal form

A type is in normal form when every union in it, at any depth, is flat, has at least two members,
and holds no member that another one includes; true and false do not stand side by side, and no
array has a failing key or item. Joining types in normal form gives a type in normal form again.
What a join says about its members is said here as well: members only come from the joined types,
and a property that passes from a type to all that it includes reaches every joined type.
-/

namespace OperatorLint.Ty

/-- Induction over types in which a union has its members' hypotheses together. -/
@[elab_as_elim] theorem memberInduction {motive : Ty → Prop} (mixed : motive mixed)
    (never : motive never) (error : motive error) (kind : ∀ k, motive (kind k))
    (constant : ∀ c, motive (constant c))
    (array : ∀ key item, motive key → motive item → motive (array key item))
    (object : ∀ className stringable, motive (object className stringable))
    (union : ∀ ts, (∀ t ∈ ts, motive t) → motive (union ts)) (t : Ty) : motive t :=
  Ty.rec mixed never error kind constant array object union
    (fun _ ht => absurd ht List.not_mem_nil)
    (fun _ _ hhead htail => List.forall_mem_cons.mpr ⟨hhead, htail⟩) t

/-- Induction over types in which only unions have hypotheses, those of their members together. -/
@[elab_as_elim] theorem unionInduction {motive : Ty → Prop}
    (alone : ∀ t, t.isUnion = false → motive t)
    (union : ∀ ts, (∀ t ∈ ts, motive t) → motive (union ts)) (t : Ty) : motive t :=
  memberInduction (alone mixed rfl) (alone never rfl) (alone error rfl)
    (fun k => alone (kind k) rfl) (fun c => alone (constant c) rfl)
    (fun key item _ _ => alone (array key item) rfl)
    (fun className stringable => alone (object className stringable) rfl) union t

/-- The type can be a member of a union: it is none itself, it is no failure, and it stands for
some values but not for all. -/
def isSingle : Ty → Bool
  | mixed | never | error | union _ => false
  | _ => true

/-- Neither of two types includes the other. -/
def Apart (a b : Ty) : Prop := includes a b = false ∧ includes b a = false

instance (a b : Ty) : Decidable (Apart a b) :=
  inferInstanceAs (Decidable (includes a b = false ∧ includes b a = false))

/-- The members of a union in normal form. -/
structure Separate (ts : List Ty) : Prop where
  /-- No member is a union, a failure, the unknown or the empty type. -/
  single : ∀ t ∈ ts, t.isSingle = true
  /-- No member includes one at another place. -/
  apart : ts.Pairwise Apart
  /-- The constants true and false are not both members. -/
  oneTruth : ¬ (ts.any (isTruth true) = true ∧ ts.any (isTruth false) = true)

instance (ts : List Ty) : Decidable (Separate ts) :=
  decidable_of_iff ((∀ t ∈ ts, t.isSingle = true) ∧ ts.Pairwise Apart ∧
      ¬ (ts.any (isTruth true) = true ∧ ts.any (isTruth false) = true))
    ⟨fun h => ⟨h.1, h.2.1, h.2.2⟩, fun h => ⟨h.single, h.apart, h.oneTruth⟩⟩

mutual
/-- The type is in normal form, at every depth. -/
def Normal : Ty → Prop
  | array key item =>
    Normal key ∧ Normal item ∧ key.isError = false ∧ item.isError = false
  | union ts => NormalEach ts ∧ 2 ≤ ts.length ∧ Separate ts
  | _ => True

/-- The types of a list are in normal form. -/
def NormalEach : List Ty → Prop
  | [] => True
  | t :: ts => Normal t ∧ NormalEach ts
end

mutual
/-- Normal forms are recognised. -/
def decideNormal : (t : Ty) → Decidable (Normal t)
  | mixed | never | error | kind _ | constant _ | object _ _ => isTrue trivial
  | array key item =>
    have := decideNormal key
    have := decideNormal item
    inferInstanceAs
      (Decidable (Normal key ∧ Normal item ∧ key.isError = false ∧ item.isError = false))
  | union ts =>
    have := decideNormalEach ts
    inferInstanceAs (Decidable (NormalEach ts ∧ 2 ≤ ts.length ∧ Separate ts))

/-- Lists of normal forms are recognised. -/
def decideNormalEach : (ts : List Ty) → Decidable (NormalEach ts)
  | [] => isTrue trivial
  | t :: ts =>
    have := decideNormal t
    have := decideNormalEach ts
    inferInstanceAs (Decidable (Normal t ∧ NormalEach ts))
end

instance (t : Ty) : Decidable (Normal t) := decideNormal t

/-- A list of normal forms is one in which every type is in normal form. -/
theorem normalEach_iff {ts : List Ty} : NormalEach ts ↔ ∀ t ∈ ts, Normal t := by
  induction ts with
  | nil => simp [NormalEach]
  | cons t ts ih => simp [NormalEach, ih]

/-- A union is in normal form when its members are and stand apart. -/
theorem normal_union {ts : List Ty} :
    Normal (union ts) ↔ (∀ t ∈ ts, Normal t) ∧ 2 ≤ ts.length ∧ Separate ts := by
  rw [Normal, normalEach_iff]

/-- The members of a type in normal form are in normal form. -/
theorem Normal.of_mem {t m : Ty} (h : Normal t) (hm : m ∈ t.members) : Normal m := by
  cases t with
  | union ts => exact (normal_union.mp h).1 m hm
  | _ => exact List.mem_singleton.mp hm ▸ h

/-- Every type in normal form has a member. -/
theorem Normal.members_ne_nil {t : Ty} (h : Normal t) : t.members ≠ [] := by
  cases t with
  | union ts =>
    have hlength := (normal_union.mp h).2.1
    exact List.ne_nil_of_length_pos (show 0 < ts.length by omega)
  | _ => exact List.cons_ne_nil _ _

/-- A single type is not a union. -/
theorem isUnion_of_isSingle {t : Ty} (h : t.isSingle = true) : t.isUnion = false := by
  cases t <;> simp_all [isSingle, isUnion]

/-- A single type is not the empty one. -/
theorem isNever_of_isSingle {t : Ty} (h : t.isSingle = true) : t.isNever = false := by
  cases t <;> simp_all [isSingle, isNever]

/-- No member of a type in normal form is a union. -/
theorem Normal.isUnion_of_mem {t m : Ty} (h : Normal t) (hm : m ∈ t.members) :
    m.isUnion = false := by
  cases t with
  | union ts => exact isUnion_of_isSingle ((normal_union.mp h).2.2.single m hm)
  | _ => exact List.mem_singleton.mp hm ▸ rfl

/-- Part of a separate list is separate. -/
theorem Separate.sublist {ts us : List Ty} (h : Separate ts) (hs : us.Sublist ts) :
    Separate us where
  single t ht := h.single t (hs.subset ht)
  apart := h.apart.sublist hs
  oneTruth := by
    rintro ⟨htrue, hfalse⟩
    obtain ⟨a, ha, hat⟩ := List.any_eq_true.mp htrue
    obtain ⟨b, hb, hbf⟩ := List.any_eq_true.mp hfalse
    exact h.oneTruth ⟨List.any_eq_true.mpr ⟨a, hs.subset ha, hat⟩,
      List.any_eq_true.mpr ⟨b, hs.subset hb, hbf⟩⟩

end OperatorLint.Ty
