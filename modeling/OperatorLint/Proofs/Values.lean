import Mathlib.Data.Set.Basic
import OperatorLint.Proofs.Constants
import OperatorLint.Proofs.NormalForm

/-!
# The values of a type

A type stands for a set of values, and the three answers of `covers` speak about these sets: a
`yes` says that one holds the other, a `no` that they share nothing but arrays. Arrays are the
exception because the empty array belongs to all array types, also to those whose items have
nothing in common. Nothing is asked of the types; failing parts and unions of unions are included.
-/

namespace OperatorLint

/-- A value of a running program. -/
inductive Value where
  /-- The value null. -/
  | null
  /-- A truth value, an integer, a double or a text. -/
  | constant (c : Constant)
  /-- An array, as the list of its keys and items. -/
  | array (entries : List (Value × Value))
  /-- An object, one of many of its class. -/
  | object (className : String) (identity : Nat)
  /-- An external resource, one of many. -/
  | resource (identity : Nat)

/-- What values are made of: nothing but themselves, entries, or a class. -/
inductive Shape where
  | kind (k : Kind)
  | array
  | object
deriving DecidableEq

/-- The shape of a value. -/
def Value.shape : Value → Shape
  | null => .kind .null
  | constant c => .kind c.kind
  | array _ => .array
  | object _ _ => .object
  | resource _ => .kind .resource

namespace Ty

mutual
/-- The values that a type stands for. -/
def values : Ty → Set Value
  | mixed => Set.univ
  | never => ∅
  | error => ∅
  | kind k => {v | v.shape = .kind k}
  | constant c => {v | ∃ d, v = .constant d ∧ c.same d = true}
  | array key item =>
    {v | ∃ entries, v = .array entries ∧ ∀ e ∈ entries, e.1 ∈ values key ∧ e.2 ∈ values item}
  | object className _ =>
    {v | ∃ className' identity,
      v = .object className' identity ∧ sameClass className className' = true}
  | union ts => valuesAny ts

/-- The values that a list of types stands for. -/
def valuesAny : List Ty → Set Value
  | [] => ∅
  | t :: ts => values t ∪ valuesAny ts
end

/-- The values of a union are those of its members. -/
theorem mem_values_union {ts : List Ty} {v : Value} :
    v ∈ (union ts).values ↔ ∃ t ∈ ts, v ∈ t.values := by
  rw [values]
  induction ts with
  | nil => simp [valuesAny]
  | cons t ts ih => simp [valuesAny, ih]

/-- The shape that all values of a single type have. -/
def shape? : Ty → Option Shape
  | kind k => some (.kind k)
  | constant c => some (.kind c.kind)
  | array _ _ => some .array
  | object _ _ => some .object
  | mixed | never | error | union _ => none

/-- The values of a single type have its shape. -/
theorem shape_of_mem {t : Ty} (ht : t.isSingle = true) {v : Value} (hv : v ∈ t.values) :
    t.shape? = some v.shape := by
  cases t with
  | kind k => exact congrArg some (Eq.symm hv)
  | constant c =>
    obtain ⟨d, rfl, hd⟩ := hv
    rw [shape?, Value.shape, Constant.kind_eq_of_same hd]
  | array key item =>
    obtain ⟨entries, rfl, _⟩ := hv
    rfl
  | object className stringable =>
    obtain ⟨className', identity, rfl, _⟩ := hv
    rfl
  | mixed | never | error | union => exact Bool.noConfusion ht

end Ty

/-- An answer about two sets of values is true of them. -/
structure Certainty.Sound (answer : Certainty) (target source : Set Value) : Prop where
  /-- A `yes` says that the one set holds the other. -/
  yes : answer = .yes → source ⊆ target
  /-- A `no` says that the sets share nothing but arrays. -/
  no : answer = .no → ∀ v ∈ target, v ∈ source → v.shape = .array

namespace Certainty

variable {target source : Set Value}

/-- The uncertain answer says nothing. -/
theorem sound_maybe : maybe.Sound target source := ⟨Certainty.noConfusion, Certainty.noConfusion⟩

/-- Every answer is true of a source without values. -/
theorem sound_empty (answer : Certainty) : answer.Sound target ∅ :=
  ⟨fun _ => Set.empty_subset target, fun _ _ _ hv => absurd hv (Set.notMem_empty _)⟩

/-- A refusal is true of sets that share nothing. -/
theorem sound_no (h : ∀ v ∈ target, v ∉ source) : no.Sound target source :=
  ⟨Certainty.noConfusion, fun _ v ht hs => absurd hs (h v ht)⟩

/-- A certain answer is true when the fact behind it decides between holding and sharing nothing. -/
theorem sound_ofBool {fact : Bool} (hyes : fact = true → source ⊆ target)
    (hno : fact = false → ∀ v ∈ target, v ∉ source) : (ofBool fact).Sound target source := by
  cases fact with
  | true => exact ⟨fun _ => hyes rfl, Certainty.noConfusion⟩
  | false => exact sound_no (hno rfl)

/-- A running agreement ends in a refusal only when it meets nothing else. -/
theorem foldl_agree_eq_no {cs : List Certainty} {c : Certainty} :
    cs.foldl agree c = no ↔ c = no ∧ ∀ d ∈ cs, d = no := by
  induction cs generalizing c with
  | nil => simp
  | cons d cs ih => simp [List.foldl_cons, ih, agree_eq_no, and_assoc]

/-- All answers of a list that agrees on a refusal are refusals. -/
theorem eq_no_of_agreeAll {cs : List Certainty} (h : agreeAll cs = no) : ∀ c ∈ cs, c = no := by
  cases cs with
  | nil => exact Certainty.noConfusion h
  | cons c cs => exact List.forall_mem_cons.mpr (foldl_agree_eq_no.mp h)

end Certainty

namespace Ty

open Certainty (Sound sound_maybe sound_no sound_ofBool)

/-- A refusal is true of single types of different shapes. -/
theorem sound_of_shape {t u : Ty} (ht : t.isSingle = true) (hu : u.isSingle = true)
    (h : t.shape? ≠ u.shape?) : Certainty.no.Sound t.values u.values :=
  sound_no fun _ hv hv' => h ((shape_of_mem ht hv).trans (shape_of_mem hu hv').symm)

/-- Answers that are true of single types are true of all types when they are lifted to members. -/
theorem sound_onMembers {f : Ty → Certainty} {target : Set Value}
    (hmixed : (f mixed).Sound target Set.univ)
    (h : ∀ t, t.isSingle = true → (f t).Sound target t.values) (t : Ty) :
    (onMembers f t).Sound target t.values := by
  induction t using memberInduction with
  | mixed => exact hmixed
  | never => exact Certainty.sound_empty _
  | error => exact Certainty.sound_empty _
  | kind k => exact h _ rfl
  | constant c => exact h _ rfl
  | array key item => exact h _ rfl
  | object className stringable => exact h _ rfl
  | union ts ih =>
    rw [onMembers, onMembersEach_eq_map]
    constructor
    · intro hyes v hv
      obtain ⟨t, ht, hvt⟩ := mem_values_union.mp hv
      have hmember := Certainty.agreeAll_eq_yes.mp hyes _ (List.mem_map_of_mem ht)
      exact (ih t ht).yes hmember hvt
    · intro hno v htarget hv
      obtain ⟨t, ht, hvt⟩ := mem_values_union.mp hv
      have hmember := Certainty.eq_no_of_agreeAll hno _ (List.mem_map_of_mem ht)
      exact (ih t ht).no hmember v htarget hvt

/-- What a kind answers about single types is true. -/
theorem sound_kindCovers (k : Kind) {t : Ty} (ht : t.isSingle = true) :
    (kindCovers k t).Sound (kind k).values t.values := by
  cases t with
  | kind k' =>
    refine sound_ofBool ?_ ?_
    · intro hk
      rw [of_decide_eq_true hk]
    · intro hk v hv hv'
      have hkinds := (shape_of_mem rfl hv).trans (shape_of_mem (t := kind k') rfl hv').symm
      exact of_decide_eq_false hk (Shape.kind.inj (Option.some.inj hkinds))
  | constant c =>
    refine sound_ofBool ?_ ?_
    · intro hk v hv
      have hshape := shape_of_mem (t := constant c) rfl hv
      rw [shape?, of_decide_eq_true hk] at hshape
      exact (Option.some.inj hshape).symm
    · intro hk v hv hv'
      have hkinds := (shape_of_mem (t := constant c) rfl hv').trans (shape_of_mem rfl hv).symm
      exact of_decide_eq_false hk (Shape.kind.inj (Option.some.inj hkinds))
  | array | object => exact sound_of_shape rfl ht (by simp [shape?])
  | mixed | never | error | union => exact Bool.noConfusion ht

/-- What a constant answers about single types is true. -/
theorem sound_constantCovers (c : Constant) {t : Ty} (ht : t.isSingle = true) :
    (constantCovers c t).Sound (constant c).values t.values := by
  cases t with
  | kind k =>
    rw [constantCovers]
    by_cases hk : c.kind = k
    · rw [if_pos hk]
      exact sound_maybe
    · rw [if_neg hk]
      exact sound_of_shape rfl ht (by simpa [shape?] using hk)
  | constant d =>
    refine sound_ofBool ?_ ?_
    · rintro hsame v ⟨e, rfl, he⟩
      exact ⟨e, rfl, Constant.same_trans hsame he⟩
    · rintro hdiffer v ⟨e, rfl, he⟩ ⟨e', heq, he'⟩
      cases heq
      rw [Constant.same_trans he (Constant.same_symm he')] at hdiffer
      exact Bool.noConfusion hdiffer
  | array | object => exact sound_of_shape rfl ht (by simp [shape?])
  | mixed | never | error | union => exact Bool.noConfusion ht

/-- What a class answers about single types is true. -/
theorem sound_objectCovers (className : String) (stringable : Bool) {t : Ty}
    (ht : t.isSingle = true) :
    (objectCovers className t).Sound (object className stringable).values t.values := by
  cases t with
  | object className' stringable' =>
    refine sound_ofBool ?_ ?_
    · rintro hsame v ⟨name, identity, rfl, hname⟩
      refine ⟨name, identity, rfl, ?_⟩
      rw [sameClass_iff] at hsame hname ⊢
      exact hsame.trans hname
    · rintro hdiffer v ⟨name, identity, rfl, hname⟩ ⟨name', identity', heq, hname'⟩
      cases heq
      rw [sameClass_iff] at hname hname'
      rw [sameClass_iff.mpr (hname.trans hname'.symm)] at hdiffer
      exact Bool.noConfusion hdiffer
  | kind | constant | array => exact sound_of_shape rfl ht (by simp [shape?])
  | mixed | never | error | union => exact Bool.noConfusion ht

/-- What an array type answers about single types is true when its key and its item answer so. -/
theorem sound_arrayCovers {key item : Ty}
    (hkey : ∀ t, (covers key t).Sound key.values t.values)
    (hitem : ∀ t, (covers item t).Sound item.values t.values) {t : Ty} (ht : t.isSingle = true) :
    (arrayCovers (covers key) (covers item) t).Sound (array key item).values t.values := by
  cases t with
  | array key' item' =>
    constructor
    · rintro hyes v ⟨entries, rfl, hentries⟩
      obtain ⟨hkeyYes, hitemYes⟩ := Certainty.and_eq_yes.mp hyes
      refine ⟨entries, rfl, ?_⟩
      intro e he
      obtain ⟨hkeyMem, hitemMem⟩ := hentries e he
      exact ⟨(hkey key').yes hkeyYes hkeyMem, (hitem item').yes hitemYes hitemMem⟩
    · rintro - v ⟨entries, rfl, _⟩ -
      rfl
  | kind | constant | object => exact sound_of_shape rfl ht (by simp [shape?])
  | mixed | never | error | union => exact Bool.noConfusion ht

/-- The strongest answer of a list of types is true of their union when every single answer is. -/
theorem sound_coversAny {ts : List Ty} {source : Ty}
    (h : ∀ t ∈ ts, (covers t source).Sound t.values source.values) :
    (coversAny ts source).Sound (union ts).values source.values := by
  rw [coversAny_eq_strongest]
  constructor
  · intro hyes v hv
    obtain ⟨t, ht, hanswer⟩ := List.mem_map.mp (Certainty.strongest_eq_yes.mp hyes)
    exact mem_values_union.mpr ⟨t, ht, (h t ht).yes hanswer hv⟩
  · intro hno v htarget hv
    obtain ⟨t, ht, hvt⟩ := mem_values_union.mp htarget
    have hanswer := Certainty.strongest_eq_no.mp hno _ (List.mem_map_of_mem ht)
    exact (h t ht).no hanswer v hvt hv

/-- The answer about any two types is true of their values. -/
theorem sound_covers (target source : Ty) :
    (covers target source).Sound target.values source.values := by
  induction target using memberInduction generalizing source with
  | mixed => exact ⟨fun _ => Set.subset_univ _, Certainty.noConfusion⟩
  | error => exact sound_no fun _ hv => absurd hv (Set.notMem_empty _)
  | never =>
    refine sound_ofBool ?_ fun _ _ hv => absurd hv (Set.notMem_empty _)
    intro hnever
    rw [isNever_iff.mp hnever]
  | kind k => exact sound_onMembers sound_maybe (fun _ ht => sound_kindCovers k ht) source
  | constant c => exact sound_onMembers sound_maybe (fun _ ht => sound_constantCovers c ht) source
  | array key item ihkey ihitem =>
    exact sound_onMembers sound_maybe (fun _ ht => sound_arrayCovers ihkey ihitem ht) source
  | object className stringable =>
    exact sound_onMembers sound_maybe
      (fun _ ht => sound_objectCovers className stringable ht) source
  | union ts ih =>
    exact sound_onMembers (sound_coversAny fun t ht => ih t ht mixed)
      (fun t _ => sound_coversAny fun u hu => ih u hu t) source

/-- A type that covers another one for certain has all its values, and a type that refuses another
one for certain shares none but arrays with it. -/
theorem values_of_covers (target source : Ty) :
    (covers target source = .yes → source.values ⊆ target.values) ∧
      (covers target source = .no →
        ∀ v, v ∈ target.values → v ∈ source.values → v.shape = .array) :=
  ⟨(sound_covers target source).yes, (sound_covers target source).no⟩

/-- Arrays of integers and arrays of strings refuse each other and still share the empty array. -/
example : covers (array int int) (array int string) = .no ∧
    Value.array [] ∈ (array int int).values ∧ Value.array [] ∈ (array int string).values :=
  ⟨by decide, ⟨[], rfl, by simp⟩, ⟨[], rfl, by simp⟩⟩

end Ty

end OperatorLint
