import OperatorLint.Proofs.Conversion

/-!
# Inclusion as an order

On types in normal form inclusion is read member by member: a type includes another one when each
member of the other lies in one of its own. Members compare by their shapes, and arrays by their
keys and items again; this carries transitivity through all depths. A type includes itself exactly
when neither a failure nor not-a-number occurs anywhere in it: such a part is included by no other
part beside it, because members stand apart.
-/

namespace OperatorLint

/-- The constant is not-a-number. -/
def Constant.isNaN : Constant → Bool
  | float x => x.isNaN
  | _ => false

/-- Not-a-number is decoded as such, and nothing else is. -/
theorem Binary.ofFloat_eq_nan {x : Float} : ofFloat x = nan ↔ x.isNaN = true := by
  rw [ofFloat_eq_ofUnpacked]
  change _ ↔ x.toModel.unpack.isNaN = true
  cases x.toModel.unpack <;> simp [ofUnpacked, Float.Model.UnpackedFloat.isNaN]

/-- Every constant but not-a-number is the same value as itself. -/
theorem Constant.same_self {c : Constant} (h : c.isNaN = false) : c.same c = true := by
  cases c with
  | float x =>
    refine (Binary.float_beq_iff x x).mpr ⟨?_, Or.inl rfl⟩
    intro hnan
    rw [Constant.isNaN, Binary.ofFloat_eq_nan.mp hnan] at h
    exact Bool.noConfusion h
  | _ => exact beq_self_eq_true _

/-- Not-a-number is the same value as no constant. -/
theorem Constant.isNaN_of_same {c d : Constant} (h : c.same d = true) : c.isNaN = false := by
  cases c with
  | float x =>
    cases d with
    | float y =>
      have hnumber := (Binary.float_beq_iff x y).mp h
      rw [Constant.isNaN, ← Bool.not_eq_true]
      intro hnan
      exact hnumber.1 (Binary.ofFloat_eq_nan.mpr hnan)
    | _ => exact Bool.noConfusion h
  | _ => rfl

/-- The answer for a known fact is certain when the fact holds. -/
theorem Certainty.isYes_ofBool (fact : Bool) : (ofBool fact).isYes = fact := by
  cases fact <;> rfl

/-- The weaker of two answers is certain when both are. -/
theorem Certainty.isYes_and (a b : Certainty) : (a.and b).isYes = (a.isYes && b.isYes) := by
  cases a <;> cases b <;> rfl

namespace Ty

mutual
/-- Neither a failure nor not-a-number occurs in the type, at any depth. -/
def isRegular : Ty → Bool
  | error => false
  | constant c => !c.isNaN
  | array key item => isRegular key && isRegular item
  | union ts => isRegularEach ts
  | _ => true

/-- Neither a failure nor not-a-number occurs in the types of a list. -/
def isRegularEach : List Ty → Bool
  | [] => true
  | t :: ts => isRegular t && isRegularEach ts
end

/-- A list of regular types is one in which every type is regular. -/
theorem isRegularEach_iff {ts : List Ty} :
    isRegularEach ts = true ↔ ∀ t ∈ ts, t.isRegular = true := by
  induction ts with
  | nil => simp [isRegularEach]
  | cons t ts ih => simp [isRegularEach, ih]

/-- A union is regular when its members are. -/
theorem isRegular_union {ts : List Ty} :
    (union ts).isRegular = true ↔ ∀ t ∈ ts, t.isRegular = true := by
  rw [isRegular, isRegularEach_iff]

/-- The members of a regular type are regular. -/
theorem isRegular_of_mem {t m : Ty} (h : t.isRegular = true) (hm : m ∈ t.members) :
    m.isRegular = true := by
  cases t with
  | union ts => exact isRegular_union.mp h m hm
  | _ => exact List.mem_singleton.mp hm ▸ h

/-- A type of regular members is regular. -/
theorem isRegular_of_members {t : Ty} (h : ∀ m ∈ t.members, m.isRegular = true) :
    t.isRegular = true := by
  cases t with
  | union ts => exact isRegular_union.mpr h
  | _ => exact h _ (List.mem_singleton.mpr rfl)

/-- The unknown type includes every type. -/
theorem includes_mixed (t : Ty) : includes mixed t = true := by
  rw [includes, covers_mixed]
  rfl

/-- A failure includes nothing. -/
theorem includes_error (t : Ty) : includes error t = false := by
  simp [includes, covers, Certainty.isYes]

/-- The empty type includes nothing but itself. -/
theorem includes_never_iff {t : Ty} : includes never t = true ↔ t = never := by
  rw [includes, covers, Certainty.isYes_ofBool, isNever_iff]

/-- Every type but a failure includes the empty one. -/
theorem includes_never {t : Ty} (h : t ≠ error) : includes t never = true := by
  cases t <;> simp_all [includes, covers, onMembers, Certainty.isYes, Certainty.ofBool, isNever]

/-- Only the unknown type includes a failure. -/
theorem eq_mixed_of_includes_error {t : Ty} (h : includes t error = true) : t = mixed := by
  cases t <;> simp_all [includes, covers, onMembers, Certainty.isYes, Certainty.ofBool, isNever]

/-- A single type includes neither the unknown type nor a failure. -/
theorem single_of_includes {t u : Ty} (ht : t.isSingle = true) (hu : u.isUnion = false)
    (h : includes t u = true) : u = never ∨ u.isSingle = true := by
  cases u with
  | mixed =>
    cases t <;> simp_all [isSingle, includes, covers, onMembers, kindCovers, constantCovers,
      arrayCovers, objectCovers, Certainty.isYes]
  | error =>
    rw [eq_mixed_of_includes_error h] at ht
    exact Bool.noConfusion ht
  | never => exact Or.inl rfl
  | union us => exact Bool.noConfusion hu
  | _ => exact Or.inr rfl

/-- A kind includes its constants. -/
theorem includes_kind_constant (k : Kind) (c : Constant) :
    includes (kind k) (constant c) = decide (c.kind = k) := by
  rw [includes, covers, onMembers, kindCovers, Certainty.isYes_ofBool] <;> simp

/-- A constant includes the same value. -/
theorem includes_constant_constant (c d : Constant) :
    includes (constant c) (constant d) = c.same d := by
  rw [includes, covers, onMembers, constantCovers, Certainty.isYes_ofBool] <;> simp

/-- A class includes the classes that are written like it up to the case of letters. -/
theorem includes_object_object (name name' : String) (stringable stringable' : Bool) :
    includes (object name stringable) (object name' stringable') = sameClass name name' := by
  rw [includes, covers, onMembers, objectCovers, Certainty.isYes_ofBool] <;> simp

/-- An array type includes another one when its key and its item do. -/
theorem includes_array_array (key item key' item' : Ty) :
    includes (array key item) (array key' item') = (includes key key' && includes item item') := by
  rw [includes, covers_array, Certainty.isYes_and]
  rfl

/-- The single types that a kind includes. -/
theorem includes_kind {k : Kind} {t : Ty} (ht : t.isSingle = true)
    (h : includes (kind k) t = true) : t = kind k ∨ ∃ c, t = constant c ∧ c.kind = k := by
  cases t with
  | kind k' =>
    rw [includes, covers, onMembers, kindCovers, Certainty.isYes_ofBool] at h <;> simp_all
  | constant c =>
    rw [includes_kind_constant] at h
    exact Or.inr ⟨c, rfl, of_decide_eq_true h⟩
  | array | object => simp [includes, covers, onMembers, kindCovers, Certainty.isYes] at h
  | mixed | never | error | union => exact Bool.noConfusion ht

/-- The single types that an array type includes. -/
theorem includes_array {key item t : Ty} (ht : t.isSingle = true)
    (h : includes (array key item) t = true) :
    ∃ key' item', t = array key' item' ∧ includes key key' = true ∧ includes item item' = true := by
  cases t with
  | array key' item' =>
    rw [includes_array_array, Bool.and_eq_true] at h
    exact ⟨key', item', rfl, h⟩
  | kind | constant | object =>
    simp [includes, covers, onMembers, arrayCovers, Certainty.isYes] at h
  | mixed | never | error | union => exact Bool.noConfusion ht

/-- The single types that a class includes. -/
theorem includes_object {name : String} {stringable : Bool} {t : Ty} (ht : t.isSingle = true)
    (h : includes (object name stringable) t = true) :
    ∃ name' stringable', t = object name' stringable' ∧ sameClass name name' = true := by
  cases t with
  | object name' stringable' =>
    rw [includes_object_object] at h
    exact ⟨name', stringable', rfl, h⟩
  | kind | constant | array =>
    simp [includes, covers, onMembers, objectCovers, Certainty.isYes] at h
  | mixed | never | error | union => exact Bool.noConfusion ht

/-- A type that includes a union in any form includes its members. -/
theorem includes_of_includes_union {a t : Ty} {ts : List Ty} (h : includes a (union ts) = true)
    (ht : t ∈ ts) : includes a t = true := by
  cases a with
  | mixed => exact includes_mixed t
  | error =>
    rw [includes_error] at h
    exact Bool.noConfusion h
  | never => exact Ty.noConfusion (includes_never_iff.mp h)
  | _ =>
    rw [includes, Certainty.isYes_iff, covers_union_source Ty.noConfusion Ty.noConfusion
      Ty.noConfusion, Certainty.agreeAll_eq_yes] at h
    exact Certainty.isYes_iff.mpr (h _ (List.mem_map_of_mem ht))

/-- A type includes another one exactly when it includes its members. -/
theorem includes_source {a b : Ty} (hb : Normal b) :
    includes a b = true ↔ ∀ m ∈ b.members, includes a m = true := by
  cases b with
  | union us =>
    refine ⟨fun h m hm => includes_of_includes_union h hm, ?_⟩
    intro hall
    obtain ⟨_, hlength, hs⟩ := normal_union.mp hb
    obtain ⟨m, hm⟩ := List.exists_mem_of_length_pos (show 0 < us.length by omega)
    cases a with
    | mixed => exact includes_mixed _
    | error =>
      have hfalse := hall m hm
      rw [includes_error] at hfalse
      exact Bool.noConfusion hfalse
    | never =>
      have hsingle := hs.single m hm
      rw [includes_never_iff.mp (hall m hm)] at hsingle
      exact Bool.noConfusion hsingle
    | _ =>
      rw [includes, Certainty.isYes_iff, covers_union_source Ty.noConfusion Ty.noConfusion
        Ty.noConfusion, Certainty.agreeAll_eq_yes, List.forall_mem_map]
      exact fun u hu => Certainty.isYes_iff.mp (hall u hu)
  | _ => simp [members]

/-- A type includes one that is no union exactly when one of its members does. -/
theorem includes_target {a m : Ty} (ha : Normal a) (hm : m.isUnion = false) :
    includes a m = true ↔ ∃ k ∈ a.members, includes k m = true := by
  cases a with
  | union ts =>
    obtain ⟨_, hlength, hs⟩ := normal_union.mp ha
    obtain ⟨k, hk⟩ := List.exists_mem_of_length_pos (show 0 < ts.length by omega)
    by_cases herror : m = error
    · rw [herror]
      refine iff_of_false (fun h => Ty.noConfusion (eq_mixed_of_includes_error h)) ?_
      rintro ⟨k, hk, hi⟩
      have hsingle := hs.single k hk
      rw [eq_mixed_of_includes_error hi] at hsingle
      exact Bool.noConfusion hsingle
    · by_cases hnever : m = never
      · rw [hnever]
        refine iff_of_true (includes_never Ty.noConfusion) ⟨k, hk, includes_never ?_⟩
        intro hke
        have hsingle := hs.single k hk
        rw [hke] at hsingle
        exact Bool.noConfusion hsingle
      · rw [includes, Certainty.isYes_iff, covers_union_target herror hnever hm,
          Certainty.strongest_eq_yes, List.mem_map]
        simp [members, includes, Certainty.isYes_iff]
  | _ => simp [members]

/-- A type includes another one exactly when every member of the other lies in one of its own. -/
theorem includes_iff_members {a b : Ty} (ha : Normal a) (hb : Normal b) :
    includes a b = true ↔ ∀ m ∈ b.members, ∃ k ∈ a.members, includes k m = true := by
  rw [includes_source hb]
  exact forall₂_congr fun m hm => includes_target ha (hb.isUnion_of_mem hm)

/-- A regular type in normal form includes itself. -/
theorem includes_self {t : Ty} (hn : Normal t) (h : t.isRegular = true) : includes t t = true := by
  induction t using memberInduction with
  | mixed => exact includes_mixed mixed
  | never => exact includes_never Ty.noConfusion
  | error => exact Bool.noConfusion h
  | kind k => cases k <;> rfl
  | constant c =>
    rw [includes_constant_constant]
    exact Constant.same_self (by simpa [isRegular] using h)
  | array key item ihkey ihitem =>
    obtain ⟨hkey, hitem, _⟩ := hn
    rw [isRegular, Bool.and_eq_true] at h
    rw [includes_array_array, ihkey hkey h.1, ihitem hitem h.2]
    rfl
  | object name stringable =>
    rw [includes_object_object]
    exact beq_self_eq_true _
  | union ts ih =>
    rw [includes_iff_members hn hn]
    intro m hm
    exact ⟨m, hm, ih m hm (hn.of_mem hm) (isRegular_of_mem h hm)⟩

/-- A type in normal form that includes itself is regular. Another member would stand apart, so each
member is included by itself. -/
theorem isRegular_of_includes_self {t : Ty} (hn : Normal t) (h : includes t t = true) :
    t.isRegular = true := by
  induction t using memberInduction with
  | error =>
    rw [includes_error] at h
    exact Bool.noConfusion h
  | constant c =>
    rw [includes_constant_constant] at h
    rw [isRegular, Constant.isNaN_of_same h]
    rfl
  | array key item ihkey ihitem =>
    rw [includes_array_array, Bool.and_eq_true] at h
    rw [isRegular, ihkey hn.1 h.1, ihitem hn.2.1 h.2]
    rfl
  | union ts ih =>
    rw [isRegular_union]
    intro m hm
    obtain ⟨k, hk, hkm⟩ := (includes_iff_members hn hn).mp h m hm
    have hself : k = m := by
      by_contra hne
      have hapart : Apart k m := hn.apart_of_mem hk hm hne
      rw [hapart.1] at hkm
      exact Bool.noConfusion hkm
    rw [hself] at hkm
    exact ih m hm (hn.of_mem hm) hkm
  | _ => rfl

/-- A single type includes what the types in it include, once this is so for single types. -/
theorem includes_trans_of_single {a b c : Ty} (ha : a.isSingle = true) (hb : Normal b)
    (hc : Normal c) (hab : includes a b = true) (hbc : includes b c = true)
    (hstep : ∀ k m, k.isSingle = true → m.isSingle = true → Normal k → Normal m →
      includes a k = true → includes k m = true → includes a m = true) :
    includes a c = true := by
  have herror : a ≠ error := by
    rintro rfl
    exact Bool.noConfusion ha
  rw [includes_source hc]
  intro m hm
  obtain ⟨k, hk, hkm⟩ := (includes_iff_members hb hc).mp hbc m hm
  have hak := (includes_source hb).mp hab k hk
  rcases single_of_includes ha (hb.isUnion_of_mem hk) hak with rfl | hksingle
  · rw [includes_never_iff.mp hkm]
    exact includes_never herror
  · rcases single_of_includes hksingle (hc.isUnion_of_mem hm) hkm with rfl | hmsingle
    · exact includes_never herror
    · exact hstep k m hksingle hmsingle (hb.of_mem hk) (hc.of_mem hm) hak hkm

/-- Inclusion carries over a third type in normal form. -/
theorem includes_trans {a b c : Ty} (ha : Normal a) (hb : Normal b) (hc : Normal c)
    (hab : includes a b = true) (hbc : includes b c = true) : includes a c = true := by
  induction a using memberInduction generalizing b c with
  | mixed => exact includes_mixed c
  | error =>
    rw [includes_error] at hab
    exact Bool.noConfusion hab
  | never =>
    rw [includes_never_iff.mp hab] at hbc
    exact hbc
  | kind κ =>
    refine includes_trans_of_single rfl hb hc hab hbc ?_
    intro k m hk hm _ _ hak hkm
    rcases includes_kind hk hak with rfl | ⟨d, rfl, hd⟩
    · exact hkm
    · obtain ⟨e, rfl, he⟩ := includes_constant hm hkm
      rw [includes_kind_constant, ← Constant.kind_eq_of_same he]
      exact decide_eq_true hd
  | constant d =>
    refine includes_trans_of_single rfl hb hc hab hbc ?_
    intro k m hk hm _ _ hak hkm
    obtain ⟨e, rfl, he⟩ := includes_constant hk hak
    obtain ⟨f, rfl, hf⟩ := includes_constant hm hkm
    rw [includes_constant_constant]
    exact Constant.same_trans he hf
  | array key item ihkey ihitem =>
    refine includes_trans_of_single rfl hb hc hab hbc ?_
    intro k m hk hm hkn hmn hak hkm
    obtain ⟨key', item', rfl, hkey', hitem'⟩ := includes_array hk hak
    obtain ⟨key'', item'', rfl, hkey'', hitem''⟩ := includes_array hm hkm
    rw [includes_array_array, Bool.and_eq_true]
    exact ⟨ihkey ha.1 hkn.1 hmn.1 hkey' hkey'', ihitem ha.2.1 hkn.2.1 hmn.2.1 hitem' hitem''⟩
  | object name stringable =>
    refine includes_trans_of_single rfl hb hc hab hbc ?_
    intro k m hk hm _ _ hak hkm
    obtain ⟨name', stringable', rfl, hname'⟩ := includes_object hk hak
    obtain ⟨name'', stringable'', rfl, hname''⟩ := includes_object hm hkm
    rw [includes_object_object, sameClass_iff] at *
    exact hname'.trans hname''
  | union ts ih =>
    rw [includes_iff_members ha hc]
    intro m hm
    obtain ⟨k, hk, hkm⟩ := (includes_iff_members hb hc).mp hbc m hm
    obtain ⟨j, hj, hjk⟩ := (includes_iff_members ha hb).mp hab k hk
    exact ⟨j, hj, ih j hj (ha.of_mem hj) (hb.of_mem hk) (hc.of_mem hm) hjk hkm⟩

/-- On types in normal form, with arrays and unions in any depth, covering for certain carries over
a third type, and a type covers itself for certain exactly when neither a failure nor not-a-number
occurs anywhere in it. -/
theorem covers_preorder {a b c : Ty} (ha : Normal a) (hb : Normal b) (hc : Normal c) :
    (covers a b = .yes → covers b c = .yes → covers a c = .yes) ∧
      (covers a a = .yes ↔ a.isRegular = true) := by
  simp only [← Certainty.isYes_iff]
  exact ⟨includes_trans ha hb hc, isRegular_of_includes_self ha, includes_self ha⟩

/-- Null or an array of anything covers an array of strings and arrays, which covers an array of one
text and of empty arrays. -/
theorem covers_preorder_nested :
    let a := union [null, array (union [int, string]) mixed]
    let b := array (union [string, int]) (union [string, array int (union [null, float])])
    let c := array int (union [array never never, constant (.string "a")])
    Normal a ∧ Normal b ∧ Normal c ∧ covers a b = .yes ∧ covers b c = .yes ∧
      covers a c = .yes ∧ covers a a = .yes := by
  intro a b c
  have ha : Normal a := by decide
  have hb : Normal b := by decide
  have hc : Normal c := by decide
  have hab : covers a b = .yes := by decide
  have hbc : covers b c = .yes := by decide
  have hpreorder := covers_preorder ha hb hc
  exact ⟨ha, hb, hc, hab, hbc, hpreorder.1 hab hbc, hpreorder.2.mpr rfl⟩

end Ty

end OperatorLint
