import OperatorLint.Proofs.Order

/-!
# Joins as least upper bounds

The join of types in normal form includes all of them, and whatever else includes all of them
includes the join. Both directions speak about the scan: it drops a type only for one that
includes it, and it puts the truth values for both constants only, which no other type in normal
form holds side by side. Joins of joins are least upper bounds of what they were made from, so
that the order and the grouping of the joined types do not matter.
-/

namespace OperatorLint

/-- Types to be joined, some of them together before they meet the others. -/
inductive Grouping where
  /-- A type by itself. -/
  | single (t : Ty)
  /-- Groupings that are joined. -/
  | group (parts : List Grouping)

namespace Grouping

mutual
/-- The types of a grouping, in order. -/
def leaves : Grouping → List Ty
  | single t => [t]
  | group parts => leavesEach parts

/-- The types of a list of groupings, in order. -/
def leavesEach : List Grouping → List Ty
  | [] => []
  | g :: parts => leaves g ++ leavesEach parts
end

mutual
/-- The type that is left when the groups are joined, the innermost ones first. -/
def joined : Grouping → Ty
  | single t => t
  | group parts => Ty.join (joinedEach parts)

/-- The types that a list of groupings leaves. -/
def joinedEach : List Grouping → List Ty
  | [] => []
  | g :: parts => joined g :: joinedEach parts
end

/-- A group has the types of its parts. -/
theorem leaves_group (parts : List Grouping) : (group parts).leaves = parts.flatMap leaves := by
  rw [leaves]
  induction parts with
  | nil => rfl
  | cons g parts ih => rw [leavesEach, ih, List.flatMap_cons]

/-- A group leaves the join of what its parts leave. -/
theorem joined_group (parts : List Grouping) :
    (group parts).joined = Ty.join (parts.map joined) := by
  have heach : joinedEach parts = parts.map joined := by
    induction parts with
    | nil => rfl
    | cons g parts ih => rw [joinedEach, ih, List.map_cons]
  rw [joined, heach]

/-- Induction over groupings in which a group has the hypotheses of its parts together. -/
@[elab_as_elim] theorem partInduction {motive : Grouping → Prop}
    (single : ∀ t, motive (single t))
    (group : ∀ parts, (∀ g ∈ parts, motive g) → motive (group parts)) (g : Grouping) : motive g :=
  Grouping.rec single group (fun _ hg => absurd hg List.not_mem_nil)
    (fun _ _ hhead htail => List.forall_mem_cons.mpr ⟨hhead, htail⟩) g

end Grouping

namespace Ty

/-- A regular type is no failure. -/
theorem ne_error_of_isRegular {t : Ty} (h : t.isRegular = true) : t ≠ error := by
  rintro rfl
  exact Bool.noConfusion h

/-- Not to include a type passes down. -/
theorem passesDown_not_includes {x : Ty} (hx : Normal x) :
    PassesDownAmong Normal fun t => includes t x = false := by
  intro a b ha hb hab hax
  cases hbx : includes b x with
  | false => rfl
  | true =>
    have hcarried := includes_trans ha hb hx hab hbx
    rw [hcarried] at hax
    exact hax

/-- What one of the types other than the empty one includes is included by one of the kept types. -/
theorem exists_kept_includes {ts : List Ty} (hn : ∀ t ∈ ts, Normal t) {k m : Ty} (hk : k ∈ ts)
    (hnever : k.isNever = false) (hm : Normal m) (h : includes k m = true) :
    ∃ j ∈ kept ts, includes j m = true := by
  by_contra hnone
  have hall : ∀ j ∈ kept ts, includes j m = false := by
    intro j hj
    by_contra hi
    exact hnone ⟨j, hj, by simpa using hi⟩
  have hdown := passesDown_not_includes hm
  have hlost := forall_of_kept hdown trivial (fun t ht _ => hn t ht) hall k hk hnever
  rw [h] at hlost
  exact Bool.noConfusion hlost

/-- A join of types in normal form that does not fail includes what one of them includes. -/
theorem includes_join_of_includes {ts : List Ty} (hn : ∀ t ∈ ts, Normal t) (herror : error ∉ ts)
    {t u : Ty} (ht : t ∈ ts) (hu : Normal u) (h : includes t u = true) :
    includes (join ts) u = true := by
  rcases join_cases hn with ⟨he, _⟩ | ⟨_, _, hj⟩ | ⟨_, _, hs, hj⟩
  · exact absurd he herror
  · rw [hj]
    exact includes_mixed u
  · rw [includes_source hu]
    intro m hm
    obtain ⟨k, hk, hkm⟩ := (includes_iff_members (hn t ht) hu).mp h m hm
    have hflat : k ∈ ts.flatMap members := mem_flatMap_members.mpr ⟨t, ht, hk⟩
    cases hnever : k.isNever with
    | true =>
      rw [isNever_iff.mp hnever] at hkm
      rw [includes_never_iff.mp hkm]
      exact includes_never fun hjoin => herror ((join_eq_error hn).mp hjoin)
    | false =>
      obtain ⟨j, hjk, hi⟩ :=
        exists_kept_includes (normal_of_mem_flatMap hn) hflat hnever (hu.of_mem hm) hkm
      have hmembers := hs.members_ofMembers (List.ne_nil_of_mem hjk)
      rw [← hj] at hmembers
      exact (includes_target (normal_join hn) (hu.isUnion_of_mem hm)).mpr ⟨j, hmembers ▸ hjk, hi⟩

/-- The join of regular types in normal form includes each of them. -/
theorem includes_join {ts : List Ty} (hn : ∀ t ∈ ts, Normal t)
    (hr : ∀ t ∈ ts, t.isRegular = true) : ∀ t ∈ ts, includes (join ts) t = true := by
  intro t ht
  have herror : error ∉ ts := fun he => ne_error_of_isRegular (hr error he) rfl
  exact includes_join_of_includes hn herror ht (hn t ht) (includes_self (hn t ht) (hr t ht))

/-- A type in normal form does not have both truth constants as members. -/
theorem Normal.not_truths {t : Ty} (h : Normal t) : ¬ ∀ b, constant (.bool b) ∈ t.members := by
  intro htruths
  have htrue := htruths true
  have hfalse := htruths false
  cases t with
  | union ts =>
    have hone := (normal_union.mp h).2.2.oneTruth
    exact hone ⟨any_isTruth.mpr htrue, any_isTruth.mpr hfalse⟩
  | _ =>
    have heq := (List.mem_singleton.mp htrue).trans (List.mem_singleton.mp hfalse).symm
    cases heq

/-- A type that is no union and includes a truth constant is this constant, or it includes the
truth values. -/
theorem eq_truth_of_includes {k : Ty} (hk : k.isUnion = false) {b : Bool}
    (h : includes k (constant (.bool b)) = true) :
    k = constant (.bool b) ∨ includes k bool = true := by
  cases k with
  | mixed => exact Or.inr (includes_mixed bool)
  | never => exact Ty.noConfusion (includes_never_iff.mp h)
  | error =>
    rw [includes_error] at h
    exact Bool.noConfusion h
  | kind k =>
    rw [includes_kind_constant] at h
    rw [← of_decide_eq_true h]
    exact Or.inr rfl
  | constant c =>
    rw [includes_constant_constant] at h
    cases c with
    | bool value =>
      rw [Constant.same, beq_iff_eq] at h
      rw [h]
      exact Or.inl rfl
    | _ => exact Bool.noConfusion h
  | array =>
    obtain ⟨_, _, heq, _⟩ := includes_array rfl h
    exact Ty.noConfusion heq
  | object =>
    obtain ⟨_, _, heq, _⟩ := includes_object rfl h
    exact Ty.noConfusion heq
  | union => exact Bool.noConfusion hk

/-- A type in normal form that includes both truth constants includes the truth values. -/
theorem includes_bool_of_truths {u : Ty} (hu : Normal u)
    (h : ∀ b, includes u (constant (.bool b)) = true) : includes u bool = true := by
  by_contra hnot
  apply hu.not_truths
  intro b
  obtain ⟨k, hk, hi⟩ := (includes_target hu rfl).mp (h b)
  rcases eq_truth_of_includes (hu.isUnion_of_mem hk) hi with rfl | hbool
  · exact hk
  · exact absurd ((includes_target hu rfl).mpr ⟨k, hk, hbool⟩) hnot

/-- A type that includes types in normal form includes their join. -/
theorem includes_join_of_forall {ts : List Ty} (hn : ∀ t ∈ ts, Normal t) {u : Ty} (hu : Normal u)
    (herror : u ≠ error) (h : ∀ t ∈ ts, includes u t = true) : includes u (join ts) = true := by
  have hmembers : ∀ m ∈ ts.flatMap members, includes u m = true := by
    intro m hm
    obtain ⟨t, ht, hmt⟩ := mem_flatMap_members.mp hm
    exact (includes_source (hn t ht)).mp (h t ht) m hmt
  rcases join_cases hn with ⟨he, hj⟩ | ⟨_, hm, hj⟩ | ⟨_, _, hs, hj⟩
  · rw [hj]
    exact h error he
  · rw [hj]
    exact h mixed hm
  · have hkept : ∀ k ∈ kept (ts.flatMap members), includes u k = true := by
      intro k hk
      rcases mem_of_mem_kept hk with hk | ⟨rfl, htruths⟩
      · exact hmembers k hk
      · exact includes_bool_of_truths hu fun b => hmembers _ (htruths b)
    by_cases hnil : kept (ts.flatMap members) = []
    · rw [hj, hnil]
      exact includes_never herror
    · rw [includes_source (normal_join hn), hj, hs.members_ofMembers hnil]
      exact hkept

/-- A regular type in normal form is the least one that includes all types of a list. -/
structure Supremum (t : Ty) (ts : List Ty) : Prop where
  /-- The type is in normal form. -/
  normal : Normal t
  /-- Neither a failure nor not-a-number occurs in it. -/
  regular : t.isRegular = true
  /-- It includes all types of the list. -/
  above : ∀ x ∈ ts, includes t x = true
  /-- Every type in normal form that includes them includes it. -/
  least : ∀ u, Normal u → u ≠ error → (∀ x ∈ ts, includes u x = true) → includes u t = true

/-- A least upper bound lies below those of all lists with the same types. -/
theorem Supremum.includes_of_subset {a b : Ty} {ts us : List Ty} (ha : Supremum a ts)
    (hb : Supremum b us) (h : ts ⊆ us) : includes b a = true :=
  ha.least b hb.normal (ne_error_of_isRegular hb.regular) fun x hx => hb.above x (h hx)

/-- A join of regular types in normal form is regular. -/
theorem isRegular_join {ts : List Ty} (hn : ∀ t ∈ ts, Normal t)
    (hr : ∀ t ∈ ts, t.isRegular = true) : (join ts).isRegular = true := by
  apply isRegular_of_members
  refine forall_members_join hn rfl (fun _ => rfl) ?_
  intro t ht m hm
  exact isRegular_of_mem (hr t ht) hm

/-- The join of regular types in normal form is their least upper bound. -/
theorem supremum_join {ts : List Ty} (hn : ∀ t ∈ ts, Normal t)
    (hr : ∀ t ∈ ts, t.isRegular = true) : Supremum (join ts) ts where
  normal := normal_join hn
  regular := isRegular_join hn hr
  above := includes_join hn hr
  least _ hu herror h := includes_join_of_forall hn hu herror h

/-- Joining least upper bounds gives the least upper bound of all that they were made from. -/
theorem supremum_group {parts : List Grouping}
    (hn : ∀ g ∈ parts, ∀ t ∈ g.leaves, Normal t)
    (hparts : ∀ g ∈ parts, Supremum g.joined g.leaves) :
    Supremum (Grouping.group parts).joined (Grouping.group parts).leaves := by
  have hjoin : Supremum (join (parts.map Grouping.joined)) (parts.map Grouping.joined) :=
    supremum_join (List.forall_mem_map.mpr fun g hg => (hparts g hg).normal)
      (List.forall_mem_map.mpr fun g hg => (hparts g hg).regular)
  rw [Grouping.joined_group, Grouping.leaves_group]
  refine ⟨hjoin.normal, hjoin.regular, ?_, ?_⟩
  · intro x hx
    obtain ⟨g, hg, hxg⟩ := List.mem_flatMap.mp hx
    have hpart := hjoin.above g.joined (List.mem_map_of_mem hg)
    have hleaf := (hparts g hg).above x hxg
    exact includes_trans hjoin.normal (hparts g hg).normal (hn g hg x hxg) hpart hleaf
  · intro u hu herror h
    apply hjoin.least u hu herror
    rw [List.forall_mem_map]
    intro g hg
    apply (hparts g hg).least u hu herror
    intro x hx
    exact h x (List.mem_flatMap.mpr ⟨g, hg, hx⟩)

/-- The type that a grouping leaves is the least upper bound of the types in it. -/
theorem supremum_joined {g : Grouping} (hn : ∀ t ∈ g.leaves, Normal t)
    (hr : ∀ t ∈ g.leaves, t.isRegular = true) : Supremum g.joined g.leaves := by
  induction g using Grouping.partInduction with
  | single t =>
    have hnt := hn t List.mem_cons_self
    have hrt := hr t List.mem_cons_self
    have habove : ∀ x ∈ [t], includes t x = true :=
      List.forall_mem_singleton.mpr (includes_self hnt hrt)
    exact ⟨hnt, hrt, habove, fun u _ _ h => h t List.mem_cons_self⟩
  | group parts ih =>
    rw [Grouping.leaves_group, List.forall_mem_flatMap] at hn hr
    exact supremum_group hn fun g hg => ih g hg (hn g hg) (hr g hg)

/-- The join of regular types in normal form includes all of them, every type in normal form that
does so includes the join, and neither the order of the types nor their grouping matters. -/
theorem join_least_upper {ts : List Ty} (hn : ∀ t ∈ ts, Normal t)
    (hr : ∀ t ∈ ts, t.isRegular = true) :
    (∀ t ∈ ts, includes (join ts) t = true) ∧
      (∀ u, Normal u → u ≠ error → (∀ t ∈ ts, includes u t = true) →
        includes u (join ts) = true) ∧
      ∀ g : Grouping, g.leaves.Perm ts →
        includes g.joined (join ts) = true ∧ includes (join ts) g.joined = true := by
  have hjoin := supremum_join hn hr
  refine ⟨hjoin.above, hjoin.least, ?_⟩
  intro g hperm
  have hg : Supremum g.joined g.leaves :=
    supremum_joined (fun t ht => hn t (hperm.subset ht)) (fun t ht => hr t (hperm.subset ht))
  exact ⟨hjoin.includes_of_subset hg hperm.symm.subset, hg.includes_of_subset hjoin hperm.subset⟩

/-- True, an array type and false may be joined from behind and in two steps. -/
theorem join_least_upper_truths :
    (∀ t ∈ [constant (.bool true), array int string, constant (.bool false)],
        includes (join [constant (.bool true), array int string, constant (.bool false)]) t = true) ∧
      includes (union [array mixed (union [null, string]), bool])
        (join [constant (.bool true), array int string, constant (.bool false)]) = true ∧
      includes (join [join [constant (.bool false), array int string], constant (.bool true)])
        (join [constant (.bool true), array int string, constant (.bool false)]) = true := by
  have hbound := @join_least_upper
    [constant (.bool true), array int string, constant (.bool false)] (by decide) (by decide)
  have hperm := List.reverse_perm [constant (.bool true), array int string, constant (.bool false)]
  have hgroup := hbound.2.2 (.group [.group [.single (constant (.bool false)),
    .single (array int string)], .single (constant (.bool true))]) hperm
  exact ⟨hbound.1, hbound.2.1 _ (by decide) Ty.noConfusion (by decide), hgroup.1⟩

end Ty

end OperatorLint
