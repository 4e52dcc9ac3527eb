import OperatorLint.Proofs.Supremum

/-!
# Joining again

The scan that joins types may be interrupted: the members that it has kept so far, with the truth
constants merged, are scanned like themselves, and going on from them ends as going on without the
interruption does. Merging early makes no difference because the truth values stand where the first
of both constants stood, and no other type takes the place of a constant without being held by it.
So a type is the join of its own members, and of joined types any first part may be joined before.
Members are compared as they stand, in their order; nothing is asked of the parts of array types.
-/

namespace OperatorLint.Ty

/-- A type that is not a union, or a union of at least two members that stand apart. -/
def Reduced : Ty → Prop
  | union ts => 2 ≤ ts.length ∧ Separate ts
  | _ => True

/-- The members of a reduced type are no unions. -/
theorem Reduced.isUnion_of_mem {t m : Ty} (h : Reduced t) (hm : m ∈ t.members) :
    m.isUnion = false := by
  cases t with
  | union ts => exact isUnion_of_isSingle (h.2.single m hm)
  | _ => exact List.mem_singleton.mp hm ▸ rfl

/-- A type in normal form is reduced. -/
theorem Normal.reduced {t : Ty} (h : Normal t) : Reduced t := by
  cases t with
  | union ts => exact (normal_union.mp h).2
  | _ => trivial

section Overwriting

variable {t u k : Ty} {ks : List Ty}

/-- Overwriting takes the place of the first type that is included. -/
theorem overwrite_cons_of_includes (h : includes t k = true) :
    overwrite t (k :: ks) = t :: ks.filter fun k => !includes t k := by
  simp [overwrite, h]

/-- Overwriting passes a type that is not included. -/
theorem overwrite_cons_of_not_includes (h : includes t k = false) :
    overwrite t (k :: ks) = k :: overwrite t ks := by
  simp [overwrite, h]

/-- Types may be dropped before or after overwriting, if neither the new type nor one that it
includes is dropped. -/
theorem filter_overwrite {p : Ty → Bool} (ht : p t = true)
    (hks : ∀ k ∈ ks, includes t k = true → p k = true) :
    (overwrite t ks).filter p = overwrite t (ks.filter p) := by
  induction ks with
  | nil => exact List.filter_cons_of_pos ht
  | cons k ks ih =>
    obtain ⟨hk, hrest⟩ := List.forall_mem_cons.mp hks
    cases hi : includes t k with
    | true =>
      rw [overwrite_cons_of_includes hi, List.filter_cons_of_pos ht,
        List.filter_cons_of_pos (hk hi), overwrite_cons_of_includes hi, List.filter_comm]
    | false =>
      rw [overwrite_cons_of_not_includes hi]
      cases hp : p k with
      | true =>
        rw [List.filter_cons_of_pos hp, List.filter_cons_of_pos hp, ih hrest,
          overwrite_cons_of_not_includes hi]
      | false =>
        have hdrop : ¬ p k = true := by simp [hp]
        rw [List.filter_cons_of_neg hdrop, List.filter_cons_of_neg hdrop, ih hrest]

/-- Two types that include neither one another nor a common type may overwrite in either order, if
the first one finds a place. -/
theorem overwrite_comm (hut : includes u t = false) (htu : includes t u = false)
    (hboth : ∀ k ∈ ks, includes u k = true → includes t k = false)
    (hplace : ∃ k ∈ ks, includes u k = true) :
    overwrite t (overwrite u ks) = overwrite u (overwrite t ks) := by
  induction ks with
  | nil =>
    obtain ⟨k, hk, _⟩ := hplace
    exact absurd hk List.not_mem_nil
  | cons k ks ih =>
    obtain ⟨hk, hrest⟩ := List.forall_mem_cons.mp hboth
    cases hu : includes u k with
    | true =>
      have hfilter : (overwrite t ks).filter (fun k => !includes u k) =
          overwrite t (ks.filter fun k => !includes u k) := by
        refine filter_overwrite (by simp [hut]) fun k hk ht => ?_
        cases hi : includes u k with
        | true => exact Bool.noConfusion ((hrest k hk hi).symm.trans ht)
        | false => rfl
      rw [overwrite_cons_of_includes hu, overwrite_cons_of_not_includes htu,
        overwrite_cons_of_not_includes (hk hu), overwrite_cons_of_includes hu, hfilter]
    | false =>
      have hplace' : ∃ k ∈ ks, includes u k = true := by
        obtain ⟨l, hl, hi⟩ := hplace
        rcases List.mem_cons.mp hl with rfl | hl
        · exact Bool.noConfusion (hu.symm.trans hi)
        · exact ⟨l, hl, hi⟩
      cases ht : includes t k with
      | true =>
        have hfilter : (overwrite u ks).filter (fun k => !includes t k) =
            overwrite u (ks.filter fun k => !includes t k) :=
          filter_overwrite (by simp [htu]) fun k hk hi => by simp [hrest k hk hi]
        rw [overwrite_cons_of_not_includes hu, overwrite_cons_of_includes ht,
          overwrite_cons_of_includes ht, overwrite_cons_of_not_includes hut, hfilter]
      | false =>
        rw [overwrite_cons_of_not_includes hu, overwrite_cons_of_not_includes ht,
          overwrite_cons_of_not_includes ht, overwrite_cons_of_not_includes hu, ih hrest hplace']

end Overwriting

section Merging

variable {t : Ty} {ks ts : List Ty}

/-- A type that a kept one includes is not added. -/
theorem keep_of_held {k : Ty} (hk : k ∈ ks) (h : includes k t = true) : keep ks t = ks := by
  have hany : ks.any (fun k => includes k t) = true := List.any_eq_true.mpr ⟨k, hk, h⟩
  rw [keep, hany, Bool.or_true, if_pos rfl]

/-- The empty type is not added. -/
theorem keep_of_isNever (h : t.isNever = true) : keep ks t = ks := by
  rw [keep, h, Bool.true_or, if_pos rfl]

/-- A type that no kept one includes is written over those that it includes. -/
theorem keep_of_new (hnever : t.isNever = false) (h : ∀ k ∈ ks, includes k t = false) :
    keep ks t = overwrite t ks := by
  have hany : ks.any (fun k => includes k t) = false :=
    List.any_eq_false.mpr fun k hk hi => Bool.noConfusion ((h k hk).symm.trans hi)
  rw [keep, hnever, hany]
  rfl

/-- Both truth constants are merged where both are kept. -/
theorem mergeTruths_of_truths (h : ∀ b, constant (.bool b) ∈ ks) :
    mergeTruths ks = overwrite bool ks := by
  rw [mergeTruths, any_isTruth.mpr (h true), any_isTruth.mpr (h false)]
  rfl

/-- Nothing is merged where one of the truth constants is missing. -/
theorem mergeTruths_of_not_truths (h : ¬ ∀ b, constant (.bool b) ∈ ks) : mergeTruths ks = ks := by
  have hboth : ¬ (ks.any (isTruth true) && ks.any (isTruth false)) = true := by
    rw [Bool.and_eq_true, any_isTruth, any_isTruth]
    exact fun hboth => h (Bool.forall_bool.mpr hboth.symm)
  rw [mergeTruths, if_neg hboth]

/-- The truth values include only themselves and the truth constants. -/
theorem eq_truth_of_includes_bool (ht : t.isSingle = true) (h : includes bool t = true) :
    t = bool ∨ ∃ b, t = constant (.bool b) := by
  rcases includes_kind ht h with rfl | ⟨c, rfl, hc⟩
  · exact Or.inl rfl
  · cases c with
    | bool b => exact Or.inr ⟨b, rfl⟩
    | _ => exact Kind.noConfusion hc

/-- The kept types are single and stand apart, and both truth constants are among them. -/
structure Mergeable (ks : List Ty) : Prop where
  /-- No kept type is a union, a failure, the unknown or the empty type. -/
  single : ∀ k ∈ ks, k.isSingle = true
  /-- No kept type includes another one. -/
  apart : ks.Pairwise Apart
  /-- Both truth constants are kept. -/
  truths : ∀ b, constant (.bool b) ∈ ks

namespace Mergeable

variable (h : Mergeable ks)

include h

/-- The truth values are not kept beside their constants. -/
theorem ne_bool {k : Ty} (hk : k ∈ ks) : k ≠ bool := by
  rintro rfl
  have hapart := h.apart.forall hk (h.truths true) Ty.noConfusion
  exact Bool.noConfusion (hapart.1.symm.trans (includes_bool_truth true))

/-- No kept type includes the truth values. -/
theorem not_includes_bool {k : Ty} (hk : k ∈ ks) : includes k bool = false := by
  cases hi : includes k bool with
  | true => exact absurd (eq_bool_of_includes (h.single k hk) hi) (h.ne_bool hk)
  | false => rfl

/-- A kept type that the truth values include is one of the truth constants. -/
theorem eq_truth {k : Ty} (hk : k ∈ ks) (hi : includes bool k = true) :
    ∃ b, k = constant (.bool b) :=
  (eq_truth_of_includes_bool (h.single k hk) hi).resolve_left (h.ne_bool hk)

/-- Scanning the truth values merges their constants. -/
theorem keep_bool : keep ks bool = mergeTruths ks := by
  rw [keep_of_new rfl fun k hk => h.not_includes_bool hk, mergeTruths_of_truths h.truths]

/-- The merged types hold the truth values. -/
theorem keep_mergeTruths_bool : keep (mergeTruths ks) bool = mergeTruths ks := by
  have hbool : bool ∈ mergeTruths ks := by
    rw [mergeTruths_of_truths h.truths]
    exact mem_overwrite.mpr (Or.inl rfl)
  exact keep_of_held hbool rfl

/-- A type that one of the kept ones includes is also held by the merged ones. -/
theorem keep_mergeTruths_of_held (ht : t.isSingle = true) {k : Ty} (hk : k ∈ ks)
    (hi : includes k t = true) : keep (mergeTruths ks) t = mergeTruths ks := by
  rw [mergeTruths_of_truths h.truths]
  cases hb : includes bool k with
  | false => exact keep_of_held (mem_overwrite.mpr (Or.inr ⟨hk, hb⟩)) hi
  | true =>
    obtain ⟨b, rfl⟩ := h.eq_truth hk hb
    obtain ⟨c, rfl, hc⟩ := includes_constant ht hi
    have hkind : c.kind = Kind.bool := (Constant.kind_eq_of_same hc).symm
    refine keep_of_held (mem_overwrite.mpr (Or.inl rfl)) ?_
    rw [includes_kind_constant, hkind]
    rfl

/-- A type that no kept one includes is none of the truth constants. -/
theorem ne_truth (hnew : ∀ k ∈ ks, includes k t = false) (b : Bool) : t ≠ constant (.bool b) := by
  rintro rfl
  have hself : (Constant.bool b).same (.bool b) = true := beq_self_eq_true b
  have hnot := hnew _ (h.truths b)
  rw [includes_constant_constant, hself] at hnot
  exact Bool.noConfusion hnot

/-- Neither the truth values nor a type that no kept one includes include one another, and such a
type includes no truth constant. -/
theorem apart_of_new (ht : t.isSingle = true) (hne : t ≠ bool)
    (hnew : ∀ k ∈ ks, includes k t = false) :
    Apart bool t ∧ ∀ b, includes t (constant (.bool b)) = false := by
  have hbool : includes t bool = false := by
    cases hi : includes t bool with
    | true => exact absurd (eq_bool_of_includes ht hi) hne
    | false => rfl
  refine ⟨⟨?_, hbool⟩, fun b => ?_⟩
  · cases hi : includes bool t with
    | true =>
      obtain ⟨b, hb⟩ := (eq_truth_of_includes_bool ht hi).resolve_left hne
      exact absurd hb (h.ne_truth hnew b)
    | false => rfl
  · cases hi : includes t (constant (.bool b)) with
    | true =>
      rcases eq_truth_of_includes (isUnion_of_isSingle ht) hi with hb | hb
      · exact absurd hb (h.ne_truth hnew b)
      · exact Bool.noConfusion (hbool.symm.trans hb)
    | false => rfl

/-- A type that no kept one includes, other than the truth values, may be written over the kept ones
before or after the truth constants are merged, and leaves both of these. -/
theorem keep_mergeTruths_of_new (ht : t.isSingle = true) (hne : t ≠ bool)
    (hnew : ∀ k ∈ ks, includes k t = false) :
    keep (mergeTruths ks) t = mergeTruths (keep ks t) ∧ ∀ b, constant (.bool b) ∈ keep ks t := by
  obtain ⟨hapart, hleft⟩ := h.apart_of_new ht hne hnew
  have hnever := isNever_of_isSingle ht
  have htruths : ∀ b, constant (.bool b) ∈ overwrite t ks := fun b =>
    mem_overwrite.mpr (Or.inr ⟨h.truths b, hleft b⟩)
  have hmerged : ∀ k ∈ overwrite bool ks, includes k t = false := by
    intro k hk
    rcases mem_overwrite.mp hk with rfl | ⟨hk, _⟩
    · exact hapart.1
    · exact hnew k hk
  have hboth : ∀ k ∈ ks, includes bool k = true → includes t k = false := by
    intro k hk hi
    obtain ⟨b, rfl⟩ := h.eq_truth hk hi
    exact hleft b
  rw [mergeTruths_of_truths h.truths, keep_of_new hnever hmerged, keep_of_new hnever hnew,
    mergeTruths_of_truths htruths]
  exact ⟨overwrite_comm hapart.1 hapart.2 hboth ⟨_, h.truths true, includes_bool_truth true⟩,
    htruths⟩

/-- One step of the scan, other than over the truth values, may be taken before or after the truth
constants are merged, and leaves both of these. -/
theorem keep_mergeTruths (ht : t.isNever = false → t.isSingle = true) (hne : t ≠ bool) :
    keep (mergeTruths ks) t = mergeTruths (keep ks t) ∧ Mergeable (keep ks t) := by
  cases hnever : t.isNever with
  | true =>
    rw [keep_of_isNever hnever, keep_of_isNever hnever]
    exact ⟨rfl, h⟩
  | false =>
    have hsingle := ht hnever
    by_cases hheld : ∃ k ∈ ks, includes k t = true
    · obtain ⟨k, hk, hi⟩ := hheld
      rw [h.keep_mergeTruths_of_held hsingle hk hi, keep_of_held hk hi]
      exact ⟨rfl, h⟩
    · have hnew : ∀ k ∈ ks, includes k t = false := fun k hk =>
        Bool.eq_false_iff.mpr fun hi => hheld ⟨k, hk, hi⟩
      obtain ⟨hstep, htruths⟩ := h.keep_mergeTruths_of_new hsingle hne hnew
      refine ⟨hstep, fun k hk => ?_, apart_keep h.apart t, htruths⟩
      rcases mem_of_mem_keep hk with hk | ⟨rfl, _⟩
      · exact h.single k hk
      · exact hsingle

/-- Once the truth constants are merged there are no longer both of them. -/
theorem mergeTruths_mergeTruths : mergeTruths (mergeTruths ks) = mergeTruths ks := by
  have hone := (separate_mergeTruths h.single h.apart).oneTruth
  rw [any_isTruth, any_isTruth] at hone
  exact mergeTruths_of_not_truths fun htruths => hone ⟨htruths true, htruths false⟩

/-- The rest of the scan may go on from the kept types or from the merged ones. The truth values end
the difference: both scans hold them where the first constant stood. -/
theorem mergeTruths_foldl_keep (hts : ∀ t ∈ ts, t.isNever = false → t.isSingle = true) :
    mergeTruths (ts.foldl keep (mergeTruths ks)) = mergeTruths (ts.foldl keep ks) := by
  induction ts generalizing ks with
  | nil => exact h.mergeTruths_mergeTruths
  | cons t ts ih =>
    obtain ⟨ht, hrest⟩ := List.forall_mem_cons.mp hts
    rw [List.foldl_cons, List.foldl_cons]
    by_cases hbool : t = bool
    · rw [hbool, h.keep_mergeTruths_bool, h.keep_bool]
    · obtain ⟨hstep, hkeep⟩ := h.keep_mergeTruths ht hbool
      rw [hstep]
      exact ih hkeep hrest

end Mergeable

/-- The rest of a scan of single types may go on from the kept types or from the merged ones. -/
theorem mergeTruths_foldl_keep (hsingle : ∀ k ∈ ks, k.isSingle = true) (hapart : ks.Pairwise Apart)
    (hts : ∀ t ∈ ts, t.isNever = false → t.isSingle = true) :
    mergeTruths (ts.foldl keep (mergeTruths ks)) = mergeTruths (ts.foldl keep ks) := by
  by_cases htruths : ∀ b, constant (.bool b) ∈ ks
  · have hmergeable : Mergeable ks := ⟨hsingle, hapart, htruths⟩
    exact hmergeable.mergeTruths_foldl_keep hts
  · rw [mergeTruths_of_not_truths htruths]

/-- Separate types are kept by a scan of the members of their type. -/
theorem Separate.foldl_keep_members (h : Separate ks) :
    (ofMembers ks).members.foldl keep [] = ks := by
  cases ks with
  | nil => rfl
  | cons k ks =>
    have hnever : ∀ t ∈ k :: ks, t.isNever = false := fun t ht =>
      isNever_of_isSingle (h.single t ht)
    rw [h.members_ofMembers (List.cons_ne_nil k ks), foldl_keep_of_apart hnever h.apart,
      List.nil_append]

/-- A scan may begin with the members of the type that a scan of the first part ends with. -/
theorem kept_members_append {as bs : List Ty}
    (has : ∀ t ∈ as, t.isNever = false → t.isSingle = true)
    (hbs : ∀ t ∈ bs, t.isNever = false → t.isSingle = true) :
    kept ((ofMembers (kept as)).members ++ bs) = kept (as ++ bs) := by
  have hstart : (ofMembers (kept as)).members.foldl keep [] = kept as :=
    (separate_kept has).foldl_keep_members
  calc kept ((ofMembers (kept as)).members ++ bs)
      = mergeTruths (bs.foldl keep ((ofMembers (kept as)).members.foldl keep [])) :=
        congrArg mergeTruths List.foldl_append
    _ = mergeTruths (bs.foldl keep (kept as)) := by rw [hstart]
    _ = mergeTruths (bs.foldl keep (as.foldl keep [])) :=
        mergeTruths_foldl_keep (forall_scan has) (apart_foldl_keep List.Pairwise.nil) hbs
    _ = kept (as ++ bs) := congrArg mergeTruths List.foldl_append.symm

end Merging

section Joining

variable {as bs : List Ty}

/-- The join of types of which none is a union. -/
theorem join_of_flat (h : ∀ t ∈ as, t.isUnion = false) :
    join as = if as.any isError then error else if as.any isMixed then mixed
      else ofMembers (kept as) := by
  rw [join, flatMap_members h]

/-- What a failure, the unknown type, the empty type and unions leave is single. -/
theorem isSingle_of_flat (h : ∀ t ∈ as, t.isUnion = false) (herror : as.any isError = false)
    (hmixed : as.any isMixed = false) : ∀ t ∈ as, t.isNever = false → t.isSingle = true := by
  intro t ht hnever
  have hunion := h t ht
  have hne : ¬ t.isError = true := List.any_eq_false.mp herror t ht
  have hnm : ¬ t.isMixed = true := List.any_eq_false.mp hmixed t ht
  cases t with
  | kind | constant | array | object => rfl
  | error => exact absurd rfl hne
  | mixed => exact absurd rfl hnm
  | never => exact Bool.noConfusion hnever
  | union => exact Bool.noConfusion hunion

/-- No member of the type of separate types is a union, a failure or the unknown type. -/
theorem Separate.known_members (h : Separate as) : ∀ m ∈ (ofMembers as).members,
    m.isUnion = false ∧ m.isError = false ∧ m.isMixed = false := by
  have hknown : ∀ m : Ty, m.isSingle = true →
      m.isUnion = false ∧ m.isError = false ∧ m.isMixed = false := by
    intro m hm
    cases m with
    | kind | constant | array | object => exact ⟨rfl, rfl, rfl⟩
    | mixed | never | error | union => exact Bool.noConfusion hm
  cases as with
  | nil => exact List.forall_mem_singleton.mpr ⟨rfl, rfl, rfl⟩
  | cons a as =>
    rw [h.members_ofMembers (List.cons_ne_nil a as)]
    exact fun m hm => hknown m (h.single m hm)

/-- No member of a join is a union. -/
theorem isUnion_of_mem_join (h : ∀ t ∈ as, t.isUnion = false) :
    ∀ m ∈ (join as).members, m.isUnion = false := by
  rw [join_of_flat h]
  split
  · exact List.forall_mem_singleton.mpr rfl
  · next herror =>
    split
    · exact List.forall_mem_singleton.mpr rfl
    · next hmixed =>
      have hsingle :=
        isSingle_of_flat h (Bool.eq_false_iff.mpr herror) (Bool.eq_false_iff.mpr hmixed)
      exact fun m hm => ((separate_kept hsingle).known_members m hm).1

/-- The members of a join stand for the joined types in front of others. -/
theorem join_members_append (has : ∀ t ∈ as, t.isUnion = false)
    (hbs : ∀ t ∈ bs, t.isUnion = false) : join ((join as).members ++ bs) = join (as ++ bs) := by
  have hsplit : ∀ ts : List Ty, (∀ t ∈ ts, t.isUnion = false) →
      join (ts ++ bs) = if ts.any isError || bs.any isError then error
        else if ts.any isMixed || bs.any isMixed then mixed else ofMembers (kept (ts ++ bs)) := by
    intro ts hts
    rw [join_of_flat (List.forall_mem_append.mpr ⟨hts, hbs⟩), List.any_append, List.any_append]
  rw [hsplit as has, hsplit _ (isUnion_of_mem_join has), join_of_flat has]
  cases herror : as.any isError with
  | true => rfl
  | false =>
    cases hmixed : as.any isMixed with
    | true => rfl
    | false =>
      have hsingle := isSingle_of_flat has herror hmixed
      have hknown := (separate_kept hsingle).known_members
      have hnoerror : (ofMembers (kept as)).members.any isError = false :=
        List.any_eq_false.mpr fun m hm => Bool.eq_false_iff.mp (hknown m hm).2.1
      have hnomixed : (ofMembers (kept as)).members.any isMixed = false :=
        List.any_eq_false.mpr fun m hm => Bool.eq_false_iff.mp (hknown m hm).2.2
      rw [if_neg Bool.false_ne_true, if_neg Bool.false_ne_true, hnoerror, hnomixed]
      cases he : bs.any isError with
      | true => rfl
      | false =>
        cases hm : bs.any isMixed with
        | true => rfl
        | false => rw [kept_members_append hsingle (isSingle_of_flat hbs he hm)]

/-- Types are joined as their members are, if no member is a union. -/
theorem join_flatMap_members {ts : List Ty} (h : ∀ t ∈ ts, ∀ m ∈ t.members, m.isUnion = false) :
    join (ts.flatMap members) = join ts := by
  have hflat : ∀ m ∈ ts.flatMap members, m.isUnion = false := List.forall_mem_flatMap.mpr h
  rw [join, flatMap_members hflat, join]

end Joining

/-- A reduced type is the join of its members. -/
theorem Reduced.join_members {t : Ty} (h : Reduced t) : join t.members = t := by
  cases t with
  | union ts =>
    obtain ⟨hlength, hs⟩ := h
    rw [members, join_of_separate hs]
    cases ts with
    | nil => exact absurd hlength (by decide)
    | cons a ts =>
      cases ts with
      | nil => exact absurd hlength (by simp)
      | cons b cs => rfl
  | constant c =>
    cases c with
    | bool b => cases b <;> rfl
    | int | float | string => rfl
  | mixed | never | error | kind | array | object => rfl

instance (t : Ty) : Decidable (Reduced t) :=
  match t with
  | union ts => inferInstanceAs (Decidable (2 ≤ ts.length ∧ Separate ts))
  | mixed | never | error | kind _ | constant _ | array _ _ | object _ _ => isTrue trivial

/-- A reduced type is the join of its own members, which keep their order. Of reduced types any
first part may be joined before the others join it: the result is the same type, with the same
members in the same order. -/
theorem join_again :
    (∀ t : Ty, Reduced t → join t.members = t) ∧
      ∀ front back : List Ty, (∀ t ∈ front ++ back, Reduced t) →
        join (join front :: back) = join (front ++ back) := by
  refine ⟨fun t => Reduced.join_members, fun front back h => ?_⟩
  have hflat : ∀ ts : List Ty, (∀ t ∈ ts, Reduced t) → ∀ t ∈ ts, ∀ m ∈ t.members,
      m.isUnion = false := fun ts hts t ht m hm => (hts t ht).isUnion_of_mem hm
  have hparts := List.forall_mem_append.mp h
  have hfront := hflat front hparts.1
  have hback := hflat back hparts.2
  have has : ∀ m ∈ front.flatMap members, m.isUnion = false := List.forall_mem_flatMap.mpr hfront
  have hbs : ∀ m ∈ back.flatMap members, m.isUnion = false := List.forall_mem_flatMap.mpr hback
  have hjoin : ∀ m ∈ (join front).members, m.isUnion = false := by
    rw [← join_flatMap_members hfront]
    exact isUnion_of_mem_join has
  calc join (join front :: back)
      = join ((join front).members ++ back.flatMap members) :=
        (join_flatMap_members (List.forall_mem_cons.mpr ⟨hjoin, hback⟩)).symm
    _ = join ((join (front.flatMap members)).members ++ back.flatMap members) := by
        rw [join_flatMap_members hfront]
    _ = join (front.flatMap members ++ back.flatMap members) := join_members_append has hbs
    _ = join ((front ++ back).flatMap members) := by rw [List.flatMap_append]
    _ = join (front ++ back) := join_flatMap_members (hflat _ h)

/-- True and false are merged in the first part already, and the later types take the same
places. -/
theorem join_again_truths :
    let t := union [object "a" false, array mixed error, constant (.bool true)]
    let front := [constant (.bool true), constant (.int 1), constant (.bool false), t]
    let back := [union [string, null], constant (.bool false), int, bool]
    Reduced t ∧ join t.members = t ∧ (∀ t ∈ front ++ back, Reduced t) ∧
      join front = union [bool, constant (.int 1), object "a" false, array mixed error] ∧
      join (join front :: back) = join (front ++ back) ∧
      join (front ++ back) =
        union [bool, int, object "a" false, array mixed error, string, null] := by
  intro t front back
  have ht : Reduced t := by decide
  have hparts : ∀ t ∈ front ++ back, Reduced t := by decide
  exact ⟨ht, join_again.1 t ht, hparts, rfl, join_again.2 front back hparts, rfl⟩

end OperatorLint.Ty
