import Mathlib.Data.List.Basic
import Mathlib.Data.List.Pairwise
import Mathlib.Data.List.TakeWhile
import OperatorLint.Proofs.NormalForm

/-!
# What joining keeps

The scan that joins types adds one type at a time. One step keeps the kept types apart from one
another, takes every kept type from the joined ones, and loses nothing: a property that passes
down from a type to those it includes holds of all joined types once it holds of all kept ones.
The run of the scan inherits each of these by induction, and the join inherits them from the run.
-/

namespace OperatorLint.Ty

/-- The property passes from a single type to every single type that it includes. -/
def PassesDown (p : Ty → Prop) : Prop :=
  ∀ a b, a.isSingle = true → b.isSingle = true → includes a b = true → p a → p b

/-- Among the types with `q`, the property passes from a type to every type that it includes. -/
def PassesDownAmong (q p : Ty → Prop) : Prop := ∀ a b, q a → q b → includes a b = true → p a → p b

/-- Standing apart does not depend on the order. -/
theorem Apart.symm {a b : Ty} (h : Apart a b) : Apart b a := ⟨h.2, h.1⟩

instance : Std.Symm Apart := ⟨fun _ _ => Apart.symm⟩

/-- Different members of a type in normal form stand apart. -/
theorem Normal.apart_of_mem {t a b : Ty} (h : Normal t) (ha : a ∈ t.members)
    (hb : b ∈ t.members) (hne : a ≠ b) : Apart a b := by
  cases t with
  | union ts => exact (normal_union.mp h).2.2.apart.forall ha hb hne
  | _ =>
    rw [List.mem_singleton.mp ha, List.mem_singleton.mp hb] at hne
    exact absurd rfl hne

/-- The truth constants are recognised. -/
theorem isTruth_iff {b : Bool} {t : Ty} : isTruth b t = true ↔ t = constant (.bool b) := by
  cases t with
  | constant c =>
    cases c with
    | bool value => simp [isTruth, @eq_comm _ b value]
    | _ => simp [isTruth]
  | _ => simp [isTruth]

/-- Overwriting leaves the new type and the types that it does not include. -/
theorem overwrite_perm (t : Ty) (kept : List Ty) :
    (overwrite t kept).Perm (t :: kept.filter fun k => !includes t k) := by
  have hfilter : (kept.filter fun k => !includes t k) =
      kept.takeWhile (fun k => !includes t k) ++
        ((kept.dropWhile fun k => !includes t k).drop 1).filter fun k => !includes t k := by
    induction kept with
    | nil => rfl
    | cons k kept ih =>
      by_cases h : includes t k = true
      · simp [h]
      · simpa [h] using ih
  rw [hfilter]
  exact List.perm_middle

/-- What overwriting leaves. -/
theorem mem_overwrite {t x : Ty} {kept : List Ty} :
    x ∈ overwrite t kept ↔ x = t ∨ x ∈ kept ∧ includes t x = false := by
  rw [(overwrite_perm t kept).mem_iff, List.mem_cons, List.mem_filter, Bool.not_eq_true']

/-- Overwriting keeps types apart when none of them includes the new one. -/
theorem apart_overwrite {t : Ty} {kept : List Ty} (hapart : kept.Pairwise Apart)
    (ht : ∀ k ∈ kept, includes k t = false) : (overwrite t kept).Pairwise Apart := by
  rw [(overwrite_perm t kept).pairwise_iff Apart.symm, List.pairwise_cons]
  refine ⟨?_, hapart.sublist List.filter_sublist⟩
  intro k hk
  obtain ⟨hmem, hnot⟩ := List.mem_filter.mp hk
  exact ⟨by simpa using hnot, ht k hmem⟩

/-- A property of all that overwriting leaves holds of the new type and, when it passes down, of
all types that were there. -/
theorem forall_of_overwrite {q p : Ty → Prop} (hdown : PassesDownAmong q p) {t : Ty}
    {kept : List Ty} (ht : q t) (hkept : ∀ k ∈ kept, q k) (h : ∀ k ∈ overwrite t kept, p k) :
    p t ∧ ∀ k ∈ kept, p k := by
  have hpt : p t := h t (mem_overwrite.mpr (Or.inl rfl))
  refine ⟨hpt, ?_⟩
  intro k hk
  cases hi : includes t k with
  | true => exact hdown t k ht (hkept k hk) hi hpt
  | false => exact h k (mem_overwrite.mpr (Or.inr ⟨hk, hi⟩))

/-- One step keeps types apart. -/
theorem apart_keep {kept : List Ty} (h : kept.Pairwise Apart) (t : Ty) :
    (keep kept t).Pairwise Apart := by
  unfold keep
  split
  · exact h
  · next hnew =>
    rw [Bool.or_eq_true, not_or, List.any_eq_true] at hnew
    apply apart_overwrite h
    intro k hk
    have hk' : ¬ includes k t = true := fun hi => hnew.2 ⟨k, hk, hi⟩
    simpa using hk'

/-- One step adds nothing but the new type, and never the empty one. -/
theorem mem_of_mem_keep {kept : List Ty} {t x : Ty} (h : x ∈ keep kept t) :
    x ∈ kept ∨ x = t ∧ t.isNever = false := by
  unfold keep at h
  split at h
  · exact Or.inl h
  · next hnew =>
    rw [Bool.or_eq_true, not_or] at hnew
    rcases mem_overwrite.mp h with rfl | ⟨hx, _⟩
    · exact Or.inr ⟨rfl, by simpa using hnew.1⟩
    · exact Or.inl hx

/-- One step loses nothing that passes down. -/
theorem forall_of_keep {q p : Ty → Prop} (hdown : PassesDownAmong q p) {kept : List Ty} {t : Ty}
    (ht : t.isNever = false → q t) (hkept : ∀ k ∈ kept, q k) (h : ∀ k ∈ keep kept t, p k) :
    (∀ k ∈ kept, p k) ∧ (t.isNever = false → p t) := by
  unfold keep at h
  split at h
  · next hold =>
    refine ⟨h, ?_⟩
    intro hnever
    rw [hnever, Bool.false_or, List.any_eq_true] at hold
    obtain ⟨k, hk, hi⟩ := hold
    exact hdown k t (hkept k hk) (ht hnever) hi (h k hk)
  · next hnew =>
    rw [Bool.or_eq_true, not_or] at hnew
    have hqt := ht (by simpa using hnew.1)
    obtain ⟨hpt, hpkept⟩ := forall_of_overwrite hdown hqt hkept h
    exact ⟨hpkept, fun _ => hpt⟩

/-- The scan keeps types apart. -/
theorem apart_foldl_keep {ts kept : List Ty} (h : kept.Pairwise Apart) :
    (ts.foldl keep kept).Pairwise Apart := by
  induction ts generalizing kept with
  | nil => exact h
  | cons t ts ih => exact ih (apart_keep h t)

/-- The scan adds nothing but scanned types. -/
theorem mem_of_mem_foldl_keep {ts kept : List Ty} {x : Ty} (h : x ∈ ts.foldl keep kept) :
    x ∈ kept ∨ x ∈ ts ∧ x.isNever = false := by
  induction ts generalizing kept with
  | nil => exact Or.inl h
  | cons t ts ih =>
    rcases ih h with hx | ⟨hx, hnever⟩
    · rcases mem_of_mem_keep hx with hx | ⟨rfl, hnever⟩
      · exact Or.inl hx
      · exact Or.inr ⟨List.mem_cons_self, hnever⟩
    · exact Or.inr ⟨List.mem_cons_of_mem t hx, hnever⟩

/-- The scan loses nothing that passes down. -/
theorem forall_of_foldl_keep {q p : Ty → Prop} (hdown : PassesDownAmong q p) {ts kept : List Ty}
    (hts : ∀ t ∈ ts, t.isNever = false → q t) (hkept : ∀ k ∈ kept, q k)
    (h : ∀ k ∈ ts.foldl keep kept, p k) :
    (∀ k ∈ kept, p k) ∧ ∀ t ∈ ts, t.isNever = false → p t := by
  induction ts generalizing kept with
  | nil => exact ⟨h, by simp⟩
  | cons t ts ih =>
    obtain ⟨ht, hrest⟩ := List.forall_mem_cons.mp hts
    have hstep : ∀ k ∈ keep kept t, q k := by
      intro k hk
      rcases mem_of_mem_keep hk with hk | ⟨rfl, hnever⟩
      · exact hkept k hk
      · exact ht hnever
    obtain ⟨hpstep, hprest⟩ := ih hrest hstep h
    obtain ⟨hpkept, hpt⟩ := forall_of_keep hdown ht hkept hpstep
    exact ⟨hpkept, List.forall_mem_cons.mpr ⟨hpt, hprest⟩⟩

/-- A single type that includes the truth values is their type. -/
theorem eq_bool_of_includes {k : Ty} (hk : k.isSingle = true) (h : includes k bool = true) :
    k = bool := by
  cases k with
  | kind k =>
    cases k with
    | bool => rfl
    | _ => simp [includes, covers, onMembers, kindCovers, Certainty.isYes, Certainty.ofBool] at h
  | constant c =>
    by_cases hc : c.kind = Kind.bool <;>
      simp [includes, covers, onMembers, constantCovers, Certainty.isYes, hc] at h
  | array => simp [includes, covers, onMembers, arrayCovers, Certainty.isYes] at h
  | object => simp [includes, covers, onMembers, objectCovers, Certainty.isYes] at h
  | mixed | never | error | union => simp [isSingle] at hk

/-- The truth values include both truth constants. -/
theorem includes_bool_truth (b : Bool) : includes bool (constant (.bool b)) = true := by
  cases b <;> decide

/-- The truth constants are found in a list. -/
theorem any_isTruth {b : Bool} {ts : List Ty} :
    ts.any (isTruth b) = true ↔ constant (.bool b) ∈ ts := by
  simp [List.any_eq_true, isTruth_iff]

/-- Merging the truth constants adds nothing but the truth values, and these for both constants. -/
theorem mem_of_mem_mergeTruths {kept : List Ty} {x : Ty} (h : x ∈ mergeTruths kept) :
    x ∈ kept ∨ x = bool ∧ ∀ b, constant (.bool b) ∈ kept := by
  unfold mergeTruths at h
  split at h
  · next hboth =>
    rw [Bool.and_eq_true, any_isTruth, any_isTruth] at hboth
    rcases mem_overwrite.mp h with hx | ⟨hx, _⟩
    · exact Or.inr ⟨hx, Bool.forall_bool.mpr hboth.symm⟩
    · exact Or.inl hx
  · exact Or.inl h

/-- Merging the truth constants loses nothing that passes down. -/
theorem forall_of_mergeTruths {q p : Ty → Prop} (hdown : PassesDownAmong q p) (hbool : q bool)
    {kept : List Ty} (hkept : ∀ k ∈ kept, q k) (h : ∀ k ∈ mergeTruths kept, p k) :
    ∀ k ∈ kept, p k := by
  unfold mergeTruths at h
  split at h
  · exact (forall_of_overwrite hdown hbool hkept h).2
  · exact h

/-- Single types that stand apart are separate once the truth constants are merged. -/
theorem separate_mergeTruths {kept : List Ty} (hsingle : ∀ k ∈ kept, k.isSingle = true)
    (hapart : kept.Pairwise Apart) : Separate (mergeTruths kept) := by
  by_cases hboth : kept.any (isTruth true) && kept.any (isTruth false)
  · have htruth : constant (.bool true) ∈ kept :=
      any_isTruth.mp (Bool.and_eq_true_iff.mp hboth).1
    have hbool : ∀ k ∈ kept, includes k bool = false := by
      intro k hk
      by_contra hi
      have hkb : k = bool := eq_bool_of_includes (hsingle k hk) (by simpa using hi)
      have happ := hapart.forall hk htruth (by rw [hkb]; simp)
      rw [hkb, Apart, includes_bool_truth] at happ
      exact Bool.noConfusion happ.1
    rw [mergeTruths, if_pos hboth]
    refine ⟨?_, apart_overwrite hapart hbool, ?_⟩
    · intro k hk
      rcases mem_overwrite.mp hk with rfl | ⟨hk, _⟩
      · rfl
      · exact hsingle k hk
    · rintro ⟨htrue, _⟩
      rw [any_isTruth, mem_overwrite, includes_bool_truth] at htrue
      simp at htrue
  · rw [mergeTruths, if_neg hboth]
    exact ⟨hsingle, hapart, by simpa using hboth⟩

/-- What holds of all scanned types but the empty one holds of the kept ones. -/
theorem forall_scan {q : Ty → Prop} {ts : List Ty} (h : ∀ t ∈ ts, t.isNever = false → q t) :
    ∀ k ∈ ts.foldl keep [], q k := by
  intro k hk
  rcases mem_of_mem_foldl_keep hk with hk | ⟨hk, hnever⟩
  · exact absurd hk List.not_mem_nil
  · exact h k hk hnever

/-- The kept members of single or empty types are separate. -/
theorem separate_kept {ts : List Ty} (h : ∀ t ∈ ts, t.isNever = false → t.isSingle = true) :
    Separate (kept ts) :=
  separate_mergeTruths (forall_scan h) (apart_foldl_keep List.Pairwise.nil)

/-- The kept members are joined types, or the truth values in place of both constants. -/
theorem mem_of_mem_kept {ts : List Ty} {x : Ty} (h : x ∈ kept ts) :
    x ∈ ts ∨ x = bool ∧ ∀ b, constant (.bool b) ∈ ts := by
  have hscan : ∀ k ∈ ts.foldl keep [], k ∈ ts := forall_scan fun t ht _ => ht
  rcases mem_of_mem_mergeTruths h with hx | ⟨hx, htruths⟩
  · exact Or.inl (hscan x hx)
  · exact Or.inr ⟨hx, fun b => hscan _ (htruths b)⟩

/-- What passes down and holds of the kept members holds of all types but the empty one. -/
theorem forall_of_kept {q p : Ty → Prop} (hdown : PassesDownAmong q p) (hbool : q bool)
    {ts : List Ty} (hts : ∀ t ∈ ts, t.isNever = false → q t) (h : ∀ k ∈ kept ts, p k) :
    ∀ t ∈ ts, t.isNever = false → p t := by
  have hscan := forall_of_mergeTruths hdown hbool (forall_scan hts) h
  exact (forall_of_foldl_keep hdown hts (by simp) hscan).2

/-- The type of separate members has these members, if there are any. -/
theorem Separate.members_ofMembers {ts : List Ty} (h : Separate ts) (hts : ts ≠ []) :
    (ofMembers ts).members = ts := by
  match ts with
  | [] => exact absurd rfl hts
  | [t] => exact members_of_not_union (isUnion_of_isSingle (h.single t List.mem_cons_self))
  | t :: u :: ts => rfl

/-- The type of separate members in normal form is in normal form. -/
theorem normal_ofMembers {ts : List Ty} (hs : Separate ts) (h : ∀ t ∈ ts, Normal t) :
    Normal (ofMembers ts) := by
  match ts with
  | [] => exact trivial
  | [t] => exact h t List.mem_cons_self
  | t :: u :: ts => exact normal_union.mpr ⟨h, by simp, hs⟩

/-- A type in normal form is the type of its members. -/
theorem Normal.ofMembers_members {t : Ty} (h : Normal t) : ofMembers t.members = t := by
  cases t with
  | union ts =>
    obtain ⟨_, hlength, _⟩ := normal_union.mp h
    match ts with
    | [] | [_] => simp at hlength
    | _ :: _ :: _ => rfl
  | _ => rfl

/-- A type in normal form holds a failure only when it is one. -/
theorem Normal.error_mem {t : Ty} (h : Normal t) : error ∈ t.members ↔ t = error := by
  cases t with
  | union ts =>
    have hs := (normal_union.mp h).2.2.single
    have herror : error ∉ ts := fun hm => Bool.noConfusion (hs error hm)
    simpa [members] using herror
  | _ => simp [members]

/-- A type in normal form holds the unknown type only when it is that. -/
theorem Normal.mixed_mem {t : Ty} (h : Normal t) : mixed ∈ t.members ↔ t = mixed := by
  cases t with
  | union ts =>
    have hs := (normal_union.mp h).2.2.single
    have hmixed : mixed ∉ ts := fun hm => Bool.noConfusion (hs mixed hm)
    simpa [members] using hmixed
  | _ => simp [members]

/-- A type in normal form holds the empty type only when it is that. -/
theorem Normal.never_mem {t : Ty} (h : Normal t) : never ∈ t.members ↔ t = never := by
  cases t with
  | union ts =>
    have hs := (normal_union.mp h).2.2.single
    have hnever : never ∉ ts := fun hm => Bool.noConfusion (hs never hm)
    simpa [members] using hnever
  | _ => simp [members]

/-- The members of a type in normal form about which something is known are single. -/
theorem Normal.isSingle_of_mem {t m : Ty} (h : Normal t) (hm : m ∈ t.members)
    (herror : t ≠ error) (hmixed : t ≠ mixed) (hnever : t ≠ never) : m.isSingle = true := by
  have hunion := h.isUnion_of_mem hm
  have he : m ≠ error := fun hme => herror (h.error_mem.mp (hme ▸ hm))
  have hx : m ≠ mixed := fun hme => hmixed (h.mixed_mem.mp (hme ▸ hm))
  have hn : m ≠ never := fun hme => hnever (h.never_mem.mp (hme ▸ hm))
  cases m <;> simp_all [isSingle, isUnion]

/-- The members that a list of types has together. -/
theorem mem_flatMap_members {ts : List Ty} {x : Ty} :
    x ∈ ts.flatMap members ↔ ∃ t ∈ ts, x ∈ t.members := List.mem_flatMap

/-- The members that types in normal form have together are in normal form. -/
theorem normal_of_mem_flatMap {ts : List Ty} (h : ∀ t ∈ ts, Normal t) :
    ∀ x ∈ ts.flatMap members, Normal x := by
  intro x hx
  obtain ⟨t, ht, hxt⟩ := mem_flatMap_members.mp hx
  exact (h t ht).of_mem hxt

/-- The members that types in normal form have together are single or empty, unless one of the
types is a failure or the unknown type. -/
theorem isSingle_of_mem_flatMap {ts : List Ty} (h : ∀ t ∈ ts, Normal t) (herror : error ∉ ts)
    (hmixed : mixed ∉ ts) : ∀ x ∈ ts.flatMap members, x.isNever = false → x.isSingle = true := by
  intro x hx hnever
  obtain ⟨t, ht, hxt⟩ := mem_flatMap_members.mp hx
  apply (h t ht).isSingle_of_mem hxt
  · rintro rfl
    exact herror ht
  · rintro rfl
    exact hmixed ht
  · rintro rfl
    rw [List.mem_singleton.mp hxt] at hnever
    exact Bool.noConfusion hnever

/-- What a join of types in normal form can be: a failure, the unknown type, or the type of the
kept members. -/
theorem join_cases {ts : List Ty} (h : ∀ t ∈ ts, Normal t) :
    error ∈ ts ∧ join ts = error ∨ error ∉ ts ∧ mixed ∈ ts ∧ join ts = mixed ∨
      error ∉ ts ∧ mixed ∉ ts ∧ Separate (kept (ts.flatMap members)) ∧
        join ts = ofMembers (kept (ts.flatMap members)) := by
  have herror : (ts.flatMap members).any isError = true ↔ error ∈ ts := by
    rw [List.any_eq_true]
    constructor
    · rintro ⟨x, hx, hxe⟩
      obtain ⟨t, ht, hxt⟩ := mem_flatMap_members.mp hx
      rw [isError_iff.mp hxe] at hxt
      exact (h t ht).error_mem.mp hxt ▸ ht
    · intro he
      exact ⟨error, mem_flatMap_members.mpr ⟨error, he, List.mem_cons_self⟩, rfl⟩
  have hmixed : (ts.flatMap members).any isMixed = true ↔ mixed ∈ ts := by
    rw [List.any_eq_true]
    constructor
    · rintro ⟨x, hx, hxm⟩
      obtain ⟨t, ht, hxt⟩ := mem_flatMap_members.mp hx
      rw [isMixed_iff.mp hxm] at hxt
      exact (h t ht).mixed_mem.mp hxt ▸ ht
    · intro hm
      exact ⟨mixed, mem_flatMap_members.mpr ⟨mixed, hm, List.mem_cons_self⟩, rfl⟩
  unfold join
  dsimp only
  by_cases he : error ∈ ts
  · exact Or.inl ⟨he, if_pos (herror.mpr he)⟩
  · rw [if_neg (fun hany => he (herror.mp hany))]
    by_cases hm : mixed ∈ ts
    · exact Or.inr (Or.inl ⟨he, hm, if_pos (hmixed.mpr hm)⟩)
    · have hkept := separate_kept (isSingle_of_mem_flatMap h he hm)
      exact Or.inr (Or.inr ⟨he, hm, hkept, if_neg (fun hany => hm (hmixed.mp hany))⟩)

/-- A join of types in normal form is in normal form. -/
theorem normal_join {ts : List Ty} (h : ∀ t ∈ ts, Normal t) : Normal (join ts) := by
  rcases join_cases h with ⟨_, hj⟩ | ⟨_, _, hj⟩ | ⟨_, _, hs, hj⟩
  · rw [hj]
    trivial
  · rw [hj]
    trivial
  · rw [hj]
    apply normal_ofMembers hs
    intro x hx
    rcases mem_of_mem_kept hx with hx | ⟨rfl, _⟩
    · exact normal_of_mem_flatMap h x hx
    · trivial

/-- A join fails exactly when one of the joined types does. -/
theorem join_eq_error {ts : List Ty} (h : ∀ t ∈ ts, Normal t) : join ts = error ↔ error ∈ ts := by
  rcases join_cases h with ⟨he, hj⟩ | ⟨he, _, hj⟩ | ⟨he, _, hs, hj⟩
  · simp [hj, he]
  · simp [hj, he]
  · refine iff_of_false ?_ he
    intro hje
    have hne : kept (ts.flatMap members) ≠ [] := by
      intro hnil
      rw [hj, hnil] at hje
      exact Ty.noConfusion hje
    have hmembers := hs.members_ofMembers hne
    rw [← hj, hje] at hmembers
    have hk := hs.single error (hmembers ▸ List.mem_cons_self)
    exact Bool.noConfusion hk

/-- What passes down and holds of the members of a join holds of the members of every joined
type, the empty one apart. -/
theorem forall_of_join {p : Ty → Prop} (hdown : PassesDown p) {ts : List Ty}
    (h : ∀ t ∈ ts, Normal t) (herror : join ts ≠ error) (hmixed : join ts ≠ mixed)
    (hp : ∀ m ∈ (join ts).members, p m) : ∀ t ∈ ts, ∀ m ∈ t.members, m ≠ never → p m := by
  intro t ht m hm hnever
  rcases join_cases h with ⟨_, hj⟩ | ⟨_, _, hj⟩ | ⟨he, hx, hs, hj⟩
  · exact absurd hj herror
  · exact absurd hj hmixed
  · have hkept : ∀ k ∈ kept (ts.flatMap members), p k := by
      intro k hk
      have hmembers := hs.members_ofMembers (List.ne_nil_of_mem hk)
      exact hp k (by rw [hj, hmembers]; exact hk)
    have hflat := forall_of_kept hdown rfl (isSingle_of_mem_flatMap h he hx) hkept
    apply hflat m (mem_flatMap_members.mpr ⟨t, ht, hm⟩)
    cases hn : m.isNever with
    | false => rfl
    | true => exact absurd (isNever_iff.mp hn) hnever

/-- What holds of all members of the joined types holds of the members of their join, if it holds
of the empty type and passes from the two truth constants to the truth values. -/
theorem forall_members_join {p : Ty → Prop} {ts : List Ty} (hn : ∀ t ∈ ts, Normal t)
    (hnever : p never) (hbool : (∀ b, p (constant (.bool b))) → p bool)
    (h : ∀ t ∈ ts, ∀ m ∈ t.members, p m) : ∀ m ∈ (join ts).members, p m := by
  rcases join_cases hn with ⟨he, hj⟩ | ⟨_, hm, hj⟩ | ⟨_, _, hs, hj⟩
  · rw [hj]
    exact h error he
  · rw [hj]
    exact h mixed hm
  · rw [hj]
    by_cases hnil : kept (ts.flatMap members) = []
    · rw [hnil]
      exact List.forall_mem_singleton.mpr hnever
    · have hflat : ∀ m ∈ ts.flatMap members, p m := List.forall_mem_flatMap.mpr h
      rw [hs.members_ofMembers hnil]
      intro m hm
      rcases mem_of_mem_kept hm with hm | ⟨rfl, htruths⟩
      · exact hflat m hm
      · exact hbool fun b => hflat _ (htruths b)

/-- A scan of types that stand apart keeps all of them in their order. -/
theorem foldl_keep_of_apart {ts kept : List Ty} (hnever : ∀ t ∈ ts, t.isNever = false)
    (hapart : (kept ++ ts).Pairwise Apart) : ts.foldl keep kept = kept ++ ts := by
  induction ts generalizing kept with
  | nil => simp
  | cons t ts ih =>
    have hcross : ∀ k ∈ kept, Apart k t := fun k hk =>
      (List.pairwise_append.mp hapart).2.2 k hk t List.mem_cons_self
    have hany : kept.any (fun k => includes k t) = false := by
      rw [List.any_eq_false]
      intro k hk hi
      rw [(hcross k hk).1] at hi
      exact Bool.noConfusion hi
    have hall : ∀ k ∈ kept, (!includes t k) = true := by
      intro k hk
      rw [(hcross k hk).2]
      rfl
    have hstep : keep kept t = kept ++ [t] := by
      rw [keep, hnever t List.mem_cons_self, hany, overwrite, List.takeWhile_eq_self_iff.mpr hall,
        List.dropWhile_eq_nil_iff.mpr hall]
      rfl
    rw [List.foldl_cons, hstep, ih (fun u hu => hnever u (List.mem_cons_of_mem t hu)),
      List.append_assoc, List.singleton_append]
    rw [List.append_assoc, List.singleton_append]
    exact hapart

/-- Types of which none is a union are the members that they have together. -/
theorem flatMap_members {ts : List Ty} (h : ∀ t ∈ ts, t.isUnion = false) :
    ts.flatMap members = ts := by
  have hmembers : ∀ t ∈ ts, members t = [t] := fun t ht => members_of_not_union (h t ht)
  rw [List.flatMap_congr hmembers, List.flatMap_singleton']

/-- Joining separate types gives the type of these members. -/
theorem join_of_separate {ts : List Ty} (h : Separate ts) : join ts = ofMembers ts := by
  have hflat : ts.flatMap members = ts :=
    flatMap_members fun t ht => isUnion_of_isSingle (h.single t ht)
  have herror : ts.any isError = false := by
    rw [List.any_eq_false]
    intro t ht he
    have hs := h.single t ht
    rw [isError_iff.mp he] at hs
    exact Bool.noConfusion hs
  have hmixed : ts.any isMixed = false := by
    rw [List.any_eq_false]
    intro t ht he
    have hs := h.single t ht
    rw [isMixed_iff.mp he] at hs
    exact Bool.noConfusion hs
  have hscan : ts.foldl keep [] = ts :=
    foldl_keep_of_apart (fun t ht => isNever_of_isSingle (h.single t ht)) h.apart
  have hkept : kept ts = ts := by
    have hnot : ¬ (ts.any (isTruth true) && ts.any (isTruth false)) = true := by
      rw [Bool.and_eq_true_iff]
      exact h.oneTruth
    rw [kept, hscan, mergeTruths, if_neg hnot]
  rw [join, hflat, herror, hmixed, hkept]
  rfl

/-- Taking null out of a union in normal form leaves the other members. -/
theorem withoutNull_union {ts : List Ty} (h : Normal (union ts)) :
    withoutNull (union ts) = ofMembers (ts.filter fun t => !t.isNull) :=
  join_of_separate ((normal_union.mp h).2.2.sublist List.filter_sublist)

/-- A type without null is in normal form when the type is. -/
theorem normal_withoutNull {t : Ty} (h : Normal t) : Normal (withoutNull t) := by
  cases t with
  | union ts =>
    apply normal_join
    intro t ht
    exact (normal_union.mp h).1 t (List.mem_of_mem_filter ht)
  | kind k => cases k <;> trivial
  | _ => exact h

/-- Taking null out makes no failure. -/
theorem withoutNull_eq_error {t : Ty} (h : Normal t) : withoutNull t = error ↔ t = error := by
  cases t with
  | union ts =>
    have hnormal : ∀ t ∈ ts.filter (fun t => !t.isNull), Normal t := fun t ht =>
      (normal_union.mp h).1 t (List.mem_of_mem_filter ht)
    have herror : error ∉ ts := fun hm => Bool.noConfusion ((normal_union.mp h).2.2.single _ hm)
    rw [withoutNull, join_eq_error hnormal, List.mem_filter]
    simp [herror]
  | kind k => cases k <;> simp [withoutNull]
  | _ => simp [withoutNull]

/-- The members of a type without null are members of the type, unless nothing is left. -/
theorem mem_of_mem_withoutNull {t m : Ty} (h : Normal t) (hm : m ∈ (withoutNull t).members)
    (hnever : withoutNull t ≠ never) : m ∈ t.members ∧ m.isNull = false := by
  cases t with
  | union ts =>
    have hs := (normal_union.mp h).2.2
    rw [withoutNull_union h] at hm hnever
    have hne : ts.filter (fun t => !t.isNull) ≠ [] := by
      intro hnil
      rw [hnil] at hnever
      exact hnever rfl
    rw [(hs.sublist List.filter_sublist).members_ofMembers hne, List.mem_filter] at hm
    exact ⟨hm.1, by simpa using hm.2⟩
  | kind k =>
    cases k with
    | null => exact absurd rfl hnever
    | _ => exact ⟨hm, List.mem_singleton.mp hm ▸ rfl⟩
  | _ => exact ⟨hm, List.mem_singleton.mp hm ▸ rfl⟩

end OperatorLint.Ty
