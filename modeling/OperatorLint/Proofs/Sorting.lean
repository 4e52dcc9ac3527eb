import OperatorLint.Diagnostic

/-!
# The order of findings

Findings are sorted by their position: the file first, none before any, and then the offset. Two
findings can stand at one position, so the order is total but does not tell all findings apart; what
decides between them is that sorting keeps the findings of each position in the order in which they
came. Together the two determine the sorted list, so a part of the findings is sorted as it stands
among all of them, and what holds of the findings of a position as they came holds of them sorted.
-/

namespace OperatorLint.Diagnostic

/-- What findings are sorted by: the file and the offset. -/
def position (d : Diagnostic) : Option String × Nat := (d.file, d.offset)

/-- A file does not have to stand after itself. -/
theorem fileBefore_refl (f : Option String) : fileBefore f f = true := by
  cases f with
  | none => rfl
  | some f => exact decide_eq_true (String.le_refl f)

/-- Of two files one does not have to stand after the other. -/
theorem fileBefore_total (f g : Option String) :
    fileBefore f g = true ∨ fileBefore g f = true := by
  cases f with
  | none => exact Or.inl rfl
  | some f =>
    cases g with
    | none => exact Or.inr rfl
    | some g => exact (String.le_total f g).imp decide_eq_true decide_eq_true

/-- The order of files is transitive. -/
theorem fileBefore_trans {f g h : Option String} (hfg : fileBefore f g = true)
    (hgh : fileBefore g h = true) : fileBefore f h = true := by
  cases f with
  | none => rfl
  | some f =>
    cases g with
    | none => exact Bool.noConfusion hfg
    | some g =>
      cases h with
      | none => exact Bool.noConfusion hgh
      | some h =>
        exact decide_eq_true (String.le_trans (of_decide_eq_true hfg) (of_decide_eq_true hgh))

/-- Different files stand in one order only. -/
theorem fileBefore_antisymm {f g : Option String} (hfg : fileBefore f g = true)
    (hgf : fileBefore g f = true) : f = g := by
  cases f with
  | none =>
    cases g with
    | none => rfl
    | some g => exact Bool.noConfusion hgf
  | some f =>
    cases g with
    | none => exact Bool.noConfusion hfg
    | some g =>
      exact congrArg some (String.le_antisymm (of_decide_eq_true hfg) (of_decide_eq_true hgf))

variable {a b : Diagnostic}

/-- Findings stand in the order of their files, and those in one file in the order of their
offsets. -/
theorem before_iff : before a b = true ↔
    fileBefore a.file b.file = true ∧ (a.file = b.file → a.offset ≤ b.offset) := by
  unfold before
  split
  · next h => simp [h, fileBefore_refl]
  · next h => simp [h]

/-- The order of findings is transitive. -/
theorem before_trans (a b c : Diagnostic) (hab : before a b = true) (hbc : before b c = true) :
    before a c = true := by
  rw [before_iff] at hab hbc ⊢
  refine ⟨fileBefore_trans hab.1 hbc.1, fun hac => ?_⟩
  have hfile : a.file = b.file := fileBefore_antisymm hab.1 (hac ▸ hbc.1)
  exact Nat.le_trans (hab.2 hfile) (hbc.2 (hfile.symm.trans hac))

/-- Of two findings one does not have to stand after the other. -/
theorem before_total (a b : Diagnostic) : (before a b || before b a) = true := by
  rw [Bool.or_eq_true, before_iff, before_iff]
  by_cases hfile : a.file = b.file
  · rcases Nat.le_total a.offset b.offset with hle | hle
    · exact Or.inl ⟨hfile ▸ fileBefore_refl _, fun _ => hle⟩
    · exact Or.inr ⟨hfile ▸ fileBefore_refl _, fun _ => hle⟩
  · refine (fileBefore_total a.file b.file).imp ?_ ?_
    · exact fun h => ⟨h, fun heq => absurd heq hfile⟩
    · exact fun h => ⟨h, fun heq => absurd heq.symm hfile⟩

/-- Findings that can stand in both orders have one position. -/
theorem position_eq_of_before (hab : before a b = true) (hba : before b a = true) :
    a.position = b.position := by
  rw [before_iff] at hab hba
  have hfile : a.file = b.file := fileBefore_antisymm hab.1 hba.1
  have hoffset : a.offset = b.offset := Nat.le_antisymm (hab.2 hfile) (hba.2 hfile.symm)
  rw [position, position, hfile, hoffset]

/-- Findings of one position can stand in both orders. -/
theorem before_of_position_eq (h : a.position = b.position) : before a b = true := by
  obtain ⟨hfile, hoffset⟩ := Prod.mk.inj h
  exact before_iff.mpr ⟨hfile ▸ fileBefore_refl _, fun _ => Nat.le_of_eq hoffset⟩

/-- The findings of a list that have a position, in their order. -/
def atPosition (p : Option String × Nat) (ds : List Diagnostic) : List Diagnostic :=
  ds.filter fun d => d.position = p

/-- What stands at a position of a list stands in the list and has the position. -/
theorem mem_atPosition {p : Option String × Nat} {ds : List Diagnostic} :
    a ∈ atPosition p ds ↔ a ∈ ds ∧ a.position = p := by
  simp [atPosition]

/-- Sorted findings stand in their order. -/
theorem pairwise_sort (ds : List Diagnostic) :
    (sort ds).Pairwise fun a b => before a b = true :=
  List.pairwise_mergeSort before_trans before_total ds

/-- Sorting keeps the findings of a position, in the order in which they came. -/
theorem atPosition_sort (p : Option String × Nat) (ds : List Diagnostic) :
    atPosition p (sort ds) = atPosition p ds := by
  have hordered : (atPosition p ds).Pairwise fun a b => before a b = true := by
    apply List.pairwise_of_forall_mem_list
    intro a ha b hb
    exact before_of_position_eq ((mem_atPosition.mp ha).2.trans (mem_atPosition.mp hb).2.symm)
  have hsorted : (atPosition p ds).Sublist (sort ds) :=
    List.sublist_mergeSort before_trans before_total hordered List.filter_sublist
  have hagain : atPosition p (atPosition p ds) = atPosition p ds :=
    List.filter_eq_self.mpr fun d hd => decide_eq_true (mem_atPosition.mp hd).2
  have hsublist : (atPosition p ds).Sublist (atPosition p (sort ds)) := by
    have hfilter : (atPosition p (atPosition p ds)).Sublist (atPosition p (sort ds)) :=
      hsorted.filter _
    rwa [hagain] at hfilter
  have hlength : (atPosition p ds).length = (atPosition p (sort ds)).length :=
    (((sort_perm ds).filter _).length_eq).symm
  exact (hsublist.eq_of_length hlength).symm

/-- Lists with the same findings at every position have the same findings. -/
theorem mem_iff_of_atPosition {ds es : List Diagnostic}
    (h : ∀ p, atPosition p ds = atPosition p es) (d : Diagnostic) : d ∈ ds ↔ d ∈ es := by
  have hd : d ∈ atPosition d.position ds ↔ d ∈ atPosition d.position es := by
    rw [h d.position]
  simpa [mem_atPosition] using hd

/-- Lists in order that have the same findings at every position, in the same order, are the
same. -/
theorem eq_of_atPosition {ds es : List Diagnostic}
    (hds : ds.Pairwise fun a b => before a b = true)
    (hes : es.Pairwise fun a b => before a b = true)
    (h : ∀ p, atPosition p ds = atPosition p es) : ds = es := by
  induction ds generalizing es with
  | nil =>
    rw [eq_comm, List.eq_nil_iff_forall_not_mem]
    exact fun e he => List.not_mem_nil ((mem_iff_of_atPosition h e).mpr he)
  | cons d ds ih =>
    cases es with
    | nil => exact absurd ((mem_iff_of_atPosition h d).mp List.mem_cons_self) List.not_mem_nil
    | cons e es =>
      obtain ⟨hfirst, hrest⟩ := List.pairwise_cons.mp hds
      obtain ⟨hfirst', hrest'⟩ := List.pairwise_cons.mp hes
      have hde : before d e = true := by
        rcases List.mem_cons.mp ((mem_iff_of_atPosition h e).mpr List.mem_cons_self) with rfl | he
        · exact before_of_position_eq rfl
        · exact hfirst e he
      have hed : before e d = true := by
        rcases List.mem_cons.mp ((mem_iff_of_atPosition h d).mp List.mem_cons_self) with rfl | hd
        · exact before_of_position_eq rfl
        · exact hfirst' d hd
      have hposition : d.position = e.position := position_eq_of_before hde hed
      have hhead : d = e := by
        have hp := h e.position
        simp only [atPosition, List.filter_cons, hposition, decide_true, if_true] at hp
        exact (List.cons_eq_cons.mp hp).1
      subst hhead
      have htail : ds = es := by
        apply ih hrest hrest'
        intro p
        have hp := h p
        simp only [atPosition, List.filter_cons] at hp ⊢
        split at hp
        · exact (List.cons_eq_cons.mp hp).2
        · exact hp
      rw [htail]

/-- Lists with the same findings at every position, in the same order, are sorted alike. -/
theorem sort_congr {ds es : List Diagnostic} (h : ∀ p, atPosition p ds = atPosition p es) :
    sort ds = sort es := by
  apply eq_of_atPosition (pairwise_sort ds) (pairwise_sort es)
  intro p
  rw [atPosition_sort, atPosition_sort, h p]

/-- A part of the findings is sorted as it stands among all of them. -/
theorem filter_sort (keep : Diagnostic → Bool) (ds : List Diagnostic) :
    (sort ds).filter keep = sort (ds.filter keep) := by
  have hordered : ((sort ds).filter keep).Pairwise fun a b => before a b = true :=
    (pairwise_sort ds).filter _
  have hcomm (p : Option String × Nat) (es : List Diagnostic) :
      atPosition p (es.filter keep) = (atPosition p es).filter keep := by
    rw [atPosition, atPosition, List.filter_filter, List.filter_filter]
    simp only [Bool.and_comm]
  apply eq_of_atPosition hordered (pairwise_sort _)
  intro p
  rw [atPosition_sort, hcomm, hcomm, atPosition_sort]

/-- What holds of any two findings of a list as they come one after the other holds of them sorted,
where they have one position. -/
theorem pairwise_sort_of {R : Diagnostic → Diagnostic → Prop} {ds : List Diagnostic}
    (h : ds.Pairwise R) :
    (sort ds).Pairwise fun a b => before a b = true ∧ (a.position = b.position → R a b) := by
  refine (pairwise_sort ds).and ?_
  rw [List.pairwise_iff_forall_sublist] at h ⊢
  intro a b hab hposition
  apply h
  have hpair : atPosition b.position [a, b] = [a, b] := by simp [atPosition, hposition]
  have hsub : (atPosition b.position [a, b]).Sublist (atPosition b.position (sort ds)) :=
    hab.filter _
  rw [hpair, atPosition_sort] at hsub
  exact hsub.trans List.filter_sublist

end OperatorLint.Diagnostic
