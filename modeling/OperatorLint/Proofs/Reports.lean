import OperatorLint.Proofs.Decision
import OperatorLint.Proofs.Placement
import OperatorLint.Proofs.Threading
import OperatorLint.Proofs.Units

/-!
# The place of a report

Only operations are reported, each at most once and at its own place. In statements that are laid
out no two operations have one place: they stand apart, or one of them stands inside the other and
is shorter. So the place of a report tells which operation it is about, and sorting by the start
alone leaves the reports strictly in order: where two start together the one about the inner
operation was made first, and sorting keeps it first.
-/

namespace OperatorLint

/-- The first span starts before the second, or starts with it and is shorter. -/
def Span.Precedes (s t : Span) : Prop := s.start < t.start ∨ s.start = t.start ∧ s.length < t.length

/-- A span does not precede itself. -/
theorem Span.Precedes.ne {s t : Span} (h : s.Precedes t) : s ≠ t := by
  rintro rfl
  rcases h with h | ⟨_, h⟩
  · exact Nat.lt_irrefl _ h
  · exact Nat.lt_irrefl _ h

namespace Expr

variable {α : Type}

/-- What stands inside an operation is shorter: the other operand has some text too. -/
theorem length_lt_of_inside {u v : Expr Origin} (hplaced : ∀ n ∈ v.postorder, WellPlaced n)
    (hv : v.isOperation = true) (h : Inside u v) : u.range.length < v.range.length := by
  cases v with
  | var | constant | null | list | paren => exact Bool.noConfusion hv
  | binary tag left op right =>
    have hwhole := hplaced _ (self_mem_postorder _)
    have hleft := hwhole.contains left List.mem_cons_self
    have hright := hwhole.contains right (List.mem_cons_of_mem _ List.mem_cons_self)
    have hapart : left.range.stop < right.range.pos :=
      List.rel_of_pairwise_cons hwhole.apart List.mem_cons_self
    have hparts : ∀ c ∈ [left, right], WellPlaced c ∧
        ∀ n ∈ c.postorder, c.range.pos ≤ n.range.pos ∧ n.range.stop ≤ c.range.stop := by
      intro c hc
      have hnodes : ∀ n ∈ c.postorder, WellPlaced n := fun n hn =>
        hplaced n (Inside.mem_postorder ⟨c, hc, hn⟩)
      exact ⟨hnodes c (self_mem_postorder c), range_of_mem_postorder hnodes⟩
    obtain ⟨⟨hl, hinleft⟩, hrest⟩ := List.forall_mem_cons.mp hparts
    obtain ⟨hr, hinright⟩ := List.forall_mem_singleton.mp hrest
    have hlpos := hl.nonempty
    have hrpos := hr.nonempty
    obtain ⟨c, hc, hu⟩ := h
    rw [Range.length, Range.length]
    rcases List.mem_cons.mp hc with rfl | hc
    · have hu := hinleft u hu
      omega
    · rw [List.mem_singleton.mp hc] at hu
      have hu := hinright u hu
      omega

end Expr

namespace Statement

variable {α : Type}

/-- Laying a statement out lays its expression out. -/
theorem value_place (s : Statement α) (offset : Nat) :
    (s.place offset).1.value = (s.value.place offset).1 := by
  cases s <;> rfl

/-- What follows a statement follows its expression. -/
theorem value_place_snd_le (s : Statement α) (offset : Nat) :
    (s.value.place offset).2 ≤ (s.place offset).2 := by
  cases s with
  | expression tag value => exact Nat.le_refl _
  | assign tag targetTag target value =>
    change (value.place offset).2 ≤ (value.place offset).2 + Expr.varWidth target + 1
    omega

/-- The expressions of statements that are laid out stand apart, none of them before the offset, and
their nodes are well placed. -/
theorem values_placeEach (ss : List (Statement α)) (offset : Nat) :
    (∀ e ∈ (placeEach ss offset).1.map value, offset ≤ e.range.pos) ∧
      ((placeEach ss offset).1.map value).Pairwise (fun d e => d.range.stop < e.range.pos) ∧
        ∀ e ∈ (placeEach ss offset).1.map value, ∀ n ∈ e.postorder, n.WellPlaced := by
  induction ss generalizing offset with
  | nil => exact ⟨List.forall_mem_nil _, List.Pairwise.nil, List.forall_mem_nil _⟩
  | cons s ss ih =>
    obtain ⟨hstart, hapart, hplaced⟩ := ih (s.place offset).2
    obtain ⟨hpos, hnonempty, hstop⟩ := Expr.Row.singleton_iff.mp (s.value.row_place offset)
    have hnext := s.value_place_snd_le offset
    rw [placeEach, List.map_cons, value_place, List.forall_mem_cons, List.pairwise_cons,
      List.forall_mem_cons]
    refine ⟨⟨hpos.ge, fun e he => ?_⟩, ⟨fun e he => ?_, hapart⟩, ?_, hplaced⟩
    · have he := hstart e he
      omega
    · have he := hstart e he
      omega
    · exact s.value.wellPlaced_of_mem_place offset

/-- The operations in statements, in the order in which they are done. -/
def operations (ss : List (Statement α)) : List (Expr α) :=
  (Expr.postorderEach (ss.map value)).filter Expr.isOperation

/-- Of two operations in statements that are laid out, in the order in which they are done, the
first starts before the second, or it stands inside the second and is shorter. -/
theorem pairwise_operations (ss : List (Statement α)) (offset : Nat) :
    (operations (placeEach ss offset).1).Pairwise fun m n =>
      m.range.pos < n.range.pos ∨ m.Inside n ∧ m.range.length < n.range.length := by
  obtain ⟨_, hapart, hplaced⟩ := values_placeEach ss offset
  have hwalk := Expr.pairwise_postorderEach_of hplaced hapart fun e he =>
    Expr.pairwise_postorder (hplaced e he)
  refine (hwalk.filter Expr.isOperation).imp_of_mem ?_
  intro m n hm hn hmn
  obtain ⟨hm, _⟩ := List.mem_filter.mp hm
  obtain ⟨hn, hoperation⟩ := List.mem_filter.mp hn
  rcases hmn with hapart | hinside
  · obtain ⟨d, hd, hm⟩ := Expr.mem_postorderEach.mp hm
    have hnonempty := (hplaced d hd m hm).nonempty
    exact Or.inl (by omega)
  · obtain ⟨e, he, hn⟩ := Expr.mem_postorderEach.mp hn
    have hlength := Expr.length_lt_of_inside
      (fun k hk => hplaced e he k (Expr.postorder_subset hn hk)) hoperation hinside
    exact Or.inr ⟨hinside, hlength⟩

end Statement

namespace Checker

variable (settings : Settings) {scope : Scope}

/-- An offer is reported at most once, at the place of its expression, and only if that is an
operation. -/
theorem span_report_sublist (o : Offer) :
    (((ofSettings settings).report o).map Diagnostic.span).Sublist
      (([o.expr].filter Expr.isOperation).map fun n => some n.range.toSpan) := by
  obtain ⟨scope, e⟩ := o
  rw [report_ofSettings]
  split
  · cases e with
    | var | constant | null | list | paren => exact List.Sublist.refl _
    | binary origin left op right =>
      rw [Rule.report, Operands.inspect_binary]
      split
      · exact List.Sublist.refl _
      · exact List.nil_sublist _
  · exact List.nil_sublist _

/-- What is reported at a list of offers stands at the places of the operations among them, in their
order. -/
theorem span_flatMap_report_sublist (os : List Offer) :
    ((os.flatMap (ofSettings settings).report).map Diagnostic.span).Sublist
      (((os.map Offer.expr).filter Expr.isOperation).map fun n => some n.range.toSpan) := by
  induction os with
  | nil => exact List.Sublist.refl _
  | cons o os ih =>
    rw [List.flatMap_cons, List.map_append, List.map_cons, ← List.singleton_append,
      List.filter_append, List.map_append]
    exact (span_report_sublist settings o).append ih

/-- What is reported in statements stands at the places of their operations, in their order. -/
theorem span_checkAll_sublist (ss : List (Statement Origin)) :
    (((ofSettings settings).checkAll scope ss).map Diagnostic.span).Sublist
      ((Statement.operations ss).map fun n => some n.range.toSpan) := by
  induction ss generalizing scope with
  | nil => exact List.Sublist.refl _
  | cons s ss ih =>
    have hfirst : (((ofSettings settings).checkStatement scope s).1.map Diagnostic.span).Sublist
        ((s.value.postorder.filter Expr.isOperation).map fun n => some n.range.toSpan) := by
      have hoffers := span_flatMap_report_sublist settings
        (offers (ofSettings settings).oracle scope s.value).1
      rw [exprs_offers] at hoffers
      cases s <;> exact hoffers
    rw [checkAll_cons, List.map_append, Statement.operations, List.map_cons, Expr.postorderEach,
      List.filter_append, List.map_append]
    exact hfirst.append ih

end Checker

namespace AnalysisUnit

variable {α : Type} (settings : Settings)

/-- The unit of statements that are laid out from an offset on. -/
def laidOut (file : String) (scope : Scope) (ss : List (Statement α)) (offset : Nat) :
    AnalysisUnit := ⟨file, scope, (Statement.placeEach ss offset).1⟩

/-- The finding is about an operation of the unit and stands at its place. -/
def About (u : AnalysisUnit) (d : Diagnostic) (n : Expr Origin) : Prop :=
  n ∈ Statement.operations u.statements ∧ d.span = some n.range.toSpan

/-- A finding is sorted by the start of the operation that it is about. -/
theorem About.offset_eq {u : AnalysisUnit} {d : Diagnostic} {n : Expr Origin}
    (h : u.About d n) : d.offset = n.range.pos := by
  rw [Diagnostic.offset, h.2]
  rfl

/-- The findings in a unit stand at the places of its operations, in their order. -/
theorem span_findings_sublist (u : AnalysisUnit) :
    ((u.findings (.ofSettings settings)).map Diagnostic.span).Sublist
      ((Statement.operations u.statements).map fun n => some n.range.toSpan) := by
  rw [findings, List.map_map]
  exact Checker.span_checkAll_sublist settings u.statements

/-- Every finding in a unit is about one of its operations. -/
theorem exists_about {u : AnalysisUnit} {d : Diagnostic}
    (h : d ∈ u.findings (.ofSettings settings)) : ∃ n, u.About d n := by
  have hspan := (span_findings_sublist settings u).subset (List.mem_map_of_mem h)
  obtain ⟨n, hn, hd⟩ := List.mem_map.mp hspan
  exact ⟨n, hn, hd.symm⟩

/-- What holds of any two operations of a unit, in the order in which they are done, holds of those
that any two findings are about, in the order in which they are made. -/
theorem pairwise_findings_of {u : AnalysisUnit} {R : Expr Origin → Expr Origin → Prop}
    (h : (Statement.operations u.statements).Pairwise R) :
    (u.findings (.ofSettings settings)).Pairwise fun a b =>
      ∃ m n, u.About a m ∧ u.About b n ∧ R m n := by
  obtain ⟨reported, hsub, hspans⟩ := List.sublist_map_iff.mp (span_findings_sublist settings u)
  have hreported : (reported.map fun n => some n.range.toSpan).Pairwise fun s t =>
      ∃ m n, (m ∈ Statement.operations u.statements ∧ s = some m.range.toSpan) ∧
        (n ∈ Statement.operations u.statements ∧ t = some n.range.toSpan) ∧ R m n := by
    rw [List.pairwise_map]
    refine (h.sublist hsub).imp_of_mem ?_
    intro m n hm hn hmn
    exact ⟨m, n, ⟨hsub.subset hm, rfl⟩, ⟨hsub.subset hn, rfl⟩, hmn⟩
  rw [← hspans, List.pairwise_map] at hreported
  exact hreported

/-- In a unit that is laid out a finding is about one operation only. -/
theorem About.unique {file : String} {scope : Scope} {ss : List (Statement α)} {offset : Nat}
    {d : Diagnostic} {m n : Expr Origin} (hm : (laidOut file scope ss offset).About d m)
    (hn : (laidOut file scope ss offset).About d n) : m = n := by
  have hplaces : ((Statement.operations (laidOut file scope ss offset).statements).map
      fun n => n.range.toSpan).Nodup := by
    rw [List.Nodup, List.pairwise_map]
    refine (Statement.pairwise_operations ss offset).imp ?_
    intro k l hkl heq
    have hstart : k.range.pos = l.range.pos := congrArg Span.start heq
    have hlength : k.range.length = l.range.length := congrArg Span.length heq
    rcases hkl with hkl | ⟨_, hkl⟩
    · omega
    · omega
  have hspan : m.range.toSpan = n.range.toSpan := Option.some.inj (hm.2.symm.trans hn.2)
  exact List.inj_on_of_nodup_map hplaces hm.1 hn.1 hspan

/-- The first finding is about an operation whose place precedes that of the operation that the
second is about; where they start together it stands inside it. -/
def Leads (u : AnalysisUnit) (a b : Diagnostic) : Prop :=
  ∃ m n, u.About a m ∧ u.About b n ∧ m.range.toSpan.Precedes n.range.toSpan ∧
    (m.range.toSpan.start = n.range.toSpan.start → m.Inside n)

/-- The sorted findings in a unit that is laid out lead one to the next. Sorting leaves findings
that start together as they were made. -/
theorem pairwise_leads (file : String) (scope : Scope) (ss : List (Statement α)) (offset : Nat) :
    (Diagnostic.sort ((laidOut file scope ss offset).findings (.ofSettings settings))).Pairwise
      (laidOut file scope ss offset).Leads := by
  have hmade : ((laidOut file scope ss offset).findings (.ofSettings settings)).Pairwise
      fun a b => ∃ m n, (laidOut file scope ss offset).About a m ∧
        (laidOut file scope ss offset).About b n ∧
          (m.range.pos < n.range.pos ∨ m.Inside n ∧ m.range.length < n.range.length) :=
    pairwise_findings_of settings (Statement.pairwise_operations ss offset)
  refine (Diagnostic.pairwise_sort_of hmade).imp_of_mem ?_
  intro a b ha hb hab
  obtain ⟨hbefore, hsame⟩ := hab
  have ha := (Diagnostic.sort_perm _).mem_iff.mp ha
  have hb := (Diagnostic.sort_perm _).mem_iff.mp hb
  have hfile : a.file = b.file := (file_of_mem_findings ha).trans (file_of_mem_findings hb).symm
  obtain ⟨m, hm⟩ := exists_about settings ha
  obtain ⟨n, hn⟩ := exists_about settings hb
  have hle : m.range.pos ≤ n.range.pos := by
    rw [← hm.offset_eq, ← hn.offset_eq]
    exact (Diagnostic.before_iff.mp hbefore).2 hfile
  rcases Nat.lt_or_eq_of_le hle with hlt | heq
  · exact ⟨m, n, hm, hn, Or.inl hlt, fun hstart => absurd hstart hlt.ne⟩
  · have hposition : a.position = b.position := by
      rw [Diagnostic.position, Diagnostic.position, hfile, hm.offset_eq, hn.offset_eq, heq]
    obtain ⟨k, l, hk, hl, hkl⟩ := hsame hposition
    rw [hk.unique hm, hl.unique hn] at hkl
    rcases hkl with hlt | ⟨hinside, hlength⟩
    · exact absurd heq hlt.ne
    · exact ⟨m, n, hm, hn, Or.inr ⟨heq, hlength⟩, fun _ => hinside⟩

end AnalysisUnit

/-- When a unit that is laid out is analysed alone, each finding is about exactly one of its
operations and stands at its place; these places follow one another strictly, and of two that start
together the first belongs to the inner operation; so no place is reported twice. -/
theorem analyse_laidOut {α : Type} (settings : Settings) (file : String) (scope : Scope)
    (ss : List (Statement α)) (offset : Nat) :
    (∀ d ∈ analyse settings [.laidOut file scope ss offset],
      ∃! n, (AnalysisUnit.laidOut file scope ss offset).About d n) ∧
      (analyse settings [.laidOut file scope ss offset]).Pairwise
        (AnalysisUnit.laidOut file scope ss offset).Leads ∧
        ((analyse settings [.laidOut file scope ss offset]).map Diagnostic.span).Nodup := by
  rw [analyse_singleton]
  have hleads := AnalysisUnit.pairwise_leads settings file scope ss offset
  refine ⟨?_, hleads, ?_⟩
  · intro d hd
    obtain ⟨n, hn⟩ := AnalysisUnit.exists_about settings ((Diagnostic.sort_perm _).mem_iff.mp hd)
    exact ⟨n, hn, fun m hm => hm.unique hn⟩
  · rw [List.Nodup, List.pairwise_map]
    refine hleads.imp ?_
    rintro a b ⟨m, n, hm, hn, hprecedes, _⟩ heq
    rw [hm.2, hn.2] at heq
    exact hprecedes.ne (Option.some.inj heq)

/-- Two reports that start together: `'a' - 1` is compared with `null`, and `[]` is subtracted from
that. -/
example : ((AnalysisUnit.laidOut "a" .empty [.expression () (.binary () (.binary () (.binary ()
      (.constant () (.string "a")) (.compute .minus) (.constant () (.int 1)))
        (.compare .equal) (.null ())) (.compute .minus) (.list () []))] 0).findings
          (.ofSettings .default)).map Diagnostic.span = [some ⟨0, 5⟩, some ⟨0, 13⟩] := by
  decide +kernel

end OperatorLint
