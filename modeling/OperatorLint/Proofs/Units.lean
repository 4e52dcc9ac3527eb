import OperatorLint.Analysis
import OperatorLint.Expr.Placement
import OperatorLint.Proofs.Sorting

/-!
# Units by themselves

Every finding carries the name of the file that its unit was read from. So where no two units come
from one file, what is found in a file is what its unit yields when it is analysed alone, and the
order in which the units are given does not show: it could decide only between findings of one
position, and those are findings of one unit.
-/

namespace OperatorLint

/-- The finding was made in a file. -/
def Diagnostic.inFile (file : String) (d : Diagnostic) : Bool := d.file = some file

/-- What stands at a position of a list is made in the file of the position. -/
theorem Diagnostic.atPosition_some (file : String) (offset : Nat) (ds : List Diagnostic) :
    atPosition (some file, offset) ds =
      atPosition (some file, offset) (ds.filter (inFile file)) := by
  rw [atPosition, atPosition, List.filter_filter]
  apply List.filter_congr
  intro d _
  by_cases hfile : d.file = some file
  · simp [inFile, hfile]
  · simp [position, hfile]

namespace AnalysisUnit

variable {c : Checker} {u : AnalysisUnit} {units units' : List AnalysisUnit}

/-- The findings of a unit carry the name of its file. -/
theorem file_of_mem_findings {d : Diagnostic} (h : d ∈ u.findings c) : d.file = some u.file := by
  obtain ⟨found, _, rfl⟩ := List.mem_map.mp h
  rfl

/-- Of the findings of a unit all are made in its file, and none in any other. -/
theorem filter_inFile_findings (file : String) :
    (u.findings c).filter (Diagnostic.inFile file) =
      if u.file = file then u.findings c else [] := by
  split
  · next h =>
    rw [List.filter_eq_self]
    intro d hd
    exact decide_eq_true ((file_of_mem_findings hd).trans (congrArg some h))
  · next h =>
    rw [List.filter_eq_nil_iff]
    intro d hd hin
    exact h (Option.some.inj ((file_of_mem_findings hd).symm.trans (of_decide_eq_true hin)))

/-- The findings made in a file are those of the units read from it. -/
theorem filter_inFile_flatMap (file : String) (units : List AnalysisUnit) :
    (units.flatMap fun u => u.findings c).filter (Diagnostic.inFile file) =
      (units.filter fun u => u.file = file).flatMap fun u => u.findings c := by
  induction units with
  | nil => rfl
  | cons u units ih =>
    rw [List.flatMap_cons, List.filter_append, ih, filter_inFile_findings, List.filter_cons]
    by_cases hfile : u.file = file
    · simp [hfile]
    · simp [hfile]

/-- Where no two units come from one file, a unit is the only one from its file. -/
theorem filter_file_eq_singleton (hfiles : (units.map file).Nodup) (hu : u ∈ units) :
    (units.filter fun v => v.file = u.file) = [u] := by
  induction units with
  | nil => exact absurd hu List.not_mem_nil
  | cons v vs ih =>
    obtain ⟨hv, hvs⟩ := List.nodup_cons.mp hfiles
    rcases List.mem_cons.mp hu with rfl | hu
    · have hothers : (vs.filter fun v => v.file = u.file) = [] := by
        rw [List.filter_eq_nil_iff]
        intro w hw hfile
        exact hv (of_decide_eq_true hfile ▸ List.mem_map_of_mem hw)
      rw [List.filter_cons, hothers]
      simp
    · have hne : v.file ≠ u.file := fun hfile => hv (hfile ▸ List.mem_map_of_mem hu)
      rw [List.filter_cons_of_neg (by simpa using hne), ih hvs hu]

/-- Where no two units come from one file, the unit from a file does not depend on the order in
which the units are given. -/
theorem filter_file_perm (hfiles : (units.map file).Nodup) (hperm : units'.Perm units)
    (name : String) :
    (units'.filter fun u => u.file = name) = units.filter fun u => u.file = name := by
  by_cases hname : ∃ u ∈ units, u.file = name
  · obtain ⟨u, hu, rfl⟩ := hname
    have hfiles' : (units'.map file).Nodup := (hperm.map file).nodup_iff.mpr hfiles
    rw [filter_file_eq_singleton hfiles hu,
      filter_file_eq_singleton hfiles' (hperm.mem_iff.mpr hu)]
  · have hnone : (units.filter fun u => u.file = name) = [] := by
      rw [List.filter_eq_nil_iff]
      exact fun u hu hfile => hname ⟨u, hu, of_decide_eq_true hfile⟩
    have hsame : (units'.filter fun u => u.file = name).Perm [] := by
      rw [← hnone]
      exact hperm.filter _
    rw [hnone, hsame.eq_nil]

/-- Where no two units come from one file, the order in which they are given leaves the findings of
every position as they are. -/
theorem atPosition_flatMap_perm (hfiles : (units.map file).Nodup) (hperm : units'.Perm units)
    (p : Option String × Nat) :
    Diagnostic.atPosition p (units'.flatMap fun u => u.findings c) =
      Diagnostic.atPosition p (units.flatMap fun u => u.findings c) := by
  obtain ⟨_ | name, offset⟩ := p
  · have hnone (vs : List AnalysisUnit) :
        Diagnostic.atPosition (none, offset) (vs.flatMap fun u => u.findings c) = [] := by
      rw [List.eq_nil_iff_forall_not_mem]
      intro d hd
      obtain ⟨hmem, hposition⟩ := Diagnostic.mem_atPosition.mp hd
      obtain ⟨u, _, hfound⟩ := List.mem_flatMap.mp hmem
      rw [Diagnostic.position, file_of_mem_findings hfound] at hposition
      exact Option.some_ne_none _ (Prod.mk.inj hposition).1
    rw [hnone, hnone]
  · rw [Diagnostic.atPosition_some, Diagnostic.atPosition_some name offset (units.flatMap _),
      filter_inFile_flatMap, filter_inFile_flatMap, filter_file_perm hfiles hperm]

end AnalysisUnit

open AnalysisUnit

/-- What is found in one unit alone is what it yields, sorted. -/
theorem analyse_singleton (settings : Settings) (u : AnalysisUnit) :
    analyse settings [u] = Diagnostic.sort (u.findings (.ofSettings settings)) := by
  rw [analyse, List.flatMap_singleton]

/-- Where no two units come from one file, the findings do not depend on the order of the units, in
every file they are those of its unit analysed alone, and they are made in no other file. -/
theorem analyse_independent (settings : Settings) {units : List AnalysisUnit}
    (hfiles : (units.map AnalysisUnit.file).Nodup) :
    (∀ units', units'.Perm units → analyse settings units' = analyse settings units) ∧
      (∀ u ∈ units, (analyse settings units).filter (Diagnostic.inFile u.file) =
        analyse settings [u]) ∧
        ∀ d ∈ analyse settings units, ∃ u ∈ units, d.file = some u.file := by
  refine ⟨?_, ?_, ?_⟩
  · intro units' hperm
    exact Diagnostic.sort_congr (atPosition_flatMap_perm hfiles hperm)
  · intro u hu
    calc (analyse settings units).filter (Diagnostic.inFile u.file)
        = Diagnostic.sort ((units.flatMap fun v => v.findings (.ofSettings settings)).filter
            (Diagnostic.inFile u.file)) := Diagnostic.filter_sort _ _
      _ = Diagnostic.sort (u.findings (.ofSettings settings)) := by
          rw [filter_inFile_flatMap, filter_file_eq_singleton hfiles hu, List.flatMap_singleton]
      _ = analyse settings [u] := (analyse_singleton settings u).symm
  · intro d hd
    have hmem := (Diagnostic.sort_perm _).mem_iff.mp hd
    obtain ⟨u, hu, hfound⟩ := List.mem_flatMap.mp hmem
    exact ⟨u, hu, file_of_mem_findings hfound⟩

/-- The difference of a text and a number, laid out at the start of a file. -/
def differenceOfText : Expr Origin :=
  (Expr.place
    (.binary () (.constant () (.string "a")) (.compute .minus) (.constant () (.int 1))) 0).1

/-- Two units, the second of which comes from the file that is named first. -/
def twoUnits : List AnalysisUnit :=
  ["b", "a"].map fun file => ⟨file, .empty, [.expression differenceOfText.tag differenceOfText]⟩

/-- The findings in two units are the same in both orders of the units, and one is made in each
file. -/
theorem analyse_two_units :
    (twoUnits.map AnalysisUnit.file).Nodup ∧
      analyse .default twoUnits.reverse = analyse .default twoUnits ∧
        ∀ u ∈ twoUnits, (analyse .default twoUnits).filter (Diagnostic.inFile u.file) =
          analyse .default [u] ∧ (analyse .default [u]).length = 1 := by
  have hfiles : (twoUnits.map AnalysisUnit.file).Nodup := by decide
  obtain ⟨hperm, halone, _⟩ := analyse_independent .default hfiles
  refine ⟨hfiles, hperm _ (List.reverse_perm _), fun u hu => ⟨halone u hu, ?_⟩⟩
  rw [analyse_singleton, (Diagnostic.sort_perm _).length_eq]
  revert u
  decide +kernel

end OperatorLint
