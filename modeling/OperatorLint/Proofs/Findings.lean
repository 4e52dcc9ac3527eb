import OperatorLint.Proofs.Combination
import OperatorLint.Proofs.Decision
import OperatorLint.Proofs.Preservation

/-!
# Which operations are reported

For the operators that only convert their operands a report is true of every pair of members of
the two types. Conversely an operation that fails on every pair of members is reported, unless
its operator rejects constants for their value: there the whole types may hide the failure.
-/

namespace OperatorLint.Operands

open Strictness (isUnknown)
open Ty (Normal)

variable {s : Strictness} {op : Operator} {left right : Ty}

/-- With one reading of operands, an accepted member is among what is checked, and all of that is
accepted together. -/
theorem accepted_narrow {category : Category} (hcategory : category ≠ .bitwise) {c : Certainty}
    (hunions : s.unions = false) {t m : Ty} (h : Normal t)
    (hknown : isUnknown (s.stripped t) = false) (hm : m ∈ (s.stripped t).members)
    (ha : category.accepts c m = true) :
    m ∈ (s.narrow (category.accepts c) t).members ∧
      category.accepts c (s.narrow (category.accepts c) t) = true := by
  have hmembers := Strictness.members_narrow h hunions hknown ⟨m, hm, ha⟩
  rw [Category.accepts_iff hcategory, hmembers]
  exact ⟨List.mem_filter.mpr ⟨hm, ha⟩, fun k hk => (List.mem_filter.mp hk).2⟩

/-- A reported conversion fails on every pair of members. A rejected member fails with everything,
and accepted ones are among what is checked. -/
theorem hopeless_of_reported (hunions : s.unions = false)
    (hop : op.base ∈ Computation.converting.map .compute) (hl : Normal left) (hr : Normal right)
    (h : reported s op left right = true) :
    op.Hopeless (s.stripped left) (s.stripped right) := by
  obtain ⟨c, hc, hbase⟩ := List.mem_map.mp hop
  have hresult : op.result = c.result := Operator.result_of_base hbase.symm
  have hcategory : op.category = c.category := Operator.category_of_base hbase.symm
  have hnot : c.category ≠ .bitwise := Computation.category_of_converting hc
  obtain ⟨⟨hleft, hright⟩, _, hnarrowed⟩ := (reported_iff hl hr).mp h
  rw [leftPart, rightPart, hcategory, hresult] at hnarrowed
  intro l hlm r hrm
  rw [hresult]
  cases hla : c.category.accepts .maybe l with
  | false => exact Computation.result_of_rejected (c := .maybe) hc (Or.inl hla)
  | true =>
    cases hra : c.category.accepts (bytewise op (leftPart s op left)) r with
    | false => exact Computation.result_of_rejected (b := .maybe) hc (Or.inr hra)
    | true =>
      obtain ⟨hlpart, hlaccepted⟩ := accepted_narrow hnot hunions hl hleft hlm hla
      obtain ⟨hrpart, hraccepted⟩ := accepted_narrow hnot hunions hr hright hrm hra
      exact Computation.result_of_members hc (Strictness.normal_narrow hl)
        (Strictness.normal_narrow hr) hlaccepted hraccepted hnarrowed l hlpart r hrpart

/-- An operation that fails on every pair of members is reported. One pair of members that are
checked fails both the narrowed and the whole operation. -/
theorem reported_of_hopeless (hop : op.base ∉ Computation.selective.map .compute)
    (hl : Normal left) (hr : Normal right) (hleft : isUnknown (s.stripped left) = false)
    (hright : isUnknown (s.stripped right) = false)
    (h : op.Hopeless (s.stripped left) (s.stripped right)) : reported s op left right = true := by
  have hlpart : Normal (leftPart s op left) := Strictness.normal_narrow hl
  have hrpart : Normal (rightPart s op left right) := Strictness.normal_narrow hr
  obtain ⟨l, hlm⟩ := List.exists_mem_of_ne_nil _ hlpart.members_ne_nil
  obtain ⟨r, hrm⟩ := List.exists_mem_of_ne_nil _ hrpart.members_ne_nil
  have hpair := h l (Strictness.mem_of_mem_narrow hl hleft hlm) r
    (Strictness.mem_of_mem_narrow hr hright hrm)
  have hlw := Strictness.members_narrow_subset hl hleft hlm
  have hrw := Strictness.members_narrow_subset hr hright hrm
  exact (reported_iff hl hr).mpr ⟨⟨hleft, hright⟩,
    Operator.result_of_pair hop hl hr hlw hrw hpair,
    Operator.result_of_pair hop hlpart hrpart hlm hrm hpair⟩

/-- Whatever the check finds at an operation that only converts its operands is true of every pair
of members of their types. -/
theorem hopeless_of_inspect {scope : Scope} (hscope : scope.Normal) (nullables : Bool)
    {op : Operator} (hop : op.base ∈ Computation.converting.map .compute) (origin : Origin)
    (left right : Expr Origin)
    (h : (Rule.operands .reference ⟨nullables, false⟩).inspect scope
      (.binary origin left op right) ≠ []) :
    op.Hopeless (Strictness.stripped ⟨nullables, false⟩ (left.typeIn scope))
      (Strictness.stripped ⟨nullables, false⟩ (right.typeIn scope)) := by
  have hreported := (inspect_ne_nil_iff _ scope origin left right op).mp h
  exact hopeless_of_reported rfl hop (left.normal_typeIn hscope) (right.normal_typeIn hscope)
    hreported

/-- A remainder by false or zero fails whichever member of the operands is taken: false becomes
the same zero as the integer. -/
theorem hopeless_remainder_of_inspect :
    let scope := pairScope (.union [.int, .array .mixed .mixed])
      (.union [.constant (.bool false), .constant (.int 0)])
    let s : Strictness := ⟨true, false⟩
    (Rule.operands .reference s).inspect scope (pairExpr (.compute .mod)) ≠ [] ∧
      (Operator.compute .mod).Hopeless (s.stripped (pairLeft.typeIn scope))
        (s.stripped (pairRight.typeIn scope)) := by
  intro scope s
  have hscope : scope.Normal := by decide
  have hop : (Operator.compute .mod).base ∈ Computation.converting.map .compute := by decide
  have hfound : (Rule.operands .reference s).inspect scope (pairExpr (.compute .mod)) ≠ [] :=
    (inspect_ne_nil_iff s scope _ pairLeft pairRight _).mpr (by decide)
  exact ⟨hfound, hopeless_of_inspect hscope true hop _ pairLeft pairRight hfound⟩

/-- An operation that fails on every pair of members of types about which something is known is
found once, unless its operator fails on constants for their value. -/
theorem inspect_of_hopeless {scope : Scope} (hscope : scope.Normal) (s : Strictness)
    {op : Operator} (hop : op.base ∉ Computation.selective.map .compute) (origin : Origin)
    (left right : Expr Origin)
    (hleft : isUnknown (s.stripped (left.typeIn scope)) = false)
    (hright : isUnknown (s.stripped (right.typeIn scope)) = false)
    (h : op.Hopeless (s.stripped (left.typeIn scope)) (s.stripped (right.typeIn scope))) :
    (Rule.operands .reference s).inspect scope (.binary origin left op right) =
      [finding op (left.typeIn scope) (right.typeIn scope)] := by
  rw [inspect_binary, if_pos]
  exact reported_of_hopeless hop (left.normal_typeIn hscope) (right.normal_typeIn hscope) hleft
    hright h

/-- Nothing can be taken from an array or an object without a text, and just one text says so. -/
theorem inspect_difference_of_hopeless :
    let scope := pairScope (.union [.array .mixed .mixed, .object "Foo" false, .null]) .int
    let s : Strictness := ⟨false, true⟩
    (Operator.compute .minus).Hopeless (s.stripped (pairLeft.typeIn scope))
        (s.stripped (pairRight.typeIn scope)) ∧
      (Rule.operands .reference s).inspect scope (pairExpr (.compute .minus)) =
        [finding (.compute .minus) (pairLeft.typeIn scope) (pairRight.typeIn scope)] := by
  intro scope s
  have hscope : scope.Normal := by decide
  have hop : (Operator.compute .minus).base ∉ Computation.selective.map .compute := by decide
  have hleft : isUnknown (s.stripped (pairLeft.typeIn scope)) = false := by decide
  have hright : isUnknown (s.stripped (pairRight.typeIn scope)) = false := by decide
  have h : (Operator.compute .minus).Hopeless (s.stripped (pairLeft.typeIn scope))
      (s.stripped (pairRight.typeIn scope)) := by decide
  exact ⟨h, inspect_of_hopeless hscope s hop _ pairLeft pairRight hleft hright h⟩

end OperatorLint.Operands
