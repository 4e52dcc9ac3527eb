import OperatorLint.Proofs.Combination
import OperatorLint.Proofs.Fallback
import OperatorLint.Proofs.Retraction

/-!
# Results on narrower operands

Concatenation and the operators on whole numbers convert their operands and look for constants in
what they get; any other operands give the whole type. Conversions keep inclusion, and a constant
includes no other type that has values: narrower operands of a constant result are thus the same
constants after conversion, and the result is computed again. Falling back keeps inclusion in both
types that it joins.
-/

namespace OperatorLint

namespace Ty

/-- Only empty types have an empty join. -/
theorem eq_never_of_join {ts : List Ty} (hn : ∀ t ∈ ts, Normal t) (h : join ts = never) :
    ∀ t ∈ ts, t = never := by
  intro t ht
  have hdown : PassesDown fun t => t = never := by
    rintro a b ha - - rfl
    exact Bool.noConfusion ha
  have hjoined : ∀ m ∈ (join ts).members, m = never := by
    rw [h]
    exact List.forall_mem_singleton.mpr rfl
  have herror : join ts ≠ error := h ▸ Ty.noConfusion
  have hmixed : join ts ≠ mixed := h ▸ Ty.noConfusion
  obtain ⟨m, hm⟩ := List.exists_mem_of_ne_nil _ (hn t ht).members_ne_nil
  have hempty : m = never := by
    by_contra hne
    exact hne (forall_of_join hdown hn herror hmixed hjoined t ht m hm hne)
  exact (hn t ht).never_mem.mp (hempty ▸ hm)

/-- A constant includes no type that has values but the same constant. Two members of a union would
be that same constant, and members do not include one another. -/
theorem eq_constant_of_includes {c : Constant} {t : Ty} (hn : Normal t) (hnever : t ≠ never)
    (h : includes (constant c) t = true) : ∃ d, t = constant d ∧ c.same d = true := by
  have hmember : ∀ m ∈ t.members, ∃ d, m = constant d ∧ c.same d = true := by
    intro m hm
    have hcm := (includes_source hn).mp h m hm
    rcases single_of_includes rfl (hn.isUnion_of_mem hm) hcm with rfl | hsingle
    · exact absurd (hn.never_mem.mp hm) hnever
    · exact includes_constant hsingle hcm
  cases t with
  | union ts =>
    obtain ⟨_, hlength, hs⟩ := normal_union.mp hn
    match ts, hlength with
    | m :: k :: _, _ =>
      obtain ⟨d, rfl, hd⟩ := hmember m List.mem_cons_self
      obtain ⟨e, rfl, he⟩ := hmember k (List.mem_cons_of_mem _ List.mem_cons_self)
      have hapart := (List.pairwise_cons.mp hs.apart).1 (constant e) List.mem_cons_self
      have hsame := Constant.same_trans (Constant.same_symm hd) he
      rw [← includes_constant_constant, hapart.1] at hsame
      exact Bool.noConfusion hsame
  | _ => exact hmember _ List.mem_cons_self

/-- A conversion that gives normal forms, keeps inclusion and makes nothing empty. -/
structure Faithful (convert : Ty → Ty) : Prop where
  /-- Every type converts to a type in normal form. -/
  normal : ∀ t, Normal (convert t)
  /-- Where nothing fails, inclusion is kept. -/
  includes : ∀ {a b}, includes a b = true → convert a ≠ error → convert b ≠ error →
    includes (convert a) (convert b) = true
  /-- A type in normal form that has values keeps some. -/
  ne_never : ∀ {t}, Normal t → t ≠ never → convert t ≠ never

/-- A member-wise conversion leaves a type values when it does so for types that are no unions. -/
theorem Memberwise.ne_never {convert : Ty → Ty} (h : Memberwise convert)
    (halone : ∀ t, t.isUnion = false → convert t = never → t = never) {t : Ty} (hn : Normal t)
    (hnever : t ≠ never) : convert t ≠ never := by
  cases t with
  | union ts =>
    intro hempty
    obtain ⟨m, hm⟩ := List.exists_mem_of_ne_nil _ hn.members_ne_nil
    rw [h.union] at hempty
    have hconverted := eq_never_of_join (h.normal_map ts) hempty _ (List.mem_map_of_mem hm)
    rw [halone m (hn.isUnion_of_mem hm) hconverted] at hm
    exact hnever (hn.never_mem.mp hm)
  | _ => exact fun hempty => hnever (halone _ rfl hempty)

/-- The conversion to numbers is faithful. -/
theorem faithful_toNumber : Faithful toNumber where
  normal := normal_toNumber
  includes := retraction_toNumber.includes_convert includes_toNumber_alone
  ne_never := memberwise_toNumber.ne_never fun t ht hempty => by
    rcases toNumber_cases ht with ⟨hnever, _⟩ | he | he | he | he | ⟨c, he⟩
    · exact hnever
    · exact Ty.noConfusion (he.symm.trans hempty)
    · exact Ty.noConfusion (he.symm.trans hempty)
    · exact Ty.noConfusion (he.symm.trans hempty)
    · exact Ty.noConfusion (number_eq.symm.trans (he.symm.trans hempty))
    · exact Ty.noConfusion (he.symm.trans hempty)

/-- The conversion to strings is faithful. -/
theorem faithful_toText : Faithful toText where
  normal := normal_toText
  includes := retraction_toText.includes_convert includes_toText_alone
  ne_never := memberwise_toText.ne_never fun t ht hempty => by
    cases t with
    | never => rfl
    | kind k => cases k <;> exact Ty.noConfusion hempty
    | object className stringable => cases stringable <;> exact Ty.noConfusion hempty
    | union ts => exact Bool.noConfusion ht
    | _ => exact Ty.noConfusion hempty

end Ty

/-- Only the same text is the same value as a text. -/
theorem Constant.eq_of_same_string {text : String} {c : Constant}
    (h : (string text).same c = true) : c = string text := by
  rcases eq_or_beq_of_same h with heq | ⟨x, y, heq, _⟩
  · exact heq.symm
  · exact Constant.noConfusion heq

namespace Operation

open Ty (Normal Faithful)

/-- An operation that looks into its operands for constants only, and otherwise fails or gives a
whole type. -/
structure Folding (combine : Ty → Ty → Ty) (whole : Ty) : Prop where
  /-- A failing operand fails the operation. -/
  strict : ∀ {l r}, combine l r ≠ .error → l ≠ .error ∧ r ≠ .error
  /-- The whole includes every result. -/
  lands : ∀ {l r}, combine l r ≠ .error → whole.includes (combine l r) = true
  /-- A result other than the whole comes from two constants, and includes what constants that are
  the same values give. -/
  folds : ∀ {l r}, combine l r ≠ .error → combine l r = whole ∨
    ∃ c d, l = .constant c ∧ r = .constant d ∧ ∀ c' d', c.same c' = true → d.same d' = true →
      (combine l r).includes (combine (.constant c') (.constant d')) = true

namespace Folding

variable {combine : Ty → Ty → Ty} {whole : Ty} (h : Folding combine whole)

include h

/-- Operands that include others, which are in normal form and have values, give a result that
includes theirs. -/
theorem includes_combine {l r l' r' : Ty} (hl : Normal l') (hr : Normal r') (hel : l' ≠ .never)
    (her : r' ≠ .never) (hll : l.includes l' = true) (hrr : r.includes r' = true)
    (he : combine l r ≠ .error) (he' : combine l' r' ≠ .error) :
    (combine l r).includes (combine l' r') = true := by
  rcases h.folds he with hwhole | ⟨c, d, rfl, rfl, hsame⟩
  · rw [hwhole]
    exact h.lands he'
  · obtain ⟨c', rfl, hc⟩ := Ty.eq_constant_of_includes hl hel hll
    obtain ⟨d', rfl, hd⟩ := Ty.eq_constant_of_includes hr her hrr
    exact hsame c' d' hc hd

/-- Inclusion is kept as well behind a faithful conversion of the operands. -/
theorem includes_converted {convert : Ty → Ty} (hf : Faithful convert) {a b a' b' : Ty}
    (ha : Normal a') (hb : Normal b') (hea : a' ≠ .never) (heb : b' ≠ .never)
    (haa : a.includes a' = true) (hbb : b.includes b' = true)
    (he : combine (convert a) (convert b) ≠ .error)
    (he' : combine (convert a') (convert b') ≠ .error) :
    (combine (convert a) (convert b)).includes (combine (convert a') (convert b')) = true := by
  obtain ⟨hl, hr⟩ := h.strict he
  obtain ⟨hl', hr'⟩ := h.strict he'
  exact h.includes_combine (hf.normal a') (hf.normal b') (hf.ne_never ha hea) (hf.ne_never hb heb)
    (hf.includes haa hl hl') (hf.includes hbb hr hr') he he'

end Folding

/-- Where joining two texts does not fail neither of them does, and it gives a string of unknown
value or joins two constants. -/
theorem concatTexts_cases {l r : Ty} (h : concatTexts l r ≠ .error) :
    l ≠ .error ∧ r ≠ .error ∧ (concatTexts l r = .string ∨ ∃ a b, l = .constant (.string a) ∧
      r = .constant (.string b) ∧ concatTexts l r = .constant (.string (a ++ b))) := by
  unfold concatTexts at h ⊢
  split at h
  · exact ⟨Ty.noConfusion, Ty.noConfusion, Or.inr ⟨_, _, rfl, rfl, rfl⟩⟩
  · split at h
    · exact absurd rfl h
    · next hregular =>
      rw [if_neg hregular]
      rw [Bool.or_eq_true, Ty.isError_iff, Ty.isError_iff, not_or] at hregular
      exact ⟨hregular.1, hregular.2, Or.inl rfl⟩

/-- Concatenation looks for two constant texts. -/
theorem folding_concatTexts : Folding concatTexts .string where
  strict h := by
    obtain ⟨hl, hr, _⟩ := concatTexts_cases h
    exact ⟨hl, hr⟩
  lands h := by
    obtain ⟨_, _, hresult | ⟨a, b, _, _, hresult⟩⟩ := concatTexts_cases h
    · rw [hresult]
      rfl
    · rw [hresult]
      rfl
  folds h := by
    obtain ⟨_, _, hresult | ⟨a, b, rfl, rfl, _⟩⟩ := concatTexts_cases h
    · exact Or.inl hresult
    · refine Or.inr ⟨_, _, rfl, rfl, ?_⟩
      intro c' d' hc hd
      rw [Constant.eq_of_same_string hc, Constant.eq_of_same_string hd]
      exact Ty.includes_self trivial rfl

/-- Where an operator on whole numbers does not fail neither operand does, and it gives an integer
of unknown value or folds two constants. -/
theorem onIntegers_cases {op : Integral} {l r : Ty} (h : onIntegers op l r ≠ .error) :
    l ≠ .error ∧ r ≠ .error ∧ (onIntegers op l r = .int ∨ ∃ a b value, l = .constant (.int a) ∧
      r = .constant (.int b) ∧ onIntegers op l r = .constant (.int value)) := by
  unfold onIntegers at h ⊢
  split at h
  · exact absurd rfl h
  · next hregular =>
    rw [if_neg hregular]
    rw [Bool.or_eq_true, Ty.isError_iff, Ty.isError_iff, not_or] at hregular
    refine ⟨hregular.1, hregular.2, ?_⟩
    split at h
    · split at h
      · exact Or.inr ⟨_, _, _, rfl, rfl, rfl⟩
      · exact absurd rfl h
    · split at h
      · exact absurd rfl h
      · next hzero => exact Or.inl (if_neg hzero)

/-- An operator on whole numbers looks for two constants and cuts them. -/
theorem folding_onIntegers (op : Integral) :
    Folding (fun l r => onIntegers op (cutToInt l) (cutToInt r)) .int where
  strict h := by
    obtain ⟨hl, hr, _⟩ := onIntegers_cases h
    exact ⟨mt cutToInt_eq_error.mpr hl, mt cutToInt_eq_error.mpr hr⟩
  lands h := by
    obtain ⟨_, _, hresult | ⟨a, b, value, _, _, hresult⟩⟩ := onIntegers_cases h
    · rw [hresult]
      rfl
    · rw [hresult]
      rfl
  folds h := by
    obtain ⟨_, _, hresult | ⟨a, b, value, hl, hr, hresult⟩⟩ := onIntegers_cases h
    · exact Or.inl hresult
    · obtain ⟨c, rfl⟩ := eq_constant_of_cutToInt hl
      obtain ⟨d, rfl⟩ := eq_constant_of_cutToInt hr
      refine Or.inr ⟨c, d, rfl, rfl, ?_⟩
      intro c' d' hc hd
      rw [← cutToInt_of_same hc, ← cutToInt_of_same hd, hresult]
      exact Ty.includes_self trivial rfl

/-- Falling back from included operands in normal form gives a result that is included. -/
theorem includes_coalesce {a b a' b' : Ty} (ha : Normal a) (hb : Normal b) (ha' : Normal a')
    (hb' : Normal b') (haa : a.includes a' = true) (hbb : b.includes b' = true)
    (he : coalesce a b ≠ .error) : (coalesce a b).includes (coalesce a' b') = true := by
  rw [coalesce_of_ne_error (Ty.ne_error_of_includes haa)] at he ⊢
  have hn := normal_joined ha hb
  have herror : Ty.error ∉ [a.withoutNull, b] := mt (Ty.join_eq_error hn).mpr he
  have hright : (Ty.join [a.withoutNull, b]).includes b' = true :=
    Ty.includes_join_of_includes hn herror (List.mem_cons_of_mem _ List.mem_cons_self) hb' hbb
  by_cases hea' : a' = .error
  · rw [hea']
    exact hright
  · have hleft : (Ty.join [a.withoutNull, b]).includes a'.withoutNull = true :=
      Ty.includes_join_of_includes hn herror List.mem_cons_self (Ty.normal_withoutNull ha')
        (Ty.includes_withoutNull ha ha' haa)
    rw [coalesce_of_ne_error hea']
    apply Ty.includes_join_of_forall (normal_joined ha' hb') (Ty.normal_join hn) he
    exact List.forall_mem_cons.mpr ⟨hleft, List.forall_mem_singleton.mpr hright⟩

end Operation

namespace Computation

open Operation
open Ty (Normal)

/-- The operators whose results narrow with their operands. -/
def monotone : List Computation := [concat, mod, shiftLeft, shiftRight, coalesce]

/-- A monotone operator concatenates, falls back, or works on whole numbers. -/
theorem monotone_cases {op : Computation} (h : op ∈ monotone) :
    op = concat ∨ op = coalesce ∨ ∃ i, op.result = integral i := by
  cases op with
  | concat => exact Or.inl rfl
  | coalesce => exact Or.inr (Or.inl rfl)
  | mod | shiftLeft | shiftRight => exact Or.inr (Or.inr ⟨_, rfl⟩)
  | _ => exact absurd h (by decide)

/-- A monotone operator keeps inclusion where it does not fail. -/
theorem includes_result {op : Computation} (h : op ∈ monotone) {a b a' b' : Ty} (ha : Normal a)
    (hb : Normal b) (ha' : Normal a') (hb' : Normal b') (hea : a' ≠ .never) (heb : b' ≠ .never)
    (haa : a.includes a' = true) (hbb : b.includes b' = true) (he : op.result a b ≠ .error)
    (he' : op.result a' b' ≠ .error) : (op.result a b).includes (op.result a' b') = true := by
  rcases monotone_cases h with rfl | rfl | ⟨i, hresult⟩
  · exact folding_concatTexts.includes_converted Ty.faithful_toText ha' hb' hea heb haa hbb he he'
  · exact includes_coalesce ha hb ha' hb' haa hbb he
  · rw [hresult] at he he' ⊢
    exact (folding_onIntegers i).includes_converted Ty.faithful_toNumber ha' hb' hea heb haa hbb
      he he'

end Computation

open Ty (Normal)

/-- An operator that concatenates, takes a remainder, shifts or falls back, in its plain or its
compound form, keeps covering: operands in normal form that are covered for certain and have values
give a result that is covered for certain, unless one of the two results is a failure. Failing
parts and not-a-number may occur in the operands. -/
theorem Operator.result_mono {op : Operator} (h : op.base ∈ Computation.monotone.map compute)
    {a b a' b' : Ty} (ha : Normal a) (hb : Normal b) (ha' : Normal a') (hb' : Normal b')
    (hea : a' ≠ .never) (heb : b' ≠ .never) (haa : a.covers a' = .yes) (hbb : b.covers b' = .yes)
    (he : op.result a b ≠ .error) (he' : op.result a' b' ≠ .error) :
    (op.result a b).covers (op.result a' b') = .yes := by
  obtain ⟨c, hc, hbase⟩ := List.mem_map.mp h
  rw [result_of_base hbase.symm] at he he' ⊢
  simp only [← Certainty.isYes_iff] at haa hbb ⊢
  exact Computation.includes_result hc ha hb ha' hb' hea heb haa hbb he he'

/-- Null or false and behind it one, true or the text of a one give the text of a one, and so do
null and true. -/
theorem Operator.result_mono_texts :
    let op := Operator.assign .concat
    let a := Ty.union [.null, .constant (.bool false)]
    let b := Ty.union [.constant (.int 1), .constant (.bool true), .constant (.string "1")]
    let b' := Ty.constant (.bool true)
    op.result a b = .constant (.string "1") ∧ op.result .null b' = .constant (.string "1") ∧
      (op.result a b).covers (op.result .null b') = .yes := by
  intro op a b b'
  have hab : op.result a b = .constant (.string "1") := rfl
  have hab' : op.result .null b' = .constant (.string "1") := rfl
  refine ⟨hab, hab', result_mono ?_ ?_ ?_ ?_ ?_ ?_ ?_ ?_ ?_ ?_ ?_⟩
  · decide
  · decide
  · decide
  · decide
  · decide
  · exact Ty.noConfusion
  · exact Ty.noConfusion
  · decide
  · decide
  · exact Ty.noConfusion
  · exact Ty.noConfusion

/-- A bitwise operator gives an integer on unknown operands, and a string on two strings. -/
example : (Operator.compute .bitwiseAnd).result .mixed .mixed = .int ∧
    (Operator.compute .bitwiseAnd).result .string .string = .string := ⟨rfl, rfl⟩

end OperatorLint
