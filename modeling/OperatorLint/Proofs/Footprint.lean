import OperatorLint.Proofs.Siblings
import OperatorLint.Proofs.Threading

/-!
# The variables that findings depend on

What is found in a list of statements, and the types that the statements give to their variables,
depend on the scope at the start only through the types of the variables that are mentioned. Two
runs from scopes that agree on these stay in step: what one of them binds the other binds to the
same type, though all other bindings, their order and their certainty may differ throughout. The
reserved variables are bound anew wherever they are asked about, so a program that does not mention
them does not notice what they were bound to.
-/

namespace OperatorLint

namespace Expr

variable {α : Type}

/-- The name of a variable. -/
def name? : Expr α → Option String
  | var _ name => some name
  | _ => none

/-- The variables that an expression mentions, in the order of its nodes. -/
def names (e : Expr α) : List String := e.postorder.filterMap name?

/-- The variables of an expression are those that stand in it. -/
theorem mem_names {e : Expr α} {name : String} : name ∈ e.names ↔ e.Mentions name := by
  rw [names, List.mem_filterMap]
  constructor
  · rintro ⟨n, hn, hname⟩
    cases n with
    | var tag other =>
      cases hname
      exact ⟨tag, hn⟩
    | _ => exact absurd hname (Option.some_ne_none _).symm
  · rintro ⟨tag, htag⟩
    exact ⟨var tag name, htag, rfl⟩

/-- The variables of a direct part are variables of the whole. -/
theorem names_subset_of_child {e c : Expr α} (hc : c ∈ e.children) :
    c.names ⊆ e.names := by
  intro name hname
  rw [mem_names] at hname ⊢
  exact hname.of_child hc

end Expr

/-- The variables that a statement mentions: those of its value, and the one that it assigns. -/
def Statement.names {α : Type} : Statement α → List String
  | .expression _ value => value.names
  | .assign _ _ target value => target :: value.names

/-- The variables of the value of a statement are variables of the statement. -/
theorem Statement.names_value {α : Type} (s : Statement α) :
    s.value.names ⊆ s.names := by
  cases s with
  | expression tag value => exact List.Subset.refl _
  | assign tag targetTag target value => exact List.subset_cons_self _ _

namespace Scope

/-- Two scopes give the variables of a list the same types. -/
def AgreeOn (names : List String) (s t : Scope) : Prop :=
  ∀ name ∈ names, s.typeOf? name = t.typeOf? name

namespace AgreeOn

variable {names : List String} {s t : Scope}

/-- Scopes that agree on some variables agree on fewer of them. -/
theorem mono {others : List String} (h : s.AgreeOn names t) (hsubset : others ⊆ names) :
    s.AgreeOn others t := fun name hname => h name (hsubset hname)

/-- Scopes that agree stay so when one variable is assigned in both. -/
theorem assign (h : s.AgreeOn names t) (name : String) (type : Ty) (certainty : Certainty) :
    (s.assign name type certainty).AgreeOn names (t.assign name type certainty) := by
  intro other hother
  by_cases hname : other = name
  · rw [hname, typeOf?, typeOf?, find?_assign_self, find?_assign_self]
  · rw [Operands.typeOf?_assign_of_ne s hname, Operands.typeOf?_assign_of_ne t hname]
    exact h other hother

/-- A scope agrees with itself on all variables but the one that is assigned. -/
theorem assign_self {name : String} (hname : name ∉ names) (s : Scope) (type : Ty)
    (certainty : Certainty) : (s.assign name type certainty).AgreeOn names s := by
  intro other hother
  have hne : other ≠ name := fun heq => hname (heq ▸ hother)
  exact Operands.typeOf?_assign_of_ne s hne type certainty

end AgreeOn

end Scope

/-- An expression has the same type in scopes that agree on its variables. -/
theorem Expr.typeIn_of_agree {α : Type} {e : Expr α} {s t : Scope} (h : s.AgreeOn e.names t) :
    e.typeIn s = e.typeIn t := by
  apply typeIn_congr
  intro name hname
  rw [h name (mem_names.mpr hname)]

/-- The same is found at an expression in scopes that agree on its variables. -/
theorem Operands.inspect_of_agree {strictness : Strictness} {e : Expr Origin} {s t : Scope}
    (h : s.AgreeOn e.names t) :
    (Rule.operands .reference strictness).inspect s e =
      (Rule.operands .reference strictness).inspect t e := by
  cases e with
  | binary origin left op right =>
    have hleft : left.typeIn s = left.typeIn t :=
      Expr.typeIn_of_agree (h.mono (Expr.names_subset_of_child List.mem_cons_self))
    have hright : right.typeIn s = right.typeIn t :=
      Expr.typeIn_of_agree
        (h.mono (Expr.names_subset_of_child (List.mem_cons_of_mem _ List.mem_cons_self)))
    rw [inspect_binary, inspect_binary, hleft, hright]
  | _ => rfl

namespace Checker

/-- What the checker says of an expression depends only on the types of its variables. -/
structure IsLocal (c : Checker) : Prop where
  /-- The typing does. -/
  oracle : ∀ {e : Expr Origin} {s t : Scope}, s.AgreeOn e.names t → c.oracle s e = c.oracle t e
  /-- Every rule does. -/
  rules : ∀ rule ∈ c.rules, ∀ {e : Expr Origin} {s t : Scope}, s.AgreeOn e.names t →
    rule.inspect s e = rule.inspect t e

/-- The checker for some settings looks at the variables of an expression only. -/
theorem isLocal_ofSettings (settings : Settings) : (ofSettings settings).IsLocal where
  oracle := Expr.typeIn_of_agree
  rules rule hrule := by
    unfold ofSettings at hrule
    split at hrule
    · rw [List.mem_singleton.mp hrule]
      exact Operands.inspect_of_agree
    · exact absurd hrule List.not_mem_nil

/-- Two outcomes have the same findings, and their scopes agree on some variables. -/
structure Alike (names : List String) (a b : List Diagnostic × Scope) : Prop where
  /-- The findings are the same. -/
  findings : a.1 = b.1
  /-- The scopes agree. -/
  scope : a.2.AgreeOn names b.2

variable {c : Checker} {names : List String} {s t : Scope}

/-- A local checker reports the same at offers of one expression in scopes that agree on its
variables. -/
theorem IsLocal.report_of_agree (hc : c.IsLocal) {e : Expr Origin} (h : s.AgreeOn e.names t) :
    c.report ⟨s, e⟩ = c.report ⟨t, e⟩ := by
  apply List.flatMap_congr
  intro rule hrule
  rw [Rule.report, Rule.report, hc.rules rule hrule h]

/-- The assignment of an expression keeps scopes in agreement when the expression has one type. -/
theorem agree_update {oracle : Oracle} {e : Expr Origin} (htype : oracle s e = oracle t e)
    {s' t' : Scope} (h : s'.AgreeOn names t') :
    (Offer.update oracle s' ⟨s, e⟩).AgreeOn names (Offer.update oracle t' ⟨t, e⟩) := by
  unfold Offer.update
  cases e.assigned? with
  | none => exact h
  | some name =>
    dsimp only
    rw [htype]
    exact h.assign name _ .yes

/-- The findings at a list of offers, and the scope after them. -/
def outcome (c : Checker) (run : List Offer × Scope) : List Diagnostic × Scope :=
  (run.1.flatMap c.report, run.2)

/-- Expressions that are checked one after the other have like outcomes when each of them does. -/
theorem alike_offersEach_of {es : List (Expr Origin)}
    (hes : ∀ e ∈ es, ∀ s t, s.AgreeOn names t → Alike names (c.checkExpr s e) (c.checkExpr t e))
    (h : s.AgreeOn names t) :
    Alike names (c.outcome (offersEach c.oracle s es)) (c.outcome (offersEach c.oracle t es)) := by
  induction es generalizing s t with
  | nil => exact ⟨rfl, h⟩
  | cons e es ih =>
    obtain ⟨hfirst, hes⟩ := List.forall_mem_cons.mp hes
    obtain ⟨hfound, hmiddle⟩ := hfirst s t h
    obtain ⟨hrest, hafter⟩ := ih hes hmiddle
    refine ⟨?_, hafter⟩
    simp only [outcome, offersEach, List.flatMap_append]
    exact congrArg₂ (· ++ ·) hfound hrest

/-- From scopes that agree on its variables, among others, an expression has like outcomes. The
whole is shown to the rules in the scopes at the start, which its parts leave alone. -/
theorem IsLocal.checkExpr_alike (hc : c.IsLocal) {e : Expr Origin} (he : e.names ⊆ names)
    (h : s.AgreeOn names t) : Alike names (c.checkExpr s e) (c.checkExpr t e) := by
  induction e using Expr.childInduction generalizing s t with
  | node e ih =>
    have hparts : Alike names (c.outcome (offersEach c.oracle s e.children))
        (c.outcome (offersEach c.oracle t e.children)) := by
      apply alike_offersEach_of _ h
      intro d hd s t hst
      exact ih d hd (List.Subset.trans (Expr.names_subset_of_child hd) he) hst
    have hwhole := h.mono he
    simp only [checkExpr, offers_eq]
    refine ⟨?_, agree_update (hc.oracle hwhole) hparts.scope⟩
    simp only [List.flatMap_append, List.flatMap_singleton]
    exact congrArg₂ (· ++ ·) hparts.findings (hc.report_of_agree hwhole)

/-- From scopes that agree on its variables, among others, a statement has like outcomes. -/
theorem IsLocal.checkStatement_alike (hc : c.IsLocal) {st : Statement Origin}
    (hst : st.names ⊆ names) (h : s.AgreeOn names t) :
    Alike names (c.checkStatement s st) (c.checkStatement t st) := by
  have hvalue : st.value.names ⊆ names := List.Subset.trans (Statement.names_value st) hst
  have hchecked := hc.checkExpr_alike hvalue h
  cases st with
  | expression tag value => exact hchecked
  | assign tag targetTag target value =>
    have htype : c.oracle s value = c.oracle t value := hc.oracle (h.mono hvalue)
    refine ⟨hchecked.findings, ?_⟩
    simp only [checkStatement]
    rw [htype]
    exact hchecked.scope.assign target _ .yes

/-- From scopes that agree on their variables, among others, statements have like outcomes one by
one. -/
theorem IsLocal.steps_alike (hc : c.IsLocal) {ss : List (Statement Origin)}
    (hss : ∀ st ∈ ss, st.names ⊆ names) (h : s.AgreeOn names t) :
    List.Forall₂ (Alike names) (c.steps s ss) (c.steps t ss) := by
  induction ss generalizing s t with
  | nil => exact List.Forall₂.nil
  | cons st ss ih =>
    obtain ⟨hfirst, hrest⟩ := List.forall_mem_cons.mp hss
    have hstep := hc.checkStatement_alike hfirst h
    exact List.Forall₂.cons hstep (ih hrest hstep.scope)

/-- Runs with like outcomes have the same findings. -/
theorem flatMap_fst_of_alike {a b : List (List Diagnostic × Scope)}
    (h : List.Forall₂ (Alike names) a b) : a.flatMap Prod.fst = b.flatMap Prod.fst := by
  induction h with
  | nil => rfl
  | cons hstep _ ih => rw [List.flatMap_cons, List.flatMap_cons, hstep.findings, ih]

/-- From scopes that give the variables of some statements the same types, the same is found in the
statements, and after each of them the scopes give these variables the same types again. What a
reserved variable is bound to does not show in statements that do not mention it. -/
theorem checkAll_of_agree (settings : Settings) {start start' : Scope}
    {ss : List (Statement Origin)}
    (h : start.AgreeOn (ss.flatMap Statement.names) start') :
    let c := ofSettings settings
    let names := ss.flatMap Statement.names
    c.checkAll start ss = c.checkAll start' ss ∧
      List.Forall₂ (fun step step' => step.1 = step'.1 ∧
          ∀ name ∈ names, step.2.typeOf? name = step'.2.typeOf? name)
        (c.steps start ss) (c.steps start' ss) ∧
      ∀ reserved ∈ [Operands.leftName, Operands.rightName], reserved ∉ names →
        ∀ type certainty, c.checkAll (start.assign reserved type certainty) ss =
          c.checkAll start ss := by
  intro c names
  have hc : c.IsLocal := isLocal_ofSettings settings
  have hss : ∀ st ∈ ss, st.names ⊆ names := fun st hst name hname =>
    List.mem_flatMap.mpr ⟨st, hst, hname⟩
  have hrun := hc.steps_alike hss h
  refine ⟨flatMap_fst_of_alike hrun, ?_, ?_⟩
  · exact hrun.imp fun step step' halike => ⟨halike.findings, halike.scope⟩
  · intro reserved _ hfresh type certainty
    have hreserved := Scope.AgreeOn.assign_self hfresh start type certainty
    exact flatMap_fst_of_alike (hc.steps_alike hss hreserved)

/-- The statements `$y = $x - 1` and `$z ??= $x`. -/
def differenceThenFallback : List (Statement Origin) :=
  Statement.placeAll
    [.assign () () "y" (.binary () (.var () "x") (.compute .minus) (.constant () (.int 1))),
    .expression () (.binary () (.var () "z") (.assign .coalesce) (.var () "x"))]

/-- A scope in which `x` is an array for certain. -/
def arrayScope : Scope := Scope.empty.assign "x" (.array .int .int) .yes

/-- A scope in which `x` may be such an array and `z` is undefined for certain, behind variables
that are not mentioned. -/
def crowdedScope : Scope :=
  (((Scope.empty.assign Operands.rightName .string .yes).assign "w" .int .yes).assign
    "z" .float .no).assign "x" (.array .int .int) .maybe

/-- From a scope with one array and from one in which it comes last of four variables, less
certainly, the same difference is found; and it is found when a reserved variable is an integer. -/
theorem checkAll_of_agree_crowded :
    let c := ofSettings .default
    let ss := differenceThenFallback
    arrayScope.AgreeOn (ss.flatMap Statement.names) crowdedScope ∧
      arrayScope.names = ["x"] ∧ crowdedScope.names = [Operands.rightName, "w", "z", "x"] ∧
      (c.checkAll arrayScope ss).map Diagnostic.text =
        ["Binary operation \"-\" between array<int, int> and 1 results in an error."] ∧
      c.checkAll arrayScope ss = c.checkAll crowdedScope ss ∧
      c.checkAll (arrayScope.assign Operands.leftName .int .yes) ss = c.checkAll arrayScope ss := by
  intro c ss
  have hagree : arrayScope.AgreeOn (ss.flatMap Statement.names) crowdedScope := by
    have hnames : ss.flatMap Statement.names = ["y", "x", "z", "x"] := rfl
    rw [hnames]
    simp only [Scope.AgreeOn, List.forall_mem_cons]
    exact ⟨rfl, rfl, rfl, rfl, List.forall_mem_nil _⟩
  obtain ⟨hfound, _, hreserved⟩ := checkAll_of_agree .default hagree
  exact ⟨hagree, rfl, rfl, by decide +kernel, hfound,
    hreserved _ List.mem_cons_self (by decide) .int .yes⟩

end Checker

end OperatorLint
