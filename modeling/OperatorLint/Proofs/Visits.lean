import Mathlib.Data.List.Induction
import OperatorLint.Analysis
import OperatorLint.Proofs.Addresses

/-!
# Visits

A visit is an offer together with the address of its node. The visits of an expression name each
of its nodes once, parts before the whole and from left to right. The scope of a visit is the
scope at the start in which those compound forms are done that come before the node and do not
stand inside it, and the scope after an expression is the one in which all of its compound forms
are done.
-/

namespace OperatorLint

/-- The variable that a compound form assigns, when its left operand is one. -/
def Expr.assigned? {α : Type} : Expr α → Option String
  | .binary _ (.var _ name) (.assign _) _ => some name
  | _ => none

/-- The scope in which the assignment of an offered expression is done, if it is one: its variable
has the type that the expression has in the scope of the offer. -/
def Offer.update (oracle : Oracle) (scope : Scope) (o : Offer) : Scope :=
  match o.expr.assigned? with
  | some name => scope.assign name (oracle o.scope o.expr) .yes
  | none => scope

/-- The scope in which the assignments of all offers of a list are done, one after the other. -/
def Scope.rebound (oracle : Oracle) (start : Scope) (os : List Offer) : Scope :=
  os.foldl (Offer.update oracle) start

/-- An offer with the address of its node. -/
structure Visit extends Offer where
  /-- The way to the node from the root of the expression that is checked. -/
  address : Address

namespace Visit

/-- The visit of a node in the part at a position, as a visit of a node of the whole. -/
def within (n : Nat) (v : Visit) : Visit := { v with address := n :: v.address }

/-- The node of the first visit stands inside that of the second, or is the same. -/
def inside (u v : Visit) : Bool := v.address.isPrefixOf u.address

end Visit

namespace Scope

variable {oracle : Oracle} {start : Scope}

/-- Two lists of assignments are done one after the other. -/
theorem rebound_append (os os' : List Offer) :
    start.rebound oracle (os ++ os') = (start.rebound oracle os).rebound oracle os' :=
  List.foldl_append

/-- The last of a list of assignments is done when the others are. -/
theorem rebound_concat (os : List Offer) (o : Offer) :
    start.rebound oracle (os ++ [o]) = o.update oracle (start.rebound oracle os) :=
  rebound_append os [o]

end Scope

namespace Checker

variable {oracle : Oracle}

/-- A rebinding does the assignment of the expression that it is about. -/
theorem rebind_eq (before after : Scope) (e : Expr Origin) :
    rebind oracle before after e = Offer.update oracle after ⟨before, e⟩ := by
  cases e with
  | binary tag left op right => cases left <;> cases op <;> rfl
  | _ => rfl

/-- An expression is offered after its direct parts, and its own assignment is done after
theirs. -/
theorem offers_eq (scope : Scope) (e : Expr Origin) :
    offers oracle scope e =
      ((offersEach oracle scope e.children).1 ++ [⟨scope, e⟩],
        Offer.update oracle (offersEach oracle scope e.children).2 ⟨scope, e⟩) := by
  cases e with
  | binary tag left op right =>
    simp only [offers, offersEach, Expr.children, List.append_nil, rebind_eq]
  | _ => simp [offers, offersEach, Expr.children, Offer.update, Expr.assigned?]

/-- The scope after a list of expressions is the one at the start with all assignments in them
done, when this holds of each of them. -/
theorem offersEach_snd_of {es : List (Expr Origin)}
    (h : ∀ e ∈ es, ∀ scope, (offers oracle scope e).2 =
      scope.rebound oracle (offers oracle scope e).1) (scope : Scope) :
    (offersEach oracle scope es).2 = scope.rebound oracle (offersEach oracle scope es).1 := by
  induction es generalizing scope with
  | nil => rfl
  | cons e es ih =>
    obtain ⟨hfirst, hrest⟩ := List.forall_mem_cons.mp h
    simp only [offersEach]
    rw [Scope.rebound_append, ← hfirst, ih hrest]

/-- The scope after an expression is the one at its start with all its assignments done. -/
theorem offers_snd (scope : Scope) (e : Expr Origin) :
    (offers oracle scope e).2 = scope.rebound oracle (offers oracle scope e).1 := by
  induction e using Expr.childInduction generalizing scope with
  | node e ih => rw [offers_eq, Scope.rebound_concat, offersEach_snd_of ih scope]

/-- The scope after a list of expressions is the one at the start with all assignments in them
done. -/
theorem offersEach_snd (scope : Scope) (es : List (Expr Origin)) :
    (offersEach oracle scope es).2 = scope.rebound oracle (offersEach oracle scope es).1 :=
  offersEach_snd_of (fun e _ scope => offers_snd scope e) scope

/-- The visits of the nodes of an expression that starts in a scope. -/
def visits (oracle : Oracle) (scope : Scope) (e : Expr Origin) : List Visit :=
  List.zipWith Visit.mk (offers oracle scope e).1 e.addresses

/-- The visits of the nodes of a list of expressions, the first of which is the part at a given
position. -/
def visitsEach (oracle : Oracle) (scope : Scope) (n : Nat) (es : List (Expr Origin)) : List Visit :=
  List.zipWith Visit.mk (offersEach oracle scope es).1 (Expr.addressesEach n es)

/-- Every offer has an address. -/
theorem length_offers (scope : Scope) (e : Expr Origin) :
    (offers oracle scope e).1.length = e.addresses.length := by
  rw [Expr.length_addresses, ← exprs_offers oracle scope e, List.length_map]

/-- Every offer in a list of expressions has an address. -/
theorem length_offersEach (scope : Scope) (n : Nat) (es : List (Expr Origin)) :
    (offersEach oracle scope es).1.length = (Expr.addressesEach n es).length := by
  rw [Expr.length_addressesEach, ← exprs_offersEach oracle scope es, List.length_map]

/-- The nodes of an expression are visited after those of its direct parts. -/
theorem visits_eq (scope : Scope) (e : Expr Origin) :
    visits oracle scope e = visitsEach oracle scope 0 e.children ++ [⟨⟨scope, e⟩, []⟩] := by
  rw [visits, offers_eq, Expr.addresses_eq, List.zipWith_append (length_offersEach scope 0 _)]
  rfl

/-- The nodes of a list of expressions are visited expression by expression. -/
theorem visitsEach_cons (scope : Scope) (n : Nat) (e : Expr Origin) (es : List (Expr Origin)) :
    visitsEach oracle scope n (e :: es) =
      (visits oracle scope e).map (Visit.within n) ++
        visitsEach oracle (offers oracle scope e).2 (n + 1) es := by
  have hlength : (offers oracle scope e).1.length = (e.addresses.map (n :: ·)).length := by
    rw [List.length_map, length_offers]
  simp only [visitsEach, offersEach, Expr.addressesEach]
  rw [List.zipWith_append hlength, List.zipWith_map_right, visits, List.map_zipWith]
  rfl

/-- A node is visited in a list of expressions when it is visited in one of them, which starts
where those before it end. -/
theorem mem_visitsEach {scope : Scope} {n : Nat} {es : List (Expr Origin)} {v : Visit} :
    v ∈ visitsEach oracle scope n es ↔
      ∃ i c, es[i]? = some c ∧
        ∃ w ∈ visits oracle (offersEach oracle scope (es.take i)).2 c, v = w.within (n + i) := by
  induction es generalizing scope n with
  | nil => simp [visitsEach, offersEach]
  | cons e es ih =>
    rw [visitsEach_cons, List.mem_append, List.mem_map, ih]
    constructor
    · rintro (⟨w, hw, rfl⟩ | ⟨i, c, hc, w, hw, rfl⟩)
      · exact ⟨0, e, rfl, w, hw, rfl⟩
      · have hposition : n + 1 + i = n + (i + 1) := by omega
        exact ⟨i + 1, c, hc, w, hw, by rw [hposition]⟩
    · rintro ⟨i, c, hc, w, hw, rfl⟩
      cases i with
      | zero =>
        cases hc
        exact Or.inl ⟨w, hw, rfl⟩
      | succ i =>
        have hposition : n + (i + 1) = n + 1 + i := by omega
        exact Or.inr ⟨i, c, hc, w, hw, by rw [hposition]⟩

/-- A node is visited when it is the whole expression or is visited in one of the direct parts,
which starts where those before it end. -/
theorem mem_visits {scope : Scope} {e : Expr Origin} {v : Visit} :
    v ∈ visits oracle scope e ↔
      v = ⟨⟨scope, e⟩, []⟩ ∨
        ∃ i c, e.children[i]? = some c ∧
          ∃ w ∈ visits oracle (offersEach oracle scope (e.children.take i)).2 c,
            v = w.within i := by
  rw [visits_eq, List.mem_append, List.mem_singleton, mem_visitsEach, or_comm]
  simp only [Nat.zero_add]

end Checker

/-- The scope of every visit is the one at the start in which the assignments of those visits are
done that come before it and do not stand inside it. -/
def Threaded (oracle : Oracle) (start : Scope) (vs : List Visit) : Prop :=
  ∀ earlier v later, vs = earlier ++ v :: later →
    v.scope = start.rebound oracle ((earlier.filter fun u => !u.inside v).map Visit.toOffer)

namespace Threaded

variable {oracle : Oracle} {start : Scope} {vs ws : List Visit}

/-- The last visit of a list is threaded by itself, and so are the others. -/
theorem concat_iff {v : Visit} :
    Threaded oracle start (vs ++ [v]) ↔ Threaded oracle start vs ∧
      v.scope = start.rebound oracle ((vs.filter fun u => !u.inside v).map Visit.toOffer) := by
  constructor
  · intro h
    refine ⟨fun earlier u later hvs => ?_, h vs v [] rfl⟩
    apply h earlier u (later ++ [v])
    rw [hvs, List.append_assoc, List.cons_append]
  · rintro ⟨h, hv⟩ earlier u later hvs
    rcases List.eq_nil_or_concat later with rfl | ⟨later, w, rfl⟩
    · obtain ⟨rfl, hu⟩ := List.append_inj' hvs rfl
      cases hu
      exact hv
    · rw [List.concat_eq_append, ← List.cons_append, ← List.append_assoc] at hvs
      exact h earlier u later (List.append_inj' hvs rfl).1

/-- No visit at all is threaded. -/
theorem nil : Threaded oracle start [] := fun _ _ _ h => absurd h.symm (by simp)

/-- Two threaded lists are threaded together when the second starts where the first ends and is
about nodes that contain none of the first. -/
theorem append (hvs : Threaded oracle start vs)
    (hws : Threaded oracle (start.rebound oracle (vs.map Visit.toOffer)) ws)
    (hout : ∀ u ∈ vs, ∀ w ∈ ws, u.inside w = false) : Threaded oracle start (vs ++ ws) := by
  induction ws using List.reverseRec with
  | nil => rwa [List.append_nil]
  | append_singleton ws w ih =>
    obtain ⟨hws, hw⟩ := concat_iff.mp hws
    have hkeep : vs.filter (fun u => !u.inside w) = vs := by
      rw [List.filter_eq_self]
      intro u hu
      rw [hout u hu w List.mem_concat_self, Bool.not_false]
    have hboth : Threaded oracle start (vs ++ ws) :=
      ih hws fun u hu x hx => hout u hu x (List.mem_append_left _ hx)
    rw [← List.append_assoc, concat_iff]
    refine ⟨hboth, ?_⟩
    rw [hw, List.filter_append, hkeep, List.map_append, Scope.rebound_append]

end Threaded

namespace Checker

variable {oracle : Oracle}

end Checker

end OperatorLint
