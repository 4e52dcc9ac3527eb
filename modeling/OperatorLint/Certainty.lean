/-!
# Three-valued answers

A question about a static type is answered `no`, `maybe` or `yes`. The answers are ordered
`no < maybe < yes`; `and` and `or` are the smaller and the larger of two answers, while `agree`
keeps a shared answer and blurs every disagreement to `maybe`.
-/

namespace OperatorLint

/-- How certainly something holds of every value of a type. -/
inductive Certainty where
  /-- It holds of no value. -/
  | no
  /-- It may hold of some values. -/
  | maybe
  /-- It holds of every value. -/
  | yes
deriving DecidableEq, Repr

namespace Certainty

/-- The certain answer for a fact that is already known. -/
def ofBool : Bool → Certainty
  | true => yes
  | false => no

/-- The answer is a certain `yes`. -/
def isYes (c : Certainty) : Bool := c = yes

/-- The answer is the uncertain one. -/
def isMaybe (c : Certainty) : Bool := c = maybe

/-- The answer is a certain `no`. -/
def isNo (c : Certainty) : Bool := c = no

/-- The answer to the opposite question. -/
def not : Certainty → Certainty
  | no => yes
  | maybe => maybe
  | yes => no

/-- The weaker of two answers. -/
def and : Certainty → Certainty → Certainty
  | no, _ => no
  | _, no => no
  | yes, c => c
  | c, yes => c
  | maybe, maybe => maybe

/-- The stronger of two answers. -/
def or : Certainty → Certainty → Certainty
  | yes, _ => yes
  | _, yes => yes
  | no, c => c
  | c, no => c
  | maybe, maybe => maybe

/-- The shared answer, or `maybe` where the two answers differ. -/
def agree (a b : Certainty) : Certainty := if a = b then a else maybe

/-- The answer that all answers of a list share; a list with two different answers gives
`maybe`, and the empty list gives `yes`. -/
def agreeAll : List Certainty → Certainty
  | [] => yes
  | c :: cs => cs.foldl agree c

/-- The strongest answer of a list, `no` when it is empty. -/
def strongest (cs : List Certainty) : Certainty := cs.foldr or no

/-- The name by which an answer is shown. -/
def name : Certainty → String
  | no => "No"
  | maybe => "Maybe"
  | yes => "Yes"

/-- The test for certainty agrees with equality to `yes`. -/
theorem isYes_iff {c : Certainty} : c.isYes = true ↔ c = yes := by
  cases c <;> decide

/-- The test for refusal agrees with equality to `no`. -/
theorem isNo_iff {c : Certainty} : c.isNo = true ↔ c = no := by
  cases c <;> decide

/-- Both answers are certain exactly when the weaker one is. -/
theorem and_eq_yes {a b : Certainty} : a.and b = yes ↔ a = yes ∧ b = yes := by
  cases a <;> cases b <;> decide

/-- One answer is certain exactly when the stronger one is. -/
theorem or_eq_yes {a b : Certainty} : a.or b = yes ↔ a = yes ∨ b = yes := by
  cases a <;> cases b <;> decide

/-- The stronger of two answers is `no` only when both are. -/
theorem or_eq_no {a b : Certainty} : a.or b = no ↔ a = no ∧ b = no := by
  cases a <;> cases b <;> decide

/-- An agreement on `yes` has `yes` on both sides. -/
theorem agree_eq_yes {a b : Certainty} : agree a b = yes ↔ a = yes ∧ b = yes := by
  cases a <;> cases b <;> decide

/-- An agreement on `no` has `no` on both sides. -/
theorem agree_eq_no {a b : Certainty} : agree a b = no ↔ a = no ∧ b = no := by
  cases a <;> cases b <;> decide

/-- Agreement does not depend on the order of its sides. -/
theorem agree_comm (a b : Certainty) : agree a b = agree b a := by
  cases a <;> cases b <;> rfl

/-- A running agreement ends certain exactly when it starts so and meets nothing else. -/
theorem foldl_agree_eq_yes {cs : List Certainty} {c : Certainty} :
    cs.foldl agree c = yes ↔ c = yes ∧ ∀ d ∈ cs, d = yes := by
  induction cs generalizing c with
  | nil => simp
  | cons d cs ih => simp [List.foldl_cons, ih, agree_eq_yes, and_assoc]

/-- A list agrees on `yes` exactly when it holds nothing else. -/
theorem agreeAll_eq_yes {cs : List Certainty} : agreeAll cs = yes ↔ ∀ c ∈ cs, c = yes := by
  cases cs with
  | nil => simp [agreeAll]
  | cons c cs => simp [agreeAll, foldl_agree_eq_yes]

/-- The strongest answer is `yes` exactly when the list holds one. -/
theorem strongest_eq_yes {cs : List Certainty} : strongest cs = yes ↔ yes ∈ cs := by
  induction cs with
  | nil => simp [strongest]
  | cons c cs ih =>
    rw [strongest] at ih
    simp [strongest, or_eq_yes, ih, @eq_comm _ yes c]

/-- The strongest answer is `no` exactly when the list holds nothing else. -/
theorem strongest_eq_no {cs : List Certainty} : strongest cs = no ↔ ∀ c ∈ cs, c = no := by
  induction cs with
  | nil => simp [strongest]
  | cons c cs ih =>
    rw [strongest] at ih
    simp [strongest, or_eq_no, ih]

end Certainty

end OperatorLint
