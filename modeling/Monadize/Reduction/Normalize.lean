import Monadize.Reduction.Rules

/-! Normal forms of terms under a rule set, with the steps that lead to them. -/

namespace Monadize

/-- One application of a rule, to the node `before`. -/
structure Reduction where
  rule : String
  before : Term
  after : Term
  deriving DecidableEq

namespace RuleSet

/-- The step of the first rule that applies at the root. -/
def step? (set : RuleSet) (t : Term) : Option Reduction :=
  set.rules.findSome? fun rule => (rule.apply t).map fun after => ⟨rule.name, t, after⟩

/-- Apply rules at the root until none applies, at most `fuel` times. The steps are put in front of
`steps`, the last one first. -/
def reduceRoot (set : RuleSet) : (fuel : Nat) → Term → (steps : List Reduction) →
    Term × List Reduction
  | 0, t, steps => (t, steps)
  | fuel + 1, t, steps =>
      match set.step? t with
      | none => (t, steps)
      | some step => set.reduceRoot fuel step.after (step :: steps)

/-- The steps before do not change those at the root. -/
theorem reduceRoot_eq (set : RuleSet) (fuel : Nat) (t : Term) (steps : List Reduction)
    : set.reduceRoot fuel t steps
      = ((set.reduceRoot fuel t []).1, (set.reduceRoot fuel t []).2 ++ steps) := by
  induction fuel generalizing t steps with
  | zero => rfl
  | succ fuel ih =>
    simp only [reduceRoot]
    cases set.step? t with
    | none => rfl
    | some step =>
      simp only
      rw [ih step.after (step :: steps), ih step.after [step]]
      simp

/-- How often rules apply at the root of a term whose parts are normal: a first step may simplify a
predicate, and any other leads to a part or to a term without parts, where none applies. -/
def rootSteps : Nat := 2

/-- Bring a term to normal form, innermost parts first. After a step only the root needs another
look, because every rule leads to a part of the term or to a node over its parts. The steps are put
in front of `steps`, the last one first. -/
def normalizeFrom (set : RuleSet) : Term → (steps : List Reduction) → Term × List Reduction
  | .seq a b, steps =>
      let (a, steps) := set.normalizeFrom a steps
      let (b, steps) := set.normalizeFrom b steps
      set.reduceRoot rootSteps (.seq a b) steps
  | .tryCatch a b, steps =>
      let (a, steps) := set.normalizeFrom a steps
      let (b, steps) := set.normalizeFrom b steps
      set.reduceRoot rootSteps (.tryCatch a b) steps
  | .condition pred a b, steps =>
      let (a, steps) := set.normalizeFrom a steps
      let (b, steps) := set.normalizeFrom b steps
      set.reduceRoot rootSteps (.condition pred a b) steps
  | .loop pred body, steps =>
      let (body, steps) := set.normalizeFrom body steps
      set.reduceRoot rootSteps (.loop pred body) steps
  | .recGuard measure body, steps =>
      let (body, steps) := set.normalizeFrom body steps
      set.reduceRoot rootSteps (.recGuard measure body) steps
  | t, steps => set.reduceRoot rootSteps t steps

/-- The steps before change neither the normal form nor the steps to it. -/
theorem normalizeFrom_eq (set : RuleSet) (t : Term) (steps : List Reduction)
    : set.normalizeFrom t steps
      = ((set.normalizeFrom t []).1, (set.normalizeFrom t []).2 ++ steps) := by
  induction t generalizing steps with
  | seq a b iha ihb | tryCatch a b iha ihb | condition _ a b iha ihb =>
    simp only [normalizeFrom]
    rw [iha steps, ihb _, reduceRoot_eq, ihb (set.normalizeFrom a []).2,
      reduceRoot_eq _ _ _ (_ ++ (set.normalizeFrom a []).2)]
    simp
  | loop _ body ih | recGuard _ body ih =>
    simp only [normalizeFrom]
    rw [ih steps, reduceRoot_eq, reduceRoot_eq _ _ _ (set.normalizeFrom body []).2]
    simp
  | _ => exact reduceRoot_eq ..

/-- The normal form of a term, and the steps that lead to it in order. -/
def normalize (set : RuleSet) (t : Term) : Term × List Reduction :=
  let (result, steps) := set.normalizeFrom t []
  (result, steps.reverse)

end RuleSet

end Monadize
