import Monadize.Proofs.Reduction.Contraction

/-! Reductions as rewriting sequences of whole terms. A step knows only the node before and the node
after it; the places of the nodes come from the traversal. What normalization keeps of a term is
what a step keeps, at any place.
-/

namespace Monadize

namespace RuleSet

/-- The step is what the set does at its node: the rule that it names is the first one to apply, and
yields the node after it.
-/
def Takes (set : RuleSet) (step : Reduction) : Prop :=
  ∃ earlier rule later,
    set.rules = earlier ++ rule :: later
    ∧ (∀ r ∈ earlier, r.apply step.before = none)
    ∧ rule.apply step.before = some step.after
    ∧ rule.name = step.rule

theorem takes_step {set : RuleSet} {t : Term} {step : Reduction} (found : set.step? t = some step)
    : step.before = t ∧ set.Takes step := by
  obtain ⟨earlier, rule, later, split, applied, none⟩ := List.findSome?_eq_some_iff.mp found
  obtain ⟨after, result, rfl⟩ := Option.map_eq_some_iff.mp applied
  exact ⟨rfl, earlier, rule, later, split,
    fun r among => Option.map_eq_none_iff.mp (none r among), result, rfl⟩

theorem Takes.contracts {set : RuleSet} {step : Reduction} (taken : set.Takes step)
    : step.before.Contracts step.after := by
  obtain ⟨earlier, rule, later, split, _, applied, _⟩ := taken
  have member : rule ∈ set.rules := by
    rw [split]
    exact List.mem_append_right earlier List.mem_cons_self
  exact contracts_of_apply member applied

/-- A step at the root is a contraction. -/
theorem contracts_step {set : RuleSet} {t : Term} {step : Reduction}
    (found : set.step? t = some step)
    : t.Contracts step.after := by
  obtain ⟨rfl, taken⟩ := takes_step found
  exact taken.contracts

-----------------------------------------------------------------------------------------
-- Rewriting sequences
-----------------------------------------------------------------------------------------

/-- A rewriting sequence of a whole term. Each step replaces the node before it, at one place, by
the node after it.
-/
inductive Rewrites (set : RuleSet) : Term → List Reduction → Term → Prop
  | nil (t) : Rewrites set t [] t
  | cons {step steps t'} (place : List Term.Frame) (taken : set.Takes step)
    (rest : Rewrites set (Term.fill place step.after) steps t')
    : Rewrites set (Term.fill place step.before) (step :: steps) t'

namespace Rewrites

variable {set : RuleSet}

theorem append {a b c : Term} {xs ys : List Reduction} (first : set.Rewrites a xs b)
    (second : set.Rewrites b ys c)
    : set.Rewrites a (xs ++ ys) c := by
  induction first with
  | nil => exact second
  | cons place taken _ ih => exact .cons place taken (ih second)

/-- What rewrites a part rewrites the node around it, by induction on the steps. -/
theorem inFrame (frame : Term.Frame) {t t' : Term} {steps : List Reduction}
    (h : set.Rewrites t steps t')
    : set.Rewrites (frame.fill t) steps (frame.fill t') := by
  induction h with
  | nil t => exact .nil (frame.fill t)
  | cons place taken _ ih => exact .cons (frame :: place) taken ih

/-- The two ends of a rewriting sequence are in every compatible relation. -/
theorem related {R : Term → Term → Prop} (compatible : Term.Compatible R) {t t' : Term}
    {steps : List Reduction} (h : set.Rewrites t steps t')
    : R t t' := by
  induction h with
  | nil t => exact compatible.refl t
  | cons place taken _ ih =>
      have here := compatible.contracts taken.contracts
      exact compatible.trans (compatible.fill place here) ih

/-- No rule applies to a recursion guard, so that it stays at the root and the steps are those of
its body.
-/
theorem of_recGuard {m : MeasureId} {body t' : Term} {steps : List Reduction}
    (h : set.Rewrites (.recGuard m body) steps t')
    : ∃ body', t' = .recGuard m body' ∧ set.Rewrites body steps body' := by
  generalize guarded : Term.recGuard m body = t at h
  induction h generalizing body with
  | nil => exact ⟨body, guarded.symm, .nil body⟩
  | @cons step _ _ place taken _ ih =>
      cases place with
      | nil =>
          have before : step.before = .recGuard m body := guarded.symm
          have impossible := taken.contracts
          rw [before] at impossible
          cases impossible
      | cons frame inner =>
          cases frame with
          | guardBody =>
              obtain ⟨rfl, rfl⟩ := Term.recGuard.inj guarded
              obtain ⟨body', same, rest⟩ := ih rfl
              exact ⟨body', same, .cons inner taken rest⟩
          | _ => cases guarded

end Rewrites

/-- Rewriting with one set after the other. -/
inductive RewritesAll : List RuleSet → Term → List Reduction → Term → Prop
  | nil (t) : RewritesAll [] t [] t
  | cons {set sets xs ys t t' t''} (first : set.Rewrites t xs t')
    (rest : RewritesAll sets t' ys t'')
    : RewritesAll (set :: sets) t (xs ++ ys) t''

theorem RewritesAll.append {some others : List RuleSet} {a b c : Term} {xs ys : List Reduction}
    (first : RewritesAll some a xs b) (second : RewritesAll others b ys c)
    : RewritesAll (some ++ others) a (xs ++ ys) c := by
  induction first with
  | nil => exact second
  | cons here _ ih =>
      rw [List.append_assoc]
      exact .cons here (ih second)

-----------------------------------------------------------------------------------------
-- Normalization
-----------------------------------------------------------------------------------------

variable (set : RuleSet)

/-- What becomes of the root, with the steps there in order. -/
def rootForm (t : Term) : Term × List Reduction :=
  ((set.reduceRoot rootSteps t []).1, (set.reduceRoot rootSteps t []).2.reverse)

/-- A node over normalized parts: the steps of the parts and then those at the root. -/
theorem normalize_two (node : Term → Term → Term) (a b : Term)
    (recursion : set.normalizeFrom (node a b) []
      = set.reduceRoot rootSteps
          (node (set.normalizeFrom a []).1
            (set.normalizeFrom b (set.normalizeFrom a []).2).1)
          (set.normalizeFrom b (set.normalizeFrom a []).2).2)
    : set.normalize (node a b)
      = ((set.rootForm (node (set.normalize a).1 (set.normalize b).1)).1,
          (set.normalize a).2 ++ (set.normalize b).2
            ++ (set.rootForm (node (set.normalize a).1 (set.normalize b).1)).2) := by
  simp only [normalize, rootForm]
  rw [recursion, normalizeFrom_eq set b, reduceRoot_eq]
  simp

theorem normalize_one (node : Term → Term) (body : Term)
    (recursion : set.normalizeFrom (node body) []
      = set.reduceRoot rootSteps (node (set.normalizeFrom body []).1)
          (set.normalizeFrom body []).2)
    : set.normalize (node body)
      = ((set.rootForm (node (set.normalize body).1)).1,
          (set.normalize body).2 ++ (set.rootForm (node (set.normalize body).1)).2) := by
  simp only [normalize, rootForm]
  rw [recursion, reduceRoot_eq]
  simp

namespace Rewrites

/-- The steps at a root, by induction on their bound. -/
theorem reduceRoot (fuel : Nat) (t : Term)
    : set.Rewrites t (set.reduceRoot fuel t []).2.reverse (set.reduceRoot fuel t []).1 := by
  induction fuel generalizing t with
  | zero => exact .nil t
  | succ fuel ih =>
      simp only [RuleSet.reduceRoot]
      cases found : set.step? t with
      | none => exact .nil t
      | some step =>
          obtain ⟨rfl, taken⟩ := takes_step found
          simp only
          rw [reduceRoot_eq, List.reverse_append]
          exact .cons [] taken (ih step.after)

theorem rootForm (t : Term) : set.Rewrites t (set.rootForm t).2 (set.rootForm t).1 :=
  reduceRoot set rootSteps t

/-- The steps of normalization: those of the left part leave the right one as it is, those of the
right part find the left one normalized, and those at the root find both so. By induction on the
term.
-/
theorem normalize (t : Term) : set.Rewrites t (set.normalize t).2 (set.normalize t).1 := by
  induction t with
  | seq a b iha ihb =>
      rw [set.normalize_two Term.seq a b rfl]
      exact ((iha.inFrame (.seqFirst b)).append (ihb.inFrame (.seqSecond _))).append (rootForm ..)
  | tryCatch a b iha ihb =>
      rw [set.normalize_two Term.tryCatch a b rfl]
      exact ((iha.inFrame (.catchBody b)).append (ihb.inFrame (.catchHandler _))).append
        (rootForm ..)
  | condition p a b iha ihb =>
      rw [set.normalize_two (Term.condition p) a b rfl]
      exact ((iha.inFrame (.conditionLeft p b)).append (ihb.inFrame (.conditionRight p _))).append
        (rootForm ..)
  | loop p body ih =>
      rw [set.normalize_one (Term.loop p) body rfl]
      exact (ih.inFrame (.loopBody p)).append (rootForm ..)
  | recGuard m body ih =>
      rw [set.normalize_one (Term.recGuard m) body rfl]
      exact (ih.inFrame (.guardBody m)).append (rootForm ..)
  | _ => exact rootForm ..

end Rewrites

/-- A term and its normal form are in every compatible relation. -/
theorem related_normalize {R : Term → Term → Prop} (compatible : Term.Compatible R) (t : Term)
    : R t (set.normalize t).1 :=
  (Rewrites.normalize set t).related compatible

end RuleSet

end Monadize
