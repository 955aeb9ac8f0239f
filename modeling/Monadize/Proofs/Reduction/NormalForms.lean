import Monadize.Proofs.Expr.Idempotence
import Monadize.Proofs.Reduction.Rewriting

/-! Normalization ends, and ends in a normal form. At a root whose parts are normal, a rule leads to
one of the parts, to a term without parts, or to the same node with a simplified predicate; and a
predicate is simplified once only. So two steps are enough there, whatever the rule set.
-/

namespace Monadize

-----------------------------------------------------------------------------------------
-- Predicates
-----------------------------------------------------------------------------------------

/-- Simplification returns: its recursion is finite. -/
def Expr.SimplifyEnds (e : Expr) : Prop := ∃ depth r, e.simplify? depth = some r

theorem Expr.SimplifyEnds.simplify {e : Expr} (h : e.SimplifyEnds) : e.simplify.SimplifyEnds := by
  cases done : e.simplify? simplifyDepth with
  | none => rwa [Expr.simplify, done, Option.getD_none]
  | some r =>
      rw [Expr.simplify, done, Option.getD_some]
      exact ⟨simplifyDepth, r, Expr.simplify?_of_simplify? done (Nat.le_refl _)⟩

namespace Rule

theorem simplified?_eq_some {p q : Expr} (simplified : simplified? p = some q)
    : q = p.simplify := by
  simp only [simplified?] at simplified
  split at simplified
  · cases simplified
  · exact (Option.some.inj simplified).symm

/-- A predicate is simplified once only. -/
theorem simplified?_of_simplified? {p q : Expr} (simplified : simplified? p = some q)
    : simplified? q = none := by
  rw [simplified?_eq_some simplified, simplified?, if_pos p.simplify_simplify]

end Rule

namespace Term

/-- The predicate of the node at the root. -/
def pred? : Term → Option Expr
  | .guard pred => some pred
  | .condition pred _ _ => some pred
  | .loop pred _ => some pred
  | _ => none

/-- The node at the root with another predicate. -/
def withPred : Term → Expr → Term
  | .guard _, pred => .guard pred
  | .condition _ left right, pred => .condition pred left right
  | .loop _ body, pred => .loop pred body
  | t, _ => t

theorem children_withPred (t : Term) (pred : Expr) : (t.withPred pred).children = t.children := by
  cases t <;> rfl

theorem pred?_withPred {t : Term} {p : Expr} (has : t.pred? = some p) (q : Expr)
    : (t.withPred q).pred? = some q := by
  cases t with
  | guard | condition | loop => rfl
  | _ => cases has

/-- The predicates of the guards, conditions and loops, left to right. -/
def predicates : Term → List Expr
  | .seq a b => a.predicates ++ b.predicates
  | .tryCatch a b => a.predicates ++ b.predicates
  | .condition pred a b => pred :: (a.predicates ++ b.predicates)
  | .loop pred body => pred :: body.predicates
  | .guard pred => [pred]
  | .recGuard _ body => body.predicates
  | _ => []

theorem mem_predicates_of_pred? {t : Term} {p : Expr} (has : t.pred? = some p)
    : p ∈ t.predicates := by
  cases t with
  | guard | condition | loop =>
      cases has
      exact List.mem_cons_self
  | _ => cases has

theorem mem_predicates_of_mem_children {t child : Term} (among : child ∈ t.children) {p : Expr}
    (inside : p ∈ child.predicates)
    : p ∈ t.predicates := by
  obtain ⟨frame, rfl⟩ := exists_frame_of_mem_children among
  cases frame <;> simp [Frame.fill, predicates, inside]

theorem mem_predicates_withPred {t : Term} {p q : Expr} (inside : p ∈ (t.withPred q).predicates)
    : p = q ∨ p ∈ t.predicates := by
  cases t with
  | guard | condition | loop => exact (List.mem_cons.mp inside).imp_right (List.mem_cons_of_mem _)
  | _ => exact .inr inside

/-- Simplification returns on all predicates of the term. -/
def PredicatesEnd (t : Term) : Prop := ∀ p ∈ t.predicates, p.SimplifyEnds

theorem PredicatesEnd.root {t : Term} (h : t.PredicatesEnd) (p : Expr) (has : t.pred? = some p)
    : p.SimplifyEnds :=
  h p (mem_predicates_of_pred? has)

theorem PredicatesEnd.child {t child : Term} (h : t.PredicatesEnd) (among : child ∈ t.children)
    : child.PredicatesEnd :=
  fun p inside => h p (mem_predicates_of_mem_children among inside)

-----------------------------------------------------------------------------------------
-- Where a contraction leads
-----------------------------------------------------------------------------------------

/-- A contraction leads to a part, to a term that nothing contracts, or to the same node with its
predicate simplified.
-/
theorem Contracts.leads {t t' : Term} (h : t.Contracts t')
    : t' ∈ t.children
      ∨ t' ∈ [Term.skip, .fail, .throw]
      ∨ ∃ p q, t.pred? = some p ∧ Rule.simplified? p = some q ∧ t' = t.withPred q := by
  cases h with
  | guardTrue | guardFalse | seqFail | modifyFail | initFail | loopFalse | seqThrow =>
      exact .inr (.inl (by simp))
  | guardSimp simplified => exact .inr (.inr ⟨_, _, rfl, simplified, rfl⟩)
  | conditionSimp simplified => exact .inr (.inr ⟨_, _, rfl, simplified, rfl⟩)
  | loopSimp simplified => exact .inr (.inr ⟨_, _, rfl, simplified, rfl⟩)
  | seqSkipLeft | seqSkipRight | conditionTrue | conditionFalse | conditionSame | catchNoThrow
  | catchThrow | catchRethrow => exact .inl (by simp [children])

/-- Simplification goes on returning: the only predicate that a contraction brings in is a
simplified one.
-/
theorem Contracts.predicatesEnd {t t' : Term} (h : t.Contracts t') (ends : t.PredicatesEnd)
    : t'.PredicatesEnd := by
  rcases h.leads with among | final | ⟨p, q, has, simplified, rfl⟩
  · exact ends.child among
  · simp only [List.mem_cons, List.not_mem_nil, or_false] at final
    rcases final with rfl | rfl | rfl
    all_goals
      intro _ inside
      cases inside
  · intro p' inside
    rcases mem_predicates_withPred inside with rfl | before
    · rw [Rule.simplified?_eq_some simplified]
      exact (ends.root p has).simplify
    · exact ends p' before

theorem compatible_predicatesEnd : Compatible fun t t' => t.PredicatesEnd → t'.PredicatesEnd where
  contracts h := h.predicatesEnd
  refl _ := id
  trans first second := second ∘ first
  seq ha hb := by
    simp only [PredicatesEnd, predicates, List.forall_mem_append] at *
    exact fun ends => ⟨ha ends.1, hb ends.2⟩
  tryCatch ha hb := by
    simp only [PredicatesEnd, predicates, List.forall_mem_append] at *
    exact fun ends => ⟨ha ends.1, hb ends.2⟩
  condition _ _ _ _ _ ha hb := by
    simp only [PredicatesEnd, predicates, List.forall_mem_cons, List.forall_mem_append] at *
    exact fun ends => ⟨ends.1, ha ends.2.1, hb ends.2.2⟩
  loop _ _ _ hb := by
    simp only [PredicatesEnd, predicates, List.forall_mem_cons] at *
    exact fun ends => ⟨ends.1, hb ends.2⟩
  recGuard _ _ _ hb := hb

end Term

namespace RuleSet

variable (set : RuleSet)

-----------------------------------------------------------------------------------------
-- Normal forms
-----------------------------------------------------------------------------------------

/-- No rule of the set applies anywhere in the term. -/
def Normal (t : Term) : Prop :=
  ∀ node, t.Contains node → ∀ rule ∈ set.rules, rule.apply node = none

theorem step?_eq_none_iff {t : Term}
    : set.step? t = none ↔ ∀ rule ∈ set.rules, rule.apply t = none := by
  simp [step?, List.findSome?_eq_none_iff]

/-- A term is normal if nothing applies at its root and its children are normal. -/
theorem normal_iff {t : Term}
    : set.Normal t ↔ set.step? t = none ∧ ∀ child ∈ t.children, set.Normal child := by
  simp only [Normal, Term.contains_iff (t := t), step?_eq_none_iff]
  constructor
  · intro normal
    exact ⟨normal t (.inl rfl), fun child among node inside =>
      normal node (.inr ⟨child, among, inside⟩)⟩
  · rintro ⟨root, below⟩ node (rfl | ⟨child, among, inside⟩)
    · exact root
    · exact below child among node inside

variable {set}

theorem Normal.child {t child : Term} (h : set.Normal t) (among : child ∈ t.children)
    : set.Normal child :=
  (set.normal_iff.mp h).2 child among

theorem Normal.step?_eq_none {t : Term} (h : set.Normal t) : set.step? t = none :=
  (set.normal_iff.mp h).1

theorem step?_eq_none_of_not_contracts {t : Term} (none : ∀ t', ¬ t.Contracts t')
    : set.step? t = .none := by
  cases found : set.step? t with
  | none => rfl
  | some step => exact (none _ (contracts_step found)).elim

theorem normal_of_end {t : Term} (final : t ∈ [Term.skip, .fail, .throw]) : set.Normal t := by
  simp only [List.mem_cons, List.not_mem_nil, or_false] at final
  rcases final with rfl | rfl | rfl
  all_goals
    refine set.normal_iff.mpr ⟨step?_eq_none_of_not_contracts ?_, ?_⟩
    · intro t' h
      cases h
    · intro child among
      cases among

-----------------------------------------------------------------------------------------
-- The steps at a root
-----------------------------------------------------------------------------------------

/-- A step over normal parts leads to a normal form, or to the same node with a predicate that is
simplified already.
-/
theorem normal_or_simplified {t : Term} {step : Reduction}
    (parts : ∀ child ∈ t.children, set.Normal child) (found : set.step? t = some step)
    : set.Normal step.after
      ∨ step.after.children = t.children
        ∧ ∀ p, step.after.pred? = some p → Rule.simplified? p = none := by
  rcases (contracts_step found).leads with among | final | ⟨p, q, has, simplified, same⟩
  · exact .inl (parts _ among)
  · exact .inl (normal_of_end final)
  · rw [same]
    refine .inr ⟨t.children_withPred q, fun p' has' => ?_⟩
    rw [Term.pred?_withPred has q] at has'
    cases has'
    exact Rule.simplified?_of_simplified? simplified

/-- Two steps are enough over normal parts: the second one, if there is one, simplifies nothing. -/
theorem normal_reduceRoot {t : Term} (parts : ∀ child ∈ t.children, set.Normal child)
    (steps : List Reduction)
    : set.Normal (set.reduceRoot rootSteps t steps).1 := by
  simp only [rootSteps, reduceRoot]
  cases first : set.step? t with
  | none => exact set.normal_iff.mpr ⟨first, parts⟩
  | some step =>
      simp only
      cases second : set.step? step.after with
      | none =>
          refine set.normal_iff.mpr ⟨second, ?_⟩
          rcases normal_or_simplified parts first with normal | ⟨same, _⟩
          · exact (set.normal_iff.mp normal).2
          · exact same ▸ parts
      | some next =>
          rcases normal_or_simplified parts first with normal | ⟨same, already⟩
          · rw [normal.step?_eq_none] at second
            cases second
          -- The first step has simplified the predicate, so that is not what the second one does.
          · rcases (contracts_step second).leads with among | final | ⟨p, q, has, simplified, _⟩
            · exact parts _ (same ▸ among)
            · exact normal_of_end final
            · rw [already p has] at simplified
              cases simplified

/-- Rules are applied at the root until none applies. Each time they are tried, simplification
returns on the predicate of the node.
-/
inductive Settles (set : RuleSet) : Term → List Reduction → Term → Prop
  | done {t} (tried : ∀ p, t.pred? = some p → p.SimplifyEnds) (none : set.step? t = none)
    : Settles set t [] t
  | step {t step steps t'} (tried : ∀ p, t.pred? = some p → p.SimplifyEnds)
    (found : set.step? t = some step) (rest : Settles set step.after steps t')
    : Settles set t (step :: steps) t'

/-- Bounded steps at the root that come to an end are all the steps there, by induction on the
bound.
-/
theorem settles_reduceRoot {fuel : Nat} {t : Term} (ends : t.PredicatesEnd)
    (stop : set.step? (set.reduceRoot fuel t []).1 = none)
    : set.Settles t (set.reduceRoot fuel t []).2.reverse (set.reduceRoot fuel t []).1 := by
  induction fuel generalizing t with
  | zero => exact .done ends.root stop
  | succ fuel ih =>
      simp only [reduceRoot] at stop ⊢
      cases found : set.step? t with
      | none => exact .done ends.root found
      | some step =>
          rw [found] at stop
          simp only at stop ⊢
          rw [reduceRoot_eq] at stop ⊢
          rw [List.reverse_append]
          exact .step ends.root found (ih ((contracts_step found).predicatesEnd ends) stop)

/-- Normalization: the parts first, from left to right, and then the root. -/
inductive Normalizes (set : RuleSet) : Term → List Reduction → Term → Prop
  | leaf {t steps t'} (atomic : t.children = []) (root : set.Settles t steps t')
    : Normalizes set t steps t'
  | seq {a b a' b' t' : Term} {xs ys steps} (first : Normalizes set a xs a')
    (second : Normalizes set b ys b') (root : set.Settles (.seq a' b') steps t')
    : Normalizes set (.seq a b) (xs ++ ys ++ steps) t'
  | tryCatch {a b a' b' t' : Term} {xs ys steps} (body : Normalizes set a xs a')
    (handler : Normalizes set b ys b') (root : set.Settles (.tryCatch a' b') steps t')
    : Normalizes set (.tryCatch a b) (xs ++ ys ++ steps) t'
  | condition {pred} {a b a' b' t' : Term} {xs ys steps} (left : Normalizes set a xs a')
    (right : Normalizes set b ys b') (root : set.Settles (.condition pred a' b') steps t')
    : Normalizes set (.condition pred a b) (xs ++ ys ++ steps) t'
  | loop {pred} {body body' t' : Term} {xs steps} (inside : Normalizes set body xs body')
    (root : set.Settles (.loop pred body') steps t')
    : Normalizes set (.loop pred body) (xs ++ steps) t'
  | recGuard {m} {body body' t' : Term} {xs steps} (inside : Normalizes set body xs body')
    (root : set.Settles (.recGuard m body') steps t')
    : Normalizes set (.recGuard m body) (xs ++ steps) t'

/-- The steps at a root are determined, by induction on them. -/
theorem Settles.unique {t a b : Term} {xs ys : List Reduction} (h : set.Settles t xs a)
    (h' : set.Settles t ys b)
    : xs = ys ∧ a = b := by
  induction h generalizing ys with
  | done _ none =>
      cases h' with
      | done => exact ⟨rfl, rfl⟩
      | step _ found =>
          rw [none] at found
          cases found
  | step _ found _ ih =>
      cases h' with
      | done _ none =>
          rw [none] at found
          cases found
      | step _ found' rest =>
          rw [found] at found'
          cases found'
          obtain ⟨rfl, rfl⟩ := ih rest
          exact ⟨rfl, rfl⟩

/-- A run of the normalization is determined, by induction on it. -/
theorem Normalizes.unique {t a b : Term} {xs ys : List Reduction} (h : set.Normalizes t xs a)
    (h' : set.Normalizes t ys b)
    : xs = ys ∧ a = b := by
  induction h generalizing ys b with
  | leaf atomic root =>
      cases h' with
      | leaf _ root' => exact root.unique root'
      | _ => cases atomic
  | seq _ _ root iha ihb =>
      cases h' with
      | leaf atomic => cases atomic
      | seq first second root' =>
          obtain ⟨rfl, rfl⟩ := iha first
          obtain ⟨rfl, rfl⟩ := ihb second
          obtain ⟨rfl, rfl⟩ := root.unique root'
          exact ⟨rfl, rfl⟩
  | tryCatch _ _ root iha ihb =>
      cases h' with
      | leaf atomic => cases atomic
      | tryCatch body handler root' =>
          obtain ⟨rfl, rfl⟩ := iha body
          obtain ⟨rfl, rfl⟩ := ihb handler
          obtain ⟨rfl, rfl⟩ := root.unique root'
          exact ⟨rfl, rfl⟩
  | condition _ _ root iha ihb =>
      cases h' with
      | leaf atomic => cases atomic
      | condition left right root' =>
          obtain ⟨rfl, rfl⟩ := iha left
          obtain ⟨rfl, rfl⟩ := ihb right
          obtain ⟨rfl, rfl⟩ := root.unique root'
          exact ⟨rfl, rfl⟩
  | loop _ root ih =>
      cases h' with
      | leaf atomic => cases atomic
      | loop inside root' =>
          obtain ⟨rfl, rfl⟩ := ih inside
          obtain ⟨rfl, rfl⟩ := root.unique root'
          exact ⟨rfl, rfl⟩
  | recGuard _ root ih =>
      cases h' with
      | leaf atomic => cases atomic
      | recGuard inside root' =>
          obtain ⟨rfl, rfl⟩ := ih inside
          obtain ⟨rfl, rfl⟩ := root.unique root'
          exact ⟨rfl, rfl⟩

-----------------------------------------------------------------------------------------
-- Normalization
-----------------------------------------------------------------------------------------

variable (set)

/-- Over normal parts the root settles, and what becomes of it is normal. -/
theorem settles_rootForm {t : Term} (ends : t.PredicatesEnd)
    (parts : ∀ child ∈ t.children, set.Normal child)
    : set.Settles t (set.rootForm t).2 (set.rootForm t).1 ∧ set.Normal (set.rootForm t).1 := by
  have normal : set.Normal (set.rootForm t).1 := normal_reduceRoot parts []
  exact ⟨settles_reduceRoot ends normal.step?_eq_none, normal⟩

variable {set}

/-- A term whose predicates can be simplified is normalized in a finite run, to a normal form; by
induction on the term.
-/
theorem normalizes_normalize {t : Term} (ends : t.PredicatesEnd)
    : set.Normalizes t (set.normalize t).2 (set.normalize t).1
      ∧ set.Normal (set.normalize t).1 := by
  have keeps := set.related_normalize Term.compatible_predicatesEnd
  induction t with
  | seq a b iha ihb =>
      obtain ⟨first, left⟩ := iha (ends.child (by simp [Term.children]))
      obtain ⟨second, right⟩ := ihb (ends.child (by simp [Term.children]))
      obtain ⟨root, normal⟩ := set.settles_rootForm
        (Term.compatible_predicatesEnd.seq (keeps a) (keeps b) ends)
        (by simp [Term.children, left, right])
      rw [set.normalize_two Term.seq a b rfl]
      exact ⟨.seq first second root, normal⟩
  | tryCatch a b iha ihb =>
      obtain ⟨body, left⟩ := iha (ends.child (by simp [Term.children]))
      obtain ⟨handler, right⟩ := ihb (ends.child (by simp [Term.children]))
      obtain ⟨root, normal⟩ := set.settles_rootForm
        (Term.compatible_predicatesEnd.tryCatch (keeps a) (keeps b) ends)
        (by simp [Term.children, left, right])
      rw [set.normalize_two Term.tryCatch a b rfl]
      exact ⟨.tryCatch body handler root, normal⟩
  | condition p a b iha ihb =>
      obtain ⟨first, left⟩ := iha (ends.child (by simp [Term.children]))
      obtain ⟨second, right⟩ := ihb (ends.child (by simp [Term.children]))
      obtain ⟨root, normal⟩ := set.settles_rootForm
        (Term.compatible_predicatesEnd.condition p (keeps a) (keeps b) ends)
        (by simp [Term.children, left, right])
      rw [set.normalize_two (Term.condition p) a b rfl]
      exact ⟨.condition first second root, normal⟩
  | loop p body ih =>
      obtain ⟨inside, below⟩ := ih (ends.child (by simp [Term.children]))
      obtain ⟨root, normal⟩ := set.settles_rootForm
        (Term.compatible_predicatesEnd.loop p (keeps body) ends) (by simp [Term.children, below])
      rw [set.normalize_one (Term.loop p) body rfl]
      exact ⟨.loop inside root, normal⟩
  | recGuard m body ih =>
      obtain ⟨inside, below⟩ := ih (ends.child (by simp [Term.children]))
      obtain ⟨root, normal⟩ := set.settles_rootForm
        (Term.compatible_predicatesEnd.recGuard m (keeps body) ends)
        (by simp [Term.children, below])
      rw [set.normalize_one (Term.recGuard m) body rfl]
      exact ⟨.recGuard inside root, normal⟩
  | _ =>
      obtain ⟨root, normal⟩ := set.settles_rootForm ends (by simp [Term.children])
      exact ⟨.leaf rfl root, normal⟩

theorem rootForm_of_step? {t : Term} (none : set.step? t = none) : set.rootForm t = (t, []) := by
  simp [rootForm, rootSteps, reduceRoot, none]

/-- A normal form stays as it is, without a step; by induction on the term. -/
theorem Normal.normalize_eq {t : Term} (h : set.Normal t) : set.normalize t = (t, []) := by
  induction t with
  | seq a b iha ihb =>
      rw [set.normalize_two Term.seq a b rfl, iha (h.child (by simp [Term.children])),
        ihb (h.child (by simp [Term.children])), rootForm_of_step? h.step?_eq_none]
      rfl
  | tryCatch a b iha ihb =>
      rw [set.normalize_two Term.tryCatch a b rfl, iha (h.child (by simp [Term.children])),
        ihb (h.child (by simp [Term.children])), rootForm_of_step? h.step?_eq_none]
      rfl
  | condition p a b iha ihb =>
      rw [set.normalize_two (Term.condition p) a b rfl, iha (h.child (by simp [Term.children])),
        ihb (h.child (by simp [Term.children])), rootForm_of_step? h.step?_eq_none]
      rfl
  | loop p body ih =>
      rw [set.normalize_one (Term.loop p) body rfl, ih (h.child (by simp [Term.children])),
        rootForm_of_step? h.step?_eq_none]
      rfl
  | recGuard m body ih =>
      rw [set.normalize_one (Term.recGuard m) body rfl, ih (h.child (by simp [Term.children])),
        rootForm_of_step? h.step?_eq_none]
      rfl
  | _ => exact rootForm_of_step? h.step?_eq_none

/-- Normalization of a term on whose predicates simplification returns is a finite run, without a
bound on the steps at a root, and no rule of the set applies at any node of the result; so the
result is its own normal form, without a step.
-/
theorem normalize_ends_normal (set : RuleSet) (t : Term)
    (returns : ∀ p ∈ t.predicates, ∃ depth r, p.simplify? depth = some r)
    : (∀ steps t', set.Normalizes t steps t' ↔ set.normalize t = (t', steps))
      ∧ (∀ node,
          (set.normalize t).1.Contains node → ∀ rule ∈ set.rules, rule.apply node = none)
      ∧ set.normalize (set.normalize t).1 = ((set.normalize t).1, []) := by
  obtain ⟨run, normal⟩ := @normalizes_normalize set t returns
  refine ⟨fun steps t' => ⟨fun other => ?_, fun same => ?_⟩, normal, normal.normalize_eq⟩
  · obtain ⟨rfl, rfl⟩ := run.unique other
    rfl
  · rwa [same] at run

/-- A condition that never holds, as a membership in an empty comprehension, in front of a loop. -/
def tangled : Term :=
  .recGuard 0
    (.seq
      (.condition (.lam "s" none (.mem (.var "s") (.collect "t" (.not (.bool true))))) .throw
        (.seq .skip (.modify (.var "f"))))
      (.loop (.lam "s" none (.and (.bool true) (.eq (.field (.var "s") "a") (.num 1)))) .throw))

/-- What is left of it: the predicate of the condition is simplified before the condition goes. -/
def untangled : Term :=
  .recGuard 0
    (.seq (.modify (.var "f"))
      (.loop (.lam "s" none (.eq (.field (.var "s") "a") (.num 1))) .throw))

theorem normalize_ends_normal_tangled
    : (∀ p ∈ tangled.predicates, ∃ depth r, p.simplify? depth = some r)
      ∧ (∃ steps,
          peephole.Normalizes tangled steps untangled
          ∧ steps.map (·.rule)
            = ["seq-skip-left", "condition-simp", "condition-false", "while-simp"])
      ∧ peephole.normalize untangled = (untangled, []) := by
  have returns : ∀ p ∈ tangled.predicates, ∃ depth r, p.simplify? depth = some r := by
    simp only [tangled, Term.predicates, List.append_nil, List.cons_append, List.nil_append,
      List.forall_mem_cons]
    exact ⟨⟨5, _, rfl⟩, ⟨5, _, rfl⟩, List.forall_mem_nil _⟩
  have result : (peephole.normalize tangled).1 = untangled := by decide
  obtain ⟨run, _, again⟩ := normalize_ends_normal peephole tangled returns
  rw [result] at again
  refine ⟨returns, ⟨(peephole.normalize tangled).2, (run _ _).mpr ?_, by decide⟩, again⟩
  rw [← result]

end RuleSet

end Monadize
