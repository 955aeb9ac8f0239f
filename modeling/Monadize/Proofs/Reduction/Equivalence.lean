import Mathlib.Logic.Function.Iterate
import Monadize.Proofs.Reduction.Rewriting
import Monadize.Proofs.Semantics.Interpretation

/-! Reductions preserve behaviour: a term and its normal form under a rule set end and fail alike
from every state. Each rule is an equation of computations, and equal parts give equal wholes.
-/

namespace Monadize

variable {σ ν : Type*}

/-- Simplifying does not change the meaning of predicates, and an abstraction of a truth value is
the constant predicate.
-/
structure Interpretation.Stable (I : Interpretation σ ν) : Prop where
  simplify : ∀ e s, I.pred I.globals e.simplify s ↔ I.pred I.globals e s
  constant : ∀ x type value s, I.pred I.globals (.lam x type (.bool value)) s ↔ value = true

theorem Interpretation.Stable.of_isConstPred_true {I : Interpretation σ ν} (h : I.Stable)
    {p : Expr} (const : p.isConstPred true = true) (s : σ)
    : I.pred I.globals p s := by
  cases p with
  | lam x type body =>
      obtain rfl : body = .bool true := by simpa [Expr.isConstPred] using const
      exact (h.constant x type true s).mpr rfl
  | _ => cases const

theorem Interpretation.Stable.not_of_isConstPred_false {I : Interpretation σ ν} (h : I.Stable)
    {p : Expr} (const : p.isConstPred false = true) (s : σ)
    : ¬ I.pred I.globals p s := by
  cases p with
  | lam x type body =>
      obtain rfl : body = .bool false := by simpa [Expr.isConstPred] using const
      exact fun holds => Bool.noConfusion ((h.constant x type false s).mp holds)
  | _ => cases const

/-- A simplified predicate means the same. -/
theorem Interpretation.Stable.pred_simplified {I : Interpretation σ ν} (h : I.Stable) {p q : Expr}
    (simplified : Rule.simplified? p = some q)
    : I.pred I.globals q = I.pred I.globals p := by
  simp only [Rule.simplified?] at simplified
  split at simplified
  · cases simplified
  · cases simplified
    funext s
    exact propext (h.simplify p s)

/-- A contraction leads to the same computation: each rule is one of the laws. -/
theorem Term.Contracts.denote_eq {I : Interpretation σ ν} (stable : I.Stable) (link : Linking σ)
    (measures : MeasureId → Nat) {t t' : Term} (h : t.Contracts t')
    : t'.denote I link measures = t.denote I link measures := by
  symm
  cases h with
  | guardTrue const => exact Computation.guard_of_forall (stable.of_isConstPred_true const)
  | guardFalse const =>
      exact Computation.guard_of_forall_not (stable.not_of_isConstPred_false const)
  | guardSimp simplified =>
      exact congrArg Computation.guard (stable.pred_simplified simplified).symm
  | seqSkipLeft => exact Computation.skip_seq _
  | seqSkipRight => exact Computation.seq_skip _
  | seqFail => exact Computation.fail_seq _
  | modifyFail => exact Computation.modify_seq_fail _
  | initFail => exact Computation.choose_seq_fail _
  | conditionTrue const =>
      exact Computation.condition_of_forall (stable.of_isConstPred_true const) _ _
  | conditionFalse const =>
      exact Computation.condition_of_forall_not (stable.not_of_isConstPred_false const) _ _
  | conditionSame => exact Computation.condition_self _ _
  | conditionSimp simplified => simp only [denote, stable.pred_simplified simplified]
  | loopFalse const =>
      exact Computation.loop_of_forall_not (stable.not_of_isConstPred_false const) _
  | loopSimp simplified => simp only [denote, stable.pred_simplified simplified]
  | catchNoThrow quiet =>
      exact Computation.tryCatch_of_neverThrows (neverThrows I link measures quiet) _
  | catchThrow => exact Computation.throw_tryCatch _
  | catchRethrow => exact Computation.tryCatch_throw _
  | seqThrow => exact Computation.throw_seq _

/-- Being the same computation is compatible with reductions. -/
theorem Term.compatible_denote {I : Interpretation σ ν} (stable : I.Stable) (link : Linking σ)
    (measures : MeasureId → Nat)
    : Compatible fun t t' => t'.denote I link measures = t.denote I link measures where
  contracts h := h.denote_eq stable link measures
  refl _ := rfl
  trans first second := second.trans first
  seq ha hb := by simp only [denote, ha, hb]
  tryCatch ha hb := by simp only [denote, ha, hb]
  condition _ _ _ _ _ ha hb := by simp only [denote, ha, hb]
  loop _ _ _ hb := by simp only [denote, hb]
  recGuard _ _ _ hb := by simp only [denote, hb]

/-- A term and its normal form end alike and fail alike from every state. Witness: every rule of the
set is an equation of computations, and so is every node over equal parts.
-/
theorem RuleSet.normalize_ends_iff_and_fails_iff (set : RuleSet) (t : Term)
    (I : Interpretation σ ν) (stable : I.Stable) (link : Linking σ) (measures : MeasureId → Nat)
    (s : σ)
    : (∀ o,
        ((set.normalize t).1.denote I link measures).ends s o
        ↔ (t.denote I link measures).ends s o)
      ∧ (((set.normalize t).1.denote I link measures).fails s
        ↔ (t.denote I link measures).fails s) := by
  have same : (set.normalize t).1.denote I link measures = t.denote I link measures :=
    set.related_normalize (Term.compatible_denote stable link measures) t
  rw [same]
  exact ⟨fun _ => Iff.rfl, Iff.rfl⟩

/-- Numbers as states, where a predicate holds if simplifying it often enough makes it constantly
true, and every other expression counts up.
-/
def Interpretation.counting : Interpretation Nat Unit where
  globals := ()
  bind _ _ _ := ()
  update _ _ s := s + 1
  pred _ e _ := ∃ n, (Expr.simplify^[n] e).isConstPred true = true
  mem _ _ _ := True
  relation _ _ s t := t = s + 1
  init _ _ s t := s ≤ t
  cleanup _ _ s t := s + t
  result _ _ _ _ s := s + 1
  target _ _ _ := ""

theorem Expr.simplify_lam_bool (x : Name) (type : Option Name) (value : Bool)
    : (Expr.lam x type (.bool value)).simplify = .lam x type (.bool value) := by
  obtain ⟨depth, deep⟩ : ∃ depth, simplifyDepth = depth + 2 :=
    ⟨2 ^ 62 - 2, by decide⟩
  simp [simplify, simplify?, deep]

theorem Interpretation.counting_stable : counting.Stable where
  simplify e s := by
    constructor
    · rintro ⟨n, const⟩
      exact ⟨n + 1, const⟩
    · rintro ⟨n, const⟩
      cases n with
      | succ n => exact ⟨n, const⟩
      | zero =>
          -- A constant predicate is already simplified.
          cases e with
          | lam x type body =>
              obtain rfl : body = .bool true := by simpa [Expr.isConstPred] using const
              exact ⟨0, by simp [Expr.simplify_lam_bool, Expr.isConstPred]⟩
          | _ => cases const
  constant x type value s := by
    have fixed (n : Nat)
        : Expr.simplify^[n] (.lam x type (.bool value)) = .lam x type (.bool value) :=
      Function.iterate_fixed (Expr.simplify_lam_bool x type value) n
    simp [counting, fixed, Expr.isConstPred]

/-- A loop of calls that pass the measure on. -/
def Term.callLoop : Term :=
  .loop (.var "p") (.call (.var "f") ⟨.const 0, .pred 0⟩ (.var "g") (.var "h"))

/-- A handler around a loop that calls but does not throw is dropped, also under a recursion guard
and where the callee throws.
-/
theorem RuleSet.normalize_handlers_callLoop
    : Interpretation.counting.Stable
      ∧ (handlers.normalize (.recGuard 0 (.tryCatch .callLoop .fail))).1 = .recGuard 0 .callLoop
      ∧ (∀ o,
        ((handlers.normalize (.recGuard 0 (.tryCatch .callLoop .fail))).1.denote .counting
          ⟨fun _ _ => .throw, 0⟩ id).ends 4 o
        ↔ (Term.denote .counting ⟨fun _ _ => .throw, 0⟩ id
          (.recGuard 0 (.tryCatch .callLoop .fail))).ends 4 o)
      ∧ (((handlers.normalize (.recGuard 0 (.tryCatch .callLoop .fail))).1.denote .counting
          ⟨fun _ _ => .throw, 0⟩ id).fails 4
        ↔ (Term.denote .counting ⟨fun _ _ => .throw, 0⟩ id
          (.recGuard 0 (.tryCatch .callLoop .fail))).fails 4) :=
  ⟨Interpretation.counting_stable, by decide,
    normalize_ends_iff_and_fails_iff handlers _ .counting Interpretation.counting_stable
      ⟨fun _ _ => .throw, 0⟩ id 4⟩

end Monadize
