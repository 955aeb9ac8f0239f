import Monadize.Proofs.Semantics.Computation
import Monadize.Term.Basic

/-! What expressions and monadic terms mean. Expressions are read by an interpretation, which is
left open; terms are built from computations along their structure.
-/

namespace Monadize

/-- What expressions mean as functions, sets and relations of states. A valuation says what free
variables stand for.
-/
structure Interpretation (σ ν : Type*) where
  /-- The valuation outside of all binders. -/
  globals : ν
  /-- The valuation in which the variable stands for the state. -/
  bind : ν → Name → σ → ν
  /-- A state transformer. -/
  update : ν → Expr → σ → σ
  /-- A predicate on states. -/
  pred : ν → Expr → σ → Prop
  /-- Membership in a set of states. -/
  mem : ν → Expr → σ → Prop
  /-- A relation of states. -/
  relation : ν → Expr → σ → σ → Prop
  /-- The states that an initialization allows. -/
  init : ν → Expr → σ → σ → Prop
  /-- The caller's state after a call, from its state before and the final state of the callee. -/
  cleanup : ν → Expr → σ → σ → σ
  /-- The update that stores a result, from the final state of the callee and the caller's state at
  the call.
  -/
  result : ν → Expr → σ → σ → σ → σ
  /-- The procedure that an expression stands for. -/
  target : ν → Expr → σ → Name

/-- What callees stand for. -/
structure Linking (σ : Type*) where
  /-- The computation of a callee at a measure. -/
  callee : CalleeRef → Nat → Computation σ
  /-- The measure that is passed where none is needed. -/
  unused : Nat

variable {σ ν : Type*}

/-- The computation that a call runs, with the measures of the caller. -/
def Callee.denote (link : Linking σ) (measures : MeasureId → Nat) (callee : Callee)
    : Computation σ :=
  match callee.measure with
  | .pred m => link.callee callee.target (measures m - 1)
  | .managed => .managed (link.callee callee.target)
  | .unused => link.callee callee.target link.unused

/-- The computation of a term. -/
def Term.denote (I : Interpretation σ ν) (link : Linking σ) (measures : MeasureId → Nat)
    : Term → Computation σ
  | .skip => .skip
  | .throw => .throw
  | .fail => .fail
  | .seq a b => (a.denote I link measures).seq (b.denote I link measures)
  | .tryCatch a b => (a.denote I link measures).tryCatch (b.denote I link measures)
  | .modify f => .modify (I.update I.globals f)
  | .guard p => .guard (I.pred I.globals p)
  | .init f => .choose (I.init I.globals f)
  | .spec rel => .choose (I.relation I.globals rel)
  | .condition p a b =>
      .condition (I.pred I.globals p) (a.denote I link measures) (b.denote I link measures)
  | .loop p body => .loop (I.pred I.globals p) (body.denote I link measures)
  | .call setup callee cleanup result =>
      .call (I.update I.globals setup) (callee.denote link measures) (I.cleanup I.globals cleanup)
        (I.result I.globals result)
  | .recGuard m body => .recGuard (measures m) (body.denote I link measures)

/-- A term that may not throw never does, by induction along `mayThrow`. -/
theorem Term.neverThrows (I : Interpretation σ ν) (link : Linking σ) (measures : MeasureId → Nat)
    {t : Term} (h : t.mayThrow = false)
    : (t.denote I link measures).NeverThrows := by
  induction t with
  | throw => cases h
  | seq a b iha ihb =>
      obtain ⟨ha, hb⟩ := Bool.or_eq_false_iff.mp h
      exact (iha ha).seq (ihb hb)
  | condition p a b iha ihb =>
      obtain ⟨ha, hb⟩ := Bool.or_eq_false_iff.mp h
      exact (iha ha).condition (ihb hb)
  | tryCatch a b _ ihb => exact .tryCatch _ (ihb h)
  | loop p body ih => exact (ih h).loop
  | recGuard m body ih => exact (ih h).recGuard _
  | skip | modify | guard | init | spec | call | fail =>
      rintro s t run
      simp [denote, Computation.skip, Computation.modify, Computation.guard, Computation.choose,
        Computation.call, Computation.fail] at run

end Monadize
