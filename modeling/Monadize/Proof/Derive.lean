import Monadize.Predicate
import Monadize.Proof.Theorem
import Monadize.Reduction.Normalize

/-! Kernel rules that turn one theorem into another. -/

namespace Monadize

namespace Theorem

/-- Put the term of a correspondence under a recursion guard on the measure. -/
def guardRecursion (thm : Theorem) : Except ProofError Theorem :=
  match thm.measure with
  | none => .error ⟨some .recGuard, .noMeasure⟩
  | some measure =>
      match thm.judgement with
      | .corres term stmt =>
          .ok { thm with judgement := .corres (.recGuard measure term) stmt }
      | _ => .error ⟨some .recGuard, .notCorres⟩

/-- What corresponds to the body of a procedure corresponds to a call of it. -/
def unfold (thm : Theorem) (proc : Name) : Except ProofError Theorem :=
  match thm.judgement with
  | .corres term stmt =>
      match thm.env.body? proc with
      | some body =>
          if body = stmt then .ok { thm with judgement := .callCorres term proc }
          else .error ⟨some .unfold, .notTheBody proc⟩
      | none => .error ⟨some .unfold, .noImplementation proc⟩
  | _ => .error ⟨some .unfold, .notCorres⟩

/-- Failure corresponds to a call of a procedure without implementation. -/
def ofUndefined (total : Bool) (env : Environment) (proc : Name) : Except ProofError Theorem :=
  if env.hasBody proc then .error ⟨some .undefinedFunction, .hasImplementation proc⟩
  else
    .ok {
      total, env, judgement := .callCorres .fail proc, hyps := .empty, measure := none }

/-- Start the term with `init`: under an outermost recursion guard, or in front of the whole
term, as the lemma says. -/
def initReturn (thm : Theorem) (rule : Lemma) (init : Expr) : Except ProofError Theorem :=
  match thm.judgement with
  | .callCorres term proc =>
      match rule, term with
      | .initReturnRecGuard, .recGuard measure body =>
          .ok { thm with judgement := .callCorres (.recGuard measure (.seq (.init init) body)) proc }
      | .initReturn, term =>
          .ok { thm with judgement := .callCorres (.seq (.init init) term) proc }
      | rule, _ => .error ⟨some rule, .theoremMismatch⟩
  | _ => .error ⟨some rule, .notCallCorres⟩

/-- Bring the term of a correspondence to normal form. -/
def reduce (thm : Theorem) (set : RuleSet) : Except ProofError (Theorem × List Reduction) :=
  match thm.judgement with
  | .corres term stmt =>
      let (term, steps) := set.normalize term
      .ok ({ thm with judgement := .corres term stmt }, steps)
  | .callCorres term proc =>
      let (term, steps) := set.normalize term
      .ok ({ thm with judgement := .callCorres term proc }, steps)
  | _ => .error ⟨some .reduce, .nothingToReduce⟩

end Theorem

end Monadize
