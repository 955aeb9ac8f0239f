import Monadize.Predicate
import Monadize.Proof.Theorem

/-! Proving that a term corresponds to a statement by replaying a recipe. Each lemma fits one form
of statement, and the recipe, the term and the statement have to agree at every node. -/

namespace Monadize

/-- What a recipe is replayed against: the world type, the hypotheses on the placeholders, by
index, and the measure variable of the goal. -/
structure Replay where
  world : Name
  hyps : List Hyp
  measure : MeasureId

/-- The hypotheses a recipe appeals to, left to right. -/
abbrev Uses := List (PlaceholderId × Hyp)

namespace Replay

def refuse {α : Type} (rule : Lemma) (cause : ProofError.Cause) : Except ProofError α :=
  .error ⟨some rule, cause⟩

/-- A node without subproofs. -/
def closed (rule : Lemma) (subs : List Recipe) : Except ProofError Uses :=
  match subs with
  | [] => .ok []
  | subs => refuse rule (.subproofs 0 subs.length)

def requirePred (replay : Replay) (rule : Lemma) (pred set : Expr) : Except ProofError Unit :=
  if pred = Expr.predOfSet replay.world set then .ok () else refuse rule .predicateDiffers

def requireEqual (rule : Lemma) (cause : ProofError.Cause) (a b : Expr)
    : Except ProofError Unit :=
  if a = b then .ok () else refuse rule cause

/-- Does passing the measure like this fit the lemma and the hypothesis? -/
def threads (replay : Replay) (rule : Lemma) (measure : MeasureArg) (recursive : Bool) : Bool :=
  match rule, measure, recursive with
  | .callExternal, .unused, false => true
  | .callRecursive, .managed, false => true
  | .callRecursive, .pred m, true => m = replay.measure
  | _, _, _ => false

/-- A call of `proc` on the placeholder of a hypothesis. -/
def checkCall (replay : Replay) (rule : Lemma) (callee : Callee) (proc : Name)
    (subs : List Recipe)
    : Except ProofError Uses :=
  match subs with
  | [.hyp p] =>
      if callee.target ≠ .placeholder p then refuse rule .calleeNotHypothesis
      else
        match replay.hyps[p]? with
        | none => refuse rule .unknownPlaceholder
        | some hyp =>
            if hyp.proc ≠ proc then refuse rule (.standsFor hyp.proc proc)
            else if replay.threads rule callee.measure hyp.recursive then .ok [(p, hyp)]
            else refuse rule .measureMismatch
  | _ => refuse rule .hypothesisExpected

/-- Replay a recipe on a term and a statement. -/
def check (replay : Replay) : Term → Stmt → Recipe → Except ProofError Uses
  | _, _, .hyp _ => .error ⟨none, .hypothesisAsProof⟩
  | term, stmt, .apply rule subs =>
      match rule, term, stmt with
      | .skip, .skip, .skip => closed rule subs
      | .throw, .throw, .throw => closed rule subs
      | .seq, .seq a b, .seq c d =>
          match subs with
          | [p, q] => return (← replay.check a c p) ++ (← replay.check b d q)
          | subs => refuse rule (.subproofs 2 subs.length)
      | .tryCatch, .tryCatch a b, .tryCatch c d =>
          match subs with
          | [p, q] => return (← replay.check a c p) ++ (← replay.check b d q)
          | subs => refuse rule (.subproofs 2 subs.length)
      | .modify, .modify f, .assign g => do
          requireEqual rule .expressionsDiffer f g
          closed rule subs
      | .init, .init f, .localInit g => do
          requireEqual rule .expressionsDiffer f g
          closed rule subs
      | .spec, .spec f, .spec g => do
          requireEqual rule .expressionsDiffer f g
          closed rule subs
      | .condition, .condition pred a b, .cond set c d => do
          replay.requirePred rule pred set
          match subs with
          | [p, q] => return (← replay.check a c p) ++ (← replay.check b d q)
          | subs => refuse rule (.subproofs 2 subs.length)
      | .loop, .loop pred a, .loop set c => do
          replay.requirePred rule pred set
          match subs with
          | [p] => replay.check a c p
          | subs => refuse rule (.subproofs 1 subs.length)
      | .guard, .seq g a, .guard set c =>
          match g with
          | .guard pred => do
              replay.requirePred rule pred set
              match subs with
              | [p] => replay.check a c p
              | subs => refuse rule (.subproofs 1 subs.length)
          | _ => refuse rule .guardExpected
      | .guardedSpec, .seq g s, .guardedSpec set rel =>
          match g, s with
          | .guard pred, .spec rel' => do
              replay.requirePred rule pred set
              requireEqual rule .relationsDiffer rel' rel
              closed rule subs
          | _, _ => refuse rule .guardAndSpecExpected
      | .callUndefined, .fail, .call .. => closed rule subs
      | rule, .call setup callee cleanup result, .call setup' proc cleanup' binders store =>
          if rule ≠ .callExternal ∧ rule ≠ .callRecursive then refuse rule .goalMismatch
          else if setup ≠ setup' ∨ cleanup ≠ cleanup' then refuse rule .argumentsDiffer
          else
            match ResultStore.plain? ⟨binders, store⟩ with
            | none => refuse rule .resultStoreNotPlain
            | some u =>
                if result ≠ Expr.resultHandler replay.world u.final u.caller u.update then
                  refuse rule .resultHandlerDiffers
                else replay.checkCall rule callee proc subs
      | rule, _, _ => refuse rule .goalMismatch

end Replay

/-- Prove a correspondence by recipe. The theorem keeps the hypotheses that were used. -/
def Goal.prove (goal : Goal) (recipe : Recipe) (hyps : List Hyp) (measure : MeasureId)
    : Except ProofError Theorem :=
  match goal.judgement with
  | .corres term stmt => do
      let uses ← Replay.check ⟨goal.env.world, hyps, measure⟩ term stmt recipe
      return {
        total := goal.total, env := goal.env, judgement := goal.judgement,
        hyps := .ofList uses, measure := some measure }
  | _ => .error ⟨none, .onlyCorresByRecipe⟩

end Monadize
