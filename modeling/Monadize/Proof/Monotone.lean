import Monadize.Proof.Theorem

/-! Monotonicity of definitions in their measure. Every construct is monotone if its parts are; a
call that passes the decremented measure to a member of the cluster is monotone by induction, and
what does not mention the measure is constant. -/

namespace Monadize

/-- Check that a body calls with a decremented measure only the constants of its cluster. -/
def Term.checkMono (cluster : List ConstId) : Term → Except ProofError Unit
  | .call _ callee _ _ =>
      match callee.target, callee.measure with
      | .placeholder p, _ => .error ⟨some .mono, .unresolvedPlaceholder p⟩
      | .const k, .pred _ =>
          if k ∈ cluster then .ok () else .error ⟨some .mono, .outsideCluster k⟩
      | .const _, _ => .ok ()
  | .seq a b => do a.checkMono cluster; b.checkMono cluster
  | .tryCatch a b => do a.checkMono cluster; b.checkMono cluster
  | .condition _ a b => do a.checkMono cluster; b.checkMono cluster
  | .loop _ body => body.checkMono cluster
  | .recGuard _ body => body.checkMono cluster
  | _ => .ok ()

/-- Every constant of a cluster is monotone in its measure; `defs` finds the definitions. -/
def monoCluster (total : Bool) (env : Environment) (cluster : List ConstId)
    (defs : ConstId → Option Term)
    : Except ProofError Theorem := do
  cluster.forM fun k =>
    match defs k with
    | none => .error ⟨some .mono, .notDefined k⟩
    | some body => body.checkMono cluster
  return { total, env, judgement := .monoAll cluster, hyps := .empty, measure := none }

/-- The conjuncts of a joint monotonicity theorem. -/
def Theorem.split (thm : Theorem) : Except ProofError (List Theorem) :=
  match thm.judgement with
  | .monoAll ks => .ok (ks.map fun k => { thm with judgement := .mono k })
  | _ => .error ⟨some .conjSplit, .notAConjunction⟩

end Monadize
