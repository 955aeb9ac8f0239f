import Monadize.Proof.Theorem

/-! Defining the functions of a cluster at once. Hypotheses on functions outside are discharged by
their registered theorems, those on functions of the cluster by simultaneous induction on the
measure. -/

namespace Monadize

/-- How a hypothesis of a member is discharged. -/
inductive Binding where
  /-- By the theorem of a function defined before. -/
  | defined (thm : Theorem)
  /-- By induction, for the member that is defined as this constant. -/
  | sibling (k : ConstId)

structure Member where
  thm : Theorem
  const : ConstId
  bindings : FiniteMap PlaceholderId Binding

/-- Definitions, and theorems about the constants that hold once they are registered. -/
structure ClosedCluster where
  defs : List (ConstId × Term)
  thms : List Theorem

namespace Member

/-- The lemma that closes a cluster: an induction if some hypothesis is an induction hypothesis. -/
def closingLemma (members : List Member) : Lemma :=
  if members.any fun m => m.thm.hyps.values.any (·.recursive) then .mutualInduction else .define

/-- What the members of a cluster are closed in. -/
structure Context where
  rule : Lemma
  total : Bool
  env : Environment
  /-- The procedure of each member's constant. -/
  procs : FiniteMap ConstId Name

def Context.refuse {α : Type} (ctx : Context) (cause : ProofError.Cause) : Except ProofError α :=
  .error ⟨some ctx.rule, cause⟩

/-- The procedures of the members, which all have to agree with the first one in termination flag
and environment. -/
def register (ctx : Context) : List Member → Except ProofError Context
  | [] => .ok ctx
  | m :: ms =>
      match m.thm.judgement with
      | .callCorres _ proc =>
          if m.thm.total ≠ ctx.total ∨ m.thm.env ≠ ctx.env then ctx.refuse (.contextMismatch proc)
          else register { ctx with procs := ctx.procs.insert m.const proc } ms
      | _ => ctx.refuse .memberNotCallCorres

/-- The constant that takes the place of a placeholder. -/
def discharge (ctx : Context) (proc : Name) (hyp : Hyp) : Binding → Except ProofError ConstId
  | .defined thm =>
      match thm.judgement with
      | .fnCorres k proc' =>
          if hyp.recursive ∨ proc' ≠ hyp.proc ∨ !thm.hyps.isEmpty then
            ctx.refuse (.notDischarged proc hyp.proc)
          else if thm.total ≠ ctx.total ∨ thm.env ≠ ctx.env then
            ctx.refuse (.calleeContextMismatch proc)
          else .ok k
      | _ => ctx.refuse (.calleeNotConstant proc)
  | .sibling k =>
      if !hyp.recursive ∨ ctx.procs.find? k ≠ some hyp.proc then
        ctx.refuse (.notASibling proc hyp.proc)
      else .ok k

/-- The constants of the given hypotheses. -/
def dischargeAll (ctx : Context) (proc : Name) (bindings : FiniteMap PlaceholderId Binding)
    : List (PlaceholderId × Hyp) → Except ProofError (List (PlaceholderId × ConstId))
  | [] => .ok []
  | (p, hyp) :: rest =>
      match bindings.find? p with
      | none => ctx.refuse (.noBinding proc hyp.proc)
      | some binding => do
          let k ← discharge ctx proc hyp binding
          return (p, k) :: (← dischargeAll ctx proc bindings rest)

def isRecGuard : Term → Bool
  | .recGuard _ _ => true
  | _ => false

/-- The definition of a member, and the theorem about its constant. -/
def close (ctx : Context) (m : Member) : Except ProofError ((ConstId × Term) × Theorem) :=
  match m.thm.judgement with
  | .callCorres term proc => do
      let consts ← dischargeAll ctx proc m.bindings m.thm.hyps.entries
      if m.thm.hyps.values.any (·.recursive) && !isRecGuard term then
        ctx.refuse (.unguardedInduction proc)
      else
        let body := term.instantiate (FiniteMap.ofList consts).find?
        if body.hasPlaceholders then ctx.refuse (.undischargedPlaceholder proc)
        else
          return ((m.const, body), {
            total := ctx.total, env := ctx.env, judgement := .fnCorres m.const proc,
            hyps := .empty, measure := none })
  | _ => ctx.refuse .memberNotCallCorres

end Member

/-- Define every member of a cluster at once. -/
def closeCluster (members : List Member) : Except ProofError ClosedCluster :=
  let rule := Member.closingLemma members
  match members with
  | [] => .error ⟨some rule, .emptyCluster⟩
  | first :: _ => do
      let ctx ← Member.register ⟨rule, first.thm.total, first.thm.env, .empty⟩ members
      let closed ← members.mapM (Member.close ctx)
      return ⟨closed.map (·.1), closed.map (·.2)⟩

end Monadize
