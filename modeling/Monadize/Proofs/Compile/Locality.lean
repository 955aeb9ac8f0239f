import Monadize.Proofs.Cluster.Bindings
import Monadize.Proofs.Cluster.Compile

/-! What compiling a function depends on: its record, its body, the functions that the procedures
called there belong to, and what it sees of its callees. In two scopes that agree on these, a
function compiles to the same term, with the same warnings, or is refused for the same reason. The
theorems about it differ in the environment alone.
-/

namespace Monadize

-----------------------------------------------------------------------------------------
-- Theorems in another environment
-----------------------------------------------------------------------------------------

/-- The theorem as if it were about another environment. -/
def Theorem.inEnv (env : Environment) (thm : Theorem) : Theorem := { thm with env }

def Finished.inEnv (env : Environment) (finished : Finished) : Finished :=
  { finished with thm := finished.thm.inEnv env }

def Compiled.inEnv (env : Environment) (c : Compiled) : Compiled :=
  { c with thm := c.thm.inEnv env }

namespace Theorem

variable (env : Environment)

theorem initReturn_inEnv (thm : Theorem) (rule : Lemma) (init : Expr)
    : (thm.inEnv env).initReturn rule init = (thm.initReturn rule init).map (inEnv env) := by
  obtain ⟨total, _, judgement, hyps, measure⟩ := thm
  cases judgement with
  | callCorres term proc =>
      simp only [inEnv, initReturn]
      split <;> rfl
  | _ => rfl

theorem initSlot_inEnv {thm : Theorem} (world : env.world = thm.env.world) (slot : Name)
    : (thm.inEnv env).initSlot slot = (thm.initSlot slot).map (inEnv env) := by
  rw [initSlot, initSlot, show (thm.inEnv env).term? = thm.term? from rfl,
    show (thm.inEnv env).env.world = thm.env.world from world]
  cases thm.term? with
  | none => rfl
  | some term =>
      simp only
      cases InitStrategy.order.find? (·.applies term) with
      | none => rfl
      | some strategy => exact initReturn_inEnv env thm strategy.rule _

theorem reduce_inEnv (thm : Theorem) (set : RuleSet)
    : (thm.inEnv env).reduce set = (thm.reduce set).map (Prod.map (inEnv env) id) := by
  obtain ⟨total, _, judgement, hyps, measure⟩ := thm
  cases judgement <;> rfl

theorem reduceAll_inEnv (thm : Theorem) (sets : List RuleSet)
    : (thm.inEnv env).reduceAll sets = (thm.reduceAll sets).map (Prod.map (inEnv env) id) := by
  induction sets generalizing thm with
  | nil => rfl
  | cons set rest ih =>
      rw [reduceAll, reduceAll, reduce_inEnv]
      refine map_bind_eq fun first => ?_
      simp only [Prod.map_fst, ih]
      exact map_bind_eq fun _ => rfl

theorem runPasses_inEnv (thm : Theorem) (passes : List Pass)
    : (thm.inEnv env).runPasses passes = (thm.runPasses passes).map (Prod.map (inEnv env) id) := by
  induction passes generalizing thm with
  | nil => rfl
  | cons pass rest ih =>
      rw [runPasses, runPasses, reduceAll_inEnv]
      refine map_bind_eq fun first => ?_
      simp only [Prod.map_fst, ih]
      exact map_bind_eq fun _ => rfl

/-- Finishing a theorem reads nothing of its environment but the world type. -/
theorem finish_inEnv (thm : Theorem) (world : env.world = thm.env.world) (slot : Option Name)
    (optimize trace : Bool)
    : (thm.inEnv env).finish slot optimize trace
      = (thm.finish slot optimize trace).map (Finished.inEnv env) := by
  have passes (thm : Theorem) := runPasses_inEnv env thm (Pass.all optimize)
  cases slot with
  | none =>
      simp only [finish, pure_bind, passes]
      exact map_bind_eq fun _ => rfl
  | some slot =>
      simp only [finish, initSlot_inEnv env world]
      refine map_bind_eq fun thm => ?_
      rw [passes]
      exact map_bind_eq fun _ => rfl

end Theorem

/-- Replaying a recipe reads nothing of the environment but the world type. -/
theorem Goal.prove_inEnv {env env' : Environment} (world : env'.world = env.world) (total : Bool)
    (judgement : Judgement) (recipe : Recipe) (hyps : List Hyp) (measure : MeasureId)
    : Goal.prove ⟨total, env', judgement⟩ recipe hyps measure
      = (Goal.prove ⟨total, env, judgement⟩ recipe hyps measure).map (Theorem.inEnv env') := by
  cases judgement with
  | corres term stmt =>
      simp only [prove, world]
      cases Replay.check ⟨env.world, hyps, measure⟩ term stmt recipe with
      | error => rfl
      | ok => rfl
  | _ => rfl

-----------------------------------------------------------------------------------------
-- Functions
-----------------------------------------------------------------------------------------

/-- A body is compiled alike if its calls go to the same functions, by induction on it. -/
theorem BodyContext.compile_withNames {ctx : BodyContext} {names : FiniteMap Name Name}
    {stmt : Stmt}
    (same : ∀ proc ∈ stmt.callSites, names.find? proc = ctx.procNames.find? proc)
    : compile { ctx with procNames := names } stmt = ctx.compile stmt := by
  induction stmt with
  | seq c d ihc ihd | tryCatch c d ihc ihd | cond _ c d ihc ihd =>
      have first := ihc fun proc site => same proc (List.mem_append_left _ site)
      have second := ihd fun proc site => same proc (List.mem_append_right _ site)
      simp only [compile, first, second]
  | loop _ c ih | guard _ c ih => simp only [compile, ih same]
  | call setup proc cleanup binders store =>
      have owner : functionOf { ctx with procNames := names } proc = ctx.functionOf proc := by
        rw [functionOf, functionOf, same proc (by simp [Stmt.callSites])]
      simp only [compile, compileCall, owner]
  | _ => rfl

namespace Scope

/-- The scopes show the function the same of what it is compiled from. -/
structure Alike (scope scope' : Scope) (f : Function) : Prop where
  world : scope'.env.world = scope.env.world
  body : scope'.env.body? f.proc = scope.env.body? f.proc
  procNames
    : ∀ body,
        scope.env.body? f.proc = some body
        → ∀ proc ∈ body.callSites, scope'.procNames.find? proc = scope.procNames.find? proc
  callees : scope'.calleeTable f = scope.calleeTable f
  total : scope'.total = scope.total
  optimize : scope'.optimize = scope.optimize
  trace : scope'.trace = scope.trace

variable {scope scope' : Scope} {f : Function}

/-- The theorem about a body is about a term for it in the scope. -/
theorem exists_of_proveBody {measure : MeasureId} {body : Stmt} {thm : Theorem}
    {warnings : List Warning}
    (proved : (scope.proveBody f measure body).result = .ok (thm, warnings))
    : ∃ start hyps, thm = ⟨scope.total, scope.env, .corres start body, hyps, some measure⟩ := by
  simp only [proveBody, kernel, Reported.result_bind, Reported.result_tell,
    Reported.result_ofExcept, Reported.result_pure] at proved
  obtain ⟨_, _, proved⟩ := bind_eq_ok_iff.mp proved
  obtain ⟨_, _, proved⟩ := bind_eq_ok_iff.mp proved
  obtain ⟨⟨start, recipe⟩, _, proved⟩ := bind_eq_ok_iff.mp proved
  obtain ⟨_, _, proved⟩ := bind_eq_ok_iff.mp proved
  obtain ⟨thm', attempt, proved⟩ := bind_eq_ok_iff.mp proved
  cases proved
  obtain ⟨_, _, uses, same, _, rfl⟩ := Goal.prove_eq_ok_iff.mp (mapError_eq_ok_iff.mp attempt)
  exact ⟨start, _, rfl⟩

variable (alike : scope.Alike scope' f)

include alike

theorem Alike.bodyContext_eq (measure : MeasureId)
    : scope'.bodyContext f measure
      = { scope.bodyContext f measure with procNames := scope'.procNames } := by
  simp only [bodyContext, alike.world, alike.callees]

theorem Alike.compile_bodyContext (measure : MeasureId) {body : Stmt}
    (defined : scope.env.body? f.proc = some body)
    : (scope'.bodyContext f measure).compile body = (scope.bodyContext f measure).compile body := by
  rw [alike.bodyContext_eq]
  exact BodyContext.compile_withNames (alike.procNames body defined)

theorem Alike.compileUndefined (missing : scope.env.body? f.proc = none)
    : (scope'.compileUndefined f).result
      = (scope.compileUndefined f).result.map (Compiled.inEnv scope'.env) := by
  have undefined : Theorem.ofUndefined scope.total scope.env f.proc
      = .ok ⟨scope.total, scope.env, .callCorres .fail f.proc, .empty, none⟩ := by
    simp [Theorem.ofUndefined, Environment.hasBody, missing]
  have undefined' : Theorem.ofUndefined scope'.total scope'.env f.proc
      = .ok ⟨scope.total, scope'.env, .callCorres .fail f.proc, .empty, none⟩ := by
    simp [Theorem.ofUndefined, Environment.hasBody, alike.body, missing, alike.total]
  simp only [Scope.compileUndefined, kernel, undefined, undefined', alike.callees]
  rfl

/-- The theorem about a body differs in its environment alone. -/
theorem Alike.proveBody (measure : MeasureId) {body : Stmt}
    (defined : scope.env.body? f.proc = some body)
    : (scope'.proveBody f measure body).result
      = (scope.proveBody f measure body).result.map
          (Prod.map (Theorem.inEnv scope'.env) id) := by
  have hyps : (scope'.bodyContext f measure).callees.hyps
      = (scope.bodyContext f measure).callees.hyps :=
    congrArg CalleeTable.hyps alike.callees
  simp only [Scope.proveBody, kernel, Reported.result_bind, Reported.result_tell,
    Reported.result_ofExcept, Reported.result_pure, alike.compile_bodyContext measure defined,
    alike.total, hyps, Goal.prove_inEnv alike.world]
  cases ((scope.bodyContext f measure).compile body).result with
  | error what => rfl
  | ok compiled =>
      simp only [Except.mapError, Except.bind]
      cases Goal.prove ⟨scope.total, scope.env, .corres compiled.1 body⟩ compiled.2
          (scope.bodyContext f measure).callees.hyps measure with
      | error e => rfl
      | ok thm => rfl

/-- A body is compiled alike: behind the theorem about it nothing fails. -/
theorem Alike.compileBody (measure : MeasureId) {body : Stmt}
    (defined : scope.env.body? f.proc = some body)
    : (scope'.compileBody f measure body).result
      = (scope.compileBody f measure body).result.map (Compiled.inEnv scope'.env) := by
  have proved' := alike.proveBody measure defined
  cases proved : (scope.proveBody f measure body).result with
  | error e =>
      rw [proved] at proved'
      rw [Scope.compileBody, Scope.compileBody, Reported.result_bind_error proved,
        Reported.result_bind_error proved']
      rfl
  | ok result =>
      obtain ⟨thm, warnings⟩ := result
      obtain ⟨start, hyps, rfl⟩ := exists_of_proveBody proved
      rw [proved] at proved'
      obtain ⟨term, traces, steps, finished, _⟩ :=
        Theorem.finish_callCorres scope.total scope.env f.proc hyps (some measure)
          (guardedTerm f measure start) f.returnSlot scope.optimize scope.trace
      have moved := Theorem.finish_inEnv scope'.env
        ⟨scope.total, scope.env, .callCorres (guardedTerm f measure start) f.proc, hyps,
          some measure⟩
        alike.world f.returnSlot scope.optimize scope.trace
      rw [finished] at moved
      have finished' : Theorem.finish
          ⟨scope'.total, scope'.env, .callCorres (guardedTerm f measure start) f.proc, hyps,
            some measure⟩
          f.returnSlot scope'.optimize scope'.trace
        = .ok
            ⟨⟨scope'.total, scope'.env, .callCorres term f.proc, hyps, some measure⟩, traces,
              steps⟩ := by
        rw [alike.total, alike.optimize, alike.trace]
        exact moved
      rw [compileBody_eq_ok defined proved finished,
        compileBody_eq_ok (alike.body.trans defined) (alike.total ▸ proved') finished',
        alike.callees, alike.total]
      rfl

/-- A function that sees the same is compiled alike. -/
theorem Alike.compile {name : Name} (found : scope.functions.find? name = some f)
    (found' : scope'.functions.find? name = some f) (measure : MeasureId)
    : (scope'.compile name measure).result
      = (scope.compile name measure).result.map (Compiled.inEnv scope'.env) := by
  simp only [Scope.compile, found, found', alike.body]
  cases defined : scope.env.body? f.proc with
  | none => exact alike.compileUndefined defined
  | some body => exact alike.compileBody measure defined

end Scope

/-- A cluster of functions that see the same is compiled alike, by induction on them. -/
theorem Cluster.compile_alike {scope scope' : Scope} {members : List Name}
    (alike
      : ∀ name ∈ members,
          ∃ f,
            scope.functions.find? name = some f
            ∧ scope'.functions.find? name = some f
            ∧ scope.Alike scope' f)
    (id id' : ClusterId)
    : (Cluster.compile scope' id' members).result
      = (Cluster.compile scope id members).result.map (List.map (Compiled.inEnv scope'.env)) := by
  have each (measure : MeasureId)
      : (compileMembers scope' id' measure members).result
        = (compileMembers scope id measure members).result.map
            (List.map (Compiled.inEnv scope'.env)) := by
    induction members generalizing measure with
    | nil => rfl
    | cons name rest ih =>
        obtain ⟨f, found, found', sees⟩ := alike name List.mem_cons_self
        have others := ih (fun other among => alike other (List.mem_cons_of_mem name among))
          (measure + 1)
        simp only [compileMembers, Reported.result_bind, Reported.result_tell,
          Reported.result_pure, sees.compile found found']
        refine map_bind_eq fun first => ?_
        simp only [Except.bind, others]
        exact map_bind_eq fun _ => rfl
  simp only [Cluster.compile, Reported.result_bind, Reported.result_tell]
  exact each 0

/-- With one plan, a cluster is compiled from the records of its functions and from what these see
of their callees. Witness: each result is that for the first table with the environment put in
again.
-/
theorem Cluster.compile_congr (plan : Plan) (settings : Settings)
    {functions functions' : FunctionTable} {members : List Name}
    (same
      : ∀ name ∈ members,
          ∃ f,
            functions.find? name = some f
            ∧ functions'.find? name = some f
            ∧ ∀ callee ∈ f.callees.elems,
                (functions.find? callee).map Function.face
                = (functions'.find? callee).map Function.face)
    (id : ClusterId)
    : (Cluster.compile (plan.scope settings functions) id members).result
      = (Cluster.compile (plan.scope settings functions') id members).result := by
  have self
      : (Cluster.compile (plan.scope settings functions) id members).result
        = (Cluster.compile (plan.scope settings functions) id members).result.map
            (List.map (Compiled.inEnv plan.env)) := by
    refine compile_alike (fun name member => ?_) id id
    obtain ⟨f, found, _, _⟩ := same name member
    exact ⟨f, found, found, rfl, rfl, fun _ _ _ _ => rfl, rfl, rfl, rfl, rfl⟩
  have onward
      : (Cluster.compile (plan.scope settings functions') id members).result
        = (Cluster.compile (plan.scope settings functions) id members).result.map
            (List.map (Compiled.inEnv plan.env)) := by
    refine compile_alike (fun name member => ?_) id id
    obtain ⟨f, found, found', faces⟩ := same name member
    exact ⟨f, found, found', rfl, rfl, fun _ _ _ _ => rfl, (Scope.calleeTable_congr faces).symm,
      rfl, rfl, rfl⟩
  exact self.trans onward.symm

end Monadize
