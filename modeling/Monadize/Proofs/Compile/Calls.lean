import Monadize.Proofs.Cluster.Bindings
import Monadize.Proofs.Cluster.Compile

/-! What becomes of the call nodes of a body. Each one is compiled to a call through the entry that
it finds, or else to failure, and the warnings of a function tell of those that find none, left to
right.
-/

namespace Monadize

-----------------------------------------------------------------------------------------
-- Statements
-----------------------------------------------------------------------------------------

namespace BodyContext

/-- The warning about a call node that finds no entry. -/
def warning? (ctx : BodyContext) (proc : Name) : Option Warning :=
  if (ctx.entry? proc).isSome then none
  else some (.missingCallee ctx.func (ctx.functionOf proc))

theorem reports_compileCall (ctx : BodyContext) (setup : Expr) (proc : Name) (cleanup : Expr)
    (result : ResultUpdate)
    : (ctx.compileCall setup proc cleanup result).reports = (ctx.warning? proc).toList := by
  cases lookup : ctx.callees.find? (ctx.functionOf proc) with
  | none =>
      simp only [compileCall, warning?, entry?, lookup]
      rfl
  | some found =>
      simp only [compileCall, warning?, entry?, lookup]
      rfl

/-- A compiled statement has the warnings of its call nodes, by induction on it. -/
theorem reports_compile {ctx : BodyContext} {stmt : Stmt} {compiled : Term × Recipe}
    (h : (ctx.compile stmt).result = .ok compiled)
    : (ctx.compile stmt).reports = stmt.callSites.filterMap ctx.warning? := by
  induction stmt generalizing compiled with
  | seq c d ihc ihd | tryCatch c d ihc ihd | cond _ c d ihc ihd =>
      simp only [compile, Reported.result_bind] at h
      obtain ⟨first, compiledFirst, h⟩ := bind_eq_ok_iff.mp h
      obtain ⟨second, compiledSecond, _⟩ := bind_eq_ok_iff.mp h
      simp only [compile, Stmt.callSites, List.filterMap_append,
        Reported.reports_bind_ok compiledFirst, Reported.reports_bind_ok compiledSecond,
        Reported.reports_pure, List.append_nil, ihc compiledFirst, ihd compiledSecond]
  | loop _ c ih | guard _ c ih =>
      simp only [compile, Reported.result_bind] at h
      obtain ⟨body, compiledBody, _⟩ := bind_eq_ok_iff.mp h
      simp only [compile, Stmt.callSites, Reported.reports_bind_ok compiledBody,
        Reported.reports_pure, List.append_nil, ih compiledBody]
  | call setup proc cleanup binders store =>
      simp only [compile] at h ⊢
      cases plain : ResultStore.plain? ⟨binders, store⟩ with
      | none =>
          rw [plain] at h
          cases h
      | some result =>
          obtain ⟨_, rfl⟩ := ResultStore.plain?_eq_some plain
          simp only [reports_compileCall, Stmt.callSites, List.filterMap_cons, List.filterMap_nil]
          cases ctx.warning? proc with
          | none => rfl
          | some warning => rfl
  | dynCall => cases h
  | skip | throw | assign | localInit | spec | guardedSpec => rfl

end BodyContext

-----------------------------------------------------------------------------------------
-- Functions
-----------------------------------------------------------------------------------------

namespace Scope

/-- The compiled function comes from its body: the body was compiled to the term `start` with these
warnings, every call that finds an entry finds one of its own procedure, and then the term was
guarded and finished.
-/
structure Translates (scope : Scope) (f : Function) (measure : MeasureId) (body : Stmt)
    (c : Compiled) (start : Term) : Prop where
  callees : c.callees = scope.calleeTable f
  resolves : (scope.bodyContext f measure).Resolves body
  compiled
    : ∃ recipe, (scope.bodyContext f measure).compile body = ⟨c.warnings, .ok (start, recipe)⟩
  finished
    : ∃ hyps steps,
        Theorem.finish
            ⟨scope.total, scope.env, .callCorres (guardedTerm f measure start) f.proc, hyps,
              some measure⟩
            f.returnSlot scope.optimize scope.trace
          = .ok
              ⟨⟨scope.total, scope.env, .callCorres c.term f.proc, hyps, some measure⟩, c.traces,
                steps⟩

variable {scope : Scope} {f : Function} {func : Name} {measure : MeasureId} {c : Compiled}

section Compile

variable (found : scope.functions.find? func = some f)
  (result : (scope.compile func measure).result = .ok c)

include found result

/-- A function that is compiled is supported, and its calls are resolved. -/
theorem resolves_of_compile : scope.Supports f ∧ scope.Resolves f := by
  have supports : scope.Supports f := by
    by_contra unsupported
    obtain ⟨_, refused⟩ := compile_of_not_supports measure found unsupported
    cases refused.symm.trans result
  refine ⟨supports, ?_⟩
  by_contra unresolved
  obtain ⟨_, refused⟩ := compile_of_not_resolves measure found supports unresolved
  cases refused.symm.trans result

omit found in
/-- What is compiled is a known function. -/
theorem exists_of_compile : ∃ f, scope.functions.find? func = some f ∧ c.name = f.name := by
  cases found : scope.functions.find? func with
  | none =>
      simp only [compile, found] at result
      cases result
  | some f =>
      obtain ⟨supports, resolves⟩ := resolves_of_compile found result
      obtain ⟨_, _, compiled, builds⟩ := compile_of_resolves measure found supports resolves
      cases compiled.symm.trans result
      exact ⟨f, rfl, builds.name⟩

/-- A function with a body that is compiled comes from this body. -/
theorem translates_of_compile {body : Stmt} (defined : scope.env.body? f.proc = some body)
    : ∃ start, scope.Translates f measure body c start := by
  obtain ⟨supports, resolves⟩ := resolves_of_compile found result
  have resolved : (scope.bodyContext f measure).Resolves body := resolves body defined
  obtain ⟨⟨start, recipe⟩, compiled⟩ :=
    (scope.bodyContext f measure).exists_compile (supports body defined)
  obtain ⟨term, traces, steps, finished, _⟩ :=
    Theorem.finish_callCorres scope.total scope.env f.proc
      (.ofList ((scope.bodyContext f measure).uses body)) (some measure)
      (guardedTerm f measure start) f.returnSlot scope.optimize scope.trace
  have whole := compileBody_eq_ok defined (proveBody_eq_ok compiled resolved) finished
  simp only [compile, found, defined] at result
  cases result.symm.trans whole
  refine ⟨start, rfl, resolved, ⟨recipe, ?_⟩, ⟨_, steps, finished⟩⟩
  exact congrArg (Reported.mk _) compiled

end Compile

end Scope

/-- Each function of a compiled cluster is compiled on its own, all from the same scope. By
induction on the members.
-/
theorem Cluster.exists_compile {scope : Scope} {id : ClusterId} {members : List Name}
    {compiled : List Compiled} (result : (Cluster.compile scope id members).result = .ok compiled)
    {c : Compiled} (among : c ∈ compiled)
    : ∃ name measure, (scope.compile name measure).result = .ok c := by
  have each (members : List Name) (measure : MeasureId) {compiled : List Compiled}
      (result : (compileMembers scope id measure members).result = .ok compiled)
      (among : c ∈ compiled)
      : ∃ name measure, (scope.compile name measure).result = .ok c := by
    induction members generalizing measure compiled with
    | nil =>
        cases result
        cases among
    | cons name rest ih =>
        simp only [compileMembers, Reported.result_bind, Reported.result_tell,
          Reported.result_pure] at result
        obtain ⟨first, compiledFirst, result⟩ := bind_eq_ok_iff.mp result
        obtain ⟨_, _, result⟩ := bind_eq_ok_iff.mp result
        obtain ⟨others, compiledOthers, result⟩ := bind_eq_ok_iff.mp result
        cases result
        rcases List.mem_cons.mp among with rfl | later
        · exact ⟨name, measure, compiledFirst⟩
        · exact ih (measure + 1) compiledOthers later
  rw [Cluster.compile, Reported.result_bind] at result
  exact each members 0 result among

end Monadize
