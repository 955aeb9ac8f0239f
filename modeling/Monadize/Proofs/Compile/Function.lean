import Monadize.Compile.Function
import Monadize.Proofs.Compile.Replay
import Monadize.Proofs.Finishing
import Monadize.Proofs.Replay.Scoping

/-! Compiling one function: it fails only if its body is not supported or a call of it goes through
an entry for another procedure, and otherwise gives a theorem that is ready to be closed.
-/

namespace Monadize

namespace Scope

variable {scope : Scope} {f : Function}

/-- The entries of a function are its callees that are recursive or registered. -/
theorem mem_calleeTable {entry : CalleeEntry}
    : entry ∈ (scope.calleeTable f).entries
      ↔ ∃ g,
          entry.func ∈ f.callees.elems
          ∧ scope.functions.find? entry.func = some g
          ∧ (entry.func ∈ f.recCallees.elems ∨ g.registration.isSome = true)
          ∧ entry = ⟨entry.func, g.proc, f.recCallees.contains entry.func, g.measured⟩ := by
  simp only [calleeTable, List.mem_filterMap]
  constructor
  · intro h
    obtain ⟨callee, called, present⟩ := h
    split at present
    · cases present
    · next g found =>
        split at present
        · next kept =>
            cases present
            refine ⟨g, called, found, ?_, rfl⟩
            simpa [NameSet.contains] using kept
        · cases present
  · intro h
    obtain ⟨g, called, found, kept, same⟩ := h
    refine ⟨entry.func, called, ?_⟩
    have keep : (f.recCallees.contains entry.func || g.registration.isSome) = true := by
      simpa [NameSet.contains] using kept
    simp only [found]
    rw [if_pos keep, ← same]

theorem recursive_iff {entry : CalleeEntry} (listed : entry ∈ (scope.calleeTable f).entries)
    : entry.recursive = true ↔ entry.func ∈ f.recCallees.elems := by
  obtain ⟨g, _, _, _, shape⟩ := mem_calleeTable.mp listed
  rw [shape]
  simp [NameSet.contains]

theorem mem_recursiveCallees {callees : CalleeTable} {term : Term} {name : Name}
    : name ∈ (recursiveCallees callees term).elems
      ↔ ∃ p m entry,
          ⟨.placeholder p, .pred m⟩ ∈ term.callees
          ∧ callees.entries[p]? = some entry
          ∧ entry.func = name := by
  rw [recursiveCallees, NameSet.mem_ofList, List.mem_filterMap]
  constructor
  · rintro ⟨⟨target, measure⟩, called, found⟩
    cases target with
    | const => cases found
    | placeholder p =>
        cases measure with
        | managed | unused => cases found
        | pred m =>
            obtain ⟨entry, present, rfl⟩ := Option.map_eq_some_iff.mp found
            exact ⟨p, m, entry, called, present, rfl⟩
  · rintro ⟨p, m, entry, called, present, rfl⟩
    exact ⟨_, called, Option.map_eq_some_iff.mpr ⟨entry, present, rfl⟩⟩

-----------------------------------------------------------------------------------------
-- What is compiled
-----------------------------------------------------------------------------------------

/-- The term of a body, under a recursion guard if the function is measured. -/
def guardedTerm (f : Function) (measure : MeasureId) (term : Term) : Term :=
  if f.measured then .recGuard measure term else term

theorem callees_guardedTerm (f : Function) (measure : MeasureId) (term : Term)
    : (guardedTerm f measure term).callees = term.callees := by
  unfold guardedTerm
  split <;> rfl

theorem instantiate_guardedTerm (f : Function) (measure : MeasureId) (term : Term)
    (find : PlaceholderId → Option ConstId)
    : (guardedTerm f measure term).instantiate find
      = guardedTerm f measure (term.instantiate find) := by
  unfold guardedTerm
  split <;> rfl

/-- A term without guards is guarded at the root, if at all. -/
theorem guards_guardedTerm {term : Term} (plain : term.guards = []) (f : Function)
    (measure : MeasureId)
    : Member.isRecGuard (guardedTerm f measure term) = f.measured
      ∧ ∀ child ∈ (guardedTerm f measure term).children, child.guards = [] := by
  unfold guardedTerm
  cases f.measured with
  | true =>
      refine ⟨rfl, fun child among => ?_⟩
      cases List.mem_singleton.mp among
      exact plain
  | false =>
      refine ⟨?_, fun child among => Term.guards_of_mem_children plain among⟩
      cases term with
      | recGuard => cases plain
      | _ => rfl

/-- The measure goes through the term as the function and its callees ask for: there is a guard at
the root if the function is measured and none elsewhere, and each callee is passed what its entry
says.
-/
structure Threads (scope : Scope) (f : Function) (measure : MeasureId) (term : Term) : Prop where
  undefined : scope.env.body? f.proc = none → term = .fail
  defined
    : ∀ body,
        scope.env.body? f.proc = some body
        → ∃ inner : Term, inner.guards = [] ∧ term = guardedTerm f measure inner
  callees
    : ∀ callee ∈ term.callees,
        ∃ p entry,
          (scope.calleeTable f).entries[p]? = some entry
          ∧ callee = ⟨.placeholder p, (entry.threading measure).1⟩

/-- The compiled function has a theorem about its term and its procedure. The theorem assumes
entries of the function's table, the callees of the term are among them, and a measured function
that assumes anything is guarded.
-/
structure Builds (scope : Scope) (f : Function) (c : Compiled) (term : Term) : Prop where
  name : c.name = f.name
  callees : c.callees = scope.calleeTable f
  total : c.thm.total = scope.total
  env : c.thm.env = scope.env
  judgement : c.thm.judgement = .callCorres term f.proc
  hyps
    : ∀ p hyp,
        (p, hyp) ∈ c.thm.hyps.entries
        → ∃ entry, (scope.calleeTable f).entries[p]? = some entry ∧ hyp = entry.hyp
  placed
    : ∀ callee ∈ term.callees,
        ∃ p hyp,
          callee.target = .placeholder p ∧ c.thm.hyps.find? p = some hyp
          ∧ ∀ m, callee.measure = .pred m → hyp.recursive = true
  guarded : c.thm.hyps.entries ≠ [] → f.measured = true → Member.isRecGuard term = true
  threads : ∃ measure, scope.Threads f measure term
  recCallees : c.recCallees = recursiveCallees (scope.calleeTable f) term

/-- A function without a body compiles to failure. -/
theorem exists_compileUndefined (missing : scope.env.body? f.proc = none)
    : ∃ c term, (scope.compileUndefined f).result = .ok c ∧ scope.Builds f c term := by
  have bodiless : scope.env.hasBody f.proc = false := by
    simp [Environment.hasBody, missing]
  have undefined : Theorem.ofUndefined scope.total scope.env f.proc
      = .ok ⟨scope.total, scope.env, .callCorres .fail f.proc, .empty, none⟩ := by
    simp [Theorem.ofUndefined, bodiless]
  have compiled : ∃ warnings,
      (scope.compileUndefined f).result
      = .ok ⟨f.name, ⟨scope.total, scope.env, .callCorres .fail f.proc, .empty, none⟩,
          scope.calleeTable f, .empty, warnings, []⟩ := by
    simp only [compileUndefined, kernel, undefined]
    exact ⟨_, rfl⟩
  obtain ⟨warnings, compiled⟩ := compiled
  exact ⟨_, .fail, compiled, {
    name := rfl
    callees := rfl
    total := rfl
    env := rfl
    judgement := rfl
    hyps := nofun
    placed := nofun
    guarded := fun assumed => absurd rfl assumed
    threads := ⟨0, fun _ => rfl, fun _ defined => (nomatch missing.symm.trans defined), nofun⟩
    recCallees := rfl }⟩

variable {measure : MeasureId} {body : Stmt}

/-- A body that is not supported is refused as such. -/
theorem proveBody_of_not_supported (unsupported : ¬ body.Supported)
    : ∃ what, (scope.proveBody f measure body).result = .error (.unsupported what) := by
  have refused : ∃ what, ((scope.bodyContext f measure).compile body).result = .error what := by
    cases result : ((scope.bodyContext f measure).compile body).result with
    | error what => exact ⟨what, rfl⟩
    | ok compiled =>
        exact absurd (((scope.bodyContext f measure).exists_compile_iff).mp ⟨compiled, result⟩)
          unsupported
  obtain ⟨what, refused⟩ := refused
  refine ⟨what, ?_⟩
  simp only [proveBody, refused]
  rfl

/-- The theorem about a compiled body whose calls are resolved assumes the entries they find. -/
theorem proveBody_eq_ok {term : Term} {recipe : Recipe}
    (compiled : ((scope.bodyContext f measure).compile body).result = .ok (term, recipe))
    (resolves : (scope.bodyContext f measure).Resolves body)
    : (scope.proveBody f measure body).result
      = .ok (⟨scope.total, scope.env, .corres term body,
          .ofList ((scope.bodyContext f measure).uses body), some measure⟩,
          ((scope.bodyContext f measure).compile body).reports) := by
  have compiles := BodyContext.compiles_of_compile compiled
  have proved : Goal.prove ⟨scope.total, scope.env, .corres term body⟩ recipe
      (scope.bodyContext f measure).callees.hyps measure
      = .ok ⟨scope.total, scope.env, .corres term body,
          .ofList ((scope.bodyContext f measure).uses body), some measure⟩ :=
    Goal.prove_eq_ok_iff.mpr ⟨term, body, _, rfl, compiles.derives resolves, rfl⟩
  simp only [proveBody, kernel, Reported.result_bind, Reported.result_tell,
    Reported.result_ofExcept, Reported.result_pure, compiled, proved, Except.mapError, Except.bind]

theorem proveBody_of_resolves (supported : body.Supported)
    (resolves : (scope.bodyContext f measure).Resolves body)
    : ∃ term recipe warnings,
        (scope.proveBody f measure body).result
          = .ok (⟨scope.total, scope.env, .corres term body,
              .ofList ((scope.bodyContext f measure).uses body), some measure⟩, warnings)
        ∧ (scope.bodyContext f measure).Compiles body term recipe := by
  obtain ⟨⟨term, recipe⟩, compiled⟩ := (scope.bodyContext f measure).exists_compile supported
  exact ⟨term, recipe, _, proveBody_eq_ok compiled resolves,
    BodyContext.compiles_of_compile compiled⟩

/-- The kernel refuses the recipe of a supported body with a call that is not resolved. -/
theorem proveBody_of_not_resolves (supported : body.Supported)
    (unresolved : ¬ (scope.bodyContext f measure).Resolves body)
    : ∃ e, (scope.proveBody f measure body).result = .error (.proof (some f.name) e) := by
  obtain ⟨⟨term, recipe⟩, compiled⟩ := (scope.bodyContext f measure).exists_compile supported
  have refused : ∃ e, Goal.prove ⟨scope.total, scope.env, .corres term body⟩ recipe
      (scope.bodyContext f measure).callees.hyps measure = .error e := by
    cases attempt : Goal.prove ⟨scope.total, scope.env, .corres term body⟩ recipe
        (scope.bodyContext f measure).callees.hyps measure with
    | error e => exact ⟨e, rfl⟩
    | ok thm =>
        obtain ⟨_, _, uses, same, derived, _⟩ := Goal.prove_eq_ok_iff.mp attempt
        cases same
        exact absurd ((BodyContext.compiles_of_compile compiled).resolves derived) unresolved
  obtain ⟨e, refused⟩ := refused
  refine ⟨e, ?_⟩
  simp only [proveBody, kernel, Reported.result_bind, Reported.result_tell,
    Reported.result_ofExcept, compiled, refused, Except.mapError, Except.bind]

/-- What the theorem about a body assumes comes from the table of the function. -/
theorem uses_bodyContext {p : PlaceholderId} {hyp : Hyp}
    (used : (p, hyp) ∈ (scope.bodyContext f measure).uses body)
    : ∃ entry, (scope.calleeTable f).entries[p]? = some entry ∧ hyp = entry.hyp := by
  have given := (BodyContext.mem_uses.mp used).2
  rw [CalleeTable.getElem?_hyps] at given
  obtain ⟨entry, present, rfl⟩ := Option.map_eq_some_iff.mp given
  exact ⟨entry, present, rfl⟩

/-- From the theorem about the body on nothing fails: it is guarded if the function is measured,
turned into one about a call, and finished.
-/
theorem compileBody_eq_ok (defined : scope.env.body? f.proc = some body) {start term : Term}
    {hyps : FiniteMap PlaceholderId Hyp} {warnings : List Warning} {traces : List TraceRecord}
    {steps : Nat}
    (proved
      : (scope.proveBody f measure body).result
        = .ok (⟨scope.total, scope.env, .corres start body, hyps, some measure⟩, warnings))
    (finished
      : Theorem.finish
          ⟨scope.total, scope.env, .callCorres (guardedTerm f measure start) f.proc, hyps,
            some measure⟩
          f.returnSlot scope.optimize scope.trace
        = .ok
            ⟨⟨scope.total, scope.env, .callCorres term f.proc, hyps, some measure⟩, traces,
              steps⟩)
    : (scope.compileBody f measure body).result
      = .ok ⟨f.name, ⟨scope.total, scope.env, .callCorres term f.proc, hyps, some measure⟩,
          scope.calleeTable f, recursiveCallees (scope.calleeTable f) term, warnings, traces⟩ := by
  rw [compileBody, Reported.result_bind_ok proved]
  cases measured : f.measured with
  | true =>
      rw [guardedTerm, if_pos measured] at finished
      simp only [if_true, kernel, Theorem.guardRecursion, Theorem.unfold, defined, finished,
        Reported.result_bind, Reported.result_tell, Reported.result_ofExcept, Reported.result_pure,
        Except.mapError, Except.bind]
      rfl
  | false =>
      rw [guardedTerm, if_neg (Bool.eq_false_iff.mp measured)] at finished
      simp only [Bool.false_eq_true, if_false, kernel, Theorem.unfold, if_true, defined, finished,
        Reported.result_bind, Reported.result_tell, Reported.result_ofExcept, Reported.result_pure,
        Except.mapError, Except.bind]
      rfl

/-- Trimming the term of a body keeps the guard of a measured function, and brings in no other. -/
theorem exists_guardedTerm {start term : Term}
    (trims : (guardedTerm f measure start).Trims term) (plain : start.guards = [])
    : ∃ inner : Term, inner.guards = [] ∧ term = guardedTerm f measure inner := by
  unfold guardedTerm at trims ⊢
  split at trims
  · next measured =>
      obtain ⟨inner, rfl, fewer⟩ := trims.guarded measure start rfl
      exact ⟨inner, List.subset_nil.mp (plain ▸ fewer), (if_pos measured).symm⟩
  · next free =>
      exact ⟨term, List.subset_nil.mp (plain ▸ trims.guards), (if_neg free).symm⟩

theorem compileBody_of_resolves (defined : scope.env.body? f.proc = some body)
    (supported : body.Supported) (resolves : (scope.bodyContext f measure).Resolves body)
    : ∃ c term, (scope.compileBody f measure body).result = .ok c ∧ scope.Builds f c term := by
  obtain ⟨start, recipe, warnings, proved, compiles⟩ := proveBody_of_resolves supported resolves
  have derived := compiles.derives resolves
  obtain ⟨term, traces, steps, finished, trims⟩ :=
    Theorem.finish_callCorres scope.total scope.env f.proc
      (.ofList ((scope.bodyContext f measure).uses body)) (some measure)
      (guardedTerm f measure start) f.returnSlot scope.optimize scope.trace
  have before {callee : Callee} (member : callee ∈ term.callees) : callee ∈ start.callees := by
    simpa only [callees_guardedTerm] using trims.callees member
  have shape := exists_guardedTerm trims derived.guards_eq_nil
  refine ⟨_, term, compileBody_eq_ok defined proved finished, {
    name := rfl
    callees := rfl
    total := rfl
    env := rfl
    judgement := rfl
    hyps := fun p hyp assumed => uses_bodyContext (FiniteMap.mem_entries_ofList assumed)
    placed := ?_
    guarded := ?_
    threads := ⟨measure, fun missing => (nomatch missing.symm.trans defined), ?_, ?_⟩
    recCallees := rfl }⟩
  · intro callee member
    obtain ⟨p, hyp, target, used, recursive, same⟩ := derived.exists_hyp (before member)
    have known := (FiniteMap.find?_ofList_eq_some_iff derived.functional_uses).mpr used
    refine ⟨p, hyp, target, known, ?_⟩
    intro m passed
    exact recursive.mpr (same m passed ▸ passed)
  · intro _ measured
    obtain ⟨inner, _, rfl⟩ := shape
    rw [guardedTerm, if_pos measured]
    rfl
  · exact fun _ _ => shape
  · intro callee member
    exact compiles.threads callee (before member)

-----------------------------------------------------------------------------------------
-- Functions by name
-----------------------------------------------------------------------------------------

/-- The body of the function, if it has one, is supported. -/
def Supports (scope : Scope) (f : Function) : Prop :=
  ∀ body, scope.env.body? f.proc = some body → body.Supported

/-- Every call in the body of the function that finds an entry finds one for the called procedure.
Measures do not matter for this.
-/
def Resolves (scope : Scope) (f : Function) : Prop :=
  ∀ body, scope.env.body? f.proc = some body → (scope.bodyContext f 0).Resolves body

variable {func : Name} (found : scope.functions.find? func = some f) (measure)

include found

theorem compile_of_resolves (supported : scope.Supports f) (resolves : scope.Resolves f)
    : ∃ c term, (scope.compile func measure).result = .ok c ∧ scope.Builds f c term := by
  simp only [compile, found]
  cases defined : scope.env.body? f.proc with
  | none => exact exists_compileUndefined defined
  | some body =>
      exact compileBody_of_resolves defined (supported body defined) (resolves body defined)

theorem compile_of_not_supports (unsupported : ¬ scope.Supports f)
    : ∃ what, (scope.compile func measure).result = .error (.unsupported what) := by
  simp only [Supports, not_forall] at unsupported
  obtain ⟨body, defined, unsupported⟩ := unsupported
  obtain ⟨what, refused⟩
      : ∃ what, (scope.proveBody f measure body).result = .error (.unsupported what) :=
    proveBody_of_not_supported unsupported
  refine ⟨what, ?_⟩
  simp only [compile, found, defined]
  exact Reported.result_bind_error refused

theorem compile_of_not_resolves (supported : scope.Supports f) (unresolved : ¬ scope.Resolves f)
    : ∃ e, (scope.compile func measure).result = .error (.proof (some f.name) e) := by
  simp only [Resolves, not_forall] at unresolved
  obtain ⟨body, defined, unresolved⟩ := unresolved
  obtain ⟨e, refused⟩
      : ∃ e, (scope.proveBody f measure body).result = .error (.proof (some f.name) e) :=
    proveBody_of_not_resolves (supported body defined) unresolved
  refine ⟨e, ?_⟩
  simp only [compile, found, defined]
  exact Reported.result_bind_error refused

end Scope

end Monadize
