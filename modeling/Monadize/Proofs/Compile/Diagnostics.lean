import Monadize.Proofs.Compile.Calls

/-! What compiling a statement complains about. It fails on the first fragment, left to right, that
is outside the supported language; if there is none it warns of each call that finds no entry, in
the same order.
-/

namespace Monadize

namespace Stmt

/-- The statement and the parts that are reached from it through sequences, handlers, conditionals,
loops and guards, left to right. The result store of a call is not entered.
-/
def fragments : Stmt → List Stmt
  | .seq a b => .seq a b :: (a.fragments ++ b.fragments)
  | .tryCatch a b => .tryCatch a b :: (a.fragments ++ b.fragments)
  | .cond set a b => .cond set a b :: (a.fragments ++ b.fragments)
  | .loop set body => .loop set body :: body.fragments
  | .guard set body => .guard set body :: body.fragments
  | stmt => [stmt]

/-- What puts a fragment outside the supported language: it is a dynamic call, or a call whose
result is not stored by an update under two binders.
-/
def unsupported? : Stmt → Option Unsupported.Kind
  | .dynCall .. => some .dynamicCall
  | .call _ _ _ [_, _] (.assign _) => none
  | .call .. => some .resultStore
  | _ => none

/-- The procedure of a call. -/
def called? : Stmt → Option Name
  | .call _ proc _ _ _ => some proc
  | _ => none

theorem unsupported?_of_plain?_eq_none {setup cleanup : Expr} {proc : Name} {binders : List Name}
    {store : Stmt} (fancy : ResultStore.plain? ⟨binders, store⟩ = none)
    : (call setup proc cleanup binders store).unsupported? = some .resultStore := by
  unfold ResultStore.plain? at fancy
  split at fancy
  · cases fancy
  · next other =>
      rw [unsupported?]
      intro final caller update same sameToo
      exact other final caller update (by rw [same, sameToo])

/-- The call nodes of a supported statement are fragments of it: its result stores hold no call. By
induction on the statement.
-/
theorem callSites_eq_filterMap_called? {stmt : Stmt}
    (supported : ∀ fragment ∈ stmt.fragments, fragment.unsupported? = none)
    : stmt.callSites = stmt.fragments.filterMap called? := by
  induction stmt with
  | seq a b iha ihb | tryCatch a b iha ihb | cond _ a b iha ihb =>
      have left : ∀ fragment ∈ a.fragments, fragment.unsupported? = none := fun fragment among =>
        supported fragment (List.mem_cons_of_mem _ (List.mem_append_left _ among))
      have right : ∀ fragment ∈ b.fragments, fragment.unsupported? = none := fun fragment among =>
        supported fragment (List.mem_cons_of_mem _ (List.mem_append_right _ among))
      rw [callSites, iha left, ihb right, ← List.filterMap_append]
      rfl
  | loop _ body ih | guard _ body ih =>
      exact ih fun fragment among => supported fragment (List.mem_cons_of_mem _ among)
  | call setup proc cleanup binders store =>
      have plain : (call setup proc cleanup binders store).unsupported? = none :=
        supported _ (List.mem_singleton_self _)
      unfold unsupported? at plain
      split at plain
      · cases plain
      · next same =>
          cases same
          rfl
      · cases plain
      · next other => exact absurd rfl (other _ _ _ _ _)
  | dynCall => cases supported _ (List.mem_singleton_self _)
  | skip | throw | assign | localInit | spec | guardedSpec => rfl

end Stmt

-----------------------------------------------------------------------------------------
-- Errors
-----------------------------------------------------------------------------------------

namespace Reported

variable {ρ ε α β : Type}

/-- The error of a computation that fails. -/
def error? (computation : Reported ρ ε α) : Option ε :=
  match computation.result with
  | .error e => some e
  | .ok _ => none

theorem error?_eq_some_iff {computation : Reported ρ ε α} {e : ε}
    : computation.error? = some e ↔ computation.result = .error e := by
  unfold error?
  split
  · next failed => simp [failed]
  · next done => simp [done]

theorem error?_eq_none_iff {computation : Reported ρ ε α}
    : computation.error? = none ↔ ∃ value, computation.result = .ok value := by
  unfold error?
  split
  · next failed => simp [failed]
  · next done => simp [done]

/-- A sequence fails as its first computation does, and else as the second one. -/
theorem error?_bind {first : Reported ρ ε α} {next : α → Reported ρ ε β} {later : Option ε}
    (same : ∀ value, (next value).error? = later)
    : (first >>= next).error? = first.error?.or later := by
  cases done : first.result with
  | error e => simp [error?, done, Except.bind]
  | ok value =>
      have second := same value
      simp only [error?] at second
      simp [error?, done, Except.bind, second]

end Reported

namespace BodyContext

/-- The error about a fragment that is not supported. -/
def refusal? (ctx : BodyContext) (fragment : Stmt) : Option Unsupported :=
  fragment.unsupported?.map fun kind => ⟨ctx.func, kind, fragment⟩

/-- Compiling fails on the first fragment that is refused, by induction on the statement. -/
theorem error?_compile (ctx : BodyContext) (stmt : Stmt)
    : (ctx.compile stmt).error? = stmt.fragments.findSome? ctx.refusal? := by
  induction stmt with
  | seq c d ihc ihd | tryCatch c d ihc ihd | cond _ c d ihc ihd =>
      have parts : (ctx.compile c).error?.or ((ctx.compile d).error?.or none)
          = (c.fragments ++ d.fragments).findSome? ctx.refusal? := by
        rw [ihc, ihd, Option.or_none, List.findSome?_append]
      rw [compile]
      refine Eq.trans ?_ parts
      exact Reported.error?_bind fun _ => Reported.error?_bind fun _ => rfl
  | loop _ c ih | guard _ c ih =>
      have part : (ctx.compile c).error?.or none = c.fragments.findSome? ctx.refusal? := by
        rw [ih, Option.or_none]
      rw [compile]
      refine Eq.trans ?_ part
      exact Reported.error?_bind fun _ => rfl
  | call setup proc cleanup binders store =>
      cases plain : ResultStore.plain? ⟨binders, store⟩ with
      | none =>
          have refused : ctx.refusal? (.call setup proc cleanup binders store)
              = some ⟨ctx.func, .resultStore, .call setup proc cleanup binders store⟩ := by
            rw [refusal?, Stmt.unsupported?_of_plain?_eq_none plain]
            rfl
          simp only [compile, plain, Stmt.fragments, List.findSome?_cons, refused]
          rfl
      | some result =>
          obtain ⟨rfl, rfl⟩ := ResultStore.plain?_eq_some plain
          simp only [compile, plain, compileCall]
          split
          · rfl
          · rfl
  | skip | throw | assign | localInit | spec | guardedSpec | dynCall => rfl

/-- An error tells the first fragment that is not supported, and why. -/
theorem first_of_error {ctx : BodyContext} {stmt : Stmt} {e : Unsupported}
    (failed : (ctx.compile stmt).result = .error e)
    : e.func = ctx.func
      ∧ e.fragment.unsupported? = some e.kind
      ∧ ∃ before after,
          stmt.fragments = before ++ e.fragment :: after
          ∧ ∀ fragment ∈ before, fragment.unsupported? = none := by
  have first := Reported.error?_eq_some_iff.mpr failed
  rw [error?_compile] at first
  obtain ⟨before, fragment, after, split, refused, earlier⟩ := List.findSome?_eq_some_iff.mp first
  obtain ⟨kind, unsupported, rfl⟩ := Option.map_eq_some_iff.mp refused
  refine ⟨rfl, unsupported, before, after, split, ?_⟩
  intro other among
  exact Option.map_eq_none_iff.mp (earlier other among)

theorem error?_compile_eq_none_iff {ctx : BodyContext} {stmt : Stmt}
    : (ctx.compile stmt).error? = none
      ↔ ∀ fragment ∈ stmt.fragments, fragment.unsupported? = none := by
  simp only [error?_compile, List.findSome?_eq_none_iff, refusal?, Option.map_eq_none_iff]

-----------------------------------------------------------------------------------------
-- Warnings
-----------------------------------------------------------------------------------------

/-- Is no entry of the callees about the function? -/
def misses (ctx : BodyContext) (func : Name) : Bool :=
  ctx.callees.entries.all fun entry => entry.func ≠ func

theorem misses_eq_isNone_find? (ctx : BodyContext) (func : Name)
    : ctx.misses func = (ctx.callees.find? func).isNone := by
  cases found : ctx.callees.find? func with
  | none =>
      simp only [misses, List.all_eq_true, decide_eq_true_eq, Option.isNone_none]
      intro entry listed same
      obtain ⟨_, there⟩ := CalleeTable.exists_find? listed
      rw [same, found] at there
      cases there
  | some known =>
      obtain ⟨listed, same⟩ := CalleeTable.find?_eq_some found
      simp only [misses, List.all_eq_false, decide_eq_true_eq, Option.isNone_some]
      exact ⟨known.2, List.mem_of_getElem? listed, not_not.mpr same⟩

theorem filterMap_warning? (ctx : BodyContext) (procs : List Name)
    : procs.filterMap ctx.warning?
      = ((procs.map ctx.functionOf).filter ctx.misses).map (.missingCallee ctx.func) := by
  induction procs with
  | nil => rfl
  | cons proc procs ih =>
      rw [List.filterMap_cons, List.map_cons, List.filter_cons, misses_eq_isNone_find?, ih,
        warning?, entry?]
      cases ctx.callees.find? (ctx.functionOf proc) with
      | none => rfl
      | some found => rfl

-----------------------------------------------------------------------------------------
-- Diagnostics
-----------------------------------------------------------------------------------------

/-- Compiling fails exactly on a statement with an unsupported fragment, and then tells the first
one and what is wrong with it. Of any other statement it warns, once for each call of a function
without entry and in the order of the calls.
-/
theorem compile_diagnoses (ctx : BodyContext) (stmt : Stmt)
    : ((∃ e, (ctx.compile stmt).result = .error e)
        ↔ ∃ fragment ∈ stmt.fragments, fragment.unsupported? ≠ none)
      ∧ (∀ e,
          (ctx.compile stmt).result = .error e
          → e.func = ctx.func
            ∧ e.fragment.unsupported? = some e.kind
            ∧ ∃ before after,
                stmt.fragments = before ++ e.fragment :: after
                ∧ ∀ fragment ∈ before, fragment.unsupported? = none)
      ∧ ((∀ fragment ∈ stmt.fragments, fragment.unsupported? = none)
          → (∃ compiled, (ctx.compile stmt).result = .ok compiled)
            ∧ (ctx.compile stmt).reports
              = (((stmt.fragments.filterMap Stmt.called?).map ctx.functionOf).filter
                  ctx.misses).map (.missingCallee ctx.func)) := by
  refine ⟨?_, fun e failed => first_of_error failed, ?_⟩
  · have fails : (∃ e, (ctx.compile stmt).result = .error e)
        ↔ (ctx.compile stmt).error? ≠ none := by
      simp only [← Reported.error?_eq_some_iff, Option.ne_none_iff_exists']
    simp only [fails, ne_eq, error?_compile_eq_none_iff, not_forall, exists_prop]
  · intro supported
    have fine : (ctx.compile stmt).error? = none := error?_compile_eq_none_iff.mpr supported
    obtain ⟨compiled, done⟩ := Reported.error?_eq_none_iff.mp fine
    refine ⟨⟨compiled, done⟩, ?_⟩
    rw [reports_compile done, Stmt.callSites_eq_filterMap_called? supported, filterMap_warning?]

end BodyContext

end Monadize
