import Monadize.Proofs.Compile.Function
import Monadize.Run.Cluster

/-! Compiling the functions of a cluster in turn: the first one that fails decides how the cluster
fails.
-/

namespace Monadize

namespace Cluster

/-- The named functions, where they are known, are supported. -/
def Supports (scope : Scope) (members : List Name) : Prop :=
  ∀ name ∈ members, ∀ f, scope.functions.find? name = some f → scope.Supports f

/-- A function that is not resolved is reached: it is supported, and so are those before it. -/
def Breaks (scope : Scope) (members : List Name) : Prop :=
  ∃ before name after f,
    members = before ++ name :: after
    ∧ Supports scope (before ++ [name])
    ∧ scope.functions.find? name = some f
    ∧ ¬ scope.Resolves f

/-- The compiled functions are those of the members, one by one. -/
def Compiles (scope : Scope) (members : List Name) (compiled : List Compiled) : Prop :=
  List.Forall₂
    (fun name c => ∃ f term, scope.functions.find? name = some f ∧ scope.Builds f c term)
    members compiled

variable {scope : Scope} {members : List Name}

theorem supports_cons {name : Name} {f : Function} (found : scope.functions.find? name = some f)
    : Supports scope (name :: members) ↔ scope.Supports f ∧ Supports scope members := by
  simp [Supports, found]

/-- A cluster breaks at its first function or, if that one compiles, later. -/
theorem breaks_cons {name : Name} {f : Function} (found : scope.functions.find? name = some f)
    : Breaks scope (name :: members)
      ↔ scope.Supports f ∧ (¬ scope.Resolves f ∨ Breaks scope members) := by
  constructor
  · intro breaks
    obtain ⟨before, func, after, g, split, supported, known, unresolved⟩ := breaks
    cases before with
    | nil =>
        cases split
        cases found.symm.trans known
        exact ⟨((supports_cons found).mp supported).1, .inl unresolved⟩
    | cons first before =>
        cases split
        obtain ⟨here, later⟩ := (supports_cons found).mp supported
        exact ⟨here, .inr ⟨before, func, after, g, rfl, later, known, unresolved⟩⟩
  · intro h
    obtain ⟨here, unresolved | breaks⟩ := h
    · exact ⟨[], name, members, f, rfl, (supports_cons found).mpr ⟨here, nofun⟩, found, unresolved⟩
    · obtain ⟨before, func, after, g, rfl, supported, known, unresolved⟩ := breaks
      exact ⟨name :: before, func, after, g, rfl, (supports_cons found).mpr ⟨here, supported⟩,
        known, unresolved⟩

/-- How compiling the functions of a cluster ends. -/
inductive Ends (scope : Scope) (members : List Name) : Except CompileError (List Compiled) → Prop
  | compiled {compiled : List Compiled} (supported : Supports scope members)
      (whole : ¬ Breaks scope members) (compiles : Compiles scope members compiled)
      : Ends scope members (.ok compiled)
  | unsupported {what : Unsupported} (refused : ¬ Supports scope members)
      (whole : ¬ Breaks scope members)
      : Ends scope members (.error (.unsupported what))
  | broken {func : Option Name} {e : ProofError} (breaks : Breaks scope members)
      : Ends scope members (.error (.proof func e))

/-- The end of a cluster is the end of its first function unless that one compiles, by induction on
the members.
-/
theorem ends_compileMembers (known : ∀ name ∈ members, ∃ f, scope.functions.find? name = some f)
    (id : ClusterId) (measure : MeasureId)
    : Ends scope members (compileMembers scope id measure members).result := by
  induction members generalizing measure with
  | nil =>
      refine .compiled nofun ?_ .nil
      intro breaks
      obtain ⟨before, name, after, _, split, _⟩ := breaks
      simp at split
  | cons name rest ih =>
      obtain ⟨f, found⟩ := known name List.mem_cons_self
      have later := ih (fun other among => known other (List.mem_cons_of_mem name among))
        (measure + 1)
      rw [compileMembers]
      by_cases supported : scope.Supports f
      · by_cases resolves : scope.Resolves f
        · obtain ⟨c, term, compiled, built⟩ :=
            Scope.compile_of_resolves measure found supported resolves
          simp only [Reported.result_bind, Reported.result_tell, Reported.result_pure, compiled,
            Except.bind]
          have breaks : Breaks scope (name :: rest) ↔ Breaks scope rest := by
            simp [breaks_cons found, supported, resolves]
          generalize (compileMembers scope id (measure + 1) rest).result = result at later
          cases later with
          | compiled supportedRest whole compiles =>
              exact .compiled ((supports_cons found).mpr ⟨supported, supportedRest⟩)
                (breaks.not.mpr whole) (.cons ⟨f, term, found, built⟩ compiles)
          | unsupported refused whole =>
              exact .unsupported (fun all => refused ((supports_cons found).mp all).2)
                (breaks.not.mpr whole)
          | broken breaksRest => exact .broken (breaks.mpr breaksRest)
        · obtain ⟨e, refused⟩ := Scope.compile_of_not_resolves measure found supported resolves
          rw [Reported.result_bind_error refused]
          exact .broken ((breaks_cons found).mpr ⟨supported, .inl resolves⟩)
      · obtain ⟨what, refused⟩ := Scope.compile_of_not_supports measure found supported
        rw [Reported.result_bind_error refused]
        exact .unsupported (fun all => supported ((supports_cons found).mp all).1)
          (fun breaks => supported ((breaks_cons found).mp breaks).1)

/-- A cluster that is compiled has a compiled function for each member. -/
theorem compiles_of_compile (known : ∀ name ∈ members, ∃ f, scope.functions.find? name = some f)
    {id : ClusterId} {compiled : List Compiled}
    (result : (compile scope id members).result = .ok compiled)
    : Supports scope members ∧ Compiles scope members compiled := by
  have ends := ends_compileMembers known id 0
  rw [show (compileMembers scope id 0 members).result = .ok compiled
    from (Reported.result_bind _ _).symm.trans result] at ends
  cases ends with
  | compiled supported _ compiles => exact ⟨supported, compiles⟩

end Cluster

-----------------------------------------------------------------------------------------
-- What a function sees of its callees
-----------------------------------------------------------------------------------------

/-- What the callers of a function see of it. -/
def Function.face (f : Function) : Name × Bool × Bool :=
  (f.proc, f.measured, f.registration.isSome)

/-- The table of a function shows what it sees of its callees. -/
theorem Scope.calleeTable_congr {scope scope' : Scope} {f : Function}
    (faces
      : ∀ callee ∈ f.callees.elems,
          (scope.functions.find? callee).map Function.face
          = (scope'.functions.find? callee).map Function.face)
    : scope.calleeTable f = scope'.calleeTable f := by
  refine congrArg CalleeTable.mk (List.filterMap_congr fun callee called => ?_)
  have same := faces callee called
  cases found : scope.functions.find? callee with
  | none =>
      rw [found, Option.map_none, eq_comm, Option.map_eq_none_iff] at same
      rw [same]
  | some g =>
      rw [found, Option.map_some, eq_comm, Option.map_eq_some_iff] at same
      obtain ⟨g', found', face⟩ := same
      obtain ⟨proc, measured, registered⟩ : g'.proc = g.proc ∧ g'.measured = g.measured
          ∧ g'.registration.isSome = g.registration.isSome := by
        simpa only [Function.face, Prod.mk.injEq] using face
      simp only [found', proc, measured, registered]

end Monadize
