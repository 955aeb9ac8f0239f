import Monadize.Proofs.Run.Turns

/-! Runs with several workers. However the workers interleave, every cluster ends as in its turn:
from the functions it was admitted with it is compiled to the same, and then registered. So a run
that meets no fatal error with one cluster after the other has only one result.
-/

namespace Monadize

namespace Run

/-- What the workers start with. -/
def Shared.opening (program : Program) (base : RunState) : Shared :=
  ⟨base.store, (Plan.ofProgram program base.functions).2.union base.functions, [], []⟩

/-- The clusters that have ended have done so as in their turn, and those that are running were
admitted with functions that show them the same callees.
-/
structure InStep (program : Program) (settings : Settings) (base : RunState)
    (done : List ClusterId) (pool : Schedule.Pool Shared FunctionTable Output) : Prop where
  going : pool.queue.stopped = false
  describes
    : Describes program settings base (compiledOf program settings base done) pool.state.runState
  errors
    : pool.state.errors = done.filterMap fun id => failure? id (turn program settings base id)
  running
    : ∀ entry ∈ pool.running,
        ∃ ids input,
          input.functions = entry.input
          ∧ Sees program base entry.job ids
          ∧ Describes program settings base (compiledOf program settings base ids) input
          ∧ input.store.Grows pool.state.store
          ∧ Persists input pool.state.runState

variable {program : Program} {settings : Settings} {base : RunState}
  {done lost : List ClusterId} {pool next : Schedule.Pool Shared FunctionTable Output}

-----------------------------------------------------------------------------------------
-- Single steps
-----------------------------------------------------------------------------------------

variable (program base) in
theorem length_deps
    : (program.planOn base).graph.deps.length = (program.planOn base).graph.clusters.length :=
  CallGraph.length_deps_analyze ..

/-- A cluster that was ready at some time has its dependencies behind it. -/
theorem sees_of_accounts
    (accounts : Schedule.Accounts (program.planOn base).graph.deps done lost pool) {id : ClusterId}
    (ready : id ∈ Schedule.seen done lost pool) (fresh : id ∉ done)
    : id < (program.planOn base).graph.clusters.length ∧ Sees program base id done := by
  rw [← length_deps]
  refine ⟨((accounts.mem_seen id).mp ready).1, ?_, fresh, fun ds here j listed =>
    accounts.mem_done ready here listed⟩
  intro j ended
  rw [← length_deps]
  exact accounts.lt_of_mem_done ended

namespace InStep

variable (inStep : InStep program settings base done pool)

theorem start (orderly : Orderly program settings base)
    : InStep program settings base []
        (.start (program.planOn base).graph.deps (.opening program base)) where
  going := rfl
  describes := describes_opening settings orderly.consistent orderly.distinct
  errors := rfl
  running _ running := absurd running List.not_mem_nil

include inStep

/-- A cluster is admitted with the functions of the moment. -/
theorem take (accounts : Schedule.Accounts (program.planOn base).graph.deps done lost pool)
    (admitted
      : pool.admit? (task (program.planOn base) settings) (program.planOn base).graph.deps.length
        = some next)
    : InStep program settings base done next := by
  obtain ⟨_, _, job, ready, queue, rfl⟩ := Schedule.Pool.admit?_eq_some_iff.mp admitted
  refine ⟨inStep.going, inStep.describes, inStep.errors, ?_⟩
  intro entry running
  rcases List.mem_append.mp running with before | new
  · exact inStep.running entry before
  · cases List.mem_singleton.mp new
    have listed : job ∈ Schedule.seen done lost pool :=
      List.mem_append_right _ (queue ▸ List.mem_cons_self)
    have fresh : job ∉ done := by
      intro ended
      have parts := accounts.once
      rw [Schedule.seen, queue, List.append_assoc, List.append_assoc] at parts
      refine (List.nodup_append.mp parts).2.2 job ended job ?_ rfl
      simp
    exact ⟨done, pool.state.runState, rfl, (sees_of_accounts accounts listed fresh).2,
      inStep.describes, List.prefix_rfl, fun _ _ found _ => found⟩

/-- The end of its work leaves a cluster with the functions it was admitted with. -/
theorem work {i : Nat} {id : ClusterId} {functions : FunctionTable}
    (here : pool.running[i]? = some ⟨id, functions, none⟩) (result : Option Output)
    : InStep program settings base done (pool.worked i id functions result) := by
  refine ⟨inStep.going, inStep.describes, inStep.errors, ?_⟩
  intro entry running
  rcases List.mem_or_eq_of_mem_set running with other | rfl
  · exact inStep.running entry other
  · exact inStep.running ⟨id, functions, none⟩ (List.mem_of_getElem? here)

/-- The others go on when a cluster ends without stopping the workers. -/
theorem proceed (accounts : Schedule.Accounts (program.planOn base).graph.deps done lost pool)
    {i : Nat} {id : ClusterId} {functions : FunctionTable} {output : Output} {shared : Shared}
    (here : pool.running[i]? = some ⟨id, functions, some (some output)⟩)
    (committed
      : (task (program.planOn base) settings).commit pool.state id output = (shared, .proceed))
    (describes
      : Describes program settings base (compiledOf program settings base (done ++ [id]))
          shared.runState)
    (errors
      : shared.errors
        = pool.state.errors
          ++ [id].filterMap fun id => failure? id (turn program settings base id))
    (grows : pool.state.store.Grows shared.store)
    (persists : Persists pool.state.runState shared.runState)
    : InStep program settings base (done ++ [id])
        (pool.commit (task (program.planOn base) settings) i id output) := by
  have state : (pool.commit (task (program.planOn base) settings) i id output).state = shared :=
    congrArg Prod.fst committed
  refine ⟨?_, state ▸ describes, ?_, ?_⟩
  · refine (accounts.releases (task (program.planOn base) settings) here output).stopped.trans ?_
    rw [committed, inStep.going]
    rfl
  · rw [state, errors, inStep.errors, List.filterMap_append]
  · intro other running
    obtain ⟨ids, input, same, sees, fromInput, older, since⟩ :=
      inStep.running other (List.mem_of_mem_eraseIdx running)
    rw [state]
    exact ⟨ids, input, same, sees, fromInput, List.IsPrefix.trans older grows,
      fun name f found registered => persists name f (since name f found registered) registered⟩

/-- When a cluster ends, it does so as in its turn. -/
theorem commit (orderly : Orderly program settings base)
    (accounts : Schedule.Accounts (program.planOn base).graph.deps done lost pool) {i : Nat}
    {id : ClusterId} {functions : FunctionTable} {output : Output}
    (here : pool.running[i]? = some ⟨id, functions, some (some output)⟩)
    (works : (task (program.planOn base) settings).work id functions = some output)
    : InStep program settings base (done ++ [id])
        (pool.commit (task (program.planOn base) settings) i id output) := by
  obtain ⟨ids, input, rfl, sees, fromInput, older, since⟩ :=
    inStep.running _ (List.mem_of_getElem? here)
  obtain ⟨inside, seesDone⟩ := sees_of_accounts accounts
    (Schedule.Accounts.mem_seen_of_running here) (accounts.not_mem_done here)
  have ends := orderly.settle_cases inside sees fromInput seesDone inStep.describes older since
  rcases commit_task pool.state works with
    ⟨next, _, settled, committed⟩ | ⟨e, _, failed, committed⟩
  · rcases ends with ⟨_, settledToo, none, describes, grows, persists⟩ | ⟨_, failed, _⟩
    · obtain rfl := Except.ok.inj (settledToo.symm.trans settled)
      exact inStep.proceed accounts here committed describes (by simp [none]) grows persists
    · cases failed.symm.trans settled
  · rcases ends with ⟨_, settled, _⟩ | ⟨_, failedToo, some, mild, describes⟩
    · cases settled.symm.trans failed
    · obtain rfl := Except.error.inj (failedToo.symm.trans failed)
      rw [mild] at committed
      exact inStep.proceed accounts here committed describes (by simp [some]) List.prefix_rfl
        (fun _ _ found _ => found)

end InStep

-----------------------------------------------------------------------------------------
-- Whole runs
-----------------------------------------------------------------------------------------

section Histories

variable (orderly : Orderly program settings base)
  (history
    : Schedule.History (task (program.planOn base) settings) (program.planOn base).graph.deps
        (.opening program base) done lost pool)

include orderly history

/-- All clusters end as in their turn, by induction on the steps of the workers. -/
theorem Orderly.inStep : lost = [] ∧ InStep program settings base done pool := by
  induction history with
  | start => exact ⟨rfl, .start orderly⟩
  | take before admitted ih => exact ⟨ih.1, ih.2.take before.accounts admitted⟩
  | work before here ih => exact ⟨ih.1, ih.2.work here _⟩
  | commit before here ih =>
      have works := before.work_eq (List.mem_of_getElem? here) rfl
      exact ⟨ih.1, ih.2.commit orderly before.accounts here works⟩
  | @lose done lost pool i job _ before here ih =>
      -- a job is a cluster of the plan, so that there is work to do
      obtain ⟨inside, _⟩ := sees_of_accounts before.accounts
        (Schedule.Accounts.mem_seen_of_running here) (before.accounts.not_mem_done here)
      have none := Option.map_eq_none_iff.mp (before.work_eq (List.mem_of_getElem? here) rfl)
      exact absurd inside (Nat.not_lt.mpr (List.getElem?_eq_none_iff.mp none))

/-- Whatever the interleaving, the result is that of the turns. -/
theorem Orderly.agrees
    (finished
      : pool.Finished (task (program.planOn base) settings)
          (program.planOn base).graph.deps.length)
    : pool.broken = false
      ∧ Agrees base
          (stateAt program settings base (program.planOn base).graph.clusters.length)
          pool.state.runState
      ∧ pool.state.errors.Perm
          ((List.range (program.planOn base).graph.clusters.length).filterMap fun id =>
            failure? id (turn program settings base id)) := by
  obtain ⟨rfl, inStep⟩ := orderly.inStep history
  have perm : done.Perm (List.range (program.planOn base).graph.clusters.length) :=
    length_deps program base ▸ history.done_perm
      (Schedule.grounded_of_lt fun _ _ here _ listed => CallGraph.lt_of_mem_deps here listed)
      finished inStep.going
  refine ⟨?_, ?_, ?_⟩
  · exact Bool.eq_false_iff.mpr fun broken => history.accounts.broken.mp broken rfl
  · refine agrees_of_describes (orderly.consistent.opening orderly.distinct)
      (orderly.describes_stateAt Nat.le.refl) inStep.describes fun c => ?_
    exact ((perm.flatMap_right (compiledAt program settings base)).mem_iff).symm
  · rw [inStep.errors]
    exact perm.filterMap _

end Histories

/-- The workers end with the functions, the definitions and the errors of a run. -/
def Shared.Agrees (base : RunState) (run : List Item × RunState) (shared : Shared) : Prop :=
  Run.Agrees base run.2 shared.runState ∧ shared.errors.Perm (failures run.1)

/-- If the functions of a program take the place of older ones, and no error is fatal with one
cluster after the other, then every interleaving of the workers comes to an end, and to the same
one. Witness: each cluster ends as in its turn, and what is registered does not depend on the
order.
-/
theorem Session.parallel_agrees {allowed : Program → FunctionTable → Prop}
    (session : Session allowed base) {tag : Nat} {text : String}
    (parsed : Program.parse tag text = .ok program)
    (supersedes : program.Supersedes base.functions)
    (calm : ∀ failure ∈ failures (inTurn program settings base).1, failure.2.isFatal = false)
    : (∀ workers, ∃ shared,
        parallel (program.planOn base) settings (Plan.ofProgram program base.functions).2
            base.functions base.store workers
          = .ok shared
        ∧ shared.Agrees base (inTurn program settings base))
      ∧ ∀ pool : Schedule.Pool Shared FunctionTable Output,
          pool.Reachable (task (program.planOn base) settings) (program.planOn base).graph.deps
              (.opening program base)
          → Acc (fun next pool => pool.Step (task (program.planOn base) settings)
                (program.planOn base).graph.deps.length next) pool
            ∧ (pool.Finished (task (program.planOn base) settings)
                  (program.planOn base).graph.deps.length
              → pool.broken = false
                ∧ pool.state.Agrees base (inTurn program settings base)) := by
  have orderly : Orderly program settings base :=
    ⟨session.consistent, Program.distinct_of_parse parsed, supersedes, calm_of_inTurn calm⟩
  have ends {pool : Schedule.Pool Shared FunctionTable Output}
      (reachable
        : pool.Reachable (task (program.planOn base) settings) (program.planOn base).graph.deps
            (.opening program base))
      (finished
        : pool.Finished (task (program.planOn base) settings)
            (program.planOn base).graph.deps.length)
      : pool.broken = false ∧ pool.state.Agrees base (inTurn program settings base) := by
    obtain ⟨done, lost, history⟩ := reachable.history
    obtain ⟨whole, agrees, errors⟩ := orderly.agrees history finished
    refine ⟨whole, ?_, failures_inTurn calm ▸ errors⟩
    rw [inTurn_eq calm]
    exact agrees
  have inRange : ∀ ds ∈ (program.planOn base).graph.deps, ∀ d ∈ ds,
      d < (program.planOn base).graph.deps.length := by
    intro ds among d listed
    obtain ⟨id, here⟩ := List.mem_iff_getElem?.mp among
    exact Nat.lt_trans (CallGraph.lt_of_mem_deps here listed) (List.getElem?_eq_some_iff.mp here).1
  constructor
  · intro workers
    obtain ⟨pool, reachable, finished, result⟩ :=
      Schedule.exists_run (task (program.planOn base) settings) inRange workers
        (.opening program base)
    obtain ⟨whole, agrees⟩ := ends reachable finished
    rw [whole] at result
    exact ⟨pool.state, result, agrees⟩
  · intro pool reachable
    obtain ⟨done, lost, history⟩ := reachable.history
    exact ⟨history.acc, ends reachable⟩

/-- The call graph of the two functions and one more is the same on top of a run of the two. -/
theorem ofProgram_apart_again
    : Plan.ofProgram (.of 0 (.apart true)) (apartState false).functions
      = Plan.ofProgram (.of 0 (.apart true)) .empty := by
  rw [← ofProgram_outlines, outlines_apartState, ofProgram_apart]
  cbv

/-- Three functions that do not call each other, two of them known from an earlier run, can be
taken in any order.
-/
theorem parallel_agrees_apart
    : Session Program.Supersedes (apartState false)
      ∧ Program.parse 0 (Description.apart true).text = .ok (.of 0 (.apart true))
      ∧ (Program.of 0 (.apart true)).Supersedes (apartState false).functions
      ∧ (∀ failure ∈ failures
            (inTurn (.of 0 (.apart true)) (.usual "l2_") (apartState false)).1,
          failure.2.isFatal = false)
      ∧ ∀ workers, ∃ shared,
          parallel ((Program.of 0 (.apart true)).planOn (apartState false)) (.usual "l2_")
              (Plan.ofProgram (.of 0 (.apart true)) (apartState false).functions).2
              (apartState false).functions (apartState false).store workers
            = .ok shared
          ∧ shared.Agrees (apartState false)
              (inTurn (.of 0 (.apart true)) (.usual "l2_") (apartState false)) := by
  have session : Session Program.Supersedes (apartState false) :=
    session_inTurn .empty (parse_apart false) (Program.supersedes_empty _) _
  have supersedes : (Program.of 0 (.apart true)).Supersedes (apartState false).functions := by
    refine (Program.supersedes_iff session.consistent.sorted).mpr (.inl ?_)
    rw [ofProgram_apart_again, ofProgram_apart, apartState, inTurn, ofProgram_apart]
    decide +kernel
  have calm : ∀ failure ∈ failures
        (inTurn (.of 0 (.apart true)) (.usual "l2_") (apartState false)).1,
      failure.2.isFatal = false := by
    rw [inTurn, ofProgram_apart_again, ofProgram_apart, apartState, inTurn, ofProgram_apart]
    decide +kernel
  exact ⟨session, parse_apart true, supersedes, calm,
    (session.parallel_agrees (parse_apart true) supersedes calm).1⟩

end Run

-----------------------------------------------------------------------------------------
-- Functions whose procedures are declared again
-----------------------------------------------------------------------------------------

namespace Description

/-- The function `b` calls `g`, which cannot be compiled. Three more functions have no bodies. -/
def dangling : Description where
  file := "a"
  world := "w"
  functions :=
    [⟨"b", "x", some (.plainCall "p"), none, false⟩,
      ⟨"g", "p", some (.dynCall .univ .univ .univ ["t", "s"] (.assign .univ)), none, false⟩,
      ⟨"u", "u", none, none, false⟩,
      ⟨"y", "y", none, none, false⟩,
      ⟨"z", "z", none, none, false⟩]

/-- The function `g` can be compiled now. It is called by `h`, which has taken over the procedure of
`b`, and no longer by `b`.
-/
def swapped : Description where
  file := "a"
  world := "w"
  functions :=
    [⟨"a", "d", some .skip, none, false⟩,
      ⟨"b", "q", some (.plainCall "d"), none, false⟩,
      ⟨"g", "p", some .skip, none, false⟩,
      ⟨"h", "x", some (.plainCall "p"), none, false⟩]

end Description

namespace Run

theorem parse_dangling : Program.parse 0 Description.dangling.text = .ok (.of 0 .dangling) := by
  rw [Description.text, Json.render, Program.parse_ofList]
  decide +kernel

theorem parse_swapped : Program.parse 1 Description.swapped.text = .ok (.of 1 .swapped) := by
  rw [Description.text, Json.render, Program.parse_ofList]
  decide +kernel

def danglingTable : FunctionTable :=
  ⟨[("b", function "b" "x" ["g"] false), ("g", function "g" "p" [] false),
    ("u", function "u" "u" [] false), ("y", function "y" "y" [] false),
    ("z", function "z" "z" [] false)]⟩

theorem ofProgram_dangling
    : Plan.ofProgram (.of 0 .dangling) .empty
      = (⟨"a", (Program.of 0 .dangling).env,
          ⟨[("p", "g"), ("u", "u"), ("x", "b"), ("y", "y"), ("z", "z")]⟩,
          ⟨[["g"], ["b"], ["u"], ["y"], ["z"]], [[], [0], [], [], []]⟩⟩,
        danglingTable) := by
  cbv

/-- The state after a run of the first program. -/
def danglingState : RunState :=
  (inTurn (.of 0 .dangling) (.usual "l1_") ⟨.empty, .empty⟩).2

theorem outlines_danglingState
    : danglingState.functions.mapValues Function.outline
      = danglingTable.mapValues Function.outline := by
  rw [danglingState, inTurn, ofProgram_dangling]
  decide +kernel

theorem ofProgram_swapped
    : Plan.ofProgram (.of 1 .swapped) danglingState.functions
      = (⟨"a", (Program.of 1 .swapped).env,
          ⟨[("d", "a"), ("p", "g"), ("q", "b"), ("u", "u"), ("x", "h"), ("y", "y"), ("z", "z")]⟩,
          ⟨[["a"], ["b"], ["g"], ["h"]], [[], [0], [], [2]]⟩⟩,
        ⟨[("a", function "a" "d" [] false), ("b", function "b" "q" ["a"] false),
          ("g", function "g" "p" [] false), ("h", function "h" "x" ["g"] false)]⟩) := by
  rw [← ofProgram_outlines, outlines_danglingState]
  cbv

/-- The warnings of a function, if it is registered. -/
def warnings? (state : RunState) (name : Name) : Option (List Warning) :=
  ((state.functions.find? name).bind (·.registration)).map (·.warnings)

/-- Warnings do not mention constants. -/
theorem Agrees.warnings?_eq {first second : RunState} (agrees : Agrees base first second)
    (name : Name)
    : warnings? second name = warnings? first name := by
  obtain ⟨ρ, _, functions, _⟩ := agrees
  rw [warnings?, warnings?, functions, FiniteMap.find?_mapValues]
  cases first.functions.find? name with
  | none => rfl
  | some f =>
      simp only [Option.map_some, Option.bind_some, Function.rename, Option.map_map]
      rfl

/-- With more older functions than new ones, the second run still takes `b` for what it was: a
function of the procedure that `h` has now, and a caller of `g`. But its cluster comes before that
of `g`, on which it does not depend. In turn, `b` is compiled before `g` is registered, and so its
call becomes a failure. One worker takes `g` before `b`, and the call is compiled.
-/
theorem parallel_swapped_differs
    : Session (fun _ _ => True) danglingState
      ∧ Program.parse 1 Description.swapped.text = .ok (.of 1 .swapped)
      ∧ ¬ (Program.of 1 .swapped).Supersedes danglingState.functions
      ∧ (∀ failure ∈ failures
            (inTurn (.of 1 .swapped) (.usual "l2_") danglingState).1,
          failure.2.isFatal = false)
      ∧ ∃ shared,
          parallel ((Program.of 1 .swapped).planOn danglingState) (.usual "l2_")
              (Plan.ofProgram (.of 1 .swapped) danglingState.functions).2
              danglingState.functions danglingState.store 1
            = .ok shared
          ∧ ¬ shared.Agrees danglingState
              (inTurn (.of 1 .swapped) (.usual "l2_") danglingState) := by
  have session : Session (fun _ _ => True) danglingState :=
    session_inTurn .empty parse_dangling trivial _
  have older : ¬ (Program.of 1 .swapped).Supersedes danglingState.functions := by
    have declared : ⟨"b", "q", none, false⟩ ∈ (Program.of 1 .swapped).functions := by
      simp [Program.of, Description.swapped, Program.declaration]
    refine not_supersedes_of_outlines session.consistent.sorted outlines_danglingState ?_ declared
      rfl ?_
    · rw [ofProgram_swapped]
      exact Nat.lt_succ_self 4
    · rw [ofProgram_swapped]
      decide
  have inTheirTurn
      : warnings? (inTurn (.of 1 .swapped) (.usual "l2_") danglingState).2 "b"
        ≠ some [] := by
    rw [inTurn, ofProgram_swapped, danglingState, inTurn, ofProgram_dangling]
    decide +kernel
  have atOnce
      : (parallel ((Program.of 1 .swapped).planOn danglingState) (.usual "l2_")
            (Plan.ofProgram (.of 1 .swapped) danglingState.functions).2
            danglingState.functions danglingState.store 1).toOption.map
          (fun shared => warnings? shared.runState "b")
        = some (some []) := by
    rw [Program.planOn, ofProgram_swapped, danglingState, inTurn, ofProgram_dangling]
    decide +kernel
  refine ⟨session, parse_swapped, older, ?_, ?_⟩
  · rw [inTurn, ofProgram_swapped, danglingState, inTurn, ofProgram_dangling]
    decide +kernel
  · generalize parallel _ _ _ _ _ 1 = result at atOnce ⊢
    cases result with
    | error => cases atOnce
    | ok shared =>
        refine ⟨shared, rfl, fun agrees => inTheirTurn ?_⟩
        rw [← agrees.1.warnings?_eq]
        exact Option.some.inj atOnce

end Run

end Monadize
