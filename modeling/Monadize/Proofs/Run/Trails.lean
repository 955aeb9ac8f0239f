import Monadize.Proofs.Run.Course

/-! The trail of a run: the clusters that have ended, registered or not, and the state after each of
them. Whether clusters come one after the other or many at a time, each one ends once, and it was
compiled from a state in which all clusters it depends on had ended.
-/

namespace Monadize

namespace Run

/-- How a cluster that was compiled from the functions `input` ends. If it is not registered, it
leaves the state as it is.
-/
inductive Ends (plan : Plan) (settings : Settings) (input : FunctionTable) (state : RunState)
    (id : ClusterId) : RunState → Prop
  | registered {next : RunState} (settled : settle plan settings input state id = .ok next)
      : Ends plan settings input state id next
  | refused {e : CompileError} (failed : settle plan settings input state id = .error e)
      : Ends plan settings input state id state

/-- The moments of a run, the latest one first: the clusters that have ended, and the state. -/
inductive Trail (plan : Plan) (settings : Settings) (start : RunState)
    : List (List ClusterId × RunState) → Prop
  | start : Trail plan settings start [([], start)]
  | ends {moments : List (List ClusterId × RunState)} {done ids : List ClusterId}
      {state input next : RunState} {id : ClusterId}
      (before : Trail plan settings start ((done, state) :: moments))
      (known : (ids, input) ∈ (done, state) :: moments)
      (fresh : id ∉ done)
      (deps : ∀ ds, plan.graph.deps[id]? = some ds → ∀ d ∈ ds, d ∈ ids)
      (ended : Ends plan settings input.functions state id next)
      : Trail plan settings start ((done ++ [id], next) :: (done, state) :: moments)

variable {plan : Plan} {settings : Settings} {start : RunState}

/-- What every cluster keeps when it ends holds at all moments of a trail, by induction on it. Of
two moments the later one is related to the earlier one.
-/
theorem Trail.forall {done : List ClusterId} {state : RunState}
    {moments : List (List ClusterId × RunState)}
    (trail : Trail plan settings start ((done, state) :: moments))
    {P : List ClusterId → RunState → Prop}
    {R : List ClusterId → RunState → List ClusterId → RunState → Prop}
    (same : ∀ done state, R done state done state)
    (onward
      : ∀ {ids input done state done' state'},
          R ids input done state → R done state done' state' → R ids input done' state')
    (first : P [] start)
    (step
      : ∀ {ids input done state next id},
          P ids input
          → P done state
          → R ids input done state
          → id ∉ done
          → (∀ ds, plan.graph.deps[id]? = some ds → ∀ d ∈ ds, d ∈ ids)
          → Ends plan settings input.functions state id next
          → P (done ++ [id]) next ∧ R done state (done ++ [id]) next)
    : ∀ moment ∈ (done, state) :: moments,
        P moment.1 moment.2 ∧ R moment.1 moment.2 done state := by
  generalize whole : (done, state) :: moments = trail' at trail
  induction trail generalizing done state moments with
  | start =>
      cases whole
      intro moment among
      cases List.mem_singleton.mp among
      exact ⟨first, same [] start⟩
  | @ends earlier done ids state input next id _ known fresh deps ended ih =>
      cases whole
      have each := ih rfl
      obtain ⟨fromInput, sinceInput⟩ := each (ids, input) known
      obtain ⟨fromBefore, _⟩ := each (done, state) List.mem_cons_self
      obtain ⟨holds, since⟩ := step fromInput fromBefore sinceInput fresh deps ended
      intro moment among
      rcases List.mem_cons.mp among with rfl | older
      · exact ⟨holds, same _ _⟩
      · exact ⟨(each moment older).1, onward (each moment older).2 since⟩

/-- Clusters that are compiled in turn continue a trail, by induction on their number. -/
theorem Trail.clusters
    (earlier : ∀ (id : ClusterId) ds, plan.graph.deps[id]? = some ds → ∀ d ∈ ds, d < id)
    {id : ClusterId} {state : RunState} {moments : List (List ClusterId × RunState)}
    (trail : Trail plan settings start ((List.range id, state) :: moments)) (count : Nat)
    : ∃ done moments',
        Trail plan settings start
          ((done, (Run.clusters plan settings state (List.range' id count)).2) :: moments') := by
  induction count generalizing id state moments with
  | zero => exact ⟨_, moments, trail⟩
  | succ count ih =>
      have fresh : id ∉ List.range id := fun listed => Nat.lt_irrefl id (List.mem_range.mp listed)
      have next {next : RunState} (ended : Ends plan settings state.functions state id next)
          : Trail plan settings start
              ((List.range (id + 1), next) :: (List.range id, state) :: moments) := by
        rw [List.range_succ]
        exact trail.ends List.mem_cons_self fresh
          (fun ds here d listed => List.mem_range.mpr (earlier id ds here d listed)) ended
      simp only [List.range'_succ, Run.clusters]
      split
      · next outcome =>
          rw [outcome_item_eq_settle] at outcome
          exact ih (next (.registered outcome))
      · next outcome =>
          rw [outcome_item_eq_settle] at outcome
          split
          · exact ⟨_, moments, trail⟩
          · exact ih (next (.refused outcome))

/-- Workers continue a trail. Each running cluster was admitted at a moment of it when its
dependencies had ended. By induction on their history.
-/
theorem trail_of_history {shared : Shared} {done lost : List ClusterId}
    {pool : Schedule.Pool Shared FunctionTable Output}
    (history : Schedule.History (task plan settings) plan.graph.deps shared done lost pool)
    : ∃ moments,
        Trail plan settings shared.runState ((done, pool.state.runState) :: moments)
        ∧ ∀ entry ∈ pool.running,
            ∃ ids input,
              (ids, input) ∈ (done, pool.state.runState) :: moments
              ∧ entry.input = input.functions
              ∧ ∀ ds, plan.graph.deps[entry.job]? = some ds → ∀ d ∈ ds, d ∈ ids := by
  induction history with
  | start => exact ⟨[], .start, fun _ running => absurd running List.not_mem_nil⟩
  | take before admitted ih =>
      obtain ⟨moments, trail, inputs⟩ := ih
      obtain ⟨_, _, job, ready, queue, rfl⟩ := Schedule.Pool.admit?_eq_some_iff.mp admitted
      refine ⟨moments, trail, fun entry running => ?_⟩
      rcases List.mem_append.mp running with earlier | new
      · exact inputs entry earlier
      · cases List.mem_singleton.mp new
        refine ⟨_, _, List.mem_cons_self, rfl, fun ds here d listed => ?_⟩
        exact before.accounts.mem_done
          (List.mem_append_right _ (queue ▸ List.mem_cons_self)) here listed
  | work _ here ih =>
      obtain ⟨moments, trail, inputs⟩ := ih
      refine ⟨moments, trail, fun entry running => ?_⟩
      rcases List.mem_or_eq_of_mem_set running with other | rfl
      · exact inputs entry other
      · exact inputs ⟨_, _, none⟩ (List.mem_of_getElem? here)
  | lose _ _ ih =>
      obtain ⟨moments, trail, inputs⟩ := ih
      exact ⟨moments, trail, fun entry running => inputs entry (List.mem_of_mem_eraseIdx running)⟩
  | @commit done lost pool i job input out before here ih =>
      obtain ⟨moments, trail, inputs⟩ := ih
      obtain ⟨ids, known, among, same, deps⟩ := inputs _ (List.mem_of_getElem? here)
      obtain rfl : input = known.functions := same
      have fresh := before.accounts.not_mem_done here
      have works := before.work_eq (List.mem_of_getElem? here) rfl
      have still (entry : Schedule.Running FunctionTable Output)
          (running : entry ∈ pool.running.eraseIdx i)
          (moment : List ClusterId × RunState)
          : ∃ ids input,
              (ids, input) ∈ moment :: (done, pool.state.runState) :: moments
              ∧ entry.input = input.functions
              ∧ ∀ ds, plan.graph.deps[entry.job]? = some ds → ∀ d ∈ ds, d ∈ ids := by
        obtain ⟨ids, input, among, rest⟩ := inputs entry (List.mem_of_mem_eraseIdx running)
        exact ⟨ids, input, List.mem_cons_of_mem _ among, rest⟩
      have ended : Ends plan settings known.functions pool.state.runState job
          (pool.commit (task plan settings) i job out).state.runState := by
        rcases commit_task pool.state works with
          ⟨next, journal, settled, committed⟩ | ⟨e, journal, failed, committed⟩
        · simp only [Schedule.Pool.commit, committed]
          exact .registered settled
        · simp only [Schedule.Pool.commit, committed]
          exact .refused failed
      exact ⟨_, trail.ends among fresh deps ended, fun entry running => still entry running _⟩

/-- The states of a trail are on a course, by induction on it. A cluster that is refused adds none. -/
theorem Trail.exists_course {done : List ClusterId} {state : RunState}
    {moments : List (List ClusterId × RunState)}
    (trail : Trail plan settings start ((done, state) :: moments))
    : ∃ states,
        Course plan settings start (state :: states)
        ∧ ∀ moment ∈ (done, state) :: moments, moment.2 ∈ state :: states := by
  generalize whole : (done, state) :: moments = trail' at trail
  induction trail generalizing done state moments with
  | start =>
      cases whole
      refine ⟨[], .start, fun moment among => ?_⟩
      cases List.mem_singleton.mp among
      exact List.mem_cons_self
  | @ends earlier done ids state input next id _ known _ _ ended ih =>
      cases whole
      obtain ⟨states, course, visited⟩ := ih rfl
      cases ended with
      | registered settled =>
          refine ⟨state :: states, course.settle (visited _ known) settled, fun moment among => ?_⟩
          rcases List.mem_cons.mp among with rfl | older
          · exact List.mem_cons_self
          · exact List.mem_cons_of_mem next (visited moment older)
      | refused =>
          refine ⟨states, course, fun moment among => ?_⟩
          rcases List.mem_cons.mp among with rfl | older
          · exact List.mem_cons_self
          · exact visited moment older

/-- Every point of a run is on a course. -/
theorem Point.course {current prior : FunctionTable} {store : Store} {state : RunState}
    (point : Point plan settings current prior store state)
    : ∃ states, Course plan settings ⟨store, current.union prior⟩ (state :: states) := by
  cases point with
  | sequential limit => exact Course.start.clusters _
  | parallel reachable =>
      obtain ⟨done, lost, history⟩ := reachable.history
      obtain ⟨moments, trail, _⟩ := trail_of_history history
      obtain ⟨states, course, _⟩ := trail.exists_course
      exact ⟨states, course⟩

/-- Every point of a run is at the end of a trail. -/
theorem Point.trail {current prior : FunctionTable} {store : Store} {state : RunState}
    (earlier : ∀ (id : ClusterId) ds, plan.graph.deps[id]? = some ds → ∀ d ∈ ds, d < id)
    (point : Point plan settings current prior store state)
    : ∃ done moments,
        Trail plan settings ⟨store, current.union prior⟩ ((done, state) :: moments) := by
  cases point with
  | sequential limit =>
      rw [Run.sequential, List.take_range, List.range_eq_range']
      exact Trail.clusters earlier .start _
  | parallel reachable =>
      obtain ⟨done, lost, history⟩ := reachable.history
      obtain ⟨moments, trail, _⟩ := trail_of_history history
      exact ⟨done, moments, trail⟩

end Run

end Monadize
