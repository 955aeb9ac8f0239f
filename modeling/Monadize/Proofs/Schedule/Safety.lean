import Monadize.Proofs.Schedule.History

/-! What workers may and may not do, however they interleave. A log lists what they did: which jobs
were taken, with what they were prepared from, what their work came to, and which were committed or
given up. All but the end of work happens under the lock, so that others may act between the end of a
job's work and what becomes of the job. Every log is safe: jobs start once, after the jobs that they
depend on, and none starts after a stop. Nothing limits how many jobs run at a time, so that a log
may come from any number of workers.
-/

namespace Monadize

namespace Schedule

variable {σ ι ο : Type}

-----------------------------------------------------------------------------------------
-- Logs
-----------------------------------------------------------------------------------------

/-- What a worker does. -/
inductive Action (ι ο : Type) where
  /-- The job is admitted, and prepared to work on this. -/
  | take (job : JobId) (input : ι)
  /-- The work on the job is over, and has come to this: nothing, if it broke down. The worker does
  not have the lock yet. -/
  | work (job : JobId) (result : Option ο)
  /-- The job is done: its work gave this, and the commit said whether to go on. -/
  | commit (job : JobId) (out : ο) (flow : Flow)
  /-- The job is given up because its work broke down, and the others are stopped. -/
  | lose (job : JobId)

namespace Action

def taken? : Action ι ο → Option JobId
  | .take job _ => some job
  | _ => none

def committed? : Action ι ο → Option JobId
  | .commit job _ _ => some job
  | _ => none

def lost? : Action ι ο → Option JobId
  | .lose job => some job
  | _ => none

/-- No job is to be admitted after the action. -/
def stops : Action ι ο → Bool
  | .take _ _ | .work _ _ => false
  | .commit _ _ flow => flow = .stop
  | .lose _ => true

/-- The state after the action: only commits change it. -/
def apply (task : Task σ ι ο) (state : σ) : Action ι ο → σ
  | .commit job out _ => (task.commit state job out).1
  | _ => state

end Action

/-- The jobs that were admitted, in order. -/
def taken (log : List (Action ι ο)) : List JobId := log.filterMap Action.taken?

/-- The jobs that committed, in order. -/
def committed (log : List (Action ι ο)) : List JobId := log.filterMap Action.committed?

/-- The jobs that were given up, in order. -/
def lostJobs (log : List (Action ι ο)) : List JobId := log.filterMap Action.lost?

/-- The state after all commits of a log. -/
def stateAfter (task : Task σ ι ο) (state : σ) (log : List (Action ι ο)) : σ :=
  log.foldl (Action.apply task) state

/-- The step of the pool that an action stands for. -/
inductive Acts (task : Task σ ι ο) (total : Nat) (pool : Pool σ ι ο)
    : Action ι ο → Pool σ ι ο → Prop
  | take {next job input} (admitted : pool.admit? task total = some next)
      (new : next.running = pool.running ++ [⟨job, input, none⟩])
      : Acts task total pool (.take job input) next
  | work {next i job input} (here : pool.running[i]? = some ⟨job, input, none⟩)
      (worked : pool.work? task i = some next)
      : Acts task total pool (.work job (task.work job input)) next
  | commit {next i job input out} (here : pool.running[i]? = some ⟨job, input, some (some out)⟩)
      (completed : pool.complete? task i = some next)
      : Acts task total pool (.commit job out (task.commit pool.state job out).2) next
  | lose {next i job input} (here : pool.running[i]? = some ⟨job, input, some none⟩)
      (completed : pool.complete? task i = some next)
      : Acts task total pool (.lose job) next

/-- What comes next of a running job, on this state. -/
def Running.next (task : Task σ ι ο) (state : σ) (entry : Running ι ο) : Action ι ο :=
  match entry.result with
  | none => .work entry.job (task.work entry.job entry.input)
  | some none => .lose entry.job
  | some (some out) => .commit entry.job out (task.commit state entry.job out).2

/-- The workers have come from the start to the pool by these actions. -/
inductive Log (task : Task σ ι ο) (deps : List (List JobId)) (state : σ)
    : List (Action ι ο) → Pool σ ι ο → Prop
  | start : Log task deps state [] (.start deps state)
  | act {log pool action next} (before : Log task deps state log pool)
      (acts : Acts task deps.length pool action next)
      : Log task deps state (log ++ [action]) next

/-- What holds of all that the workers did, and of the pool that they have come to. -/
structure Safe (task : Task σ ι ο) (deps : List (List JobId)) (state : σ)
    (log : List (Action ι ο)) (pool : Pool σ ι ο) : Prop where
  takenOnce : (taken log).Nodup
  committedOnce : (committed log).Nodup
  /-- A job is admitted when all entries of its list have committed, and it is prepared from the
  state that they left. -/
  admitted
    : ∀ before job input after,
        log = before ++ .take job input :: after
        → (∃ ds, deps[job]? = some ds ∧ ∀ d ∈ ds, d ∈ committed before)
          ∧ input = task.prepare (stateAfter task state before) job
  /-- What work comes to is what it does with what the job was admitted with. -/
  worked
    : ∀ before job result after,
        log = before ++ .work job result :: after
        → ∃ input, .take job input ∈ before ∧ task.work job input = result
  /-- What is committed is what the job has worked out, on the state of that moment. -/
  commits
    : ∀ before job out flow after,
        log = before ++ .commit job out flow :: after
        → (∃ input, .take job input ∈ before ∧ task.work job input = some out)
          ∧ .work job (some out) ∈ before
          ∧ flow = (task.commit (stateAfter task state before) job out).2
  current : pool.state = stateAfter task state log
  /-- A job waits for the entries of its list that have not committed. -/
  waiting
    : ∀ (job : JobId) ds,
        deps[job]? = some ds
        → pool.queue.waiting[job]? = some (ds.countP fun d => decide (d ∉ committed log))
  /-- Whichever job ends next, every counter that it lowers is positive at that moment. -/
  positive
    : ∀ entry ∈ pool.running, ∀ released d later,
        pool.queue.dependents[entry.job]? = some (released ++ d :: later)
        → ∃ n, (released.foldl Queue.release pool.queue).waiting[d]? = some (n + 1)
  /-- After a commit that says so, or after a job is given up, no job is admitted. -/
  stopped
    : ∀ before action after,
        log = before ++ action :: after → action.stops = true → taken after = []
  /-- A running job can go on at any time, also after a stop. -/
  running
    : ∀ entry ∈ pool.running,
        ∃ next, Acts task deps.length pool (entry.next task pool.state) next
  /-- When nothing is left to do, every job that was admitted has committed unless its work broke
  down. -/
  ended
    : pool.Finished task deps.length
      → ∀ job input,
          .take job input ∈ log
          → (∃ out flow, task.work job input = some out ∧ .commit job out flow ∈ log)
            ∨ (task.work job input = none ∧ .lose job ∈ log)
  /-- A job whose work broke down has not committed, and none that depends on it has started. -/
  lost
    : ∀ job,
        .work job none ∈ log
        → (∃ input, .take job input ∈ log ∧ task.work job input = none)
          ∧ job ∉ committed log
          ∧ ∀ (other : JobId) ds, deps[other]? = some ds → job ∈ ds → other ∉ taken log
  /-- A job whose work broke down is given up, which stops the others, or its worker has yet to get
  the lock. -/
  given
    : ∀ job,
        .work job none ∈ log ↔ (∃ input, ⟨job, input, some none⟩ ∈ pool.running) ∨ .lose job ∈ log

section Lists

variable (log : List (Action ι ο)) (action : Action ι ο)

theorem filterMap_concat {α : Type} (f : Action ι ο → Option α)
    : (log ++ [action]).filterMap f = log.filterMap f ++ (f action).toList := by
  rw [List.filterMap_append, List.filterMap_cons]
  cases f action <;> rfl

theorem taken_concat : taken (log ++ [action]) = taken log ++ action.taken?.toList :=
  filterMap_concat log action Action.taken?

theorem committed_concat
    : committed (log ++ [action]) = committed log ++ action.committed?.toList :=
  filterMap_concat log action Action.committed?

theorem lostJobs_concat : lostJobs (log ++ [action]) = lostJobs log ++ action.lost?.toList :=
  filterMap_concat log action Action.lost?

theorem stateAfter_concat (task : Task σ ι ο) (state : σ)
    : stateAfter task state (log ++ [action]) = action.apply task (stateAfter task state log) := by
  rw [stateAfter, List.foldl_append]
  rfl

variable {log}

theorem mem_taken {job : JobId} : job ∈ taken log ↔ ∃ input, .take job input ∈ log := by
  rw [taken, List.mem_filterMap]
  constructor
  · intro listed
    rcases listed with ⟨action, among, same⟩
    cases action <;> cases same
    exact ⟨_, among⟩
  · intro listed
    rcases listed with ⟨input, among⟩
    exact ⟨_, among, rfl⟩

theorem mem_committed {job : JobId}
    : job ∈ committed log ↔ ∃ out flow, .commit job out flow ∈ log := by
  rw [committed, List.mem_filterMap]
  constructor
  · intro listed
    rcases listed with ⟨action, among, same⟩
    cases action <;> cases same
    exact ⟨_, _, among⟩
  · intro listed
    rcases listed with ⟨out, flow, among⟩
    exact ⟨_, among, rfl⟩

theorem mem_lostJobs {job : JobId} : job ∈ lostJobs log ↔ .lose job ∈ log := by
  rw [lostJobs, List.mem_filterMap]
  constructor
  · intro listed
    rcases listed with ⟨action, among, same⟩
    cases action <;> cases same
    exact among
  · intro among
    exact ⟨_, among, rfl⟩

end Lists

-----------------------------------------------------------------------------------------
-- Single actions
-----------------------------------------------------------------------------------------

section Actions

variable {task : Task σ ι ο} {total : Nat} {pool next : Pool σ ι ο} {action : Action ι ο}

theorem Acts.take_iff {job : JobId} {input : ι}
    : Acts task total pool (.take job input) next
      ↔ pool.queue.stopped = false
        ∧ pool.queue.done ≠ total
        ∧ input = task.prepare pool.state job
        ∧ ∃ ready,
            pool.queue.ready = job :: ready
            ∧ next
              = { pool with
                  queue := { pool.queue with ready }
                  running := pool.running ++ [⟨job, input, none⟩] } := by
  constructor
  · intro acts
    cases acts with
    | take admitted new =>
        obtain ⟨going, left, first, ready, queue, rfl⟩ := Pool.admit?_eq_some_iff.mp admitted
        obtain ⟨rfl, rfl⟩ : first = job ∧ task.prepare pool.state first = input := by
          simpa using new
        exact ⟨going, left, rfl, ready, queue, rfl⟩
  · intro taken
    rcases taken with ⟨going, left, rfl, ready, queue, rfl⟩
    exact .take (Pool.admit?_eq_some_iff.mpr ⟨going, left, job, ready, queue, rfl⟩) rfl

theorem Acts.work_iff {job : JobId} {result : Option ο}
    : Acts task total pool (.work job result) next
      ↔ ∃ i input,
          pool.running[i]? = some ⟨job, input, none⟩
          ∧ result = task.work job input
          ∧ next = pool.worked i job input result := by
  constructor
  · intro acts
    cases acts with
    | @work _ i _ input here worked =>
        obtain ⟨_, _, there, rfl⟩ := Pool.work?_eq_some_iff.mp worked
        cases here.symm.trans there
        exact ⟨i, input, here, rfl, rfl⟩
  · intro past
    rcases past with ⟨i, input, here, rfl, rfl⟩
    exact .work here (Pool.work?_eq_some_iff.mpr ⟨job, input, here, rfl⟩)

theorem Acts.commit_iff {job : JobId} {out : ο} {flow : Flow}
    : Acts task total pool (.commit job out flow) next
      ↔ flow = (task.commit pool.state job out).2
        ∧ ∃ i input,
            pool.running[i]? = some ⟨job, input, some (some out)⟩
            ∧ next = pool.commit task i job out := by
  constructor
  · intro acts
    cases acts with
    | @commit _ i _ input _ here completed =>
        have same : pool.complete? task i = some (pool.commit task i job out) :=
          Pool.complete?_eq_some_iff.mpr ⟨job, input, _, here, .inr ⟨out, rfl, rfl⟩⟩
        exact ⟨rfl, i, input, here, Option.some.inj (completed.symm.trans same)⟩
  · intro done
    rcases done with ⟨rfl, i, input, here, rfl⟩
    exact .commit here (Pool.complete?_eq_some_iff.mpr ⟨job, input, _, here, .inr ⟨out, rfl, rfl⟩⟩)

theorem Acts.lose_iff {job : JobId}
    : Acts task total pool (.lose job) next
      ↔ ∃ i input, pool.running[i]? = some ⟨job, input, some none⟩ ∧ next = pool.lose i := by
  constructor
  · intro acts
    cases acts with
    | @lose _ i _ input here completed =>
        have same : pool.complete? task i = some (pool.lose i) :=
          Pool.complete?_eq_some_iff.mpr ⟨job, input, _, here, .inl ⟨rfl, rfl⟩⟩
        exact ⟨i, input, here, Option.some.inj (completed.symm.trans same)⟩
  · intro gone
    rcases gone with ⟨i, input, here, rfl⟩
    exact .lose here (Pool.complete?_eq_some_iff.mpr ⟨job, input, _, here, .inl ⟨rfl, rfl⟩⟩)

/-- Every step of the workers is an action, and the other way round. -/
theorem exists_acts_iff
    : (∃ action, Acts task total pool action next) ↔ pool.Step task total next := by
  constructor
  · intro some
    rcases some with ⟨action, acts⟩
    cases acts with
    | take admitted => exact .take admitted
    | work _ worked => exact .work _ worked
    | commit _ completed | lose _ completed => exact .complete _ completed
  · intro step
    cases step with
    | take admitted =>
        obtain ⟨_, _, job, _, _, rfl⟩ := Pool.admit?_eq_some_iff.mp admitted
        exact ⟨_, .take admitted rfl⟩
    | work i worked =>
        obtain ⟨job, input, here, _⟩ := Pool.work?_eq_some_iff.mp worked
        exact ⟨_, .work here worked⟩
    | complete i completed =>
        obtain ⟨job, input, _, here, ⟨rfl, _⟩ | ⟨out, rfl, _⟩⟩ :=
          Pool.complete?_eq_some_iff.mp completed
        · exact ⟨_, .lose here completed⟩
        · exact ⟨_, .commit here completed⟩

/-- Whatever a running job is at, its worker can act. -/
theorem exists_acts_next {entry : Running ι ο} (runs : entry ∈ pool.running)
    : ∃ next, Acts task total pool (entry.next task pool.state) next := by
  obtain ⟨i, here⟩ := List.mem_iff_getElem?.mp runs
  obtain ⟨job, input, result⟩ := entry
  rcases result with _ | _ | out
  · exact ⟨_, Acts.work_iff.mpr ⟨i, input, here, rfl, rfl⟩⟩
  · exact ⟨_, Acts.lose_iff.mpr ⟨i, input, here, rfl⟩⟩
  · exact ⟨_, Acts.commit_iff.mpr ⟨rfl, i, input, here, rfl⟩⟩

/-- One job of those running has ended: the others are still there. -/
theorem mem_running_iff {i : Nat} {entry other : Running ι ο} (here : pool.running[i]? = some entry)
    : other ∈ pool.running ↔ other = entry ∨ other ∈ pool.running.eraseIdx i := by
  obtain ⟨inside, rfl⟩ := List.getElem?_eq_some_iff.mp here
  rw [← (List.getElem_cons_eraseIdx_perm inside).mem_iff, List.mem_cons]

/-- One job of those running has changed: the others are as they were. -/
theorem mem_set_running_iff {i : Nat} {entry new other : Running ι ο}
    (here : pool.running[i]? = some entry)
    : other ∈ pool.running.set i new ↔ other = new ∨ other ∈ pool.running.eraseIdx i := by
  obtain ⟨inside, _⟩ := List.getElem?_eq_some_iff.mp here
  rw [(List.set_perm_cons_eraseIdx inside new).mem_iff, List.mem_cons]

/-- A running job is left alone, or the action is the next one of its own. Then its work is over, or
it is not running any more.
-/
theorem Acts.running (acts : Acts task total pool action next) {entry : Running ι ο}
    (runs : entry ∈ pool.running)
    : entry ∈ next.running
      ∨ (action = entry.next task pool.state
        ∧ (entry.result = none
          → { entry with result := some (task.work entry.job entry.input) } ∈ next.running)) := by
  cases action with
  | take =>
      obtain ⟨_, _, _, _, _, rfl⟩ := take_iff.mp acts
      exact .inl (List.mem_append_left _ runs)
  | work =>
      obtain ⟨i, input, here, rfl, rfl⟩ := work_iff.mp acts
      rcases (mem_running_iff here).mp runs with rfl | other
      · exact .inr ⟨rfl, fun _ => (mem_set_running_iff here).mpr (.inl rfl)⟩
      · exact .inl ((mem_set_running_iff here).mpr (.inr other))
  | commit =>
      obtain ⟨rfl, i, input, here, rfl⟩ := commit_iff.mp acts
      rcases (mem_running_iff here).mp runs with rfl | other
      · exact .inr ⟨rfl, fun going => by cases going⟩
      · exact .inl other
  | lose =>
      obtain ⟨i, input, here, rfl⟩ := lose_iff.mp acts
      rcases (mem_running_iff here).mp runs with rfl | other
      · exact .inr ⟨rfl, fun going => by cases going⟩
      · exact .inl other

/-- Only commits change the state. -/
theorem Acts.state (acts : Acts task total pool action next)
    : next.state = action.apply task pool.state := by
  cases action with
  | take => obtain ⟨_, _, _, _, _, rfl⟩ := take_iff.mp acts; rfl
  | work => obtain ⟨_, _, _, _, rfl⟩ := work_iff.mp acts; rfl
  | commit => obtain ⟨_, _, _, _, rfl⟩ := commit_iff.mp acts; rfl
  | lose => obtain ⟨_, _, _, rfl⟩ := lose_iff.mp acts; rfl

theorem Queue.length_waiting_foldl (jobs : List JobId) (q : Queue)
    : (jobs.foldl release q).waiting.length = q.waiting.length := by
  induction jobs generalizing q with
  | nil => rfl
  | cons d rest ih => rw [List.foldl_cons, ih, release, List.length_set]

/-- The queue has a counter for each job. -/
theorem Acts.length_waiting (acts : Acts task total pool action next)
    : next.queue.waiting.length = pool.queue.waiting.length := by
  cases action with
  | take => obtain ⟨_, _, _, _, _, rfl⟩ := take_iff.mp acts; rfl
  | work => obtain ⟨_, _, _, _, rfl⟩ := work_iff.mp acts; rfl
  | commit =>
      obtain ⟨_, _, _, _, rfl⟩ := commit_iff.mp acts
      exact Queue.length_waiting_foldl _ _
  | lose => obtain ⟨_, _, _, rfl⟩ := lose_iff.mp acts; rfl

theorem Queue.stopped_foldl (jobs : List JobId) (q : Queue)
    : (jobs.foldl release q).stopped = q.stopped := by
  induction jobs generalizing q with
  | nil => rfl
  | cons d rest ih => rw [List.foldl_cons, ih, release]

/-- A queue stops at an action that stops it, and never goes on again. -/
theorem Acts.stopped (acts : Acts task total pool action next)
    : next.queue.stopped = (pool.queue.stopped || action.stops) := by
  cases action with
  | take => obtain ⟨_, _, _, _, _, rfl⟩ := take_iff.mp acts; exact (Bool.or_false _).symm
  | work => obtain ⟨_, _, _, _, rfl⟩ := work_iff.mp acts; exact (Bool.or_false _).symm
  | commit =>
      obtain ⟨rfl, _, _, _, rfl⟩ := commit_iff.mp acts
      exact Queue.stopped_foldl _ _
  | lose => obtain ⟨_, _, _, rfl⟩ := lose_iff.mp acts; exact (Bool.or_true _).symm

end Actions

-----------------------------------------------------------------------------------------
-- Whole logs
-----------------------------------------------------------------------------------------

variable {task : Task σ ι ο} {deps : List (List JobId)} {state : σ} {log : List (Action ι ο)}
  {pool : Pool σ ι ο}

/-- The pools that have a log are those that the workers can come to. -/
theorem exists_log_iff
    : (∃ log, Log task deps state log pool) ↔ pool.Reachable task deps state := by
  constructor
  · intro some
    rcases some with ⟨log, logs⟩
    induction logs with
    | start => exact .refl
    | act _ acts ih => exact ih.tail (exists_acts_iff.mp ⟨_, acts⟩)
  · intro reachable
    induction reachable with
    | refl => exact ⟨[], .start⟩
    | tail _ step ih =>
        obtain ⟨log, logs⟩ := ih
        obtain ⟨action, acts⟩ := exists_acts_iff.mpr step
        exact ⟨_, logs.act acts⟩

namespace Log

/-- A log is a history of the jobs that committed and were lost, by induction on it. -/
theorem history (logs : Log task deps state log pool)
    : History task deps state (committed log) (lostJobs log) pool := by
  induction logs with
  | start => exact .start
  | @act log pool action next _ acts ih =>
      rw [committed_concat, lostJobs_concat]
      cases action with
      | take =>
          obtain ⟨admitted⟩ := acts
          simpa [Action.committed?, Action.lost?] using ih.take admitted
      | work =>
          obtain ⟨_, _, here, rfl, rfl⟩ := Acts.work_iff.mp acts
          simpa [Action.committed?, Action.lost?] using ih.work here
      | commit =>
          obtain ⟨_, _, _, here, rfl⟩ := Acts.commit_iff.mp acts
          simpa [Action.committed?, Action.lost?] using ih.commit here
      | lose =>
          obtain ⟨_, _, here, rfl⟩ := Acts.lose_iff.mp acts
          simpa [Action.committed?, Action.lost?] using ih.lose here

theorem state_eq (logs : Log task deps state log pool)
    : pool.state = stateAfter task state log := by
  induction logs with
  | start => rfl
  | act _ acts ih => rw [stateAfter_concat, acts.state, ih]

theorem length_waiting (logs : Log task deps state log pool)
    : pool.queue.waiting.length = deps.length := by
  induction logs with
  | start => simp [Pool.start, Queue.init]
  | act _ acts ih => rw [acts.length_waiting, ih]

/-- A queue is stopped when an action of the log has stopped it. -/
theorem stopped_of_mem (logs : Log task deps state log pool) {action : Action ι ο}
    (among : action ∈ log) (stops : action.stops = true)
    : pool.queue.stopped = true := by
  induction logs with
  | start => cases among
  | act _ acts ih =>
      rw [acts.stopped]
      rcases List.mem_append.mp among with earlier | last
      · rw [ih earlier, Bool.true_or]
      · rw [← List.mem_singleton.mp last, stops, Bool.or_true]

/-- What is running was admitted with what it works on, and if its work is over, the log says what it
has come to.
-/
theorem of_running (logs : Log task deps state log pool) {entry : Running ι ο}
    (runs : entry ∈ pool.running)
    : .take entry.job entry.input ∈ log
      ∧ ∀ result, entry.result = some result → .work entry.job result ∈ log := by
  induction logs generalizing entry with
  | start => cases runs
  | @act log pool action next _ acts ih =>
      have earlier (before : entry ∈ pool.running)
          : .take entry.job entry.input ∈ log ++ [action]
            ∧ ∀ result, entry.result = some result → .work entry.job result ∈ log ++ [action] :=
        ⟨List.mem_append_left _ (ih before).1,
          fun result past => List.mem_append_left _ ((ih before).2 result past)⟩
      cases action with
      | take =>
          obtain ⟨_, _, _, _, _, rfl⟩ := Acts.take_iff.mp acts
          rcases List.mem_append.mp runs with before | last
          · exact earlier before
          · cases List.mem_singleton.mp last
            exact ⟨List.mem_append_right _ List.mem_cons_self, fun result past => by cases past⟩
      | work =>
          obtain ⟨i, input, here, rfl, rfl⟩ := Acts.work_iff.mp acts
          rcases List.mem_or_eq_of_mem_set runs with before | rfl
          · exact earlier before
          · refine ⟨List.mem_append_left _ (ih (List.mem_of_getElem? here)).1, ?_⟩
            intro result past
            cases past
            exact List.mem_append_right _ List.mem_cons_self
      | commit =>
          obtain ⟨_, _, _, _, rfl⟩ := Acts.commit_iff.mp acts
          exact earlier (List.mem_of_mem_eraseIdx runs)
      | lose =>
          obtain ⟨_, _, _, rfl⟩ := Acts.lose_iff.mp acts
          exact earlier (List.mem_of_mem_eraseIdx runs)

/-- What was admitted is running, has committed what it worked out, or was given up. By induction: the
job that an action ends is taken off those running, and the action is its end.
-/
theorem outcome (logs : Log task deps state log pool) {job : JobId} {input : ι}
    (among : .take job input ∈ log)
    : (∃ result, ⟨job, input, result⟩ ∈ pool.running)
      ∨ (∃ out flow, task.work job input = some out ∧ .commit job out flow ∈ log)
      ∨ (task.work job input = none ∧ .lose job ∈ log) := by
  induction logs with
  | start => cases among
  | @act log pool action next before acts ih =>
      rcases List.mem_append.mp among with earlier | last
      · rcases ih earlier with ⟨result, runs⟩ | ⟨out, flow, works, done⟩ | ⟨breaks, gone⟩
        · rcases acts.running runs with still | ⟨rfl, past⟩
          · exact .inl ⟨result, still⟩
          · have own : (⟨job, input, result⟩ : Running ι ο).next task pool.state
                ∈ log ++ [(⟨job, input, result⟩ : Running ι ο).next task pool.state] :=
              List.mem_append_right _ List.mem_cons_self
            rcases result with _ | _ | out
            · exact .inl ⟨_, past rfl⟩
            · exact .inr (.inr ⟨before.history.work_eq runs rfl, own⟩)
            · exact .inr (.inl ⟨out, _, before.history.work_eq runs rfl, own⟩)
        · exact .inr (.inl ⟨out, flow, works, List.mem_append_left _ done⟩)
        · exact .inr (.inr ⟨breaks, List.mem_append_left _ gone⟩)
      · cases List.mem_singleton.mp last
        obtain ⟨_, _, _, _, _, rfl⟩ := Acts.take_iff.mp acts
        exact .inl ⟨none, List.mem_append_right _ List.mem_cons_self⟩

/-- A job whose work broke down is running until it is given up, by induction on the log. -/
theorem running_or_lost (logs : Log task deps state log pool) {job : JobId}
    (broke : .work job none ∈ log)
    : (∃ input, ⟨job, input, some none⟩ ∈ pool.running) ∨ .lose job ∈ log := by
  induction logs with
  | start => cases broke
  | @act log pool action next before acts ih =>
      rcases List.mem_append.mp broke with earlier | last
      · rcases ih earlier with ⟨input, runs⟩ | gone
        · rcases acts.running runs with still | ⟨rfl, _⟩
          · exact .inl ⟨input, still⟩
          · exact .inr (List.mem_append_right _ List.mem_cons_self)
        · exact .inr (List.mem_append_left _ gone)
      · cases List.mem_singleton.mp last
        obtain ⟨i, input, here, breaks, rfl⟩ := Acts.work_iff.mp acts
        exact .inl ⟨input, (mem_set_running_iff here).mpr (.inl rfl)⟩

/-- Jobs that were admitted are not ready any more, and are seen. -/
theorem mem_seen_of_taken (logs : Log task deps state log pool) {job : JobId}
    (started : job ∈ taken log)
    : job ∈ committed log ++ lostJobs log ++ pool.running.map Running.job := by
  obtain ⟨input, among⟩ := mem_taken.mp started
  simp only [List.mem_append, List.mem_map, mem_committed, mem_lostJobs]
  rcases logs.outcome among with ⟨_, runs⟩ | ⟨out, flow, _, done⟩ | ⟨_, gone⟩
  · exact .inr ⟨_, runs, rfl⟩
  · exact .inl (.inl ⟨out, flow, done⟩)
  · exact .inl (.inr gone)

/-- Jobs are admitted once: one that is ready has not been admitted. -/
theorem nodup_taken (logs : Log task deps state log pool) : (taken log).Nodup := by
  induction logs with
  | start => exact .nil
  | @act log pool action next before acts ih =>
      rw [taken_concat]
      cases action with
      | take job input =>
          obtain ⟨_, _, _, ready, queue, _⟩ := Acts.take_iff.mp acts
          refine ih.append (List.nodup_singleton job) fun other started same => ?_
          obtain rfl := List.mem_singleton.mp same
          have apart := List.disjoint_of_nodup_append before.history.accounts.once
          exact apart (before.mem_seen_of_taken started) (queue ▸ List.mem_cons_self)
      | work | commit | lose => simpa [Action.taken?] using ih

/-- The workers went through a pool at each moment of a log. -/
theorem split {before after : List (Action ι ο)} {action : Action ι ο}
    (logs : Log task deps state (before ++ action :: after) pool)
    : ∃ earlier next,
        Log task deps state before earlier ∧ Acts task deps.length earlier action next := by
  generalize whole : before ++ action :: after = log at logs
  induction logs generalizing after with
  | start => simp at whole
  | @act log pool last next earlier acts ih =>
      rcases List.eq_nil_or_concat after with rfl | ⟨shorter, final, rfl⟩
      · obtain ⟨rfl, same⟩ := List.append_inj' whole rfl
        cases same
        exact ⟨pool, next, earlier, acts⟩
      · have same : (before ++ action :: shorter) ++ [final] = log ++ [last] := by
          simpa using whole
        exact ih (List.append_inj' same rfl).1

theorem getElem?_waiting (logs : Log task deps state log pool) {job : JobId} {ds : List JobId}
    (here : deps[job]? = some ds)
    : pool.queue.waiting[job]? = some (ds.countP fun d => decide (d ∉ committed log)) := by
  have inside : job < pool.queue.waiting.length := by
    rw [logs.length_waiting]
    exact (List.getElem?_eq_some_iff.mp here).1
  have left := logs.history.accounts.left job
  rw [Queue.left, here, List.getElem?_eq_getElem inside] at left
  rw [List.getElem?_eq_getElem inside]
  exact congrArg some left

/-- No counter is lowered below zero: it counts the entries of the running job that are to be
released, those not yet released among them.
-/
theorem exists_waiting (logs : Log task deps state log pool) {entry : Running ι ο}
    (runs : entry ∈ pool.running) {released later : List JobId} {d : JobId}
    (listed : pool.queue.dependents[entry.job]? = some (released ++ d :: later))
    : ∃ n, (released.foldl Queue.release pool.queue).waiting[d]? = some (n + 1) := by
  have accounts := logs.history.accounts
  obtain ⟨i, here⟩ := List.mem_iff_getElem?.mp runs
  have enough := accounts.count_dependentsOf_le here
  rw [accounts.dependents, Queue.getElem?_dependents_init deps (accounts.lt_of_running here)]
    at listed
  rw [Option.some.inj listed] at enough
  have left := (Queue.releases_foldl fun job => by
    have all := enough job
    rw [List.count_append] at all
    exact Nat.le_trans (Nat.le_add_right _ _) all).left d
  have some : 0 < (released.foldl Queue.release pool.queue).left d := by
    have all := enough d
    rw [List.count_append, List.count_cons_self] at all
    omega
  cases here : (released.foldl Queue.release pool.queue).waiting[d]? with
  | none => simp [Queue.left, here] at some
  | some count =>
      rw [Queue.left, here] at some
      exact ⟨count - 1, congrArg Option.some (Nat.sub_add_cancel some).symm⟩

/-- Jobs that were admitted depend on jobs that have committed. -/
theorem mem_committed_of_taken (logs : Log task deps state log pool) {job : JobId}
    (started : job ∈ taken log) {ds : List JobId} (here : deps[job]? = some ds) {d : JobId}
    (listed : d ∈ ds)
    : d ∈ committed log :=
  logs.history.accounts.mem_done (List.mem_append_left _ (logs.mem_seen_of_taken started)) here
    listed

theorem admitted (logs : Log task deps state log pool) {before after : List (Action ι ο)}
    {job : JobId} {input : ι} (whole : log = before ++ .take job input :: after)
    : (∃ ds, deps[job]? = some ds ∧ ∀ d ∈ ds, d ∈ committed before)
      ∧ input = task.prepare (stateAfter task state before) job := by
  subst whole
  obtain ⟨earlier, next, upTo, acts⟩ := logs.split
  obtain ⟨_, _, prepared, ready, queue, _⟩ := Acts.take_iff.mp acts
  have accounts := upTo.history.accounts
  have seen : job ∈ seen (committed before) (lostJobs before) earlier :=
    List.mem_append_right _ (queue ▸ List.mem_cons_self)
  have inside := ((accounts.mem_seen job).mp seen).1
  have here := List.getElem?_eq_getElem inside
  exact ⟨⟨_, here, fun d listed => accounts.mem_done seen here listed⟩, upTo.state_eq ▸ prepared⟩

theorem worked (logs : Log task deps state log pool) {before after : List (Action ι ο)}
    {job : JobId} {result : Option ο} (whole : log = before ++ .work job result :: after)
    : ∃ input, .take job input ∈ before ∧ task.work job input = result := by
  subst whole
  obtain ⟨earlier, next, upTo, acts⟩ := logs.split
  obtain ⟨i, input, here, same, _⟩ := Acts.work_iff.mp acts
  exact ⟨input, (upTo.of_running (List.mem_of_getElem? here)).1, same.symm⟩

theorem commits (logs : Log task deps state log pool) {before after : List (Action ι ο)}
    {job : JobId} {out : ο} {flow : Flow} (whole : log = before ++ .commit job out flow :: after)
    : (∃ input, .take job input ∈ before ∧ task.work job input = some out)
      ∧ .work job (some out) ∈ before
      ∧ flow = (task.commit (stateAfter task state before) job out).2 := by
  subst whole
  obtain ⟨earlier, next, upTo, acts⟩ := logs.split
  obtain ⟨same, i, input, here, _⟩ := Acts.commit_iff.mp acts
  obtain ⟨started, past⟩ := upTo.of_running (List.mem_of_getElem? here)
  exact ⟨⟨input, started, upTo.history.work_eq (List.mem_of_getElem? here) rfl⟩, past _ rfl,
    upTo.state_eq ▸ same⟩

/-- After a stop no job is admitted: the queue was stopped at each later moment. -/
theorem taken_eq_nil (logs : Log task deps state log pool) {before after : List (Action ι ο)}
    {action : Action ι ο} (whole : log = before ++ action :: after) (stops : action.stops = true)
    : taken after = [] := by
  subst whole
  refine List.eq_nil_iff_forall_not_mem.mpr fun job started => ?_
  obtain ⟨input, among⟩ := mem_taken.mp started
  obtain ⟨between, rest, rfl⟩ := List.append_of_mem among
  rw [← List.cons_append, ← List.append_assoc] at logs
  obtain ⟨earlier, next, upTo, acts⟩ := logs.split
  have stopped := upTo.stopped_of_mem (List.mem_append_right _ List.mem_cons_self) stops
  obtain ⟨going, _⟩ := Acts.take_iff.mp acts
  cases going.symm.trans stopped

theorem lost (logs : Log task deps state log pool) {job : JobId} (broke : .work job none ∈ log)
    : (∃ input, .take job input ∈ log ∧ task.work job input = none)
      ∧ job ∉ committed log
      ∧ ∀ (other : JobId) ds, deps[other]? = some ds → job ∈ ds → other ∉ taken log := by
  -- it is running still, or was given up, and neither is a job that has committed
  have outside : job ∉ committed log := by
    have once := logs.history.accounts.once
    simp only [seen, List.append_assoc] at once
    intro done
    refine List.disjoint_of_nodup_append once done ?_
    rcases logs.running_or_lost broke with ⟨input, runs⟩ | gone
    · exact List.mem_append_right _ (List.mem_append_left _ (List.mem_map.mpr ⟨_, runs, rfl⟩))
    · exact List.mem_append_left _ (mem_lostJobs.mpr gone)
  refine ⟨?_, outside, fun other ds here listed started =>
    outside (logs.mem_committed_of_taken started here listed)⟩
  obtain ⟨before, after, rfl⟩ := List.append_of_mem broke
  obtain ⟨input, started, breaks⟩ := logs.worked rfl
  exact ⟨input, List.mem_append_left _ started, breaks⟩

/-- Only a job whose work broke down is given up. -/
theorem work_of_lose (logs : Log task deps state log pool) {job : JobId} (gone : .lose job ∈ log)
    : .work job none ∈ log := by
  obtain ⟨before, after, rfl⟩ := List.append_of_mem gone
  obtain ⟨earlier, next, upTo, acts⟩ := logs.split
  obtain ⟨i, input, here, _⟩ := Acts.lose_iff.mp acts
  exact List.mem_append_left _ ((upTo.of_running (List.mem_of_getElem? here)).2 _ rfl)

/-- Every log is safe. -/
theorem safe (logs : Log task deps state log pool) : Safe task deps state log pool where
  takenOnce := logs.nodup_taken
  committedOnce := logs.history.accounts.nodup_done
  admitted _ _ _ _ whole := logs.admitted whole
  worked _ _ _ _ whole := logs.worked whole
  commits _ _ _ _ _ whole := logs.commits whole
  current := logs.state_eq
  waiting _ _ here := logs.getElem?_waiting here
  positive _ runs _ _ _ listed := logs.exists_waiting runs listed
  stopped _ _ _ whole stops := logs.taken_eq_nil whole stops
  running _ runs := exists_acts_next runs
  ended := by
    intro finished job input among
    rcases logs.outcome among with ⟨result, runs⟩ | ended
    · rw [finished.running] at runs
      cases runs
    · exact ended
  lost _ broke := logs.lost broke
  given job := by
    refine ⟨logs.running_or_lost, ?_⟩
    intro held
    rcases held with ⟨input, runs⟩ | gone
    · exact (logs.of_running runs).2 none rfl
    · exact logs.work_of_lose gone

end Log

end Schedule

end Monadize
