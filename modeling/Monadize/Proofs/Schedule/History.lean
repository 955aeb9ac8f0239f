import Mathlib.Data.List.Perm.Basic
import Mathlib.Logic.Relation
import Monadize.Proofs.Schedule.Queue

/-! Every order in which workers may take, work on and finish jobs. A history records the jobs that
have committed and those whose work broke down; with it the queue is accounted for job by job. From
that follows when jobs start, that no history goes on forever, and what is left once nothing can
happen any more.
-/

namespace Monadize

namespace Schedule

variable {σ ι ο : Type}

namespace Pool

/-- The pool before any job has started. -/
def start (deps : List (List JobId)) (state : σ) : Pool σ ι ο := ⟨state, .init deps, [], false⟩

/-- Some worker takes a job, the work on some job ends, or some job does. -/
inductive Step (task : Task σ ι ο) (total : Nat) (pool next : Pool σ ι ο) : Prop
  | take (admitted : pool.admit? task total = some next)
  | work (i : Nat) (worked : pool.work? task i = some next)
  | complete (i : Nat) (completed : pool.complete? task i = some next)

/-- The pool comes about from the start by some steps, whichever jobs the workers attend to. -/
def Reachable (task : Task σ ι ο) (deps : List (List JobId)) (state : σ) (pool : Pool σ ι ο) : Prop :=
  Relation.ReflTransGen (Step task deps.length) (start deps state) pool

/-- No job is running, and none can be taken. -/
structure Finished (task : Task σ ι ο) (total : Nat) (pool : Pool σ ι ο) : Prop where
  running : pool.running = []
  idle : pool.admit? task total = none

-----------------------------------------------------------------------------------------
-- Single steps
-----------------------------------------------------------------------------------------

theorem admit?_eq_some_iff {task : Task σ ι ο} {total : Nat} {pool next : Pool σ ι ο}
    : pool.admit? task total = some next
      ↔ pool.queue.stopped = false
        ∧ pool.queue.done ≠ total
        ∧ ∃ job ready,
            pool.queue.ready = job :: ready
            ∧ next
              = { pool with
                  queue := { pool.queue with ready }
                  running := pool.running ++ [⟨job, task.prepare pool.state job, none⟩] } := by
  unfold admit?
  split
  · next idle =>
      refine iff_of_false nofun ?_
      rintro ⟨going, some, _⟩
      simp [going, some] at idle
  · next going =>
      simp only [Bool.or_eq_true, decide_eq_true_eq, not_or, Bool.not_eq_true] at going
      split
      · next empty => simp [empty]
      · next job ready queue => simp [going, queue, eq_comm]

/-- Nothing can be taken after a stop, when all is done or when no job is ready. -/
theorem admit?_eq_none_iff {task : Task σ ι ο} {total : Nat} {pool : Pool σ ι ο}
    : pool.admit? task total = none
      ↔ pool.queue.stopped = true ∨ pool.queue.done = total ∨ pool.queue.ready = [] := by
  unfold admit?
  split
  · next idle =>
      simp only [Bool.or_eq_true, decide_eq_true_eq] at idle
      refine iff_of_true rfl (idle.imp_right Or.inl)
  · next going =>
      simp only [Bool.or_eq_true, decide_eq_true_eq, not_or, Bool.not_eq_true] at going
      split
      · next empty => simp [empty]
      · next job ready queue => simp [going, queue]

/-- The pool after the work on the `i`th running job has come to this. -/
def worked (pool : Pool σ ι ο) (i : Nat) (job : JobId) (input : ι) (result : Option ο)
    : Pool σ ι ο :=
  { pool with running := pool.running.set i ⟨job, input, some result⟩ }

/-- The pool after the `i`th running job has committed. -/
def commit (task : Task σ ι ο) (pool : Pool σ ι ο) (i : Nat) (job : JobId) (out : ο)
    : Pool σ ι ο :=
  let (state, flow) := task.commit pool.state job out
  { pool with
    state
    queue := Queue.finish { pool.queue with stopped := pool.queue.stopped || flow = Flow.stop } job
    running := pool.running.eraseIdx i }

/-- The pool after the `i`th running job has been given up, since its work broke down. -/
def lose (pool : Pool σ ι ο) (i : Nat) : Pool σ ι ο :=
  { pool with
    queue := { pool.queue with stopped := true }
    running := pool.running.eraseIdx i
    broken := true }

theorem work?_eq_some_iff {task : Task σ ι ο} {pool next : Pool σ ι ο} {i : Nat}
    : pool.work? task i = some next
      ↔ ∃ job input,
          pool.running[i]? = some ⟨job, input, none⟩
          ∧ next = pool.worked i job input (task.work job input) := by
  unfold work?
  split
  · next job input here => simp [here, worked, eq_comm]
  · next other =>
      refine iff_of_false nofun ?_
      intro ⟨job, input, here, _⟩
      exact other job input here

theorem complete?_eq_some_iff {task : Task σ ι ο} {pool next : Pool σ ι ο} {i : Nat}
    : pool.complete? task i = some next
      ↔ ∃ job input result,
          pool.running[i]? = some ⟨job, input, some result⟩
          ∧ ((result = none ∧ next = pool.lose i)
            ∨ ∃ out, result = some out ∧ next = pool.commit task i job out) := by
  unfold complete?
  split
  · next job input here => simp [here, lose, eq_comm]
  · next job input out here => simp [here, commit, eq_comm]
  · next broke done =>
      refine iff_of_false nofun ?_
      intro ⟨job, input, result, here, _⟩
      cases result with
      | none => exact broke job input here
      | some out => exact done job input out here

theorem jobs_worked {pool : Pool σ ι ο} {i : Nat} {job : JobId} {input : ι}
    (here : pool.running[i]? = some ⟨job, input, none⟩) (result : Option ο)
    : (pool.worked i job input result).running.map Running.job
      = pool.running.map Running.job := by
  apply List.ext_getElem?
  intro j
  rw [List.getElem?_map, List.getElem?_map, worked]
  by_cases same : i = j
  · subst same
    rw [List.getElem?_set_self (List.getElem?_eq_some_iff.mp here).1, here]
    rfl
  · rw [List.getElem?_set_ne same]

/-- Every running job can go on: either its work ends, or it does. -/
theorem work?_or_complete?_eq_none_iff {task : Task σ ι ο} {pool : Pool σ ι ο} {i : Nat}
    : (pool.work? task i).or (pool.complete? task i) = none ↔ pool.running[i]? = none := by
  unfold work? complete?
  cases here : pool.running[i]? with
  | none => simp
  | some entry =>
      obtain ⟨job, input, result⟩ := entry
      rcases result with _ | _ | out <;> simp

end Pool

-----------------------------------------------------------------------------------------
-- Histories
-----------------------------------------------------------------------------------------

/-- The pool comes about from the start, by commits of the jobs `done` in this order and the loss of
the jobs `lost`.
-/
inductive History (task : Task σ ι ο) (deps : List (List JobId)) (state : σ)
    : (done lost : List JobId) → Pool σ ι ο → Prop
  | start : History task deps state [] [] (.start deps state)
  | take {done lost pool next} (before : History task deps state done lost pool)
      (admitted : pool.admit? task deps.length = some next)
      : History task deps state done lost next
  | work {done lost pool i job input} (before : History task deps state done lost pool)
      (here : pool.running[i]? = some ⟨job, input, none⟩)
      : History task deps state done lost (pool.worked i job input (task.work job input))
  | commit {done lost pool i job input out} (before : History task deps state done lost pool)
      (here : pool.running[i]? = some ⟨job, input, some (some out)⟩)
      : History task deps state (done ++ [job]) lost (pool.commit task i job out)
  | lose {done lost pool i job input} (before : History task deps state done lost pool)
      (here : pool.running[i]? = some ⟨job, input, some none⟩)
      : History task deps state done (lost ++ [job]) (pool.lose i)

variable {task : Task σ ι ο} {deps : List (List JobId)} {state : σ}

/-- A step extends a history. -/
theorem History.step {done lost : List JobId} {pool next : Pool σ ι ο}
    (history : History task deps state done lost pool) (step : pool.Step task deps.length next)
    : ∃ done lost, History task deps state done lost next := by
  cases step with
  | take admitted => exact ⟨done, lost, history.take admitted⟩
  | work i worked =>
      obtain ⟨job, input, here, rfl⟩ := Pool.work?_eq_some_iff.mp worked
      exact ⟨done, lost, history.work here⟩
  | complete i completed =>
      obtain ⟨job, input, _, here, ⟨rfl, rfl⟩ | ⟨out, rfl, rfl⟩⟩ :=
        Pool.complete?_eq_some_iff.mp completed
      · exact ⟨done, _, history.lose here⟩
      · exact ⟨_, lost, history.commit here⟩

/-- What is reachable has a history, by induction on the steps. -/
theorem Pool.Reachable.history {pool : Pool σ ι ο} (reachable : Reachable task deps state pool)
    : ∃ done lost, History task deps state done lost pool := by
  induction reachable with
  | refl => exact ⟨[], [], .start⟩
  | tail _ step ih =>
      obtain ⟨done, lost, history⟩ := ih
      exact history.step step

/-- The results of running jobs are what their work came to, by induction on the history. -/
theorem History.work_eq {done lost : List JobId} {pool : Pool σ ι ο}
    (history : History task deps state done lost pool) {entry : Running ι ο}
    (runs : entry ∈ pool.running) {result : Option ο} (past : entry.result = some result)
    : task.work entry.job entry.input = result := by
  induction history with
  | start => cases runs
  | take _ admitted ih =>
      obtain ⟨_, _, job, ready, _, rfl⟩ := Pool.admit?_eq_some_iff.mp admitted
      rcases List.mem_append.mp runs with earlier | new
      · exact ih earlier
      · cases List.mem_singleton.mp new
        cases past
  | work _ _ ih =>
      rcases List.mem_or_eq_of_mem_set runs with other | rfl
      · exact ih other
      · exact Option.some.inj past
  | commit _ _ ih => exact ih (List.mem_of_mem_eraseIdx runs)
  | lose _ _ ih => exact ih (List.mem_of_mem_eraseIdx runs)

-----------------------------------------------------------------------------------------
-- Accounting for all jobs
-----------------------------------------------------------------------------------------

/-- The jobs that have been ready at some time. -/
def seen (done lost : List JobId) (pool : Pool σ ι ο) : List JobId :=
  done ++ lost ++ pool.running.map Running.job ++ pool.queue.ready

/-- Each job waits for the entries of its list that are not done. Those that wait for none have been
ready once, and no others.
-/
structure Accounts (deps : List (List JobId)) (done lost : List JobId) (pool : Pool σ ι ο)
    : Prop where
  once : (seen done lost pool).Nodup
  mem_seen : ∀ job, job ∈ seen done lost pool ↔ job < deps.length ∧ pool.queue.left job = 0
  left
    : ∀ job, pool.queue.left job = (deps[job]?.getD []).countP fun d => decide (d ∉ done)
  dependents : pool.queue.dependents = (Queue.init deps).dependents
  done : pool.queue.done = done.length
  broken : pool.broken = true ↔ lost ≠ []
  stopped : pool.broken = true → pool.queue.stopped = true

theorem accounts_start (deps : List (List JobId)) (state : σ)
    : Accounts deps [] [] (Pool.start deps state : Pool σ ι ο) := by
  refine ⟨Queue.nodup_ready_init deps, ?_, ?_, rfl, rfl, by simp [Pool.start], nofun⟩
  · intro job
    show job ∈ (Queue.init deps).ready ↔ job < deps.length ∧ (Queue.init deps).left job = 0
    rw [Queue.mem_ready_init, Queue.left_init]
    cases here : deps[job]? with
    | none =>
        have outside := List.getElem?_eq_none_iff.mp here
        simp [Nat.not_lt.mpr outside]
    | some ds =>
        have inside := (List.getElem?_eq_some_iff.mp here).1
        simp [inside]
  · intro job
    show (Queue.init deps).left job = _
    simp [Queue.left_init]

/-- One more job that is done takes its own entries off a list. -/
theorem countP_not_mem_append (ds : List JobId) {done : List JobId} {job : JobId} (new : job ∉ done)
    : ds.countP (fun d => decide (d ∉ done))
      = ds.countP (fun d => decide (d ∉ done ++ [job])) + ds.count job := by
  induction ds with
  | nil => rfl
  | cons d rest ih =>
      by_cases same : d = job
      · subst same
        simp only [List.countP_cons, List.count_cons_self, ih, new, List.mem_append,
          List.mem_singleton, or_true, not_true_eq_false, not_false_eq_true, decide_true,
          decide_false, if_true, Bool.false_eq_true, if_false]
        omega
      · simp only [List.countP_cons, List.count_cons_of_ne same, ih, List.mem_append,
          List.mem_singleton, same, or_false]
        omega

namespace Accounts

variable {done lost : List JobId} {pool : Pool σ ι ο} (accounts : Accounts deps done lost pool)

include accounts

/-- A job that has been ready depends on jobs that are done. -/
theorem mem_done {job d : JobId} (some : job ∈ seen done lost pool) {ds : List JobId}
    (here : deps[job]? = Option.some ds) (listed : d ∈ ds)
    : d ∈ done := by
  have none := ((accounts.mem_seen job).mp some).2
  rw [accounts.left, here, Option.getD_some, List.countP_eq_zero] at none
  simpa using none d listed

theorem nodup_done : done.Nodup := by
  have parts := accounts.once
  simp only [seen, List.append_assoc] at parts
  exact parts.of_append_left

theorem lt_of_mem_done {job : JobId} (ended : job ∈ done) : job < deps.length := by
  refine ((accounts.mem_seen job).mp ?_).1
  simp [seen, ended]

theorem take {total : Nat} {next : Pool σ ι ο} (admitted : pool.admit? task total = some next)
    : Accounts deps done lost next := by
  obtain ⟨_, _, job, ready, queue, rfl⟩ := Pool.admit?_eq_some_iff.mp admitted
  have same : seen done lost
        { pool with
          queue := { pool.queue with ready }
          running := pool.running ++ [⟨job, task.prepare pool.state job, none⟩] }
      = seen done lost pool := by
    simp [seen, queue]
  refine ⟨same ▸ accounts.once, ?_, accounts.left, accounts.dependents, accounts.done,
    accounts.broken, accounts.stopped⟩
  intro other
  rw [same]
  exact accounts.mem_seen other

omit accounts in
/-- A running job is one of those seen; without it the others are left. -/
theorem seen_perm {i : Nat} {job : JobId} {input : ι}
    {result : Option (Option ο)} (here : pool.running[i]? = some ⟨job, input, result⟩)
    : (seen done lost pool).Perm
        (job :: (done ++ lost ++ (pool.running.eraseIdx i).map Running.job ++ pool.queue.ready)) := by
  obtain ⟨inside, same⟩ := List.getElem?_eq_some_iff.mp here
  have taken := (List.getElem_cons_eraseIdx_perm inside).map Running.job
  rw [same, List.map_cons] at taken
  have middle := (taken.symm.append_left (done ++ lost)).append_right pool.queue.ready
  refine middle.trans ?_
  rw [List.append_assoc, List.cons_append]
  refine List.perm_middle.trans (List.Perm.of_eq ?_)
  simp only [List.append_assoc]

omit accounts in
theorem mem_seen_of_running {i : Nat} {job : JobId} {input : ι}
    {result : Option (Option ο)} (here : pool.running[i]? = some ⟨job, input, result⟩)
    : job ∈ seen done lost pool :=
  (seen_perm here).mem_iff.mpr List.mem_cons_self

/-- The end of its work leaves a job running. -/
theorem work {i : Nat} {job : JobId} {input : ι}
    (here : pool.running[i]? = some ⟨job, input, none⟩) (result : Option ο)
    : Accounts deps done lost (pool.worked i job input result) := by
  have same : seen done lost (pool.worked i job input result) = seen done lost pool := by
    rw [seen, seen, Pool.jobs_worked here]
    rfl
  refine ⟨same ▸ accounts.once, ?_, accounts.left, accounts.dependents, accounts.done,
    accounts.broken, accounts.stopped⟩
  intro other
  rw [same]
  exact accounts.mem_seen other

theorem lose {i : Nat} {job : JobId} {input : ι}
    {result : Option (Option ο)} (here : pool.running[i]? = some ⟨job, input, result⟩)
    : Accounts deps done (lost ++ [job]) (pool.lose i) := by
  have same : (seen done (lost ++ [job]) (pool.lose i)).Perm (seen done lost pool) := by
    refine List.Perm.trans ?_ (seen_perm here).symm
    have own : (pool.lose i).running = pool.running.eraseIdx i := rfl
    have queue : (pool.lose i).queue.ready = pool.queue.ready := rfl
    have middle : (done ++ lost ++ job :: ((pool.running.eraseIdx i).map Running.job
          ++ pool.queue.ready)).Perm _ :=
      List.perm_middle
    simpa [seen, own, queue] using middle
  refine ⟨same.nodup_iff.mpr accounts.once, ?_, accounts.left, accounts.dependents, accounts.done,
    by simp [Pool.lose], fun _ => rfl⟩
  intro other
  rw [same.mem_iff]
  exact accounts.mem_seen other

/-- A running job is not done. -/
theorem not_mem_done {i : Nat} {job : JobId} {input : ι}
    {result : Option (Option ο)} (here : pool.running[i]? = some ⟨job, input, result⟩)
    : job ∉ done := by
  have outside := (List.nodup_cons.mp ((seen_perm here).nodup_iff.mp accounts.once)).1
  simp only [List.mem_append, not_or] at outside
  exact outside.1.1.1

theorem lt_of_running {i : Nat} {job : JobId} {input : ι}
    {result : Option (Option ο)} (here : pool.running[i]? = some ⟨job, input, result⟩)
    : job < deps.length :=
  ((accounts.mem_seen job).mp (mem_seen_of_running here)).1

/-- Every job waits for at least its entries of a running job. -/
theorem count_dependentsOf_le {i : Nat} {job : JobId} {input : ι}
    {result : Option (Option ο)} (here : pool.running[i]? = some ⟨job, input, result⟩) (j : JobId)
    : (Queue.dependentsOf (Queue.links deps) job).count j ≤ pool.queue.left j := by
  rw [Queue.count_dependentsOf, accounts.left, countP_not_mem_append _ (accounts.not_mem_done here)]
  exact Nat.le_add_left _ _

variable (task) in
/-- When a running job is done, all that list it are released. -/
theorem releases {i : Nat} {job : JobId} {input : ι}
    {result : Option (Option ο)} (here : pool.running[i]? = some ⟨job, input, result⟩)
    (out : ο)
    : Queue.Releases
        { pool.queue with
          stopped := pool.queue.stopped || (task.commit pool.state job out).2 = Flow.stop
          done := pool.queue.done + 1 }
        (Queue.dependentsOf (Queue.links deps) job) (pool.commit task i job out).queue := by
  have listed
      : pool.queue.dependents[job]?.getD [] = Queue.dependentsOf (Queue.links deps) job := by
    rw [accounts.dependents, Queue.getElem?_dependents_init deps (accounts.lt_of_running here),
      Option.getD_some]
  simp only [Pool.commit, Queue.finish, listed]
  exact Queue.releases_foldl (accounts.count_dependentsOf_le here)

theorem commit {i : Nat} {job : JobId} {input : ι}
    {result : Option (Option ο)} (here : pool.running[i]? = some ⟨job, input, result⟩)
    (out : ο)
    : Accounts deps (done ++ [job]) lost (pool.commit task i job out) := by
  have outside := accounts.not_mem_done here
  obtain ⟨left, ⟨new, ready, once, members⟩, dependents, finished, stopped⟩ :=
    accounts.releases task here out
  have leftNow : ∀ j, (pool.commit task i job out).queue.left j
      = (deps[j]?.getD []).countP fun d => decide (d ∉ done ++ [job]) := by
    intro j
    rw [left, Queue.count_dependentsOf]
    show pool.queue.left j - _ = _
    rw [accounts.left, countP_not_mem_append _ outside, Nat.add_sub_cancel]
  have same : (seen (done ++ [job]) lost (pool.commit task i job out)).Perm
      (seen done lost pool ++ new) := by
    refine List.Perm.trans ?_ ((seen_perm here).symm.append_right new)
    have own : (pool.commit task i job out).running = pool.running.eraseIdx i := rfl
    simp [seen, ready, own]
  -- those that become ready waited for entries of this job alone
  have waited {j : JobId} (among : j ∈ new)
      : 0 < (Queue.dependentsOf (Queue.links deps) job).count j
        ∧ pool.queue.left j = (Queue.dependentsOf (Queue.links deps) job).count j := by
    obtain ⟨listed, last⟩ := (members j).mp among
    exact ⟨List.count_pos_iff.mpr listed, last⟩
  refine ⟨?_, ?_, leftNow, ?_, ?_, accounts.broken, ?_⟩
  · refine same.nodup_iff.mpr (accounts.once.append once ?_)
    intro j before among
    have none := ((accounts.mem_seen j).mp before).2
    have some := waited among
    omega
  · intro j
    rw [same.mem_iff, List.mem_append, accounts.mem_seen, left]
    show _ ↔ j < deps.length ∧ pool.queue.left j - _ = 0
    have enough := accounts.count_dependentsOf_le here j
    constructor
    · rintro (⟨inside, none⟩ | among)
      · exact ⟨inside, by omega⟩
      · obtain ⟨some, last⟩ := waited among
        refine ⟨?_, by omega⟩
        rw [Queue.count_dependentsOf] at some
        refine Nat.lt_of_not_le fun beyond => ?_
        simp [List.getElem?_eq_none beyond] at some
    · rintro ⟨inside, none⟩
      rcases Nat.eq_zero_or_pos (pool.queue.left j) with zero | some
      · exact .inl ⟨inside, zero⟩
      · have last : pool.queue.left j = (Queue.dependentsOf (Queue.links deps) job).count j := by
          omega
        exact .inr ((members j).mpr ⟨List.count_pos_iff.mp (last ▸ some), last⟩)
  · exact dependents.trans accounts.dependents
  · rw [finished, List.length_append, ← accounts.done]
    rfl
  · intro broken
    rw [stopped]
    show (pool.queue.stopped || _) = true
    rw [accounts.stopped broken, Bool.true_or]

end Accounts

/-- In every history all jobs are accounted for, by induction on it. -/
theorem History.accounts {done lost : List JobId} {pool : Pool σ ι ο}
    (history : History task deps state done lost pool)
    : Accounts deps done lost pool := by
  induction history with
  | start => exact accounts_start deps state
  | take _ admitted ih => exact ih.take admitted
  | work _ here ih => exact ih.work here _
  | commit _ here ih => exact ih.commit here _
  | lose _ here ih => exact ih.lose here

-----------------------------------------------------------------------------------------
-- The end of a history
-----------------------------------------------------------------------------------------

variable {done lost : List JobId} {pool : Pool σ ι ο}

/-- The number of steps that may still come: three for each job that has not started, two for each
that is at work, and one for each whose work is over.
-/
def remaining (deps : List (List JobId)) (done lost : List JobId) (pool : Pool σ ι ο) : Nat :=
  3 * (deps.length - (done.length + lost.length))
    - (pool.running.length + pool.running.countP (·.result.isSome))

/-- No more jobs are under way than there are. -/
theorem Accounts.length_le (accounts : Accounts deps done lost pool)
    : done.length + lost.length + pool.running.length + pool.queue.ready.length ≤ deps.length := by
  have inside : ∀ job ∈ seen done lost pool, job ∈ List.range deps.length :=
    fun job some => List.mem_range.mpr ((accounts.mem_seen job).mp some).1
  have shorter := (List.subperm_of_subset accounts.once inside).length_le
  simpa [seen, Nat.add_assoc] using shorter

/-- Every step leaves fewer steps to come. -/
theorem History.step_remaining (history : History task deps state done lost pool)
    {next : Pool σ ι ο} (step : pool.Step task deps.length next)
    : ∃ done' lost',
        History task deps state done' lost' next
        ∧ remaining deps done' lost' next < remaining deps done lost pool := by
  have bound := history.accounts.length_le
  have within := List.countP_le_length (p := fun entry : Running ι ο => entry.result.isSome)
    (l := pool.running)
  cases step with
  | take admitted =>
      refine ⟨done, lost, history.take admitted, ?_⟩
      obtain ⟨_, _, job, ready, queue, rfl⟩ := Pool.admit?_eq_some_iff.mp admitted
      rw [queue] at bound
      simp only [remaining, List.length_append, List.length_cons, List.length_nil,
        List.countP_append, List.countP_singleton, Option.isSome_none, Bool.false_eq_true, if_false]
        at bound ⊢
      omega
  | work i worked =>
      obtain ⟨job, input, here, rfl⟩ := Pool.work?_eq_some_iff.mp worked
      refine ⟨done, lost, history.work here, ?_⟩
      obtain ⟨inside, same⟩ := List.getElem?_eq_some_iff.mp here
      have more : (pool.running.set i ⟨job, input, some (task.work job input)⟩).countP
            (·.result.isSome)
          = pool.running.countP (·.result.isSome) + 1 := by
        rw [List.countP_set inside, same]
        rfl
      simp only [remaining, Pool.worked, more, List.length_set]
      omega
  | complete i completed =>
      obtain ⟨job, input, _, here, ended⟩ := Pool.complete?_eq_some_iff.mp completed
      obtain ⟨inside, same⟩ := List.getElem?_eq_some_iff.mp here
      have others := List.getElem_cons_eraseIdx_perm inside
      have fewer : pool.running.length = (pool.running.eraseIdx i).length + 1 :=
        others.length_eq.symm
      have past : pool.running.countP (·.result.isSome)
          = (pool.running.eraseIdx i).countP (·.result.isSome) + 1 := by
        rw [← others.countP_eq, same, List.countP_cons]
        rfl
      rcases ended with ⟨rfl, rfl⟩ | ⟨out, rfl, rfl⟩
      · refine ⟨done, _, history.lose here, ?_⟩
        simp only [remaining, Pool.lose, List.length_append, List.length_singleton]
        omega
      · refine ⟨_, lost, history.commit here, ?_⟩
        simp only [remaining, Pool.commit, List.length_append, List.length_singleton]
        omega

/-- No history goes on forever. -/
theorem History.acc (history : History task deps state done lost pool)
    : Acc (fun next pool => pool.Step task deps.length next) pool := by
  generalize bound : remaining deps done lost pool = count
  induction count using Nat.strongRecOn generalizing done lost pool with
  | ind count earlier =>
      refine Acc.intro pool fun next step => ?_
      obtain ⟨_, _, longer, fewer⟩ := history.step_remaining step
      exact earlier _ (bound ▸ fewer) longer rfl

/-- The second job has the first one in its list. -/
def Lists (deps : List (List JobId)) (d job : JobId) : Prop := ∃ ds, deps[job]? = some ds ∧ d ∈ ds

/-- All entries are jobs, and following entries from job to job comes to an end. -/
structure Grounded (deps : List (List JobId)) : Prop where
  inRange : ∀ ds ∈ deps, ∀ d ∈ ds, d < deps.length
  founded : WellFounded (Lists deps)

/-- Jobs that depend on earlier ones only are grounded. -/
theorem grounded_of_lt (earlier : ∀ (job : JobId) ds, deps[job]? = some ds → ∀ d ∈ ds, d < job)
    : Grounded deps := by
  refine ⟨?_, Subrelation.wf ?_ Nat.lt_wfRel.wf⟩
  · intro ds among d listed
    obtain ⟨i, here⟩ := List.mem_iff_getElem?.mp among
    exact Nat.lt_trans (earlier i ds here d listed) (List.getElem?_eq_some_iff.mp here).1
  · intro d job lists
    obtain ⟨ds, here, listed⟩ := lists
    exact earlier job ds here d listed

/-- Where no job is lost, running or ready, all jobs are done. By induction along the lists: a job
whose entries are done waits for nothing, so that it has been ready.
-/
theorem Accounts.mem_done_of_idle (accounts : Accounts deps done lost pool)
    (grounded : Grounded deps) (whole : lost = []) (idle : pool.running = [])
    (empty : pool.queue.ready = []) {job : JobId} (inside : job < deps.length)
    : job ∈ done := by
  induction job using grounded.founded.induction with
  | _ job before =>
      have here := List.getElem?_eq_getElem inside
      have free : pool.queue.left job = 0 := by
        rw [accounts.left, here, Option.getD_some, List.countP_eq_zero]
        intro d listed
        have known := grounded.inRange _ (List.mem_of_getElem? here) d listed
        simpa using before d ⟨_, here, listed⟩ known
      have some := (accounts.mem_seen job).mpr ⟨inside, free⟩
      simpa [seen, whole, idle, empty] using some

/-- As many commits as there are jobs are one of each. -/
theorem Accounts.done_perm (accounts : Accounts deps done lost pool)
    (all : pool.queue.done = deps.length)
    : done.Perm (List.range deps.length) := by
  have within : done ⊆ List.range deps.length :=
    fun _ ended => List.mem_range.mpr (accounts.lt_of_mem_done ended)
  refine (List.subperm_of_subset accounts.nodup_done within).perm_of_length_le (Nat.le_of_eq ?_)
  rw [List.length_range, ← all, accounts.done]

/-- Nothing is lost unless the workers are stopped. -/
theorem Accounts.lost_eq_nil (accounts : Accounts deps done lost pool)
    (going : pool.queue.stopped = false)
    : lost = [] := by
  by_contra some
  cases (accounts.stopped (accounts.broken.mpr some)).symm.trans going

/-- If jobs are grounded and nothing stopped the workers, all jobs have committed in some order when
there is nothing left to do.
-/
theorem History.done_perm (history : History task deps state done lost pool)
    (grounded : Grounded deps) (finished : pool.Finished task deps.length)
    (going : pool.queue.stopped = false)
    : done.Perm (List.range deps.length) := by
  have accounts := history.accounts
  rcases Pool.admit?_eq_none_iff.mp finished.idle with stopped | all | empty
  · cases stopped.symm.trans going
  · exact accounts.done_perm all
  · refine (List.perm_ext_iff_of_nodup accounts.nodup_done List.nodup_range).mpr fun job => ?_
    rw [List.mem_range]
    exact ⟨accounts.lt_of_mem_done,
      accounts.mem_done_of_idle grounded (accounts.lost_eq_nil going) finished.running empty⟩

-----------------------------------------------------------------------------------------
-- One particular order
-----------------------------------------------------------------------------------------

/-- Running with a number of workers is one way of taking steps. It ends when there is nothing left
to do, if it has fuel for all of them.
-/
theorem History.run {workers : Nat} (some : 0 < workers) {fuel : Nat}
    (history : History task deps state done lost pool)
    (enough : remaining deps done lost pool < fuel)
    : Relation.ReflTransGen (Pool.Step task deps.length) pool
          (pool.run task deps.length workers fuel)
      ∧ (pool.run task deps.length workers fuel).Finished task deps.length := by
  induction fuel generalizing done lost pool with
  | zero => exact absurd enough (Nat.not_lt_zero _)
  | succ fuel ih =>
      have on {next : Pool σ ι ο} (step : pool.Step task deps.length next)
          : Relation.ReflTransGen (Pool.Step task deps.length) pool
                (next.run task deps.length workers fuel)
            ∧ (next.run task deps.length workers fuel).Finished task deps.length := by
        obtain ⟨_, _, longer, fewer⟩ := history.step_remaining step
        obtain ⟨rest, finished⟩ := ih longer (Nat.lt_of_lt_of_le fewer (Nat.le_of_lt_succ enough))
        exact ⟨rest.head step, finished⟩
      unfold Pool.run
      split
      · next next taken =>
          split at taken
          · exact on (.take taken)
          · cases taken
      · next idle =>
          split
          · next next ended =>
              rcases Option.or_eq_some_iff.mp ended with worked | ⟨_, completed⟩
              · exact on (.work 0 worked)
              · exact on (.complete 0 completed)
          · next stuck =>
              have none : pool.running = [] := by
                have beyond := List.getElem?_eq_none_iff.mp
                  (Pool.work?_or_complete?_eq_none_iff.mp stuck)
                exact List.length_eq_zero_iff.mp (Nat.le_zero.mp beyond)
              rw [if_pos (by simpa [none] using some)] at idle
              exact ⟨.refl, none, idle⟩

/-- With dependencies in range, a schedule gives the state of a pool in which nothing is left to
do.
-/
theorem exists_run (task : Task σ ι ο) {deps : List (List JobId)}
    (inRange : ∀ ds ∈ deps, ∀ d ∈ ds, d < deps.length) (workers : Nat) (state : σ)
    : ∃ pool : Pool σ ι ο,
        pool.Reachable task deps state
        ∧ pool.Finished task deps.length
        ∧ run task deps workers state
          = if pool.broken then .error .broken else .ok pool.state := by
  have none : deps.flatten.find? (fun d => deps.length ≤ d) = none := by
    rw [List.find?_eq_none]
    intro d listed
    obtain ⟨ds, among, member⟩ := List.mem_flatten.mp listed
    simpa using inRange ds among d member
  have some : 0 < max workers 1 := Nat.lt_of_lt_of_le Nat.zero_lt_one (Nat.le_max_right _ _)
  have enough : remaining deps [] [] (Pool.start deps state : Pool σ ι ο) < 3 * deps.length + 1 :=
    Nat.lt_succ_of_le (Nat.sub_le _ _)
  obtain ⟨reachable, finished⟩ := (History.start : History task deps state [] [] _).run some enough
  refine ⟨_, reachable, finished, ?_⟩
  rw [run, none]
  rfl

end Schedule

end Monadize
