import Mathlib.Order.WellFoundedSet
import Monadize.Proofs.Schedule.Safety

/-! Any number of workers, step by step. What they do is a log, and so it is safe. They never get
stuck, and lose no job: as long as jobs are left, one is ready or running. A worker that finds no job
sleeps until another one wakes it; nobody sleeps while there is a job to take, and so the workers can
only end with all jobs done, if nothing stops them.
-/

namespace Monadize

namespace Schedule

variable {σ ι ο : Type}

-----------------------------------------------------------------------------------------
-- Acyclic dependencies
-----------------------------------------------------------------------------------------

/-- No job depends on itself, directly or through others. -/
def Acyclic (deps : List (List JobId)) : Prop :=
  ∀ job, ¬ Relation.TransGen (Lists deps) job job

/-- Jobs are acyclic if they can be ranked such that all entries of a job come before it. -/
theorem acyclic_of_rank {deps : List (List JobId)} (rank : JobId → Nat)
    (before : ∀ entry ∈ deps.zipIdx, ∀ d ∈ entry.1, rank d < rank entry.2)
    : Acyclic deps := by
  have step {d job : JobId} (lists : Lists deps d job) : rank d < rank job := by
    obtain ⟨ds, here, listed⟩ := lists
    exact before (ds, job) (List.mk_mem_zipIdx_iff_getElem?.mpr here) d listed
  have onward {d job : JobId} (path : Relation.TransGen (Lists deps) d job)
      : rank d < rank job := by
    induction path with
    | single lists => exact step lists
    | tail _ lists ih => exact Nat.lt_trans ih (step lists)
  intro job cycle
  exact Nat.lt_irrefl _ (onward cycle)

/-- Among finitely many jobs, one that is followed from list to list without coming back must come
to an end.
-/
theorem Acyclic.grounded {deps : List (List JobId)} (acyclic : Acyclic deps)
    (inRange : ∀ ds ∈ deps, ∀ d ∈ ds, d < deps.length)
    : Grounded deps := by
  refine ⟨inRange, ?_⟩
  have strict : IsStrictOrder JobId (Relation.TransGen (Lists deps)) :=
    { irrefl := acyclic, trans := fun _ _ _ => Relation.TransGen.trans }
  have founded := Set.wellFoundedOn_iff.mp
    ((Set.finite_Iio deps.length).wellFoundedOn (r := Relation.TransGen (Lists deps)))
  refine Subrelation.wf ?_ founded
  intro d job lists
  obtain ⟨ds, here, listed⟩ := lists
  exact ⟨.single ⟨ds, here, listed⟩, inRange ds (List.mem_of_getElem? here) d listed,
    (List.getElem?_eq_some_iff.mp here).1⟩

-----------------------------------------------------------------------------------------
-- Pools
-----------------------------------------------------------------------------------------

section Pools

variable {task : Task σ ι ο} {deps : List (List JobId)} {state : σ} {log : List (Action ι ο)}
  {pool : Pool σ ι ο}

/-- Before all jobs are done, one is ready or running unless the workers are stopped. -/
theorem Accounts.under_way {done lost : List JobId} (accounts : Accounts deps done lost pool)
    (grounded : Grounded deps) (going : pool.queue.stopped = false)
    (left : pool.queue.done < deps.length)
    : pool.queue.ready ≠ [] ∨ pool.running ≠ [] := by
  by_contra none
  obtain ⟨empty, idle⟩ : pool.queue.ready = [] ∧ pool.running = [] := by simpa using none
  have all : List.range deps.length ⊆ done := fun job listed =>
    accounts.mem_done_of_idle grounded (accounts.lost_eq_nil going) idle empty
      (List.mem_range.mp listed)
  have longer := (List.subperm_of_subset List.nodup_range all).length_le
  rw [List.length_range, ← accounts.done] at longer
  omega

/-- The queue goes on if no action of the log has stopped it, by induction on the log. -/
theorem Log.stopped_eq_false (logs : Log task deps state log pool)
    (unstopped : ∀ action ∈ log, action.stops = false)
    : pool.queue.stopped = false := by
  induction logs with
  | start => rfl
  | act _ acts ih =>
      simp only [List.forall_mem_append, List.forall_mem_singleton] at unstopped
      rw [acts.stopped, ih unstopped.1, unstopped.2, Bool.or_false]

/-- There are never more commits than jobs, and a job that is running is one of those left. -/
theorem Log.done_lt_of_running (logs : Log task deps state log pool) {entry : Running ι ο}
    (runs : entry ∈ pool.running)
    : pool.queue.done < deps.length := by
  have bound := logs.history.accounts.length_le
  have some := List.length_pos_of_mem runs
  rw [logs.history.accounts.done]
  omega

end Pools

-----------------------------------------------------------------------------------------
-- Workers
-----------------------------------------------------------------------------------------

/-- Where a worker is. -/
inductive Worker (ι ο : Type) where
  /-- It is about to look at the queue. -/
  | looking
  /-- It has found nothing to do, and sleeps until it is woken. -/
  | asleep
  /-- It is at a job, until it has the lock after the work on it is over. -/
  | working (entry : Running ι ο)
  /-- It has returned, or its work has broken down. -/
  | gone

namespace Worker

/-- The job that a worker is at. -/
def job? : Worker ι ο → Option (Running ι ο)
  | .working entry => some entry
  | _ => none

/-- A sleeping worker looks again when all are woken. -/
def woken : Worker ι ο → Worker ι ο
  | .asleep => .looking
  | worker => worker

def isGone : Worker ι ο → Bool
  | .gone => true
  | _ => false

def isLooking : Worker ι ο → Bool
  | .looking => true
  | _ => false

theorem job?_woken (worker : Worker ι ο) : worker.woken.job? = worker.job? := by
  cases worker <;> rfl

theorem isGone_woken (worker : Worker ι ο) : worker.woken.isGone = worker.isGone := by
  cases worker <;> rfl

theorem woken_ne_asleep (worker : Worker ι ο) : worker.woken ≠ .asleep := by
  cases worker <;> exact nofun

theorem woken_eq_gone {worker : Worker ι ο} (gone : worker.woken = .gone) : worker = .gone := by
  cases worker <;> cases gone
  rfl

end Worker

/-- The workers and what they share. -/
structure Crew (σ ι ο : Type) where
  pool : Pool σ ι ο
  workers : List (Worker ι ο)

namespace Crew

/-- All workers are gone. -/
def Ended (crew : Crew σ ι ο) : Prop := ∀ worker ∈ crew.workers, worker = .gone

/-- One worker moves. It acts on the pool, or finds no job and sleeps, or leaves because the workers
are stopped or all jobs are done. Whoever ends a job or leaves wakes all that sleep; the end of the
work on a job wakes nobody.
-/
inductive Moves (task : Task σ ι ο) (total : Nat) (crew : Crew σ ι ο)
    : Option (Action ι ο) → Crew σ ι ο → Prop
  | take {i : Nat} {job : JobId} {input : ι} {next : Pool σ ι ο}
      (looks : crew.workers[i]? = some .looking)
      (acts : Acts task total crew.pool (.take job input) next)
      : Moves task total crew (some (.take job input))
          ⟨next, crew.workers.set i (.working ⟨job, input, none⟩)⟩
  | sleep {i : Nat} (looks : crew.workers[i]? = some .looking)
      (going : crew.pool.queue.stopped = false) (left : crew.pool.queue.done ≠ total)
      (empty : crew.pool.queue.ready = [])
      : Moves task total crew none ⟨crew.pool, crew.workers.set i .asleep⟩
  | leave {i : Nat} (looks : crew.workers[i]? = some .looking)
      (ended : crew.pool.queue.stopped = true ∨ crew.pool.queue.done = total)
      : Moves task total crew none ⟨crew.pool, (crew.workers.set i .gone).map Worker.woken⟩
  | work {i j : Nat} {job : JobId} {input : ι}
      (works : crew.workers[i]? = some (.working ⟨job, input, none⟩))
      (here : crew.pool.running[j]? = some ⟨job, input, none⟩)
      : Moves task total crew (some (.work job (task.work job input)))
          ⟨crew.pool.worked j job input (task.work job input),
            crew.workers.set i (.working ⟨job, input, some (task.work job input)⟩)⟩
  | commit {i j : Nat} {job : JobId} {input : ι} {out : ο}
      (works : crew.workers[i]? = some (.working ⟨job, input, some (some out)⟩))
      (here : crew.pool.running[j]? = some ⟨job, input, some (some out)⟩)
      : Moves task total crew
          (some (.commit job out (task.commit crew.pool.state job out).2))
          ⟨crew.pool.commit task j job out, (crew.workers.set i .looking).map Worker.woken⟩
  | lose {i j : Nat} {job : JobId} {input : ι}
      (works : crew.workers[i]? = some (.working ⟨job, input, some none⟩))
      (here : crew.pool.running[j]? = some ⟨job, input, some none⟩)
      : Moves task total crew (some (.lose job))
          ⟨crew.pool.lose j, (crew.workers.set i .gone).map Worker.woken⟩

/-- So many workers have come from the start to the crew by these actions. Besides their moves, a
worker that sleeps may wake by itself at any time.
-/
inductive Trace (task : Task σ ι ο) (deps : List (List JobId)) (state : σ) (count : Nat)
    : List (Action ι ο) → Crew σ ι ο → Prop
  | start : Trace task deps state count [] ⟨.start deps state, List.replicate count .looking⟩
  | move {log : List (Action ι ο)} {crew next : Crew σ ι ο} {action? : Option (Action ι ο)}
      (before : Trace task deps state count log crew)
      (moves : crew.Moves task deps.length action? next)
      : Trace task deps state count (log ++ action?.toList) next
  | wake {log : List (Action ι ο)} {crew : Crew σ ι ο} {i : Nat}
      (before : Trace task deps state count log crew)
      (sleeps : crew.workers[i]? = some .asleep)
      : Trace task deps state count log ⟨crew.pool, crew.workers.set i .looking⟩

-----------------------------------------------------------------------------------------
-- Moves
-----------------------------------------------------------------------------------------

section Moves

variable {task : Task σ ι ο} {total : Nat} {crew next : Crew σ ι ο} {action? : Option (Action ι ο)}

/-- A move is an action on the pool, or leaves it as it is. -/
theorem Moves.acts (moves : crew.Moves task total action? next)
    : (∃ action, action? = some action ∧ Acts task total crew.pool action next.pool)
      ∨ (action? = none ∧ next.pool = crew.pool) := by
  cases moves with
  | take _ acts => exact .inl ⟨_, rfl, acts⟩
  | sleep | leave => exact .inr ⟨rfl, rfl⟩
  | work _ here => exact .inl ⟨_, rfl, Acts.work_iff.mpr ⟨_, _, here, rfl, rfl⟩⟩
  | commit _ here => exact .inl ⟨_, rfl, Acts.commit_iff.mpr ⟨rfl, _, _, here, rfl⟩⟩
  | lose _ here => exact .inl ⟨_, rfl, Acts.lose_iff.mpr ⟨_, _, here, rfl⟩⟩

theorem Moves.length_workers (moves : crew.Moves task total action? next)
    : next.workers.length = crew.workers.length := by
  cases moves <;> simp

/-- How much the workers may still do while the pool stays as it is: leaving counts more than the
looks of all others that it wakes.
-/
def unrest (workers : List (Worker ι ο)) : Nat :=
  workers.countP (fun worker => !worker.isGone) * (workers.length + 1)
    + workers.countP Worker.isLooking

/-- A worker that goes to sleep looks no more. -/
theorem unrest_sleep {workers : List (Worker ι ο)} {i : Nat} (looks : workers[i]? = some .looking)
    : unrest (workers.set i .asleep) < unrest workers := by
  obtain ⟨inside, here⟩ := List.getElem?_eq_some_iff.mp looks
  have some : 0 < workers.countP Worker.isLooking :=
    List.countP_pos_iff.mpr ⟨_, List.mem_of_getElem? looks, rfl⟩
  have kept : 0 < workers.countP fun worker => !worker.isGone :=
    List.countP_pos_iff.mpr ⟨_, List.mem_of_getElem? looks, rfl⟩
  have same : (workers.set i .asleep).countP (fun worker => !worker.isGone)
      = workers.countP fun worker => !worker.isGone := by
    rw [List.countP_set inside, here]
    exact Nat.sub_add_cancel kept
  have fewer : (workers.set i .asleep).countP Worker.isLooking
      = workers.countP Worker.isLooking - 1 := by
    rw [List.countP_set inside, here]
    rfl
  rw [unrest, unrest, same, fewer, List.length_set]
  omega

/-- A worker that leaves may make all others look. -/
theorem unrest_leave {workers : List (Worker ι ο)} {i : Nat} (looks : workers[i]? = some .looking)
    : unrest ((workers.set i .gone).map Worker.woken) < unrest workers := by
  obtain ⟨inside, here⟩ := List.getElem?_eq_some_iff.mp looks
  have kept : 0 < workers.countP fun worker => !worker.isGone :=
    List.countP_pos_iff.mpr ⟨_, List.mem_of_getElem? looks, rfl⟩
  have fewer : ((workers.set i .gone).map Worker.woken).countP (fun worker => !worker.isGone)
      = workers.countP (fun worker => !worker.isGone) - 1 := by
    rw [List.countP_map, show (fun worker : Worker ι ο => !worker.isGone) ∘ Worker.woken
      = fun worker => !worker.isGone from funext fun worker => by simp [Worker.isGone_woken],
      List.countP_set inside, here]
    rfl
  have bound : ((workers.set i .gone).map Worker.woken).countP Worker.isLooking
      ≤ workers.length := by
    refine Nat.le_trans List.countP_le_length (Nat.le_of_eq ?_)
    rw [List.length_map, List.length_set]
  simp only [unrest, fewer, List.length_map, List.length_set]
  have once : (workers.countP (fun worker => !worker.isGone) - 1) * (workers.length + 1)
        + (workers.length + 1)
      = workers.countP (fun worker => !worker.isGone) * (workers.length + 1) := by
    rw [← Nat.succ_mul, Nat.succ_eq_add_one, Nat.sub_add_cancel kept]
  omega

/-- A move takes the pool a step further, or leaves it and there is less to do. -/
theorem Moves.step_or_unrest (moves : crew.Moves task total action? next)
    : crew.pool.Step task total next.pool
      ∨ (next.pool = crew.pool ∧ unrest next.workers < unrest crew.workers) := by
  rcases moves.acts with ⟨action, _, acts⟩ | ⟨none, same⟩
  · exact .inl (exists_acts_iff.mp ⟨action, acts⟩)
  · refine .inr ⟨same, ?_⟩
    cases moves with
    | sleep looks => exact unrest_sleep looks
    | leave looks => exact unrest_leave looks
    | take | work | commit | lose => cases none

/-- A crew cannot move forever if its pool cannot: by induction on the steps of the pool, and on the
unrest between them.
-/
theorem acc_moves {pool : Pool σ ι ο}
    (acc : Acc (fun next pool => Pool.Step task total pool next) pool)
    (workers : List (Worker ι ο))
    : Acc (fun next crew => ∃ action?, Moves task total crew action? next) ⟨pool, workers⟩ := by
  induction acc generalizing workers with
  | intro pool _ further =>
      generalize bound : unrest workers = count
      induction count using Nat.strongRecOn generalizing workers with
      | ind count fewer =>
          refine Acc.intro _ fun next moved => ?_
          obtain ⟨action?, moves⟩ := moved
          obtain ⟨nextPool, nextWorkers⟩ := next
          rcases moves.step_or_unrest with step | ⟨same, less⟩
          · exact further nextPool step nextWorkers
          · obtain rfl : nextPool = pool := same
            exact fewer (unrest nextWorkers) (bound ▸ less) nextWorkers rfl

end Moves

-----------------------------------------------------------------------------------------
-- Who does what
-----------------------------------------------------------------------------------------

/-- The running jobs are those that workers are at. A worker sleeps only if there is nothing to take
and work is left, and is gone only if the workers are stopped or all is done.
-/
structure Manned (total : Nat) (crew : Crew σ ι ο) : Prop where
  running : (crew.workers.filterMap Worker.job?).Perm crew.pool.running
  asleep
    : .asleep ∈ crew.workers
      → crew.pool.queue.stopped = false
        ∧ crew.pool.queue.done ≠ total
        ∧ crew.pool.queue.ready = []
  gone
    : .gone ∈ crew.workers → crew.pool.queue.stopped = true ∨ crew.pool.queue.done = total

/-- What the workers are at when one of them changes. -/
theorem entries_set {workers : List (Worker ι ο)} {i : Nat} {old : Worker ι ο}
    (here : workers[i]? = some old)
    : ∃ others : List (Running ι ο),
        (workers.filterMap Worker.job?).Perm (old.job?.toList ++ others)
        ∧ ∀ new : Worker ι ο,
            ((workers.set i new).filterMap Worker.job?).Perm (new.job?.toList ++ others) := by
  obtain ⟨inside, rfl⟩ := List.getElem?_eq_some_iff.mp here
  have entries (worker : Worker ι ο) (rest : List (Worker ι ο))
      : (worker :: rest).filterMap Worker.job?
        = worker.job?.toList ++ rest.filterMap Worker.job? := by
    rw [List.filterMap_cons]
    cases worker.job? <;> rfl
  refine ⟨(workers.eraseIdx i).filterMap Worker.job?, ?_, fun new => ?_⟩
  · rw [← entries]
    exact (List.getElem_cons_eraseIdx_perm inside).symm.filterMap _
  · rw [← entries]
    exact (List.set_perm_cons_eraseIdx inside new).filterMap _

theorem entries_woken (workers : List (Worker ι ο))
    : (workers.map Worker.woken).filterMap Worker.job? = workers.filterMap Worker.job? := by
  rw [List.filterMap_map]
  exact List.filterMap_congr fun worker _ => worker.job?_woken

/-- A worker that changes without a job leaves the running jobs as they are. -/
theorem perm_set_idle {workers : List (Worker ι ο)} {running : List (Running ι ο)}
    (manned : (workers.filterMap Worker.job?).Perm running) {i : Nat} {old new : Worker ι ο}
    (here : workers[i]? = some old) (before : old.job? = none) (after : new.job? = none)
    : ((workers.set i new).filterMap Worker.job?).Perm running := by
  obtain ⟨others, own, changed⟩ := entries_set here
  rw [before] at own
  have rest := changed new
  rw [after] at rest
  exact rest.trans (own.symm.trans manned)

/-- When a worker that is at a job changes, the other workers are at the other running jobs. -/
theorem perm_set {workers : List (Worker ι ο)} {running : List (Running ι ο)}
    (manned : (workers.filterMap Worker.job?).Perm running) {i j : Nat} {entry : Running ι ο}
    (works : workers[i]? = some (.working entry)) (here : running[j]? = some entry)
    (new : Worker ι ο)
    : ((workers.set i new).filterMap Worker.job?).Perm
        (new.job?.toList ++ running.eraseIdx j) := by
  obtain ⟨others, own, changed⟩ := entries_set works
  obtain ⟨inside, same⟩ := List.getElem?_eq_some_iff.mp here
  have taken := List.getElem_cons_eraseIdx_perm inside
  rw [same] at taken
  have rest := ((own.symm.trans manned).trans taken.symm).cons_inv
  exact (changed new).trans (rest.append_left _)

/-- A worker whose work is over is at the same job, which is now one whose work is over. -/
theorem perm_set_set {workers : List (Worker ι ο)} {running : List (Running ι ο)}
    (manned : (workers.filterMap Worker.job?).Perm running) {i j : Nat} {entry : Running ι ο}
    (works : workers[i]? = some (.working entry)) (here : running[j]? = some entry)
    (new : Running ι ο)
    : ((workers.set i (.working new)).filterMap Worker.job?).Perm (running.set j new) := by
  obtain ⟨inside, _⟩ := List.getElem?_eq_some_iff.mp here
  exact (perm_set manned works here _).trans (List.set_perm_cons_eraseIdx inside new).symm

/-- A worker that ends its job takes it off the running ones. -/
theorem perm_set_eraseIdx {workers : List (Worker ι ο)} {running : List (Running ι ο)}
    (manned : (workers.filterMap Worker.job?).Perm running) {i j : Nat} {entry : Running ι ο}
    (works : workers[i]? = some (.working entry)) (here : running[j]? = some entry)
    {new : Worker ι ο} (after : new.job? = none)
    : (((workers.set i new).map Worker.woken).filterMap Worker.job?).Perm
        (running.eraseIdx j) := by
  have rest := perm_set manned works here new
  rw [after] at rest
  rw [entries_woken]
  exact rest

theorem not_mem_asleep_woken (workers : List (Worker ι ο))
    : .asleep ∉ workers.map Worker.woken := by
  intro sleeps
  obtain ⟨worker, _, same⟩ := List.mem_map.mp sleeps
  exact worker.woken_ne_asleep same

/-- Whoever is gone after all are woken was gone before, or is the one that has just changed. -/
theorem mem_gone_woken {workers : List (Worker ι ο)} {i : Nat} {new : Worker ι ο}
    (gone : .gone ∈ (workers.set i new).map Worker.woken)
    : .gone ∈ workers ∨ new = .gone := by
  obtain ⟨worker, among, same⟩ := List.mem_map.mp gone
  cases Worker.woken_eq_gone same
  rcases List.mem_or_eq_of_mem_set among with old | rfl
  · exact .inl old
  · exact .inr rfl

section Traces

variable {task : Task σ ι ο} {deps : List (List JobId)} {state : σ} {count : Nat}
  {log : List (Action ι ο)} {crew next : Crew σ ι ο} {action? : Option (Action ι ο)}

/-- What a crew does is a log, by induction on it. -/
theorem Trace.logs (trace : Trace task deps state count log crew)
    : Log task deps state log crew.pool := by
  induction trace with
  | start => exact .start
  | move _ moves ih =>
      rcases moves.acts with ⟨action, rfl, acts⟩ | ⟨rfl, same⟩
      · exact ih.act acts
      · rw [same, Option.toList_none, List.append_nil]
        exact ih
  | wake _ _ ih => exact ih

theorem Trace.length_workers (trace : Trace task deps state count log crew)
    : crew.workers.length = count := by
  induction trace with
  | start => exact List.length_replicate
  | move _ moves ih => rw [moves.length_workers, ih]
  | wake _ _ ih => rw [List.length_set, ih]

/-- A move leaves the workers where they should be. A job can be taken only while nobody sleeps or
is gone. When one ends, there was work left, so that whoever is gone has been stopped.
-/
theorem Manned.move (manned : crew.Manned deps.length) (logs : Log task deps state log crew.pool)
    (moves : crew.Moves task deps.length action? next)
    : next.Manned deps.length := by
  have stopped {j : Nat} {entry : Running ι ο} (here : crew.pool.running[j]? = some entry)
      (gone : .gone ∈ crew.workers)
      : crew.pool.queue.stopped = true := by
    have left := logs.done_lt_of_running (List.mem_of_getElem? here)
    exact (manned.gone gone).resolve_right (Nat.ne_of_lt left)
  cases moves with
  | @take i job input _ looks acts =>
      obtain ⟨going, left, _, ready, queue, rfl⟩ := Acts.take_iff.mp acts
      refine ⟨?_, ?_, ?_⟩
      · obtain ⟨others, own, changed⟩ := entries_set looks
        refine (changed _).trans ?_
        exact ((own.symm.trans manned.running).cons ⟨job, input, none⟩).trans
          (List.perm_append_singleton _ _).symm
      · intro sleeps
        have before := (List.mem_or_eq_of_mem_set sleeps).resolve_right nofun
        cases queue.symm.trans (manned.asleep before).2.2
      · intro gone
        have before := (List.mem_or_eq_of_mem_set gone).resolve_right nofun
        rcases manned.gone before with stop | all
        · cases going.symm.trans stop
        · exact absurd all left
  | sleep looks going left empty =>
      refine ⟨perm_set_idle manned.running looks rfl rfl, fun _ => ⟨going, left, empty⟩, ?_⟩
      intro gone
      exact manned.gone ((List.mem_or_eq_of_mem_set gone).resolve_right nofun)
  | leave looks ended =>
      refine ⟨?_, fun sleeps => absurd sleeps (not_mem_asleep_woken _), fun _ => ended⟩
      rw [entries_woken]
      exact perm_set_idle manned.running looks rfl rfl
  | work works here =>
      refine ⟨perm_set_set manned.running works here _, ?_, ?_⟩
      · exact fun sleeps =>
          manned.asleep ((List.mem_or_eq_of_mem_set sleeps).resolve_right nofun)
      · exact fun gone => manned.gone ((List.mem_or_eq_of_mem_set gone).resolve_right nofun)
  | commit works here =>
      have acts : Acts task deps.length crew.pool _ _ :=
        Acts.commit_iff.mpr ⟨rfl, _, _, here, rfl⟩
      refine ⟨perm_set_eraseIdx manned.running works here rfl,
        fun sleeps => absurd sleeps (not_mem_asleep_woken _), fun gone => .inl ?_⟩
      have before := (mem_gone_woken gone).resolve_right nofun
      rw [acts.stopped, stopped here before, Bool.true_or]
  | lose works here =>
      exact ⟨perm_set_eraseIdx manned.running works here rfl,
        fun sleeps => absurd sleeps (not_mem_asleep_woken _), fun _ => .inl rfl⟩

/-- The workers are where they should be at all times, by induction. -/
theorem Trace.manned (trace : Trace task deps state count log crew)
    : crew.Manned deps.length := by
  induction trace with
  | start =>
      refine ⟨?_, ?_, ?_⟩
      · refine List.Perm.of_eq (List.filterMap_eq_nil_iff.mpr fun worker among => ?_)
        rw [List.eq_of_mem_replicate among]
        rfl
      · exact fun sleeps => nomatch List.eq_of_mem_replicate sleeps
      · exact fun gone => nomatch List.eq_of_mem_replicate gone
  | move before moves ih => exact ih.move before.logs moves
  | wake _ sleeps ih =>
      refine ⟨perm_set_idle ih.running sleeps rfl rfl, ?_, ?_⟩
      · exact fun still => ih.asleep ((List.mem_or_eq_of_mem_set still).resolve_right nofun)
      · exact fun gone => ih.gone ((List.mem_or_eq_of_mem_set gone).resolve_right nofun)

/-- A worker that looks can move, whatever it finds. -/
theorem exists_moves_of_looking {total : Nat} (looks : .looking ∈ crew.workers)
    : ∃ action? next, crew.Moves task total action? next := by
  obtain ⟨i, looks⟩ := List.mem_iff_getElem?.mp looks
  cases stop : crew.pool.queue.stopped with
  | true => exact ⟨_, _, .leave looks (.inl stop)⟩
  | false =>
      by_cases all : crew.pool.queue.done = total
      · exact ⟨_, _, .leave looks (.inr all)⟩
      · cases queue : crew.pool.queue.ready with
        | nil => exact ⟨_, _, .sleep looks stop all queue⟩
        | cons job ready =>
            exact ⟨_, _, .take looks (Acts.take_iff.mpr ⟨stop, all, rfl, ready, queue, rfl⟩)⟩

/-- A worker that is at a job can go on with it. -/
theorem exists_moves_of_running {total : Nat} (manned : crew.Manned total) {entry : Running ι ο}
    (runs : entry ∈ crew.pool.running)
    : ∃ action? next, crew.Moves task total action? next := by
  obtain ⟨worker, among, at_job⟩ := List.mem_filterMap.mp (manned.running.mem_iff.mpr runs)
  obtain ⟨i, works⟩ := List.mem_iff_getElem?.mp among
  obtain ⟨j, here⟩ := List.mem_iff_getElem?.mp runs
  cases worker with
  | working =>
      cases at_job
      obtain ⟨job, input, result⟩ := entry
      rcases result with _ | _ | out
      · exact ⟨_, _, .work works here⟩
      · exact ⟨_, _, .lose works here⟩
      · exact ⟨_, _, .commit works here⟩
  | looking | asleep | gone => cases at_job

/-- A crew that is not at its end can move. If nobody looks or works, one is asleep, and then a job
is ready or running after all.
-/
theorem Trace.ended_or_moves (trace : Trace task deps state count log crew)
    (grounded : Grounded deps)
    : crew.Ended ∨ ∃ action? next, crew.Moves task deps.length action? next := by
  have manned := trace.manned
  by_cases looks : .looking ∈ crew.workers
  · exact .inr (exists_moves_of_looking looks)
  by_cases idle : crew.pool.running = []
  · refine .inl fun worker among => ?_
    cases worker with
    | gone => rfl
    | looking => exact absurd among looks
    | working entry =>
        have runs : entry ∈ crew.workers.filterMap Worker.job? :=
          List.mem_filterMap.mpr ⟨_, among, rfl⟩
        rw [manned.running.mem_iff, idle] at runs
        cases runs
    | asleep =>
        obtain ⟨going, left, empty⟩ := manned.asleep among
        have accounts := trace.logs.history.accounts
        have bound := accounts.length_le
        have fewer : crew.pool.queue.done < deps.length := by
          rw [accounts.done] at left ⊢
          omega
        exact absurd idle ((accounts.under_way grounded going fewer).resolve_left (· empty))
  · obtain ⟨entry, runs⟩ := List.exists_mem_of_ne_nil _ idle
    exact .inr (exists_moves_of_running manned runs)

end Traces

end Crew

-----------------------------------------------------------------------------------------
-- All interleavings
-----------------------------------------------------------------------------------------

/-- Workers are safe however they interleave. The pools that they can come to are those that have a
log; every log is safe, and cannot be continued forever. What any number of workers do is a log; and
a run with any number of workers has a log, at the end of which nothing is left to do. Dependency
lists may repeat entries and may be cyclic: jobs on a cycle are never admitted.
-/
theorem interleavings_safe (task : Task σ ι ο) {deps : List (List JobId)}
    (inRange : ∀ ds ∈ deps, ∀ d ∈ ds, d < deps.length) (state : σ)
    : (∀ pool, pool.Reachable task deps state ↔ ∃ log, Log task deps state log pool)
      ∧ (∀ log pool,
          Log task deps state log pool
          → Safe task deps state log pool
            ∧ Acc (fun next pool => pool.Step task deps.length next) pool)
      ∧ (∀ workers log crew,
          Crew.Trace task deps state workers log crew → Log task deps state log crew.pool)
      ∧ ∀ workers,
          ∃ log pool,
            Log task deps state log pool
            ∧ pool.Finished task deps.length
            ∧ run task deps workers state
              = if pool.broken then .error .broken else .ok pool.state := by
  refine ⟨fun pool => exists_log_iff.symm, fun log pool logs => ⟨logs.safe, logs.history.acc⟩,
    fun workers log crew trace => trace.logs, ?_⟩
  intro workers
  obtain ⟨pool, reachable, finished, result⟩ := exists_run task inRange workers state
  obtain ⟨log, logs⟩ := exists_log_iff.mpr reachable
  exact ⟨log, pool, logs, finished, result⟩

/-- Jobs that write down their numbers: job 3 breaks down, and job 1 stops the others. -/
def Task.numbers : Task (List JobId) (List JobId) JobId where
  prepare state _ := state
  work job _ := if job = 3 then none else some job
  commit state job out := (state ++ [out], if job = 1 then .stop else .proceed)

/-- One job lists another twice, one lists itself, and one depends on a job that breaks down. -/
def Task.tangle : List (List JobId) := [[], [0, 0], [1, 2], [], [3]]

/-- Witness: the job that is running when another one is given up commits after it. -/
theorem interleavings_safe_numbers
    : ∃ pool,
        Log Task.numbers Task.tangle []
          [.take 0 [], .take 3 [], .work 0 (some 0), .commit 0 0 .proceed, .work 3 none,
            .take 1 [0], .lose 3, .work 1 (some 1), .commit 1 1 .stop]
          pool
        ∧ Safe Task.numbers Task.tangle []
          [.take 0 [], .take 3 [], .work 0 (some 0), .commit 0 0 .proceed, .work 3 none,
            .take 1 [0], .lose 3, .work 1 (some 1), .commit 1 1 .stop]
          pool := by
  have first : Log Task.numbers Task.tangle []
      [.take 0 [], .take 3 [], .work 0 (some 0), .commit 0 0 .proceed] _ :=
    (((Log.start.act (.take rfl rfl)).act (.take rfl rfl)).act (.work (i := 0) rfl rfl)).act
      (.commit (i := 0) rfl rfl)
  have second := ((first.act (.work (i := 0) rfl rfl)).act (.take rfl rfl)).act
    (.lose (i := 0) rfl rfl)
  have logs := (second.act (.work (i := 0) rfl rfl)).act (.commit (i := 0) rfl rfl)
  exact ⟨_, logs, ((interleavings_safe Task.numbers (by decide) []).2.1 _ _ logs).1⟩

/-- The work of job 3 has broken down, but its worker has yet to get the lock. Until then the other
worker goes on, and is even admitted to job 1. So a breakdown alone stops nobody.
-/
theorem take_after_breakdown
    : ∃ crew,
        Crew.Trace Task.numbers Task.tangle [] 2
          ([.take 0 [], .take 3 []] ++ .work 3 none
            :: [.work 0 (some 0), .commit 0 0 .proceed, .take 1 [0], .lose 3])
          crew := by
  have first : Crew.Trace Task.numbers Task.tangle [] 2 [.take 0 [], .take 3 [], .work 3 none] _ :=
    ((Crew.Trace.start.move (.take (i := 0) rfl (.take rfl rfl))).move
      (.take (i := 1) rfl (.take rfl rfl))).move (.work (i := 1) (j := 1) rfl rfl)
  have second := ((first.move (.work (i := 0) (j := 0) rfl rfl)).move
    (.commit (i := 0) (j := 0) rfl rfl)).move (.take (i := 0) rfl (.take rfl rfl))
  exact ⟨_, second.move (.lose (i := 1) (j := 0) rfl rfl)⟩

/-- Workers never get stuck, whatever their interleaving and their number. In every pool they can
come to, a job is ready or running as long as jobs are left and nothing has stopped the workers. So
they can always go on until all are gone, although not forever; and if no commit stops them and no
work breaks down, they can only end with one commit of each job. Running is one such interleaving.
Dependency lists may repeat entries, and a job may depend on later ones.
-/
theorem workers_complete (task : Task σ ι ο) {deps : List (List JobId)}
    (inRange : ∀ ds ∈ deps, ∀ d ∈ ds, d < deps.length) (acyclic : Acyclic deps) (state : σ)
    : (∀ pool : Pool σ ι ο,
        pool.Reachable task deps state
        → pool.queue.stopped = false
        → pool.queue.done < deps.length
        → pool.queue.ready ≠ [] ∨ pool.running ≠ [])
      ∧ (∀ log pool,
          Log task deps state log pool
          → pool.Finished task deps.length
          → (∀ action ∈ log, action.stops = false)
          → (committed log).Perm (List.range deps.length))
      ∧ (∀ workers log crew,
          Crew.Trace task deps state (max workers 1) log crew
          → Log task deps state log crew.pool
            ∧ (crew.Ended ∨ ∃ action? next, crew.Moves task deps.length action? next)
            ∧ Acc (fun next crew => ∃ action?, Crew.Moves task deps.length crew action? next) crew
            ∧ (crew.Ended
              → (∀ action ∈ log, action.stops = false)
              → (committed log).Perm (List.range deps.length)))
      ∧ ∀ workers,
          ∃ log pool,
            Log task deps state log pool
            ∧ pool.Finished task deps.length
            ∧ run task deps workers state
              = if pool.broken then .error .broken else .ok pool.state := by
  have grounded := acyclic.grounded inRange
  refine ⟨?_, ?_, ?_, ?_⟩
  · intro pool reachable going left
    obtain ⟨done, lost, history⟩ := reachable.history
    exact history.accounts.under_way grounded going left
  · intro log pool logs finished unstopped
    exact logs.history.done_perm grounded finished (logs.stopped_eq_false unstopped)
  · intro workers log crew trace
    have logs := trace.logs
    refine ⟨logs, trace.ended_or_moves grounded, Crew.acc_moves logs.history.acc _, ?_⟩
    intro ended unstopped
    have some : 0 < crew.workers.length :=
      trace.length_workers ▸ Nat.lt_of_lt_of_le Nat.zero_lt_one (Nat.le_max_right _ _)
    obtain ⟨worker, among⟩ := List.exists_mem_of_length_pos some
    have gone : .gone ∈ crew.workers := ended worker among ▸ among
    rcases trace.manned.gone gone with stop | all
    · cases (logs.stopped_eq_false unstopped).symm.trans stop
    · exact logs.history.accounts.done_perm all
  · intro workers
    obtain ⟨pool, reachable, finished, same⟩ := exists_run task inRange workers state
    obtain ⟨log, logs⟩ := exists_log_iff.mpr reachable
    exact ⟨log, pool, logs, finished, same⟩

/-- Jobs that write down their numbers, and neither stop the others nor break down. -/
def Task.roll : Task (List JobId) (List JobId) JobId where
  prepare state _ := state
  work job _ := some job
  commit state _ out := (state ++ [out], .proceed)

/-- The first job lists the last one twice, and the second one lists the first. -/
def Task.chain : List (List JobId) := [[2, 2], [0], []]

theorem Task.acyclic_chain : Acyclic chain :=
  acyclic_of_rank (fun job => (job + 1) % 3) (by decide)

/-- Witness: of two workers the second one sleeps while the first one is at the last job, and is
woken when that is done. In the end both are gone, and every job has committed.
-/
theorem workers_complete_chain
    : ∃ crew,
        Crew.Trace Task.roll Task.chain [] 2
          [.take 2 [], .work 2 (some 2), .commit 2 2 .proceed, .take 0 [2], .work 0 (some 0),
            .commit 0 0 .proceed, .take 1 [2, 0], .work 1 (some 1), .commit 1 1 .proceed]
          crew
        ∧ crew.Ended
        ∧ (committed
            [(.take 2 [] : Action (List JobId) JobId), .work 2 (some 2), .commit 2 2 .proceed,
              .take 0 [2], .work 0 (some 0), .commit 0 0 .proceed, .take 1 [2, 0],
              .work 1 (some 1), .commit 1 1 .proceed]).Perm
          (List.range 3) := by
  have first : Crew.Trace Task.roll Task.chain [] 2
      [.take 2 [], .work 2 (some 2), .commit 2 2 .proceed] _ :=
    (((Crew.Trace.start.move (.take (i := 0) rfl (.take rfl rfl))).move
      (.sleep (i := 1) rfl rfl (by decide) rfl)).move (.work (i := 0) (j := 0) rfl rfl)).move
      (.commit (i := 0) (j := 0) rfl rfl)
  have second := ((first.move (.take (i := 1) rfl (.take rfl rfl))).move
    (.work (i := 1) (j := 0) rfl rfl)).move (.commit (i := 1) (j := 0) rfl rfl)
  have third := ((second.move (.take (i := 0) rfl (.take rfl rfl))).move
    (.work (i := 0) (j := 0) rfl rfl)).move (.commit (i := 0) (j := 0) rfl rfl)
  have trace := (third.move (.leave (i := 0) rfl (.inr rfl))).move
    (.leave (i := 1) rfl (.inr rfl))
  refine ⟨_, trace, fun worker among => (List.mem_pair.mp among).elim id id, ?_⟩
  exact ((workers_complete Task.roll (by decide) Task.acyclic_chain []).2.2.1 2 _ _
    trace).2.2.2 (fun worker among => (List.mem_pair.mp among).elim id id) (by decide)

end Schedule

end Monadize
