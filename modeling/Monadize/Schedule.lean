import Monadize.Indexed

/-! Running jobs in an order that respects their dependencies. A job is prepared and committed
under a lock on the shared state and works without it; any number of workers may take jobs. A job
is admitted once all jobs it depends on are committed, so that what it is prepared from contains
what they did. -/

namespace Monadize

abbrev JobId := Nat

/-- Whether to go on after a commit. -/
inductive Flow where
  | proceed
  /-- Admit no further jobs; those that are running still commit. -/
  | stop
  deriving DecidableEq

/-- What the jobs are: `work` may break down. -/
structure Task (σ ι ο : Type) where
  prepare : σ → JobId → ι
  work : JobId → ι → Option ο
  commit : σ → JobId → ο → σ × Flow

namespace Schedule

/-- The jobs that wait, are ready and are done. -/
structure Queue where
  /-- Jobs that may start, the next one first. -/
  ready : List JobId
  /-- For each job the number of entries in its dependency list that are not done. -/
  waiting : List Nat
  /-- For each job those that list it, as often as they do. -/
  dependents : List (List JobId)
  done : Nat
  stopped : Bool
  deriving DecidableEq

namespace Queue

/-- The entries of the dependency lists: a job, and the one that lists it. -/
def links (deps : List (List JobId)) : List (JobId × JobId) :=
  deps.zipIdx.flatMap fun (ds, i) => ds.map fun d => (d, i)

/-- The jobs that list `job`, in order and as often as they do. -/
def dependentsOf (links : List (JobId × JobId)) (job : JobId) : List JobId :=
  (links.filter (·.1 = job)).map (·.2)

/-- The queue before any job has started. -/
def init (deps : List (List JobId)) : Queue where
  ready := (deps.zipIdx.filter (·.1.isEmpty)).map (·.2)
  waiting := deps.map (·.length)
  dependents := (List.range deps.length).map (dependentsOf (links deps))
  done := 0
  stopped := false

/-- One dependency of `job` is done. The last one makes it ready. -/
def release (q : Queue) (job : JobId) : Queue :=
  let left := (q.waiting[job]?.getD 0) - 1
  { q with
    waiting := q.waiting.set job left
    ready := if left = 0 then q.ready ++ [job] else q.ready }

/-- A job is done. -/
def finish (q : Queue) (job : JobId) : Queue :=
  ((q.dependents[job]?).getD []).foldl release { q with done := q.done + 1 }

end Queue

/-- A job that is running: it has been prepared, and not yet been committed or given up. -/
structure Running (ι ο : Type) where
  job : JobId
  input : ι
  /-- What its work has come to, once that is over: nothing, if it broke down. -/
  result : Option (Option ο)

/-- What the workers share, and the jobs that they are at. -/
structure Pool (σ ι ο : Type) where
  state : σ
  queue : Queue
  running : List (Running ι ο)
  /-- Some work broke down. -/
  broken : Bool

namespace Pool

variable {σ ι ο : Type}

/-- A worker takes the next ready job. It takes none after a stop or when all jobs are done. -/
def admit? (task : Task σ ι ο) (total : Nat) (pool : Pool σ ι ο) : Option (Pool σ ι ο) :=
  if pool.queue.stopped || pool.queue.done = total then none
  else
    match pool.queue.ready with
    | [] => none
    | job :: ready =>
        some { pool with
          queue := { pool.queue with ready }
          running := pool.running ++ [⟨job, task.prepare pool.state job, none⟩] }

/-- The work on the `i`th running job ends. No lock is held then, and nobody else is told. -/
def work? (task : Task σ ι ο) (pool : Pool σ ι ο) (i : Nat) : Option (Pool σ ι ο) :=
  match pool.running[i]? with
  | some ⟨job, input, none⟩ =>
      some { pool with running := pool.running.set i ⟨job, input, some (task.work job input)⟩ }
  | _ => none

/-- The worker that was at the `i`th running job has the lock again: the job commits, or its work
has broken down and the others are stopped. -/
def complete? (task : Task σ ι ο) (pool : Pool σ ι ο) (i : Nat) : Option (Pool σ ι ο) :=
  let running := pool.running.eraseIdx i
  match pool.running[i]? with
  | some ⟨_, _, some none⟩ =>
      some { pool with queue := { pool.queue with stopped := true }, running, broken := true }
  | some ⟨job, _, some (some out)⟩ =>
      let (state, flow) := task.commit pool.state job out
      let queue := { pool.queue with stopped := pool.queue.stopped || flow = Flow.stop }
      some { pool with state, queue := queue.finish job, running }
  | _ => none

/-- Run with up to `workers` jobs at a time, the one that started first ending first. -/
def run (task : Task σ ι ο) (total workers : Nat) : (fuel : Nat) → Pool σ ι ο → Pool σ ι ο
  | 0, pool => pool
  | fuel + 1, pool =>
      match if pool.running.length < workers then pool.admit? task total else none with
      | some pool => pool.run task total workers fuel
      | none =>
          match (pool.work? task 0).or (pool.complete? task 0) with
          | some pool => pool.run task total workers fuel
          | none => pool

end Pool

/-- Why a schedule gives no result. -/
inductive Failure where
  | outOfBounds (e : OutOfBounds)
  /-- The work of some job broke down. -/
  | broken
  deriving DecidableEq

def Failure.message : Failure → String
  | .outOfBounds e => e.message
  | .broken => "a scoped thread panicked"

/-- Run all jobs and return the final state. Every job is admitted once and ends once. -/
def run {σ ι ο : Type} (task : Task σ ι ο) (deps : List (List JobId)) (workers : Nat) (state : σ)
    : Except Failure σ :=
  match deps.flatten.find? (deps.length ≤ ·) with
  | some index => .error (.outOfBounds ⟨deps.length, index⟩)
  | none =>
      let pool := Pool.run task deps.length (max workers 1) (3 * deps.length + 1)
        ⟨state, .init deps, [], false⟩
      if pool.broken then .error .broken else .ok pool.state

end Schedule

end Monadize
