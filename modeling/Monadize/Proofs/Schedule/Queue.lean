import Mathlib.Data.List.Count
import Mathlib.Data.List.Nodup
import Monadize.Schedule

/-! The queue of jobs. Finishing a job takes its entries off the dependency lists of all others, and
makes those ready whose last entries these were.
-/

namespace Monadize

namespace Schedule

namespace Queue

/-- The number of entries that a job waits for. -/
def left (q : Queue) (job : JobId) : Nat := q.waiting[job]?.getD 0

-----------------------------------------------------------------------------------------
-- Releasing
-----------------------------------------------------------------------------------------

theorem left_release (q : Queue) (d job : JobId)
    : (q.release d).left job = if job = d then q.left d - 1 else q.left job := by
  simp only [left, release, List.getElem?_set]
  split
  · next same =>
      subst same
      split
      · next inside => simp
      · next outside =>
          rw [if_pos rfl, List.getElem?_eq_none (Nat.not_lt.mp outside)]
          rfl
  · next differs => rw [if_neg (Ne.symm differs)]

theorem ready_release (q : Queue) (d : JobId)
    : (q.release d).ready = q.ready ++ if q.left d - 1 = 0 then [d] else [] := by
  by_cases last : q.waiting[d]?.getD 0 - 1 = 0
  · simp [release, left, last]
  · simp [release, left, last]

/-- The second queue is the first one with one entry less for each of the given jobs, as often as
they are given.
-/
structure Releases (q : Queue) (jobs : List JobId) (q' : Queue) : Prop where
  left : ∀ job, q'.left job = q.left job - jobs.count job
  ready
    : ∃ new,
        q'.ready = q.ready ++ new
        ∧ new.Nodup
        ∧ ∀ job, job ∈ new ↔ job ∈ jobs ∧ q.left job = jobs.count job
  dependents : q'.dependents = q.dependents
  done : q'.done = q.done
  stopped : q'.stopped = q.stopped

/-- Jobs are released one after the other, by induction on them. No job is released more often than
it waits, so that each becomes ready once at most.
-/
theorem releases_foldl {q : Queue} {jobs : List JobId}
    (enough : ∀ job, jobs.count job ≤ q.left job)
    : Releases q jobs (jobs.foldl release q) := by
  induction jobs generalizing q with
  | nil => exact ⟨fun _ => rfl, ⟨[], (List.append_nil _).symm, .nil, by simp⟩, rfl, rfl, rfl⟩
  | cons d rest ih =>
      have own : rest.count d + 1 ≤ q.left d := by simpa using enough d
      have other {job : JobId} (differs : job ≠ d) : (d :: rest).count job = rest.count job :=
        List.count_cons_of_ne (Ne.symm differs)
      have enoughRest : ∀ job, rest.count job ≤ (q.release d).left job := by
        intro job
        rw [left_release]
        split
        · next same =>
            subst same
            omega
        · next differs => exact other differs ▸ enough job
      obtain ⟨left, ⟨new, ready, once, members⟩, dependents, done, stopped⟩ := ih enoughRest
      refine ⟨?_, ⟨(if q.left d - 1 = 0 then [d] else []) ++ new, ?_, ?_, ?_⟩, dependents, done,
        stopped⟩
      · intro job
        rw [List.foldl_cons, left, left_release]
        split
        · next same =>
            subst same
            rw [List.count_cons_self]
            omega
        · next differs => rw [other differs]
      · rw [List.foldl_cons, ready, ready_release, List.append_assoc]
      · refine List.Nodup.append (by split <;> simp) once ?_
        intro job first second
        split at first
        · next last =>
            obtain rfl := List.mem_singleton.mp first
            have again := List.count_pos_iff.mpr ((members job).mp second).1
            omega
        · cases first
      · intro job
        rw [List.mem_append, members, left_release]
        by_cases same : job = d
        · subst same
          simp only [if_true, List.mem_cons, true_or, true_and, List.count_cons_self]
          have positive : job ∈ rest ↔ 0 < rest.count job := List.count_pos_iff.symm
          rw [positive]
          split
          · simp only [List.mem_singleton, true_or, true_iff]
            omega
          · simp only [List.not_mem_nil, false_or]
            omega
        · have outside : job ∉ if q.left d - 1 = 0 then [d] else [] := by
            split <;> simp [same]
          simp only [outside, same, if_false, List.mem_cons, false_or, other same]

-----------------------------------------------------------------------------------------
-- Dependents
-----------------------------------------------------------------------------------------

/-- A job is among the dependents of another one as often as it lists it. -/
theorem count_dependentsOf (deps : List (List JobId)) (job j : Nat)
    : (dependentsOf (links deps) job).count j = (deps[j]?.getD []).count job := by
  have own (ds : List JobId) (i : JobId)
      : (dependentsOf (ds.map fun d => (d, i)) job).count j
        = if j = i then ds.count job else 0 := by
    induction ds with
    | nil => simp [dependentsOf]
    | cons d rest ih =>
        simp only [dependentsOf, List.map_cons, List.filter_cons] at ih ⊢
        by_cases same : d = job <;> by_cases here : j = i <;> simp_all [eq_comm]
  have general (deps : List (List JobId)) (start : Nat)
      : (dependentsOf ((deps.zipIdx start).flatMap fun entry => entry.1.map fun d => (d, entry.2))
          job).count j
        = if start ≤ j then (deps[j - start]?.getD []).count job else 0 := by
    induction deps generalizing start with
    | nil => simp [dependentsOf]
    | cons ds rest ih =>
        have split (a b : List (JobId × JobId))
            : dependentsOf (a ++ b) job = dependentsOf a job ++ dependentsOf b job := by
          simp [dependentsOf]
        rw [List.zipIdx_cons, List.flatMap_cons, split, List.count_append, own, ih]
        rcases Nat.lt_trichotomy j start with before | rfl | behind
        · rw [if_neg (Nat.ne_of_lt before), if_neg (Nat.not_le.mpr before),
            if_neg (Nat.not_le.mpr (Nat.lt_succ_of_lt before))]
        · rw [if_pos rfl, if_neg (Nat.not_succ_le_self j), if_pos (Nat.le_refl j), Nat.sub_self]
          rfl
        · have next : j - start = j - (start + 1) + 1 := by omega
          rw [if_neg (Nat.ne_of_gt behind), if_pos (show start + 1 ≤ j from behind),
            if_pos (Nat.le_of_lt behind), next, List.getElem?_cons_succ, Nat.zero_add]
  exact (general deps 0).trans (if_pos (Nat.zero_le j))

/-- The jobs that a finished job releases. -/
theorem getElem?_dependents_init (deps : List (List JobId)) {job : JobId}
    (inside : job < deps.length)
    : (init deps).dependents[job]? = some (dependentsOf (links deps) job) := by
  simp [init, inside]

theorem left_init (deps : List (List JobId)) (job : JobId)
    : (init deps).left job = (deps[job]?.getD []).length := by
  simp only [left, init, List.getElem?_map]
  cases deps[job]? <;> rfl

theorem mem_ready_init {deps : List (List JobId)} {job : JobId}
    : job ∈ (init deps).ready ↔ deps[job]? = some [] := by
  simp only [init, List.mem_map, List.mem_filter, List.isEmpty_iff, Prod.exists,
    List.mem_zipIdx_iff_getElem?]
  constructor
  · rintro ⟨ds, i, ⟨here, rfl⟩, rfl⟩
    exact here
  · intro here
    exact ⟨[], job, ⟨here, rfl⟩, rfl⟩

theorem nodup_ready_init (deps : List (List JobId)) : (init deps).ready.Nodup := by
  have indices : (deps.zipIdx.map Prod.snd).Nodup := by
    rw [List.zipIdx_map_snd]
    exact List.nodup_range'
  exact List.Nodup.sublist (List.Sublist.map _ List.filter_sublist) indices

end Queue

end Schedule

end Monadize
