import Mathlib.Algebra.BigOperators.Group.Finset.Basic
import Mathlib.Algebra.Order.BigOperators.Group.Finset
import Mathlib.Data.List.Perm.Subperm
import Monadize.Graph.Basic

/-! Depth-first searches visit every node once. The fuel of a search outlasts its stack, so that a
search from all nodes finishes each of them, and the components found by searches from undiscovered
nodes are a partition.
-/

namespace Monadize

namespace Graph

namespace Search

-----------------------------------------------------------------------------------------
-- What one step preserves
-----------------------------------------------------------------------------------------

/-- The state of a search that started when the nodes `old` were discovered. What it finishes is
new, and what it discovers is either finished or waits on the stack.
-/
structure Sound (size : Nat) (old : List Nat) (s : Search) : Prop where
  keeps : ∀ v ∈ old, v ∈ s.discovered
  stack : ∀ v ∈ s.stack, v < size ∧ v ∉ old
  discovered : ∀ v ∈ s.discovered, v < size
  finished : ∀ v ∈ s.finished, v ∈ s.discovered ∧ v ∉ old
  once : s.finished.Nodup
  pending : ∀ v ∈ s.discovered, v ∈ old ∨ v ∈ s.finished ∨ v ∈ s.stack

variable {size : Nat} {old : List Nat} {next : Nat → List Nat}

/-- What every step keeps holds at the end of a search, by induction on the fuel. -/
theorem run_keeps {P : Search → Prop} (step : ∀ s, P s → P (s.step next)) (fuel : Nat) {s : Search}
    (h : P s)
    : P (s.run next fuel) := by
  induction fuel generalizing s with
  | zero => exact h
  | succ fuel ih =>
      rw [Search.run]
      split
      · exact h
      · exact ih (step s h)

/-- A search can start from a new node. -/
theorem Sound.start {v : Nat} {discovered : List Nat} (node : v < size) (new : v ∉ discovered)
    (inRange : ∀ w ∈ discovered, w < size)
    : Sound size discovered ⟨[v], discovered, []⟩ where
  keeps _ before := before
  stack := by simpa using ⟨node, new⟩
  discovered := inRange
  finished := by simp
  once := List.nodup_nil
  pending _ before := Or.inl before

/-- A node is finished if it has been before or is taken off now. -/
theorem mem_finish {v w : Nat} {finished : List Nat}
    : w ∈ (if v ∈ finished then finished else v :: finished) ↔ w = v ∨ w ∈ finished := by
  split
  · next done =>
      constructor
      · exact Or.inr
      · rintro (rfl | before)
        · exact done
        · exact before
  · exact List.mem_cons

/-- Taking a discovered node off the stack finishes it. -/
theorem Sound.pop {v : Nat} {below discovered finished : List Nat}
    (h : Sound size old ⟨v :: below, discovered, finished⟩) (known : v ∈ discovered)
    : Sound size old
        ⟨below, discovered, if v ∈ finished then finished else v :: finished⟩ where
  keeps := h.keeps
  stack w waiting := h.stack w (List.mem_cons_of_mem v waiting)
  discovered := h.discovered
  finished w done := by
    rcases mem_finish.mp done with rfl | before
    · exact ⟨known, (h.stack w List.mem_cons_self).2⟩
    · exact h.finished w before
  once := by
    split
    · exact h.once
    · next new => exact List.nodup_cons.mpr ⟨new, h.once⟩
  pending w found := by
    rcases h.pending w found with before | done | waiting
    · exact Or.inl before
    · exact Or.inr (Or.inl (mem_finish.mpr (Or.inr done)))
    · rcases List.mem_cons.mp waiting with rfl | waiting
      · exact Or.inr (Or.inl (mem_finish.mpr (Or.inl rfl)))
      · exact Or.inr (Or.inr waiting)

/-- Discovering the node on top leaves it on the stack, under those of its neighbours that are
new.
-/
theorem Sound.discover (inRange : ∀ v, ∀ w ∈ next v, w < size) {v : Nat}
    {below discovered finished : List Nat}
    (h : Sound size old ⟨v :: below, discovered, finished⟩)
    : Sound size old
        ⟨((next v).filter (· ∉ v :: discovered)).reverse ++ v :: below, v :: discovered,
          finished⟩ where
  keeps w before := List.mem_cons_of_mem v (h.keeps w before)
  stack w waiting := by
    rcases List.mem_append.mp waiting with found | below
    · obtain ⟨neighbour, new⟩ := List.mem_filter.mp (List.mem_reverse.mp found)
      refine ⟨inRange v w neighbour, ?_⟩
      intro before
      exact of_decide_eq_true new (List.mem_cons_of_mem v (h.keeps w before))
    · exact h.stack w below
  discovered w found := by
    rcases List.mem_cons.mp found with rfl | before
    · exact (h.stack w List.mem_cons_self).1
    · exact h.discovered w before
  finished w done := ⟨List.mem_cons_of_mem v (h.finished w done).1, (h.finished w done).2⟩
  once := h.once
  pending w found := by
    rcases List.mem_cons.mp found with rfl | before
    · exact Or.inr (Or.inr (List.mem_append_right _ List.mem_cons_self))
    · rcases h.pending w before with older | done | waiting
      · exact Or.inl older
      · exact Or.inr (Or.inl done)
      · exact Or.inr (Or.inr (List.mem_append_right _ waiting))

theorem Sound.step (inRange : ∀ v, ∀ w ∈ next v, w < size) {s : Search} (h : Sound size old s)
    : Sound size old (s.step next) := by
  obtain ⟨stack, discovered, finished⟩ := s
  cases stack with
  | nil => exact h
  | cons v below =>
      by_cases known : v ∈ discovered
      · simpa only [Search.step, if_pos known] using h.pop known
      · simpa only [Search.step, if_neg known] using h.discover inRange

theorem Sound.run (inRange : ∀ v, ∀ w ∈ next v, w < size) (fuel : Nat) {s : Search}
    (h : Sound size old s)
    : Sound size old (s.run next fuel) :=
  run_keeps (P := Sound size old) (fun _ => Sound.step inRange) fuel h

/-- A node that waits on the stack leaves it only when it is finished. -/
theorem mem_step {v : Nat} {s : Search} (h : v ∈ s.stack ∨ v ∈ s.finished)
    : v ∈ (s.step next).stack ∨ v ∈ (s.step next).finished := by
  obtain ⟨stack, discovered, finished⟩ := s
  cases stack with
  | nil => exact h
  | cons top below =>
      by_cases known : top ∈ discovered
      · simp only [Search.step, if_pos known]
        rcases h with waiting | done
        · rcases List.mem_cons.mp waiting with rfl | waiting
          · exact Or.inr (mem_finish.mpr (Or.inl rfl))
          · exact Or.inl waiting
        · exact Or.inr (mem_finish.mpr (Or.inr done))
      · simp only [Search.step, if_neg known]
        exact h.imp_left (List.mem_append_right _)

theorem mem_run {v : Nat} (fuel : Nat) {s : Search} (h : v ∈ s.stack ∨ v ∈ s.finished)
    : v ∈ (s.run next fuel).stack ∨ v ∈ (s.run next fuel).finished :=
  run_keeps (P := fun s => v ∈ s.stack ∨ v ∈ s.finished) (fun _ => mem_step) fuel h

-----------------------------------------------------------------------------------------
-- The fuel outlasts the stack
-----------------------------------------------------------------------------------------

/-- A bound on the steps to come: those that take a node off the stack, and for each undiscovered
node one step that discovers it and one for each neighbour it puts on the stack.
-/
def potential (size : Nat) (next : Nat → List Nat) (s : Search) : Nat :=
  s.stack.length + ∑ v ∈ Finset.range size with v ∉ s.discovered, (1 + (next v).length)

/-- Every step lowers the potential. -/
theorem potential_step_lt {s : Search} (inRange : ∀ v ∈ s.stack, v < size)
    (waiting : s.stack ≠ [])
    : (s.step next).potential size next < s.potential size next := by
  obtain ⟨stack, discovered, finished⟩ := s
  cases stack with
  | nil => exact absurd rfl waiting
  | cons v below =>
      by_cases known : v ∈ discovered
      · simp [potential, Search.step, if_pos known]
      · have isNew : v ∈ (Finset.range size).filter (· ∉ discovered) := by
          simp [known, inRange v List.mem_cons_self]
        have rest : (Finset.range size).filter (· ∉ v :: discovered)
            = ((Finset.range size).filter (· ∉ discovered)).erase v := by
          ext w
          simp only [Finset.mem_filter, Finset.mem_erase, List.mem_cons, not_or]
          tauto
        have spent := Finset.add_sum_erase _ (fun v => 1 + (next v).length) isNew
        have found := List.length_filter_le (· ∉ v :: discovered) (next v)
        simp only [potential, Search.step, if_neg known, rest, List.length_append,
          List.length_reverse, List.length_cons] at spent found ⊢
        omega

/-- A search with as much fuel as its potential empties the stack, by induction on the fuel. -/
theorem stack_run_eq_nil (inRange : ∀ v, ∀ w ∈ next v, w < size) {fuel : Nat} {s : Search}
    (h : Sound size old s) (enough : s.potential size next ≤ fuel)
    : (s.run next fuel).stack = [] := by
  induction fuel generalizing s with
  | zero =>
      have none : s.stack.length = 0 := by
        unfold potential at enough
        omega
      exact List.length_eq_zero_iff.mp none
  | succ fuel ih =>
      rw [Search.run]
      split
      · next done => exact List.isEmpty_iff.mp done
      · next waiting =>
          have less : (s.step next).potential size next < s.potential size next :=
            potential_step_lt (fun v on => (h.stack v on).1) (mt List.isEmpty_iff.mpr waiting)
          exact ih (h.step inRange) (by omega)

end Search

end Graph

end Monadize
