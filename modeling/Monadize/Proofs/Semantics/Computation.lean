import Mathlib.Logic.Basic
import Monadize.Basic

/-! Nondeterministic computations with exceptions and failure, and the operations that monadic terms
are made of. Failure is kept apart from the ways in which a computation ends: where it may fail, the
other ends are still there, but nothing is promised about them.
-/

namespace Monadize

/-- How a computation ends if it does. -/
inductive Ending (σ : Type*) where
  | normal (state : σ)
  | exception (state : σ)

@[ext] structure Computation (σ : Type*) where
  /-- From the state it may end like this. -/
  ends : σ → Ending σ → Prop
  /-- From the state it may fail. -/
  fails : σ → Prop

namespace Computation

variable {σ : Type*}

/-- Computations that end and fail alike from every state are the same. -/
theorem eq_of_iff {a b : Computation σ} (ends : ∀ s o, a.ends s o ↔ b.ends s o)
    (fails : ∀ s, a.fails s ↔ b.fails s)
    : a = b := by
  apply Computation.ext
  · funext s o
    exact propext (ends s o)
  · funext s
    exact propext (fails s)

-----------------------------------------------------------------------------------------
-- Operations
-----------------------------------------------------------------------------------------

def skip : Computation σ where
  ends s o := o = .normal s
  fails _ := False

def throw : Computation σ where
  ends s o := o = .exception s
  fails _ := False

def fail : Computation σ where
  ends _ _ := False
  fails _ := True

def modify (f : σ → σ) : Computation σ where
  ends s o := o = .normal (f s)
  fails _ := False

/-- Go to any state that the relation allows, and fail if it allows none. -/
def choose (rel : σ → σ → Prop) : Computation σ where
  ends s o := ∃ t, rel s t ∧ o = .normal t
  fails s := ∀ t, ¬ rel s t

def guard (p : σ → Prop) : Computation σ where
  ends s o := p s ∧ o = .normal s
  fails s := ¬ p s

def seq (a b : Computation σ) : Computation σ where
  ends s o :=
    (∃ t, a.ends s (.normal t) ∧ b.ends t o) ∨ ∃ t, o = .exception t ∧ a.ends s (.exception t)
  fails s := a.fails s ∨ ∃ t, a.ends s (.normal t) ∧ b.fails t

def tryCatch (a b : Computation σ) : Computation σ where
  ends s o :=
    (∃ t, o = .normal t ∧ a.ends s (.normal t)) ∨ ∃ t, a.ends s (.exception t) ∧ b.ends t o
  fails s := a.fails s ∨ ∃ t, a.ends s (.exception t) ∧ b.fails t

def condition (p : σ → Prop) (a b : Computation σ) : Computation σ where
  ends s o := (p s ∧ a.ends s o) ∨ (¬ p s ∧ b.ends s o)
  fails s := (p s ∧ a.fails s) ∨ (¬ p s ∧ b.fails s)

/-- How a loop ends: after finitely many rounds, or by an exception in one of them. -/
inductive LoopEnds (p : σ → Prop) (a : Computation σ) : σ → Ending σ → Prop
  | done {s} (exit : ¬ p s) : LoopEnds p a s (.normal s)
  | round {s t o} (enter : p s) (body : a.ends s (.normal t)) (rest : LoopEnds p a t o)
    : LoopEnds p a s o
  | leave {s t} (enter : p s) (body : a.ends s (.exception t)) : LoopEnds p a s (.exception t)

/-- No round of a loop can fail, and the loop cannot go on forever: being safe is inductive, so that
there is no infinite sequence of rounds.
-/
inductive LoopSafe (p : σ → Prop) (a : Computation σ) : σ → Prop
  | done {s} (exit : ¬ p s) : LoopSafe p a s
  | round {s} (enter : p s) (body : ¬ a.fails s)
    (rest : ∀ t, a.ends s (.normal t) → LoopSafe p a t)
    : LoopSafe p a s

def loop (p : σ → Prop) (a : Computation σ) : Computation σ where
  ends := LoopEnds p a
  fails s := ¬ LoopSafe p a s

/-- Call a computation: `setup` makes its initial state, `cleanup` the caller's state after it, and
`result` stores its result. An exception that leaves the callee is a failure of the call.
-/
def call (setup : σ → σ) (callee : Computation σ) (cleanup : σ → σ → σ) (result : σ → σ → σ → σ)
    : Computation σ where
  ends s o :=
    ∃ t, callee.ends (setup s) (.normal t) ∧ o = .normal (result t s (cleanup s t))
  fails s := callee.fails (setup s) ∨ ∃ t, callee.ends (setup s) (.exception t)

/-- Run at some measure: it fails only if it does at every measure. -/
def managed (f : Nat → Computation σ) : Computation σ where
  ends s o := ∃ m, (f m).ends s o
  fails s := ∀ m, (f m).fails s

/-- Fail at measure zero. -/
def recGuard (measure : Nat) (a : Computation σ) : Computation σ :=
  if measure = 0 then fail else a

-----------------------------------------------------------------------------------------
-- Laws
-----------------------------------------------------------------------------------------

theorem guard_of_forall {p : σ → Prop} (always : ∀ s, p s) : guard p = skip := by
  apply eq_of_iff
  · intro s o
    simp [guard, skip, always s]
  · intro s
    simp [guard, skip, always s]

theorem guard_of_forall_not {p : σ → Prop} (never : ∀ s, ¬ p s) : guard p = fail := by
  apply eq_of_iff
  · intro s o
    simp [guard, fail, never s]
  · intro s
    simp [guard, fail, never s]

theorem skip_seq (a : Computation σ) : skip.seq a = a := by
  apply eq_of_iff
  · intro s o
    simp [seq, skip]
  · intro s
    simp [seq, skip]

theorem seq_skip (a : Computation σ) : a.seq skip = a := by
  apply eq_of_iff
  · intro s o
    cases o <;> simp [seq, skip]
  · intro s
    simp [seq, skip]

theorem fail_seq (a : Computation σ) : fail.seq a = fail := by
  apply eq_of_iff
  · intro s o
    simp [seq, fail]
  · intro s
    simp [seq, fail]

theorem throw_seq (a : Computation σ) : throw.seq a = throw := by
  apply eq_of_iff
  · intro s o
    cases o <;> simp [seq, throw]
  · intro s
    simp [seq, throw]

theorem modify_seq_fail (f : σ → σ) : (modify f).seq fail = fail := by
  apply eq_of_iff
  · intro s o
    simp [seq, modify, fail]
  · intro s
    simp [seq, modify, fail]

/-- Failure after a choice is failure: it fails for want of a choice, or after the one made. -/
theorem choose_seq_fail (rel : σ → σ → Prop) : (choose rel).seq fail = fail := by
  apply eq_of_iff
  · intro s o
    simp [seq, choose, fail]
  · intro s
    simp only [seq, choose, fail, and_true, iff_true]
    by_cases some : ∃ t, rel s t
    · obtain ⟨t, allowed⟩ := some
      exact Or.inr ⟨t, t, allowed, rfl⟩
    · exact Or.inl (not_exists.mp some)

theorem condition_of_forall {p : σ → Prop} (always : ∀ s, p s) (a b : Computation σ)
    : condition p a b = a := by
  apply eq_of_iff
  · intro s o
    simp [condition, always s]
  · intro s
    simp [condition, always s]

theorem condition_of_forall_not {p : σ → Prop} (never : ∀ s, ¬ p s) (a b : Computation σ)
    : condition p a b = b := by
  apply eq_of_iff
  · intro s o
    simp [condition, never s]
  · intro s
    simp [condition, never s]

theorem condition_self (p : σ → Prop) (a : Computation σ) : condition p a a = a := by
  apply eq_of_iff
  · intro s o
    by_cases h : p s <;> simp [condition, h]
  · intro s
    by_cases h : p s <;> simp [condition, h]

theorem loop_of_forall_not {p : σ → Prop} (never : ∀ s, ¬ p s) (a : Computation σ)
    : loop p a = skip := by
  apply eq_of_iff
  · intro s o
    constructor
    · intro run
      cases run with
      | done => rfl
      | round enter => exact absurd enter (never s)
      | leave enter => exact absurd enter (never s)
    · rintro rfl
      exact .done (never s)
  · intro s
    constructor
    · intro failing
      exact failing (.done (never s))
    · exact False.elim

theorem throw_tryCatch (a : Computation σ) : throw.tryCatch a = a := by
  apply eq_of_iff
  · intro s o
    simp [tryCatch, throw]
  · intro s
    simp [tryCatch, throw]

theorem tryCatch_throw (a : Computation σ) : a.tryCatch throw = a := by
  apply eq_of_iff
  · intro s o
    cases o <;> simp [tryCatch, throw]
  · intro s
    simp [tryCatch, throw]

-----------------------------------------------------------------------------------------
-- Computations without exceptions
-----------------------------------------------------------------------------------------

/-- From no state the computation ends with an exception. -/
def NeverThrows (a : Computation σ) : Prop := ∀ s t, ¬ a.ends s (.exception t)

theorem tryCatch_of_neverThrows {a : Computation σ} (h : a.NeverThrows) (b : Computation σ)
    : a.tryCatch b = a := by
  apply eq_of_iff
  · intro s o
    cases o <;> simp [tryCatch, h s]
  · intro s
    simp [tryCatch, h s]

theorem NeverThrows.seq {a b : Computation σ} (ha : a.NeverThrows) (hb : b.NeverThrows)
    : (a.seq b).NeverThrows := by
  rintro s t (⟨u, _, second⟩ | ⟨u, _, first⟩)
  · exact hb u t second
  · exact ha s u first

theorem NeverThrows.condition {p : σ → Prop} {a b : Computation σ} (ha : a.NeverThrows)
    (hb : b.NeverThrows)
    : (condition p a b).NeverThrows := by
  rintro s t (⟨_, left⟩ | ⟨_, right⟩)
  · exact ha s t left
  · exact hb s t right

/-- Only the handler lets an exception out. -/
theorem NeverThrows.tryCatch (a : Computation σ) {b : Computation σ} (hb : b.NeverThrows)
    : (a.tryCatch b).NeverThrows := by
  rintro s t (⟨u, same, _⟩ | ⟨u, _, handler⟩)
  · cases same
  · exact hb u t handler

/-- A loop throws only if a round does, by induction on the rounds. -/
theorem NeverThrows.loop {p : σ → Prop} {a : Computation σ} (ha : a.NeverThrows)
    : (loop p a).NeverThrows := by
  intro s t run
  change LoopEnds p a s (.exception t) at run
  generalize ending : Ending.exception t = o at run
  induction run with
  | done => cases ending
  | round _ _ _ ih => exact ih ending
  | leave _ body => exact ha _ _ body

theorem NeverThrows.recGuard (measure : Nat) {a : Computation σ} (ha : a.NeverThrows)
    : (recGuard measure a).NeverThrows := by
  unfold Computation.recGuard
  split
  · intro _ _ run
    exact run
  · exact ha

end Computation

end Monadize
