import Mathlib.Logic.Function.Basic
import Monadize.Proofs.Expr.Simplification

/-! What expressions mean: a strict, partial, first-order denotation. A state maps component names
to base values, abstractions and set comprehensions bind states, and an expression whose parts
do not fit together has no value.
-/

namespace Monadize

namespace Expr

/-- Induction over expressions in which an abstraction that meets a single argument counts as a form
of its own, with its body as a part. -/
theorem redexInduction {motive : Expr → Prop} (var : ∀ name, motive (.var name))
    (const : ∀ name, motive (.const name)) (num : ∀ value, motive (.num value))
    (bool : ∀ value, motive (.bool value)) (not : ∀ e, motive e → motive (.not e))
    (and : ∀ a b, motive a → motive b → motive (.and a b))
    (or : ∀ a b, motive a → motive b → motive (.or a b))
    (eq : ∀ a b, motive a → motive b → motive (.eq a b))
    (redex : ∀ x type body arg, motive body → motive arg → motive (.app (.lam x type body) [arg]))
    (app : ∀ fn args, isRedex fn args.length = false → motive fn → (∀ arg ∈ args, motive arg)
      → motive (.app fn args))
    (lam : ∀ x type body, motive body → motive (.lam x type body)) (univ : motive .univ)
    (empty : motive .empty) (collect : ∀ x body, motive body → motive (.collect x body))
    (mem : ∀ elem set, motive elem → motive set → motive (.mem elem set))
    (field : ∀ state name, motive state → motive (.field state name))
    (update : ∀ state name value, motive state → motive value → motive (.update state name value))
    (arbitrary : motive .arbitrary) (e : Expr)
    : motive e := by
  -- The body of an abstraction is carried along until the application around it is reached.
  suffices both : motive e ∧ ∀ x type body, e = .lam x type body → motive body from both.1
  induction e with
  | var x => exact ⟨var x, nofun⟩
  | const c => exact ⟨const c, nofun⟩
  | num n => exact ⟨num n, nofun⟩
  | bool b => exact ⟨bool b, nofun⟩
  | not e ih => exact ⟨not e ih.1, nofun⟩
  | and a b iha ihb => exact ⟨and a b iha.1 ihb.1, nofun⟩
  | or a b iha ihb => exact ⟨or a b iha.1 ihb.1, nofun⟩
  | eq a b iha ihb => exact ⟨eq a b iha.1 ihb.1, nofun⟩
  | app fn args ihf ihargs =>
      refine ⟨?_, nofun⟩
      by_cases stuck : isRedex fn args.length = false
      · exact app fn args stuck ihf.1 fun arg among => (ihargs arg among).1
      · unfold isRedex at stuck
        split at stuck
        · next x type body single =>
            obtain ⟨arg, rfl⟩ := List.length_eq_one_iff.mp single
            exact redex x type body arg (ihf.2 x type body rfl) (ihargs arg (by simp)).1
        · exact (stuck rfl).elim
  | lam x type body ih =>
      refine ⟨lam x type body ih.1, fun x' type' body' same => ?_⟩
      cases same
      exact ih.1
  | univ => exact ⟨univ, nofun⟩
  | empty => exact ⟨empty, nofun⟩
  | collect x body ih => exact ⟨collect x body ih.1, nofun⟩
  | mem elem set iha ihb => exact ⟨mem elem set iha.1 ihb.1, nofun⟩
  | field state name ih => exact ⟨field state name ih.1, nofun⟩
  | update state name value iha ihb => exact ⟨update state name value iha.1 ihb.1, nofun⟩
  | arbitrary => exact ⟨arbitrary, nofun⟩

variable {α ω : Type}

/-- A truth value, a number or another value that a component of a state can hold. -/
inductive Base (α : Type) where
  | bool (b : Bool)
  | num (n : UInt64)
  | other (a : α)

/-- What each component of a state can hold. -/
structure Schema (α : Type) where
  holds : Name → Base α → Prop
  inhabited : ∀ name, ∃ b, holds name b

/-- A state of the schema: a value for each component. -/
structure State (schema : Schema α) where
  get : Name → Base α
  fits : ∀ name, schema.holds name (get name)

namespace State

variable {schema : Schema α}

theorem nonempty (schema : Schema α) : Nonempty (State schema) :=
  ⟨fun name => (schema.inhabited name).choose, fun name => (schema.inhabited name).choose_spec⟩

def set (s : State schema) (name : Name) (b : Base α) (fit : schema.holds name b) : State schema where
  get := Function.update s.get name b
  fits other := by
    by_cases same : other = name
    · subst same
      rwa [Function.update_self]
    · rw [Function.update_of_ne same]
      exact s.fits other

theorem get_set {s : State schema} {name : Name} {b : Base α} {fit : schema.holds name b}
    : (s.set name b fit).get name = b :=
  Function.update_self ..

theorem get_set_of_ne {s : State schema} {name other : Name} {b : Base α}
    {fit : schema.holds name b} (differ : other ≠ name)
    : (s.set name b fit).get other = s.get other :=
  Function.update_of_ne differ ..

end State

variable {schema : Schema α}

/-- Functions take a state; operations, which constants stand for, take any list of values. -/
inductive Value (schema : Schema α) (ω : Type) where
  | base (b : Base α)
  | state (s : State schema)
  | set (members : State schema → Bool)
  | fn (f : State schema → Value schema ω)
  | op (o : ω)

namespace Value

abbrev truth (b : Bool) : Value schema ω := .base (.bool b)

def truth? : Value schema ω → Option Bool
  | .base (.bool b) => some b
  | _ => none

def base? : Value schema ω → Option (Base α)
  | .base b => some b
  | _ => none

def state? : Value schema ω → Option (State schema)
  | .state s => some s
  | _ => none

def set? : Value schema ω → Option (State schema → Bool)
  | .set members => some members
  | _ => none

inductive Kind where
  | bool
  | num
  | other
  | state
  | set
  | fn
  | op
  deriving DecidableEq

/-- Only values of one kind can be compared. -/
def kind : Value schema ω → Kind
  | .base (.bool _) => .bool
  | .base (.num _) => .num
  | .base (.other _) => .other
  | .state _ => .state
  | .set _ => .set
  | .fn _ => .fn
  | .op _ => .op

theorem truth?_eq_some {v : Value schema ω} {b : Bool} : v.truth? = some b ↔ v = .truth b := by
  cases v with
  | base value => cases value <;> simp [truth?]
  | _ => simp [truth?]

theorem base?_eq_some {v : Value schema ω} {b : Base α} : v.base? = some b ↔ v = .base b := by
  cases v <;> simp [base?]

theorem state?_eq_some {v : Value schema ω} {s : State schema} : v.state? = some s ↔ v = .state s := by
  cases v <;> simp [state?]

theorem set?_eq_some {v : Value schema ω} {members : State schema → Bool}
    : v.set? = some members ↔ v = .set members := by
  cases v <;> simp [set?]

end Value

abbrev Valuation (schema : Schema α) (ω : Type) := Name → Value schema ω

/-- A meaning of the constants, of the operations and of the unspecified value. -/
structure Model (schema : Schema α) (ω : Type) where
  const : Name → Option (Value schema ω)
  operate : ω → List (Value schema ω) → Option (Value schema ω)
  arbitrary : Value schema ω

namespace Model

variable (M : Model schema ω)

/-- Apply a value to values; a function takes one state. -/
def apply : Value schema ω → List (Value schema ω) → Option (Value schema ω)
  | .fn f, [.state s] => some (f s)
  | .op o, args => M.operate o args
  | _, _ => none

open Classical in
mutual
/-- The value of an expression, if it has one. A single argument of an abstraction is bound, of
whatever kind its value is. -/
noncomputable def denote : Expr → Valuation schema ω → Option (Value schema ω)
  | .var x, ρ => some (ρ x)
  | .const c, _ => M.const c
  | .num n, _ => some (.base (.num n))
  | .bool b, _ => some (.truth b)
  | .not e, ρ => do
      let b ← (← denote e ρ).truth?
      return .truth (!b)
  | .and a b, ρ => do
      let p ← (← denote a ρ).truth?
      let q ← (← denote b ρ).truth?
      return .truth (p && q)
  | .or a b, ρ => do
      let p ← (← denote a ρ).truth?
      let q ← (← denote b ρ).truth?
      return .truth (p || q)
  | .eq a b, ρ => do
      let v ← denote a ρ
      let w ← denote b ρ
      if v.kind = w.kind then return .truth (decide (v = w)) else none
  | .app fn args, ρ =>
      match fn, args with
      | .lam x _ body, [arg] => do denote body (Function.update ρ x (← denote arg ρ))
      | fn, args => do M.apply (← denote fn ρ) (← denoteAll args ρ)
  | .lam x _ body, ρ =>
      if ∀ s, (denote body (Function.update ρ x (.state s))).isSome then
        some (.fn fun s => (denote body (Function.update ρ x (.state s))).getD M.arbitrary)
      else none
  | .univ, _ => some (.set fun _ => true)
  | .empty, _ => some (.set fun _ => false)
  | .collect x body, ρ =>
      if ∀ s, ∃ b, denote body (Function.update ρ x (.state s)) = some (.truth b) then
        some (.set fun s => decide (denote body (Function.update ρ x (.state s)) = some (.truth true)))
      else none
  | .mem elem set, ρ => do
      let s ← (← denote elem ρ).state?
      let members ← (← denote set ρ).set?
      return .truth (members s)
  | .field state name, ρ => do
      let s ← (← denote state ρ).state?
      return .base (s.get name)
  | .update state name value, ρ => do
      let s ← (← denote state ρ).state?
      let b ← (← denote value ρ).base?
      if fit : schema.holds name b then return .state (s.set name b fit) else none
  | .arbitrary, _ => some M.arbitrary

noncomputable def denoteAll : List Expr → Valuation schema ω → Option (List (Value schema ω))
  | [], _ => some []
  | e :: es, ρ => do return (← denote e ρ) :: (← denoteAll es ρ)
end

variable {M} {ρ ρ' : Valuation schema ω} {v : Value schema ω}

attribute [local simp] denote denoteAll

theorem denoteAll_eq_some_iff {es : List Expr} {vs : List (Value schema ω)}
    : M.denoteAll es ρ = some vs ↔ List.Forall₂ (fun e v => M.denote e ρ = some v) es vs := by
  induction es generalizing vs with
  | nil => simp [denoteAll, eq_comm]
  | cons e es ih =>
      simp only [denoteAll, Option.bind_eq_bind, Option.pure_def, Option.bind_eq_some_iff, ih,
        Option.some.injEq, List.forall₂_cons_left_iff]
      constructor
      · intro ⟨first, value, others, values, same⟩
        exact ⟨first, others, value, values, same.symm⟩
      · intro ⟨first, others, value, values, same⟩
        exact ⟨first, value, others, values, same.symm⟩

theorem denote_not {e : Expr}
    : M.denote (.not e) ρ = some v
      ↔ ∃ b, M.denote e ρ = some (.truth b) ∧ v = .truth (!b) := by
  simp [Option.bind_eq_some_iff, Value.truth?_eq_some, @eq_comm _ v,
    -Bool.exists_bool]

theorem denote_and {a b : Expr}
    : M.denote (.and a b) ρ = some v
      ↔ ∃ p q, M.denote a ρ = some (.truth p) ∧ M.denote b ρ = some (.truth q)
        ∧ v = .truth (p && q) := by
  simp [Option.bind_eq_some_iff, Value.truth?_eq_some, @eq_comm _ v,
    -Bool.exists_bool]

theorem denote_or {a b : Expr}
    : M.denote (.or a b) ρ = some v
      ↔ ∃ p q, M.denote a ρ = some (.truth p) ∧ M.denote b ρ = some (.truth q)
        ∧ v = .truth (p || q) := by
  simp [Option.bind_eq_some_iff, Value.truth?_eq_some, @eq_comm _ v,
    -Bool.exists_bool]

open Classical in
theorem denote_eq {a b : Expr}
    : M.denote (.eq a b) ρ = some v
      ↔ ∃ p q, M.denote a ρ = some p ∧ M.denote b ρ = some q ∧ p.kind = q.kind
        ∧ v = .truth (decide (p = q)) := by
  simp [Option.bind_eq_some_iff, @eq_comm _ v]

theorem denote_redex {x : Name} {type : Option Name} {body arg : Expr}
    : M.denote (.app (.lam x type body) [arg]) ρ = some v
      ↔ ∃ w, M.denote arg ρ = some w ∧ M.denote body (Function.update ρ x w) = some v := by
  simp [Option.bind_eq_some_iff]

theorem denote_app_eq {fn : Expr} {args : List Expr} (stuck : isRedex fn args.length = false)
    : M.denote (.app fn args) ρ
      = (M.denote fn ρ).bind fun f => (M.denoteAll args ρ).bind fun vs => M.apply f vs := by
  rw [denote]
  · rfl
  · intro x type body arg same single
    subst same single
    cases stuck

theorem denote_app {fn : Expr} {args : List Expr} (stuck : isRedex fn args.length = false)
    : M.denote (.app fn args) ρ = some v
      ↔ ∃ f vs, M.denote fn ρ = some f
        ∧ List.Forall₂ (fun e v => M.denote e ρ = some v) args vs ∧ M.apply f vs = some v := by
  simp [denote_app_eq stuck, Option.bind_eq_some_iff, denoteAll_eq_some_iff]

theorem denote_lam {x : Name} {type : Option Name} {body : Expr}
    : M.denote (.lam x type body) ρ = some v
      ↔ ∃ f, (∀ s, M.denote body (Function.update ρ x (.state s)) = some (f s)) ∧ v = .fn f := by
  rw [denote]
  constructor
  · intro value
    split at value
    · next all =>
        refine ⟨_, fun s => ?_, (Option.some.inj value).symm⟩
        obtain ⟨w, result⟩ := Option.isSome_iff_exists.mp (all s)
        rw [result, Option.getD_some]
    · cases value
  · intro ⟨f, all, same⟩
    subst same
    simp [all]

theorem denote_collect {x : Name} {body : Expr}
    : M.denote (.collect x body) ρ = some v
      ↔ ∃ members,
          (∀ s, M.denote body (Function.update ρ x (.state s)) = some (.truth (members s)))
          ∧ v = .set members := by
  rw [denote]
  constructor
  · intro value
    split at value
    · next all =>
        refine ⟨_, fun s => ?_, (Option.some.inj value).symm⟩
        obtain ⟨b, result⟩ := all s
        cases b <;> simp [result]
    · cases value
  · intro ⟨members, all, same⟩
    subst same
    simp [all]

theorem denote_mem {elem set : Expr}
    : M.denote (.mem elem set) ρ = some v
      ↔ ∃ s members, M.denote elem ρ = some (.state s) ∧ M.denote set ρ = some (.set members)
        ∧ v = .truth (members s) := by
  simp [Option.bind_eq_some_iff, Value.state?_eq_some, Value.set?_eq_some, @eq_comm _ v]

theorem denote_field {state : Expr} {name : Name}
    : M.denote (.field state name) ρ = some v
      ↔ ∃ s, M.denote state ρ = some (.state s) ∧ v = .base (s.get name) := by
  simp [Option.bind_eq_some_iff, Value.state?_eq_some, @eq_comm _ v]

theorem denote_update {state value : Expr} {name : Name}
    : M.denote (.update state name value) ρ = some v
      ↔ ∃ s b fit, M.denote state ρ = some (.state s) ∧ M.denote value ρ = some (.base b)
        ∧ v = .state (s.set name b fit) := by
  simp [Option.bind_eq_some_iff, Value.state?_eq_some, Value.base?_eq_some, @eq_comm _ v]

theorem apply_eq_some_iff {f : Value schema ω} {args : List (Value schema ω)}
    : M.apply f args = some v
      ↔ (∃ g s, f = .fn g ∧ args = [.state s] ∧ v = g s)
        ∨ ∃ o, f = .op o ∧ M.operate o args = some v := by
  unfold apply
  split
  · simp [eq_comm]
  · simp
  · next noOp noFn =>
      refine iff_of_false nofun ?_
      intro given
      rcases given with ⟨g, s, same, single, _⟩ | ⟨o, same, _⟩
      · exact noFn g s same single
      · exact noOp o same

-----------------------------------------------------------------------------------------
-- Values depend on the free names only
-----------------------------------------------------------------------------------------

theorem update_agree {names : List Name} {x : Name}
    (agree : ∀ w ∈ names.filter (· ≠ x), ρ w = ρ' w) (v : Value schema ω)
    : ∀ w ∈ names, Function.update ρ x v w = Function.update ρ' x v w := by
  intro w among
  by_cases same : w = x
  · rw [same, Function.update_self, Function.update_self]
  · rw [Function.update_of_ne same, Function.update_of_ne same]
    exact agree w (List.mem_filter.mpr ⟨among, decide_eq_true same⟩)

theorem denoteAll_congr {es : List Expr} (each : ∀ e ∈ es, M.denote e ρ = M.denote e ρ')
    : M.denoteAll es ρ = M.denoteAll es ρ' := by
  induction es with
  | nil => rfl
  | cons e es ih =>
      rw [denoteAll, denoteAll, each e List.mem_cons_self,
        ih fun e among => each e (List.mem_cons_of_mem _ among)]

theorem denote_congr {e : Expr} (agree : ∀ w ∈ e.freeNames, ρ w = ρ' w)
    : M.denote e ρ = M.denote e ρ' := by
  induction e using redexInduction generalizing ρ ρ' with
  | var x => rw [denote, denote, agree x (List.mem_singleton.mpr rfl)]
  | const | num | bool | univ | empty | arbitrary => rfl
  | not e ih | field e _ ih => rw [denote, denote, ih agree]
  | and a b iha ihb | or a b iha ihb | eq a b iha ihb | mem a b iha ihb | update a _ b iha ihb =>
      rw [freeNames, List.forall_mem_append] at agree
      rw [denote, denote, iha agree.1, ihb agree.2]
  | redex x type body arg ihbody iharg =>
      simp only [freeNames, freeNamesAll, List.append_nil, List.forall_mem_append] at agree
      have bodies (v : Value schema ω)
          : M.denote body (Function.update ρ x v) = M.denote body (Function.update ρ' x v) :=
        ihbody (update_agree agree.1 v)
      simp only [denote, iharg agree.2, bodies]
  | app fn args stuck ihf ihargs =>
      rw [freeNames, List.forall_mem_append] at agree
      have operands : M.denoteAll args ρ = M.denoteAll args ρ' := by
        refine denoteAll_congr fun arg among => ihargs arg among fun w inside => ?_
        exact agree.2 w (mem_freeNamesAll.mpr ⟨arg, among, inside⟩)
      rw [denote_app_eq stuck, denote_app_eq stuck, ihf agree.1, operands]
  | lam x type body ih | collect x body ih =>
      have bodies (v : Value schema ω)
          : M.denote body (Function.update ρ x v) = M.denote body (Function.update ρ' x v) :=
        ih (update_agree agree v)
      refine Option.ext fun v => ?_
      simp only [denote_lam, denote_collect, bodies]

/-- Binding a name that does not occur free changes nothing. -/
theorem denote_update_of_notMem {e : Expr} {x : Name} (absent : x ∉ e.freeNames) (w : Value schema ω)
    : M.denote e (Function.update ρ x w) = M.denote e ρ := by
  refine denote_congr fun y free => ?_
  have differ : y ≠ x := fun same => absent (same ▸ free)
  rw [Function.update_of_ne differ]

-----------------------------------------------------------------------------------------
-- The laws of a single node
-----------------------------------------------------------------------------------------

theorem denote_num {n : UInt64} : M.denote (.num n) ρ = some (.base (.num n)) := by
  rw [denote]

theorem denote_bool {b c : Bool} : M.denote (.bool b) ρ = some (.truth c) ↔ b = c := by
  simp

theorem denote_foldNot {e : Expr} {b : Bool} (value : M.denote e ρ = some (.truth b))
    : M.denote (foldNot e) ρ = some (.truth (!b)) := by
  unfold foldNot
  split
  · rw [denote_bool] at value ⊢
    rw [value]
  · obtain ⟨c, inner, same⟩ := denote_not.mp value
    cases same
    rwa [Bool.not_not]
  · exact denote_not.mpr ⟨b, value, rfl⟩

theorem denote_foldAnd {a b : Expr} {p q : Bool} (left : M.denote a ρ = some (.truth p))
    (right : M.denote b ρ = some (.truth q))
    : M.denote (foldAnd a b) ρ = some (.truth (p && q)) := by
  unfold foldAnd
  split_ifs with leftTrue rightTrue oneFalse same
  · rw [leftTrue, denote_bool] at left
    rwa [← left, Bool.true_and]
  · rw [rightTrue, denote_bool] at right
    rwa [← right, Bool.and_true]
  · rw [denote_bool]
    rcases oneFalse with here | here
    · rw [here, denote_bool] at left
      rw [← left, Bool.false_and]
    · rw [here, denote_bool] at right
      rw [← right, Bool.and_false]
  · rw [same] at left ⊢
    rw [left] at right
    cases right
    rwa [Bool.and_self]
  · exact denote_and.mpr ⟨p, q, left, right, rfl⟩

theorem denote_foldOr {a b : Expr} {p q : Bool} (left : M.denote a ρ = some (.truth p))
    (right : M.denote b ρ = some (.truth q))
    : M.denote (foldOr a b) ρ = some (.truth (p || q)) := by
  unfold foldOr
  split_ifs with leftFalse rightFalse oneTrue same
  · rw [leftFalse, denote_bool] at left
    rwa [← left, Bool.false_or]
  · rw [rightFalse, denote_bool] at right
    rwa [← right, Bool.or_false]
  · rw [denote_bool]
    rcases oneTrue with here | here
    · rw [here, denote_bool] at left
      rw [← left, Bool.true_or]
    · rw [here, denote_bool] at right
      rw [← right, Bool.or_true]
  · rw [same] at left ⊢
    rw [left] at right
    cases right
    rwa [Bool.or_self]
  · exact denote_or.mpr ⟨p, q, left, right, rfl⟩

open Classical in
theorem denote_foldEq {a b : Expr} {p q : Value schema ω} (left : M.denote a ρ = some p)
    (right : M.denote b ρ = some q) (comparable : p.kind = q.kind)
    : M.denote (foldEq a b) ρ = some (.truth (decide (p = q))) := by
  unfold foldEq
  split_ifs with same
  · rw [same, right] at left
    cases left
    exact denote_bool.mpr (decide_eq_true rfl).symm
  · split
    · next m n =>
        have differ : p ≠ q := by
          rw [denote_num] at left right
          rw [← Option.some.inj left, ← Option.some.inj right]
          intro equal
          cases equal
          exact same rfl
        exact denote_bool.mpr (decide_eq_false differ).symm
    · exact denote_eq.mpr ⟨p, q, left, right, comparable, rfl⟩

theorem denote_foldCollect {x : Name} {body : Expr} {members : State schema → Bool}
    (bodies : ∀ s, M.denote body (Function.update ρ x (.state s)) = some (.truth (members s)))
    : M.denote (foldCollect x body) ρ = some (.set members) := by
  unfold foldCollect
  split
  · have all : members = fun _ => true := funext fun s => (denote_bool.mp (bodies s)).symm
    rw [denote, all]
  · have none : members = fun _ => false := funext fun s => (denote_bool.mp (bodies s)).symm
    rw [denote, none]
  · exact denote_collect.mpr ⟨members, bodies, rfl⟩

end Model

end Expr

end Monadize
