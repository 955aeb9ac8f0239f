import Monadize.Basic

/-! State-level expressions: state transformers, guard sets, relations and predicates. They are
never evaluated, only compared, substituted into and simplified. Binder names are taken to differ
from the free variables of anything that is substituted under them. -/

namespace Monadize

inductive Expr where
  | var (name : Name)
  | const (name : Name)
  | num (value : UInt64)
  | bool (value : Bool)
  | not (e : Expr)
  | and (a b : Expr)
  | or (a b : Expr)
  | eq (a b : Expr)
  | app (fn : Expr) (args : List Expr)
  /-- An abstraction; state binders carry the world type. -/
  | lam (var : Name) (type : Option Name) (body : Expr)
  /-- The set of all states. -/
  | univ
  /-- The set of no states. -/
  | empty
  /-- The set of the states `var` for which `body` holds. -/
  | collect (var : Name) (body : Expr)
  | mem (elem set : Expr)
  /-- A component of a state. -/
  | field (state : Expr) (name : Name)
  /-- A state with one component replaced. -/
  | update (state : Expr) (name : Name) (value : Expr)
  /-- An unspecified value of any type. -/
  | arbitrary

namespace Expr

instance : Inhabited Expr := ⟨.arbitrary⟩

/-- Induction over expressions, in which every argument of an application counts as a part. -/
@[induction_eliminator]
theorem induction {motive : Expr → Prop} (var : ∀ name, motive (.var name))
    (const : ∀ name, motive (.const name)) (num : ∀ value, motive (.num value))
    (bool : ∀ value, motive (.bool value)) (not : ∀ e, motive e → motive (.not e))
    (and : ∀ a b, motive a → motive b → motive (.and a b))
    (or : ∀ a b, motive a → motive b → motive (.or a b))
    (eq : ∀ a b, motive a → motive b → motive (.eq a b))
    (app : ∀ fn args, motive fn → (∀ arg ∈ args, motive arg) → motive (.app fn args))
    (lam : ∀ x type body, motive body → motive (.lam x type body)) (univ : motive .univ)
    (empty : motive .empty) (collect : ∀ x body, motive body → motive (.collect x body))
    (mem : ∀ elem set, motive elem → motive set → motive (.mem elem set))
    (field : ∀ state name, motive state → motive (.field state name))
    (update : ∀ state name value, motive state → motive value → motive (.update state name value))
    (arbitrary : motive .arbitrary)
    : ∀ e, motive e :=
  @Expr.rec motive (fun args => ∀ arg ∈ args, motive arg) var const num bool not and or eq app lam
    univ empty collect mem field update arbitrary nofun
    (fun _ _ first others _ among => by
      rcases List.mem_cons.mp among with rfl | later
      · exact first
      · exact others _ later)

mutual
/-- Structural comparison. -/
def beq : Expr → Expr → Bool
  | .var x, .var y => x == y
  | .const x, .const y => x == y
  | .num m, .num n => m == n
  | .bool b, .bool c => b == c
  | .not a, .not b => a.beq b
  | .and a b, .and c d => a.beq c && b.beq d
  | .or a b, .or c d => a.beq c && b.beq d
  | .eq a b, .eq c d => a.beq c && b.beq d
  | .app f as, .app g bs => f.beq g && beqAll as bs
  | .lam x s a, .lam y t b => x == y && s == t && a.beq b
  | .univ, .univ => true
  | .empty, .empty => true
  | .collect x a, .collect y b => x == y && a.beq b
  | .mem a b, .mem c d => a.beq c && b.beq d
  | .field a x, .field b y => a.beq b && x == y
  | .update a x b, .update c y d => a.beq c && x == y && b.beq d
  | .arbitrary, .arbitrary => true
  | _, _ => false

def beqAll : List Expr → List Expr → Bool
  | [], [] => true
  | a :: as, b :: bs => a.beq b && beqAll as bs
  | _, _ => false
end

mutual
theorem beq_iff : (a b : Expr) → (a.beq b = true ↔ a = b)
  | .var x, b => by cases b <;> simp [beq]
  | .const x, b => by cases b <;> simp [beq]
  | .num m, b => by cases b <;> simp [beq]
  | .bool v, b => by cases b <;> simp [beq]
  | .not a, b => by cases b <;> simp [beq, beq_iff a]
  | .and a c, b => by cases b <;> simp [beq, beq_iff a, beq_iff c]
  | .or a c, b => by cases b <;> simp [beq, beq_iff a, beq_iff c]
  | .eq a c, b => by cases b <;> simp [beq, beq_iff a, beq_iff c]
  | .app f as, b => by cases b <;> simp [beq, beq_iff f, beqAll_iff as]
  | .lam x t a, b => by cases b <;> simp [beq, beq_iff a, and_assoc]
  | .univ, b => by cases b <;> simp [beq]
  | .empty, b => by cases b <;> simp [beq]
  | .collect x a, b => by cases b <;> simp [beq, beq_iff a]
  | .mem a c, b => by cases b <;> simp [beq, beq_iff a, beq_iff c]
  | .field a x, b => by cases b <;> simp [beq, beq_iff a]
  | .update a x c, b => by cases b <;> simp [beq, beq_iff a, beq_iff c, and_assoc]
  | .arbitrary, b => by cases b <;> simp [beq]

theorem beqAll_iff : (as bs : List Expr) → (beqAll as bs = true ↔ as = bs)
  | [], bs => by cases bs <;> simp [beqAll]
  | a :: as, bs => by cases bs <;> simp [beqAll, beq_iff a, beqAll_iff as]
end

instance : DecidableEq Expr := fun a b => decidable_of_iff _ (beq_iff a b)

mutual
/-- Replace the free occurrences of `x` by `value`. A binder of `x` hides it; other binders are
not renamed. -/
def subst : Expr → (x : Name) → (value : Expr) → Expr
  | .var y, x, value => if y = x then value else .var y
  | .const c, _, _ => .const c
  | .num n, _, _ => .num n
  | .bool b, _, _ => .bool b
  | .not e, x, value => .not (e.subst x value)
  | .and a b, x, value => .and (a.subst x value) (b.subst x value)
  | .or a b, x, value => .or (a.subst x value) (b.subst x value)
  | .eq a b, x, value => .eq (a.subst x value) (b.subst x value)
  | .app fn args, x, value => .app (fn.subst x value) (substAll args x value)
  | .lam y type body, x, value =>
      if y = x then .lam y type body else .lam y type (body.subst x value)
  | .univ, _, _ => .univ
  | .empty, _, _ => .empty
  | .collect y body, x, value =>
      if y = x then .collect y body else .collect y (body.subst x value)
  | .mem elem set, x, value => .mem (elem.subst x value) (set.subst x value)
  | .field state name, x, value => .field (state.subst x value) name
  | .update state name new, x, value =>
      .update (state.subst x value) name (new.subst x value)
  | .arbitrary, _, _ => .arbitrary

def substAll : List Expr → (x : Name) → (value : Expr) → List Expr
  | [], _, _ => []
  | e :: es, x, value => e.subst x value :: substAll es x value
end

theorem substAll_eq_map (es : List Expr) (x : Name) (value : Expr)
    : substAll es x value = es.map fun e => e.subst x value := by
  induction es with
  | nil => rfl
  | cons e es ih => simp [substAll, ih]

/-- Is this an abstraction whose body is the truth value `value`? -/
def isConstPred (value : Bool) : Expr → Bool
  | .lam _ _ body => decide (body = .bool value)
  | _ => false

end Expr

end Monadize
