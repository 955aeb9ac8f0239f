import Monadize.Predicate
import Monadize.Proofs.Expr.Preservation

/-! The predicate that is made from a set holds exactly of its members. For a comprehension it binds
the comprehension's own variable. For other sets it binds a fixed name, which the set may use itself:
if the name is free in the set it is captured at once, and if the set binds it around the variable of
a comprehension it is captured when the predicate is simplified.
-/

namespace Monadize

namespace Expr

theorem predOfSet_of_stuck {set : Expr} (world : Name) (stuck : isSetForm set = false)
    : predOfSet world set = .lam "s" (some world) (.mem (.var "s") set) := by
  cases set with
  | univ | empty | collect => cases stuck
  | _ => rfl

namespace Model

variable {α ω : Type} {schema : Schema α} {M : Model schema ω} {ρ : Valuation schema ω}
  {set : Expr} {members : State schema → Bool}

/-- A predicate over states that is true exactly on the members. -/
abbrev characteristic (ω : Type) (members : State schema → Bool) : Value schema ω :=
  .fn fun x => .truth (members x)

/-- As it is built, the predicate is the characteristic one unless the set has its name free. -/
theorem denote_predOfSet (world : Name) (value : M.denote set ρ = some (.set members))
    (clear : isSetForm set = true ∨ "s" ∉ set.freeNames)
    : M.denote (predOfSet world set) ρ = some (characteristic ω members) := by
  cases form : isSetForm set with
  | true =>
      cases set with
      | univ =>
          cases value
          exact denote_lam.mpr ⟨_, fun _ => by rw [denote], rfl⟩
      | empty =>
          cases value
          exact denote_lam.mpr ⟨_, fun _ => by rw [denote], rfl⟩
      | collect x body =>
          obtain ⟨_, bodies, same⟩ := denote_collect.mp value
          cases same
          exact denote_lam.mpr ⟨_, bodies, rfl⟩
      | _ => cases form
  | false =>
      have absent : "s" ∉ set.freeNames := clear.resolve_left (by simp [form])
      rw [predOfSet_of_stuck world form]
      refine denote_lam.mpr ⟨_, fun x => denote_mem.mpr ⟨x, members, ?_, ?_, rfl⟩, rfl⟩
      · rw [denote, Function.update_self]
      · rw [denote_update_of_notMem absent, value]

/-- Membership of a state in a simplified set, where the state has a name: the name is put in the
place of the comprehension's variable, if there is one.
-/
theorem denote_member {x : Name} {s : State schema} {r : Expr} (apart : set.BindersApart)
    (value : M.denote set ρ = some (.set members)) (named : ρ x = .state s)
    (clear : ∀ y body, Simplifies set (.collect y body) → x ∉ body.enclosing y)
    (done : Simplifies (.mem (.var x) set) r)
    : M.denote r ρ = some (.truth (members s)) := by
  have here : M.denote (.var x) ρ = some (.state s) := by rw [denote, named]
  cases done with
  | memUniv form =>
      have kept := denote_of_simplifies apart value form
      rw [denote] at kept
      cases kept
      exact denote_bool.mpr rfl
  | memEmpty form =>
      have kept := denote_of_simplifies apart value form
      rw [denote] at kept
      cases kept
      exact denote_bool.mpr rfl
  | @memCollect _ _ y body _ form reduct =>
      obtain ⟨_, bodies, same⟩ := denote_collect.mp (denote_of_simplifies apart value form)
      cases same
      -- A name is all that is put in, so only its own binders can be in the way.
      have replaces : Replaces M [] y (.var x) body (Function.update ρ y (.state s)) ρ := by
        constructor
        · intro w _ differ
          rw [Function.update_of_ne differ]
        · intro _ a doneVar
          cases doneVar
          rw [Function.update_self]
          exact here
        · intro _ a doneVar
          cases doneVar
          trivial
        · intro z around free
          cases List.mem_singleton.mp free
          exact clear y body form around
        · exact fun _ _ => List.not_mem_nil
        · exact fun _ _ => List.not_mem_nil
        · exact fun _ _ => List.not_mem_nil
      exact (replaceable_of_normal instantiable_nil form.isNormal.collect_body replaces (bodies s)
        reduct).value
  | mem form _ doneVar =>
      cases doneVar
      exact denote_mem.mpr ⟨s, members, here, denote_of_simplifies apart value form, rfl⟩

/-- The predicate as it is simplified. -/
theorem denote_predOfSet_of_simplifies (world : Name) {r : Expr} (apart : set.BindersApart)
    (value : M.denote set ρ = some (.set members))
    (clear : isSetForm set = true ∨ "s" ∉ set.freeNames)
    (uncaptured : isSetForm set = true
      ∨ ∀ y body, Simplifies set (.collect y body) → "s" ∉ body.enclosing y)
    (done : Simplifies (predOfSet world set) r)
    : M.denote r ρ = some (characteristic ω members) := by
  cases form : isSetForm set with
  | true =>
      refine denote_of_simplifies ?_ (denote_predOfSet world value clear) done
      cases set with
      | univ | empty =>
          exact ⟨List.nodup_cons.mpr ⟨List.not_mem_nil, List.nodup_nil⟩,
            fun _ _ => List.not_mem_nil⟩
      | collect x body => exact ⟨apart.unique, apart.fresh⟩
      | _ => cases form
  | false =>
      have absent : "s" ∉ set.freeNames := clear.resolve_left (by simp [form])
      rw [predOfSet_of_stuck world form] at done
      cases done with
      | lam inside =>
          refine denote_lam.mpr ⟨_, fun x => ?_, rfl⟩
          refine denote_member apart ?_ (Function.update_self ..)
            (uncaptured.resolve_left (by simp [form])) inside
          rw [denote_update_of_notMem absent, value]

/-- The predicate of a set holds exactly of the members of the set, as it is built and as it is
simplified, for every set whose binders are apart: if the set is a comprehension, or everything or
nothing, without a condition; and otherwise if the set does not have the predicate's variable free,
and its simplification does not bind that variable around the variable of a comprehension.
-/
theorem predOfSet_characteristic (world : Name) (unique : set.binders.Nodup)
    (fresh : ∀ x ∈ set.binders, x ∉ set.freeNames) (value : M.denote set ρ = some (.set members))
    (clear : isSetForm set = true ∨ "s" ∉ set.freeNames)
    : M.denote (predOfSet world set) ρ = some (characteristic ω members)
      ∧ ((isSetForm set = true
            ∨ ∀ y body, Simplifies set (.collect y body) → "s" ∉ body.enclosing y)
          → (∀ depth r,
                simplify? depth (predOfSet world set) = some r
                → M.denote r ρ = some (characteristic ω members))
            ∧ M.denote (predOfSet world set).simplify ρ = some (characteristic ω members)) := by
  have built := denote_predOfSet (M := M) world value clear
  refine ⟨built, fun uncaptured => ?_⟩
  have kept (depth : Nat) (r : Expr) (done : simplify? depth (predOfSet world set) = some r)
      : M.denote r ρ = some (characteristic ω members) :=
    denote_predOfSet_of_simplifies world ⟨unique, fresh⟩ value clear uncaptured (.of_simplify? done)
  refine ⟨kept, ?_⟩
  unfold simplify
  cases done : simplify? simplifyDepth (predOfSet world set) with
  | none => exact built
  | some r => exact kept simplifyDepth r done

def zeros : State numbers := ⟨fun _ => .num 0, fun _ => ⟨0, rfl⟩⟩

/-- Two states are equal in one component. -/
def agree (x y : Name) : Expr := .eq (.field (.var x) "a") (.field (.var y) "a")

open Classical in
theorem denote_agree {ρ : Valuation numbers Empty} {x y : Name} {s t : State numbers}
    (left : ρ x = .state s) (right : ρ y = .state t)
    : plainNumbers.denote (agree x y) ρ = some (.truth (decide (s.get "a" = t.get "a"))) := by
  obtain ⟨m, first⟩ := s.fits "a"
  obtain ⟨n, second⟩ := t.fits "a"
  refine denote_eq.mpr ⟨.base (s.get "a"), .base (t.get "a"), ?_, ?_, ?_, ?_⟩
  · exact denote_field.mpr ⟨s, by rw [denote, left], rfl⟩
  · exact denote_field.mpr ⟨t, by rw [denote, right], rfl⟩
  · rw [first, second]
    rfl
  · simp only [Value.base.injEq]

/-- The states of which a given test holds, where the test itself binds the predicate's variable. -/
def passing : Expr :=
  .app (.lam "k" none (.collect "t" (.app (.var "k") [.var "t"]))) [.lam "s" none (agree "s" "u")]

open Classical in
theorem denote_passing
    : plainNumbers.denote passing allOnes
      = some (.set fun x => decide (x.get "a" = ones.get "a")) := by
  let test (x : State numbers) : Value numbers Empty := .truth (decide (x.get "a" = ones.get "a"))
  have tested : plainNumbers.denote (.lam "s" none (agree "s" "u")) allOnes = some (.fn test) :=
    denote_lam.mpr ⟨test, fun x => denote_agree (Function.update_self ..)
      (Function.update_of_ne (by decide) ..), rfl⟩
  refine denote_redex.mpr ⟨.fn test, tested, denote_collect.mpr ⟨_, fun x => ?_, rfl⟩⟩
  refine (denote_app rfl).mpr ⟨.fn test, [.state x], ?_, .cons ?_ .nil, rfl⟩
  · rw [denote, Function.update_of_ne (by decide), Function.update_self]
  · rw [denote, Function.update_self]

theorem predOfSet_characteristic_passing
    : passing.binders.Nodup
      ∧ (∀ x ∈ passing.binders, x ∉ passing.freeNames)
      ∧ "s" ∈ passing.binders
      ∧ "s" ∉ passing.freeNames
      ∧ simplify? 10 (predOfSet "w" passing) = some (.lam "s" (some "w") (agree "s" "u"))
      ∧ ∃ members,
          plainNumbers.denote passing allOnes = some (.set members)
          ∧ members ones = true
          ∧ members zeros = false
          ∧ plainNumbers.denote (predOfSet "w" passing) allOnes
            = some (characteristic Empty members)
          ∧ plainNumbers.denote (.lam "s" (some "w") (agree "s" "u")) allOnes
            = some (characteristic Empty members) := by
  classical
  have unique : passing.binders.Nodup := by decide
  have fresh : ∀ x ∈ passing.binders, x ∉ passing.freeNames := by decide
  have absent : "s" ∉ passing.freeNames := by decide
  have done : simplify? 10 (predOfSet "w" passing)
      = some (.lam "s" (some "w") (agree "s" "u")) := by decide
  have uncaptured (y : Name) (body : Expr) (form : Simplifies passing (.collect y body))
      : "s" ∉ body.enclosing y := by
    have result : simplify? 8 passing = some (.collect "t" (agree "t" "u")) := by decide
    cases form.unique (.of_simplify? result)
    decide
  obtain ⟨built, simplified⟩ :=
    predOfSet_characteristic "w" unique fresh denote_passing (.inr absent)
  refine ⟨unique, fresh, by decide, absent, done, _, denote_passing, decide_eq_true rfl, ?_, built,
    (simplified (.inr uncaptured)).1 10 _ done⟩
  refine decide_eq_false fun same => ?_
  cases same

-----------------------------------------------------------------------------------------
-- Captured names
-----------------------------------------------------------------------------------------

/-- The states that agree with the state `s`. -/
def alike : Expr := .app (.lam "y" none (.collect "t" (agree "t" "y"))) [.var "s"]

/-- The states that all states agree with. -/
def common : Expr :=
  .app (.lam "x" none (.collect "y" (.eq (.collect "s" (agree "s" "y")) .univ))) [.num 0]

open Classical in
theorem denote_alike {ρ : Valuation numbers Empty} {s : State numbers} (given : ρ "s" = .state s)
    : plainNumbers.denote alike ρ = some (.set fun x => decide (x.get "a" = s.get "a")) := by
  refine denote_redex.mpr
    ⟨.state s, by rw [denote, given], denote_collect.mpr ⟨_, fun x => ?_, rfl⟩⟩
  refine denote_agree (Function.update_self ..) ?_
  rw [Function.update_of_ne (by decide), Function.update_self]

/-- No state agrees with all states. -/
theorem denote_common (ρ : Valuation numbers Empty)
    : plainNumbers.denote common ρ = some (.set fun _ => false) := by
  classical
  refine denote_redex.mpr ⟨.base (.num 0), denote_num, denote_collect.mpr ⟨_, fun y => ?_, rfl⟩⟩
  have inner : plainNumbers.denote (.collect "s" (agree "s" "y"))
        (Function.update (Function.update ρ "x" (.base (.num 0))) "y" (.state y))
      = some (.set fun x => decide (x.get "a" = y.get "a")) := by
    refine denote_collect.mpr ⟨_, fun x => denote_agree (Function.update_self ..) ?_, rfl⟩
    rw [Function.update_of_ne (by decide), Function.update_self]
  refine denote_eq.mpr ⟨_, .set fun _ => true, inner, by rw [denote], rfl, ?_⟩
  have differ : (fun x : State numbers => decide (x.get "a" = y.get "a")) ≠ fun _ => true := by
    intro all
    have zero : zeros.get "a" = y.get "a" := of_decide_eq_true (congrFun all zeros)
    have one : ones.get "a" = y.get "a" := of_decide_eq_true (congrFun all ones)
    have same : (Base.num 0 : Base Empty) = .num 1 := zero.trans one.symm
    cases same
  simp [differ]

/-- The predicate's variable is captured. The predicate of the states that agree with `s` holds of
every state, also of one that does not agree with `s`; and so does, after simplification, the
predicate of the states that all states agree with, though there are none. A guard on either is
dropped.
-/
theorem predOfSet_captures
    : (alike.binders.Nodup
        ∧ (∀ x ∈ alike.binders, x ∉ alike.freeNames)
        ∧ (∃ members,
            plainNumbers.denote alike allOnes = some (.set members)
            ∧ members zeros = false
            ∧ plainNumbers.denote (predOfSet "w" alike) allOnes
              = some (characteristic Empty fun _ => true))
        ∧ (predOfSet "w" alike).simplify = .lam "s" (some "w") (.bool true))
      ∧ common.binders.Nodup
      ∧ (∀ x ∈ common.binders, x ∉ common.freeNames)
      ∧ plainNumbers.denote common allOnes = some (.set fun _ => false)
      ∧ (predOfSet "w" common).simplify = .lam "s" (some "w") (.bool true) := by
  classical
  refine ⟨⟨by decide, by decide, ⟨_, denote_alike rfl, ?_, ?_⟩, by decide⟩, by decide, by decide,
    denote_common allOnes, by decide⟩
  · refine decide_eq_false fun same => ?_
    cases same
  · refine denote_lam.mpr ⟨_, fun x => ?_, rfl⟩
    have own : Function.update allOnes "s" (.state x) "s" = .state x := Function.update_self ..
    refine denote_mem.mpr ⟨x, _, by rw [denote, own], denote_alike own, ?_⟩
    rw [decide_eq_true rfl]

end Model

end Expr

end Monadize
