import Monadize.Proofs.Expr.Replacement

/-! Simplification preserves values. It repeats parts of an expression, so that names which are bound
once become bound in many places; but names of the function and names of the argument stay apart,
and so do names of an element and names of its set.
-/

namespace Monadize

namespace Expr

/-- No name is bound twice, and none of the bound names occurs free. -/
structure BindersApart (e : Expr) : Prop where
  unique : e.binders.Nodup
  fresh : ∀ x ∈ e.binders, x ∉ e.freeNames

namespace BindersApart

theorem part {whole part : Expr} (h : whole.BindersApart) (bound : part.binders.Sublist whole.binders)
    (free : ∀ w ∈ part.freeNames, w ∈ whole.freeNames)
    : part.BindersApart where
  unique := h.unique.sublist bound
  fresh x here inside := h.fresh x (bound.subset here) (free x inside)

theorem parts {whole a b : Expr} (h : whole.BindersApart)
    (names : ∀ names, Gathers names → names whole = names a ++ names b)
    : a.BindersApart ∧ b.BindersApart := by
  have bound := names _ gathers_binders
  have free := names _ gathers_freeNames
  constructor
  · refine h.part (bound ▸ List.sublist_append_left _ _) fun w here => ?_
    exact free ▸ List.mem_append_left _ here
  · refine h.part (bound ▸ List.sublist_append_right _ _) fun w here => ?_
    exact free ▸ List.mem_append_right _ here

theorem body {x : Name} {body : Expr} (h : (collect x body).BindersApart) : body.BindersApart := by
  obtain ⟨first, unique⟩ := List.nodup_cons.mp h.unique
  refine ⟨unique, fun y bound free => ?_⟩
  refine h.fresh y (List.mem_cons_of_mem x bound) (List.mem_filter.mpr ⟨free, ?_⟩)
  refine decide_eq_true fun same => ?_
  exact first (same ▸ bound)

theorem lam_body {x : Name} {type : Option Name} {body : Expr} (h : (lam x type body).BindersApart)
    : body.BindersApart :=
  BindersApart.body (x := x) ⟨h.unique, h.fresh⟩

theorem head {fn : Expr} {args : List Expr} (h : (app fn args).BindersApart) : fn.BindersApart :=
  h.part (List.sublist_append_left _ _) fun _ here => List.mem_append_left _ here

theorem operand {fn arg : Expr} {args : List Expr} (h : (app fn args).BindersApart)
    (among : arg ∈ args)
    : arg.BindersApart := by
  refine h.part ((sublist_bindersAll among).trans (List.sublist_append_right _ _)) fun w here => ?_
  exact List.mem_append_right _ (mem_freeNamesAll.mpr ⟨arg, among, here⟩)

end BindersApart

namespace Model

variable {α ω : Type} {schema : Schema α} {M : Model schema ω} {ρ : Valuation schema ω} {v : Value schema ω}

/-- An argument of any kind in the place of the variable of an abstraction: whatever the abstraction
binds is apart from the names of the argument. -/
theorem denote_beta {fn arg arg' body r : Expr} {x : Name} {type : Option Name} {w : Value schema ω}
    (apart : (app fn [arg]).BindersApart) (head : Simplifies fn (.lam x type body))
    (operand : Simplifies arg arg') (argument : M.denote arg' ρ = some w)
    (value : M.denote body (Function.update ρ x w) = some v)
    (reduct : Simplifies (body.subst x arg') r)
    : M.denote r ρ = some v := by
  obtain ⟨unique, fresh⟩ := apart
  simp only [binders, bindersAll, freeNames, freeNamesAll, List.append_nil] at unique fresh
  obtain ⟨_, _, disjoint⟩ := List.nodup_append.mp unique
  have own {y} (bound : y ∈ body.binders) : y ∈ fn.binders :=
    head.binders_subset y (List.mem_cons_of_mem x bound)
  have bind : x ∈ fn.binders := head.binders_subset x List.mem_cons_self
  have h : Replaces M arg'.binders x arg' body (Function.update ρ x w) ρ := by
    constructor
    · intro y _ differ
      rw [Function.update_of_ne differ]
    · intro _ a again
      rw [operand.isNormal.eq_of_simplifies again, Function.update_self]
      exact argument
    · intro _ a again
      rw [operand.isNormal.eq_of_simplifies again]
      exact bindsWithin_binders fun _ bound => bound
    · intro y around free
      exact fresh y (List.mem_append_left _ (own (mem_binders_of_enclosing around)))
        (List.mem_append_right _ (operand.freeNames_subset y free))
    · intro y free bound
      have inArg := operand.binders_subset y bound
      by_cases same : y = x
      · exact disjoint x bind y inArg same.symm
      · have inFn : y ∈ fn.freeNames :=
          head.freeNames_subset y (List.mem_filter.mpr ⟨free, decide_eq_true same⟩)
        exact fresh y (List.mem_append_right _ inArg) (List.mem_append_left _ inFn)
    · intro y bound inArg
      exact disjoint y (own bound) y (operand.binders_subset y inArg) rfl
    · intro y free bound
      exact fresh y (List.mem_append_right _ (operand.binders_subset y bound))
        (List.mem_append_right _ (operand.freeNames_subset y free))
  have normal := head.isNormal.lam_body
  exact (replaceable_of_normal (instantiable _) normal h value reduct).value

/-- The element of a membership in the place of the variable of a comprehension. -/
theorem denote_memCollect {elem set body r : Expr} {x : Name} {s : State schema}
    (apart : (mem elem set).BindersApart) (form : Simplifies set (.collect x body))
    (state : ∀ a, Simplifies elem a → M.denote a ρ = some (.state s))
    (value : M.denote body (Function.update ρ x (.state s)) = some v)
    (reduct : Simplifies (body.subst x elem) r)
    : M.denote r ρ = some v := by
  have own {y} (bound : y ∈ body.binders) : y ∈ set.binders :=
    form.binders_subset y (List.mem_cons_of_mem x bound)
  have normal := form.isNormal.collect_body
  refine (instantiable set.binders (form.binders_subset x List.mem_cons_self) normal
    (fun y around => own (mem_binders_of_enclosing around)) (bindsWithin_binders fun y => own)
    (fun y free bound => ?_) state value reduct).1
  exact apart.fresh y (List.mem_append_right _ bound) (List.mem_append_left _ free)

/-- Simplification of an expression whose binders are apart, by induction on the expression. -/
theorem denote_of_simplifies {e r : Expr} (apart : e.BindersApart) (value : M.denote e ρ = some v)
    (done : Simplifies e r)
    : M.denote r ρ = some v := by
  induction e using redexInduction generalizing ρ v r with
  | var | const | num | bool | univ | empty | arbitrary =>
      cases done
      exact value
  | not e ih =>
      obtain ⟨b, part, same⟩ := denote_not.mp value
      cases same
      cases done with
      | not done => exact denote_foldNot (ih ⟨apart.unique, apart.fresh⟩ part done)
  | and a b iha ihb =>
      obtain ⟨p, q, left, right, same⟩ := denote_and.mp value
      cases same
      obtain ⟨apartLeft, apartRight⟩ := apart.parts fun _ gathers => gathers.and a b
      cases done with
      | and doneLeft doneRight =>
          exact denote_foldAnd (iha apartLeft left doneLeft) (ihb apartRight right doneRight)
  | or a b iha ihb =>
      obtain ⟨p, q, left, right, same⟩ := denote_or.mp value
      cases same
      obtain ⟨apartLeft, apartRight⟩ := apart.parts fun _ gathers => gathers.or a b
      cases done with
      | or doneLeft doneRight =>
          exact denote_foldOr (iha apartLeft left doneLeft) (ihb apartRight right doneRight)
  | eq a b iha ihb =>
      obtain ⟨p, q, left, right, comparable, same⟩ := denote_eq.mp value
      cases same
      obtain ⟨apartLeft, apartRight⟩ := apart.parts fun _ gathers => gathers.eq a b
      cases done with
      | eq doneLeft doneRight =>
          exact denote_foldEq (iha apartLeft left doneLeft) (ihb apartRight right doneRight)
            comparable
  | redex x type body arg ihbody iharg =>
      obtain ⟨w, argument, inner⟩ := denote_redex.mp value
      rcases done.app_inv with ⟨u, type', body', _, arg', single, head, operand, reduct⟩
        | ⟨fn', args', head, stuck, _, _⟩
      · cases single
        have argument' := iharg (apart.operand (List.mem_singleton.mpr rfl)) argument operand
        have inner' : M.denote body' (Function.update ρ u w) = some v := by
          cases head with
          | lam part => exact ihbody apart.head.lam_body inner part
        exact denote_beta apart head operand argument' inner' reduct
      · cases head with
        | lam => cases stuck
  | app fn args stuck ihf ihargs =>
      obtain ⟨f, vs, head, operands, applied⟩ := (denote_app stuck).mp value
      rcases done.app_inv with ⟨x, type, body, arg, arg', rfl, doneFn, doneArg, reduct⟩
        | ⟨fn', args', doneFn, stuck', doneArgs, rfl⟩
      · obtain ⟨g, bodies, same⟩ := denote_lam.mp (ihf apart.head head doneFn)
        cases same
        rcases apply_eq_some_iff.mp applied with ⟨_, s, same, rfl, rfl⟩ | ⟨o, clash, _⟩
        · cases same
          have among : arg ∈ [arg] := List.mem_singleton.mpr rfl
          cases operands with
          | cons argument _ =>
              have argument' := ihargs arg among (apart.operand among) argument doneArg
              exact denote_beta apart doneFn doneArg argument' (bodies s) reduct
        · cases clash
      · have values : List.Forall₂ (fun e v => M.denote e ρ = some v) args' vs :=
          related_of_common (fun arg among w arg' before doneArg =>
            ihargs arg among (apart.operand among) before doneArg) operands doneArgs
        rw [doneArgs.length_eq] at stuck'
        exact (denote_app stuck').mpr ⟨f, vs, ihf apart.head head doneFn, values, applied⟩
  | lam x type body ih =>
      obtain ⟨f, bodies, same⟩ := denote_lam.mp value
      cases same
      cases done with
      | lam done =>
          exact denote_lam.mpr ⟨f, fun s => ih apart.lam_body (bodies s) done, rfl⟩
  | collect x body ih =>
      obtain ⟨members, bodies, same⟩ := denote_collect.mp value
      cases same
      cases done with
      | collect done => exact denote_foldCollect fun s => ih apart.body (bodies s) done
  | mem elem set ihelem ihset =>
      obtain ⟨s, members, left, right, same⟩ := denote_mem.mp value
      cases same
      obtain ⟨apartElem, apartSet⟩ := apart.parts fun _ gathers => gathers.mem elem set
      cases done with
      | memUniv form =>
          have kept := ihset apartSet right form
          rw [denote] at kept
          cases kept
          exact denote_bool.mpr rfl
      | memEmpty form =>
          have kept := ihset apartSet right form
          rw [denote] at kept
          cases kept
          exact denote_bool.mpr rfl
      | memCollect form reduct =>
          obtain ⟨_, bodies, equal⟩ := denote_collect.mp (ihset apartSet right form)
          cases equal
          exact denote_memCollect apart form (fun _ doneElem => ihelem apartElem left doneElem)
            (bodies s) reduct
      | mem form _ doneElem =>
          exact denote_mem.mpr
            ⟨s, members, ihelem apartElem left doneElem, ihset apartSet right form, rfl⟩
  | field state name ih =>
      obtain ⟨s, part, same⟩ := denote_field.mp value
      cases same
      obtain ⟨state', doneState, doneField⟩ := simplifies_field_iff.mp done
      have kept := ih ⟨apart.unique, apart.fresh⟩ part doneState
      exact (denote_field_of_normal doneState.isNormal kept doneField).1
  | update state name b iha ihb =>
      obtain ⟨s, c, fit, left, right, same⟩ := denote_update.mp value
      cases same
      obtain ⟨apartLeft, apartRight⟩ := apart.parts fun _ gathers => gathers.update state name b
      cases done with
      | update doneLeft doneRight =>
          exact denote_update.mpr
            ⟨s, c, fit, iha apartLeft left doneLeft, ihb apartRight right doneRight, rfl⟩

/-- Simplification preserves the value of every expression in which no name is bound twice and no
bound name occurs free, in every model and under every valuation in which it has one.
-/
theorem denote_simplify {e : Expr} (unique : e.binders.Nodup)
    (fresh : ∀ x ∈ e.binders, x ∉ e.freeNames) (value : M.denote e ρ = some v)
    : (∀ depth r, simplify? depth e = some r → M.denote r ρ = some v)
      ∧ M.denote e.simplify ρ = some v := by
  have preserved : ∀ depth r, simplify? depth e = some r → M.denote r ρ = some v :=
    fun depth r done => denote_of_simplifies ⟨unique, fresh⟩ value (.of_simplify? done)
  refine ⟨preserved, ?_⟩
  unfold simplify
  cases done : simplify? simplifyDepth e with
  | none => exact value
  | some r => exact preserved simplifyDepth r done

/-- Two tests by one predicate, of a state and of an update of it. The name that the predicate binds
becomes bound twice when it is put into both places. -/
def sharedTest : Expr :=
  .app
    (.lam "k" none
      (.and (.app (.var "k") [.var "s"]) (.app (.var "k") [.update (.var "s") "a" (.num 1)])))
    [.lam "t" none (.eq (.field (.var "t") "a") (.num 1))]

/-- States of numbers. -/
def numbers : Schema Empty where
  holds _ b := ∃ n, b = .num n
  inhabited _ := ⟨.num 0, 0, rfl⟩

def plainNumbers : Model numbers Empty where
  const _ := none
  operate o := nomatch o
  arbitrary := .truth false

def ones : State numbers := ⟨fun _ => .num 1, fun _ => ⟨1, rfl⟩⟩

def allOnes : Valuation numbers Empty := fun _ => .state ones

theorem denote_sharedTest : plainNumbers.denote sharedTest allOnes = some (.truth true) := by
  classical
  let test (s : State numbers) : Value numbers Empty :=
    .truth (decide (.base (s.get "a") = (.base (.num 1) : Value numbers Empty)))
  have predicate
      : plainNumbers.denote (.lam "t" none (.eq (.field (.var "t") "a") (.num 1))) allOnes
        = some (.fn test) := by
    refine denote_lam.mpr ⟨test, fun s => denote_eq.mpr ⟨.base (s.get "a"), .base (.num 1), ?_⟩, rfl⟩
    obtain ⟨n, number⟩ := s.fits "a"
    refine ⟨denote_field.mpr ⟨s, rfl, rfl⟩, rfl, ?_, ?_⟩
    · rw [number]
      rfl
    · rfl
  have applied {arg : Expr} {s : State numbers} (one : s.get "a" = .num 1)
      (operand : plainNumbers.denote arg (Function.update allOnes "k" (.fn test)) = some (.state s))
      : plainNumbers.denote (.app (.var "k") [arg]) (Function.update allOnes "k" (.fn test))
        = some (.truth true) := by
    refine (denote_app rfl).mpr ⟨.fn test, [.state s], ?_, .cons operand .nil, ?_⟩
    · rw [denote, Function.update_self]
    · simp [apply, test, one]
  have current : plainNumbers.denote (.var "s") (Function.update allOnes "k" (.fn test))
      = some (.state ones) := by
    rw [denote, Function.update_of_ne (by decide)]
    rfl
  refine denote_redex.mpr ⟨.fn test, predicate, denote_and.mpr ⟨true, true, ?_, ?_, rfl⟩⟩
  · exact applied rfl current
  · exact applied State.get_set
      (denote_update.mpr ⟨ones, .num 1, ⟨1, rfl⟩, current, denote_num, rfl⟩)

theorem denote_simplify_sharedTest
    : sharedTest.binders.Nodup
      ∧ (∀ x ∈ sharedTest.binders, x ∉ sharedTest.freeNames)
      ∧ plainNumbers.denote sharedTest allOnes = some (.truth true)
      ∧ simplify? 8 sharedTest = some (.eq (.field (.var "s") "a") (.num 1))
      ∧ plainNumbers.denote (.eq (.field (.var "s") "a") (.num 1)) allOnes = some (.truth true) := by
  have unique : sharedTest.binders.Nodup := by decide
  have fresh : ∀ x ∈ sharedTest.binders, x ∉ sharedTest.freeNames := by decide
  have done : simplify? 8 sharedTest = some (.eq (.field (.var "s") "a") (.num 1)) := by decide
  exact ⟨unique, fresh, denote_sharedTest, done,
    (denote_simplify unique fresh denote_sharedTest).1 8 _ done⟩

end Model

end Expr

end Monadize
