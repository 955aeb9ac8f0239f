import Mathlib.Logic.Relation
import Mathlib.Order.WellFounded
import Monadize.Proofs.Expr.Simplification

/-! Simplification comes to an end on every expression that has a simple type. There it reduces
abstractions and unfolds comprehensions at ever smaller types, also where substitution captures, as long
as each name has one type. Without types it can go round: whether the set of the sets that are not
members of themselves is a member of itself has no answer.
-/

namespace Monadize

namespace Expr

-----------------------------------------------------------------------------------------
-- Types
-----------------------------------------------------------------------------------------

inductive Ty where
  | truth
  | atom (name : Name)
  | state (world : Name)
  | set (elem : Ty)
  | fn (arg result : Ty)
  deriving DecidableEq

/-- One type for each name, and one for each component of the states of a world. -/
structure Typing where
  var : Name → Ty
  component : (world name : Name) → Ty

/-- Numerals, constants and the unspecified value have every type. An application to several
arguments or to none is not reduced, so its parts need not fit together. -/
inductive HasType (T : Typing) : Expr → Ty → Prop
  | var (x) : HasType T (.var x) (T.var x)
  | const (c τ) : HasType T (.const c) τ
  | num (n τ) : HasType T (.num n) τ
  | bool (b) : HasType T (.bool b) .truth
  | not {e} (part : HasType T e .truth) : HasType T (.not e) .truth
  | and {a b} (left : HasType T a .truth) (right : HasType T b .truth) : HasType T (.and a b) .truth
  | or {a b} (left : HasType T a .truth) (right : HasType T b .truth) : HasType T (.or a b) .truth
  | eq {a b σ τ} (left : HasType T a σ) (right : HasType T b τ) : HasType T (.eq a b) .truth
  | apply {fn arg σ τ} (head : HasType T fn (.fn σ τ)) (operand : HasType T arg σ)
    : HasType T (.app fn [arg]) τ
  | call {fn args σ τ} (types : Expr → Ty) (arity : args.length ≠ 1) (head : HasType T fn σ)
    (operands : ∀ arg ∈ args, HasType T arg (types arg))
    : HasType T (.app fn args) τ
  | lam {x type body τ} (part : HasType T body τ) : HasType T (.lam x type body) (.fn (T.var x) τ)
  | univ (σ) : HasType T .univ (.set σ)
  | empty (σ) : HasType T .empty (.set σ)
  | collect {x body} (part : HasType T body .truth)
    : HasType T (.collect x body) (.set (T.var x))
  | mem {elem set σ} (part : HasType T elem σ) (form : HasType T set (.set σ))
    : HasType T (.mem elem set) .truth
  | field {state name world} (form : HasType T state (.state world))
    : HasType T (.field state name) (T.component world name)
  | update {state name value world} (left : HasType T state (.state world))
    (right : HasType T value (T.component world name))
    : HasType T (.update state name value) (.state world)
  | arbitrary (τ) : HasType T .arbitrary τ

namespace HasType

variable {T : Typing} {e r : Expr} {τ : Ty}

theorem call_of {fn : Expr} {args : List Expr} {σ : Ty} (arity : args.length ≠ 1)
    (head : HasType T fn σ) (operands : ∀ arg ∈ args, ∃ τ, HasType T arg τ)
    : HasType T (.app fn args) τ := by
  classical
  refine .call (fun arg => if among : arg ∈ args then (operands arg among).choose else .truth) arity
    head fun arg among => ?_
  simp only [among, dif_pos]
  exact (operands arg among).choose_spec

/-- Substitution keeps types, whatever it captures, by induction on the typing. -/
theorem subst {x : Name} {new : Expr} (h : HasType T e τ) (put : HasType T new (T.var x))
    : HasType T (e.subst x new) τ := by
  induction h with
  | var y =>
      by_cases same : y = x
      · simpa [Expr.subst, same] using put
      · simpa [Expr.subst, same] using HasType.var (T := T) y
  | const | num | bool | univ | empty | arbitrary => constructor
  | not _ ih => exact ih.not
  | and _ _ iha ihb => exact iha.and ihb
  | or _ _ iha ihb => exact iha.or ihb
  | eq _ _ iha ihb => exact iha.eq ihb
  | apply _ _ ihf iharg => exact ihf.apply iharg
  | @call _ args _ _ types arity _ _ ihf ihargs =>
      rw [Expr.subst, substAll_eq_map]
      refine call_of (by rwa [List.length_map]) ihf fun arg' among => ?_
      obtain ⟨arg, member, rfl⟩ := List.mem_map.mp among
      exact ⟨types arg, ihargs arg member⟩
  | @lam y _ _ _ part ih =>
      by_cases same : y = x
      · simpa [Expr.subst, same] using part.lam
      · simpa [Expr.subst, same] using ih.lam
  | @collect y _ part ih =>
      by_cases same : y = x
      · simpa [Expr.subst, same] using part.collect
      · simpa [Expr.subst, same] using ih.collect
  | mem _ _ ihelem ihset => exact ihelem.mem ihset
  | field _ ih => exact ih.field
  | update _ _ iha ihb => exact iha.update ihb

theorem foldNot (h : HasType T e .truth) : HasType T (foldNot e) .truth := by
  rcases foldNot_cases e with kept | ⟨b, value⟩ | inner
  · exact kept ▸ h.not
  · exact value ▸ .bool b
  · rw [inner] at h
    cases h with
    | not part => exact part

theorem foldAnd {a b : Expr} (left : HasType T a .truth) (right : HasType T b .truth)
    : HasType T (foldAnd a b) .truth := by
  rcases foldAnd_cases a b with kept | ⟨c, value⟩ | first | second
  · exact kept ▸ left.and right
  · exact value ▸ .bool c
  · rwa [first]
  · rwa [second]

theorem foldOr {a b : Expr} (left : HasType T a .truth) (right : HasType T b .truth)
    : HasType T (foldOr a b) .truth := by
  rcases foldOr_cases a b with kept | ⟨c, value⟩ | first | second
  · exact kept ▸ left.or right
  · exact value ▸ .bool c
  · rwa [first]
  · rwa [second]

theorem foldEq {a b : Expr} {σ : Ty} (left : HasType T a σ) (right : HasType T b τ)
    : HasType T (foldEq a b) .truth := by
  rcases foldEq_cases a b with kept | ⟨c, value⟩
  · exact kept ▸ left.eq right
  · exact value ▸ .bool c

theorem foldCollect {x : Name} (part : HasType T e .truth)
    : HasType T (foldCollect x e) (.set (T.var x)) := by
  rcases foldCollect_cases x e with kept | full | none
  · exact kept ▸ part.collect
  · exact full ▸ .univ _
  · exact none ▸ .empty _

/-- Simplification keeps types, by induction on the relation. -/
theorem of_simplifies (h : HasType T e τ) (done : Simplifies e r) : HasType T r τ := by
  induction done generalizing τ with
  | var | const | num | bool | univ | empty | arbitrary => exact h
  | not _ ih =>
      cases h with
      | not part => exact (ih part).foldNot
  | and _ _ iha ihb =>
      cases h with
      | and left right => exact (iha left).foldAnd (ihb right)
  | or _ _ iha ihb =>
      cases h with
      | or left right => exact (iha left).foldOr (ihb right)
  | eq _ _ iha ihb =>
      cases h with
      | eq left right => exact (iha left).foldEq (ihb right)
  | beta _ _ _ ihf iharg ihr =>
      cases h with
      | apply head operand =>
          cases ihf head with
          | lam part => exact ihr (part.subst (iharg operand))
      | call _ arity => exact (arity rfl).elim
  | @app fn fn' args args' _ _ length _ ihf ihargs =>
      cases h with
      | @apply _ arg _ _ head operand =>
          obtain ⟨arg', rfl⟩ := List.length_eq_one_iff.mp length.symm
          exact (ihf head).apply (ihargs (arg, arg') (List.mem_singleton.mpr rfl) operand)
      | call types arity head operands =>
          refine call_of (length ▸ arity) (ihf head) fun arg' among => ?_
          obtain ⟨arg, member, zipped⟩ := exists_zipped length among
          exact ⟨types arg, ihargs _ zipped (operands arg member)⟩
  | lam _ ih =>
      cases h with
      | lam part => exact (ih part).lam
  | collect _ ih =>
      cases h with
      | collect part => exact (ih part).foldCollect
  | memUniv | memEmpty =>
      cases h
      exact .bool _
  | memCollect _ _ ihset ihr =>
      cases h with
      | mem part form =>
          cases ihset form with
          | collect body => exact ihr (body.subst part)
  | mem _ _ _ ihset ihelem =>
      cases h with
      | mem part form => exact (ihelem part).mem (ihset form)
  | fieldSame _ ih =>
      cases h with
      | field form =>
          cases ih form with
          | update _ right => exact right
  | fieldOther _ _ _ ihform ihinside =>
      cases h with
      | field form =>
          cases ihform form with
          | update left _ => exact ihinside left.field
  | field _ _ ih =>
      cases h with
      | field form => exact (ih form).field
  | update _ _ iha ihb =>
      cases h with
      | update left right => exact (iha left).update (ihb right)

end HasType

-----------------------------------------------------------------------------------------
-- Where abstractions, comprehensions and updates come from
-----------------------------------------------------------------------------------------

/-- The parts that simplification can take out of what has the second type. -/
inductive Typing.Part (T : Typing) : Ty → Ty → Prop
  | elem {σ} : T.Part σ (.set σ)
  | arg {σ τ} : T.Part σ (.fn σ τ)
  | result {σ τ} : T.Part τ (.fn σ τ)
  | component {world name} : T.Part (T.component world name) (.state world)

/-- A form that simplification takes apart. -/
def isIntro : Expr → Bool
  | .lam _ _ _ => true
  | .collect _ _ => true
  | .update _ _ _ => true
  | _ => false

variable {T : Typing} {e r : Expr} {τ : Ty}

theorem HasType.isIntro_truth (h : HasType T e .truth) : e.isIntro = false := by
  cases e with
  | lam | collect | update => cases h
  | _ => rfl

theorem HasType.isIntro_fn {σ : Ty} (h : HasType T e (.fn σ τ)) (stuck : isRedex e 1 = false)
    : e.isIntro = false := by
  cases e with
  | lam => cases stuck
  | collect | update => cases h
  | _ => rfl

theorem HasType.isIntro_set (h : HasType T e (.set τ)) (stuck : isSetForm e = false)
    : e.isIntro = false := by
  cases e with
  | collect => cases stuck
  | lam | update => cases h
  | _ => rfl

theorem HasType.isIntro_state {world : Name} (h : HasType T e (.state world))
    (stuck : isUpdate e = false)
    : e.isIntro = false := by
  cases e with
  | update => cases stuck
  | lam | collect => cases h
  | _ => rfl

/-- If such a form arises where a variable is replaced, its type is a part of the variable's type, by
induction on the normal form.
-/
theorem within_of_isIntro {body new : Expr} {x : Name} (normal : body.IsNormal)
    (typed : HasType T body τ) (put : HasType T new (T.var x)) (plain : body.isIntro = false)
    (done : Simplifies (body.subst x new) r) (intro : r.isIntro = true)
    : Relation.ReflTransGen T.Part τ (T.var x) := by
  have truth (same : τ = .truth) : False := by
    subst same
    rw [((typed.subst put).of_simplifies done).isIntro_truth] at intro
    cases intro
  induction normal generalizing τ r with
  | var z =>
      cases typed
      by_cases same : z = x
      · rw [same]
      · simp only [subst, same, if_false] at done
        cases done
        cases intro
  | const | num | univ | empty | arbitrary =>
      cases done
      cases intro
  | bool | not | and | or | eq | mem =>
      cases typed
      exact (truth rfl).elim
  | lam | collect | update => cases plain
  | @app fn args _ _ stuck ihf _ =>
      rw [subst, substAll_eq_map] at done
      rcases done.app_inv with ⟨y, type, inner, arg', _, single, head, _, _⟩ | ⟨_, _, _, _, _, rfl⟩
      · obtain ⟨arg, rfl, _⟩ := List.map_eq_singleton_iff.mp single
        cases typed with
        | apply fnTyped _ =>
            have within := ihf fnTyped (fnTyped.isIntro_fn stuck) head rfl fun same => by cases same
            exact .head .result within
        | call _ arity => exact (arity rfl).elim
      · cases intro
  | field _ stuck ih =>
      obtain ⟨state', doneState, doneField⟩ := simplifies_field_iff.mp done
      cases typed with
      | field stateTyped =>
          by_cases updated : isUpdate state' = false
          · rw [doneState.isNormal.eq_field_of_simplifies updated doneField] at intro
            cases intro
          · have form : state'.isIntro = true := by
              cases state' with
              | update => rfl
              | _ => exact (updated rfl).elim
            have within := ih stateTyped (stateTyped.isIntro_state stuck) doneState form
              fun same => by cases same
            exact .head .component within

-----------------------------------------------------------------------------------------
-- One node over parts that come to an end
-----------------------------------------------------------------------------------------

/-- Simplification of the expression comes to an end. -/
def Settles (e : Expr) : Prop := ∃ r, Simplifies e r

theorem Settles.not {e : Expr} (part : e.Settles) : (Expr.not e).Settles := by
  obtain ⟨_, done⟩ := part
  exact ⟨_, done.not⟩

theorem Settles.and {a b : Expr} (left : a.Settles) (right : b.Settles) : (Expr.and a b).Settles := by
  obtain ⟨_, doneLeft⟩ := left
  obtain ⟨_, doneRight⟩ := right
  exact ⟨_, doneLeft.and doneRight⟩

theorem Settles.or {a b : Expr} (left : a.Settles) (right : b.Settles) : (Expr.or a b).Settles := by
  obtain ⟨_, doneLeft⟩ := left
  obtain ⟨_, doneRight⟩ := right
  exact ⟨_, doneLeft.or doneRight⟩

theorem Settles.eq {a b : Expr} (left : a.Settles) (right : b.Settles) : (Expr.eq a b).Settles := by
  obtain ⟨_, doneLeft⟩ := left
  obtain ⟨_, doneRight⟩ := right
  exact ⟨_, doneLeft.eq doneRight⟩

theorem Settles.lam {x : Name} {type : Option Name} {body : Expr} (part : body.Settles)
    : (Expr.lam x type body).Settles := by
  obtain ⟨_, done⟩ := part
  exact ⟨_, done.lam⟩

theorem Settles.collect {x : Name} {body : Expr} (part : body.Settles)
    : (Expr.collect x body).Settles := by
  obtain ⟨_, done⟩ := part
  exact ⟨_, done.collect⟩

theorem Settles.update {state value : Expr} {name : Name} (left : state.Settles)
    (right : value.Settles)
    : (Expr.update state name value).Settles := by
  obtain ⟨_, doneLeft⟩ := left
  obtain ⟨_, doneRight⟩ := right
  exact ⟨_, doneLeft.update doneRight⟩

theorem Settles.app {fn fn' : Expr} {args : List Expr} (head : Simplifies fn fn')
    (operands : ∀ arg ∈ args, arg.Settles)
    (reduct : ∀ x type body arg arg', fn' = .lam x type body → args = [arg] → Simplifies arg arg'
      → (body.subst x arg').Settles)
    : (Expr.app fn args).Settles := by
  by_cases stuck : isRedex fn' args.length = false
  · obtain ⟨args', related⟩ := exists_related operands
    exact ⟨.app fn' args', .apply head stuck related⟩
  · unfold isRedex at stuck
    split at stuck
    · next x type body single =>
        obtain ⟨arg, rfl⟩ := List.length_eq_one_iff.mp single
        obtain ⟨arg', operand⟩ := operands arg (List.mem_singleton.mpr rfl)
        obtain ⟨r, done⟩ := reduct x type body arg arg' rfl rfl operand
        exact ⟨r, .beta head operand done⟩
    · exact (stuck rfl).elim

theorem Settles.mem {elem set set' : Expr} (form : Simplifies set set') (part : elem.Settles)
    (reduct : ∀ x body, set' = .collect x body → (body.subst x elem).Settles)
    : (Expr.mem elem set).Settles := by
  obtain ⟨elem', done⟩ := part
  cases set' with
  | univ => exact ⟨.bool true, .memUniv form⟩
  | empty => exact ⟨.bool false, .memEmpty form⟩
  | collect x body =>
      obtain ⟨r, done⟩ := reduct x body rfl
      exact ⟨r, .memCollect form done⟩
  | _ => exact ⟨_, .mem form rfl done⟩

/-- A component of a normal form is found by going through its updates, by induction on it. -/
theorem Settles.field_of_normal {state : Expr} {name : Name} (normal : state.IsNormal)
    : (Expr.field state name).Settles := by
  induction state with
  | update inner other value ih =>
      by_cases same : other = name
      · subst same
        exact ⟨value, .fieldSame normal.simplifies⟩
      · have left : inner.IsNormal := by
          cases normal with
          | update left _ => exact left
        obtain ⟨r, inside⟩ := ih left
        exact ⟨r, .fieldOther normal.simplifies same inside⟩
  | _ => exact ⟨_, .field normal.simplifies rfl⟩

theorem Settles.field {state : Expr} {name : Name} (part : state.Settles)
    : (Expr.field state name).Settles := by
  obtain ⟨state', form⟩ := part
  obtain ⟨r, done⟩ : (Expr.field state' name).Settles := .field_of_normal form.isNormal
  exact ⟨r, simplifies_field_iff.mpr ⟨state', form, done⟩⟩

-----------------------------------------------------------------------------------------
-- Substitution into a normal form
-----------------------------------------------------------------------------------------

/-- Whatever is put in for a variable of the type, simplification of a normal form comes to an end. -/
def Substitutable (T : Typing) (σ : Ty) : Prop :=
  ∀ ⦃x new body τ⦄,
    T.var x = σ
    → body.IsNormal
    → HasType T body τ
    → HasType T new σ
    → new.Settles
    → (body.subst x new).Settles

/-- The step of the induction on types: inside, by induction on the normal form. An abstraction or a
comprehension that arises was brought by the replacement, so its variable has a smaller type.
-/
theorem substitutable_of_parts {σ : Ty}
    (lower : ∀ part, Relation.TransGen T.Part part σ → Substitutable T part)
    : Substitutable T σ := by
  intro x new body τ same normal typed put settles
  subst same
  induction normal generalizing τ with
  | var z =>
      by_cases same : z = x
      · simpa [subst, same] using settles
      · exact ⟨.var z, by simpa [subst, same] using Simplifies.var z⟩
  | const | num | bool | univ | empty | arbitrary => exact ⟨_, by constructor⟩
  | not _ _ ih =>
      cases typed with
      | not part => exact (ih part).not
  | and _ _ _ iha ihb =>
      cases typed with
      | and left right => exact (iha left).and (ihb right)
  | or _ _ _ iha ihb =>
      cases typed with
      | or left right => exact (iha left).or (ihb right)
  | eq _ _ _ iha ihb =>
      cases typed with
      | eq left right => exact (iha left).eq (ihb right)
  | @app fn args headNormal _ stuck ihf ihargs =>
      rw [subst, substAll_eq_map]
      cases typed with
      | @apply _ arg σ' _ head operand =>
          obtain ⟨fn', doneFn⟩ := ihf head
          refine .app doneFn (fun arg' among => ?_) fun y type inner _ arg' form single doneArg => ?_
          · obtain rfl := List.mem_singleton.mp among
            exact ihargs arg (List.mem_singleton.mpr rfl) operand
          · subst form
            cases single
            -- The function was no abstraction before, so its type is a part of the variable's.
            have within := within_of_isIntro headNormal head put (head.isIntro_fn stuck) doneFn rfl
            cases (head.subst put).of_simplifies doneFn with
            | lam part =>
                have innerNormal := doneFn.isNormal.lam_body
                have argTyped := (operand.subst put).of_simplifies doneArg
                exact lower _ (.head' .arg within) rfl innerNormal part argTyped
                  ⟨arg', doneArg.isNormal.simplifies⟩
      | call types arity head operands =>
          obtain ⟨fn', doneFn⟩ := ihf head
          refine .app doneFn (fun arg' among => ?_) fun _ _ _ _ _ _ single => ?_
          · obtain ⟨arg, member, rfl⟩ := List.mem_map.mp among
            exact ihargs arg member (operands arg member)
          · obtain ⟨_, rfl, _⟩ := List.map_eq_singleton_iff.mp single
            exact (arity rfl).elim
  | @lam z type inner part ih =>
      by_cases same : z = x
      · exact ⟨_, by simpa [subst, same] using (IsNormal.lam part).simplifies⟩
      · cases typed with
        | lam innerTyped => simpa [subst, same] using (ih innerTyped).lam
  | @collect z inner part stuck ih =>
      by_cases same : z = x
      · exact ⟨_, by simpa [subst, same] using (IsNormal.collect part stuck).simplifies⟩
      · cases typed with
        | collect innerTyped => simpa [subst, same] using (ih innerTyped).collect
  | @mem elem set _ setNormal stuck ihelem ihset =>
      cases typed with
      | mem elemTyped setTyped =>
          obtain ⟨set', doneSet⟩ := ihset setTyped
          refine .mem doneSet (ihelem elemTyped) fun y inner form => ?_
          subst form
          have within := within_of_isIntro setNormal setTyped put (setTyped.isIntro_set stuck) doneSet
            rfl
          cases (setTyped.subst put).of_simplifies doneSet with
          | collect part =>
              have innerNormal := doneSet.isNormal.collect_body
              exact lower _ (.head' .elem within) rfl innerNormal part (elemTyped.subst put)
                (ihelem elemTyped)
  | field _ _ ih =>
      cases typed with
      | field stateTyped => exact .field (ih stateTyped)
  | update _ _ iha ihb =>
      cases typed with
      | update left right => exact (iha left).update (ihb right)

theorem substitutable_of_grounded (grounded : WellFounded T.Part) (σ : Ty) : Substitutable T σ := by
  induction σ using grounded.transGen.induction with
  | _ σ ih => exact substitutable_of_parts ih

/-- Simplification of every typed expression comes to an end, by induction on the typing. -/
theorem settles_of_hasType (grounded : WellFounded T.Part) (typed : HasType T e τ) : e.Settles := by
  have substitutable := substitutable_of_grounded grounded
  induction typed with
  | var | const | num | bool | univ | empty | arbitrary => exact ⟨_, by constructor⟩
  | not _ ih => exact ih.not
  | and _ _ iha ihb => exact iha.and ihb
  | or _ _ iha ihb => exact iha.or ihb
  | eq _ _ iha ihb => exact iha.eq ihb
  | apply head operand ihf iharg =>
      obtain ⟨fn', doneFn⟩ := ihf
      refine .app doneFn (fun arg among => ?_) fun x type body arg arg' form single doneArg => ?_
      · rwa [List.mem_singleton.mp among]
      · subst form
        cases single
        cases head.of_simplifies doneFn with
        | lam part =>
            have normal := doneFn.isNormal.lam_body
            exact substitutable _ rfl normal part (operand.of_simplifies doneArg)
              ⟨arg', doneArg.isNormal.simplifies⟩
  | call types arity _ _ ihf ihargs =>
      obtain ⟨fn', doneFn⟩ := ihf
      refine .app doneFn ihargs fun _ _ _ _ _ _ single => ?_
      rw [single] at arity
      exact (arity rfl).elim
  | lam _ ih => exact ih.lam
  | collect _ ih => exact ih.collect
  | mem elemTyped setTyped ihelem ihset =>
      obtain ⟨set', doneSet⟩ := ihset
      refine .mem doneSet ihelem fun x body form => ?_
      subst form
      cases setTyped.of_simplifies doneSet with
      | collect part =>
          have normal := doneSet.isNormal.collect_body
          exact substitutable _ rfl normal part elemTyped ihelem
  | field _ ih => exact ih.field
  | update _ _ iha ihb => exact iha.update ihb

-----------------------------------------------------------------------------------------
-- Types without a circle
-----------------------------------------------------------------------------------------

/-- The worlds whose states occur in a type. -/
def Ty.worlds : Ty → List Name
  | .truth => []
  | .atom _ => []
  | .state world => [world]
  | .set elem => elem.worlds
  | .fn arg result => arg.worlds ++ result.worlds

theorem acc_of_worlds (each : ∀ world ∈ τ.worlds, Acc T.Part (.state world)) : Acc T.Part τ := by
  induction τ with
  | truth | atom => exact ⟨_, fun _ part => nomatch part⟩
  | state world => exact each world (List.mem_singleton.mpr rfl)
  | set elem ih =>
      refine ⟨_, fun part below => ?_⟩
      cases below
      exact ih each
  | fn arg result iha ihb =>
      rw [Ty.worlds, List.forall_mem_append] at each
      refine ⟨_, fun part below => ?_⟩
      cases below with
      | arg => exact iha each.1
      | result => exact ihb each.2

/-- It is enough that the components of a state have no states in them but of lower worlds. -/
theorem grounded_of_rank (rank : Name → Nat)
    (lower : ∀ world name, ∀ inner ∈ (T.component world name).worlds, rank inner < rank world)
    : WellFounded T.Part := by
  have states (world : Name) : Acc T.Part (.state world) := by
    induction h : rank world using Nat.strong_induction_on generalizing world with
    | _ n ih =>
        refine ⟨_, fun part below => ?_⟩
        cases below with
        | component => exact acc_of_worlds fun inner occurs => ih _ (h ▸ lower _ _ _ occurs) inner rfl
  exact ⟨fun τ => acc_of_worlds fun world _ => states world⟩

-----------------------------------------------------------------------------------------
-- Results
-----------------------------------------------------------------------------------------

/-- On every typed expression, however its names are bound, the recursion of simplification is finite
and returns a result, if going from types to their parts comes to an end: so no state occurs in its
own components.
-/
theorem exists_simplify?_of_hasType (grounded : WellFounded T.Part) (typed : HasType T e τ)
    : ∃ least r, ∀ depth, least ≤ depth → simplify? depth e = some r := by
  obtain ⟨r, done⟩ := settles_of_hasType grounded typed
  obtain ⟨least, returns⟩ := done.eventually
  exact ⟨least, r, returns⟩

/-- A transformer of states that is applied twice, under the name that it binds itself. -/
def twice : Expr :=
  .app
    (.app
      (.lam "f" none (.lam "s" none (.app (.var "f") [.app (.var "f") [.var "s"]])))
      [.lam "s" none (.update (.var "s") "a" (.field (.var "s") "b"))])
    [.var "s"]

def transformers : Typing where
  var x := if x = "f" then .fn (.state "w") (.state "w") else .state "w"
  component _ _ := .atom "nat"

theorem exists_simplify?_twice
    : WellFounded transformers.Part
      ∧ HasType transformers twice (.state "w")
      ∧ ∃ least r, ∀ depth, least ≤ depth → simplify? depth twice = some r := by
  have grounded : WellFounded transformers.Part :=
    grounded_of_rank (fun _ => 0) fun _ _ _ occurs => nomatch occurs
  have f : HasType transformers (.var "f") (.fn (.state "w") (.state "w")) := .var "f"
  have s : HasType transformers (.var "s") (.state "w") := .var "s"
  have transformer : HasType transformers
      (.lam "s" none (.update (.var "s") "a" (.field (.var "s") "b")))
      (.fn (.state "w") (.state "w")) :=
    .lam (.update s (.field s))
  have typed : HasType transformers twice (.state "w") :=
    .apply (.apply (.lam (.lam (f.apply (f.apply s)))) transformer) s
  exact ⟨grounded, typed, exists_simplify?_of_hasType grounded typed⟩

/-- The set of the sets that are not members of themselves. -/
def russell : Expr := .collect "x" (.not (.mem (.var "x") (.var "x")))

theorem isNormal_russell : russell.IsNormal :=
  .collect (.not (.mem (.var "x") (.var "x") rfl) rfl) rfl

/-- Whether it is a member of itself comes down to whether it is not, by induction on the relation. -/
theorem Simplifies.ne_russell (h : Simplifies e r)
    : e ≠ .mem russell russell ∧ e ≠ .not (.mem russell russell) := by
  induction h with
  | not _ ih =>
      refine ⟨nofun, fun same => ?_⟩
      cases same
      exact ih.1 rfl
  | memUniv form | memEmpty form =>
      refine ⟨fun same => ?_, nofun⟩
      cases same
      cases isNormal_russell.eq_of_simplifies form
  | mem form stuck =>
      refine ⟨fun same => ?_, nofun⟩
      cases same
      cases isNormal_russell.eq_of_simplifies form
      cases stuck
  | memCollect form _ _ ih =>
      refine ⟨fun same => ?_, nofun⟩
      cases same
      cases isNormal_russell.eq_of_simplifies form
      exact ih.2 rfl
  | _ => exact ⟨nofun, nofun⟩

theorem not_exists_simplify?_russell
    : ¬ ∃ depth r, simplify? depth (.mem russell russell) = some r := by
  intro ⟨depth, r, done⟩
  exact (Simplifies.of_simplify? done).ne_russell.1 rfl

end Expr

end Monadize
