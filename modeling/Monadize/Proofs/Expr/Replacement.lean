import Monadize.Proofs.Expr.Denotation

/-! Simplification of a normal form in which a variable has been replaced. Substitution does not
rename, so the names bound around the occurrences of the variable have to be apart from the free
names of what is put there. For a state this suffices, since nothing in a state is applied. A function
is applied where it is put; then the names in the way are those which the function itself binds.
-/

namespace Monadize

namespace Expr

def isBinder : Expr → Bool
  | .lam _ _ _ => true
  | .collect _ _ => true
  | _ => false

/-- At the head of the expression only names of `own` are bound, and only such names are bound
around the occurrences of these. -/
def BindsWithin (own : List Name) : Expr → Prop
  | .lam x _ body => x ∈ own ∧ (∀ y ∈ body.enclosing x, y ∈ own) ∧ body.BindsWithin own
  | .collect x body => x ∈ own ∧ ∀ y ∈ body.enclosing x, y ∈ own
  | _ => True

theorem bindsWithin_of_isBinder {own : List Name} {e : Expr} (other : e.isBinder = false)
    : e.BindsWithin own := by
  cases e with
  | lam | collect => cases other
  | _ => trivial

theorem isBinder_of_bindsWithin {e : Expr} (within : e.BindsWithin []) : e.isBinder = false := by
  cases e with
  | lam | collect => cases within.1
  | _ => rfl

theorem bindsWithin_binders {own : List Name} {e : Expr} (all : ∀ w ∈ e.binders, w ∈ own)
    : e.BindsWithin own := by
  induction e with
  | lam x type body ih =>
      simp only [binders, List.forall_mem_cons] at all
      exact ⟨all.1, fun y around => all.2 y (mem_binders_of_enclosing around), ih all.2⟩
  | collect x body =>
      simp only [binders, List.forall_mem_cons] at all
      exact ⟨all.1, fun y around => all.2 y (mem_binders_of_enclosing around)⟩
  | _ => trivial

namespace Model

variable {α ω : Type} {schema : Schema α} {M : Model schema ω}

/-- An abstraction has a function as its value and a comprehension a set. -/
theorem isBinder_of_denote {e : Expr} {ρ : Valuation schema ω} {v : Value schema ω}
    (value : M.denote e ρ = some v) (noFn : ∀ f, v ≠ .fn f) (noSet : ∀ members, v ≠ .set members)
    : e.isBinder = false := by
  cases e with
  | lam =>
      obtain ⟨f, _, same⟩ := denote_lam.mp value
      exact (noFn f same).elim
  | collect =>
      obtain ⟨members, _, same⟩ := denote_collect.mp value
      exact (noSet members same).elim
  | _ => rfl

/-- A component of a state that is in normal form is read through its updates, by induction on the
state. -/
theorem denote_field_of_normal {state r : Expr} {name : Name} {ρ : Valuation schema ω} {s : State schema}
    (normal : state.IsNormal) (value : M.denote state ρ = some (.state s))
    (done : Simplifies (.field state name) r)
    : M.denote r ρ = some (.base (s.get name)) ∧ ∀ w, ∀ y ∈ r.enclosing w, y ∈ state.enclosing w := by
  induction state generalizing s r with
  | update inner other new ih =>
      obtain ⟨s', b, _, before, put, same⟩ := denote_update.mp value
      cases same
      cases done with
      | fieldSame form =>
          cases normal.eq_of_simplifies form
          rw [State.get_set]
          exact ⟨put, fun w y around => List.mem_append_right _ around⟩
      | fieldOther form differ inside =>
          cases normal.eq_of_simplifies form
          cases normal with
          | update left _ =>
              obtain ⟨read, around⟩ := ih left before inside
              rw [State.get_set_of_ne (Ne.symm differ)]
              exact ⟨read, fun w y inner => List.mem_append_left _ (around w y inner)⟩
      | field form stuck =>
          cases normal.eq_of_simplifies form
          cases stuck
  | _ =>
      rw [normal.eq_field_of_simplifies rfl done]
      exact ⟨denote_field.mpr ⟨s, value, rfl⟩, fun w y around => around⟩

-----------------------------------------------------------------------------------------
-- Substitution into a normal form
-----------------------------------------------------------------------------------------

/-- The replacement of `x` by `new` in `body` is in order: the two valuations agree elsewhere, the
first one has the value of what is put in, nothing is captured, and the names of `own` are left to
the replacement. -/
structure Replaces (M : Model schema ω) (own : List Name) (x : Name) (new body : Expr)
    (ρ ρ' : Valuation schema ω) : Prop where
  agree : ∀ w ∈ body.freeNames, w ≠ x → ρ w = ρ' w
  value : x ∈ body.freeNames → ∀ a, Simplifies new a → M.denote a ρ' = some (ρ x)
  within : x ∈ body.freeNames → ∀ a, Simplifies new a → a.BindsWithin own
  clear : ∀ y ∈ body.enclosing x, y ∉ new.freeNames
  free : ∀ w ∈ body.freeNames, w ∉ own
  bound : ∀ w ∈ body.binders, w ∉ own
  outside : ∀ w ∈ new.freeNames, w ∉ own

/-- What becomes of `body` when `x` is replaced. For a replacement that binds nothing, names around
the other variables are those of `body`. -/
structure Keeps (M : Model schema ω) (own : List Name) (x : Name) (new body : Expr)
    (ρ' : Valuation schema ω) (v : Value schema ω) (r : Expr) : Prop where
  value : M.denote r ρ' = some v
  within : body.isBinder = false → r.BindsWithin own
  around : own = [] → ∀ w, w ≠ x → w ∉ new.freeNames
    → ∀ y ∈ r.enclosing w, y ∈ body.enclosing w

/-- Whatever is in order to replace, keeps its value. -/
def Replaceable (M : Model schema ω) (own : List Name) (x : Name) (new body : Expr) : Prop :=
  ∀ ⦃ρ ρ' v r⦄,
    Replaces M own x new body ρ ρ'
    → M.denote body ρ = some v
    → Simplifies (body.subst x new) r
    → Keeps M own x new body ρ' v r

/-- A body that was bound by a name of `own` keeps its value when a state is put in. -/
def Instantiable (M : Model schema ω) (own : List Name) : Prop :=
  ∀ ⦃x body new r⦄ ⦃ρ : Valuation schema ω⦄ ⦃s v⦄,
    x ∈ own
    → body.IsNormal
    → (∀ y ∈ body.enclosing x, y ∈ own)
    → body.BindsWithin own
    → (∀ w ∈ new.freeNames, w ∉ own)
    → (∀ a, Simplifies new a → M.denote a ρ = some (.state s))
    → M.denote body (Function.update ρ x (.state s)) = some v
    → Simplifies (body.subst x new) r
    → M.denote r ρ = some v ∧ r.BindsWithin own

variable {own : List Name} {x : Name} {new : Expr} {ρ ρ' : Valuation schema ω} {v : Value schema ω}

/-- A part under no binder of its own has fewer names of every kind. -/
theorem Replaces.part {whole part : Expr} (h : Replaces M own x new whole ρ ρ')
    (inside : ∀ names, Gathers names → ∀ w ∈ names part, w ∈ names whole)
    : Replaces M own x new part ρ ρ' where
  agree w free := h.agree w (inside _ gathers_freeNames w free)
  value free := h.value (inside _ gathers_freeNames x free)
  within free := h.within (inside _ gathers_freeNames x free)
  clear y around := h.clear y (inside _ (gathers_enclosing x) y around)
  free w here := h.free w (inside _ gathers_freeNames w here)
  bound w here := h.bound w (inside _ gathers_binders w here)
  outside := h.outside

/-- Under a binder of another name, whatever it binds. -/
theorem Replaces.under {z : Name} {body : Expr} (h : Replaces M own x new (.collect z body) ρ ρ')
    (other : z ≠ x) (w : Value schema ω)
    : Replaces M own x new body (Function.update ρ z w) (Function.update ρ' z w) := by
  have free {y} (here : y ∈ body.freeNames) (differ : y ≠ z) : y ∈ (collect z body).freeNames :=
    List.mem_filter.mpr ⟨here, decide_eq_true differ⟩
  -- The binder is around the occurrences of `x`, so it is not free in what is put there.
  have around (here : x ∈ body.freeNames) : z ∈ (collect z body).enclosing x := by
    simp [enclosing, other, here]
  constructor
  · intro y here differ
    by_cases same : y = z
    · rw [same, Function.update_self, Function.update_self]
    · rw [Function.update_of_ne same, Function.update_of_ne same]
      exact h.agree y (free here same) differ
  · intro here a done
    have absent : z ∉ a.freeNames := fun inside =>
      h.clear z (around here) (done.freeNames_subset z inside)
    rw [denote_update_of_notMem absent, Function.update_of_ne (Ne.symm other)]
    exact h.value (free here (Ne.symm other)) a done
  · intro here a done
    exact h.within (free here (Ne.symm other)) a done
  · intro y inner
    refine h.clear y ?_
    simp [enclosing, other, mem_freeNames_of_enclosing inner, inner]
  · intro y here
    by_cases same : y = z
    · exact h.bound y (by simp [binders, same])
    · exact h.free y (free here same)
  · intro y here
    exact h.bound y (List.mem_cons_of_mem z here)
  · exact h.outside

theorem Keeps.of_value {body r : Expr} (value : M.denote r ρ' = some v)
    (noFn : ∀ f, v ≠ .fn f) (noSet : ∀ members, v ≠ .set members)
    (around : own = [] → ∀ w, w ≠ x → w ∉ new.freeNames
      → ∀ y ∈ r.enclosing w, y ∈ body.enclosing w)
    : Keeps M own x new body ρ' v r where
  value := value
  within _ := bindsWithin_of_isBinder (isBinder_of_denote value noFn noSet)
  around := around

namespace Replaceable

theorem of_unchanged {body : Expr} (normal : body.IsNormal) (unchanged : body.subst x new = body)
    (absent : x ∉ body.freeNames)
    : Replaceable M own x new body := by
  intro ρ ρ' v r h value done
  rw [unchanged] at done
  cases normal.eq_of_simplifies done
  refine ⟨?_, bindsWithin_of_isBinder, fun _ _ _ _ _ around => around⟩
  rw [← value]
  refine denote_congr fun w free => (h.agree w free ?_).symm
  intro same
  exact absent (same ▸ free)

theorem var (z : Name) : Replaceable M own x new (.var z) := by
  by_cases same : z = x
  · subst same
    intro ρ ρ' v r h value done
    simp only [subst, if_true] at done
    have here : z ∈ (Expr.var z).freeNames := List.mem_singleton.mpr rfl
    cases value
    refine ⟨h.value here r done, fun _ => h.within here r done, ?_⟩
    intro _ w _ absent y around
    exact (absent (done.freeNames_subset w (mem_freeNames_of_enclosing around))).elim
  · refine of_unchanged (.var z) (by simp [subst, same]) ?_
    intro here
    exact same (List.mem_singleton.mp here).symm

theorem not {e : Expr} (ih : Replaceable M own x new e) : Replaceable M own x new (.not e) := by
  intro ρ ρ' v r h value done
  obtain ⟨b, part, same⟩ := denote_not.mp value
  cases same
  cases done with
  | not done =>
      have kept := ih (h.part fun names gathers w inside => by rwa [gathers.not]) part done
      refine .of_value (denote_foldNot kept.value) nofun nofun ?_
      intro alone w differ absent y around
      exact kept.around alone w differ absent y ((gathers_enclosing w).of_foldNot around)

/-- The two parts of a node that binds nothing. -/
theorem parts {whole a b a' b' : Expr} {p q : Value schema ω} (iha : Replaceable M own x new a)
    (ihb : Replaceable M own x new b)
    (names : ∀ names, Gathers names → names whole = names a ++ names b)
    (h : Replaces M own x new whole ρ ρ') (left : M.denote a ρ = some p)
    (right : M.denote b ρ = some q) (doneLeft : Simplifies (a.subst x new) a')
    (doneRight : Simplifies (b.subst x new) b')
    : M.denote a' ρ' = some p
      ∧ M.denote b' ρ' = some q
      ∧ (own = [] → ∀ w, w ≠ x → w ∉ new.freeNames
          → ∀ y, y ∈ a'.enclosing w ∨ y ∈ b'.enclosing w → y ∈ whole.enclosing w) := by
  have keptLeft := iha (h.part fun _ gathers w inside => by simp [names _ gathers, inside])
    left doneLeft
  have keptRight := ihb (h.part fun _ gathers w inside => by simp [names _ gathers, inside])
    right doneRight
  refine ⟨keptLeft.value, keptRight.value, fun alone w differ absent y around => ?_⟩
  rw [names _ (gathers_enclosing w), List.mem_append]
  exact around.imp (keptLeft.around alone w differ absent y)
    (keptRight.around alone w differ absent y)

theorem and {a b : Expr} (iha : Replaceable M own x new a) (ihb : Replaceable M own x new b)
    : Replaceable M own x new (.and a b) := by
  intro ρ ρ' v r h value done
  obtain ⟨p, q, left, right, same⟩ := denote_and.mp value
  cases same
  cases done with
  | and doneLeft doneRight =>
      obtain ⟨left', right', around⟩ :=
        parts iha ihb (fun _ gathers => gathers.and a b) h left right doneLeft doneRight
      refine .of_value (denote_foldAnd left' right') nofun nofun fun alone w differ absent y inner => ?_
      exact around alone w differ absent y ((gathers_enclosing w).of_foldAnd inner)

theorem or {a b : Expr} (iha : Replaceable M own x new a) (ihb : Replaceable M own x new b)
    : Replaceable M own x new (.or a b) := by
  intro ρ ρ' v r h value done
  obtain ⟨p, q, left, right, same⟩ := denote_or.mp value
  cases same
  cases done with
  | or doneLeft doneRight =>
      obtain ⟨left', right', around⟩ :=
        parts iha ihb (fun _ gathers => gathers.or a b) h left right doneLeft doneRight
      refine .of_value (denote_foldOr left' right') nofun nofun fun alone w differ absent y inner => ?_
      exact around alone w differ absent y ((gathers_enclosing w).of_foldOr inner)

theorem eq {a b : Expr} (iha : Replaceable M own x new a) (ihb : Replaceable M own x new b)
    : Replaceable M own x new (.eq a b) := by
  intro ρ ρ' v r h value done
  obtain ⟨p, q, left, right, comparable, same⟩ := denote_eq.mp value
  cases same
  cases done with
  | eq doneLeft doneRight =>
      obtain ⟨left', right', around⟩ :=
        parts iha ihb (fun _ gathers => gathers.eq a b) h left right doneLeft doneRight
      refine .of_value (denote_foldEq left' right' comparable) nofun nofun
        fun alone w differ absent y inner => ?_
      exact around alone w differ absent y ((gathers_enclosing w).of_foldEq inner)

theorem update {state b : Expr} {name : Name} (iha : Replaceable M own x new state)
    (ihb : Replaceable M own x new b)
    : Replaceable M own x new (.update state name b) := by
  intro ρ ρ' v r h value done
  obtain ⟨s, c, fit, left, right, same⟩ := denote_update.mp value
  cases same
  cases done with
  | update doneLeft doneRight =>
      obtain ⟨left', right', around⟩ := parts iha ihb (fun _ gathers => gathers.update state name b)
        h left right doneLeft doneRight
      refine .of_value (denote_update.mpr ⟨s, c, fit, left', right', rfl⟩) nofun nofun
        fun alone w differ absent y inner => ?_
      exact around alone w differ absent y (List.mem_append.mp inner)

theorem field {state : Expr} {name : Name} (ih : Replaceable M own x new state)
    : Replaceable M own x new (.field state name) := by
  intro ρ ρ' v r h value done
  obtain ⟨s, part, same⟩ := denote_field.mp value
  cases same
  obtain ⟨state', doneState, doneField⟩ := simplifies_field_iff.mp done
  have kept := ih (h.part fun names gathers w inside => by rwa [gathers.field]) part doneState
  obtain ⟨read, around⟩ := denote_field_of_normal doneState.isNormal kept.value doneField
  refine .of_value read nofun nofun ?_
  intro alone w differ absent y inner
  exact kept.around alone w differ absent y (around w y inner)

/-- The names around a variable stay the same under a binder. -/
theorem around_binder {z w y : Name} {body body' : Expr}
    (done : Simplifies (body.subst x new) body') (absent : w ∉ new.freeNames)
    (inside : ∀ y ∈ body'.enclosing w, y ∈ body.enclosing w)
    (around : y ∈ (Expr.collect z body').enclosing w)
    : y ∈ (Expr.collect z body).enclosing w := by
  simp only [enclosing] at around ⊢
  split at around
  · next both =>
      have free : w ∈ body.freeNames := by
        rcases mem_freeNames_subst (done.freeNames_subset w both.2) with here | there
        · exact here.1
        · exact (absent there).elim
      rw [if_pos ⟨both.1, free⟩]
      exact (List.mem_cons.mp around).elim (fun same => same ▸ List.mem_cons_self)
        fun inner => List.mem_cons_of_mem z (inside y inner)
  · cases around

theorem lam {z : Name} {type : Option Name} {body : Expr} (normal : body.IsNormal)
    (ih : Replaceable M own x new body)
    : Replaceable M own x new (.lam z type body) := by
  by_cases same : z = x
  · exact of_unchanged (.lam normal) (by simp [subst, same]) (by simp [freeNames, same])
  · intro ρ ρ' v r h value done
    obtain ⟨f, bodies, result⟩ := denote_lam.mp value
    cases result
    simp only [subst, same, if_false] at done
    cases done with
    | lam done =>
        have under (s : State schema) :=
          (h.part fun _ gathers w inside => by rwa [gathers.lam]).under same (.state s)
        have kept (s : State schema) := ih (under s) (bodies s) done
        refine ⟨denote_lam.mpr ⟨f, fun s => (kept s).value, rfl⟩, ?_, ?_⟩
        · intro other
          cases other
        · intro alone w differ absent y around
          obtain ⟨s⟩ := State.nonempty schema
          exact around_binder done absent ((kept s).around alone w differ absent) around

theorem collect {z : Name} {body : Expr} (normal : (Expr.collect z body).IsNormal)
    (ih : Replaceable M own x new body)
    : Replaceable M own x new (.collect z body) := by
  by_cases same : z = x
  · exact of_unchanged normal (by simp [subst, same]) (by simp [freeNames, same])
  · intro ρ ρ' v r h value done
    obtain ⟨members, bodies, result⟩ := denote_collect.mp value
    cases result
    simp only [subst, same, if_false] at done
    cases done with
    | collect done =>
        have kept (s : State schema) := ih (h.under same (.state s)) (bodies s) done
        refine ⟨denote_foldCollect fun s => (kept s).value, ?_, ?_⟩
        · intro other
          cases other
        · intro alone w differ absent y around
          obtain ⟨s⟩ := State.nonempty schema
          exact around_binder done absent ((kept s).around alone w differ absent)
            ((gathers_enclosing w).of_foldCollect around)

/-- The names of `own` stay apart from what is put in, also after the replacement. -/
theorem free_subst {part : Expr} (h : Replaces M own x new part ρ ρ')
    : ∀ w ∈ (part.subst x new).freeNames, w ∉ own := by
  intro w here
  rcases mem_freeNames_subst here with before | put
  · exact h.free w before.1
  · exact h.outside w put

/-- If a comprehension arises in the place of the set, it is one that the replacement brought. -/
theorem mem {elem set : Expr} (inst : Instantiable M own) (stuck : isSetForm set = false)
    (ihelem : Replaceable M own x new elem) (ihset : Replaceable M own x new set)
    : Replaceable M own x new (.mem elem set) := by
  intro ρ ρ' v r h value done
  obtain ⟨s, members, left, right, same⟩ := denote_mem.mp value
  cases same
  have hElem : Replaces M own x new elem ρ ρ' :=
    h.part fun _ gathers w inside => by simp [gathers.mem, inside]
  have hSet : Replaces M own x new set ρ ρ' :=
    h.part fun _ gathers w inside => by simp [gathers.mem, inside]
  have other : set.isBinder = false := by
    cases set with
    | lam =>
        obtain ⟨f, _, clash⟩ := denote_lam.mp right
        cases clash
    | collect => cases stuck
    | _ => rfl
  cases done with
  | memUniv form =>
      have kept := (ihset hSet right form).value
      rw [denote] at kept
      cases kept
      exact .of_value (denote_bool.mpr rfl) nofun nofun fun _ _ _ _ _ inner => nomatch inner
  | memEmpty form =>
      have kept := (ihset hSet right form).value
      rw [denote] at kept
      cases kept
      exact .of_value (denote_bool.mpr rfl) nofun nofun fun _ _ _ _ _ inner => nomatch inner
  | @memCollect _ _ u body _ form reduct =>
      have kept := ihset hSet right form
      obtain ⟨_, bodies, equal⟩ := denote_collect.mp kept.value
      cases equal
      obtain ⟨mine, around⟩ := kept.within other
      have normal := form.isNormal.collect_body
      have plain := isBinder_of_denote (bodies s) nofun nofun
      have result := inst mine normal around (bindsWithin_of_isBinder plain) (free_subst hElem)
        (fun a doneElem => (ihelem hElem left doneElem).value) (bodies s) reduct
      refine .of_value result.1 nofun nofun fun alone => ?_
      rw [alone] at mine
      cases mine
  | mem form _ doneElem =>
      obtain ⟨left', right', around⟩ :=
        parts ihelem ihset (fun _ gathers => gathers.mem elem set) h left right doneElem form
      refine .of_value (denote_mem.mpr ⟨s, members, left', right', rfl⟩) nofun nofun
        fun alone w differ absent y inner => ?_
      exact around alone w differ absent y (List.mem_append.mp inner)

/-- If an abstraction arises in the place of the function, it is one that the replacement brought. -/
theorem app {fn : Expr} {args : List Expr} (inst : Instantiable M own)
    (stuck : isRedex fn args.length = false) (ihf : Replaceable M own x new fn)
    (ihargs : ∀ arg ∈ args, Replaceable M own x new arg)
    : Replaceable M own x new (.app fn args) := by
  intro ρ ρ' v r h value done
  obtain ⟨f, vs, head, operands, applied⟩ := (denote_app stuck).mp value
  have hFn : Replaces M own x new fn ρ ρ' :=
    h.part fun _ gathers w inside => (gathers.app fn args w).mpr (.inl inside)
  have hArg {arg} (among : arg ∈ args) : Replaces M own x new arg ρ ρ' :=
    h.part fun _ gathers w inside => (gathers.app fn args w).mpr (.inr ⟨arg, among, inside⟩)
  have other : fn.isBinder = false := by
    cases fn with
    | lam =>
        obtain ⟨g, _, same⟩ := denote_lam.mp head
        cases same
        rcases apply_eq_some_iff.mp applied with ⟨_, s, _, single, _⟩ | ⟨o, clash, _⟩
        · rw [single] at operands
          rw [operands.length_eq] at stuck
          cases stuck
        · cases clash
    | collect =>
        obtain ⟨members, _, same⟩ := denote_collect.mp head
        cases same
        cases applied
    | _ => rfl
  rw [subst, substAll_eq_map] at done
  rcases done.app_inv with ⟨u, type, body, E, E', single, doneFn, doneArg, reduct⟩
    | ⟨fn', args', doneFn, stuck', doneArgs, rfl⟩
  · obtain ⟨arg, rfl, rfl⟩ := List.map_eq_singleton_iff.mp single
    have kept := ihf hFn head doneFn
    obtain ⟨g, bodies, same⟩ := denote_lam.mp kept.value
    cases same
    obtain ⟨mine, around, within⟩ := kept.within other
    rcases apply_eq_some_iff.mp applied with ⟨_, s, same, rfl, rfl⟩ | ⟨o, clash, _⟩
    · cases same
      have operand : M.denote arg ρ = some (.state s) := by
        cases operands with
        | cons first _ => exact first
      have among : arg ∈ [arg] := List.mem_singleton.mpr rfl
      have normal := doneFn.isNormal.lam_body
      have state : ∀ a, Simplifies E' a → M.denote a ρ' = some (.state s) := by
        intro a again
        rw [doneArg.isNormal.eq_of_simplifies again]
        exact (ihargs arg among (hArg among) operand doneArg).value
      have free : ∀ w ∈ E'.freeNames, w ∉ own := fun w here =>
        free_subst (hArg among) w (doneArg.freeNames_subset w here)
      have result := inst mine normal around within free state (bodies s) reduct
      refine ⟨result.1, fun _ => result.2, fun alone => ?_⟩
      rw [alone] at mine
      cases mine
    · cases clash
  · rw [List.forall₂_map_left_iff] at doneArgs
    have kept := ihf hFn head doneFn
    have values : List.Forall₂ (fun e v => M.denote e ρ' = some v) args' vs :=
      related_of_common (fun arg among w arg' before doneArg =>
        (ihargs arg among (hArg among) before doneArg).value) operands doneArgs
    rw [List.length_map, doneArgs.length_eq] at stuck'
    refine ⟨(denote_app stuck').mpr ⟨f, vs, kept.value, values, applied⟩,
      fun _ => bindsWithin_of_isBinder rfl, ?_⟩
    intro alone w differ absent y inner
    rw [(gathers_enclosing w).app] at inner ⊢
    refine inner.imp (kept.around alone w differ absent y) fun found => ?_
    obtain ⟨arg', among', inside⟩ := found
    obtain ⟨arg, among, doneArg⟩ := exists_left_of_mem doneArgs among'
    obtain ⟨u, _, before⟩ := exists_right_of_mem operands among
    exact ⟨arg, among, (ihargs arg among (hArg among) before doneArg).around alone w differ absent
      y inside⟩

end Replaceable

/-- Replacement in a normal form, by induction on the form. -/
theorem replaceable_of_normal (inst : Instantiable M own) {body : Expr} (normal : body.IsNormal)
    : Replaceable M own x new body := by
  induction normal with
  | var z => exact .var z
  | const | num | bool | univ | empty | arbitrary =>
      exact .of_unchanged (by constructor) rfl List.not_mem_nil
  | not _ _ ih => exact ih.not
  | and _ _ _ iha ihb => exact iha.and ihb
  | or _ _ _ iha ihb => exact iha.or ihb
  | eq _ _ _ iha ihb => exact iha.eq ihb
  | app _ _ stuck ihf ihargs => exact .app inst stuck ihf ihargs
  | lam part ih => exact .lam part ih
  | collect part stuck ih => exact .collect (.collect part stuck) ih
  | mem _ _ stuck ihelem ihset => exact .mem inst stuck ihelem ihset
  | field _ _ ih => exact ih.field
  | update _ _ iha ihb => exact iha.update ihb

/-- No abstraction arises from states. -/
theorem instantiable_nil : Instantiable M [] := by
  intro x body new r ρ s v mine
  cases mine

/-- Putting in a state leaves the head as it is, by induction on the body. -/
theorem bindsWithin_of_replaces {body r : Expr} (normal : body.IsNormal)
    (h : Replaces M [] x new body ρ ρ') (value : M.denote body ρ = some v)
    (apart : ∀ w ∈ new.freeNames, w ∉ own) (within : body.BindsWithin own)
    (done : Simplifies (body.subst x new) r)
    : r.BindsWithin own := by
  induction body generalizing ρ ρ' v r with
  | lam z type body ih =>
      by_cases same : z = x
      · simp only [subst, same, if_true] at done
        rw [same] at normal within
        rwa [normal.eq_of_simplifies done]
      · obtain ⟨f, bodies, _⟩ := denote_lam.mp value
        simp only [subst, same, if_false] at done
        cases normal with
        | lam part =>
            cases done with
            | lam done =>
                obtain ⟨mine, around, inner⟩ := within
                obtain ⟨s⟩ := State.nonempty schema
                have under := (h.part fun _ gathers w inside => by rwa [gathers.lam]).under same
                  (.state s)
                have kept := replaceable_of_normal instantiable_nil part under (bodies s) done
                refine ⟨mine, fun y inside => around y ?_, ih part under (bodies s) inner done⟩
                exact kept.around rfl z same (fun put => apart z put mine) y inside
  | collect z body ih =>
      by_cases same : z = x
      · simp only [subst, same, if_true] at done
        rw [same] at normal within
        rwa [normal.eq_of_simplifies done]
      · obtain ⟨members, bodies, _⟩ := denote_collect.mp value
        simp only [subst, same, if_false] at done
        cases normal with
        | collect part _ =>
            cases done with
            | @collect _ _ body' done =>
                obtain ⟨mine, around⟩ := within
                obtain ⟨s⟩ := State.nonempty schema
                have under := h.under same (.state s)
                have kept := replaceable_of_normal instantiable_nil part under (bodies s) done
                rcases foldCollect_cases z body' with here | full | none
                · rw [here]
                  refine ⟨mine, fun y inside => around y ?_⟩
                  exact kept.around rfl z same (fun put => apart z put mine) y inside
                · rw [full]
                  trivial
                · rw [none]
                  trivial
  | _ =>
      have kept := replaceable_of_normal instantiable_nil normal h value done
      exact bindsWithin_of_isBinder (isBinder_of_bindsWithin (kept.within rfl))

/-- What a function takes is a state, which is in order to put in wherever the function's own
names stand around the place. -/
theorem instantiable (own : List Name) : Instantiable M own := by
  intro x body new r ρ s v _ normal around within apart state value done
  have h : Replaces M [] x new body (Function.update ρ x (.state s)) ρ := by
    constructor
    · intro w _ differ
      rw [Function.update_of_ne differ]
    · intro _ a doneNew
      rw [Function.update_self]
      exact state a doneNew
    · intro _ a doneNew
      exact bindsWithin_of_isBinder (isBinder_of_denote (state a doneNew) nofun nofun)
    · intro y inside put
      exact apart y put (around y inside)
    · exact fun _ _ => List.not_mem_nil
    · exact fun _ _ => List.not_mem_nil
    · exact fun _ _ => List.not_mem_nil
  have kept := replaceable_of_normal instantiable_nil normal h value done
  exact ⟨kept.value, bindsWithin_of_replaces normal h value apart within done⟩

end Model

end Expr

end Monadize
