import Monadize.Finishing
import Monadize.Proofs.Expr.Choices
import Monadize.Proofs.Expr.Preservation
import Monadize.Proofs.Kernel.Validity

/-! When starting a term with an initialization keeps a theorem valid. The procedure starts in the
state as it is, so the initialization must be able to leave it alone. One that gives a component the
unspecified value can; one that overwrites a component cannot, and the kernel accepts both.
-/

namespace Monadize

open Monadize.Expr

-----------------------------------------------------------------------------------------
-- Choices in front of a computation
-----------------------------------------------------------------------------------------

section Choice

variable {σ ν : Type*} {I : Interpretation σ ν} {link : Linking σ} {init : Expr}

/-- A choice in front of a computation keeps a correspondence if it may be to stay. -/
theorem Corresponds.choose_seq {total : Bool} {rel : σ → σ → Prop} {a : Computation σ}
    {b : Behaviour σ} (stays : ∀ s t, rel s t → rel s s) (h : Corresponds total a b)
    : Corresponds total ((Computation.choose rel).seq a) b := by
  have stay (s : σ) (safe : ¬ ((Computation.choose rel).seq a).fails s)
      : (Computation.choose rel).ends s (.normal s) ∧ ¬ a.fails s := by
    obtain ⟨some, safeRest⟩ := not_or.mp safe
    obtain ⟨t, allowed⟩ := not_forall_not.mp some
    have ended : (Computation.choose rel).ends s (.normal s) := ⟨s, stays s t allowed, rfl⟩
    exact ⟨ended, fun failing => safeRest ⟨s, ended, failing⟩⟩
  constructor
  · intro s o safe run
    obtain ⟨ended, safe⟩ := stay s safe
    exact .seq ended (h.allows s o safe run)
  · intro strict s safe
    exact h.terminates strict s (stay s safe).2

/-- The initialization is put in front of the term, or of the part under its guard. -/
theorem Theorem.Valid.initReturn {thm thm' : Theorem} {rule : Lemma} (h : thm.Valid I link)
    (stays : ∀ s t, I.init I.globals init s t → I.init I.globals init s s)
    (started : thm.initReturn rule init = .ok thm')
    : thm'.Valid I link := by
  obtain ⟨total, env, judgement, hyps, measure⟩ := thm
  cases judgement with
  | callCorres term proc =>
      simp only [Theorem.initReturn] at started
      split at started
      · next measure body =>
          cases started
          intro satisfied measures
          have holds := h satisfied measures
          simp only [Term.denote] at holds
          refine .recGuard fun positive => ?_
          rw [Computation.recGuard, if_neg positive] at holds
          exact holds.choose_seq stays
      · cases started
        intro satisfied measures
        exact (h satisfied measures).choose_seq stays
      · cases started
  | _ => cases started

end Choice

-----------------------------------------------------------------------------------------
-- A procedure that does nothing
-----------------------------------------------------------------------------------------

/-- The only procedure does nothing. -/
def Environment.idle : Environment := ⟨0, "w", .ofList [("p", .skip)]⟩

namespace InitStrategy

/-- A term to which the strategy applies and that does nothing at a positive measure. -/
def idle : InitStrategy → Term
  | .underRecGuard => .recGuard 0 .skip
  | .prepend => .skip

/-- The idle term corresponds to a call of the procedure. -/
def idleTheorem (strategy : InitStrategy) : Theorem where
  total := true
  env := .idle
  judgement := .callCorres strategy.idle "p"
  hyps := .empty
  measure := some 0

section Idle

variable {σ ν : Type*} (I : Interpretation σ ν) (link : Linking σ) (strategy : InitStrategy)

theorem valid_idleTheorem : strategy.idleTheorem.Valid I link := by
  let body (term : Term) : Theorem := ⟨true, .idle, .corres term .skip, .empty, some 0⟩
  have skips : (body .skip).Valid I link := fun _ _ => .skip
  have idles : (body strategy.idle).Valid I link := by
    cases strategy with
    | prepend => exact skips
    | underRecGuard => exact skips.guardRecursion rfl
  have unfolded : (body strategy.idle).unfold "p" = .ok strategy.idleTheorem := rfl
  exact idles.unfold unfolded

/-- What the kernel makes of the idle term, at measure one. -/
theorem exists_initReturn_idleTheorem (init : Expr)
    : ∃ term,
        strategy.idleTheorem.initReturn strategy.rule init
          = .ok { strategy.idleTheorem with judgement := .callCorres term "p" }
        ∧ term.denote I link (fun _ => 1) = .choose (I.init I.globals init) := by
  cases strategy with
  | prepend => exact ⟨.seq (.init init) .skip, rfl, Computation.seq_skip _⟩
  | underRecGuard => exact ⟨.recGuard 0 (.seq (.init init) .skip), rfl, Computation.seq_skip _⟩

/-- If the theorem about the idle term stays valid, the initialization may leave the state alone. -/
theorem stays_of_valid {init : Expr} {thm : Theorem}
    (started : strategy.idleTheorem.initReturn strategy.rule init = .ok thm)
    (h : thm.Valid I link) {s t : σ} (allowed : I.init I.globals init s t)
    : I.init I.globals init s s := by
  obtain ⟨term, made, chooses⟩ := strategy.exists_initReturn_idleTheorem I link init
  cases made.symm.trans started
  have satisfied : link.Satisfies I true .idle .empty := by
    intro p hyp found
    cases found
  have corresponds := h satisfied fun _ => 1
  rw [chooses] at corresponds
  have safe : ¬ (Computation.choose (I.init I.globals init)).fails s := fun none => none t allowed
  obtain ⟨u, stays, same⟩ := corresponds.allows s (.normal s) safe .skip
  cases same
  exact stays

/-- Starting the terms of theorems with the initialization keeps them valid. -/
def Sound (init : Expr) : Prop :=
  ∀ thm thm' : Theorem,
    thm.Valid I link → thm.initReturn strategy.rule init = .ok thm' → thm'.Valid I link

/-- The idle term is the worst case. -/
theorem sound_iff {init : Expr}
    : strategy.Sound I link init
      ↔ ∀ s t, I.init I.globals init s t → I.init I.globals init s s := by
  constructor
  · intro sound s t allowed
    obtain ⟨_, made, _⟩ := strategy.exists_initReturn_idleTheorem I link init
    have valid := sound _ _ (strategy.valid_idleTheorem I link) made
    exact strategy.stays_of_valid I link made valid allowed
  · intro stays thm thm' h started
    exact h.initReturn stays started

end Idle

end InitStrategy

-----------------------------------------------------------------------------------------
-- Soundness
-----------------------------------------------------------------------------------------

variable {α ω : Type} {schema : Schema α}

/-- The interpretation with initializations read by the model, so that each occurrence of the
unspecified value in them stands for any value.
-/
def Interpretation.initBy (I : Interpretation (State schema) (Valuation schema ω))
    (M : Model schema ω) : Interpretation (State schema) (Valuation schema ω) :=
  { I with init := fun ρ f => M.Leads f ρ }

namespace Theorem

variable {M : Model schema ω} {I : Interpretation (State schema) (Valuation schema ω)}
  {link : Linking (State schema)}

/-- The unspecified value of a return slot may be the one that it has. -/
theorem Valid.initSlot {thm thm' : Theorem} {slot : Name} (h : thm.Valid (I.initBy M) link)
    (started : thm.initSlot slot = .ok thm')
    : thm'.Valid (I.initBy M) link := by
  unfold Theorem.initSlot at started
  split at started
  · cases started
    exact h
  · split at started
    · cases started
      exact h
    · refine h.initReturn ?_ started
      intro s t _
      exact Model.leads_returnInit_iff.mpr ⟨s.get slot, s.fits slot, (s.set_get slot).symm⟩

variable (M I link)

/-- An initialization can be put at the start of terms exactly if it can leave the state alone
wherever it leads anywhere. If it is specified it then does nothing. The initialization of a return
slot is of this kind, so that it keeps theorems valid.
-/
theorem initReturn_sound_iff (strategy : InitStrategy) (init : Expr)
    : (strategy.Sound (I.initBy M) link init
        ↔ ∀ s t, M.Leads init I.globals s t → M.Leads init I.globals s s)
      ∧ (init.Specified
          → (strategy.Sound (I.initBy M) link init
              ↔ ∀ s t,
                  (M.denote init I.globals).bind (fun f => M.apply f [.state s])
                    = some (.state t)
                  → t = s))
      ∧ ∀ (slot : Name) (thm thm' : Theorem),
          thm.Valid (I.initBy M) link
          → thm.initSlot slot = .ok thm'
          → thm'.Valid (I.initBy M) link := by
  have stays : strategy.Sound (I.initBy M) link init
      ↔ ∀ s t, M.Leads init I.globals s t → M.Leads init I.globals s s :=
    strategy.sound_iff (I.initBy M) link
  refine ⟨stays, ?_, fun slot thm thm' h started => h.initSlot started⟩
  intro specified
  simp only [stays, Model.leads_iff_denote specified]
  constructor
  · intro stays s t leads
    have same := leads.symm.trans (stays s t leads)
    cases same
    rfl
  · intro idle s t leads
    cases idle s t leads
    exact leads

/-- The kernel puts an initialization that overwrites a component in front of the term of a
procedure that does nothing, and the theorem is no longer valid.
-/
theorem initReturn_overwrites
    : let init : Expr := .lam "s" (some "w") (.update (.var "s") "a" (.num 0))
      ∃ thm thm',
        (do
            let body ← Goal.prove ⟨true, .idle, .corres .skip .skip⟩ (.apply .skip []) [] 0
            body.unfold "p") = .ok thm
        ∧ thm.initReturn .initReturn init = .ok thm'
        ∧ ∀ (I : Interpretation (State Model.numbers) (Valuation Model.numbers Empty))
            (link : Linking (State Model.numbers)),
            thm.Valid (I.initBy Model.plainNumbers) link
            ∧ ¬ thm'.Valid (I.initBy Model.plainNumbers) link := by
  intro init
  refine ⟨InitStrategy.prepend.idleTheorem, _, rfl, rfl, fun I link => ?_⟩
  refine ⟨InitStrategy.prepend.valid_idleTheorem _ _, fun valid => ?_⟩
  have denotes : Model.plainNumbers.denote init I.globals
      = some (.fn fun s => .state (s.set "a" (.num 0) ⟨0, rfl⟩)) := by
    refine Model.denote_lam.mpr ⟨_, fun s => Model.denote_update.mpr ⟨s, .num 0, ⟨0, rfl⟩, ?_⟩, rfl⟩
    exact ⟨by rw [Model.denote, Function.update_self], Model.denote_num, rfl⟩
  have overwrites (s t : State Model.numbers) : Model.plainNumbers.Leads init I.globals s t
      ↔ s.set "a" (.num 0) ⟨0, rfl⟩ = t := by
    have specified : init.Specified := ⟨trivial, trivial⟩
    rw [Model.leads_iff_denote specified, denotes]
    simp [Model.apply]
  have stays := InitStrategy.prepend.stays_of_valid (I.initBy Model.plainNumbers) link rfl valid
    ((overwrites Model.ones _).mpr rfl)
  have kept : Model.ones.get "a" = .num 0 := by
    rw [← (overwrites Model.ones Model.ones).mp stays]
    exact State.get_set
  cases kept

end Theorem

end Monadize
