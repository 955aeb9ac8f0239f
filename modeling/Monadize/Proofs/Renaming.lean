import Monadize.Proofs.Cluster.Commit
import Monadize.Proofs.Run.Consistency

/-! Renaming constants. What a store holds mentions its own constants only, and what is registered
of a function mentions the constants of its callees and its own.
-/

namespace Monadize

variable (ρ : ConstId → ConstId)

def CalleeRef.rename : CalleeRef → CalleeRef
  | .placeholder p => .placeholder p
  | .const k => .const (ρ k)

def Callee.rename (callee : Callee) : Callee := { callee with target := callee.target.rename ρ }

def Term.rename (t : Term) : Term := t.mapParts id (Callee.rename ρ)

def Judgement.rename : Judgement → Judgement
  | .corres term stmt => .corres (term.rename ρ) stmt
  | .callCorres term proc => .callCorres (term.rename ρ) proc
  | .fnCorres k proc => .fnCorres (ρ k) proc
  | .mono k => .mono (ρ k)
  | .monoAll ks => .monoAll (ks.map ρ)

def Theorem.rename (thm : Theorem) : Theorem := { thm with judgement := thm.judgement.rename ρ }

def Definition.rename (d : Definition) : Definition :=
  ⟨d.name, d.body.map (Term.rename ρ), d.thm.map (Theorem.rename ρ)⟩

def Registration.rename (r : Registration) : Registration :=
  { r with
    const := ρ r.const
    term := r.term.rename ρ
    thm := r.thm.rename ρ
    mono := r.mono.map (Theorem.rename ρ)
    calleeConsts := r.calleeConsts.mapValues ρ }

def Function.rename (f : Function) : Function :=
  { f with registration := f.registration.map (Registration.rename ρ) }

variable {ρ}

-----------------------------------------------------------------------------------------
-- Constants that keep their names
-----------------------------------------------------------------------------------------

section Fixed

variable {store : Store} (fixed : ∀ k < store.size, ρ k = k)

include fixed

theorem Store.Defines.rename_eq {k : ConstId} (defined : store.Defines k) : ρ k = k := by
  obtain ⟨_, _, _, _, _, found⟩ := defined
  exact fixed k (List.getElem?_eq_some_iff.mp found).1

theorem Term.rename_eq {t : Term} (closed : store.Closes t) : t.rename ρ = t := by
  refine (Term.mapParts_congr ?_ id).trans (Term.mapParts_id t)
  intro callee called
  obtain ⟨k, target, defined⟩ := closed callee called
  obtain ⟨_, measure⟩ := callee
  cases target
  simp only [Callee.rename, CalleeRef.rename, defined.rename_eq fixed, id]

/-- A definition that the store holds mentions constants of the store only. -/
theorem Definition.rename_eq {k : ConstId} {d : Definition} (found : store.get? k = some d)
    (holds : store.Holds k d)
    : d.rename ρ = d := by
  rcases holds with reserved | ⟨body, same, closed, defined⟩
  · rw [reserved]
    rfl
  · have own := defined.rename_eq fixed
    obtain ⟨name, _, total, env, proc, foundToo⟩ := defined
    cases found.symm.trans foundToo
    cases same
    simp only [Definition.rename, Option.map_some, Term.rename_eq fixed closed, Theorem.rename,
      Judgement.rename, own]

/-- A registration that the store holds mentions constants of the store only. -/
theorem Registration.Held.rename_eq {f : Function} {r : Registration} (held : r.Held store f)
    : r.rename ρ = r := by
  have own : ρ r.const = r.const :=
    fixed r.const (List.getElem?_eq_some_iff.mp held.defined).1
  have term : r.term.rename ρ = r.term := Term.rename_eq fixed held.closed
  have thm : r.thm.rename ρ = r.thm := by
    obtain ⟨total, env, thm⟩ := held.about
    rw [thm, Theorem.rename, Judgement.rename, own]
  have mono : r.mono.map (Theorem.rename ρ) = r.mono := by
    cases proved : r.mono with
    | none => rfl
    | some thm =>
        obtain ⟨total, env, rfl⟩ := held.mono thm proved
        rw [Option.map_some, Theorem.rename, Judgement.rename, own]
  have consts : r.calleeConsts.mapValues ρ = r.calleeConsts := by
    refine congrArg FiniteMap.mk ?_
    refine (List.map_congr_left fun entry among => ?_).trans (List.map_id _)
    rw [(held.calleeConsts entry.1 entry.2 among).rename_eq fixed]
    rfl
  rw [Registration.rename, own, term, thm, mono, consts]

theorem Function.rename_eq {f : Function}
    (held : ∀ r, f.registration = some r → r.Held store f)
    : f.rename ρ = f := by
  unfold Function.rename
  cases registered : f.registration with
  | none => rw [Option.map_none, ← registered]
  | some r => rw [Option.map_some, (held r registered).rename_eq fixed, ← registered]

end Fixed

-----------------------------------------------------------------------------------------
-- Constants of a cluster
-----------------------------------------------------------------------------------------

/-- Renaming the constants that have taken the place of placeholders is the same as putting in the
renamed ones.
-/
theorem Term.rename_instantiate {t : Term}
    (placed : ∀ callee ∈ t.callees, ∃ p, callee.target = .placeholder p)
    (find : PlaceholderId → Option ConstId)
    : (t.instantiate find).rename ρ = t.instantiate fun p => (find p).map ρ := by
  refine (Term.mapParts_mapParts ..).trans (Term.mapParts_congr ?_ id)
  intro callee called
  obtain ⟨_, measure⟩ := callee
  obtain ⟨p, target⟩ := placed _ called
  cases target
  simp only [Callee.instantiate]
  cases find p with
  | none => rfl
  | some k => rfl

/-- Renaming the constants of a registered function is the same as registering it with the renamed
constants.
-/
theorem Cluster.registration_rename {c : Compiled}
    (placed : ∀ callee ∈ c.term.callees, ∃ p, callee.target = .placeholder p) (settings : Settings)
    (env : Environment) (measured : Bool) (consts : CalleeEntry → Option ConstId) (k : ConstId)
    : (registration settings env measured consts c k).rename ρ
      = registration settings env measured (fun entry => (consts entry).map ρ) c (ρ k) := by
  have term : (c.term.instantiate fun p => (c.callees.entries[p]?).bind consts).rename ρ
      = c.term.instantiate fun p =>
          (c.callees.entries[p]?).bind fun entry => (consts entry).map ρ := by
    simp only [Term.rename_instantiate placed, Option.map_bind]
    rfl
  have listed : (c.thm.hyps.keys.filterMap fun p =>
        (c.callees.entries[p]?).bind fun entry =>
          (consts entry).map fun k => (entry.func, k)).map (fun binding => (binding.1, ρ binding.2))
      = c.thm.hyps.keys.filterMap fun p =>
          (c.callees.entries[p]?).bind fun entry =>
            ((consts entry).map ρ).map fun k => (entry.func, k) := by
    rw [List.map_filterMap]
    refine List.filterMap_congr fun p _ => ?_
    rw [Option.map_bind]
    refine Option.bind_congr fun entry _ => ?_
    rw [Function.comp_apply, Option.map_map, Option.map_map]
    rfl
  have mono : (if measured then some ⟨settings.total, env, .mono k, .empty, none⟩
        else none : Option Theorem).map (Theorem.rename ρ)
      = if measured then some ⟨settings.total, env, .mono (ρ k), .empty, none⟩ else none := by
    cases measured <;> rfl
  simp only [registration, Registration.rename, term, mono, FiniteMap.mapValues_ofList, listed]
  rfl

end Monadize
