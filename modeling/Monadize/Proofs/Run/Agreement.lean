import Mathlib.Logic.Equiv.Defs
import Monadize.Proofs.Renaming
import Monadize.Proofs.Run.Registrations

/-! Runs that have registered the same compiled functions agree, in whichever order they did: the
functions and the definitions are the same up to a renaming of the constants of the run.
-/

namespace Monadize

-----------------------------------------------------------------------------------------
-- Places in a list
-----------------------------------------------------------------------------------------

/-- The place in the second list of what the first one has at a place. -/
def relocate (l l' : List Name) (k : Nat) : Nat := (l[k]?).elim k l'.idxOf

section Relocate

variable {l l' : List Name}

theorem relocate_of_le {k : Nat} (outside : l.length ≤ k) : relocate l l' k = k := by
  rw [relocate, List.getElem?_eq_none outside]
  rfl

theorem getElem?_relocate (perm : l.Perm l') (k : Nat) : l'[relocate l l' k]? = l[k]? := by
  rcases Nat.lt_or_ge k l.length with inside | outside
  · have here := List.getElem?_eq_getElem inside
    have there : l[k] ∈ l' := perm.mem_iff.mp (List.getElem_mem inside)
    rw [relocate, here, Option.elim_some, List.getElem?_idxOf there]
  · rw [relocate_of_le outside, List.getElem?_eq_none outside,
      List.getElem?_eq_none (perm.length_eq ▸ outside)]

/-- What is at a place goes to where the second list has it. -/
theorem relocate_eq_of_getElem? (once : l'.Nodup) {k k' : Nat} {name : Name}
    (here : l[k]? = some name) (there : l'[k']? = some name)
    : relocate l l' k = k' := by
  obtain ⟨inside, rfl⟩ := List.getElem?_eq_some_iff.mp there
  rw [relocate, here, Option.elim_some, once.idxOf_getElem]

theorem relocate_relocate (once : l.Nodup) (perm : l.Perm l') (k : Nat)
    : relocate l' l (relocate l l' k) = k := by
  rcases Nat.lt_or_ge k l.length with inside | outside
  · have here := List.getElem?_eq_getElem inside
    rw [relocate, getElem?_relocate perm, here, Option.elim_some, once.idxOf_getElem]
  · rw [relocate_of_le outside, relocate_of_le (perm.length_eq ▸ outside)]

end Relocate

/-- The permutation of the places that leads from one list to another order of it. -/
def relocation {l l' : List Name} (once : l.Nodup) (perm : l.Perm l') : Equiv.Perm Nat where
  toFun := relocate l l'
  invFun := relocate l' l
  left_inv := relocate_relocate once perm
  right_inv := relocate_relocate (perm.nodup_iff.mp once) perm.symm

namespace Run

/-- The second state has the functions and the definitions of the first one, up to a renaming of the
constants that are new since `base`.
-/
def Agrees (base first second : RunState) : Prop :=
  ∃ ρ : Equiv.Perm ConstId,
    (∀ k, k < base.store.size ∨ first.store.size ≤ k → ρ k = k)
    ∧ second.functions = first.functions.mapValues (Function.rename ρ)
    ∧ ∀ k, second.store.get? (ρ k) = (first.store.get? k).map (Definition.rename ρ)

variable {program : Program} {settings : Settings} {base : RunState}

namespace Describes

variable {compiled : List Compiled} {state : RunState}
  (describes : Describes program settings base compiled state)

include describes

/-- The store has the names it had before, and those of the registered functions. -/
theorem mem_names {name : Name}
    : name ∈ state.store.names
      ↔ name ∈ base.store.names ∨ ∃ c ∈ compiled, settings.constName c.name = name := by
  constructor
  · intro taken
    obtain ⟨d, among, rfl⟩ := List.mem_map.mp taken
    obtain ⟨k, here⟩ := List.mem_iff_getElem?.mp among
    rcases Nat.lt_or_ge k base.store.size with old | new
    · left
      have before : base.store.get? k = some base.store.consts[k] := List.getElem?_eq_getElem old
      have same := describes.stage.grows.get? before
      cases here.symm.trans same
      exact List.mem_map_of_mem (List.getElem_mem old)
    · obtain ⟨c, member, const⟩ := describes.stored k d here new
      obtain ⟨k', constToo, named⟩ := describes.exists_const? member
      cases const.symm.trans constToo
      rw [Store.names, List.getElem?_map, here] at named
      exact .inr ⟨c, member, (Option.some.inj named).symm⟩
  · rintro (old | ⟨c, member, rfl⟩)
    · exact describes.stage.grows.names_subset old
    · obtain ⟨k, _, named⟩ := describes.exists_const? member
      exact List.mem_of_getElem? named

/-- Constants of before have their names. -/
theorem getElem?_names {k : ConstId} (old : k < base.store.size)
    : state.store.names[k]? = base.store.names[k]? := by
  have before : base.store.get? k = some base.store.consts[k] := List.getElem?_eq_getElem old
  have after : state.store.consts[k]? = some base.store.consts[k] :=
    describes.stage.grows.get? before
  rw [Store.names, Store.names, List.getElem?_map, List.getElem?_map, after,
    show base.store.consts[k]? = some base.store.consts[k] from before]

/-- A compiled function calls placeholders, which are not renamed. -/
theorem placed {c : Compiled} (among : c ∈ compiled)
    : ∀ callee ∈ c.term.callees, ∃ p, callee.target = .placeholder p := by
  obtain ⟨f, _, _, atStart, _⟩ := describes.registered c among
  obtain ⟨input, _, builds⟩ := describes.built c among f atStart
  intro callee called
  obtain ⟨p, _, target, _⟩ := builds.placed callee called
  exact ⟨p, target⟩

end Describes

section Agree

variable {compiled compiled' : List Compiled} {state state' : RunState}
  (opened : Consistent (opening program base))
  (first : Describes program settings base compiled state)
  (second : Describes program settings base compiled' state')
  (same : ∀ c, c ∈ compiled ↔ c ∈ compiled')

include first second

/-- The constants of before keep their names. -/
theorem relocate_of_lt
    : ∀ k < base.store.size, relocate state.store.names state'.store.names k = k := by
  intro k old
  have inside : k < base.store.names.length := by
    rw [Store.names, List.length_map]
    exact old
  have name := List.getElem?_eq_getElem inside
  exact relocate_eq_of_getElem? second.stage.consistent.indexed.nodup_names
    ((first.getElem?_names old).trans name) ((second.getElem?_names old).trans name)

include same

/-- The stores have the same names. -/
theorem names_perm : state.store.names.Perm state'.store.names := by
  refine (List.perm_ext_iff_of_nodup first.stage.consistent.indexed.nodup_names
    second.stage.consistent.indexed.nodup_names).mpr ?_
  intro name
  simp only [first.mem_names, second.mem_names, same]

include opened

/-- A function is registered as the renamed constant. -/
theorem const?_relocate (name : Name)
    : state'.functions.const? name
      = (state.functions.const? name).map (relocate state.store.names state'.store.names) := by
  by_cases member : name ∈ compiled.map (·.name)
  · obtain ⟨c, among, rfl⟩ := List.mem_map.mp member
    obtain ⟨k, const, named⟩ := first.exists_const? among
    obtain ⟨k', const', named'⟩ := second.exists_const? ((same c).mp among)
    rw [const, const', Option.map_some,
      relocate_eq_of_getElem? second.stage.consistent.indexed.nodup_names named named']
  · have absent : name ∉ compiled'.map (·.name) := by
      simpa only [List.mem_map, same] using member
    simp only [FunctionTable.const?, first.others name member, second.others name absent]
    cases atStart : (opening program base).functions.find? name with
    | none => rfl
    | some f =>
        cases registered : f.registration with
        | none => simp only [Option.bind_some, registered, Option.map_none]
        | some r =>
            have held := opened.held name f r atStart registered
            have old : r.const < base.store.size := (List.getElem?_eq_some_iff.mp held.defined).1
            simp only [Option.bind_some, registered, Option.map_some,
              relocate_of_lt first second _ old]

/-- The functions are the same up to renaming. -/
theorem find?_relocate (name : Name)
    : state'.functions.find? name
      = (state.functions.find? name).map
          (Function.rename (relocate state.store.names state'.store.names)) := by
  by_cases member : name ∈ compiled.map (·.name)
  · obtain ⟨c, among, rfl⟩ := List.mem_map.mp member
    obtain ⟨f, k, _, atStart, found⟩ := first.registered c among
    obtain ⟨f', k', _, atStart', found'⟩ := second.registered c ((same c).mp among)
    cases atStart.symm.trans atStart'
    have const : relocate state.store.names state'.store.names k = k' := by
      have renamed := const?_relocate opened first second same c.name
      rw [FunctionTable.const?, FunctionTable.const?, found, found'] at renamed
      exact (Option.some.inj renamed).symm
    rw [found, found', Option.map_some]
    refine congrArg some ?_
    simp only [asCompiled, Function.rename, Option.map_some,
      Cluster.registration_rename (first.placed among), const,
      const?_relocate opened first second same]
  · have absent : name ∉ compiled'.map (·.name) := by
      simpa only [List.mem_map, same] using member
    rw [first.others name member, second.others name absent]
    cases atStart : (opening program base).functions.find? name with
    | none => rfl
    | some f =>
        exact congrArg some (Function.rename_eq (relocate_of_lt first second)
          fun r registered => opened.held name f r atStart registered).symm

/-- The definitions are the same up to renaming. -/
theorem get?_relocate (k : ConstId)
    : state'.store.get? (relocate state.store.names state'.store.names k)
      = (state.store.get? k).map
          (Definition.rename (relocate state.store.names state'.store.names)) := by
  cases here : state.store.get? k with
  | none =>
      have outside : state.store.names.length ≤ k := by
        rw [Store.names, List.length_map]
        exact List.getElem?_eq_none_iff.mp here
      have place := getElem?_relocate (names_perm first second same) k
      rw [List.getElem?_eq_none outside, Store.names, List.getElem?_map, Option.map_eq_none_iff]
        at place
      exact place
  | some d =>
      rcases Nat.lt_or_ge k base.store.size with old | new
      · have before : base.store.get? k = some base.store.consts[k] := List.getElem?_eq_getElem old
        cases here.symm.trans (first.stage.grows.get? before)
        rw [relocate_of_lt first second _ old, second.stage.grows.get? before, Option.map_some]
        exact congrArg some (Definition.rename_eq (relocate_of_lt first second) before
          (opened.closed k _ before)).symm
      · obtain ⟨c, among, const⟩ := first.stored k d here new
        obtain ⟨r, registered, rfl⟩ := Option.map_eq_some_iff.mp const
        obtain ⟨f, found, registered⟩ := Option.bind_eq_some_iff.mp registered
        have held := first.stage.consistent.held c.name f r found registered
        cases here.symm.trans held.defined
        have found' := find?_relocate opened first second same c.name
        rw [found, Option.map_some] at found'
        have registered' : (f.rename (relocate state.store.names state'.store.names)).registration
            = some (r.rename (relocate state.store.names state'.store.names)) := by
          rw [Function.rename, registered, Option.map_some]
        exact (second.stage.consistent.held c.name _ _ found' registered').defined

/-- States in which the same compiled functions are registered agree. -/
theorem agrees_of_describes : Agrees base state state' := by
  have once := first.stage.consistent.indexed.nodup_names
  refine ⟨relocation once (names_perm first second same), ?_, ?_, ?_⟩
  · rintro k (old | outside)
    · exact relocate_of_lt first second _ old
    · refine relocate_of_le ?_
      rw [Store.names, List.length_map]
      exact outside
  · refine second.stage.consistent.sorted.ext (first.stage.consistent.sorted.mapValues _) ?_
    intro name
    rw [FiniteMap.find?_mapValues]
    exact find?_relocate opened first second same name
  · exact get?_relocate opened first second same

end Agree

end Run

end Monadize
