import Mathlib.Data.List.Forall2
import Mathlib.Data.List.Nodup
import Monadize.Proofs.Except
import Monadize.Store

/-! The two indexes of a store, constants by number and numbers by name, agree as long as constants
are added under new names. Reserving constants fails on taken names only, and constants that were
just reserved can be defined together.
-/

namespace Monadize

namespace Store

variable {store store' : Store} {name : Name} {k : ConstId}

/-- The names of all constants, in order. -/
def names (store : Store) : List Name := store.consts.map (·.name)

theorem getElem?_names (store : Store) (k : ConstId) : store.names[k]? = store.name? k :=
  List.getElem?_map

/-- A constant that is only reserved. -/
def reserved (name : Name) : Definition := ⟨name, none, none⟩

-----------------------------------------------------------------------------------------
-- The two indexes
-----------------------------------------------------------------------------------------

/-- Both indexes agree: a name leads to the constant that has it, and to no other. -/
def Indexed (store : Store) : Prop :=
  ∀ name k, store.lookup name = some k ↔ store.name? k = some name

theorem indexed_empty : empty.Indexed := by
  intro name k
  simp [lookup, name?, get?, empty]

theorem lookup_push (store : Store) (name query : Name)
    : (store.push name).lookup query
      = if query = name then some store.size else store.lookup query :=
  FiniteMap.find?_insert ..

/-- There is no constant at the next index yet. -/
theorem name?_size (store : Store) : store.name? store.size = none := by
  simp [name?, get?, size]

theorem name?_push (store : Store) (name : Name) (k : ConstId)
    : (store.push name).name? k = if k = store.size then some name else store.name? k := by
  rw [name?, name?, get?, get?, size, push, List.getElem?_append]
  grind

namespace Indexed

variable (indexed : store.Indexed)

include indexed

/-- A store whose entries were filled in is indexed as before. -/
theorem of_eq (names : store'.names = store.names) (byName : store'.byName = store.byName)
    : store'.Indexed := by
  intro name k
  rw [← getElem?_names, names, getElem?_names, lookup, byName]
  exact indexed name k

/-- A constant is added to both indexes, where it takes no other's place: its name is new. -/
theorem push (fresh : store.lookup name = none) : (store.push name).Indexed := by
  intro query k
  rw [lookup_push, name?_push]
  by_cases named : query = name
  · subst named
    by_cases last : k = store.size
    · simp [last]
    · rw [if_neg last, ← indexed query k, fresh]
      simp [Ne.symm last]
  · by_cases last : k = store.size
    · rw [if_neg named, indexed query k, last, name?_size]
      simp [Ne.symm named]
    · rw [if_neg named, if_neg last]
      exact indexed query k

theorem lookup_eq_none_iff : store.lookup name = none ↔ name ∉ store.names := by
  rw [List.mem_iff_getElem?, Option.eq_none_iff_forall_ne_some]
  simp only [ne_eq, not_exists, getElem?_names, indexed name]

/-- A constant is found under its name. -/
theorem lookup_eq_some {d : Definition} (found : store.get? k = some d)
    : store.lookup d.name = some k :=
  (indexed d.name k).mpr (Option.map_eq_some_iff.mpr ⟨d, found, rfl⟩)

/-- No two constants share a name. -/
theorem nodup_names : store.names.Nodup := by
  rw [List.nodup_iff_injective_getElem]
  intro i j same
  have first := (indexed _ _).mpr
    ((store.getElem?_names i).symm.trans (List.getElem?_eq_getElem i.isLt))
  have second := (indexed _ _).mpr
    ((store.getElem?_names j).symm.trans (List.getElem?_eq_getElem j.isLt))
  have named : store.names[i] = store.names[j] := same
  exact Fin.ext (Option.some.inj (first.symm.trans (named ▸ second)))

end Indexed

-----------------------------------------------------------------------------------------
-- Reserving
-----------------------------------------------------------------------------------------

theorem reserve_of_fresh (fresh : store.lookup name = none)
    : store.reserve name = .ok (store.push name, store.size) := by
  rw [reserve, fresh]

theorem reserve_of_taken (taken : store.lookup name = some k)
    : store.reserve name = .error (.duplicate name) := by
  rw [reserve, taken]

theorem reserve_eq_ok_iff
    : store.reserve name = .ok (store', k)
      ↔ store.lookup name = none ∧ store' = store.push name ∧ k = store.size := by
  cases found : store.lookup name with
  | none => simp [reserve_of_fresh found, eq_comm]
  | some j => simp [reserve_of_taken found]

/-- Add constants one after the other. -/
def pushAll (store : Store) (names : List Name) : Store := names.foldl push store

theorem consts_pushAll (store : Store) (names : List Name)
    : (store.pushAll names).consts = store.consts ++ names.map reserved := by
  induction names generalizing store with
  | nil => exact (List.append_nil _).symm
  | cons name rest ih =>
      refine (ih (store.push name)).trans ?_
      rw [push, List.append_assoc]
      rfl

theorem names_pushAll (store : Store) (names : List Name)
    : (store.pushAll names).names = store.names ++ names := by
  rw [Store.names, consts_pushAll, List.map_append, List.map_map]
  exact congrArg _ (List.map_id names)

/-- Names are distinct, and none of them is taken. -/
def Fresh (store : Store) (names : List Name) : Prop :=
  names.Nodup ∧ ∀ name ∈ names, store.lookup name = none

/-- Names can be added if the first one can, and then the others. -/
theorem fresh_cons_iff {names : List Name}
    : store.Fresh (name :: names) ↔ store.lookup name = none ∧ (store.push name).Fresh names := by
  simp only [Fresh, List.nodup_cons, List.forall_mem_cons, lookup_push]
  grind

theorem Indexed.pushAll (indexed : store.Indexed) {names : List Name} (fresh : store.Fresh names)
    : (store.pushAll names).Indexed := by
  induction names generalizing store with
  | nil => exact indexed
  | cons name rest ih =>
      obtain ⟨first, others⟩ := fresh_cons_iff.mp fresh
      exact ih (indexed.push first) others

/-- Names can be reserved together exactly if they are distinct and free, by induction on them. -/
theorem reserveAll_eq_ok_iff {names : List Name} {ks : List ConstId}
    : store.reserveAll names = .ok (store', ks)
      ↔ store.Fresh names
        ∧ store' = store.pushAll names
        ∧ ks = List.range' store.size names.length := by
  induction names generalizing store store' ks with
  | nil => simp [reserveAll, Fresh, pushAll, eq_comm]
  | cons name rest ih =>
      have size : (store.push name).size = store.size + 1 := by simp [Store.size, push]
      simp only [reserveAll, bind_eq_ok_iff, Prod.exists, reserve_eq_ok_iff, ih, fresh_cons_iff]
      constructor
      · intro ⟨_, _, ⟨first, rfl, rfl⟩, _, _, ⟨others, rfl, rfl⟩, result⟩
        cases result
        exact ⟨⟨first, others⟩, rfl, by rw [size]; rfl⟩
      · intro ⟨⟨first, others⟩, whole, ids⟩
        exact ⟨_, _, ⟨first, rfl, rfl⟩, _, _, ⟨others, rfl, rfl⟩, by rw [whole, ids, size]; rfl⟩

/-- Distinct names cannot be reserved if one of them is taken, by induction on them. -/
theorem exists_of_reserveAll_eq_error {names : List Name} {e : StoreError}
    (distinct : names.Nodup) (failed : store.reserveAll names = .error e)
    : ∃ name ∈ names, ∃ k, store.lookup name = some k ∧ e = .duplicate name := by
  induction names generalizing store with
  | nil => cases failed
  | cons name rest ih =>
      obtain ⟨isNew, distinctRest⟩ := List.nodup_cons.mp distinct
      cases found : store.lookup name with
      | some k =>
          simp only [reserveAll, reserve_of_taken found] at failed
          cases failed
          exact ⟨name, List.mem_cons_self, k, found, rfl⟩
      | none =>
          simp only [reserveAll, reserve_of_fresh found] at failed
          rcases bind_eq_error_iff.mp failed with first | ⟨_, first, later⟩
          · cases first
          · cases first
            rcases bind_eq_error_iff.mp later with others | ⟨_, _, same⟩
            · obtain ⟨other, among, k, known, rfl⟩ := ih distinctRest others
              have differs : other ≠ name := fun same => isNew (same ▸ among)
              rw [lookup_push, if_neg differs] at known
              exact ⟨other, List.mem_cons_of_mem name among, k, known, rfl⟩
            · cases same

-----------------------------------------------------------------------------------------
-- Defining
-----------------------------------------------------------------------------------------

/-- Constants reserved in a row are defined one after the other, by induction on their names. -/
theorem foldlM_define {before : List Definition} {byName : FiniteMap Name ConstId}
    {names : List Name} {defs : List (ConstId × Term)}
    (ids : defs.map Prod.fst = List.range' before.length names.length)
    : defs.foldlM (fun (store : Store) d => store.define d.1 d.2)
          ⟨before ++ names.map reserved, byName⟩
      = .ok ⟨before ++ List.zipWith (fun name d => ⟨name, some d.2, none⟩) names defs, byName⟩ := by
  induction names generalizing before defs with
  | nil =>
      obtain rfl : defs = [] := by simpa using ids
      simp [pure, Except.pure]
  | cons name rest ih =>
      cases defs with
      | nil => simp at ids
      | cons d defs =>
          obtain ⟨k, body⟩ := d
          simp only [List.map_cons, List.length_cons, List.range'_succ, List.cons.injEq] at ids
          obtain ⟨rfl, idsRest⟩ := ids
          have first : define ⟨before ++ (name :: rest).map reserved, byName⟩ before.length body
              = .ok ⟨(before ++ [⟨name, some body, none⟩]) ++ rest.map reserved, byName⟩ := by
            simp [define, get?, put, reserved]
          have others := @ih (before ++ [⟨name, some body, none⟩]) defs (by simpa using idsRest)
          rw [List.foldlM_cons, bind_eq_ok_iff]
          refine ⟨_, first, ?_⟩
          simpa using others

/-- Theorems are attached to constants defined in a row, by induction on these. -/
theorem foldlM_attach {before defined : List Definition} {byName : FiniteMap Name ConstId}
    {thms : List Theorem}
    (ready : ∀ d ∈ defined, d.body.isSome = true ∧ d.thm = none)
    (about
      : List.Forall₂ (fun k thm => ∃ proc, thm.judgement = .fnCorres k proc)
          (List.range' before.length defined.length) thms)
    : thms.foldlM attach ⟨before ++ defined, byName⟩
      = .ok ⟨before ++ List.zipWith (fun d thm => { d with thm := some thm }) defined thms,
          byName⟩ := by
  induction defined generalizing before thms with
  | nil =>
      cases about
      simp [pure, Except.pure]
  | cons d rest ih =>
      rw [List.length_cons, List.range'_succ] at about
      cases about with
      | @cons _ thm _ thms judged aboutRest =>
          obtain ⟨proc, judged⟩ := judged
          obtain ⟨body, unproved⟩ := ready d List.mem_cons_self
          have undone : (d.body.isNone || d.thm.isSome) = false := by
            cases holds : d.body with
            | none => simp [holds] at body
            | some _ => simp [unproved]
          have first : attach ⟨before ++ d :: rest, byName⟩ thm
              = .ok ⟨(before ++ [{ d with thm := some thm }]) ++ rest, byName⟩ := by
            simp [attach, judged, get?, put, undone]
          have others := @ih (before ++ [{ d with thm := some thm }]) thms
            (fun other among => ready other (List.mem_cons_of_mem d among))
            (by simpa using aboutRest)
          rw [List.foldlM_cons, bind_eq_ok_iff]
          refine ⟨_, first, ?_⟩
          simpa using others

/-- The entries of defined constants with their theorems. -/
def definitions (names : List Name) (defs : List (ConstId × Term)) (thms : List Theorem)
    : List Definition :=
  List.zipWith (fun (d : Definition) thm => { d with thm := some thm })
    (List.zipWith (fun name d => (⟨name, some d.2, none⟩ : Definition)) names defs) thms

theorem definitions_map {α : Type} (items : List α) (name : α → Name) (d : α → ConstId × Term)
    (thm : α → Theorem)
    : definitions (items.map name) (items.map d) (items.map thm)
      = items.map fun item => ⟨name item, some (d item).2, some (thm item)⟩ := by
  induction items with
  | nil => rfl
  | cons item rest ih => simp [definitions]

/-- Constants that were reserved in a row are committed with theorems about them. -/
theorem commit_pushAll {names : List Name} {defs : List (ConstId × Term)} {thms : List Theorem}
    (ids : defs.map Prod.fst = List.range' store.size names.length)
    (about
      : List.Forall₂ (fun k thm => ∃ proc, thm.judgement = .fnCorres k proc)
          (List.range' store.size names.length) thms)
    : (store.pushAll names).commit defs thms
      = .ok ⟨store.consts ++ definitions names defs thms, (store.pushAll names).byName⟩ := by
  have whole : store.pushAll names
      = ⟨store.consts ++ names.map reserved, (store.pushAll names).byName⟩ := by
    rw [← consts_pushAll]
  have same : defs.length = names.length := by
    simpa using congrArg List.length ids
  rw [commit, bind_eq_ok_iff]
  have defined := @foldlM_define store.consts (store.pushAll names).byName names defs ids
  rw [← whole] at defined
  refine ⟨_, defined, foldlM_attach ?_ ?_⟩
  · intro d among
    obtain ⟨i, here⟩ := List.mem_iff_getElem?.mp among
    obtain ⟨name, row, _, _, rfl⟩ := List.getElem?_zipWith_eq_some.mp here
    exact ⟨rfl, rfl⟩
  · rw [List.length_zipWith, same, Nat.min_self]
    exact about

end Store

end Monadize
