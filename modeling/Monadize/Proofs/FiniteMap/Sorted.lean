import Mathlib.Data.List.Nodup
import Mathlib.Data.List.Perm.Basic
import Monadize.Basic
import Monadize.Proofs.FiniteMap

/-! Maps by name that are built by insertion are sorted. A sorted map binds every key once, so that
it is determined by its answers, and the union of two sorted maps answers from one of them.
-/

namespace Monadize

namespace FiniteMap

variable {α β : Type} {map other : FiniteMap Name α}

/-- The keys are in increasing order. -/
def Sorted (map : FiniteMap Name α) : Prop := map.entries.Pairwise fun a b => a.1 < b.1

theorem sorted_empty : (empty : FiniteMap Name α).Sorted := .nil

-----------------------------------------------------------------------------------------
-- Insertion
-----------------------------------------------------------------------------------------

/-- Inserting a binding keeps the order, by induction along the entries. -/
theorem Sorted.insert (h : map.Sorted) (key : Name) (value : α)
    : (map.insert key value).Sorted := by
  obtain ⟨entries⟩ := map
  show (insertEntry key value entries).Pairwise fun a b => a.1 < b.1
  induction entries with
  | nil => simp [insertEntry]
  | cons first rest ih =>
      obtain ⟨least, sorted⟩ := List.pairwise_cons.mp h
      simp only [insertEntry]
      split
      · next same => exact List.pairwise_cons.mpr ⟨same ▸ least, sorted⟩
      · next differs =>
          split
          · next before =>
              refine List.pairwise_cons.mpr ⟨?_, h⟩
              intro entry member
              rcases List.mem_cons.mp member with rfl | later
              · exact before
              · exact Std.lt_trans before (least entry later)
          · next behind =>
              have after : first.1 < key :=
                Std.lt_of_le_of_ne (Std.not_lt.mp behind) (Ne.symm differs)
              refine List.pairwise_cons.mpr ⟨?_, ih sorted⟩
              intro entry member
              rcases mem_insertEntry member with rfl | old
              · exact after
              · exact least entry old

theorem Sorted.insertAll (h : map.Sorted) (bindings : List (Name × α))
    : (map.insertAll bindings).Sorted := by
  induction bindings generalizing map with
  | nil => exact h
  | cons binding rest ih => exact ih (h.insert binding.1 binding.2)

theorem sorted_ofList (bindings : List (Name × α)) : (ofList bindings).Sorted :=
  sorted_empty.insertAll bindings

theorem Sorted.union (h : map.Sorted) (h' : other.Sorted) : (map.union other).Sorted := by
  unfold FiniteMap.union
  split
  · exact h'.insertAll map.entries
  · exact h.insertAll other.entries

theorem Sorted.mapValues (h : map.Sorted) (f : α → β) : (map.mapValues f).Sorted :=
  List.pairwise_map.mpr h

-----------------------------------------------------------------------------------------
-- Answers
-----------------------------------------------------------------------------------------

theorem Sorted.nodup_keys (h : map.Sorted) : map.keys.Nodup :=
  List.pairwise_map.mpr (h.imp fun before => Std.ne_of_lt before)

/-- A sorted map answers exactly as its entries say. -/
theorem Sorted.find?_eq_some_iff (h : map.Sorted) {key : Name} {value : α}
    : map.find? key = some value ↔ (key, value) ∈ map.entries := by
  refine ⟨mem_entries_of_find?, ?_⟩
  obtain ⟨entries⟩ := map
  show _ → findEntry? key entries = some value
  induction entries with
  | nil => nofun
  | cons first rest ih =>
      obtain ⟨least, sorted⟩ := List.pairwise_cons.mp h
      intro member
      simp only [ findEntry?]
      rcases List.mem_cons.mp member with rfl | later
      · exact if_pos rfl
      · have differs : key ≠ first.1 := by
          intro same
          exact Std.lt_irrefl (same ▸ least (key, value) later)
        rw [if_neg differs]
        exact ih sorted later

theorem find?_mapValues (map : FiniteMap Name α) (f : α → β) (key : Name)
    : (map.mapValues f).find? key = (map.find? key).map f := by
  obtain ⟨entries⟩ := map
  show findEntry? key (entries.map fun entry => (entry.1, f entry.2))
    = Option.map f ( findEntry? key entries)
  induction entries with
  | nil => rfl
  | cons first rest ih =>
      simp only [List.map_cons, findEntry?]
      split
      · rfl
      · exact ih

/-- Sorted maps with the same answers are equal. -/
theorem Sorted.ext (h : map.Sorted) (h' : other.Sorted)
    (same : ∀ key, map.find? key = other.find? key)
    : map = other := by
  have members : ∀ entry, entry ∈ map.entries ↔ entry ∈ other.entries := by
    intro entry
    rw [← h.find?_eq_some_iff, ← h'.find?_eq_some_iff, same]
  have perm := (List.perm_ext_iff_of_nodup (List.Nodup.of_map _ h.nodup_keys)
    (List.Nodup.of_map _ h'.nodup_keys)).mpr members
  obtain ⟨entries⟩ := map
  obtain ⟨entries'⟩ := other
  refine congrArg _ (perm.eq_of_pairwise ?_ h h')
  intro a b _ _ before behind
  exact absurd (Std.lt_trans before behind) Std.lt_irrefl

/-- The entries of a sorted map answer first once they are inserted. -/
theorem Sorted.find?_insertAll (h : other.Sorted) (map : FiniteMap Name α) (key : Name)
    : (map.insertAll other.entries).find? key = (other.find? key).or (map.find? key) := by
  by_cases bound : ∃ binding ∈ other.entries, binding.1 = key
  · obtain ⟨value, found, among⟩ := exists_find?_insertAll map bound
    rw [found, h.find?_eq_some_iff.mpr among, Option.some_or]
  · have absent : other.find? key = none := by
      refine Option.eq_none_iff_forall_not_mem.mpr fun value found => ?_
      exact bound ⟨_, mem_entries_of_find? found, rfl⟩
    rw [absent, Option.none_or]
    exact find?_insertAll_of_forall_ne fun binding among same => bound ⟨binding, among, same⟩

/-- In a union the larger map answers first, and the first of two that are equally large. -/
theorem Sorted.find?_union (h : map.Sorted) (h' : other.Sorted) (key : Name)
    : (map.union other).find? key
      = if other.size ≤ map.size then (map.find? key).or (other.find? key)
        else (other.find? key).or (map.find? key) := by
  unfold FiniteMap.union
  split
  · exact h.find?_insertAll other key
  · exact h'.find?_insertAll map key

/-- The second map answers for its own keys if it is the larger one. -/
theorem Sorted.find?_union_of_lt (h : map.Sorted) (h' : other.Sorted) (more : map.size < other.size)
    {key : Name} {value : α} (bound : other.find? key = some value)
    : (map.union other).find? key = some value := by
  rw [h.find?_union h', if_neg (Nat.not_le_of_lt more), bound, Option.some_or]

/-- What a union answers is in one of the two maps. -/
theorem Sorted.find?_of_union (h : map.Sorted) (h' : other.Sorted) {key : Name} {value : α}
    (found : (map.union other).find? key = some value)
    : map.find? key = some value ∨ other.find? key = some value := by
  rw [h.find?_union h'] at found
  split at found
  · exact (Option.or_eq_some_iff.mp found).imp_right And.right
  · exact ((Option.or_eq_some_iff.mp found).imp_right And.right).symm

end FiniteMap

end Monadize
