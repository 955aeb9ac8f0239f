import Mathlib.Data.List.Induction
import Mathlib.Data.List.Nodup
import Monadize.FiniteMap

/-! What finite maps built by insertion hold. Bindings are read off the list a map was made from;
the order of the keys plays no part in it.
-/

namespace Monadize

namespace FiniteMap

variable {κ α : Type}

/-- Every key is bound to at most one value. -/
def Functional (bindings : List (κ × α)) : Prop :=
  ∀ key value other, (key, value) ∈ bindings → (key, other) ∈ bindings → value = other

/-- Bindings with pairwise distinct keys are functional. -/
theorem functional_of_nodup {bindings : List (κ × α)} (unique : (bindings.map Prod.fst).Nodup)
    : Functional bindings := by
  intro key value other hv ho
  have same := List.inj_on_of_nodup_map unique hv ho rfl
  exact congrArg Prod.snd same

variable [DecidableEq κ]

theorem mem_of_findEntry? {key : κ} {value : α} {entries : List (κ × α)}
    (found : findEntry? key entries = some value)
    : (key, value) ∈ entries := by
  induction entries with
  | nil => simp [ findEntry?] at found
  | cons entry rest ih =>
      obtain ⟨other, old⟩ := entry
      simp only [ findEntry?] at found
      split at found
      · next same => simp_all
      · exact List.mem_cons_of_mem _ (ih found)

/-- What a map answers is one of its entries. -/
theorem mem_entries_of_find? {map : FiniteMap κ α} {key : κ} {value : α}
    (found : map.find? key = some value)
    : (key, value) ∈ map.entries :=
  mem_of_findEntry? found

variable [LT κ] [DecidableLT κ]

theorem mem_insertEntry {key : κ} {value : α} {entries : List (κ × α)} {binding : κ × α}
    (member : binding ∈ insertEntry key value entries)
    : binding = (key, value) ∨ binding ∈ entries := by
  induction entries with
  | nil => simpa [insertEntry] using member
  | cons entry rest ih =>
      simp only [insertEntry] at member
      split at member
      · simp only [List.mem_cons] at member ⊢
        exact member.imp_right Or.inr
      · split at member
        · simpa using member
        · rcases List.mem_cons.mp member with same | later
          · exact Or.inr (by simp [same])
          · exact (ih later).imp_right (List.mem_cons_of_mem _)

theorem mem_entries_insertAll {map : FiniteMap κ α} {bindings : List (κ × α)} {binding : κ × α}
    (member : binding ∈ (map.insertAll bindings).entries)
    : binding ∈ bindings ∨ binding ∈ map.entries := by
  induction bindings generalizing map with
  | nil => exact Or.inr member
  | cons first rest ih =>
      rcases ih member with later | earlier
      · exact Or.inl (List.mem_cons_of_mem _ later)
      · rcases mem_insertEntry earlier with same | old
        · exact Or.inl (by simp [same])
        · exact Or.inr old

/-- A map holds nothing but the bindings it was made from. -/
theorem mem_entries_ofList {bindings : List (κ × α)} {binding : κ × α}
    (member : binding ∈ (ofList bindings).entries)
    : binding ∈ bindings :=
  (mem_entries_insertAll member).resolve_right List.not_mem_nil

/-- Inserting bindings of other keys leaves the answer for a key as it is. -/
theorem find?_insertAll_of_forall_ne {map : FiniteMap κ α} {bindings : List (κ × α)} {key : κ}
    (absent : ∀ binding ∈ bindings, binding.1 ≠ key)
    : (map.insertAll bindings).find? key = map.find? key := by
  induction bindings generalizing map with
  | nil => rfl
  | cons first rest ih =>
      have other : key ≠ first.1 := fun same => absent first (by simp) same.symm
      calc ((map.insert first.1 first.2).insertAll rest).find? key
          = (map.insert first.1 first.2).find? key :=
            ih fun binding member => absent binding (List.mem_cons_of_mem _ member)
        _ = map.find? key := by simp [other]

/-- After inserting a binding of a key among others, the answer for the key is one of those
inserted. -/
theorem exists_find?_insertAll (map : FiniteMap κ α) {bindings : List (κ × α)} {key : κ}
    (bound : ∃ binding ∈ bindings, binding.1 = key)
    : ∃ value, (map.insertAll bindings).find? key = some value ∧ (key, value) ∈ bindings := by
  induction bindings generalizing map with
  | nil => simp at bound
  | cons first rest ih =>
      by_cases later : ∃ binding ∈ rest, binding.1 = key
      · obtain ⟨value, found, member⟩ := ih (map.insert first.1 first.2) later
        exact ⟨value, found, List.mem_cons_of_mem _ member⟩
      · obtain ⟨binding, member, same⟩ := bound
        have here : binding = first := by
          rcases List.mem_cons.mp member with here | inRest
          · exact here
          · exact absurd ⟨binding, inRest, same⟩ later
        subst here
        refine ⟨binding.2, ?_, by simp [← same]⟩
        have absent : ∀ entry ∈ rest, entry.1 ≠ key := fun entry inRest eq =>
          later ⟨entry, inRest, eq⟩
        calc ((map.insert binding.1 binding.2).insertAll rest).find? key
            = (map.insert binding.1 binding.2).find? key := find?_insertAll_of_forall_ne absent
          _ = some binding.2 := by simp [same]

/-- Values can be mapped before or after they are inserted. -/
theorem mapValues_insertAll {β : Type} (f : α → β) (map : FiniteMap κ α) (bindings : List (κ × α))
    : (map.insertAll bindings).mapValues f
      = (map.mapValues f).insertAll (bindings.map fun binding => (binding.1, f binding.2)) := by
  have one (key : κ) (value : α) (entries : List (κ × α))
      : (insertEntry key value entries).map (fun entry => (entry.1, f entry.2))
        = insertEntry key (f value) (entries.map fun entry => (entry.1, f entry.2)) := by
    induction entries with
    | nil => rfl
    | cons entry rest ih =>
        simp only [insertEntry, List.map_cons]
        split
        · rfl
        · split
          · rfl
          · rw [List.map_cons, ih]
  induction bindings generalizing map with
  | nil => rfl
  | cons binding rest ih =>
      refine (ih (map.insert binding.1 binding.2)).trans ?_
      rw [show (map.insert binding.1 binding.2).mapValues f
          = (map.mapValues f).insert binding.1 (f binding.2)
        from congrArg mk (one binding.1 binding.2 map.entries)]
      rfl

theorem mapValues_ofList {β : Type} (f : α → β) (bindings : List (κ × α))
    : (ofList bindings).mapValues f
      = ofList (bindings.map fun binding => (binding.1, f binding.2)) :=
  mapValues_insertAll f .empty bindings

/-- The last binding of a key counts, by induction on the bindings from the last one. -/
theorem find?_ofList_iff_last {bindings : List (κ × α)} {key : κ} {value : α}
    : (ofList bindings).find? key = some value
      ↔ ∃ before after,
          bindings = before ++ (key, value) :: after ∧ ∀ binding ∈ after, binding.1 ≠ key := by
  constructor
  · intro found
    induction bindings using List.reverseRecOn with
    | nil => cases found
    | append_singleton first last ih =>
        obtain ⟨other, new⟩ := last
        rw [ofList, insertAll, List.foldl_append, List.foldl_cons, List.foldl_nil, find?_insert]
          at found
        split at found
        · next same =>
            cases same
            cases found
            exact ⟨first, [], rfl, nofun⟩
        · next differs =>
            obtain ⟨before, after, rfl, none⟩ := ih found
            refine ⟨before, after ++ [(other, new)], by simp, fun binding listed => ?_⟩
            rcases List.mem_append.mp listed with inner | final
            · exact none binding inner
            · rw [List.mem_singleton.mp final]
              exact Ne.symm differs
  · intro last
    rcases last with ⟨before, after, rfl, none⟩
    rw [ofList, insertAll, List.foldl_append, List.foldl_cons]
    refine (find?_insertAll_of_forall_ne none).trans ?_
    rw [find?_insert, if_pos rfl]

/-- A key that a map answers for is not lost by inserting bindings. -/
theorem exists_find?_insertAll_of_find? {map : FiniteMap κ α} {key : κ} {value : α}
    (found : map.find? key = some value) (bindings : List (κ × α))
    : ∃ value, (map.insertAll bindings).find? key = some value := by
  by_cases bound : ∃ binding ∈ bindings, binding.1 = key
  · obtain ⟨value, found, _⟩ := exists_find?_insertAll map bound
    exact ⟨value, found⟩
  · refine ⟨value, (find?_insertAll_of_forall_ne ?_).trans found⟩
    exact fun binding among same => bound ⟨binding, among, same⟩

/-- The first of two maps answers in their union. -/
theorem exists_find?_union {map : FiniteMap κ α} {key : κ} {value : α}
    (found : map.find? key = some value) (other : FiniteMap κ α)
    : ∃ value, (map.union other).find? key = some value := by
  unfold union
  split
  · obtain ⟨value, found, _⟩ :=
      exists_find?_insertAll other ⟨_, mem_entries_of_find? found, rfl⟩
    exact ⟨value, found⟩
  · exact exists_find?_insertAll_of_find? found other.entries

/-- The map of functional bindings answers exactly as they say. -/
theorem find?_ofList_eq_some_iff {bindings : List (κ × α)} (functional : Functional bindings)
    {key : κ} {value : α}
    : (ofList bindings).find? key = some value ↔ (key, value) ∈ bindings := by
  constructor
  · intro found
    exact mem_entries_ofList (mem_entries_of_find? found)
  · intro member
    obtain ⟨other, found, inserted⟩ := exists_find?_insertAll empty ⟨_, member, rfl⟩
    rw [functional key value other member inserted]
    exact found

end FiniteMap

end Monadize
