import Monadize.Basic

/-! Sets of names, listed in increasing order and without repetition. -/

namespace Monadize

structure NameSet where
  elems : List Name
  deriving DecidableEq

namespace NameSet

def empty : NameSet := ⟨[]⟩

instance : Inhabited NameSet := ⟨empty⟩

/-- Put a name at its place in the order, unless it is there already. -/
def insertElem (name : Name) : List Name → List Name
  | [] => [name]
  | other :: rest =>
      if name = other then other :: rest
      else if name < other then name :: other :: rest
      else other :: insertElem name rest

def insert (set : NameSet) (name : Name) : NameSet := ⟨insertElem name set.elems⟩

def ofList (names : List Name) : NameSet := names.foldl insert empty

def contains (set : NameSet) (name : Name) : Bool := decide (name ∈ set.elems)

def filter (keep : Name → Bool) (set : NameSet) : NameSet := ⟨set.elems.filter keep⟩

def isEmpty (set : NameSet) : Bool := set.elems.isEmpty

theorem mem_insertElem {name query : Name} {elems : List Name}
    : query ∈ insertElem name elems ↔ query = name ∨ query ∈ elems := by
  induction elems with
  | nil => simp [insertElem]
  | cons other rest ih =>
      by_cases hn : name = other
      · subst hn; simp [insertElem]
      · by_cases hlt : name < other
        · simp [insertElem, hn, hlt]
        · simp [insertElem, hn, hlt, ih, or_left_comm]

theorem mem_insert {set : NameSet} {name query : Name}
    : query ∈ (set.insert name).elems ↔ query = name ∨ query ∈ set.elems :=
  mem_insertElem

/-- A set made from a list has the names in the list. -/
theorem mem_ofList {names : List Name} {query : Name}
    : query ∈ (ofList names).elems ↔ query ∈ names := by
  have fold (set : NameSet)
      : query ∈ (names.foldl insert set).elems ↔ query ∈ names ∨ query ∈ set.elems := by
    induction names generalizing set with
    | nil => simp
    | cons name rest ih => simp [ih, mem_insert, or_assoc, or_left_comm]
  simpa [ofList, empty] using fold empty

theorem mem_filter {keep : Name → Bool} {set : NameSet} {query : Name}
    : query ∈ (set.filter keep).elems ↔ query ∈ set.elems ∧ keep query = true :=
  List.mem_filter

end NameSet

end Monadize
