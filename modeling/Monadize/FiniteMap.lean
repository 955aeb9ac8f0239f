/-! Finite maps as association lists whose keys are kept in increasing order, so that listing a map
lists it by key. -/

namespace Monadize

structure FiniteMap (κ α : Type) where
  entries : List (κ × α)
  deriving DecidableEq

namespace FiniteMap

variable {κ α β : Type}

def empty : FiniteMap κ α := ⟨[]⟩

instance : Inhabited (FiniteMap κ α) := ⟨empty⟩

def keys (map : FiniteMap κ α) : List κ := map.entries.map Prod.fst

def values (map : FiniteMap κ α) : List α := map.entries.map Prod.snd

def isEmpty (map : FiniteMap κ α) : Bool := map.entries.isEmpty

def size (map : FiniteMap κ α) : Nat := map.entries.length

def mapValues (f : α → β) (map : FiniteMap κ α) : FiniteMap κ β :=
  ⟨map.entries.map fun entry => (entry.1, f entry.2)⟩

section Lookup

variable [DecidableEq κ]

/-- The value of the first binding of a key. -/
def findEntry? (key : κ) : List (κ × α) → Option α
  | [] => none
  | (other, value) :: rest => if key = other then some value else findEntry? key rest

def find? (map : FiniteMap κ α) (key : κ) : Option α := findEntry? key map.entries

def contains (map : FiniteMap κ α) (key : κ) : Bool := (map.find? key).isSome

def erase (map : FiniteMap κ α) (key : κ) : FiniteMap κ α :=
  ⟨map.entries.filter fun entry => entry.1 ≠ key⟩

variable [LT κ] [DecidableLT κ]

/-- Put a binding at its place in the order of keys, in the place of an older one. -/
def insertEntry (key : κ) (value : α) : List (κ × α) → List (κ × α)
  | [] => [(key, value)]
  | (other, old) :: rest =>
      if key = other then (key, value) :: rest
      else if key < other then (key, value) :: (other, old) :: rest
      else (other, old) :: insertEntry key value rest

def insert (map : FiniteMap κ α) (key : κ) (value : α) : FiniteMap κ α :=
  ⟨insertEntry key value map.entries⟩

def insertAll (map : FiniteMap κ α) (bindings : List (κ × α)) : FiniteMap κ α :=
  bindings.foldl (fun acc binding => acc.insert binding.1 binding.2) map

/-- The map of a list of bindings; of two bindings of one key the later one counts. -/
def ofList (bindings : List (κ × α)) : FiniteMap κ α := empty.insertAll bindings

/-- Both maps together. A key bound in both keeps its binding in the larger map, and in the first of
two maps that are equally large. -/
def union (first second : FiniteMap κ α) : FiniteMap κ α :=
  if second.size ≤ first.size then second.insertAll first.entries
  else first.insertAll second.entries

end Lookup

section Laws

variable [DecidableEq κ]

@[simp] theorem find?_empty (query : κ) : (empty : FiniteMap κ α).find? query = none := rfl

variable [LT κ] [DecidableLT κ]

theorem findEntry?_insertEntry (key : κ) (value : α) (entries : List (κ × α)) (query : κ)
    : findEntry? query (insertEntry key value entries)
        = if query = key then some value else findEntry? query entries := by
  induction entries with
  | nil => rfl
  | cons entry rest ih => grind [insertEntry, findEntry?]

/-- Inserting a binding changes the answer for its own key only. -/
@[simp] theorem find?_insert (map : FiniteMap κ α) (key : κ) (value : α) (query : κ)
    : (map.insert key value).find? query
        = if query = key then some value else map.find? query :=
  findEntry?_insertEntry key value map.entries query

end Laws

end FiniteMap

end Monadize
