/-! Growing tables whose entries are numbered from zero. -/

namespace Monadize

/-- An index that is not in a table. -/
structure OutOfBounds where
  size : Nat
  index : Nat
  deriving DecidableEq

def OutOfBounds.message (e : OutOfBounds) : String :=
  "index out of bounds: the len is " ++ toString e.size ++ " but the index is " ++ toString e.index

structure Indexed (α : Type) where
  items : List α
  deriving DecidableEq

namespace Indexed

variable {α : Type}

def empty : Indexed α := ⟨[]⟩

/-- The table of the given size whose entries are computed from their indices. -/
def ofFn (size : Nat) (f : Nat → α) : Indexed α := ⟨(List.range size).map f⟩

def size (table : Indexed α) : Nat := table.items.length

/-- The index of the next entry. -/
def next (table : Indexed α) : Nat := table.items.length

/-- Add an entry. Its index is `next` of the table before. -/
def push (table : Indexed α) (value : α) : Indexed α := ⟨table.items ++ [value]⟩

def get? (table : Indexed α) (index : Nat) : Option α := table.items[index]?

def get (table : Indexed α) (index : Nat) : Except OutOfBounds α :=
  match table.items[index]? with
  | some value => .ok value
  | none => .error ⟨table.size, index⟩

def set (table : Indexed α) (index : Nat) (value : α) : Except OutOfBounds (Indexed α) :=
  if index < table.size then .ok ⟨table.items.set index value⟩ else .error ⟨table.size, index⟩

/-- The entries with their indices. -/
def enumerate (table : Indexed α) : List (Nat × α) :=
  table.items.zipIdx.map fun (value, index) => (index, value)

def text (entryText : α → String) (table : Indexed α) : String :=
  "[" ++ String.intercalate ", " (table.items.map entryText) ++ "]"

end Indexed

end Monadize
