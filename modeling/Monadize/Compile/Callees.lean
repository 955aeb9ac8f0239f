import Monadize.Proof.Theorem

/-! The callees of a function that is being compiled. Each stands for a function that is called
through a placeholder until the cluster of the caller is registered. -/

namespace Monadize

structure CalleeEntry where
  func : Name
  proc : Name
  /-- The callee is in the caller's own cluster, so the measure is passed on to it. -/
  recursive : Bool
  /-- The callee takes a measure of its own. -/
  measured : Bool
  deriving DecidableEq

/-- Callees by placeholder. -/
structure CalleeTable where
  entries : List CalleeEntry
  deriving DecidableEq

namespace CalleeTable

/-- The last entry of a function among `entries`, which are numbered from `next` on. -/
def findFrom? (func : Name) : (next : Nat) → (entries : List CalleeEntry) →
    Option (PlaceholderId × CalleeEntry)
  | _, [] => none
  | next, entry :: entries =>
      match findFrom? func (next + 1) entries with
      | some found => some found
      | none => if entry.func = func then some (next, entry) else none

/-- The placeholder of a function. Of several entries the last one counts. -/
def find? (table : CalleeTable) (func : Name) : Option (PlaceholderId × CalleeEntry) :=
  findFrom? func 0 table.entries

/-- The hypothesis that each placeholder carries in the proof. -/
def hyps (table : CalleeTable) : List Hyp :=
  table.entries.map fun entry => ⟨entry.proc, entry.recursive⟩

end CalleeTable

end Monadize
