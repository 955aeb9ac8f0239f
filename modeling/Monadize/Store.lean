import Monadize.Proof.Theorem

/-! The definition store: the constants registered so far, their definitions and the theorems about
them. Constants are reserved first, so that definitions can refer to each other, and then defined
together. -/

namespace Monadize

structure Definition where
  name : Name
  /-- Absent while the constant is only reserved. -/
  body : Option Term
  thm : Option Theorem
  deriving DecidableEq

/-- Constants by index, and the index of each name. -/
structure Store where
  consts : List Definition
  byName : FiniteMap Name ConstId
  deriving DecidableEq

inductive StoreError where
  | duplicate (name : Name)
  | notReserved (k : ConstId)
  | alreadyDefined (k : ConstId)
  /-- A theorem that belongs to none of the definitions. -/
  | strayTheorem (k : ConstId)
  | notAboutAConstant
  deriving DecidableEq

def StoreError.message : StoreError → String
  | .duplicate name => "constant " ++ name ++ " is already registered"
  | .notReserved k => "constant " ++ toString k ++ " was never reserved"
  | .alreadyDefined k => "constant " ++ toString k ++ " is already defined"
  | .strayTheorem k => "theorem does not belong to a definition of " ++ toString k
  | .notAboutAConstant => "only theorems about constants can be registered"

namespace Store

def empty : Store := ⟨[], .empty⟩

instance : Inhabited Store := ⟨empty⟩

def size (store : Store) : Nat := store.consts.length

def get? (store : Store) (k : ConstId) : Option Definition := store.consts[k]?

def name? (store : Store) (k : ConstId) : Option Name := (store.get? k).map (·.name)

/-- The constant registered under a name. -/
def lookup (store : Store) (name : Name) : Option ConstId := store.byName.find? name

/-- The constants that have a definition, in the order of registration. -/
def defined (store : Store) : List (ConstId × Definition) :=
  (store.consts.zipIdx.filter (·.1.body.isSome)).map fun (d, k) => (k, d)

/-- Add a constant that is to be defined, under the next index. -/
def push (store : Store) (name : Name) : Store :=
  ⟨store.consts ++ [⟨name, none, none⟩], store.byName.insert name store.size⟩

/-- Put another entry in the place of a constant's. -/
def put (store : Store) (k : ConstId) (d : Definition) : Store :=
  { store with consts := store.consts.set k d }

/-- Register a name for a constant that is to be defined. -/
def reserve (store : Store) (name : Name) : Except StoreError (Store × ConstId) :=
  match store.lookup name with
  | some _ => .error (.duplicate name)
  | none => .ok (store.push name, store.size)

def reserveAll (store : Store) : List Name → Except StoreError (Store × List ConstId)
  | [] => .ok (store, [])
  | name :: names => do
      let (store, k) ← store.reserve name
      let (store, ks) ← store.reserveAll names
      return (store, k :: ks)

def define (store : Store) (k : ConstId) (body : Term) : Except StoreError Store :=
  match store.get? k with
  | none => .error (.notReserved k)
  | some d =>
      if d.body.isSome then .error (.alreadyDefined k)
      else .ok (store.put k { d with body := some body })

/-- Attach a theorem to the constant it is about. -/
def attach (store : Store) (thm : Theorem) : Except StoreError Store :=
  match thm.judgement with
  | .fnCorres k _ =>
      match store.get? k with
      | none => .error (.notReserved k)
      | some d =>
          if d.body.isNone || d.thm.isSome then .error (.strayTheorem k)
          else .ok (store.put k { d with thm := some thm })
  | _ => .error .notAboutAConstant

/-- Define constants together and record the theorems about them, or refuse all of it. -/
def commit (store : Store) (defs : List (ConstId × Term)) (thms : List Theorem)
    : Except StoreError Store := do
  let store ← defs.foldlM (fun store d => store.define d.1 d.2) store
  thms.foldlM attach store

end Store

end Monadize
