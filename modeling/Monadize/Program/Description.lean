import Monadize.Environment
import Monadize.Json.Reader
import Monadize.Stmt.Codec

/-! Program descriptions, and the programs they describe. -/

namespace Monadize

/-- A function as it is described. -/
structure FunctionDescription where
  name : Name
  proc : Name
  body : Option Stmt
  returnSlot : Option Name
  wrapper : Bool
  deriving DecidableEq

structure Description where
  file : Name
  world : Name
  functions : List FunctionDescription
  deriving DecidableEq

/-- A declared function. Its body, if it has one, is in the environment under `proc`. -/
structure Declaration where
  name : Name
  proc : Name
  returnSlot : Option Name
  /-- The function has no body on purpose. -/
  wrapper : Bool
  deriving DecidableEq

structure Program where
  file : Name
  env : Environment
  functions : List Declaration
  deriving DecidableEq

inductive LoadError where
  | malformed
  | duplicateFunction (name : Name)
  | duplicateProc (proc : Name)
  deriving DecidableEq

def LoadError.message : LoadError → String
  | .malformed => "malformed program: not the JSON of a program description"
  | .duplicateFunction name => "function " ++ name ++ " is declared twice"
  | .duplicateProc proc => "procedure " ++ proc ++ " is bound twice"

/-! ## Reading descriptions -/

/-- Read a function that may nest at most `room` objects and arrays. -/
def FunctionDescription.ofJson? : (room : Nat) → Json → Option FunctionDescription
  | 0, _ => none
  | room + 1, json =>
      match json.record? ["name", "proc", "body", "return_slot", "wrapper"] with
      | some [some name, some proc, body, returnSlot, wrapper] =>
          return {
            name := ← name.text?
            proc := ← proc.text?
            body := ← Json.optional? (Stmt.ofJson? room) body
            returnSlot := ← Json.optional? Json.text? returnSlot
            wrapper := ← match wrapper with
              | some wrapper => wrapper.bool?
              | none => some false }
      | _ => none

/-- The number of objects and arrays that a description may nest. -/
def Description.maxNesting : Nat := 127

def Description.ofJson? (json : Json) : Option Description :=
  match json.record? ["file", "world", "functions"] with
  | some [some file, some world, some (.array functions)] =>
      return {
        file := ← file.text?
        world := ← world.text?
        functions := ← functions.mapM (FunctionDescription.ofJson? (maxNesting - 2)) }
  | _ => none

def Description.parse (text : String) : Except LoadError Description :=
  match (Json.parse? text).bind Description.ofJson? with
  | some description => .ok description
  | none => .error .malformed

/-! ## Loading programs -/

namespace Program

def declaration (f : FunctionDescription) : Declaration :=
  ⟨f.name, f.proc, f.returnSlot, f.wrapper⟩

/-- The first function whose name or procedure is one of an earlier function; its name is looked
at first. -/
def findDuplicate (names procs : List Name) : List FunctionDescription → Option LoadError
  | [] => none
  | f :: rest =>
      if f.name ∈ names then some (.duplicateFunction f.name)
      else if f.proc ∈ procs then some (.duplicateProc f.proc)
      else findDuplicate (f.name :: names) (f.proc :: procs) rest

/-- The bodies of the functions that have one, by procedure. -/
def bodies (functions : List FunctionDescription) : FiniteMap Name Stmt :=
  .ofList (functions.filterMap fun f => f.body.map fun body => (f.proc, body))

/-- The program of a description, in which every name and every procedure is used once. Its
environment gets the given tag. -/
def ofDescription (tag : Nat) (d : Description) : Except LoadError Program :=
  match findDuplicate [] [] d.functions with
  | some error => .error error
  | none =>
      .ok {
        file := d.file
        env := ⟨tag, d.world, bodies d.functions⟩
        functions := d.functions.map declaration }

/-- The program described by a text. -/
def parse (tag : Nat) (text : String) : Except LoadError Program :=
  (Description.parse text).bind (ofDescription tag)

end Program

end Monadize
