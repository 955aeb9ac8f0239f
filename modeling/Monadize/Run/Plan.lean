import Monadize.Graph.Calls

/-! What a run works on: a program, its call graph and the settings. -/

namespace Monadize

structure Settings where
  /-- Prove that statements terminate. -/
  total : Bool
  optimize : Bool
  /-- Keep the steps of every pass. -/
  trace : Bool
  /-- What the names of constants start with. -/
  constPrefix : String
  deriving DecidableEq

/-- The name of the constant of a function. -/
def Settings.constName (settings : Settings) (func : Name) : Name :=
  settings.constPrefix ++ func ++ "'"

/-- A program ready to be compiled. -/
structure Plan where
  file : Name
  env : Environment
  procNames : FiniteMap Name Name
  graph : CallGraph
  deriving DecidableEq

/-- The plan of a program on top of the functions known before, and the functions it declares. -/
def Plan.ofProgram (program : Program) (prior : FunctionTable) : Plan × FunctionTable :=
  let analysis := CallGraph.analyze program.env program.functions prior
  (⟨program.file, program.env, analysis.procNames, analysis.graph⟩, analysis.functions)

def Plan.scope (plan : Plan) (settings : Settings) (functions : FunctionTable) : Scope where
  env := plan.env
  procNames := plan.procNames
  functions := functions
  total := settings.total
  optimize := settings.optimize
  trace := settings.trace

end Monadize
