import Monadize.Proof.Text
import Monadize.Run.Parallel

/-! The command line: compile the functions of a program description and print what they become,
with the theorems about them. Everything but reading the file and printing is here. -/

namespace Monadize

namespace CommandLine

structure Arguments where
  program : String
  noOptimize : Bool := false
  noTermination : Bool := false
  trace : Bool := false
  jobs : Option Nat := none
  constPrefix : String := "l1_"
  panicOnFail : Bool := false
  verbose : Bool := false
  deriving DecidableEq

/-- A number of jobs: a machine word in decimal digits, perhaps after a plus. -/
def jobCount? (text : String) : Option Nat :=
  let digits := match text.toList with
    | '+' :: digits => digits
    | digits => digits
  if digits.isEmpty || !digits.all Char.isDigit then none
  else (String.ofList digits).toNat?.filter (· < Nat.pow 2 64)

/-- Short options that are written together, one by one. What follows `j` is its value. -/
def splitLetters : List Char → List String
  | [] => []
  | ['j'] => ["-j"]
  | 'j' :: '=' :: value => ["-j", String.ofList value]
  | 'j' :: value => ["-j", String.ofList value]
  | c :: letters => String.ofList ['-', c] :: splitLetters letters

/-- An argument as a list of options and values that each stand for themselves. -/
def splitArgument (arg : String) : List String :=
  match arg.toList with
  | '-' :: '-' :: name =>
      if '=' ∈ name then
        [String.ofList ('-' :: '-' :: name.takeWhile (· ≠ '=')),
          String.ofList ((name.dropWhile (· ≠ '=')).drop 1)]
      else [arg]
  | '-' :: c :: letters => splitLetters (c :: letters)
  | _ => [arg]

/-- Read arguments; `none` if they are not understood. -/
def Arguments.read (parsed : Arguments) : List String → Option Arguments
  | [] => if parsed.program.isEmpty then none else some parsed
  | "--no-optimize" :: rest => { parsed with noOptimize := true }.read rest
  | "--no-termination" :: rest => { parsed with noTermination := true }.read rest
  | "--trace" :: rest => { parsed with trace := true }.read rest
  | "--panic-on-fail" :: rest => { parsed with panicOnFail := true }.read rest
  | "--no-progress" :: rest => parsed.read rest
  | "--verbose" :: rest => { parsed with verbose := true }.read rest
  | "-v" :: rest => { parsed with verbose := true }.read rest
  | "--jobs" :: n :: rest => (jobCount? n).bind fun n => { parsed with jobs := some n }.read rest
  | "-j" :: n :: rest => (jobCount? n).bind fun n => { parsed with jobs := some n }.read rest
  | "--prefix" :: p :: rest => { parsed with constPrefix := p }.read rest
  | arg :: rest =>
      if arg.startsWith "-" || !parsed.program.isEmpty then none
      else { parsed with program := arg }.read rest

def Arguments.parse (args : List String) : Option Arguments :=
  Arguments.read ⟨"", false, false, false, none, "l1_", false, false⟩ (args.flatMap splitArgument)

/-- Environment variables that override arguments, whatever their value. -/
structure Overrides where
  noOptimize : Bool
  noTermination : Bool
  trace : Bool
  panicOnFail : Bool
  oneThread : Bool
  deriving DecidableEq

def Overrides.ofNames (isSet : String → Bool) : Overrides where
  noOptimize := isSet "NO_OPTIMIZE"
  noTermination := isSet "NO_TERMINATION"
  trace := isSet "TRACE"
  panicOnFail := isSet "PANIC_ON_FAIL"
  oneThread := isSet "ONE_THREAD"

structure Config where
  settings : Settings
  workers : Nat
  panicOnFail : Bool
  verbose : Bool
  deriving DecidableEq

/-- The number of workers when none is asked for. -/
def defaultWorkers : Nat := 4

def Config.of (args : Arguments) (overrides : Overrides) : Config where
  settings := {
    total := !args.noTermination && !overrides.noTermination
    optimize := !args.noOptimize && !overrides.noOptimize
    trace := args.trace || overrides.trace
    constPrefix := args.constPrefix }
  workers := if overrides.oneThread then 1 else args.jobs.getD defaultWorkers
  panicOnFail := args.panicOnFail || overrides.panicOnFail
  verbose := args.verbose

/-- How the program ends. -/
inductive Ending where
  | exit (code : Nat)
  | abort
  | panic
  deriving DecidableEq

structure Output where
  stdout : String
  stderr : String
  ending : Ending
  deriving DecidableEq

/-- Text that is printed so far. -/
structure Printed where
  out : List String
  err : List String

namespace Printed

def none : Printed := ⟨[], []⟩

def append (a b : Printed) : Printed := ⟨a.out ++ b.out, a.err ++ b.err⟩

instance : Append Printed := ⟨append⟩

def unlines (lines : List String) : String := String.join (lines.map (· ++ "\n"))

def finish (p : Printed) (ending : Ending) : Output := ⟨unlines p.out, unlines p.err, ending⟩

end Printed

def diagnostic (file : String) (func : Option Name) (severity message : String) : String :=
  match func with
  | some func => file ++ ": " ++ func ++ ": " ++ severity ++ ": " ++ message
  | Option.none => file ++ ": " ++ severity ++ ": " ++ message

def errorLine (file : String) (e : CompileError) : String :=
  diagnostic file e.func? "error" e.message

def warningLine (file : String) (w : Warning) : String :=
  diagnostic file (some w.func) "warning" w.message

def traceLines (entry : ClusterId × TraceRecord) : List String :=
  let (id, record) := entry
  ("cluster " ++ toString id ++ ", " ++ record.label ++ ": " ++ toString record.steps.length
      ++ " steps")
    :: record.steps.map ("  " ++ ·.text)

/-- What a journal prints while it is written. -/
def journalLines (config : Config) (journal : List Event) : Printed where
  out := (Event.traces journal).flatMap traceLines
  err := if config.verbose then journal.filterMap Event.message? else []

def functionLines (store : Store) (f : Function) : List String :=
  match f.registration with
  | Option.none => []
  | some r =>
      (r.constName ++ " = " ++ r.term.textWith store.name?) :: ("  " ++ r.thm.text)
        :: r.mono.toList.map ("  " ++ ·.text)

def warningLines (file : String) (f : Function) : List String :=
  match f.registration with
  | Option.none => []
  | some r => r.warnings.map (warningLine file)

/-- The counters that are not zero. -/
def statLines (counts : Counter → Nat) : List String :=
  (Counter.all.filter (counts · ≠ 0)).map fun c => c.label ++ ": " ++ toString (counts c)

/-- What is printed after a run: the functions of the program, and the statistics. -/
def summary (file : String) (current : FunctionTable) (state : RunState) (journal : List Event)
    : Printed :=
  let functions := state.functions.values.filter fun f => current.contains f.name
  let left := (functions.filter (·.registration.isNone)).length
  let counts := fun c => if c = .functionsLeft then left else Event.total c journal
  { out := functions.flatMap (functionLines state.store) ++ statLines counts
    err := functions.flatMap (warningLines file) }

/-- What the clusters print as they are compiled in turn; the error that ends the program early is
the last thing printed. -/
def itemLines (config : Config) (file : String) : List Run.Item → Printed × Bool
  | [] => (.none, false)
  | item :: items =>
      let events := journalLines config item.events
      match item.outcome with
      | .ok _ =>
          let (rest, aborted) := itemLines config file items
          (events ++ rest, aborted)
      | .error e =>
          let events := events ++ ⟨[], [errorLine file e]⟩
          if config.panicOnFail then (events, true)
          else
            let (rest, aborted) := itemLines config file items
            (events ++ rest, aborted)

def exitCode (failed : Bool) : Ending := .exit (if failed then 1 else 0)

def runSequential (config : Config) (plan : Plan) (current : FunctionTable) (start : Printed)
    : Output :=
  let (items, state) := Run.sequential plan config.settings current .empty .empty Option.none
  let (printed, aborted) := itemLines config plan.file items
  if aborted then (start ++ printed).finish .abort
  else
    let journal := items.flatMap (·.events)
    let failed := items.any fun item => match item.outcome with | .ok _ => false | .error _ => true
    (start ++ printed ++ summary plan.file current state journal).finish (exitCode failed)

def runParallel (config : Config) (plan : Plan) (current : FunctionTable) (start : Printed)
    : Output :=
  match Run.parallel plan config.settings current .empty .empty config.workers with
  | .error e => (start ++ ⟨[], [e.message]⟩).finish .panic
  | .ok shared =>
      let printed := start ++ journalLines config shared.journal
      let errors := shared.errors.map fun (_, e) => errorLine plan.file e
      match errors with
      | first :: _ =>
          if config.panicOnFail then (printed ++ ⟨[], [first]⟩).finish .abort
          else finish shared printed errors
      | [] => finish shared printed errors
where
  finish (shared : Run.Shared) (printed : Printed) (errors : List String) : Output :=
    (printed ++ ⟨[], errors⟩
        ++ summary plan.file current ⟨shared.store, shared.functions⟩ shared.journal).finish
      (exitCode !errors.isEmpty)

def runProgram (config : Config) (program : Program) : Output :=
  let (plan, current) := Plan.ofProgram program .empty
  let start : Printed := ⟨[],
    if config.verbose then
      [plan.file ++ ": " ++ toString current.size ++ " functions in "
        ++ toString plan.graph.clusters.length ++ " clusters"]
    else []⟩
  if config.workers ≤ 1 then runSequential config plan current start
  else runParallel config plan current start

/-- The whole program on the text of its input file, or on the reason why there is none. -/
def run (args : Arguments) (overrides : Overrides) (input : Except String String) : Output :=
  let refuse := fun message =>
    Printed.finish ⟨[], [args.program ++ ": error: " ++ message]⟩ (.exit 2)
  match input with
  | .error reason => refuse (args.program ++ ": " ++ reason)
  | .ok text =>
      match Program.parse 0 text with
      | .error e => refuse e.message
      | .ok program => runProgram (Config.of args overrides) program

end CommandLine

end Monadize
