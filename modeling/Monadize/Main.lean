import Monadize.CommandLine

/-! The program: reads the description named on the command line and prints the outcome. -/

open Monadize

/-- What the system says about a file that cannot be read. -/
def readInput (path : String) : IO (Except String String) := do
  try
    return .ok (← IO.FS.readFile path)
  catch e =>
    match e with
    | .noFileOrDirectory .. => return .error "No such file or directory (os error 2)"
    | e => return .error (toString e)

def overridesNow : IO CommandLine.Overrides := do
  let isSet := fun name => do return (← IO.getEnv name).isSome
  let names ← ["NO_OPTIMIZE", "NO_TERMINATION", "TRACE", "PANIC_ON_FAIL", "ONE_THREAD"].filterM isSet
  return .ofNames (names.contains ·)

def main (args : List String) : IO UInt32 := do
  match CommandLine.Arguments.parse args with
  | none =>
      IO.eprintln "usage: [OPTIONS] PROGRAM"
      return 2
  | some arguments =>
      let output := CommandLine.run arguments (← overridesNow) (← readInput arguments.program)
      IO.print output.stdout
      IO.eprint output.stderr
      match output.ending with
      | .exit code => return code.toUInt32
      | .abort => return 134
      | .panic => return 101
