import Monadize.Term.Text

/-! Building one node of a term from a list of arguments, whose number and kinds are checked
against the constructor. -/

namespace Monadize

/-- The constructors of terms. -/
inductive Ctor where
  | skip | seq | modify | condition | tryCatch | loop | throw | guard | init | spec | call
  | recGuard | fail
  deriving DecidableEq

def Ctor.all : List Ctor :=
  [.skip, .seq, .modify, .condition, .tryCatch, .loop, .throw, .guard, .init, .spec, .call,
    .recGuard, .fail]

def Ctor.name : Ctor → String
  | .skip => "Skip"
  | .seq => "Seq"
  | .modify => "Modify"
  | .condition => "Condition"
  | .tryCatch => "Catch"
  | .loop => "While"
  | .throw => "Throw"
  | .guard => "Guard"
  | .init => "Init"
  | .spec => "Spec"
  | .call => "Call"
  | .recGuard => "RecGuard"
  | .fail => "Fail"

inductive Arg where
  | term (t : Term)
  | expr (e : Expr)
  | callee (c : Callee)
  | measure (m : MeasureId)

inductive ArgKind where
  | term | expr | callee | measure

/-- Why arguments do not fit a constructor. -/
inductive ArgError where
  | tooFew (ctor : Ctor)
  | unexpected (ctor : Ctor) (expected : ArgKind) (got : Arg)
  | tooMany (ctor : Ctor)

def ArgKind.describe : ArgKind → String
  | .term => "a term"
  | .expr => "an expression"
  | .callee => "a callee"
  | .measure => "a measure"

def CalleeRef.describe : CalleeRef → String
  | .placeholder p => "Placeholder(" ++ toString p ++ ")"
  | .const k => "Const(" ++ toString k ++ ")"

def MeasureArg.describe : MeasureArg → String
  | .pred m => "Pred(" ++ toString m ++ ")"
  | .managed => "Managed"
  | .unused => "Unused"

def Callee.describe (callee : Callee) : String :=
  "Callee \x7b target: " ++ callee.target.describe ++ ", measure: " ++ callee.measure.describe
    ++ " \x7d"

def Arg.describe : Arg → String
  | .term t => "Term(" ++ t.text ++ ")"
  | .expr e => "Expr(" ++ e.text ++ ")"
  | .callee c => "Callee(" ++ c.describe ++ ")"
  | .measure m => "Measure(" ++ toString m ++ ")"

def ArgError.message : ArgError → String
  | .tooFew ctor => ctor.name ++ ": too few arguments"
  | .unexpected ctor expected got =>
      ctor.name ++ ": expected " ++ expected.describe ++ ", got " ++ got.describe
  | .tooMany ctor => ctor.name ++ ": too many arguments"

namespace Arg

/-- Arguments are taken from the front of a list. -/
abbrev Taking := StateT (List Arg) (Except ArgError)

def takeAny (ctor : Ctor) : Taking Arg := fun
  | [] => .error (.tooFew ctor)
  | arg :: rest => .ok (arg, rest)

def takeTerm (ctor : Ctor) : Taking Term := do
  match ← takeAny ctor with
  | .term t => return t
  | got => throw (.unexpected ctor .term got)

def takeExpr (ctor : Ctor) : Taking Expr := do
  match ← takeAny ctor with
  | .expr e => return e
  | got => throw (.unexpected ctor .expr got)

def takeCallee (ctor : Ctor) : Taking Callee := do
  match ← takeAny ctor with
  | .callee c => return c
  | got => throw (.unexpected ctor .callee got)

def takeMeasure (ctor : Ctor) : Taking MeasureId := do
  match ← takeAny ctor with
  | .measure m => return m
  | got => throw (.unexpected ctor .measure got)

def takeNode (ctor : Ctor) : Taking Term :=
  match ctor with
  | .skip => return .skip
  | .seq => return .seq (← takeTerm ctor) (← takeTerm ctor)
  | .modify => return .modify (← takeExpr ctor)
  | .condition => return .condition (← takeExpr ctor) (← takeTerm ctor) (← takeTerm ctor)
  | .tryCatch => return .tryCatch (← takeTerm ctor) (← takeTerm ctor)
  | .loop => return .loop (← takeExpr ctor) (← takeTerm ctor)
  | .throw => return .throw
  | .guard => return .guard (← takeExpr ctor)
  | .init => return .init (← takeExpr ctor)
  | .spec => return .spec (← takeExpr ctor)
  | .call =>
      return .call (← takeExpr ctor) (← takeCallee ctor) (← takeExpr ctor) (← takeExpr ctor)
  | .recGuard => return .recGuard (← takeMeasure ctor) (← takeTerm ctor)
  | .fail => return .fail

end Arg

/-- The node with exactly these arguments. -/
def Term.build (ctor : Ctor) (args : List Arg) : Except ArgError Term :=
  match Arg.takeNode ctor args with
  | .error e => .error e
  | .ok (t, []) => .ok t
  | .ok (_, _ :: _) => .error (.tooMany ctor)

end Monadize
