import Monadize.Compile.Error
import Monadize.Finishing
import Monadize.Text.Quoted

/-! What happens during a run, in order. Statistics and progress messages are read off the
journal. -/

namespace Monadize

inductive Event where
  | clusterStarted (id : ClusterId) (members : List Name)
  | functionStarted (func : Name) (placeholders : Nat)
  /-- A call was replaced by failure. -/
  | warned (warning : Warning)
  | lemmasUsed (func : Name) (counts : List (Lemma × Nat))
  | reduced (steps : Nat)
  | functionCompiled (func : Name)
  /-- The record of one pass over a function of the cluster. -/
  | traced (id : ClusterId) (record : TraceRecord)
  | clusterDefined (id : ClusterId)
  | clusterFailed (id : ClusterId) (error : CompileError)

/-- What is counted. -/
inductive Counter where
  | missingCallees
  | functionsCompiled
  | clustersFailed
  | clustersDefined
  | reductions
  | functionsLeft
  deriving DecidableEq

namespace Counter

def label : Counter → String
  | .missingCallees => "missing callee"
  | .functionsCompiled => "function translated"
  | .clustersFailed => "function failed"
  | .clustersDefined => "cluster defined"
  | .reductions => "rewrite"
  | .functionsLeft => "untranslated"

/-- All counters, in the order of their labels. -/
def all : List Counter :=
  [.clustersDefined, .clustersFailed, .functionsCompiled, .missingCallees, .reductions,
    .functionsLeft]

end Counter

namespace Event

/-- How much an event adds to a counter. -/
def count (counter : Counter) : Event → Nat
  | .warned (.missingCallee _ _) => if counter = .missingCallees then 1 else 0
  | .reduced steps => if counter = .reductions then steps else 0
  | .functionCompiled _ => if counter = .functionsCompiled then 1 else 0
  | .clusterDefined _ => if counter = .clustersDefined then 1 else 0
  | .clusterFailed _ _ => if counter = .clustersFailed then 1 else 0
  | _ => 0

/-- The total of a counter over a journal. -/
def total (counter : Counter) (journal : List Event) : Nat :=
  (journal.map (count counter)).foldr (· + ·) 0

/-- The progress message of an event. -/
def message? : Event → Option String
  | .clusterStarted id members =>
      some ("cluster " ++ toString id ++ ": " ++ Text.quotedList members)
  | .functionStarted func placeholders =>
      some ("translating " ++ func ++ " with " ++ toString placeholders ++ " placeholders")
  | .warned (.missingCallee func callee) =>
      some (func ++ ": no translation for callee " ++ callee ++ ", using fail")
  | .lemmasUsed func counts =>
      some (func ++ ": "
        ++ String.intercalate ", " (counts.map fun (rule, n) => rule.name ++ " x" ++ toString n))
  | .clusterFailed id error =>
      some ("cluster " ++ toString id ++ " failed: " ++ error.message)
  | _ => none

/-- The passes recorded in a journal, with their clusters. -/
def traces (journal : List Event) : List (ClusterId × TraceRecord) :=
  journal.filterMap fun
    | .traced id record => some (id, record)
    | _ => none

end Event

end Monadize
