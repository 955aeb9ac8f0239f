import Monadize.Basic
import Monadize.CommandLine
import Monadize.Compile.Callees
import Monadize.Compile.Error
import Monadize.Compile.Function
import Monadize.Compile.Journal
import Monadize.Compile.Statement
import Monadize.Environment
import Monadize.Expr.Basic
import Monadize.Expr.Codec
import Monadize.Expr.Simplify
import Monadize.Expr.Text
import Monadize.Finishing
import Monadize.FiniteMap
import Monadize.Graph.Basic
import Monadize.Graph.Calls
import Monadize.Indexed
import Monadize.Json.Basic
import Monadize.Json.Reader
import Monadize.Json.Writer
import Monadize.Layout
import Monadize.Main
import Monadize.NameSet
import Monadize.Predicate
import Monadize.Program.Description
import Monadize.Proof.Check
import Monadize.Proof.Cluster
import Monadize.Proof.Derive
import Monadize.Proof.Error
import Monadize.Proof.Lemma
import Monadize.Proof.Monotone
import Monadize.Proof.Recipe
import Monadize.Proof.Text
import Monadize.Proof.Theorem
import Monadize.Proofs.Except
import Monadize.Proofs.FiniteMap
import Monadize.Proofs.Replay.Derivation
import Monadize.Reduction.Normalize
import Monadize.Reduction.Rules
import Monadize.Reported
import Monadize.Run.Cluster
import Monadize.Run.Parallel
import Monadize.Run.Plan
import Monadize.Run.Sequential
import Monadize.Schedule
import Monadize.Stmt.Basic
import Monadize.Stmt.Codec
import Monadize.Stmt.Text
import Monadize.Store
import Monadize.Term.Basic
import Monadize.Term.Build
import Monadize.Term.Codec
import Monadize.Term.Text
import Monadize.Text.Invisible
import Monadize.Text.Quoted
import Monadize.Proofs.Compile.Statement
import Monadize.Proofs.Compile.Replay
import Monadize.Proofs.Reduction.Equivalence
import Monadize.Proofs.Semantics.Correspondence
import Monadize.Proofs.Replay.Soundness
import Monadize.Proofs.Graph.Components
import Monadize.Proofs.Graph.Calls
import Monadize.Proofs.Finishing
import Monadize.Proofs.Replay.Scoping
import Monadize.Proofs.Compile.Function
import Monadize.Proofs.Cluster.Closing
import Monadize.Proofs.Store
import Monadize.Proofs.Cluster.Commit
import Monadize.Proofs.Cluster.Compile
import Monadize.Proofs.Program
import Monadize.Proofs.Run.Progress
import Monadize.Proofs.Run.Outcomes
import Monadize.Proofs.Kernel.Scoping
import Monadize.Proofs.Kernel.Validity
import Monadize.Proofs.Semantics.Definitions
import Monadize.Proofs.Cluster.Soundness
import Monadize.Proofs.Graph.Order
import Monadize.Proofs.Graph.StrongComponents
import Monadize.Proofs.Graph.Dependencies
import Monadize.Proofs.Term.Guards
import Monadize.Proofs.Cluster.Bindings
import Monadize.Proofs.FiniteMap.Sorted
import Monadize.Proofs.Schedule.Queue
import Monadize.Proofs.Schedule.History
import Monadize.Proofs.Run.Course
import Monadize.Proofs.Run.Consistency
import Monadize.Proofs.Run.Sessions
import Monadize.Proofs.Run.Registrations
import Monadize.Proofs.Run.Measures
import Monadize.Proofs.Renaming
import Monadize.Proofs.Run.Agreement
import Monadize.Proofs.Run.Turns
import Monadize.Proofs.Run.Interleavings
import Monadize.Proofs.Schedule.Safety
import Monadize.Proofs.Graph.Reachability
import Monadize.Proofs.Compile.Calls
import Monadize.Proofs.Run.Trails
import Monadize.Proofs.Run.MissingCallees
import Monadize.Proofs.Graph.Locality
import Monadize.Proofs.Compile.Locality
import Monadize.Proofs.Run.Locality
import Monadize.Proofs.Schedule.Workers
import Monadize.Proofs.Cluster.Placeholders
import Monadize.Proofs.Cluster.Monotonicity
import Monadize.Proofs.Run.Commits
import Monadize.Proofs.Store.Operations
import Monadize.Proofs.Json.RoundTrip
import Monadize.Proofs.Stmt.Codec
import Monadize.Proofs.Program.Documents
import Monadize.Proofs.Program.Loading
import Monadize.Proofs.Expr.Names
import Monadize.Proofs.Expr.Simplification
import Monadize.Proofs.Expr.Denotation
import Monadize.Proofs.Expr.Preservation
import Monadize.Proofs.Expr.Termination
import Monadize.Proofs.Expr.Idempotence
import Monadize.Proofs.Term.Places
import Monadize.Proofs.Reduction.NormalForms
import Monadize.Proofs.Predicate
import Monadize.Proofs.Store.Acceptance
import Monadize.Proofs.Replay.Uniqueness
import Monadize.Proofs.Compile.Diagnostics
import Monadize.Proofs.Expr.Choices
import Monadize.Proofs.Kernel.ReturnSlots
import Monadize.Proofs.Layout
