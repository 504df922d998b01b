import AbstractionRefinement.Analysis
import AbstractionRefinement.Audit.Basic
import AbstractionRefinement.Clock
import AbstractionRefinement.Described
import AbstractionRefinement.Digraph.Audit
import AbstractionRefinement.Digraph.Basic
import AbstractionRefinement.Digraph.Check
import AbstractionRefinement.Digraph.Domain
import AbstractionRefinement.Duration
import AbstractionRefinement.Exploration
import AbstractionRefinement.Failure
import AbstractionRefinement.Fingerprint
import AbstractionRefinement.Frontier
import AbstractionRefinement.Graph.Basic
import AbstractionRefinement.Graph.Dot
import AbstractionRefinement.Graph.Edit
import AbstractionRefinement.Graph.Pruning
import AbstractionRefinement.Graph.Query
import AbstractionRefinement.IndexMap
import AbstractionRefinement.IndexSet
import AbstractionRefinement.Iteration
import AbstractionRefinement.Loop
import AbstractionRefinement.Numeral
import AbstractionRefinement.Product
import AbstractionRefinement.Program.Basic
import AbstractionRefinement.Program.Expr
import AbstractionRefinement.Proofs.Attained
import AbstractionRefinement.Proofs.Bookkeeping
import AbstractionRefinement.Proofs.Counters
import AbstractionRefinement.Proofs.Digraph.Decision
import AbstractionRefinement.Proofs.Digraph.Divergence
import AbstractionRefinement.Proofs.Digraph.Domain
import AbstractionRefinement.Proofs.Digraph.Resumption
import AbstractionRefinement.Proofs.Digraph.Search
import AbstractionRefinement.Proofs.Digraph.Shortest
import AbstractionRefinement.Proofs.Digraph.Sweep
import AbstractionRefinement.Proofs.Discipline
import AbstractionRefinement.Proofs.Exploration.Expansions
import AbstractionRefinement.Proofs.Exploration.Extension
import AbstractionRefinement.Proofs.Exploration.Growth
import AbstractionRefinement.Proofs.Exploration.Room
import AbstractionRefinement.Proofs.Exploration.Run
import AbstractionRefinement.Proofs.Exploration.Settled
import AbstractionRefinement.Proofs.Exploration.Termination
import AbstractionRefinement.Proofs.Exploration.Turns
import AbstractionRefinement.Proofs.Frontier
import AbstractionRefinement.Proofs.Graph.Counterexamples
import AbstractionRefinement.Proofs.Graph.Covering
import AbstractionRefinement.Proofs.Graph.Edits
import AbstractionRefinement.Proofs.Graph.Keys
import AbstractionRefinement.Proofs.Graph.Lookup
import AbstractionRefinement.Proofs.Graph.Passes
import AbstractionRefinement.Proofs.Graph.Paths
import AbstractionRefinement.Proofs.Graph.Pruning
import AbstractionRefinement.Proofs.Graph.Removal
import AbstractionRefinement.Proofs.Graph.WellFormed
import AbstractionRefinement.Proofs.Labels
import AbstractionRefinement.Proofs.Lockstep
import AbstractionRefinement.Proofs.Loop
import AbstractionRefinement.Proofs.Partitions
import AbstractionRefinement.Proofs.Product
import AbstractionRefinement.Proofs.Program.Declarations
import AbstractionRefinement.Proofs.Program.Semantics
import AbstractionRefinement.Proofs.Program.Typing
import AbstractionRefinement.Proofs.Progress
import AbstractionRefinement.Proofs.Refinement.Cuts
import AbstractionRefinement.Proofs.Refinement.Effect
import AbstractionRefinement.Proofs.Refinement.Repetition
import AbstractionRefinement.Proofs.Replay
import AbstractionRefinement.Proofs.Safety
import AbstractionRefinement.Proofs.Soundness
import AbstractionRefinement.Proofs.Values.Allowance
import AbstractionRefinement.Proofs.Values.Budget
import AbstractionRefinement.Proofs.Values.Cores
import AbstractionRefinement.Proofs.Values.Evaluation
import AbstractionRefinement.Proofs.Values.Exactness
import AbstractionRefinement.Proofs.Values.Exclusion
import AbstractionRefinement.Proofs.Values.Failures
import AbstractionRefinement.Proofs.Values.Initial
import AbstractionRefinement.Proofs.Values.Kinds
import AbstractionRefinement.Proofs.Values.Liveness
import AbstractionRefinement.Proofs.Values.Order
import AbstractionRefinement.Proofs.Values.Partitions
import AbstractionRefinement.Proofs.Values.Repetition
import AbstractionRefinement.Proofs.Values.Room
import AbstractionRefinement.Proofs.Values.Safety
import AbstractionRefinement.Proofs.Values.Simulation
import AbstractionRefinement.Proofs.Values.Slicing
import AbstractionRefinement.Proofs.Values.TotalKnowledge
import AbstractionRefinement.Proofs.Values.Transfer
import AbstractionRefinement.Proofs.Values.Violation
import AbstractionRefinement.Proofs.Values.Walk
import AbstractionRefinement.Proofs.Waitlist
import AbstractionRefinement.Proofs.Work
import AbstractionRefinement.Refinement
import AbstractionRefinement.Report
import AbstractionRefinement.Session
import AbstractionRefinement.Tabular
import AbstractionRefinement.Trace
import AbstractionRefinement.Values.Analysis
import AbstractionRefinement.Values.Check
import AbstractionRefinement.Values.Refutation
import AbstractionRefinement.Values.Simulation
import AbstractionRefinement.Values.State
