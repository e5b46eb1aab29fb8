import JsonSchema.Json.Printer
import JsonSchema.Json.Reader
import JsonSchema.Stock.Keywords
import JsonSchema.Stock.Predicates
import JsonSchema.Validator
import JsonSchema.Proofs.Actions
import JsonSchema.Proofs.Reports
import JsonSchema.Proofs.Acceptance
import JsonSchema.Proofs.Answers
import JsonSchema.Proofs.Cycles
import JsonSchema.Proofs.GuardedRun
import JsonSchema.Proofs.Performs
import JsonSchema.Proofs.OneGuard
import JsonSchema.Proofs.Progress
import JsonSchema.Proofs.GuardedChange
import JsonSchema.Proofs.Alters
import JsonSchema.Proofs.Unfilled
import JsonSchema.Proofs.Termination
import JsonSchema.Proofs.ExactValue
import JsonSchema.Proofs.Meaning
import JsonSchema.Proofs.Multiples
import JsonSchema.Proofs.Building
import JsonSchema.Proofs.Reading
import JsonSchema.Proofs.Deciding
import JsonSchema.Proofs.Agreement
import JsonSchema.Proofs.Compiler
import JsonSchema.Proofs.Positions
import JsonSchema.Proofs.WellFormed
import JsonSchema.Proofs.Documents
import JsonSchema.Proofs.Settled
import JsonSchema.Proofs.Buildable
import JsonSchema.Proofs.Referring
import JsonSchema.Proofs.Reserving
import JsonSchema.Proofs.Cells
import JsonSchema.Proofs.Changer
import JsonSchema.Proofs.Following
import JsonSchema.Proofs.Steady
import JsonSchema.Proofs.OneGuardChange
import JsonSchema.Proofs.Discipline
import JsonSchema.Proofs.DistinctNames
import JsonSchema.Proofs.Outcomes
import JsonSchema.Proofs.Trimming
import JsonSchema.Proofs.Still
import JsonSchema.Proofs.Resting
import JsonSchema.Proofs.Filtered
import JsonSchema.Proofs.Filtering
import JsonSchema.Proofs.Recording
import JsonSchema.Proofs.Untouched
import JsonSchema.Proofs.Reshaping
import JsonSchema.Proofs.Territories
import JsonSchema.Proofs.Divided
import JsonSchema.Proofs.Structural
import JsonSchema.Proofs.Reporting
import JsonSchema.Proofs.Overwriting
import JsonSchema.Proofs.Altered
import JsonSchema.Proofs.Judging
import JsonSchema.Proofs.Remaining
import JsonSchema.Proofs.Greedy
import JsonSchema.Proofs.Findings
import JsonSchema.Proofs.Pointing
import JsonSchema.Proofs.Places
import JsonSchema.Proofs.Faults
import JsonSchema.Proofs.Blaming
import JsonSchema.Proofs.Placing
import JsonSchema.Proofs.Explaining
import JsonSchema.Proofs.Identifiers
import JsonSchema.Proofs.Pointers
import JsonSchema.Proofs.Keys
import JsonSchema.Proofs.Pairing
import JsonSchema.Proofs.Corresponding
import JsonSchema.Proofs.Simulation
import JsonSchema.Proofs.FormFree
import JsonSchema.Proofs.Equality
import JsonSchema.Proofs.Reordering
import JsonSchema.Proofs.SideBySide
import JsonSchema.Proofs.Rearranging
import JsonSchema.Proofs.MemberOrder
import JsonSchema.Proofs.Uniqueness
import JsonSchema.Proofs.SingleRule
import JsonSchema.Proofs.Divisibility
import JsonSchema.Proofs.ExactDivision
import JsonSchema.Proofs.Fragments
import JsonSchema.Proofs.Readers
import JsonSchema.Proofs.Grammar
import JsonSchema.Proofs.Wrapping
import JsonSchema.Proofs.Matching
import JsonSchema.Proofs.Threads
import JsonSchema.Proofs.Searching
import JsonSchema.Proofs.Making
import JsonSchema.Proofs.WholeMatch
import JsonSchema.Proofs.Fields
import JsonSchema.Proofs.DocumentOrder
import JsonSchema.Proofs.Comparison
import JsonSchema.Proofs.Tuples
import JsonSchema.Proofs.EndPositions
import JsonSchema.Proofs.Languages
import JsonSchema.Proofs.Hostnames
import JsonSchema.Proofs.Replacing
import JsonSchema.Proofs.Unescaping
import JsonSchema.Proofs.Indices
