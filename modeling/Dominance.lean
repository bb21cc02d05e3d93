import Dominance.Chart.Basic
import Dominance.Chart.Count
import Dominance.Chart.Fill
import Dominance.Chart.Removal
import Dominance.Chart.Thin
import Dominance.Clause.Basic
import Dominance.Clause.Read
import Dominance.Clause.Write
import Dominance.Command.Files
import Dominance.Command.Number
import Dominance.Command.Request
import Dominance.Command.Run
import Dominance.Enumeration.Listing
import Dominance.Enumeration.Machine
import Dominance.Enumeration.Readings
import Dominance.Graph.Basic
import Dominance.Graph.Checked
import Dominance.Graph.Compact
import Dominance.Graph.Fragment
import Dominance.Graph.Property
import Dominance.Graph.Spread
import Dominance.Log
import Dominance.Main
import Dominance.Registry
import Dominance.SolvedForm
import Dominance.Sorting
import Dominance.Split.Basic
import Dominance.Split.Free
import Dominance.Split.Source
import Dominance.Subgraph
import Dominance.Text.Blank
import Dominance.Text.CodeRange
import Dominance.Text.Combining
import Dominance.Text.DecimalDigit
import Dominance.Text.Line
import Dominance.Text.Quoted
import Dominance.Text.Resemblance
import Dominance.Text.Unprinted
import Dominance.Proofs.Connection
import Dominance.Proofs.Forest
import Dominance.Proofs.FreeFragment
import Dominance.Proofs.Solvability
import Dominance.Proofs.Filling
import Dominance.Proofs.Unfolding
import Dominance.Proofs.Enumeration
import Dominance.Proofs.Failure
import Dominance.Proofs.Counting
import Dominance.Proofs.References
import Dominance.Proofs.Thinning
import Dominance.Proofs.Derivation
import Dominance.Proofs.Soundness
import Dominance.Proofs.Completeness
import Dominance.Proofs.Bookkeeping
import Dominance.Proofs.Distinctness
import Dominance.Proofs.Worklist
import Dominance.Proofs.Closure
import Dominance.Proofs.Anchoring
import Dominance.Proofs.Pruning
import Dominance.Proofs.Survival
import Dominance.Proofs.Fixpoint
import Dominance.Proofs.Mirror
import Dominance.Proofs.Compaction
import Dominance.Proofs.Reordering
import Dominance.Proofs.Cycle
import Dominance.Proofs.Resumption
import Dominance.Proofs.ClauseText
import Dominance.Proofs.Declarations
import Dominance.Proofs.ReadBack
import Dominance.Proofs.Cascade
import Dominance.Proofs.Recursion
import Dominance.Proofs.Grammar
import Dominance.Proofs.Language
import Dominance.Proofs.Tagging
import Dominance.Proofs.Exactness
import Dominance.Proofs.Memory
import Dominance.Proofs.Access
import Dominance.Proofs.CompactShape
import Dominance.Graph.Sweep
import Dominance.Proofs.Sweep
import Dominance.Graph.Visit
import Dominance.Proofs.Visit
import Dominance.Proofs.Recognition
import Dominance.Graph.Tables
import Dominance.Proofs.Tables
import Dominance.Proofs.Tabulation
