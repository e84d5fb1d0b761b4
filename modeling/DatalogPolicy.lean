import DatalogPolicy.Dependency.Subpolicy
import DatalogPolicy.Main
import DatalogPolicy.Proofs.Formula.Equality
import DatalogPolicy.Proofs.Graph.Accounting
import DatalogPolicy.Proofs.OrderedList
import DatalogPolicy.Proofs.Dependency.Contribution
import DatalogPolicy.Proofs.Dependency.Maintenance
import DatalogPolicy.Proofs.Graph.Operations
import DatalogPolicy.Proofs.Graph.Components
import DatalogPolicy.Proofs.Graph.Stratification
import DatalogPolicy.Proofs.Dependency.Stratification
import DatalogPolicy.Proofs.Safety.Reorder
import DatalogPolicy.Proofs.Text.Escape
import DatalogPolicy.Proofs.Text.Pattern
import DatalogPolicy.Proofs.Token.Match
import DatalogPolicy.Proofs.Token.Classes
import DatalogPolicy.Proofs.Token.Scan
import DatalogPolicy.Proofs.Number.Layout
import DatalogPolicy.Proofs.Printing.Pieces
import DatalogPolicy.Proofs.Surface.Parser
import DatalogPolicy.Proofs.Compile.RoundTrip
import DatalogPolicy.Proofs.Surface.Derivation
import DatalogPolicy.Proofs.Surface.Completeness
import DatalogPolicy.Proofs.Formula.Order
import DatalogPolicy.Proofs.Graph.Deletion
import DatalogPolicy.Proofs.Graph.Reach
import DatalogPolicy.Proofs.Dependency.Changes
import DatalogPolicy.Proofs.Dependency.Subpolicy
import DatalogPolicy.Proofs.Dependency.Undo
import DatalogPolicy.Proofs.Dependency.Found
import DatalogPolicy.Proofs.Compile.Stem
import DatalogPolicy.Proofs.Compile.Printability
import DatalogPolicy.Proofs.Compile.FreshVariables
import DatalogPolicy.Proofs.Safety.RangeRestriction
import DatalogPolicy.Proofs.Dependency.SelfContained
import DatalogPolicy.Proofs.Dependency.Relevance
import DatalogPolicy.Proofs.Token.Division
import DatalogPolicy.Proofs.Formula.LawfulOrder
import DatalogPolicy.Proofs.Safety.Acceptance
import DatalogPolicy.Proofs.Graph.Execution
import DatalogPolicy.Proofs.Graph.Balance
import DatalogPolicy.Proofs.Dependency.Ledger
import DatalogPolicy.Proofs.Dependency.TableDeletion
import DatalogPolicy.Proofs.Token.Newline
import DatalogPolicy.Proofs.Compile.Words
import DatalogPolicy.Proofs.Compile.Concatenation
import DatalogPolicy.Proofs.Surface.Rejection
import DatalogPolicy.Proofs.Token.Layout
import DatalogPolicy.Proofs.Token.Insertion
import DatalogPolicy.Proofs.Compile.Layout
import DatalogPolicy.Proofs.Compile.Excerpt
import DatalogPolicy.Proofs.Json.Scalar
import DatalogPolicy.Proofs.Json.Formula
import DatalogPolicy.Proofs.Graph.Cycle
import DatalogPolicy.Proofs.Dependency.Direction
import DatalogPolicy.Proofs.Compile.Session
import DatalogPolicy.Proofs.Compile.References
import DatalogPolicy.Proofs.Compile.ColumnFaults
import DatalogPolicy.Proofs.Compile.ColumnReferences
import DatalogPolicy.Proofs.Safety.Agreement
import DatalogPolicy.Proofs.Formula.Classification
import DatalogPolicy.Proofs.Safety.Diagnosis
import DatalogPolicy.Proofs.Number.Comparison
import DatalogPolicy.Proofs.Text.Position
import DatalogPolicy.Proofs.Graph.Removal
import DatalogPolicy.Proofs.TableName
import DatalogPolicy.Proofs.Number.Numeral
import DatalogPolicy.Proofs.Token.Quoted
import DatalogPolicy.Proofs.Compile.Conversion
import DatalogPolicy.Proofs.Dependency.ModalDirectory
