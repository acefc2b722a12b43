import ContractQuery.Binary64
import ContractQuery.Command.Arguments
import ContractQuery.Command.Run
import ContractQuery.Compare
import ContractQuery.Concrete.Basic
import ContractQuery.Concrete.Faults
import ContractQuery.Concrete.OfJson
import ContractQuery.Concrete.ToTree
import ContractQuery.Concrete.Unread
import ContractQuery.Decimal
import ContractQuery.Disk
import ContractQuery.Format
import ContractQuery.Json.Basic
import ContractQuery.Json.Fault
import ContractQuery.Json.Numeral
import ContractQuery.Json.Reader
import ContractQuery.Json.Writer
import ContractQuery.Kind
import ContractQuery.Location
import ContractQuery.Main
import ContractQuery.Path
import ContractQuery.Position
import ContractQuery.Proofs.Agreement
import ContractQuery.Proofs.Calls
import ContractQuery.Proofs.Canonical
import ContractQuery.Proofs.CommentFree
import ContractQuery.Proofs.Comparison
import ContractQuery.Proofs.Composition
import ContractQuery.Proofs.Congruence
import ContractQuery.Proofs.Containment
import ContractQuery.Proofs.Conversion
import ContractQuery.Proofs.Coverage
import ContractQuery.Proofs.Depth
import ContractQuery.Proofs.Distinct
import ContractQuery.Proofs.Documents
import ContractQuery.Proofs.Edit
import ContractQuery.Proofs.Enclosure
import ContractQuery.Proofs.Equality
import ContractQuery.Proofs.Extraction
import ContractQuery.Proofs.Faults
import ContractQuery.Proofs.Formatting
import ContractQuery.Proofs.Grouping
import ContractQuery.Proofs.History
import ContractQuery.Proofs.Leaves
import ContractQuery.Proofs.Listing
import ContractQuery.Proofs.Loading
import ContractQuery.Proofs.Locality
import ContractQuery.Proofs.Locations
import ContractQuery.Proofs.Nesting
import ContractQuery.Proofs.Occurrence
import ContractQuery.Proofs.Overlap
import ContractQuery.Proofs.Places
import ContractQuery.Proofs.PrunedQueries
import ContractQuery.Proofs.Pruning
import ContractQuery.Proofs.Refusal
import ContractQuery.Proofs.Removal
import ContractQuery.Proofs.Resolution
import ContractQuery.Proofs.Route
import ContractQuery.Proofs.SortedForm
import ContractQuery.Proofs.SourceText
import ContractQuery.Proofs.Succession
import ContractQuery.Proofs.Tokens
import ContractQuery.Proofs.Topmost
import ContractQuery.Prune
import ContractQuery.Query.Contract
import ContractQuery.Query.Coverage
import ContractQuery.Query.Functions
import ContractQuery.Record
import ContractQuery.Settings.Basic
import ContractQuery.Settings.OfToml
import ContractQuery.Source
import ContractQuery.Span
import ContractQuery.Span.Decode
import ContractQuery.Text.Digit
import ContractQuery.Text.Extending
import ContractQuery.Text.Printable
import ContractQuery.Text.Quoted
import ContractQuery.Text.Space
import ContractQuery.Toml.Basic
import ContractQuery.Toml.Reader
import ContractQuery.Toml.Token
import ContractQuery.Toml.Unquoted
import ContractQuery.Tree.Address
import ContractQuery.Tree.Basic
import ContractQuery.Tree.Equality
import ContractQuery.Tree.OfJson
import ContractQuery.Walk
