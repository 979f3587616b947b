import SchemaWeaver.Descriptor.Basic
import SchemaWeaver.Descriptor.Definitions
import SchemaWeaver.Event
import SchemaWeaver.Gather
import SchemaWeaver.Json.Basic
import SchemaWeaver.Json.Fault
import SchemaWeaver.Json.Printer
import SchemaWeaver.Json.Reader
import SchemaWeaver.Json.Skip
import SchemaWeaver.Json.Token
import SchemaWeaver.Marking
import SchemaWeaver.Model
import SchemaWeaver.Numeric.Binary64
import SchemaWeaver.Numeric.Shortest
import SchemaWeaver.Package
import SchemaWeaver.Pass
import SchemaWeaver.Proofs.CallSite
import SchemaWeaver.Proofs.Descriptor.Answers
import SchemaWeaver.Proofs.Descriptor.Data
import SchemaWeaver.Proofs.Descriptor.Laws
import SchemaWeaver.Proofs.Descriptor.Layer
import SchemaWeaver.Proofs.Descriptor.Leads
import SchemaWeaver.Proofs.Descriptor.Membership
import SchemaWeaver.Proofs.Descriptor.Recursion
import SchemaWeaver.Proofs.Descriptor.Soundness
import SchemaWeaver.Proofs.Descriptor.Values
import SchemaWeaver.Proofs.Gather.Alike
import SchemaWeaver.Proofs.Gather.Coverage
import SchemaWeaver.Proofs.Gather.Depth
import SchemaWeaver.Proofs.Gather.Guard
import SchemaWeaver.Proofs.Gather.Literals
import SchemaWeaver.Proofs.Gather.Reach
import SchemaWeaver.Proofs.Gather.Walk
import SchemaWeaver.Proofs.Json.OneLine
import SchemaWeaver.Proofs.Json.Parts
import SchemaWeaver.Proofs.Json.Reading
import SchemaWeaver.Proofs.Json.Tokens
import SchemaWeaver.Proofs.Keyed
import SchemaWeaver.Proofs.Marking
import SchemaWeaver.Proofs.Package.Replacement
import SchemaWeaver.Proofs.Pass.Bindings
import SchemaWeaver.Proofs.Pass.Documents
import SchemaWeaver.Proofs.Pass.Effect
import SchemaWeaver.Proofs.Pass.Idempotence
import SchemaWeaver.Proofs.Pass.Isolation
import SchemaWeaver.Proofs.Pass.Lines
import SchemaWeaver.Proofs.Pass.Modules
import SchemaWeaver.Proofs.Pass.Order
import SchemaWeaver.Proofs.Pass.Policy
import SchemaWeaver.Proofs.Recursion
import SchemaWeaver.Proofs.Schema.Acceptance
import SchemaWeaver.Proofs.Schema.Admission
import SchemaWeaver.Proofs.Schema.Availability
import SchemaWeaver.Proofs.Schema.Canonical
import SchemaWeaver.Proofs.Schema.Choice
import SchemaWeaver.Proofs.Schema.Entries
import SchemaWeaver.Proofs.Schema.Exclusive
import SchemaWeaver.Proofs.Schema.Frame
import SchemaWeaver.Proofs.Schema.Inhabitants
import SchemaWeaver.Proofs.Schema.Literal
import SchemaWeaver.Proofs.Schema.Meaning
import SchemaWeaver.Proofs.Schema.NormalForm
import SchemaWeaver.Proofs.Schema.Places
import SchemaWeaver.Proofs.Source.Datum
import SchemaWeaver.Proofs.Source.Import
import SchemaWeaver.Proofs.Source.Literal
import SchemaWeaver.Proofs.Source.Places
import SchemaWeaver.Proofs.Source.Renaming
import SchemaWeaver.Proofs.Source.Traversal
import SchemaWeaver.Proofs.Text.AnyText
import SchemaWeaver.Proofs.Text.Cuts
import SchemaWeaver.Proofs.Text.Lines
import SchemaWeaver.Schema.Canonical
import SchemaWeaver.Schema.Raw
import SchemaWeaver.Settings
import SchemaWeaver.Settings.JsonForm
import SchemaWeaver.Source.Import
import SchemaWeaver.Source.Preorder
import SchemaWeaver.Source.Replace
import SchemaWeaver.Source.Text
import SchemaWeaver.Source.Tree
import SchemaWeaver.Text
