import Federation.Diagnostic.Message
import Federation.Membership.Session
import Federation.Options.File
import Federation.Schema.Printer
import Federation.Proofs.Authorization.Credential
import Federation.Proofs.Authorization.Acceptance
import Federation.Proofs.Authorization.Conjunction
import Federation.Proofs.Authorization.Limit
import Federation.Proofs.Batch.Ownership
import Federation.Proofs.Batch.Order
import Federation.Proofs.Router.Partition
import Federation.Proofs.Event.Binding
import Federation.Proofs.Event.Fidelity
import Federation.Proofs.Event.Shape
import Federation.Proofs.Document.Reference
import Federation.Proofs.Authorization.Recorded
import Federation.Proofs.Renaming.Assembly
import Federation.Proofs.Renaming.Exchange
import Federation.Proofs.Renaming.Result
import Federation.Proofs.Renaming.Root
import Federation.Proofs.Batch.Sequence
import Federation.Proofs.Membership.Agreement
import Federation.Proofs.Membership.History
import Federation.Proofs.Membership.Sharing
import Federation.Proofs.Implementation.Substitution
import Federation.Proofs.Registry.Reordering
import Federation.Proofs.Document.Printed
import Federation.Proofs.Authorization.Demand
import Federation.Proofs.Permutation.Result
import Federation.Proofs.FieldSet.Canonical
import Federation.Proofs.FieldSet.Unused
import Federation.Proofs.FieldSet.Way
import Federation.Proofs.Router.Key
import Federation.Proofs.Implementation.Report
import Federation.Proofs.Event.Usable
import Federation.Proofs.Authorization.Joining
import Federation.Proofs.Registry.Clash
import Federation.Proofs.Registry.Extension
import Federation.Proofs.Diagnostic.Undefined
import Federation.Proofs.Text.Piece
import Federation.Proofs.Event.Stream
