import FlatRecord.Binary64
import FlatRecord.Binary64.Layout
import FlatRecord.Complaint
import FlatRecord.Context
import FlatRecord.Datum
import FlatRecord.Decimal
import FlatRecord.Inspect
import FlatRecord.Json
import FlatRecord.Json.Document
import FlatRecord.Json.Reader
import FlatRecord.Json.Writer
import FlatRecord.Key
import FlatRecord.Listing
import FlatRecord.Moment
import FlatRecord.Proofs.Comparison
import FlatRecord.Proofs.Json.Agreement
import FlatRecord.Proofs.Json.Path
import FlatRecord.Proofs.Json.Reader
import FlatRecord.Proofs.Key
import FlatRecord.Proofs.Key.Order
import FlatRecord.Proofs.Listing
import FlatRecord.Proofs.Moment
import FlatRecord.Proofs.Moment.Grammar
import FlatRecord.Proofs.Moment.Latest
import FlatRecord.Proofs.Record.ClosedGaps
import FlatRecord.Proofs.Record.ClosedKeys
import FlatRecord.Proofs.Record.Entries
import FlatRecord.Proofs.Record.KeyTexts
import FlatRecord.Proofs.Record.ListItems
import FlatRecord.Proofs.Record.MixedLists
import FlatRecord.Proofs.Record.Nesting
import FlatRecord.Proofs.Record.NormalForm
import FlatRecord.Proofs.Record.Objects
import FlatRecord.Proofs.Record.RoundTrip
import FlatRecord.Proofs.Record.Tree
import FlatRecord.Proofs.Rule.Dates
import FlatRecord.Proofs.Rule.Effects
import FlatRecord.Proofs.Rule.RepeatedTexts
import FlatRecord.Proofs.Rule.SchemaKeys
import FlatRecord.Proofs.Rule.SpreadTags
import FlatRecord.Proofs.Rule.TakenNames
import FlatRecord.Proofs.Schema.Acceptance
import FlatRecord.Proofs.Schema.FullSchema
import FlatRecord.Proofs.Schema.Items
import FlatRecord.Proofs.Schema.Misplaced
import FlatRecord.Proofs.Schema.Names
import FlatRecord.Proofs.Schema.Nodes
import FlatRecord.Proofs.Schema.Orphans
import FlatRecord.Proofs.Schema.Reordering
import FlatRecord.Proofs.Schema.Routing
import FlatRecord.Proofs.Schema.Templates
import FlatRecord.Proofs.SortedMap
import FlatRecord.Proofs.Store.Cell
import FlatRecord.Proofs.Store.Filling
import FlatRecord.Proofs.Store.FoundRow
import FlatRecord.Proofs.Store.History
import FlatRecord.Proofs.Store.Lists
import FlatRecord.Proofs.Store.Memory
import FlatRecord.Proofs.Store.Pending
import FlatRecord.Proofs.Store.Rendering
import FlatRecord.Proofs.Store.SavedRow
import FlatRecord.Proofs.Store.SavedTwice
import FlatRecord.Proofs.Store.Saving
import FlatRecord.Proofs.Store.Views
import FlatRecord.Proofs.Validation.Accumulation
import FlatRecord.Proofs.Validation.Clearing
import FlatRecord.Proofs.Validation.ClosedSchemas
import FlatRecord.Proofs.Validation.Concatenation
import FlatRecord.Proofs.Validation.DeclarationOrder
import FlatRecord.Proofs.Validation.ErrorTree
import FlatRecord.Proofs.Validation.FieldErrors
import FlatRecord.Proofs.Validation.KeptExtras
import FlatRecord.Proofs.Validation.Locality
import FlatRecord.Proofs.Validation.Lossless
import FlatRecord.Proofs.Validation.Messages
import FlatRecord.Proofs.Validation.OneList
import FlatRecord.Proofs.Validation.PhaseOrder
import FlatRecord.Proofs.Validation.Pruning
import FlatRecord.Proofs.Validation.RequiredFields
import FlatRecord.Proofs.Validation.Run
import FlatRecord.Proofs.Validation.Schedule
import FlatRecord.Proofs.Validation.Trace
import FlatRecord.Record.Flatten
import FlatRecord.Record.Nested
import FlatRecord.Registry
import FlatRecord.Rule
import FlatRecord.Rule.Conversion
import FlatRecord.Rule.Lookup
import FlatRecord.Rule.Naming
import FlatRecord.Rule.Presence
import FlatRecord.Schema
import FlatRecord.Schema.Expansion
import FlatRecord.Schema.Template
import FlatRecord.Settings
import FlatRecord.SortedMap
import FlatRecord.SortedMap.Ascending
import FlatRecord.Store.Cell
import FlatRecord.Store.Memory
import FlatRecord.Store.Rendering
import FlatRecord.Store.Row
import FlatRecord.Store.Saving
import FlatRecord.Store.Session
import FlatRecord.Text
import FlatRecord.Validation
import FlatRecord.Validation.ErrorTree
import FlatRecord.Validation.Phase
import FlatRecord.Validation.Report
import FlatRecord.Validator
