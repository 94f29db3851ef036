import SchemaQuery.Batch.Drive
import SchemaQuery.Batch.Request
import SchemaQuery.Batch.Retry
import SchemaQuery.Config
import SchemaQuery.Document.DateBound
import SchemaQuery.Document.Gateway
import SchemaQuery.Document.Matching
import SchemaQuery.Document.Query
import SchemaQuery.Document.Store
import SchemaQuery.Document.Update
import SchemaQuery.Hooks
import SchemaQuery.Json.Basic
import SchemaQuery.Json.Binary64
import SchemaQuery.Json.Fields
import SchemaQuery.Json.Printer
import SchemaQuery.Json.Reader
import SchemaQuery.Json.Record
import SchemaQuery.Json.Shortest
import SchemaQuery.KeyValue.Expression
import SchemaQuery.KeyValue.Fragment
import SchemaQuery.KeyValue.Gateway
import SchemaQuery.KeyValue.Placeholders
import SchemaQuery.KeyValue.PointRequest
import SchemaQuery.KeyValue.Store
import SchemaQuery.KeyValue.TableRead
import SchemaQuery.KeyValue.Update
import SchemaQuery.Paging.Cursor
import SchemaQuery.Paging.Page
import SchemaQuery.Paging.Segmented
import SchemaQuery.Paging.Sequential
import SchemaQuery.Paging.Window
import SchemaQuery.Predicate.Basic
import SchemaQuery.Predicate.Error
import SchemaQuery.Predicate.Plan
import SchemaQuery.Predicate.Planning
import SchemaQuery.Proofs.Batch.Backoff
import SchemaQuery.Proofs.Batch.Conservation
import SchemaQuery.Proofs.Batch.Effects
import SchemaQuery.Proofs.Batch.Rounds
import SchemaQuery.Proofs.Document.Collections
import SchemaQuery.Proofs.Document.DateBounds
import SchemaQuery.Proofs.Document.Entries
import SchemaQuery.Proofs.Document.NumberedPages
import SchemaQuery.Proofs.Document.Partitions
import SchemaQuery.Proofs.Document.Paths
import SchemaQuery.Proofs.Document.Runs
import SchemaQuery.Proofs.Document.Selecting
import SchemaQuery.Proofs.Document.Tests
import SchemaQuery.Proofs.Document.Writes
import SchemaQuery.Proofs.Json.Equality
import SchemaQuery.Proofs.Json.Keys
import SchemaQuery.Proofs.Json.Members
import SchemaQuery.Proofs.Json.Objects
import SchemaQuery.Proofs.Json.Records
import SchemaQuery.Proofs.Json.Rounding
import SchemaQuery.Proofs.Json.Storing
import SchemaQuery.Proofs.Json.Texts
import SchemaQuery.Proofs.KeyValue.Allocation
import SchemaQuery.Proofs.KeyValue.BatchReads
import SchemaQuery.Proofs.KeyValue.Binding
import SchemaQuery.Proofs.KeyValue.Commuting
import SchemaQuery.Proofs.KeyValue.Deferring
import SchemaQuery.Proofs.KeyValue.Denotation
import SchemaQuery.Proofs.KeyValue.Derivations
import SchemaQuery.Proofs.KeyValue.Grammar
import SchemaQuery.Proofs.KeyValue.Joining
import SchemaQuery.Proofs.KeyValue.Narrowing
import SchemaQuery.Proofs.KeyValue.Pages
import SchemaQuery.Proofs.KeyValue.Placeholders
import SchemaQuery.Proofs.KeyValue.Projections
import SchemaQuery.Proofs.KeyValue.Reading
import SchemaQuery.Proofs.KeyValue.Rendering
import SchemaQuery.Proofs.KeyValue.Rereading
import SchemaQuery.Proofs.KeyValue.Resuming
import SchemaQuery.Proofs.KeyValue.Retrieval
import SchemaQuery.Proofs.KeyValue.Runs
import SchemaQuery.Proofs.KeyValue.Serving
import SchemaQuery.Proofs.KeyValue.SetActions
import SchemaQuery.Proofs.KeyValue.Tables
import SchemaQuery.Proofs.KeyValue.Usage
import SchemaQuery.Proofs.KeyValue.Writes
import SchemaQuery.Proofs.Paging.Agreement
import SchemaQuery.Proofs.Paging.Budget
import SchemaQuery.Proofs.Paging.Interleaving
import SchemaQuery.Proofs.Paging.Limits
import SchemaQuery.Proofs.Paging.Merging
import SchemaQuery.Proofs.Paging.Progress
import SchemaQuery.Proofs.Paging.QueryWalk
import SchemaQuery.Proofs.Paging.ScanWalk
import SchemaQuery.Proofs.Paging.Search
import SchemaQuery.Proofs.Paging.Source
import SchemaQuery.Proofs.Paging.Walks
import SchemaQuery.Proofs.Predicate.Accounting
import SchemaQuery.Proofs.Predicate.KeyConditions
import SchemaQuery.Proofs.Predicate.Leaves
import SchemaQuery.Proofs.Predicate.Lookups
import SchemaQuery.Proofs.Predicate.Planned
import SchemaQuery.Proofs.Schema.Indexes
import SchemaQuery.Proofs.Schema.Registration
import SchemaQuery.Proofs.Schema.Shapes
import SchemaQuery.Proofs.Store.Aborting
import SchemaQuery.Proofs.Store.ChangeSets
import SchemaQuery.Proofs.Store.Counters
import SchemaQuery.Proofs.Store.Courses
import SchemaQuery.Proofs.Store.FailedUpdates
import SchemaQuery.Proofs.Store.Holding
import SchemaQuery.Proofs.Store.HookProtocol
import SchemaQuery.Proofs.Store.KeyChanges
import SchemaQuery.Proofs.Store.PathLaws
import SchemaQuery.Proofs.Store.Paths
import SchemaQuery.Proofs.Store.Sorting
import SchemaQuery.Proofs.Store.Unaddressable
import SchemaQuery.Proofs.Store.ValueOrder
import SchemaQuery.Proofs.Store.Writes
import SchemaQuery.Proofs.Text.Literals
import SchemaQuery.Proofs.Text.Splitting
import SchemaQuery.Proofs.Time.Calendar
import SchemaQuery.Proofs.Time.Texts
import SchemaQuery.Proofs.Wire.ConfigTexts
import SchemaQuery.Proofs.Wire.Forms
import SchemaQuery.Schema.Basic
import SchemaQuery.Schema.Entity
import SchemaQuery.Schema.Error
import SchemaQuery.Schema.Kind
import SchemaQuery.Schema.Layout
import SchemaQuery.Schema.Loader
import SchemaQuery.Store.Action
import SchemaQuery.Store.ChangeSet
import SchemaQuery.Store.Error
import SchemaQuery.Store.Room
import SchemaQuery.Store.Values
import SchemaQuery.Text.Blank
import SchemaQuery.Text.CaseFold
import SchemaQuery.Text.Pattern
import SchemaQuery.Time.Calendar
import SchemaQuery.Time.Instant
