import FlatTable.Chain
import FlatTable.Config
import FlatTable.Element.Codec
import FlatTable.Element.Kinds
import FlatTable.Error
import FlatTable.Hash.Hasher
import FlatTable.Hash.SipHash
import FlatTable.Hash.Spread
import FlatTable.Hash.Streamed
import FlatTable.Json.ConfigText
import FlatTable.Json.Number
import FlatTable.Json.Reader
import FlatTable.Json.Skip
import FlatTable.Json.Text
import FlatTable.Json.Value
import FlatTable.LoadFactor
import FlatTable.Numeric.Double
import FlatTable.Numeric.FloatFormat
import FlatTable.Numeric.NumberStyle
import FlatTable.Numeric.Power
import FlatTable.Numeric.Shortest
import FlatTable.PairMap
import FlatTable.Persist.Basic
import FlatTable.Persist.Binary
import FlatTable.Persist.Text
import FlatTable.Proofs.Acceptance
import FlatTable.Proofs.Agreement
import FlatTable.Proofs.Bytes
import FlatTable.Proofs.Chain
import FlatTable.Proofs.ChainRuns
import FlatTable.Proofs.Checked
import FlatTable.Proofs.CheckedWalks
import FlatTable.Proofs.Clearing
import FlatTable.Proofs.Cursor
import FlatTable.Proofs.CursorRun
import FlatTable.Proofs.Decoding
import FlatTable.Proofs.Defaults
import FlatTable.Proofs.Doubling
import FlatTable.Proofs.EntryHandles
import FlatTable.Proofs.Equality
import FlatTable.Proofs.Extent
import FlatTable.Proofs.FaultFree
import FlatTable.Proofs.Growth
import FlatTable.Proofs.GrowthSteps
import FlatTable.Proofs.Histories
import FlatTable.Proofs.InsertionOnly
import FlatTable.Proofs.InsertionOrder
import FlatTable.Proofs.Iteration
import FlatTable.Proofs.Layout
import FlatTable.Proofs.Locations
import FlatTable.Proofs.Moments
import FlatTable.Proofs.Operations
import FlatTable.Proofs.PairMap
import FlatTable.Proofs.PlainRuns
import FlatTable.Proofs.Presizing
import FlatTable.Proofs.Primitives
import FlatTable.Proofs.Reachable
import FlatTable.Proofs.Rebuild
import FlatTable.Proofs.RebuiltCapacity
import FlatTable.Proofs.Refinement
import FlatTable.Proofs.Removal
import FlatTable.Proofs.Retaining
import FlatTable.Proofs.RoundTrip
import FlatTable.Proofs.ScopedEntries
import FlatTable.Proofs.SectionBounds
import FlatTable.Proofs.Sections
import FlatTable.Proofs.Sequence
import FlatTable.Proofs.Sessions
import FlatTable.Proofs.Slot
import FlatTable.Proofs.SlotArray
import FlatTable.Proofs.SparseGrowth
import FlatTable.Proofs.Spreading
import FlatTable.Proofs.Succession
import FlatTable.Proofs.Threshold
import FlatTable.Proofs.Traversals
import FlatTable.Proofs.Truncation
import FlatTable.Proofs.ViewRemovals
import FlatTable.Proofs.Walk
import FlatTable.Proofs.Words
import FlatTable.Sections
import FlatTable.Session.CursorOp
import FlatTable.Session.Edit
import FlatTable.Session.Probe
import FlatTable.Session.Query
import FlatTable.Session.Registry
import FlatTable.Session.Reply
import FlatTable.Session.Scope
import FlatTable.Session.Section
import FlatTable.Session.Step
import FlatTable.Session.ViewOp
import FlatTable.Slot
import FlatTable.Table.Basic
import FlatTable.Table.Batch
import FlatTable.Table.Content
import FlatTable.Table.Cursor
import FlatTable.Table.Handle
import FlatTable.Table.Iter
import FlatTable.Table.Journal
import FlatTable.Table.Retain
import FlatTable.Table.Views
import FlatTable.Text.Quoted
import FlatTable.Text.Unseen
import FlatTable.Traversal.Basic
import FlatTable.Traversal.Containers
