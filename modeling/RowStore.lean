import RowStore.Database
import RowStore.Proofs.PagedFile
import RowStore.Proofs.Lookup
import RowStore.Proofs.Catalog
import RowStore.Proofs.Cache
import RowStore.Proofs.Page.Slots
import RowStore.Proofs.Store.Moves
import RowStore.Proofs.View
import RowStore.Proofs.View.Refinement
import RowStore.Proofs.Session
import RowStore.Proofs.Transparency
import RowStore.Proofs.CleanPages
import RowStore.Proofs.View.Scan
import RowStore.Proofs.View.Effects
import RowStore.Proofs.Atomicity
import RowStore.Proofs.Durability
import RowStore.Proofs.Operator.Lifecycle
import RowStore.Proofs.Handles
import RowStore.Proofs.Registration
import RowStore.Proofs.Entries
import RowStore.Proofs.Sharing
import RowStore.Proofs.Interleaving
import RowStore.Proofs.Operator.Matching
import RowStore.Proofs.Operator.Replay
import RowStore.Proofs.Operator.Doubling
import RowStore.Proofs.FailedInsert
import RowStore.Proofs.Placement
import RowStore.Proofs.Operator.OrderFree
import RowStore.Proofs.Completion
import RowStore.Proofs.Replacement
import RowStore.Proofs.View.Slots
import RowStore.Proofs.Operator.Draining
import RowStore.Proofs.Operator.Deleting
import RowStore.Proofs.Operator.Inserting
import RowStore.Proofs.Row.Format
import RowStore.Proofs.Row.RoundTrip
import RowStore.Proofs.Row.Making
import RowStore.Proofs.Page.SlotArray
import RowStore.Proofs.Page.Bounds
import RowStore.Proofs.Words
import RowStore.Proofs.Operator.Feeding
import RowStore.Proofs.Operator.Averaging
import RowStore.Proofs.Histogram.Buckets
import RowStore.Proofs.Histogram.Recording
import RowStore.Proofs.Histogram.Searching
import RowStore.Proofs.Histogram.Estimates
import RowStore.Proofs.Histogram.Accuracy
import RowStore.Proofs.Histogram.Averages
import RowStore.Proofs.Statistics.Columns
import RowStore.Proofs.Statistics.Passes
import RowStore.Proofs.Operator.Bystanders
import RowStore.Proofs.Statistics.Computing
import RowStore.Proofs.Deletion
import RowStore.Proofs.Catalog.History
import RowStore.Proofs.PagedFile.History
import RowStore.Proofs.Statistics.Texts
