import VersionChain.Cache.Latch
import VersionChain.Main
import VersionChain.Shell.Directory
import VersionChain.Store.Faulty
import VersionChain.Store.Site
import VersionChain.Proofs.Record.Cover
import VersionChain.Proofs.Record.RoundTrip
import VersionChain.Proofs.Record.Parsing
import VersionChain.Proofs.Record.Stream
import VersionChain.Proofs.Record.Slices
import VersionChain.Proofs.Record.Verdict
import VersionChain.Proofs.Record.Sizes
import VersionChain.Proofs.Record.Walk
import VersionChain.Proofs.Key.Content
import VersionChain.Proofs.Cache.Recency
import VersionChain.Proofs.Cache.Seating
import VersionChain.Proofs.Cache.Rebuild
import VersionChain.Proofs.Cache.Lru
import VersionChain.Proofs.Cache.Valid
import VersionChain.Proofs.Cache.Operations
import VersionChain.Proofs.Cache.Refinement
import VersionChain.Proofs.Cache.Commands
import VersionChain.Proofs.Cache.Tombstones
import VersionChain.Proofs.Cache.Guarded
import VersionChain.Proofs.Cache.Accesses
import VersionChain.Proofs.Cache.Representation
import VersionChain.Proofs.Cache.Contents
import VersionChain.Proofs.Cache.Clients
import VersionChain.Proofs.Cache.Allocator
import VersionChain.Proofs.Cache.Races
import VersionChain.Proofs.Cache.Weight
import VersionChain.Proofs.Cache.Purges
import VersionChain.Proofs.Cache.Budget
import VersionChain.Proofs.Cache.Supersession
import VersionChain.Proofs.Cache.Restoration
import VersionChain.Proofs.Staging.Arena
import VersionChain.Proofs.Staging.Directory
import VersionChain.Proofs.Staging.Ring
import VersionChain.Proofs.Staging.Fifo
import VersionChain.Proofs.Staging.Tokens
import VersionChain.Proofs.Staging.Calls
import VersionChain.Proofs.Staging.Queues
import VersionChain.Proofs.Staging.Rings
import VersionChain.Proofs.Staging.Sealing
import VersionChain.Proofs.Staging.Claims
import VersionChain.Proofs.Staging.Idleness
import VersionChain.Proofs.Staging.Grants
import VersionChain.Proofs.Staging.Releases
import VersionChain.Proofs.Staging.Staleness
import VersionChain.Proofs.Staging.Handles
import VersionChain.Proofs.Staging.Numbering
import VersionChain.Proofs.Selection.Choice
import VersionChain.Proofs.Selection.Sharing
import VersionChain.Proofs.Selection.Pooling
import VersionChain.Proofs.Selection.Jobs
import VersionChain.Proofs.Selection.Overlaps
import VersionChain.Proofs.Store.Rows
import VersionChain.Proofs.Store.RowChanges
import VersionChain.Proofs.Store.Replay
import VersionChain.Proofs.Store.Lookups
import VersionChain.Proofs.Store.Computations
import VersionChain.Proofs.Store.Stability
import VersionChain.Proofs.Store.Places
import VersionChain.Proofs.Store.Numbers
import VersionChain.Proofs.Store.History
import VersionChain.Proofs.Store.Quiet
import VersionChain.Proofs.Store.Chains
import VersionChain.Proofs.Store.Reconstruct
import VersionChain.Proofs.Store.Resolve
import VersionChain.Proofs.Store.Records
import VersionChain.Proofs.Store.Agreement
import VersionChain.Proofs.Store.Bases
import VersionChain.Proofs.Store.Slots
import VersionChain.Proofs.Store.Insert
import VersionChain.Proofs.Store.Reads
import VersionChain.Proofs.Store.Changes
import VersionChain.Proofs.Store.Runs
import VersionChain.Proofs.Store.Numbering
import VersionChain.Proofs.Store.Keyframes
import VersionChain.Proofs.Store.Assigned
import VersionChain.Proofs.Store.Reassign
import VersionChain.Proofs.Store.Removals
import VersionChain.Proofs.Store.Erasing
import VersionChain.Proofs.Store.Group
import VersionChain.Proofs.Store.Others
import VersionChain.Proofs.Store.Totals
import VersionChain.Proofs.Store.Bookkeeping
import VersionChain.Proofs.Store.Account
import VersionChain.Proofs.Store.GroupSteps
import VersionChain.Proofs.Store.Postings
import VersionChain.Proofs.Store.Batches
import VersionChain.Proofs.Store.Isolation
import VersionChain.Proofs.Store.Failures
import VersionChain.Proofs.Store.Coherence
import VersionChain.Proofs.Store.Invalidation
import VersionChain.Proofs.Store.Listing
import VersionChain.Proofs.Store.Paths
import VersionChain.Proofs.Store.Columns
import VersionChain.Proofs.Store.Intervals
import VersionChain.Proofs.Store.WaysBack
import VersionChain.Proofs.Text.Decoding
import VersionChain.Proofs.Shell.Lines
import VersionChain.Proofs.Shell.Notes
import VersionChain.Proofs.Shell.Answers
import VersionChain.Proofs.Shell.Loading
