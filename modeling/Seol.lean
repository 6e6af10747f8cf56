import Seol.Common.Atomic
import Seol.Common.BufWriter
import Seol.Common.Bytes
import Seol.Common.Chain
import Seol.Common.Checked
import Seol.Common.Crc32
import Seol.Common.Decimal
import Seol.Common.Generations
import Seol.Common.Hull
import Seol.Common.Monitor
import Seol.Common.OrdMap
import Seol.Common.PartialMap
import Seol.Common.Search
import Seol.Common.Sorting
import Seol.Common.Transition
import Seol.Compaction.Closure
import Seol.Compaction.Execute
import Seol.Compaction.Merge
import Seol.Compaction.MergeIterator
import Seol.Compaction.Plan
import Seol.Compaction.View
import Seol.Db.Batch
import Seol.Db.BatchSteps
import Seol.Db.Capacity
import Seol.Db.Durable
import Seol.Db.FlusherInv
import Seol.Db.Install
import Seol.Db.Invariant
import Seol.Db.Leftover
import Seol.Db.Meaning
import Seol.Db.Open
import Seol.Db.Readers
import Seol.Db.Recovery
import Seol.Db.Refinement
import Seol.Db.Shutdown
import Seol.Db.Spec
import Seol.Db.State
import Seol.Db.Step
import Seol.Db.WriterInv
import Seol.Gc.Rebuild
import Seol.Gc.Replace
import Seol.Gc.View
import Seol.Levels
import Seol.Levels.Order
import Seol.Lifetime.Age
import Seol.Lifetime.Clock
import Seol.Lifetime.Interrupted
import Seol.Lifetime.Levels
import Seol.Lifetime.Maintenance
import Seol.Lifetime.Refinement
import Seol.Manifest
import Seol.Options
import Seol.Record
import Seol.Skiplist.Arena
import Seol.Skiplist.Concurrent
import Seol.Skiplist.Fill
import Seol.Skiplist.Interleaving
import Seol.Skiplist.Linearizable
import Seol.Skiplist.List
import Seol.Skiplist.LockFree
import Seol.Skiplist.Refinement
import Seol.Skiplist.Regions
import Seol.Skiplist.Search
import Seol.Skiplist.Seek
import Seol.Skiplist.Threads
import Seol.Skiplist.Towers
import Seol.Sstable.Block
import Seol.Sstable.Bloom
import Seol.Sstable.Cache
import Seol.Sstable.Cursor
import Seol.Sstable.Filter
import Seol.Sstable.Flush
import Seol.Sstable.Format
import Seol.Sstable.Index
import Seol.Sstable.Iterator
import Seol.Sstable.Open
import Seol.Sstable.RoundTrip
import Seol.Sstable.Stale
import Seol.Sstable.Table
import Seol.Sstable.Transparent
import Seol.ValueRef
import Seol.Vlog.Failures
import Seol.Vlog.History
import Seol.Vlog.Log
import Seol.Vlog.Open
import Seol.Vlog.Scan
import Seol.Vlog.Torn
import Seol.Wal
import Seol.Wal.Broadcast
import Seol.Wal.Progress
import Seol.Wal.Replay
import Seol.Wal.Stopped
import Seol.Wal.Sync
