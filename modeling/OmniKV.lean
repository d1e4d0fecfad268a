import OmniKV.Storage.Restore
import OmniKV.Runtime.CommitFailure
import OmniKV.Runtime.TableLocks
import OmniKV.Raft.SequenceCounter
import OmniKV.Runtime.ReadPoint
import OmniKV.Transaction.Serializable
import OmniKV.Raft.HistoryTransfer
import OmniKV.Raft.LogContiguity
import OmniKV.Raft.HardState
import OmniKV.Raft.SnapshotRoundTrip
import OmniKV.Storage.CollectionCrash
import OmniKV.Distributed.CoordinatorRecovery
import OmniKV.Distributed.PreparedBatch
import OmniKV.Embedded.Scans
import OmniKV.Query.IndexScan
import OmniKV.Query.UniqueIndex
import OmniKV.Query.MigrationRoundTrip
import OmniKV.Server.BatchHandler
import OmniKV.Server.Framing
import OmniKV.Storage.TableLookup
import OmniKV.Query.OpenTransaction
import OmniKV.Query.TableRows
import OmniKV.Query.Volcano
import OmniKV.Query.SetOperations
import OmniKV.Query.Ordering
import OmniKV.Query.Like
import OmniKV.Wire.Acceptance
import OmniKV.Storage.Refinement
import OmniKV.Storage.LogHandle
import OmniKV.Wire.Validation
import OmniKV.Wire.Extended
import OmniKV.Storage.TableBytes
