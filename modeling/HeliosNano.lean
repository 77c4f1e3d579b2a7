import HeliosNano.Storage.LockInterleaving
import HeliosNano.Storage.WriteLocking
import HeliosNano.Storage.FirstCommitterWins
import HeliosNano.Storage.ConflictInterleaving
import HeliosNano.Storage.Elision
import HeliosNano.Sql.SetvalRuns
import HeliosNano.Sql.Derived
import HeliosNano.Sql.PushdownPlans
import HeliosNano.Storage.Publisher
import HeliosNano.Storage.Branch.Reads
import HeliosNano.Advisory.StatementHolds
import HeliosNano.Replication.WireTransfer
import HeliosNano.Replication.HistoryRuns
import HeliosNano.Replication.Election
import HeliosNano.Replication.Fencing
import HeliosNano.Storage.GroupCommit
import HeliosNano.Storage.RowCache
import HeliosNano.Storage.ResultCache
import HeliosNano.Sync.ChangeLog
import HeliosNano.Sync.Paging
import HeliosNano.Sync.OfflineQueue
import HeliosNano.Sync.DeltaApplicator
import HeliosNano.Replication.WalDamage
import HeliosNano.Replication.WalBatches
import HeliosNano.Storage.TdeRuns
import HeliosNano.Storage.IngestionRuns
import HeliosNano.Replication.ApplicatorRuns
import HeliosNano.Replication.SwitchoverEnds
import HeliosNano.Storage.FilterIndexRuns
import HeliosNano.Protocol.CopyStreaming
import HeliosNano.Sql.InterpolateTokens
import HeliosNano.Storage.CompositeKeys
import HeliosNano.Storage.RowOwnership
import HeliosNano.Storage.Savepoints
import HeliosNano.Storage.WriteCensusRuns
import HeliosNano.Storage.OwnWritesRuns
import HeliosNano.Storage.CycleSearch
import HeliosNano.Storage.InflightRuns
import HeliosNano.Storage.SnapshotRecords
import HeliosNano.Storage.WalIntegrity
import HeliosNano.Storage.Branch.Collection
import HeliosNano.Storage.LinearReads
import HeliosNano.Storage.GcSafety
import HeliosNano.Sql.GenerateSeries
import HeliosNano.Sql.Like
import HeliosNano.Sql.ArithmeticSafe
import HeliosNano.Sql.ConstantFolding
import HeliosNano.Sql.DirectFilter
import HeliosNano.Sql.SetOps
import HeliosNano.Sql.TopK
import HeliosNano.Sql.IndexJoin
import HeliosNano.Replication.BatchGrammar
import HeliosNano.Replication.Transport
import HeliosNano.Protocol.CopyOutput
import HeliosNano.Protocol.NumericBinary
