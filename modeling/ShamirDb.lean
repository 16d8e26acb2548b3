import ShamirDb.CompletionTracker
import ShamirDb.SegmentTruncation
import ShamirDb.CoalescedSync
import ShamirDb.GroupOutcome
import ShamirDb.SinkRefinement
import ShamirDb.RecoverabilityPrefix
import ShamirDb.WoundWait
import ShamirDb.LockRegistry
import ShamirDb.LostUpdate
import ShamirDb.CommitTimestamps
import ShamirDb.PointInTime
import ShamirDb.DistinctPages
import ShamirDb.RecordCounter
import ShamirDb.RowComparison
import ShamirDb.CasOneWins
import ShamirDb.AsOfPages
import ShamirDb.AuditRestart
import ShamirDb.ChangeFeedPulls
import ShamirDb.VectorStaging
import ShamirDb.VectorReplay
import ShamirDb.CachedStoreMap
import ShamirDb.CommitWindow
import ShamirDb.HistoryMany
import ShamirDb.TimestampIndex
import ShamirDb.FilterLaws
import ShamirDb.InternedNames
import ShamirDb.ForeignKeyCache
import ShamirDb.RecordProjection
