import Macha.Library.Collect
import Macha.Metadata.Merge
import Macha.Metadata.MergeSettle
import Macha.Metadata.MergeIdentity
import Macha.Metadata.MergeParents
import Macha.Metadata.MergeNamespace
import Macha.Metadata.MergePrune
import Macha.Metadata.MergeResult
import Macha.Library.PrefixCode
import Macha.Metadata.ConflictCode
import Macha.Metadata.MergeClosure
import Macha.Metadata.Mutation
import Macha.Metadata.MergeFastForward
import Macha.Metadata.MergeSide
import Macha.Metadata.MergeConcurrent
import Macha.Metadata.MergeStanding
import Macha.Library.Run
import Macha.Metadata.AuthorChain
import Macha.Metadata.Delta
import Macha.Filesystem.WorkingSet
import Macha.Metadata.Commit
import Macha.Filesystem.CommitFile
import Macha.Library.Replicas
import Macha.Cluster.Repair
import Macha.Storage.Retention
import Macha.Cluster.Claims
import Macha.Metadata.Tree
import Macha.Metadata.TreeChanges
import Macha.Storage.RetentionClaims
import Macha.Storage.RetentionJournal
import Macha.Storage.RetentionRecovery
import Macha.Storage.RetentionScan
import Macha.Library.Frames
import Macha.Storage.SealedJournal
import Macha.Storage.UnreferencedSince
import Macha.Storage.Packs
import Macha.Storage.PackSchedule
import Macha.Storage.PackRestart
import Macha.Library.SyncFrontier
import Macha.Storage.DeferredPut
import Macha.Library.Wire
import Macha.Metadata.History
import Macha.Metadata.HistoryCode
import Macha.Metadata.HistoryRebuild
import Macha.Metadata.HistoryLog
import Macha.Library.Search
import Macha.Metadata.AcceptedHeads
import Macha.Metadata.SetAside
import Macha.Library.Splice
import Macha.Fuse.Replay
import Macha.Library.Runs
import Macha.Ledger.Records
import Macha.Ledger.HeldLedger
import Macha.Ledger.HeldLedgerRun
import Macha.Storage.Presence
import Macha.Storage.PresenceRun
import Macha.Ledger.TrieShape
import Macha.Ledger.ObjectTrie
import Macha.Ledger.TrieCanon
import Macha.Ledger.TrieSave
import Macha.Ledger.TrieRead
import Macha.Ledger.TrieRun
import Macha.Ledger.TrieDiff
import Macha.Ledger.TrieUnion
import Macha.Ledger.TrieUnionMerge
import Macha.Ledger.TrieUnionRead
import Macha.Auth.SessionRun
import Macha.Service.AvailabilityRefresh
import Macha.Service.PathTableFollow
import Macha.Library.Sampling
import Macha.Library.Firsts
import Macha.Library.SortBy
import Macha.Cluster.Placement
import Macha.Cluster.WaterLevel
import Macha.Cluster.PlacementQuotas
import Macha.Cluster.Rendezvous
import Macha.Cluster.PlacementOrder
import Macha.Auth.Users
import Macha.Auth.LastManager
import Macha.Auth.UserReplicas
import Macha.Auth.UserConvergence
import Macha.Auth.UserRemoval
import Macha.Auth.SessionCredential
import Macha.Torrent.RequestJoin
import Macha.Torrent.RequestMerge
import Macha.Cluster.Membership
import Macha.Cluster.RosterFile
import Macha.Storage.DurabilityDomain
import Macha.Torrent.DiskJobs
import Macha.Service.RetainedMemory
