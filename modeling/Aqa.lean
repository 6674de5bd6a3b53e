import Aqa.Lib.Bytes
import Aqa.Lib.StdList
import Aqa.Lib.Framing
import Aqa.Lib.History
import Aqa.Lib.Recency
import Aqa.Lib.Pager
import Aqa.Lib.WriteBack
import Aqa.Lib.Schedule
import Aqa.Lib.Window
import Aqa.Lib.SharedLock
import Aqa.Lib.Earliest
import Aqa.Observer.AccessObserver
import Aqa.Observer.SlidingWindow
import Aqa.Cache.EvictionPolicy
import Aqa.Cache.AdaptivePolicies
import Aqa.Cache.LearnedFeedback
import Aqa.Storage.Page
import Aqa.Storage.MappedFile
import Aqa.Storage.PageAddressing
import Aqa.Storage.PageCache
import Aqa.Storage.StorageEngine
import Aqa.Storage.StorageWriter
import Aqa.Storage.StorageReader
import Aqa.Storage.RecordBounds
import Aqa.Cache.LruCache
import Aqa.Index.Index
import Aqa.Index.BPlusTreePage
import Aqa.Index.LeafInsert
import Aqa.Index.InternalLookup
import Aqa.Index.Rebuild
import Aqa.Storage.SlottedPage
import Aqa.Wal.WalManager
import Aqa.Wal.Frames
import Aqa.Wal.Replay
import Aqa.Wal.Damage
import Aqa.Wal.ReplayVisitor
import Aqa.Db.Database
import Aqa.Storage.Pool
import Aqa.Storage.FetchOrder
import Aqa.Storage.PageReplacement
import Aqa.Cache.EvictionTrainer
import Aqa.Storage.Coherence
import Aqa.Storage.Handles
import Aqa.Storage.FailedAllocation
import Aqa.Storage.FlatPages
import Aqa.Storage.EngineRuns
import Aqa.Storage.Shutdown
import Aqa.Storage.ReaderSpec
import Aqa.Storage.Prefetch
import Aqa.Storage.PrefetchScan
import Aqa.Storage.PrefetchFull
import Aqa.Storage.DataFile
import Aqa.Cache.LruSpec
import Aqa.Cache.LruRuns
import Aqa.Db.Session
import Aqa.Db.Opening
import Aqa.Db.CleanSessions
import Aqa.Db.CleanRestart
import Aqa.Db.ScanHistory
import Aqa.Db.OwnWrites
import Aqa.Db.CrashRuns
import Aqa.Db.Durability
import Aqa.Db.NewestRecord
import Aqa.Db.FailedPut
import Aqa.Db.HintScopes
import Aqa.Db.Clients
import Aqa.Db.StaleReads
import Aqa.Storage.WriterSessions
import Aqa.Storage.TornPage
import Aqa.Storage.PageLayout
import Aqa.Storage.WriterFlush
import Aqa.Storage.FileObjects
import Aqa.Storage.FileOwnership
import Aqa.Lib.LockScopes
import Aqa.Db.Locking
import Aqa.Db.SerialPuts
import Aqa.Lib.Paging
import Aqa.Storage.PageTurns
import Aqa.Cache.ScanResistance
import Aqa.Cache.Competitive
import Aqa.Storage.IdleEngine
import Aqa.App.QueryRunner
import Aqa.App.DataGenerator
import Aqa.App.Main
import Aqa.App.NaiveStorage
import Aqa.Db.ClientCrash
import Aqa.Db.OneClient
import Aqa.Db.Linearizable
import Aqa.Lib.LruInclusion
import Aqa.Db.RecordCacheSize
import Aqa.Db.DurableMap
import Aqa.Db.CanonicalLog
import Aqa.Db.Reopening
import Aqa.Index.PageUpdates
import Aqa.Storage.PointReads
import Aqa.Index.RebuiltIndex
