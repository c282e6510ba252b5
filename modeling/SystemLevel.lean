import SystemLevel.Foundations.Runs
import SystemLevel.Foundations.Bisection
import SystemLevel.Foundations.FixedCodec
import SystemLevel.Foundations.Framing
import SystemLevel.Foundations.Lookup
import SystemLevel.Foundations.Towers
import SystemLevel.Mvcc.Versions
import SystemLevel.Mvcc.TransactionManager
import SystemLevel.Mvcc.TransactionalEngine
import SystemLevel.Mvcc.Schedules
import SystemLevel.Mvcc.Identifiers
import SystemLevel.Mvcc.Snapshots
import SystemLevel.Mvcc.Chains
import SystemLevel.Mvcc.Isolation
import SystemLevel.Mvcc.Anomalies
import SystemLevel.Mvcc.Erasure
import SystemLevel.Mvcc.Recovery
import SystemLevel.Mvcc.LogRecords
import SystemLevel.Mvcc.CrashPrefix
import SystemLevel.Mvcc.Sessions
import SystemLevel.Lsm.SkipListMemTable
import SystemLevel.Lsm.SkipListLinks
import SystemLevel.Lsm.SortedPairs
import SystemLevel.Lsm.SkipListOrder
import SystemLevel.Lsm.MemTable
import SystemLevel.Lsm.BloomFilter
import SystemLevel.Lsm.FileSystem
import SystemLevel.Lsm.SSTable
import SystemLevel.Lsm.SSTableFormat
import SystemLevel.Lsm.SSTableLookup
import SystemLevel.Lsm.LsmCore
import SystemLevel.Lsm.LsmEngine
import SystemLevel.Lsm.EmbeddedLsmDatabase
import SystemLevel.Lsm.FlushFailures
import SystemLevel.Lsm.WalReplay
import SystemLevel.Lsm.DatabaseSessions
import SystemLevel.Lsm.ConcurrentPuts
import SystemLevel.Lsm.TornTails
import SystemLevel.Lsm.WalStorageEngine
import SystemLevel.Lsm.WalEngineSessions
import SystemLevel.Foundations.Buffers
import SystemLevel.Storage.SlottedPage
import SystemLevel.Storage.PageLayout
import SystemLevel.Storage.PageOperations
import SystemLevel.Storage.PageCompaction
import SystemLevel.Storage.PageRefinement
import SystemLevel.Storage.BufferPoolManager
import SystemLevel.Storage.PoolConsistency
import SystemLevel.Storage.PoolSteps
import SystemLevel.Storage.PoolInvariant
import SystemLevel.Storage.PoolLedger
import SystemLevel.Storage.PoolLoading
import SystemLevel.Storage.PoolTransparency
import SystemLevel.Foundations.DyadicTilings
import SystemLevel.Memory.BuddyAllocator
import SystemLevel.Memory.BuddyTiling
import SystemLevel.Memory.BuddyHeap
import SystemLevel.Ipc.FutexMutex
import SystemLevel.Ipc.FutexWakeups
import SystemLevel.Foundations.Wraparound
import SystemLevel.LockFree.SpscQueue
import SystemLevel.LockFree.SpscFifo
import SystemLevel.Foundations.BitSmearing
import SystemLevel.LockFree.MpmcQueue
import SystemLevel.LockFree.MpmcProtocol
import SystemLevel.LockFree.MpmcCells
import SystemLevel.LockFree.MpmcFifo
import SystemLevel.Fibers.FiberPlaces
import SystemLevel.Fibers.FiberWakeups
import SystemLevel.Fibers.FiberChannels
import SystemLevel.Fibers.FiberMutexes
import SystemLevel.Fibers.SchedulerLifetimes
import SystemLevel.Foundations.Shifts
import SystemLevel.Trading.L2OrderBook
import SystemLevel.Trading.TopOfBook
import SystemLevel.Ipc.SharedRing
import SystemLevel.Ipc.SharedRingFifo
import SystemLevel.Ipc.ShmIpcBus
import SystemLevel.Trading.ShmMarketFeed
import SystemLevel.Storage.DiskTraffic
import SystemLevel.Storage.PageAliasing
import SystemLevel.Storage.PoolRestart
import SystemLevel.Lsm.WalPrefixes
import SystemLevel.Lsm.SkipListMap
import SystemLevel.Lsm.TableFiles
import SystemLevel.Lsm.LookupSafety
import SystemLevel.Lsm.LiveTables
import SystemLevel.Storage.FailedWrites
import SystemLevel.Indexing.BTreeShape
import SystemLevel.AsyncIo.IoUringReactor
import SystemLevel.AsyncIo.ReactorInvariant
import SystemLevel.AsyncIo.ReactorService
import SystemLevel.Logging.FastLogger
import SystemLevel.Logging.LoggerInvariant
import SystemLevel.Logging.LoggerDelivery
import SystemLevel.Foundations.Checksums
import SystemLevel.Lsm.WalCorruption
import SystemLevel.Storage.LruKPolicy
import SystemLevel.Storage.FreshPages
import SystemLevel.Storage.PageSpace
import SystemLevel.Indexing.LinkedBTree
import SystemLevel.Foundations.ByteMemory
import SystemLevel.Memory.SlabAllocator
import SystemLevel.Memory.SlabChunks
import SystemLevel.Memory.SlabPartition
import SystemLevel.Memory.SlabObjects
import SystemLevel.Trading.UpdateLaw
import SystemLevel.Foundations.StridedLoops
import SystemLevel.Simd.VectorPipeline
import SystemLevel.Elf.ElfInspector
import SystemLevel.Simd.Turnover
import SystemLevel.Elf.ReadBounds
import SystemLevel.Elf.SectionNames
import SystemLevel.Fibers.RoundRobin
import SystemLevel.Fibers.OutsideFibers
import SystemLevel.Logging.FormatArg
import SystemLevel.Logging.PayloadBounds
import SystemLevel.AsyncIo.PartialSubmission
import SystemLevel.AsyncIo.EchoStreams
import SystemLevel.AsyncIo.EchoBeforeClose
import SystemLevel.AsyncIo.EdgeTriggers
import SystemLevel.Lsm.FilterCalls
import SystemLevel.Foundations.Numerals
import SystemLevel.Foundations.Scratch
import SystemLevel.Logging.DecimalBuffers
import SystemLevel.Debug.CrashProbe
import SystemLevel.Foundations.Linearization
import SystemLevel.Foundations.SharedMutexes
import SystemLevel.Indexing.LatchCrabbing
import SystemLevel.Indexing.CrabbingInvariant
import SystemLevel.Indexing.CrabbingSteps
import SystemLevel.Indexing.CrabbingProgress
import SystemLevel.LockFree.AcquireReleaseChannel
import SystemLevel.Foundations.Potentials
import SystemLevel.Ipc.SharedCounter
import SystemLevel.Ipc.CounterTermination
import SystemLevel.LockFree.MpmcProgress
import SystemLevel.Mvcc.DirtyWrites
import SystemLevel.Fibers.RunReturns
import SystemLevel.Foundations.IndexRings
import SystemLevel.AsyncIo.CompletionRing
import SystemLevel.Foundations.TextLines
import SystemLevel.Logging.LogFile
import SystemLevel.Foundations.HexNumerals
import SystemLevel.Debug.HexDump
import SystemLevel.Lsm.DatabaseThreads
import SystemLevel.Lsm.ThreadsInvariant
import SystemLevel.Lsm.ThreadsSteps
import SystemLevel.Lsm.ThreadsProgress
