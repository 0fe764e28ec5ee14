import SystemsDesign.TransitionSystem
import SystemsDesign.LockStepRounds
import SystemsDesign.RaftElection
import SystemsDesign.RaftSafety
import SystemsDesign.WhitespaceTokens
import SystemsDesign.OrderedMap
import SystemsDesign.BinarySearch
import SystemsDesign.LSMStore
import SystemsDesign.LSMRecovery
import SystemsDesign.StrictTwoPhaseLocking
import SystemsDesign.BPlusTree
import SystemsDesign.BPlusTreeSearch
import SystemsDesign.RefCounting
import SystemsDesign.SnapshotManager
import SystemsDesign.SnapshotRefinement
import SystemsDesign.Deduplication
import SystemsDesign.DeduplicationIndex
import SystemsDesign.DeduplicationCounts
import SystemsDesign.Monitor
import SystemsDesign.LockManager
import SystemsDesign.LockManagerSafety
import SystemsDesign.TwoPhaseCommit
import SystemsDesign.RaftVotes
import SystemsDesign.AcyclicRelations
import SystemsDesign.RaftDeadlock
import SystemsDesign.WALRecovery
import SystemsDesign.WALReplay
import SystemsDesign.KVStoreDurability
import SystemsDesign.PointerHeap
import SystemsDesign.SortedBlocks
import SystemsDesign.SkipList
import SystemsDesign.SkipListLevels
import SystemsDesign.SkipListRefinement
import SystemsDesign.CountingDown
import SystemsDesign.BuildSystem
import SystemsDesign.BuildOrder
import SystemsDesign.BuildTermination
import SystemsDesign.IterList
import SystemsDesign.BufferPool
import SystemsDesign.BufferPoolReplacement
import SystemsDesign.LRUcache
import SystemsDesign.MultiTierCache
import SystemsDesign.MultiTierCacheLRU
import SystemsDesign.LFUCache
import SystemsDesign.LFUCacheRefinement
import SystemsDesign.LRUcacheThreads
import SystemsDesign.MetadataStore
import SystemsDesign.MetadataCoherence
import SystemsDesign.IntervalTiling
import SystemsDesign.MemoryAllocator
import SystemsDesign.RingWindow
import SystemsDesign.LockfreeRingBuffer
import SystemsDesign.LockFreeStack
import SystemsDesign.LockFreeStackLinearization
import SystemsDesign.Forest
import SystemsDesign.ProcessManager
import SystemsDesign.ProcessTree
import SystemsDesign.ProcessLinks
import SystemsDesign.ThreadList
import SystemsDesign.EventLog
import SystemsDesign.ReadersWritersLock
import SystemsDesign.CyclicBarrier
import SystemsDesign.WorkerPool
import SystemsDesign.MaximalRuns
import SystemsDesign.SearchEngine
import SystemsDesign.CloudBackup
import SystemsDesign.ParallelExploration
import SystemsDesign.WebCrawler
import SystemsDesign.MultiThreadedBFS
import SystemsDesign.TimedPool
import SystemsDesign.TaskScheduler
import SystemsDesign.PeriodicScheduler
import SystemsDesign.SchedulerDeadlines
import SystemsDesign.WakeupSupply
import SystemsDesign.BoundedBlockingQueue
import SystemsDesign.SemaphoreBuffer
import SystemsDesign.DelimitedTokens
import SystemsDesign.PathTree
import SystemsDesign.InMemoryFileSystem
import SystemsDesign.FileSystemIndex
import SystemsDesign.GarbageCollector
import SystemsDesign.LoadBalancer
import SystemsDesign.LockTableCleanup
import SystemsDesign.ExclusiveWriteTransactions
import SystemsDesign.ChunkStore
import SystemsDesign.MemTableLookup
import SystemsDesign.ComparatorSet
import SystemsDesign.DeadlockAnswers
import SystemsDesign.PriorityCache
import SystemsDesign.TTLCache
import SystemsDesign.BPlusTreeLeaves
import SystemsDesign.ConsistentHashing
import SystemsDesign.LiveAllocations
import SystemsDesign.MVCCRow
import SystemsDesign.ProcessKill
import SystemsDesign.ShardedLRU
import SystemsDesign.AlphabetTrie
import SystemsDesign.AutocompleteSystem
import SystemsDesign.CountingTrie
import SystemsDesign.ExternalSort
import SystemsDesign.MyTail
import SystemsDesign.RateLimiterFramework
import SystemsDesign.ReplaceWords
import SystemsDesign.SlidingWindowLimiter
import SystemsDesign.TokenBucketLimiter
import SystemsDesign.TopIPs
import SystemsDesign.BitTrie
import SystemsDesign.CompositeFilesystem
import SystemsDesign.ForkJoin
import SystemsDesign.HashJoin
import SystemsDesign.MaximumXOR
import SystemsDesign.MergeSortParallel
import SystemsDesign.ParallelQueryExecutor
import SystemsDesign.TrieFileSystem
import SystemsDesign.ZeroEvenOddPrinter
import SystemsDesign.BackgroundWorkers
import SystemsDesign.TaskPools
import SystemsDesign.AtomicCounter
