import Sglang.Disaggregation.ChunkedSend
import Sglang.Disaggregation.ContiguousGroups
import Sglang.Disaggregation.HeadOwnership
import Sglang.Disaggregation.HeadSlices
import Sglang.Disaggregation.HeadTransfer
import Sglang.Disaggregation.HeadsLand
import Sglang.Disaggregation.NodeFailure
import Sglang.Disaggregation.PipelinePointers
import Sglang.Disaggregation.RoomStatus
import Sglang.Disaggregation.RoomStatusRuns
import Sglang.Disaggregation.StagingAllocator
import Sglang.Disaggregation.StagingProgress
import Sglang.Disaggregation.StagingWatermark
import Sglang.Disaggregation.TransferPass
import Sglang.Disaggregation.TransferWorker
import Sglang.Disaggregation.TransferWorkerRuns
import Sglang.Eplb.Deepseek
import Sglang.Eplb.DeepseekReplicas
import Sglang.Eplb.ElasticityAware
import Sglang.Eplb.ReplicaLoads
import Sglang.FunctionCall.CoreTypes
import Sglang.FunctionCall.KimiK2
import Sglang.FunctionCall.KimiK2Exact
import Sglang.FunctionCall.KimiK2Format
import Sglang.FunctionCall.KimiK2Streaming
import Sglang.FunctionCall.Qwen3Coder
import Sglang.FunctionCall.Qwen3CoderChunks
import Sglang.FunctionCall.Qwen3CoderExact
import Sglang.FunctionCall.Qwen3CoderFormat
import Sglang.FunctionCall.Qwen3CoderOneShot
import Sglang.FunctionCall.Qwen3CoderStreaming
import Sglang.Gateway.Bucket
import Sglang.Gateway.BucketPartition
import Sglang.Gateway.BucketRanges
import Sglang.Gateway.CacheAwarePolicy
import Sglang.Gateway.CharSlices
import Sglang.Gateway.CircuitBreaker
import Sglang.Gateway.CircuitProbation
import Sglang.Gateway.ConcurrencyLimiter
import Sglang.Gateway.HashRingLookup
import Sglang.Gateway.ManualPolicy
import Sglang.Gateway.Policies
import Sglang.Gateway.RegistryIndexes
import Sglang.Gateway.RoutingAvailability
import Sglang.Gateway.SlotsReturn
import Sglang.Gateway.TenantTree
import Sglang.Gateway.TenantTreeDrop
import Sglang.Gateway.TenantTreeEvict
import Sglang.Gateway.TenantTreeInsert
import Sglang.Gateway.TenantTreeInvariant
import Sglang.Gateway.TenantTreeMatch
import Sglang.Gateway.TenantTreeRuns
import Sglang.Gateway.TenantTreeSturdy
import Sglang.Gateway.TenantTreeWalk
import Sglang.Gateway.WorkerRegistry
import Sglang.Layers.ContextParallel
import Sglang.Layers.ZigzagLossless
import Sglang.Lib.BandPacking
import Sglang.Lib.CommonPrefix
import Sglang.Lib.CursorLoop
import Sglang.Lib.FlatStore
import Sglang.Lib.Forest
import Sglang.Lib.Gather
import Sglang.Lib.Grid
import Sglang.Lib.IndexPermutation
import Sglang.Lib.IntervalTiling
import Sglang.Lib.InverseTables
import Sglang.Lib.JsonDumps
import Sglang.Lib.JsonText
import Sglang.Lib.Markers
import Sglang.Lib.NodeSum
import Sglang.Lib.PageCopies
import Sglang.Lib.PagePairing
import Sglang.Lib.PageRow
import Sglang.Lib.PageStore
import Sglang.Lib.PageTrie
import Sglang.Lib.PageTrieMutation
import Sglang.Lib.Regex
import Sglang.Lib.Runs
import Sglang.Lib.Scatter
import Sglang.Lib.Tally
import Sglang.Lora.LoraRegistry
import Sglang.Lora.MemPool
import Sglang.Lora.UnloadSafety
import Sglang.Managers.AdmissionLocks
import Sglang.Managers.AdmissionOrder
import Sglang.Managers.DfsWeight
import Sglang.Managers.FinishState
import Sglang.Managers.FirstStop
import Sglang.Managers.PrefillAdder
import Sglang.Managers.RadixAdmission
import Sglang.Managers.StopRegexWindow
import Sglang.MemCache.Allocator
import Sglang.MemCache.ByteBudget
import Sglang.MemCache.Capacity
import Sglang.MemCache.KvEventMirror
import Sglang.MemCache.KvEvents
import Sglang.MemCache.KvState
import Sglang.MemCache.MultiEnded
import Sglang.MemCache.MultiEndedBand
import Sglang.MemCache.MultiEndedCalls
import Sglang.MemCache.MultiEndedFlush
import Sglang.MemCache.MultiEndedForwards
import Sglang.MemCache.MultiEndedFree
import Sglang.MemCache.MultiEndedRuns
import Sglang.MemCache.MultiEndedWalk
import Sglang.MemCache.PageHash
import Sglang.MemCache.PagedAllocators
import Sglang.MemCache.PagedChunks
import Sglang.MemCache.PagedExtend
import Sglang.MemCache.RadixCache
import Sglang.MemCache.RadixCacheInvariant
import Sglang.MemCache.RadixCacheOps
import Sglang.MemCache.RadixCacheSteps
import Sglang.MemCache.RadixCacheStore
import Sglang.MemCache.RadixEviction
import Sglang.MemCache.RadixKey
import Sglang.MemCache.RadixTree
import Sglang.MemCache.RadixTreeMutation
import Sglang.MemCache.SlotConservation
import Sglang.MemCache.SlotHolders
import Sglang.MemCache.SlotOwnership
import Sglang.MemCache.SwaAllocator
import Sglang.MemCache.SwaConsistency
import Sglang.MemCache.SwaPrefetch
import Sglang.MemCache.TreeLinks
import Sglang.MemCache.UnifiedPair
import Sglang.MemCache.UnifiedPairApart
import Sglang.MemCache.UnifiedPairRuns
import Sglang.MemCache.UnifiedTree
import Sglang.MemCache.UrgentPack
import Sglang.MemCache.WindowFrontier
import Sglang.Parser.Apertus
import Sglang.Parser.ApertusExact
import Sglang.Parser.ApertusStreaming
import Sglang.Parser.BaseReasoning
import Sglang.Parser.BaseReasoningExact
import Sglang.Parser.CohereCommand4
import Sglang.Parser.CohereExact
import Sglang.Parser.CohereStreaming
import Sglang.Parser.ParseResult
import Sglang.Router.ActiveLoad
import Sglang.Router.BlockHash
import Sglang.Router.FleetIndex
import Sglang.Router.HashTree
import Sglang.Router.HashTreeChains
import Sglang.Router.HashTreeInvariant
import Sglang.Router.HashTreeRuns
import Sglang.Router.HashTreeWorkers
import Sglang.Router.KvEventIndex
import Sglang.Router.KvEventIndexRuns
import Sglang.Router.WorkerChains
import Sglang.Router.WorkerHash
import Sglang.Sampling.PenalizerRows
import Sglang.Sampling.Penalizers
import Sglang.Sampling.RowsAligned
import Sglang.Sampling.SamplingBatchInfo
import Sglang.Sampling.SamplingHistory
import Sglang.Session.SingleInflight
import Sglang.Session.StreamingSession
import Sglang.Session.TokenSharing
import Sglang.Speculative.DraftControlInbox
import Sglang.Speculative.DraftControlRuns
