import Mlxforge.Cache.CacheProgram
import Mlxforge.Cache.HybridMerge
import Mlxforge.Cache.PrefixCache
import Mlxforge.Model.Mrope
import Mlxforge.Model.RowForward
import Mlxforge.Runtime.PrefillAgreement
import Mlxforge.Lib.Transition
import Mlxforge.Capi.RequestDeadlock
import Mlxforge.Server.Stream
import Mlxforge.Model.Rope
import Mlxforge.Runtime.Engine
import Mlxforge.Runtime.EngineSalt
import Mlxforge.Scheduler.Scheduler
import Mlxforge.Scheduler.Request
import Mlxforge.Runtime.Worker
import Mlxforge.Lib.Compaction
import Mlxforge.Runtime.WorkerRows
import Mlxforge.Runtime.WorkerLoop
import Mlxforge.Runtime.Lifecycle
import Mlxforge.Lib.Utf8
import Mlxforge.Tokenizer.Bpe
import Mlxforge.Json.Value
import Mlxforge.Tokenizer.BpeLoaders
import Mlxforge.Tokenizer.BpeRoundTrip
import Mlxforge.Tokenizer.BpeAgreement
import Mlxforge.Lib.FirstSymbol
import Mlxforge.Sample.JsonGrammar
import Mlxforge.Sample.JsonText
import Mlxforge.Sample.JsonReading
import Mlxforge.Sample.JsonRecognizer
import Mlxforge.Tokenizer.Tokenizer
import Mlxforge.Tokenizer.Detokenizer
import Mlxforge.Capi.RequestText
import Mlxforge.Scheduler.Lockstep
import Mlxforge.Server.Delivery
import Mlxforge.Json.Dump
import Mlxforge.Server.OpenAi
import Mlxforge.Server.ChatHandlers
import Mlxforge.Server.Serializable
import Mlxforge.Server.ChatStreaming
import Mlxforge.Server.SameAnswer
import Mlxforge.Server.Anthropic
import Mlxforge.Server.MessageStreaming
import Mlxforge.Server.Reporting
import Mlxforge.Runtime.Turns
import Mlxforge.Runtime.EngineRuns
import Mlxforge.Runtime.Conservation
import Mlxforge.Runtime.Metrics
import Mlxforge.Tokenizer.ChatTemplate
import Mlxforge.Server.FrontEnds
import Mlxforge.Runtime.PrefillWork
import Mlxforge.Cache.PoolInvariant
import Mlxforge.Lib.Recency
import Mlxforge.Lib.ByteReader
import Mlxforge.Cache.BlockFile
import Mlxforge.Lib.Table
import Mlxforge.Cache.BlockName
import Mlxforge.Cache.BlockStore
import Mlxforge.Cache.StoreScan
import Mlxforge.Cache.StoreAccounts
import Mlxforge.Cache.StoreHolds
import Mlxforge.Cache.SpillTier
import Mlxforge.Sample.SchemaText
import Mlxforge.Sample.SchemaMembers
import Mlxforge.Sample.SchemaRecognizer
import Mlxforge.Lib.InputStream
import Mlxforge.Core.GgufMetadata
import Mlxforge.Core.Gguf
import Mlxforge.Core.GgufFormat
import Mlxforge.Core.GgufCuts
import Mlxforge.Core.GgufPrefix
import Mlxforge.Core.GgufWeights
import Mlxforge.Core.GgufDirectory
import Mlxforge.Core.GgufTruncation
import Mlxforge.Core.GgufReading
import Mlxforge.Lib.Rows
import Mlxforge.Core.QkRows
import Mlxforge.Lib.Merging
import Mlxforge.Lib.Regex
import Mlxforge.Tokenizer.LiteralScan
import Mlxforge.Tokenizer.Spm
import Mlxforge.Tokenizer.MergeAgreement
import Mlxforge.Tokenizer.EncodeReturns
import Mlxforge.Tokenizer.AddedTokens
import Mlxforge.Tokenizer.SpmRoundTrip
import Mlxforge.Tokenizer.UnicodeRanges
import Mlxforge.Tokenizer.SplitRegex
import Mlxforge.Cache.HarvestReuse
import Mlxforge.Lib.PackedFields
import Mlxforge.Lib.Stores
import Mlxforge.Core.LegacyQuant
import Mlxforge.Core.KQuant
import Mlxforge.Core.QkQuant
import Mlxforge.Lib.Gaps
import Mlxforge.Core.GgufInspect
import Mlxforge.Vision.SmartResize
import Mlxforge.Vision.VisionStages
import Mlxforge.Model.SkinnyDispatch
import Mlxforge.Runtime.MultimodalAdmission
import Mlxforge.Server.ToolCallRoundTrip
import Mlxforge.Server.Base64
import Mlxforge.Capi.EngineOptions
import Mlxforge.Lib.LexicalPath
import Mlxforge.Core.ModelSource
import Mlxforge.Core.CacheDirectories
import Mlxforge.Core.HfDownload
import Mlxforge.Core.CachedGguf
import Mlxforge.Core.DownloadPaths
import Mlxforge.Cache.GrowthSteps
import Mlxforge.Cache.KvBudget
import Mlxforge.Cache.KvAllocation
import Mlxforge.Lib.Selection
import Mlxforge.Mlx.LogitRow
import Mlxforge.Sample.Sampler
import Mlxforge.Runtime.GrammarMask
import Mlxforge.Runtime.ConstrainedDecoding
import Mlxforge.Lib.Streaming
import Mlxforge.Model.GatedDelta
import Mlxforge.Model.LinearStates
import Mlxforge.Lib.Markers
import Mlxforge.Tokenizer.MarkerScan
import Mlxforge.Vision.ImageTokens
import Mlxforge.Server.RequestMessages
import Mlxforge.Server.VisionTurns
import Mlxforge.Server.ImageOrder
import Mlxforge.Lib.EventStream
import Mlxforge.Json.StoredForm
import Mlxforge.Server.EventWire
import Mlxforge.Server.ChatClient
import Mlxforge.Server.MessageProtocol
import Mlxforge.Server.MessageClient
import Mlxforge.Cache.KvCache
import Mlxforge.Lib.Generation
import Mlxforge.Model.SingleForward
import Mlxforge.Runtime.ServedRows
import Mlxforge.Runtime.ServedWorker
import Mlxforge.Runtime.ServedPool
import Mlxforge.Runtime.ServedRuns
import Mlxforge.Runtime.ServedProgress
import Mlxforge.Runtime.ServedPace
import Mlxforge.Runtime.NoStarvation
import Mlxforge.Lib.Alike
import Mlxforge.Model.Qwen3Vl
import Mlxforge.Model.MropeRotation
import Mlxforge.Runtime.MultimodalStream
import Mlxforge.Sample.Sampling
import Mlxforge.Server.RequestBody
import Mlxforge.Server.Admission
import Mlxforge.Server.SurfaceAgreement
