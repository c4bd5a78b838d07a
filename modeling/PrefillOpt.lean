import PrefillOpt.AttentionHeads
import PrefillOpt.ContextParallel
import PrefillOpt.Core
import PrefillOpt.CpuShift
import PrefillOpt.Graph.Build
import PrefillOpt.Graph.Executor
import PrefillOpt.Graph.Embedding
import PrefillOpt.Graph.KvArrival
import PrefillOpt.Graph.PipelineSplit
import PrefillOpt.Graph.PrunedChunk
import PrefillOpt.Lib.BlockSplit
import PrefillOpt.Lib.BlockingIo
import PrefillOpt.Lib.ByteStream
import PrefillOpt.Lib.Calls
import PrefillOpt.Lib.Confluence
import PrefillOpt.Lib.Dialogue
import PrefillOpt.Lib.Exec
import PrefillOpt.Lib.History
import PrefillOpt.Lib.Lanes
import PrefillOpt.Lib.Loops
import PrefillOpt.Lib.Memory
import PrefillOpt.Lib.Schedule
import PrefillOpt.Lib.Softmax
import PrefillOpt.Lib.Transition
import PrefillOpt.MatmulSlices
import PrefillOpt.Network.Batched
import PrefillOpt.Network.Collectives
import PrefillOpt.Network.Delivery
import PrefillOpt.Network.Handshake
import PrefillOpt.Network.HandshakeRuns
import PrefillOpt.Network.Ring
import PrefillOpt.Network.SliceSync
import PrefillOpt.Network.Sockets
import PrefillOpt.Network.SpKv
import PrefillOpt.Network.SpKvExchange
import PrefillOpt.Network.Star
import PrefillOpt.Network.TpGroup
import PrefillOpt.Pipeline.Activation
import PrefillOpt.Pipeline.DeltaBase
import PrefillOpt.Pipeline.Worker
import PrefillOpt.Pipeline.SkipProtocol
import PrefillOpt.Pipeline.SkipAlignment
import PrefillOpt.Pipeline.StageSkip
import PrefillOpt.Pipeline.SkipLanes
import PrefillOpt.Pipeline.Transport
import PrefillOpt.Topology
import PrefillOpt.Pipeline.Inference
import PrefillOpt.Pipeline.SkippedKv
import PrefillOpt.Pipeline.SpDecode
import PrefillOpt.Gateway.ProcessClient
import PrefillOpt.Network.Wire
import PrefillOpt.Network.ConfigWire
import PrefillOpt.Network.WeightWire
import PrefillOpt.Executor.Threads
import PrefillOpt.Executor.StepBarrier
import PrefillOpt.Executor.ForwardHistory
import PrefillOpt.Lib.FlowShop
import PrefillOpt.Lib.Pareto
import PrefillOpt.Planner.PlanFor
import PrefillOpt.Api.HttpRequest
import PrefillOpt.Inference.Transformer
import PrefillOpt.Inference.PromptSchedule
import PrefillOpt.Kernels.MatmulQ80Q40
import PrefillOpt.Kernels.Repack
import PrefillOpt.Kernels.MatmulForward
import PrefillOpt.Kernels.MatmulArgmax
import PrefillOpt.Kernels.PointerRows
import PrefillOpt.Kernels.AttentionAgree
import PrefillOpt.Kernels.WorkSplits
import PrefillOpt.Kernels.TinyBlas
import PrefillOpt.Inference.TopKLogits
import PrefillOpt.Tokenizer.Text
import PrefillOpt.Tokenizer.FileRoundTrip
import PrefillOpt.Api.CacheSound
import PrefillOpt.Lib.Interleaving
import PrefillOpt.Kernels.RepeatZ
import PrefillOpt.Kernels.RopePermute
import PrefillOpt.Kernels.PruneTokens
import PrefillOpt.Tokenizer.EncodeText
import PrefillOpt.Tokenizer.DecodeBounds
import PrefillOpt.Api.StopText
import PrefillOpt.Kernels.MoeMixture
import PrefillOpt.Inference.ChunkSize
import PrefillOpt.Inference.BatchIsolation
import PrefillOpt.Tokenizer.ChatTemplate
import PrefillOpt.Pipeline.SocketMaps
import PrefillOpt.Network.WeightLoader
import PrefillOpt.Tokenizer.Sampler
import PrefillOpt.Kernels.QuantizeQ40
import PrefillOpt.Kernels.HalfFloat
import PrefillOpt.Network.PolledRead
import PrefillOpt.Api.ServerLoop
import PrefillOpt.Planner.Geometry
import PrefillOpt.ModelFile.SpWeights
import PrefillOpt.Pipeline.StageDeliveries
import PrefillOpt.Graph.TensorParallel
import PrefillOpt.Kernels.MoeSchedule
