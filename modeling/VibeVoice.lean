import VibeVoice.Lib.Barrier
import VibeVoice.Lib.Base64
import VibeVoice.Lib.Buckets
import VibeVoice.Lib.Calls
import VibeVoice.Lib.Carve
import VibeVoice.Lib.Circle
import VibeVoice.Lib.CommandLine
import VibeVoice.Lib.EventStream
import VibeVoice.Lib.Fault
import VibeVoice.Lib.Hadamard
import VibeVoice.Lib.History
import VibeVoice.Lib.InPlace
import VibeVoice.Lib.Incremental
import VibeVoice.Lib.JsonText
import VibeVoice.Lib.Lanes
import VibeVoice.Lib.Loop
import VibeVoice.Lib.Machine
import VibeVoice.Lib.Meter
import VibeVoice.Lib.Online
import VibeVoice.Lib.Packed
import VibeVoice.Lib.Pieces
import VibeVoice.Lib.Pipeline
import VibeVoice.Lib.Probing
import VibeVoice.Lib.Prog
import VibeVoice.Lib.Query
import VibeVoice.Lib.Ranges
import VibeVoice.Lib.Reader
import VibeVoice.Lib.Regex
import VibeVoice.Lib.Riff
import VibeVoice.Lib.Ring
import VibeVoice.Lib.Rounding
import VibeVoice.Lib.Scan
import VibeVoice.Lib.Search
import VibeVoice.Lib.Sha1
import VibeVoice.Lib.Softmax
import VibeVoice.Lib.Steps
import VibeVoice.Lib.Streaming
import VibeVoice.Lib.Streams
import VibeVoice.Lib.Strip
import VibeVoice.Lib.Strtol
import VibeVoice.Lib.Subtitle
import VibeVoice.Lib.Tally
import VibeVoice.Lib.TopK
import VibeVoice.Lib.Utf8
import VibeVoice.Lib.Warp
import VibeVoice.Lib.Words
import VibeVoice.Status
import VibeVoice.Core.Spawn
import VibeVoice.Core.GpuSelect
import VibeVoice.Core.MemCap
import VibeVoice.Audio.Resample
import VibeVoice.Audio.Vad
import VibeVoice.Audio.VadSplit
import VibeVoice.Audio.Wav
import VibeVoice.Audio.WavContent
import VibeVoice.Audio.Mic
import VibeVoice.Tokenizer.Pretokenize
import VibeVoice.Tokenizer.SplitPattern
import VibeVoice.Tokenizer.Alphabet
import VibeVoice.Tokenizer.Load
import VibeVoice.Tokenizer.Bpe
import VibeVoice.Tokenizer.RoundTrip
import VibeVoice.Tokenizer.Bound
import VibeVoice.Tokenizer.Termination
import VibeVoice.Tokenizer.Tables
import VibeVoice.Tokenizer.Control
import VibeVoice.Model.Cjson
import VibeVoice.Model.Entry
import VibeVoice.Model.Safetensors
import VibeVoice.Model.Gguf
import VibeVoice.Model.GgufRoundTrip
import VibeVoice.Model.GgufCursor
import VibeVoice.Model.GgufDequant
import VibeVoice.Model.CompressedTensors
import VibeVoice.Model.CompressedRead
import VibeVoice.Model.CompressedWeight
import VibeVoice.Model.LoadRoutines
import VibeVoice.Model.CompressedBounds
import VibeVoice.Model.LoadBounds
import VibeVoice.Quant.Repack
import VibeVoice.Quant.GpuLayout
import VibeVoice.Kernels.Simd
import VibeVoice.Kernels.Ternary
import VibeVoice.Kernels.TernaryRows
import VibeVoice.Kernels.TernaryDrive
import VibeVoice.Kernels.Int8
import VibeVoice.Kernels.Int8Encoder
import VibeVoice.Kernels.Int8Linear
import VibeVoice.Kernels.LmHead
import VibeVoice.Kernels.ActQuant
import VibeVoice.Kernels.GemmTile
import VibeVoice.Kernels.GemmLoop
import VibeVoice.Kernels.GemmI8
import VibeVoice.Attention.Rotation
import VibeVoice.Attention.KvCache
import VibeVoice.Attention.Decode
import VibeVoice.Attention.Prefill
import VibeVoice.KvPool.Pool
import VibeVoice.KvPool.Effect
import VibeVoice.KvPool.Ownership
import VibeVoice.KvPool.Stall
import VibeVoice.KvPool.Wakeup
import VibeVoice.KvPool.Undo
import VibeVoice.KvPool.Window
import VibeVoice.Encoder.Conv
import VibeVoice.Encoder.Gpu
import VibeVoice.Encoder.GpuStream
import VibeVoice.Encoder.Cpu
import VibeVoice.Encoder.Whole
import VibeVoice.Encoder.Arena
import VibeVoice.Encoder.Failure
import VibeVoice.Encoder.Int8Tower
import VibeVoice.Decoder.LayerPool
import VibeVoice.Decoder.Prefetch
import VibeVoice.Decoder.Placement
import VibeVoice.Decoder.PoolInv
import VibeVoice.Decoder.Split
import VibeVoice.Decoder.Head
import VibeVoice.Decoder.Greedy
import VibeVoice.Decoder.Sampling
import VibeVoice.Decoder.Workspace
import VibeVoice.Decoder.PrefillCpu
import VibeVoice.Decode.StopStrings
import VibeVoice.Decode.Finish
import VibeVoice.Decode.Postprocess
import VibeVoice.Decode.Truncated
import VibeVoice.Decode.Recovery
import VibeVoice.Decode.Hotwords
import VibeVoice.Decode.Transcribe
import VibeVoice.Stream.Geom
import VibeVoice.Stream.Chunker
import VibeVoice.Stream.Text
import VibeVoice.Stream.Layout
import VibeVoice.Stream.Session
import VibeVoice.Stream.Protocol
import VibeVoice.Stream.Events
import VibeVoice.Stream.Capacity
import VibeVoice.Stream.Lockstep
import VibeVoice.Stream.Fold
import VibeVoice.Stream.Batch
import VibeVoice.Stream.Segments
import VibeVoice.Engine.Slots
import VibeVoice.Engine.Staging
import VibeVoice.Engine.Requests
import VibeVoice.Engine.Leases
import VibeVoice.Engine.Idle
import VibeVoice.Server.Http
import VibeVoice.Server.RequestBody
import VibeVoice.Server.Queue
import VibeVoice.Server.Packets
import VibeVoice.Server.Multipart
import VibeVoice.Server.Websocket
import VibeVoice.Server.WebsocketStream
import VibeVoice.Server.ContentLength
import VibeVoice.Server.Pcm
import VibeVoice.Server.Sse
import VibeVoice.Server.Handshake
import VibeVoice.Server.ErrorBody
import VibeVoice.Server.ApiKey
import VibeVoice.Server.Subtitles
import VibeVoice.Server.ChatPrompt
import VibeVoice.Metal.Stream
import VibeVoice.Metal.Alloc
