import VibeVoice.Lib.Calls
import VibeVoice.Status

/-!
What the calls of `engine.c` do to a slot and to the pages of its cache, from the entry points
down to `decoder.c`, for an engine whose slots share a pool (`pipeline.c`, `stream_ctx.c`,
`stream.c`).

Only a context on one device, not on the CPU, has a cache with a pool (`vv_inference_create`), so
the tests for a pool hold, there are no shards, and the branches for the CPU are not taken.

A request is code that calls its environment.  The calls that touch a slot, a page or `no_wait`
are kept one by one and in order; everything else (an allocation, a kernel, a copy, the
tokenizer, a callback) is an `Op`, which may fail each time it is called, and every condition on
data that is not kept here may come out either way.  The number of positions of a reservation is
left to the environment too.
-/

namespace VibeVoice.Engine

open Calls Fallible

/-- What a request does besides: it may fail, and touches neither a slot nor a page. -/
inductive Op
  /-- A test of the arguments, of the context or of the session, with a status of its own. -/
  | check
  /-- A condition that chooses a branch. -/
  | branch
  | alloc | devAlloc | setDevice | streamSync | eventRecord | waitEvent
  | audioPrepare | resample | tokenize | buildPrompt | encode | embedding
  | layers | advancePos | head | sample
  | graphBegin | graphEnd | graphLaunch
  | text | callback | postprocess
  deriving DecidableEq, Repr

/-- A call of a request. -/
inductive Call
  | op (o : Op)
  /-- `vv_kv_cache_reserve_wait`, or `vv_kv_cache_reserve`, of the slot's cache. -/
  | reservePages (wait : Bool)
  | kvCacheRelease
  | kvCacheReset
  /-- The write `kv_cache->no_wait = on`. -/
  | setNoWait (on : Bool)
  /-- `acquire_slot_wait`, with a time limit or without. -/
  | acquireSlot (timed : Bool)
  | releaseSlot (ok : Bool)
  deriving DecidableEq, Repr

/-- The status a call comes back with. -/
abbrev Answer := Except Status Unit

/-- The code of a request, or of a part of one. -/
abbrev Request (α : Type) := Fallible Call Answer Status α

/-- One call, with its status. -/
def perform (c : Call) : Request Unit := ExceptT.mk (Code.ask c)

/-- One of the things that touch neither a slot nor a page. -/
def op (o : Op) : Request Unit := perform (.op o)

/-- A condition on data that is not kept here. -/
def test : Request Bool := do
  let r ← attempt (op .branch)
  pure r.isOk

/-- `p`, and `cleanup` before its failure is handed on. -/
def onFailure (p cleanup : Request Unit) : Request Unit := do
  match ← attempt p with
  | .ok () => pure ()
  | .error e => do
      cleanup
      throw e

/-! ### The cache and the layers -/

/-- `vv_kv_cache_reserve`. -/
def kvCacheReserve : Request Unit := perform (.reservePages false)

/-- `vv_kv_cache_reserve_wait`. -/
def kvCacheReserveWait : Request Unit := perform (.reservePages true)

/-- `vv_pipeline_kv_reset`. -/
def pipelineKvReset : Request Unit := do
  ignore (perform .kvCacheReset)
  ignore (op .setDevice)

/-- `vv_pipeline_kv_reserve`. -/
def pipelineKvReserve : Request Unit := kvCacheReserveWait

/-- `vv_pipeline_kv_release`. -/
def pipelineKvRelease : Request Unit := do
  ignore (op .streamSync)
  ignore (perform .kvCacheRelease)
  ignore (op .setDevice)

/-- `vv_decoder_prefill`. -/
def decoderPrefill : Request Unit := do
  op .check
  kvCacheReserve
  op .check
  op .layers

/-- `vv_decoder_step`. -/
def decoderStep : Request Unit := do
  op .check
  kvCacheReserve
  op .advancePos
  op .layers
  op .advancePos

/-- The capture of a step in `step_slice`: whether there is a graph to launch after it. -/
def captureStep : Request Bool := do
  match ← attempt (op .graphBegin) with
  | .error _ => pure false
  | .ok () => do
      let cs ← attempt decoderStep
      let es ← attempt (op .graphEnd)
      pure (cs.isOk && es.isOk)

/-- The rest of `step_slice`, with a step that may be replayed. -/
def replayStep : Request Unit := do
  if ← test then op .graphLaunch
  else if ← captureStep then op .graphLaunch
  else decoderStep

/-- `step_slice`. -/
def stepSlice : Request Unit := do
  op .check
  kvCacheReserveWait
  if ← test then replayStep else decoderStep

/-- One turn of a decode loop: a full window ends it (`false`), any other failure is the
request's. -/
def decodeTurn (before after : Request Unit) : Request Bool := do
  before
  match ← attempt stepSlice with
  | .error .overflow => pure false
  | .error e => throw e
  | .ok () => do
      after
      pure true

/-- A decode loop of at most `n` turns, which the tests at its head may end sooner. -/
def decodeLoop (before after : Request Unit) : ℕ → Request Unit
  | 0 => pure ()
  | n + 1 => do
      if ← test then pure ()
      else if ← decodeTurn before after then decodeLoop before after n
      else pure ()

/-! ### One clip at once, and text -/

/-- `transcribe_gpu`. -/
def transcribeGpu (maxNewTokens : ℕ) : Request Unit := do
  op .check
  pipelineKvReset
  op .check
  op .buildPrompt
  kvCacheReserveWait
  op .devAlloc
  op .embedding
  op .encode
  op .waitEvent
  op .streamSync
  decoderPrefill
  op .devAlloc
  op .head
  op .alloc
  decodeLoop (op .embedding) (do op .head; op .alloc) maxNewTokens
  op .postprocess

/-- `vv_inference_generate` from its first allocation on the device to the label `done`. -/
def generateBody (maxNew : ℕ) : Request Unit := do
  op .devAlloc
  op .alloc
  op .embedding
  decoderPrefill
  op .head
  op .sample
  decodeLoop (do op .alloc; op .callback; op .embedding) (do op .head; op .sample) maxNew

/-- `vv_inference_generate`. -/
def inferenceGenerate (maxNew : ℕ) : Request Unit := do
  op .check
  op .tokenize
  op .check
  op .alloc
  pipelineKvReset
  kvCacheReserveWait
  let s ← attempt (generateBody maxNew)
  pipelineKvRelease
  resume s
  op .alloc

/-! ### The backend of a session -/

/-- `gpu_open`. -/
def gpuOpen : Request Unit := do
  op .check
  op .devAlloc
  op .alloc

/-- `gpu_prefill_prompt`; `noWait` is `b->kv_no_wait`. -/
def gpuPrefillPrompt (noWait : Bool) : Request Unit := do
  op .setDevice
  pipelineKvReset
  ignore (perform (.setNoWait noWait))
  op .devAlloc
  pipelineKvReserve
  op .embedding
  decoderPrefill
  op .streamSync

/-- `gpu_prefill_chunk`. -/
def gpuPrefillChunk : Request Unit := do
  op .setDevice
  op .check
  pipelineKvReserve
  op .embedding
  op .eventRecord
  op .encode
  op .waitEvent
  decoderPrefill
  op .head

/-- `gpu_encode_ahead`. -/
def gpuEncodeAhead : Request Unit := do
  op .check
  op .setDevice
  op .encode
  op .waitEvent

/-- `gpu_decode_step`. -/
def gpuDecodeStep : Request Unit := do
  op .setDevice
  op .check
  op .embedding
  stepSlice
  op .head

/-- `gpu_destroy`. -/
def gpuDestroy : Request Unit := do
  ignore (op .setDevice)
  ignore (op .streamSync)
  pipelineKvRelease
  ignore (perform (.setNoWait false))

/-! ### A session -/

/-- The decode loop of `run_chunk`. -/
def chunkLoop : ℕ → Request Unit
  | 0 => pure ()
  | n + 1 => do
      if ← test then pure ()
      else
        op .alloc
        op .text
        op .callback
        op .check
        gpuDecodeStep
        chunkLoop n

/-- `run_chunk`. -/
def runChunk (maxNewTokens : ℕ) : Request Unit := do
  op .check
  gpuPrefillChunk
  chunkLoop maxNewTokens
  op .text
  op .callback
  op .alloc
  op .callback
  op .check

/-- `run_chunk` on windows that were encoded together, at most `n` of them. -/
def runChunks (maxNewTokens : ℕ) : ℕ → Request Unit
  | 0 => pure ()
  | n + 1 => do
      if ← test then pure ()
      else
        runChunk maxNewTokens
        runChunks maxNewTokens n

/-- `VV_STREAM_AHEAD_MAX`. -/
def streamAheadMax : ℕ := 8

/-- What `drain` does about the windows that are ready: the first ones together, or one. -/
def drainTurn (maxNewTokens : ℕ) : Request Unit := do
  if ← test then
    op .alloc
    gpuEncodeAhead
    runChunks maxNewTokens streamAheadMax
  else runChunk maxNewTokens

/-- `drain`, which finds at most `n` windows ready. -/
def drain (maxNewTokens : ℕ) : ℕ → Request Unit
  | 0 => pure ()
  | n + 1 => do
      if ← test then pure ()
      else
        op .check
        drainTurn maxNewTokens
        drain maxNewTokens n

/-- `vv_stream_push`. -/
def streamPush (maxNewTokens windows : ℕ) : Request Unit := do
  op .check
  op .alloc
  drain maxNewTokens windows

/-- `vv_stream_finish`. -/
def streamFinish (maxNewTokens windows : ℕ) : Request Unit := do
  op .check
  drain maxNewTokens windows

/-- `vv_stream_open_backend`. -/
def streamOpenBackend (noWait : Bool) : Request Unit := do
  op .check
  op .alloc
  op .tokenize
  op .check
  gpuPrefillPrompt noWait

/-- `vv_stream_close`. -/
def streamClose : Request Unit := gpuDestroy

/-- `vv_stream_open`. -/
def streamOpen (noWait : Bool) : Request Unit := do
  op .check
  op .alloc
  op .check
  onFailure (do op .setDevice; gpuOpen) gpuDestroy
  onFailure (streamOpenBackend noWait) gpuDestroy

/-- `vv_stream_transcribe` between the open and the close of its session. -/
def transcribeSession (maxNewTokens windows : ℕ) : Request Unit := do
  streamPush maxNewTokens windows
  streamFinish maxNewTokens windows
  op .alloc
  op .postprocess

/-- `vv_stream_transcribe`; its session waits for pages. -/
def streamTranscribe (maxNewTokens windows : ℕ) : Request Unit := do
  op .check
  streamOpen false
  let s ← attempt (transcribeSession maxNewTokens windows)
  streamClose
  resume s

/-- `vv_inference_transcribe`; `chunked` when the family's mode is `VV_GEN_CHUNKED`. -/
def inferenceTranscribe (chunked : Bool) (maxNewTokens windows : ℕ) : Request Unit := do
  op .check
  op .setDevice
  if chunked then streamTranscribe maxNewTokens windows
  else
    let s ← attempt (transcribeGpu maxNewTokens)
    ignore (op .streamSync)
    ignore (perform .kvCacheRelease)
    resume s

/-! ### The engine -/

/-- `p` with the slot in hand, and `release_slot`, which counts the request when it went well. -/
def holdingSlot (p : Request Unit) : Request Unit := do
  let s ← attempt p
  ignore (perform (.releaseSlot s.isOk))
  resume s

/-- `vv_engine_transcribe`. -/
def engineTranscribe (chunked : Bool) (maxNewTokens windows : ℕ) : Request Unit := do
  op .check
  op .audioPrepare
  perform (.acquireSlot false)
  holdingSlot (inferenceTranscribe chunked maxNewTokens windows)

/-- `vv_engine_generate`. -/
def engineGenerate (maxNew : ℕ) : Request Unit := do
  op .check
  perform (.acquireSlot false)
  holdingSlot (inferenceGenerate maxNew)

/-- `vv_engine_stream_t`: whether it has a slot and a session, and `ok`. -/
structure EngineStream where
  slot : Bool
  st : Bool
  ok : Bool
  deriving DecidableEq, Repr

/-- `vv_engine_stream_close`. -/
def engineStreamClose (s : EngineStream) : Request Unit := do
  if s.st then streamClose
  if s.slot then ignore (perform (.releaseSlot s.ok))

/-- `vv_engine_stream_open_ex` with the slot in hand. -/
def openSession (noWait : Bool) : Request EngineStream := do
  onFailure (do op .setDevice; streamOpen noWait)
    (engineStreamClose { slot := true, st := false, ok := false })
  pure { slot := true, st := true, ok := false }

/-- `vv_engine_stream_open_ex`; `timed` when `wait_ms` is not negative. -/
def engineStreamOpenEx (timed noWait : Bool) : Request EngineStream := do
  op .check
  op .alloc
  op .resample
  match ← attempt (perform (.acquireSlot timed)) with
  | .error _ => do
      engineStreamClose { slot := false, st := false, ok := false }
      throw .busy
  | .ok () => openSession noWait

/-- `vv_engine_stream_push`. -/
def engineStreamPush (maxNewTokens windows : ℕ) : Request Unit := do
  op .resample
  streamPush maxNewTokens windows

/-- `vv_engine_stream_finish` up to the write of `ok`. -/
def finishSession (maxNewTokens windows : ℕ) : Request Unit := do
  op .resample
  if ← test then streamPush maxNewTokens windows
  streamFinish maxNewTokens windows

/-- `vv_engine_stream_finish`: the stream after it. -/
def engineStreamFinish (maxNewTokens windows : ℕ) (s : EngineStream) : Request EngineStream := do
  match ← attempt (finishSession maxNewTokens windows) with
  | .ok () => pure { s with ok := true }
  | .error _ => pure s

/-- `vv_engine_stream_cancel` writes the flag of the session, which the tests in it read. -/
def engineStreamCancel (s : EngineStream) : Request EngineStream := pure s

/-- A call of the engine.  The numbers bound the loops: `max_new_tokens`, and the windows the
session has by the end of the call. -/
inductive Entry
  | transcribe (chunked : Bool) (maxNewTokens windows : ℕ)
  | generate (maxNew : ℕ)
  | streamOpenEx (timed noWait : Bool)
  | push (maxNewTokens windows : ℕ)
  | finish (maxNewTokens windows : ℕ)
  | cancel
  | close
  deriving DecidableEq, Repr

/-- What a client has to run, and then the stream it has in hand. -/
abbrev Client := Code Call Answer (Option EngineStream)

/-- The stream a call leaves its client with, `before` when it fails. -/
def leaving (before : Option EngineStream) (p : Request (Option EngineStream)) : Client := do
  match ← ExceptT.run p with
  | .ok s => pure s
  | .error _ => pure before

/-- The code of a call; a stream is opened by a client that has none, and pushed to, finished,
cancelled or closed by one that has. -/
def Entry.code : Entry → Option EngineStream → Option Client
  | .transcribe chunked maxNewTokens windows, none =>
    some (leaving none (do engineTranscribe chunked maxNewTokens windows; pure none))
  | .generate maxNew, none => some (leaving none (do engineGenerate maxNew; pure none))
  | .streamOpenEx timed noWait, none =>
    some (leaving none (do let s ← engineStreamOpenEx timed noWait; pure (some s)))
  | .push maxNewTokens windows, some s =>
    some (leaving (some s) (do engineStreamPush maxNewTokens windows; pure (some s)))
  | .finish maxNewTokens windows, some s =>
    some (leaving (some s)
      (do let s' ← engineStreamFinish maxNewTokens windows s; pure (some s')))
  | .cancel, some s => some (leaving (some s) (do let s' ← engineStreamCancel s; pure (some s')))
  | .close, some s => some (leaving none (do engineStreamClose s; pure none))
  | _, _ => none

end VibeVoice.Engine
