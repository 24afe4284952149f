import Mathlib.Algebra.GroupWithZero.Nat
import Mathlib.Data.List.Basic
import VibeVoice.Lib.Streams
import VibeVoice.Status

/-!
Weight streaming (`decoder.c`): layers that are not resident on the device are copied into one or
two staging buffers, ahead of the layer that is computed.

The pool is the one of a model whose layers are not all resident. Every layer has the tensors of
`vv_layer_tensors`; an absent one has size zero.

* `stage`, `unstage`, `prefetchBegin`, `prefetchWait`, `prefetchDone`: the pool.
* `decoderStep`, `decoderPrefill`: the layer loops around it.
* `Right`: a layer computed with its own weights.
-/

namespace VibeVoice.Decoder

open Streams (Log Schedule)

/-! ### The pool -/

/-- One of `VV_LAYER_POOL_SLOTS` staging buffers. -/
abbrev Slot := Fin 2

/-- The streams of a decoder. -/
inductive Stream
  | compute | xfer
  deriving DecidableEq, Repr

/-- The events of a pool. -/
inductive Event
  | ready (slot : Slot)
  | done (slot : Slot)
  deriving DecidableEq, Repr

/-- Where the data of a tensor is: on the host, in memory of its own on the device, or in a staging
buffer. -/
inductive Place
  | host
  | resident
  | dev (slot : Slot) (off : ℕ)
  deriving DecidableEq, Repr

/-- A tensor in a staging buffer. -/
structure Part where
  tensor : ℕ
  off : ℕ
  size : ℕ
  deriving DecidableEq, Repr

/-- What is enqueued: the copies of a layer into a staging buffer, and its computation, which reads
the tensors where they are. -/
inductive Op
  | copy (slot : Slot) (layer : ℕ) (parts : List Part)
  | compute (layer : ℕ) (places : List Place)
  deriving DecidableEq, Repr

/-- `VV_LAYER_TENSOR_SLOTS`. -/
def layerTensorSlots : ℕ := 2 + 7 * 5

/-- The sizes of the tensors of a model. -/
structure Weights where
  numLayers : ℕ
  sizes : ℕ → List ℕ
  length_sizes : ∀ layer, (sizes layer).length = layerTensorSlots

/-- What is fixed when the pool is created; `noPrefetch` is `VV_NO_PREFETCH`. -/
structure PoolConfig where
  twoBufs : Bool
  nResident : ℕ
  noPrefetch : Bool

/-- The pool, the pointers of the model's tensors, and what was enqueued. -/
structure Pool where
  loaded : Slot → Option ℕ
  saved : Slot → List Bool
  doneValid : Slot → Bool
  place : ℕ → List Place
  log : Log Stream Event Op

/-- `max_sz`, over the first `n` layers. -/
def maxLayerBytes (W : Weights) : ℕ → ℕ
  | 0 => 0
  | n + 1 => max (maxLayerBytes W n) (W.sizes n).sum

/-- `buf_size`. -/
def Weights.bufSize (W : Weights) : ℕ := maxLayerBytes W W.numLayers + layerTensorSlots * 256

section Model

variable (W : Weights) (c : PoolConfig) (fault : ℕ → ℕ → Bool)

/-- `vv_layer_pool_create`, once the buffers are allocated. -/
def poolCreate : Pool where
  loaded := fun _ => none
  saved := fun _ => []
  doneValid := fun _ => false
  place := fun layer =>
    List.replicate layerTensorSlots (if layer < c.nResident then .resident else .host)
  log := .empty

/-- `pool_slot`. -/
def PoolConfig.slot (layer : ℕ) : Slot := if c.twoBufs then Fin.ofNat 2 layer else 0

/-- The copies of `vv_layer_pool_stage` from tensor `idx` on, given the sizes and places of those
tensors: what was copied, the places and the saved pointers, and how it ended. -/
def stageTensors (bufSize : ℕ) (slot : Slot) (fault : ℕ → Bool) :
    ℕ → ℕ → List (ℕ × Place) → List Part × List (Place × Bool) × Except Status Unit
  | _, _, [] => ([], [], .ok ())
  | idx, off, (size, place) :: ts =>
    if size = 0 ∨ place ≠ .host then
      let r := stageTensors bufSize slot fault (idx + 1) off ts
      (r.1, (place, decide (place = .host)) :: r.2.1, r.2.2)
    else
      let off := (off + 255) / 256 * 256
      if bufSize < off + size then ([], [(place, true)], .error .overflow)
      else if fault idx then ([], [(place, true)], .error .cuda)
      else
        let r := stageTensors bufSize slot fault (idx + 1) (off + size) ts
        (⟨idx, off, size⟩ :: r.1, (.dev slot off, true) :: r.2.1, r.2.2)

/-- `vv_layer_pool_unstage`. -/
def unstage (p : Pool) (layer : ℕ) : Pool :=
  match [0, 1].find? fun s => p.loaded s = some layer with
  | none => p
  | some s =>
    { p with
      place := Function.update p.place layer ((p.place layer).zipWith
        (fun place saved => if saved then .host else place) (p.saved s))
      loaded := Function.update p.loaded s none }

/-- The first lines of `vv_layer_pool_stage`: another layer leaves the buffer. -/
def makeRoom (p : Pool) (slot : Slot) (layer : ℕ) : Pool :=
  match p.loaded slot with
  | none => p
  | some old => if old ≠ layer then unstage p old else p

/-- `vv_layer_pool_stage` on a stream. `fault` tells which copies fail to be enqueued. -/
def stage (p : Pool) (layer : ℕ) (stream : Stream) : Pool × Except Status Unit :=
  if W.numLayers ≤ layer then (p, .error .invalidArg)
  else if layer < c.nResident then (p, .ok ())
  else
    let slot := c.slot layer
    let p := makeRoom p slot layer
    if p.loaded slot = some layer then (p, .ok ())
    else
      let r := stageTensors W.bufSize slot (fault p.log.ops.length) 0 0
        ((W.sizes layer).zip (p.place layer))
      let p := { p with
        place := Function.update p.place layer
          (r.2.1.map Prod.fst ++ (p.place layer).drop r.2.1.length)
        saved := Function.update p.saved slot
          (r.2.1.map Prod.snd ++ (p.saved slot).drop r.2.1.length)
        log := p.log.enqueue stream (.copy slot layer r.1) }
      match r.2.2 with
      | .error e => (p, .error e)
      | .ok () => ({ p with loaded := Function.update p.loaded slot (some layer) }, .ok ())

/-- `vv_layer_prefetch_begin`. -/
def prefetchBegin (p : Pool) (layer : ℕ) : Pool × Except Status Unit :=
  if W.numLayers ≤ layer then (p, .ok ())
  else if c.noPrefetch then (p, .ok ())
  else if layer < c.nResident then (p, .ok ())
  else
    let slot := c.slot layer
    if p.loaded slot = some layer then (p, .ok ())
    else if p.loaded slot ≠ none ∧ p.doneValid slot = false then (p, .ok ())
    else
      let p := if p.loaded slot ≠ none then { p with log := p.log.wait .xfer (.done slot) } else p
      match stage W c fault p layer .xfer with
      | (p, .error e) => (p, .error e)
      | (p, .ok ()) =>
        ({ p with
            doneValid := Function.update p.doneValid slot false
            log := p.log.record (.ready slot) .xfer }, .ok ())

/-- `vv_layer_prefetch_wait`. -/
def prefetchWait (p : Pool) (layer : ℕ) : Pool × Except Status Unit :=
  if layer < c.nResident then (p, .ok ())
  else
    let slot := c.slot layer
    if p.loaded slot ≠ some layer then
      match stage W c fault p layer .compute with
      | (p, .error e) => (p, .error e)
      | (p, .ok ()) => ({ p with doneValid := Function.update p.doneValid slot false }, .ok ())
    else ({ p with log := p.log.wait .compute (.ready slot) }, .ok ())

/-- `vv_layer_prefetch_done`. -/
def prefetchDone (p : Pool) (layer : ℕ) : Pool :=
  if layer < c.nResident then p
  else
    let slot := c.slot layer
    if p.loaded slot ≠ some layer then p
    else { p with
      doneValid := Function.update p.doneValid slot true
      log := p.log.record (.done slot) .compute }

/-! ### The layer loops -/

/-- `decoder_layer_impl`, as far as the pool is concerned: it reads the tensors of the layer. -/
def computeLayer (p : Pool) (layer : ℕ) : Pool :=
  { p with log := p.log.enqueue .compute (.compute layer (p.place layer)) }

/-- The loop over `n` layers from layer `i` on; `fails` tells at which the pass fails. The statuses
of the pool are not looked at. -/
def layerLoop (fails : ℕ → Bool) : ℕ → ℕ → Pool → Pool × Bool
  | 0, _, p => (p, true)
  | n + 1, i, p =>
    let p := (prefetchWait W c fault p i).1
    let p := if n ≠ 0 then (prefetchBegin W c fault p (i + 1)).1 else p
    let p := prefetchDone c (computeLayer p i) i
    if fails i then (p, false) else layerLoop fails n (i + 1) p

/-- One way through the layers. -/
def walk (first n : ℕ) (fails : ℕ → Bool) (p : Pool) : Pool × Bool :=
  layerLoop W c fault fails n first (prefetchBegin W c fault p first).1

/-- `vv_decoder_step`. -/
def decoderStep (first n : ℕ) (fails : ℕ → Bool) (p : Pool) : Pool :=
  if n = 0 ∨ W.numLayers < first + n then p else (walk W c fault first n fails p).1

/-- The chunks of a prefill, up to one that fails. -/
def chunkLoop (first n : ℕ) : List (ℕ → Bool) → Pool → Pool
  | [], p => p
  | fails :: chunks, p =>
    match walk W c fault first n fails p with
    | (p, false) => p
    | (p, true) => chunkLoop first n chunks p

/-- `vv_decoder_prefill`. -/
def decoderPrefill (first n : ℕ) (chunks : List (ℕ → Bool)) (p : Pool) : Pool :=
  if n = 0 ∨ W.numLayers < first + n then p else chunkLoop W c fault first n chunks p

/-- A pass over `n` layers, in which each chunk fails at the layers `fails` tells. -/
inductive Pass
  | step (first n : ℕ) (fails : ℕ → Bool)
  | prefill (first n : ℕ) (chunks : List (ℕ → Bool))

/-- A pass of the decoder. -/
def runPass (p : Pool) : Pass → Pool
  | .step first n fails => decoderStep W c fault first n fails p
  | .prefill first n chunks => decoderPrefill W c fault first n chunks p

/-- A sequence of passes. -/
def runPasses (passes : List Pass) (p : Pool) : Pool := passes.foldl (runPass W c fault) p

end Model

/-! ### The right layer -/

section Spec

/-- The operation copies into a staging buffer. -/
def copiesInto (l : Log Stream Event Op) (slot : Slot) (n : ℕ) : Bool :=
  match l.op n with
  | some (.copy slot' _ _) => slot' == slot
  | _ => false

/-- The tensors that have data are in a staging buffer, where they were copied to, and none of them
on another. -/
structure Filled (bufSize : ℕ) (slot : Slot) (sizes : List ℕ) (parts : List Part)
    (places : List Place) : Prop where
  points : ∀ j size, sizes[j]? = some size → size ≠ 0 →
    ∃ off, places[j]? = some (.dev slot off) ∧ ⟨j, off, size⟩ ∈ parts
  room : ∀ part ∈ parts, part.off + part.size ≤ bufSize
  apart : parts.Pairwise fun part part' => part.off + part.size ≤ part'.off

/-- The `k`-th operation computes a layer with its own weights: its tensors point to where a copy
ordered before it put them, which is the last one there in every schedule, and whatever is copied
there later is ordered behind it. -/
structure Right (W : Weights) (l : Log Stream Event Op) (k layer : ℕ) (places : List Place)
    (slot : Slot) (w : ℕ) (parts : List Part) : Prop where
  filled : Filled W.bufSize slot (W.sizes layer) parts places
  copied : l.op w = some (.copy slot layer parts)
  before : w ∈ l.past k
  holds : ∀ σ : Schedule l, σ.last (copiesInto l slot) k = some w
  kept : ∀ n, k < n → copiesInto l slot n = true → k ∈ l.past n

/-- Every layer that is computed is resident, or computed with its own weights. -/
def AllRight (W : Weights) (c : PoolConfig) (l : Log Stream Event Op) : Prop :=
  ∀ k layer places, l.op k = some (.compute layer places) →
    if layer < c.nResident then ∀ place ∈ places, place = .resident
    else ∃ slot w parts, Right W l k layer places slot w parts

end Spec

end VibeVoice.Decoder
