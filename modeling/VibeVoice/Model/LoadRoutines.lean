import VibeVoice.Model.CompressedTensors

/-!
Where the safetensors loader reads and writes (`loader.c`).

The routines are given by the elements they read of a tensor's mapping and write to the buffers
they allocate: a read outside of the `data_size` bytes and a store outside of a buffer is a fault.
What the values of a tensor decide (the JSON of a quantization state, whether a repack accepts its
group index) and the threads that run a loop are parameters.

* `loadF16`, `loadF32`, `loadRaw`: whole tensors.
* `loadNf4Scales`, `loadAwqWeight`, `loadDenseWeight`, `loadProjection`: the projections; those of
  compressed-tensors are `loadCtWeight`.
* `i8LayerSt`, `loadI8vaeSt`: the int8 encoder.
* `loadModel`: the whole load.
-/

namespace VibeVoice.Loader

open Safetensors Fault

/-- What the loader reads of a `quant_state`: its `nested_blocksize`, rounded down, if that is at
least 1, and the length of its `nested_quant_map`. -/
structure QuantState where
  nestedBlock : Option ℕ
  mapLength : Option ℕ
  nestedBlock_pos : ∀ v, nestedBlock = some v → 0 < v

/-- What runs the loader: the heap, the arithmetic of floats, the threads of a parallel loop, and
what is decided by the values of a tensor. -/
structure World where
  heap : Heap
  fl : Floats
  threads : ℕ
  thread : ℕ → ℕ
  thread_lt : ∀ b, thread b < threads
  threads_le : threads ≤ 2 ^ 22
  quantState : Entry → Option QuantState
  repacks : List UInt8 → Except Status Unit

/-- `vv_smooth_stats_t`, by its sizes. -/
structure SmoothStats where
  layers : ℤ
  hidden : ℤ
  qDim : ℤ
  inter : ℤ
  layers_pos : 0 < layers
  hidden_pos : 0 < hidden
  qDim_pos : 0 < qDim
  inter_pos : 0 < inter

/-- `smooth_maps`. -/
structure SmoothMaps where
  qkv : Bool
  gateUp : Bool
  vo : Bool
  upDown : Bool

/-- What `parse_decoder_config` lets through, its products being `int`s, and the sizes of the speech
front end. -/
structure Config where
  hiddenSize : ℤ
  vocabSize : ℤ
  intermediateSize : ℤ
  numHiddenLayers : ℤ
  numAttentionHeads : ℤ
  numKeyValueHeads : ℤ
  headDim : ℤ
  attentionBias : Bool
  tieWordEmbeddings : Bool
  acousticVaeDim : ℤ
  semanticVaeDim : ℤ
  acousticDepths : List ℤ
  semanticDepths : List ℤ
  hidden_range : 0 < hiddenSize ∧ hiddenSize < 2 ^ 31
  vocab_range : 0 < vocabSize ∧ vocabSize < 2 ^ 31
  intermediate_range : 0 < intermediateSize ∧ intermediateSize < 2 ^ 31
  heads_pos : 0 < numAttentionHeads
  kvHeads_pos : 0 < numKeyValueHeads
  kvHeads_dvd : numKeyValueHeads ∣ numAttentionHeads
  headDim_ne : headDim ≠ 0
  qDim_range : -2 ^ 31 ≤ numAttentionHeads * headDim ∧ numAttentionHeads * headDim < 2 ^ 31

/-- `qd`. -/
def Config.qDim (c : Config) : ℤ := c.numAttentionHeads * c.headDim

/-- `kvd`. -/
def Config.kvDim (c : Config) : ℤ := c.numKeyValueHeads * c.headDim

/-- `loader_t`, with the options BitNet has of its own. -/
structure Loading extends State where
  lmRoot : List UInt8
  bitnet : Bool
  headInt8 : Bool
  vaeInt8 : Bool
  smooth : Option (SmoothStats × SmoothMaps)

/-- A part of a load that is wanted only sometimes. -/
def onlyIf (wanted : Bool) (x : Checked Unit) : Checked Unit := if wanted then x else pure ()

/-! ### Reads and writes -/

/-- Bytes `lo` to `hi` of a tensor's mapping are read. -/
def readSpan (e : Entry) (lo hi : ℕ) : Checked Unit := within (lo < hi → hi ≤ e.data.length)

/-- Bytes `lo` to `hi` of a buffer of `cap` bytes are written. -/
def writeSpan (cap lo hi : ℕ) : Checked Unit := within (lo < hi → hi ≤ cap)

/-- The bytes of the block `vv_alloc` returns for a `size_t`. -/
def blockSize (size : ℤ) : ℕ := ((size % 2 ^ 64).toNat + 8) % 2 ^ 64 - 8

section Routines

variable (W : World) (L : Loading) (cfg : Config)

/-- `vv_alloc`, for the size of the block. -/
def alloc (size : ℤ) : Checked ℕ := do
  W.heap.alloc size
  pure (blockSize size)

/-- `vv_alloc` of a buffer that is wanted only sometimes. -/
def allocIf (wanted : Bool) (size : ℤ) : Checked ℕ := if wanted then alloc W size else pure 0

/-- `(size_t)numel_of(e)`. -/
def count (e : Entry) : ℕ := (numelOf e.info).toUInt64.toNat

/-- The blocks of `to_f32` or `to_f16`: `n` elements of `e` into `cap` bytes of elements of `size`
bytes. -/
def convert (e : Entry) (n size cap : ℕ) : Checked Unit := do
  readSpan e 0 (converted n * e.info.dtype.size)
  writeSpan cap 0 (converted n * size)

/-- `load_f16`. -/
def loadF16 (e : Entry) : Checked Unit := do
  check (e.info.dtype.isFloat) .modelFormat
  let cap ← alloc W (count e * 2)
  convert e (count e) 2 cap

/-- `load_f32`. -/
def loadF32 (e : Entry) : Checked Unit := do
  check (e.info.dtype.isFloat) .modelFormat
  settled (checkBytes e)
  let cap ← alloc W (count e * 4)
  convert e (count e) 4 cap

/-- `load_raw`, for the size of the copy. -/
def loadRaw (e : Entry) : Checked ℕ := do
  settled (checkBytes e)
  let cap ← alloc W (max e.info.dataSize.toNat 1)
  readSpan e 0 e.info.dataSize.toNat
  writeSpan cap 0 e.info.dataSize.toNat
  pure e.info.dataSize.toNat

/-- `find`, for a tensor the model needs. -/
def need (name : List UInt8) (st : Status) : Checked Entry :=
  match L.find name with
  | some e => pure e
  | none => throw st

/-- `<prefix>layers.<layer>.`. -/
def layerName (layer : ℕ) : List UInt8 :=
  L.lmRoot ++ literal "layers." ++ literal (toString layer) ++ literal "."

/-- `need_f16`. -/
def needF16 (name : List UInt8) (d0 d1 : ℤ) : Checked Unit := do
  let e ← need L name .weightMissing
  settled (checkShape e d0 d1)
  loadF16 W e

/-- `need_norm`. -/
def needNorm (name : List UInt8) (d0 : ℤ) : Checked Unit :=
  if L.bitnet then do
    let e ← need L name .weightMissing
    settled (checkShape e d0 0)
    loadF32 W e
  else needF16 W L name d0 0

/-! ### NF4 -/

/-- `nested_block` as a `quant_state` has it, at most the number of blocks. The state is copied, and
its map of codes written to 256 entries. -/
def readQuantState (e : Entry) (nBlocks : ℕ) : Checked ℕ :=
  if 0 < e.data.length ∧ W.heap.allocates (e.data.length + 1) then do
    readSpan e 0 e.data.length
    writeSpan (blockSize (e.data.length + 1)) 0 (e.data.length + 1)
    let m := ((W.quantState e).bind QuantState.mapLength).getD 0
    writeSpan 256 0 (if 255 ≤ m ∧ m ≤ 256 then 256 else 0)
    pure (((W.quantState e).bind QuantState.nestedBlock).elim 256 fun v => min v nBlocks)
  else pure 256

/-- `nested_block`. -/
def nestedBlock (wname : List UInt8) (nBlocks : ℕ) : Checked ℕ :=
  match L.find (wname ++ literal ".quant_state.bitsandbytes__nf4") with
  | none => pure 256
  | some e => readQuantState W e nBlocks

/-- The scales of an `absmax` of U8 codes. -/
def doubleQuant (wname : List UInt8) (ea : Entry) (nBlocks cap : ℕ) : Checked Unit := do
  let en ← need L (wname ++ literal ".nested_absmax") .weightMissing
  check (en.info.dtype = .f32 ∧ bytesOk en) .weightMissing
  check (0 < (numelOf en.info).toInt ∧ (numelOf en.info).toInt ≤ nBlocks) .modelFormat
  let size ← nestedBlock W L wname nBlocks
  within (size ≠ 0)
  check ((nBlocks + size - 1) % 2 ^ 64 / size ≤ (numelOf en.info).toInt.toNat) .shapeMismatch
  (List.range nBlocks).forM fun i => do
    readSpan ea i (i + 1)
    readSpan en (4 * (i / size)) (4 * (i / size) + 4)
    writeSpan cap (2 * i) (2 * i + 2)

/-- `load_nf4_scales`. -/
def loadNf4Scales (wname : List UInt8) (nBlocks : ℕ) : Checked Unit := do
  let ea ← need L (wname ++ literal ".absmax") .weightMissing
  settled (checkBytes ea)
  check (count ea = nBlocks) .shapeMismatch
  let cap ← alloc W (nBlocks * 2)
  if ea.info.dtype = .u8 then doubleQuant W L wname ea nBlocks cap
  else do
    check (ea.info.dtype.isFloat) .modelFormat
    convert ea nBlocks 2 cap

/-! ### AWQ and GPTQ -/

/-- A tensor of two dimensions and of a type, copied as it is: its shape and its bytes. -/
def loadRaw2 (name : List UInt8) (dt : DType) (st : Status) : Checked (ℤ × ℤ × ℕ) := do
  let e ← need L name st
  check (e.info.dtype = dt ∧ e.info.shape.length = 2) st
  let bytes ← loadRaw W e
  pure ((e.info.shape.getD 0 0).toInt, (e.info.shape.getD 1 0).toInt, bytes)

/-- The copy of a `g_idx`, if there is one. -/
def loadGroupIndex (base : List UInt8) : Checked (Option (DType × ℕ)) :=
  match L.find (base ++ literal ".g_idx") with
  | none => pure none
  | some e => do
      let bytes ← loadRaw W e
      pure (some (e.info.dtype, bytes))

/-- `(int)d`. -/
def toInt32 (d : ℤ) : ℤ := d.bmod (2 ^ 32)

/-- The stores of `vv_awq_repack` or `vv_gptq_repack`, row after row. -/
def repackRows (N half ng packed sc mn zr : ℕ) : Checked Unit :=
  (List.range N).forM fun n => do
    writeSpan packed (n * half) ((n + 1) * half)
    writeSpan sc (2 * (n * ng)) (2 * ((n + 1) * ng))
    writeSpan mn (2 * (n * ng)) (2 * ((n + 1) * ng))
    writeSpan zr (n * ng) ((n + 1) * ng)

/-- `load_awq_weight`. -/
def loadAwqWeight (base : List UInt8) (Nwant Kwant : ℤ) : Checked Unit := do
  let (w0, w1, wbytes) ← loadRaw2 W L (base ++ literal ".qweight") .i32 .modelFormat
  let (z0, z1, zbytes) ← loadRaw2 W L (base ++ literal ".qzeros") .i32 .weightMissing
  let (s0, s1, sbytes) ← loadRaw2 W L (base ++ literal ".scales") .f16 .weightMissing
  let gidx ← loadGroupIndex W L base
  let gptq : Bool := s1 = w1 ∧ s1 ≠ (w1 * 8).bmod (2 ^ 64)
  let K := if gptq then toInt32 (toInt32 w0 * 8) else toInt32 w0
  let N := if gptq then toInt32 w1 else toInt32 (toInt32 w1 * 8)
  let ng := toInt32 s0
  check (K = Kwant ∧ N = Nwant ∧ 0 < ng ∧ K.tmod ng = 0 ∧ N.tmod 8 = 0 ∧ s1 = N) .shapeMismatch
  check ((wbytes : ℤ) = K * N % 2 ^ 64 / 2 ∧ (zbytes : ℤ) = ng * N.tdiv 8 * 4 % 2 ^ 64 ∧
    (sbytes : ℤ) = ng * N * 2 % 2 ^ 64 ∧ z0 = ng ∧ z1 = N.tdiv 8) .shapeMismatch
  check (∀ g ∈ gidx, g.1 = .i32 ∧ (g.2 : ℤ) = K * 4 % 2 ^ 64) .shapeMismatch
  let packed ← alloc W (N * K.tdiv 2)
  let sc ← alloc W (N * ng * 2)
  let mn ← alloc W (N * ng * 2)
  let zr ← alloc W (N * ng)
  let perm ← allocIf W (gptq && gidx.isSome) (K * 4)
  repackRows N.toNat (K.tdiv 2).toNat ng.toNat packed sc mn zr
  writeSpan perm 0 (if gptq && gidx.isSome then 4 * K.toNat else 0)
  settled (W.repacks base)

/-! ### Dense projections -/

/-- The rows of a block of `rows` of `K` channels, from row `r0` on: read, and converted in the
buffer of a thread. -/
def readRows (e : Entry) (K r0 rows thread tmp : ℕ) : Checked Unit := do
  readSpan e (r0 * K * e.info.dtype.size) ((r0 + rows) * K * e.info.dtype.size)
  writeSpan tmp (4 * (thread * 8 * K)) (4 * (thread * 8 * K + rows * K))

/-- The blocks of `per` rows, counted in an `int`. -/
def rowBlocks (per : ℕ) (N : ℤ) : ℕ := ((toInt32 (N + per - 1)).tdiv per).toNat

/-- The rows of block `b`. -/
def blockRows (per : ℕ) (N : ℤ) (b : ℕ) : ℕ := min per (N.toNat - b * per)

/-- `dense_col_absmax`, into `acc` of `accBytes` bytes. -/
def denseColAbsmax (layer : ℕ) (which : String) (N K : ℤ) (accBytes : ℕ) : Checked Unit := do
  let e ← need L (layerName L layer ++ literal which ++ literal ".weight") .weightMissing
  check (e.info.dtype.isFloat) .unsupported
  settled (checkShape e N K)
  let part ← alloc W (W.threads * K * 4)
  let tmp ← alloc W (W.threads * 8 * K * 4)
  writeSpan part 0 (W.threads * K.toNat * 4)
  (List.range (rowBlocks 8 N)).forM fun b => do
    readRows e K.toNat (b * 8) (blockRows 8 N b) (W.thread b) tmp
    writeSpan part (4 * (W.thread b * K.toNat)) (4 * ((W.thread b + 1) * K.toNat))
  writeSpan accBytes 0 (4 * K.toNat)

/-- What a dense projection is quantized to. -/
inductive Kind
  | nf4 | int8 | int4g
  deriving DecidableEq

/-- The group a row is cut into. -/
def Kind.group (kind : Kind) (K : ℤ) : ℤ :=
  match kind with
  | .nf4 => 64
  | .int8 => K
  | .int4g => 128

/-- The bytes of the codes of a row. -/
def Kind.codeBytes (kind : Kind) (K : ℤ) : ℤ := if kind = .int8 then K else K.tdiv 2

/-- The bytes of the scales of a row in `ng` groups. -/
def Kind.scaleBytes (kind : Kind) (ng : ℤ) : ℤ := if kind = .int8 then 4 else ng * 2

/-- `kind`. -/
def kindOf (q : LoadQuant) : Kind :=
  match q with
  | .nf4 => .nf4
  | .int8 | .w8a8 => .int8
  | _ => .int4g

/-- The stores of a quantizer, for the rows of block `b`. -/
def quantizeRows (kind : Kind) (K ng r0 rows codes sc mn zr : ℕ) : Checked Unit := do
  let cb := (kind.codeBytes K).toNat
  let sb := (kind.scaleBytes ng).toNat
  writeSpan codes (r0 * cb) ((r0 + rows) * cb)
  writeSpan sc (r0 * sb) ((r0 + rows) * sb)
  if kind = .int4g then do
    writeSpan mn (r0 * sb) ((r0 + rows) * sb)
    writeSpan zr (r0 * ng) ((r0 + rows) * ng)
  else pure ()

/-- `load_dense_weight`, from the choice of `kind` on. -/
def quantizeDense (e : Entry) (kind : Kind) (N K : ℤ) : Checked Unit := do
  within (kind.group K ≠ 0)
  check (K.tmod (kind.group K) = 0) .unsupported
  let ng := K.tdiv (kind.group K)
  let codes ← alloc W (N * kind.codeBytes K)
  let sc ← alloc W (N * kind.scaleBytes ng)
  let mn ← allocIf W (kind = .int4g) (N * kind.scaleBytes ng)
  let zr ← allocIf W (kind = .int4g) (N * ng)
  let tmp ← alloc W (W.threads * 8 * K * 4)
  (List.range (rowBlocks 8 N)).forM fun b => do
    readRows e K.toNat (b * 8) (blockRows 8 N b) (W.thread b) tmp
    quantizeRows kind K.toNat ng.toNat (b * 8) (blockRows 8 N b) codes sc mn zr

/-- `load_dense_weight`. -/
def loadDenseWeight (e : Entry) (N K : ℤ) : Checked Unit := do
  settled (checkShape e N K)
  if L.quant = .auto ∨ L.quant = .none then loadF16 W e
  else quantizeDense W e (kindOf L.quant) N K

/-! ### Projections -/

/-- The bias of a projection. -/
def loadBias (base : List UInt8) (N : ℤ) (wantBias f32 : Bool) : Checked Unit :=
  match L.find (base ++ literal ".bias") with
  | some e => do
      settled (checkShape e N 0)
      if f32 then loadF32 W e else loadF16 W e
  | none => check (wantBias = false) .weightMissing

/-- The ternary codes of BitNet's latent weights. -/
def loadTernary (name : List UInt8) (N K : ℤ) : Checked Unit := do
  let e ← need L name .weightMissing
  check (e.info.dtype = .f32) .modelFormat
  settled (checkShape e N K)
  check (K.tmod 128 = 0) .unsupported
  let codes ← alloc W (N * K % 2 ^ 64 / 4)
  check (0 < N ∧ 0 < K) .invalidArg
  readSpan e 0 (N.toNat * K.toNat * 4)
  writeSpan codes 0 (N.toNat * K.toNat / 128 * 32)

/-- The NF4 codes and scales of a projection. -/
def loadNf4 (name : List UInt8) (e : Entry) (N K : ℤ) : Checked Unit := do
  check (L.quant = .auto ∨ L.quant = .nf4) .unsupported
  check (K.tmod 64 = 0 ∧ (count e : ℤ) = N * K % 2 ^ 64 / 2) .shapeMismatch
  let _ ← loadRaw W e
  loadNf4Scales W L name (N * K % 2 ^ 64 / 64).toNat

/-- A compressed-tensors projection, for what it reads and writes. -/
def loadCt (base : List UInt8) (c : Container) (N K : ℤ) : Checked Unit := do
  let _ ← loadCtWeight W.heap W.fl L.toState base c N K
  pure ()

/-- An AWQ or GPTQ projection, where the format admits it. -/
def loadPacked (base : List UInt8) (N K : ℤ) : Checked Unit := do
  let _ ← need L (base ++ literal ".qweight") .weightMissing
  check (L.quant = .auto ∨ L.quant = .int4 ∨ L.quant = .w4a8) .unsupported
  loadAwqWeight W L base N K

/-- The weight of a projection, in whatever form the file holds it. -/
def loadWeight (base : List UInt8) (N K : ℤ) : Checked Unit :=
  match L.find (base ++ literal ".weight") with
  | some e =>
    if e.info.dtype = .u8 then loadNf4 W L (base ++ literal ".weight") e N K
    else if e.info.dtype.isFloat then loadDenseWeight W L e N K
    else if h : e.info.dtype = .i8 then loadCt W L base (.int e h) N K
    else throw .unsupported
  | none =>
    match L.find (base ++ literal ".weight_packed") with
    | some e => loadCt W L base (.packed e) N K
    | none => loadPacked W L base N K

/-- `load_projection`. -/
def loadProjection (layer : ℕ) (which : String) (N K : ℤ) (wantBias : Bool) : Checked Unit := do
  let base := layerName L layer ++ literal which
  if L.bitnet then do
    loadTernary W L (base ++ literal ".weight") N K
    loadBias W L base N wantBias true
  else do
    loadWeight W L base N K
    loadBias W L base N wantBias false

/-! ### SmoothQuant -/

/-- The column ranges of some projections of `K` channels, into `wmax`. -/
def columnRanges (layer : ℕ) (ws : List (String × ℤ)) (K : ℤ) (wmax : ℕ) : Checked Unit := do
  writeSpan wmax 0 (4 * K.toNat)
  ws.forM fun w => denseColAbsmax W L layer w.1 w.2 K wmax

/-- `n` factors of one layer, in the scratch from place `lo` on. -/
def putFactors (scratch lo n : ℕ) : Checked Unit := writeSpan scratch (4 * lo) (4 * (lo + n))

/-- `smooth_layer`, into the scratch of the factors and of the column ranges. -/
def smoothLayer (maps : SmoothMaps) (scratch wmax layer : ℕ) : Checked Unit := do
  let hs := cfg.hiddenSize.toNat
  let kvd := cfg.kvDim.toNat
  let qd := cfg.qDim.toNat
  onlyIf maps.qkv do
    columnRanges W L layer [("self_attn.q_proj", cfg.qDim), ("self_attn.k_proj", cfg.kvDim),
      ("self_attn.v_proj", cfg.kvDim)] cfg.hiddenSize wmax
    putFactors scratch 0 hs
  onlyIf maps.gateUp do
    columnRanges W L layer [("mlp.gate_proj", cfg.intermediateSize),
      ("mlp.up_proj", cfg.intermediateSize)] cfg.hiddenSize wmax
    putFactors scratch hs hs
  onlyIf maps.vo do
    columnRanges W L layer [("self_attn.o_proj", cfg.hiddenSize)] cfg.qDim wmax
    putFactors scratch (2 * hs) kvd
    putFactors scratch (2 * hs + kvd) qd
  onlyIf maps.upDown do
    columnRanges W L layer [("mlp.down_proj", cfg.hiddenSize)] cfg.intermediateSize wmax
    putFactors scratch (2 * hs + kvd + qd) cfg.intermediateSize.toNat

/-! ### The language model -/

/-- The projections of a layer, with their rows and channels and whether a bias is wanted. -/
def projections : List (String × ℤ × ℤ × Bool) :=
  let hs := cfg.hiddenSize
  let qd := cfg.qDim
  let kvd := cfg.kvDim
  let inter := cfg.intermediateSize
  let bias := cfg.attentionBias
  [("self_attn.q_proj", qd, hs, bias), ("self_attn.k_proj", kvd, hs, bias),
    ("self_attn.v_proj", kvd, hs, bias), ("self_attn.o_proj", hs, qd, false),
    ("mlp.gate_proj", inter, hs, false), ("mlp.up_proj", inter, hs, false),
    ("mlp.down_proj", hs, inter, false)]

/-- One turn of the loop of `load_layers`. -/
def loadLayer (smooth : Checked Unit) (layer : ℕ) : Checked Unit := do
  smooth
  needNorm W L (layerName L layer ++ literal "input_layernorm.weight") cfg.hiddenSize
  needNorm W L (layerName L layer ++ literal "post_attention_layernorm.weight") cfg.hiddenSize
  (projections cfg).forM fun p => loadProjection W L layer p.1 p.2.1 p.2.2.1 p.2.2.2

/-- The loop of `load_layers`, the scratch of SmoothQuant in front of it. -/
def loadAllLayers : Checked Unit :=
  match L.smooth with
  | none => (List.range cfg.numHiddenLayers.toNat).forM (loadLayer W L cfg (pure ()))
  | some (_, maps) => do
      let scratch ← alloc W
        ((2 * cfg.hiddenSize + cfg.kvDim + cfg.qDim + cfg.intermediateSize) * 4)
      let wmax ← alloc W (max (max cfg.hiddenSize cfg.qDim) cfg.intermediateSize * 4)
      (List.range cfg.numHiddenLayers.toNat).forM fun layer =>
        loadLayer W L cfg (smoothLayer W L cfg maps scratch wmax layer) layer

/-- `load_layers`. -/
def loadLayers : Checked Unit := do
  check (L.find (layerName L cfg.numHiddenLayers.toNat ++ literal "input_layernorm.weight") = none)
    .shapeMismatch
  loadAllLayers W L cfg

/-- One block of rows of `vv_bitnet_head_i8`, where there is memory for it. -/
def headBlock (e : Entry) (V K : ℤ) (q sc b : ℕ) : Checked Unit :=
  let r0 := b * 256
  let rows := blockRows 256 V b
  if W.heap.allocates (rows * K * 4) then do
    readSpan e (4 * (r0 * K.toNat)) (4 * ((r0 + rows) * K.toNat))
    writeSpan (blockSize (rows * K * 4)) 0 (4 * (rows * K.toNat))
    writeSpan q (r0 * K.toNat) ((r0 + rows) * K.toNat)
    writeSpan sc (4 * r0) (4 * (r0 + rows))
  else pure ()

/-- `vv_bitnet_head_i8`, of an F32 table; `tmp` fails where one of its blocks has. -/
def bitnetHeadI8 (e : Entry) (V K : ℤ) : Checked Unit := do
  let q ← alloc W (V * K)
  let sc ← alloc W (V * 4)
  (List.range (rowBlocks 256 V)).forM (headBlock W e V K q sc)
  check (∀ b ∈ List.range (rowBlocks 256 V), W.heap.allocates (blockRows 256 V b * K * 4))
    .outOfMemory

/-- The head that shares the embedding table. -/
def tiedHead : Checked Unit :=
  if L.bitnet && L.headInt8 then do
    let e ← need L (L.lmRoot ++ literal "embed_tokens.weight") .modelFormat
    check (e.info.dtype = .f32) .modelFormat
    bitnetHeadI8 W e cfg.vocabSize cfg.hiddenSize
  else pure ()

/-- `find_suffix`. -/
def findSuffix (tail : List UInt8) : Option Entry :=
  L.entries.find? fun e => decide (tail <:+ e.info.name)

/-- A head of its own. -/
def ownHead : Checked Unit :=
  match (L.find (literal "lm_head.weight")).orElse fun _ => findSuffix L (literal ".lm_head.weight")
    with
  | none => throw .weightMissing
  | some e => do
      settled (checkShape e cfg.vocabSize cfg.hiddenSize)
      loadF16 W e

/-- `load_lm_globals`. -/
def loadLmGlobals : Checked Unit := do
  needF16 W L (L.lmRoot ++ literal "embed_tokens.weight") cfg.vocabSize cfg.hiddenSize
  needNorm W L (L.lmRoot ++ literal "norm.weight") cfg.hiddenSize
  if cfg.tieWordEmbeddings then tiedHead W L cfg else ownHead W L cfg

/-! ### The speech front end -/

/-- One tensor of `load_connector`. -/
def connectorPart (which : String) (p : String × ℤ × ℤ × Bool) : Checked Unit :=
  match findSuffix L (literal which ++ literal "." ++ literal p.1) with
  | none => check (p.2.2.2 = false) .weightMissing
  | some e => do
      settled (checkShape e p.2.1 p.2.2.1)
      loadF32 W e

/-- `load_connector`. -/
def loadConnector (which : String) (vaeDim : ℤ) : Checked Unit :=
  let hs := cfg.hiddenSize
  [("fc1.weight", hs, vaeDim, true), ("fc1.bias", hs, 0, false), ("norm.weight", hs, 0, true),
    ("fc2.weight", hs, hs, true), ("fc2.bias", hs, 0, false)].forM (connectorPart W L which)

/-- `load_encoder`. -/
def loadEncoder (which : String) : Checked Unit := do
  let es := L.entries.filter fun e => decide (literal which <:+: e.info.name)
  check (es ≠ []) .weightMissing
  es.forM (loadF32 W)

/-! ### BitNet's int8 encoder -/

/-- `o`, `in` and `k`. -/
def i8Dims (e : Entry) : Checked (ℤ × ℤ × ℤ) :=
  match e.info.shape with
  | [o, i, k] => pure (toInt32 o.toInt, toInt32 i.toInt, toInt32 k.toInt)
  | [o, i] => pure (toInt32 o.toInt, toInt32 i.toInt, 1)
  | _ => throw .modelFormat

/-- `vv_i8vae_own`, for the size of the block. -/
def own (size : ℤ) : Checked ℕ := alloc W (if size % 2 ^ 64 = 0 then 1 else size)

/-- `vv_i8vae_layer_from_q` of kernels without padding. -/
def layerFromQ (eb : Entry) (o i k : ℤ) : Checked Unit := do
  check (1 ≤ k) .shapeMismatch
  let w ← own W (o * k * i)
  let b ← own W (o * 4)
  readSpan eb 0 (4 * o.toNat)
  writeSpan b 0 (4 * o.toNat)
  writeSpan w 0 (o.toNat * k.toNat * i.toNat)

/-- `i8_layer_st`, for the output channels. -/
def i8LayerSt (wname bname : List UInt8) (depthwise : Bool) : Checked ℤ := do
  let ew ← need L wname .weightMissing
  let eb ← need L bname .weightMissing
  check (ew.info.dtype = .f32 ∧ eb.info.dtype = .f32) .weightMissing
  settled (checkBytes ew)
  settled (checkBytes eb)
  let (o, i, k) ← i8Dims ew
  check ((numelOf eb.info).toInt = o) .shapeMismatch
  let n := (o * i * k).bmod (2 ^ 64)
  let q ← alloc W n
  readSpan ew 0 (4 * n.toNat)
  writeSpan q 0 n.toNat
  layerFromQ W eb o (if depthwise then 1 else i) k
  pure o

/-- `f32_st` and the copy of what it finds. -/
def copyF32St (name : List UInt8) (n : ℤ) : Checked Unit := do
  let e ← need L name .weightMissing
  check (e.info.dtype = .f32 ∧ (numelOf e.info).toInt = n ∧ bytesOk e) .weightMissing
  let cap ← own W (n * 4)
  readSpan e 0 (4 * n.toNat)
  writeSpan cap 0 (4 * n.toNat)

/-- A block of a stage, of `C` channels. -/
def i8Block (C : ℤ) (pre : List UInt8) : Checked Unit := do
  let _ ← i8LayerSt W L (pre ++ literal "mixer.conv.conv.conv.weight")
    (pre ++ literal "mixer.conv.conv.conv.bias") true
  let _ ← i8LayerSt W L (pre ++ literal "ffn.linear1.weight") (pre ++ literal "ffn.linear1.bias")
    false
  let _ ← i8LayerSt W L (pre ++ literal "ffn.linear2.weight") (pre ++ literal "ffn.linear2.bias")
    false
  ["norm.weight", "gamma", "ffn_norm.weight", "ffn_gamma"].forM fun part =>
    copyF32St W L (pre ++ literal part) C

/-- Stage `i` of a tower, of `depth` blocks. -/
def i8Stage (tower : List UInt8) (depth : ℤ) (i : ℕ) : Checked Unit := do
  let ds := tower ++ literal "downsample_layers." ++ literal (toString i) ++
    literal ".0.conv.conv."
  let C ← i8LayerSt W L (ds ++ literal "weight") (ds ++ literal "bias") false
  (List.range depth.toNat).forM fun b =>
    i8Block W L C (tower ++ literal "stages." ++ literal (toString i) ++ literal "." ++
      literal (toString b) ++ literal ".")

/-- A tower of `load_i8vae_st` and its connector. -/
def i8Tower (p : String) (depths : List ℤ) : Checked Unit := do
  check (1 ≤ depths.length ∧ depths.length ≤ 8) .modelFormat
  let tower := literal "model." ++ literal p ++ literal "_tokenizer.encoder."
  depths.zipIdx.forM fun d => i8Stage W L tower d.1 d.2
  let _ ← i8LayerSt W L (tower ++ literal "head.conv.conv.weight")
    (tower ++ literal "head.conv.conv.bias") false
  let connector := literal "model." ++ literal p ++ literal "_connector."
  let C ← i8LayerSt W L (connector ++ literal "fc1.weight") (connector ++ literal "fc1.bias") false
  let _ ← i8LayerSt W L (connector ++ literal "fc2.weight") (connector ++ literal "fc2.bias") false
  copyF32St W L (connector ++ literal "norm.weight") C

/-- `load_i8vae_st`. -/
def loadI8vaeSt : Checked Unit := do
  i8Tower W L "acoustic" cfg.acousticDepths
  i8Tower W L "semantic" cfg.semanticDepths

/-! ### The whole load -/

/-- The connectors and encoders in FP32. -/
def loadFrontEnd : Checked Unit := do
  loadConnector W L cfg "acoustic_connector" cfg.acousticVaeDim
  loadConnector W L cfg "semantic_connector" cfg.semanticVaeDim
  loadEncoder W L "acoustic_tokenizer.encoder."
  loadEncoder W L "semantic_tokenizer.encoder."

/-- The checks of the calibration statistics. -/
def checkSmooth : Checked Unit :=
  match L.smooth with
  | none => pure ()
  | some (st, _) => do
      check (L.quant ≠ .auto ∧ L.quant ≠ .none) .invalidArg
      check (st.layers = cfg.numHiddenLayers ∧ st.hidden = cfg.hiddenSize ∧ st.qDim = cfg.qDim ∧
        st.inter = cfg.intermediateSize) .shapeMismatch

/-- `model_load_impl`, from the index of the shards on. -/
def loadModel : Checked Unit := do
  checkSmooth L cfg
  loadLmGlobals W L cfg
  loadLayers W L cfg
  if L.bitnet && L.vaeInt8 then loadI8vaeSt W L cfg else loadFrontEnd W L cfg

end Routines

end VibeVoice.Loader
