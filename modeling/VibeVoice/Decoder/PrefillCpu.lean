import VibeVoice.Decoder.Workspace
import VibeVoice.Lib.Carve
import VibeVoice.Lib.Lanes

/-!
The workspace of a prefill on the CPU (`decoder.c`, `bitnet_lm.c`).

A call is modelled by the buffers in the workspace it runs beside. A kernel may fail with any
status. `attn_out` is laid out at `hidden_size` floats a token and filled at those of a query.

* `genericOps`, `bitnetOps`: the checks and the calls of a layer.
* `prefillCpu`: those of a prefill, chunk by chunk.
* `prefillCpu_keeps_iff`: what it takes that no run outgrows the workspace.
-/

namespace VibeVoice.Prefill

open Carve

/-! ### A layer -/

section Layer

variable (c : Config)

/-- Floats of the workspace. -/
def floats (start n : ℕ) : Span := ⟨4 * start, 4 * n⟩

/-- The buffers of `decoder_layer_cpu`: `norm_out`, `q_buf`, `k_buf`, `v_buf`, `attn_out`,
`gate_buf`, `up_buf` and `mlp_out`. -/
def layerSpans (T : ℕ) : List Span :=
  let q := T * c.hiddenSize
  let k := q + T * c.qDim
  let v := k + T * c.kvDim
  let attn := v + T * c.kvDim
  let gate := attn + T * c.hiddenSize
  let up := gate + T * c.intermediateSize
  let mlp := up + T * c.intermediateSize
  [floats 0 (T * c.hiddenSize), floats q (T * c.qDim), floats k (T * c.kvDim),
    floats v (T * c.kvDim), floats attn (T * c.qDim), floats gate (T * c.intermediateSize),
    floats up (T * c.intermediateSize), floats mlp (T * c.hiddenSize)]

/-- The int8 activations of a token, in floats. -/
def a8Width : ℕ := c.a8Kmax / 4 + 1 + c.a8Kmax / 32

/-- `need`, in floats. -/
def layerNeed (a8 : Bool) (T : ℕ) : ℕ := T * c.tokenWidth + if a8 then T * a8Width c + 64 else 0

/-- `a8_xq`, `a8_sx` and `a8_xs`, filled from rows of `K`. -/
def a8Spans (T K : ℕ) : List Span :=
  let base := T * c.tokenWidth
  let sx := base + T * (c.a8Kmax / 4)
  [⟨4 * base, T * K⟩, floats sx T, floats (sx + T) (T * (K / 32))]

/-- `cpu_proj` of a width, with what is left behind the buffers of the layer. -/
def cpuProj (T ws K : ℕ) (w : Weight) : List (Op Status) :=
  let need := layerNeed c false T
  let gatherN := ws / 4 - need
  let gather := floats need (T * K)
  let kernel :=
    if w.quantKind = .ternary then
      [.check (!w.perm && (T * K + 3) / 4 + T ≤ gatherN) .overflow,
        .call (layerSpans c T ++ [floats need T, ⟨4 * (need + T), T * K⟩])]
    else [.call (layerSpans c T ++ if w.perm then [gather] else [])]
  if w.perm then
    .check (T * K ≤ gatherN) .overflow :: .call (layerSpans c T ++ [gather]) :: kernel
  else kernel

/-- `CPU_Q8` and the `CPU_PROJ` behind it: the projections of one input. -/
def inputOps (a8 : Bool) (T ws K : ℕ) (projections : List Weight) : List (Op Status) :=
  if a8 then
    let calls := .call (layerSpans c T ++ a8Spans c T K)
    -- `vv_quant_act_q8_cpu` only takes rows of whole groups
    .guard (K % 32 = 0) .invalidArg :: calls :: projections.map fun _ => calls
  else projections.flatMap (cpuProj c T ws K)

/-- `decoder_layer_cpu` of a layer that is not BitNet's. -/
def genericOps (L : Layer) (T ws : ℕ) : List (Op Status) :=
  let a8 := layerA8 L c false
  let kernel := .call (layerSpans c T)
  [[.check (4 * layerNeed c a8 T ≤ ws) .outOfMemory, kernel],
    inputOps c a8 T ws c.hiddenSize [L.qProj, L.kProj, L.vProj],
    [kernel, .commit (layerSpans c T), kernel],
    inputOps c a8 T ws c.qDim [L.oProj],
    [kernel],
    inputOps c a8 T ws c.hiddenSize [L.gateProj, L.upProj],
    [kernel],
    inputOps c a8 T ws c.intermediateSize [L.downProj]].flatten

/-! ### A BitNet layer -/

/-- `attn_scratch`, in floats. -/
def attnScratch (kv hd : ℕ) : ℕ := (kv + 31) / 32 * 32 + hd * 33 + 16

/-- The widest row that is quantized. -/
def bitnetWide : ℕ :=
  let wide := if c.qDim < c.intermediateSize then c.intermediateSize else c.qDim
  if c.hiddenSize < wide then wide else c.hiddenSize

/-- `vv_bitnet_layer_cpu_bytes` on `nt` threads. -/
def bitnetLayerCpuBytes (nt T kvMax : ℕ) : ℕ :=
  4 * (T * (c.hiddenSize + c.qDim + 2 * c.kvDim + c.qDim + 2 * c.intermediateSize) + T * 2 +
    nt * attnScratch kvMax c.headDim) + T * bitnetWide c + 256

/-- What a thread of `attention` writes: the scores, the query and its accumulators. -/
def workerFloats (T kv : ℕ) : ℕ :=
  let nc := if T = 1 then (kv + 31) / 32 * 32 else (kv + 7) / 8 * 8
  nc + c.headDim + (if T = 1 then 32 else 8) * c.headDim

/-- The buffers of `vv_bitnet_layer_cpu`: `norm`, `qb`, `kb`, `vb`, `att`, `gate`, `up`, `sc` and
the spare floats behind it, `ascr` for each thread, and `q8`. -/
def bitnetSpans (nt T kv : ℕ) : List Span :=
  let sizes := [c.hiddenSize, c.qDim, c.kvDim, c.kvDim, c.qDim, c.intermediateSize,
    c.intermediateSize, 1, 1].map fun width => 4 * (T * width)
  let per := attnScratch kv c.headDim
  let ascr := sizes.sum
  carve 0 sizes ++
    (List.range nt).map (fun i => ⟨ascr + 4 * (i * per), 4 * workerFloats c T kv⟩) ++
    [⟨ascr + 4 * (nt * per), T * bitnetWide c⟩]

/-- The head sizes `vv_bitnet_layer_cpu` takes. -/
def bitnetShape : Bool :=
  c.headDim % 32 = 0 && c.headDim ≤ 512 && c.numAttentionHeads % c.numKeyValueHeads = 0

/-- `vv_act_quant_i8_cpu`, and `tproj` of each projection. -/
def projectOps (spans : List Span) (projections : List Weight) : List (Op Status) :=
  .call spans :: projections.flatMap fun w =>
    [.guard (w.quantKind = .ternary) .unsupported, .call spans]

/-- `vv_bitnet_layer_cpu`. -/
def bitnetOps (nt : ℕ) (L : Layer) (pos T ws : ℕ) : List (Op Status) :=
  let spans := bitnetSpans c nt T (pos + T)
  let kernel := .call spans
  [[.guard (bitnetShape c) .unsupported,
      .check (bitnetLayerCpuBytes c nt T (pos + T) ≤ ws) .outOfMemory, kernel],
    projectOps spans [L.qProj, L.kProj, L.vProj],
    [kernel, .commit spans, kernel],
    projectOps spans [L.oProj],
    [kernel],
    projectOps spans [L.upProj, L.gateProj],
    [kernel],
    projectOps spans [L.downProj]].flatten

/-- `decoder_layer_cpu`. -/
def decoderLayerCpu (nt : ℕ) (L : Layer) (pos T ws : ℕ) : List (Op Status) :=
  if L.qProj.quantKind = .ternary then bitnetOps c nt L pos T ws else genericOps c L T ws

end Layer

/-! ### The prefill -/

namespace Model

variable (m : Model)

/-- `model_has_act_order`. -/
def hasActOrder : Bool := m.layers.any fun L => L.projections.any Weight.perm

/-- `any_a8`. -/
def anyA8 : Bool := m.layers.any fun L => layerA8 L m.config false

/-- A row for the gathered input of an act-order projection, in floats. -/
def gatherWidth : ℕ :=
  if m.hasActOrder then
    if m.config.hiddenSize < m.config.intermediateSize then m.config.intermediateSize
    else m.config.hiddenSize
  else 0

/-- `per_token`. -/
def perToken : ℕ :=
  4 * m.config.tokenWidth + 4 * m.gatherWidth +
    if m.anyA8 then 4 * a8Width m.config + 64 else 0

/-- The first layer is BitNet's. -/
def bitnetFirst : Bool :=
  match m.layers with
  | [] => false
  | L :: _ => L.qProj.quantKind = .ternary

/-- `fit`, before it is cut to 2048. -/
def fit (nt kvEnd ws : ℕ) : ℕ :=
  if m.bitnetFirst then
    let fixed := bitnetLayerCpuBytes m.config nt 0 kvEnd
    let per := bitnetLayerCpuBytes m.config nt 1 kvEnd - fixed
    if fixed < ws then (ws - fixed) / per else 0
  else ws / m.perToken

/-- The layers of each chunk, with where it starts. -/
def layerCalls (seqLen chunk : ℕ) : List (ℕ × Layer) :=
  (Lanes.starts seqLen chunk).product m.layers

end Model

/-- The length of the chunk that starts somewhere. -/
def chunkLen (seqLen chunk start : ℕ) : ℕ :=
  if start + chunk ≤ seqLen then chunk else seqLen - start

/-- `vv_decoder_prefill_cpu`, on `nt` threads, for a cache of `maxLen` positions that holds
`cur`. -/
def prefillCpu (m : Model) (nt cur maxLen ws : ℕ) (seqLen : ℤ) :
    Except Status (List (Op Status)) :=
  if seqLen ≤ 0 then .error .invalidArg
  else
    let seqLen := seqLen.toNat
    let fit := m.fit nt (cur + seqLen) ws
    if fit < 1 then .error .outOfMemory
    else
      let fit := if 2048 < fit then 2048 else fit
      let chunk := if fit < seqLen then fit else seqLen
      if maxLen < cur + seqLen then .error .overflow
      else .ok ((m.layerCalls seqLen chunk).flatMap fun call =>
        decoderLayerCpu m.config nt call.2 (cur + call.1) (chunkLen seqLen chunk call.1) ws)

/-! ### The buffers of a layer -/

section Spans

variable {c : Config} {T ws K : ℕ}

lemma mul_tokenWidth : T * c.tokenWidth = 3 * (T * c.hiddenSize) + T * c.qDim +
    2 * (T * c.kvDim) + 2 * (T * c.intermediateSize) := by
  rw [Config.tokenWidth]
  ring

/-- The buffers of a layer are sound where a query is no wider than the hidden state. -/
lemma sound_layerSpans (h : 4 * (T * c.tokenWidth) ≤ ws) (hq : c.qDim ≤ c.hiddenSize) :
    Sound ws (layerSpans c T) := by
  have hwidth := mul_tokenWidth (c := c) (T := T)
  have hattn : T * c.qDim ≤ T * c.hiddenSize := Nat.mul_le_mul_left T hq
  have hcarve : Sound ws (carve 0 ([T * c.hiddenSize, T * c.qDim, T * c.kvDim, T * c.kvDim,
      T * c.hiddenSize, T * c.intermediateSize, T * c.intermediateSize,
      T * c.hiddenSize].map (4 * ·))) := by
    refine sound_carve ?_
    simp only [List.map_cons, List.map_nil, List.sum_cons, List.sum_nil]
    omega
  refine hcarve.shrink ?_
  simp only [layerSpans, carve, floats, List.map_cons, List.map_nil, List.forall₂_cons,
    List.forall₂_nil_right_iff, and_true, true_and]
  omega

/-- Where a query is wider, `attn_out` runs into `gate_buf`. -/
lemma qDim_le_of_sound (hT : 0 < T) (h : Sound ws (layerSpans c T)) : c.qDim ≤ c.hiddenSize := by
  have hapart := h.apart
  simp only [layerSpans, List.pairwise_cons] at hapart
  obtain ⟨-, -, -, -, hattn, -⟩ := hapart
  have hgate := hattn _ List.mem_cons_self
  simp only [Span.Apart, Span.stop, floats] at hgate
  have hq := Nat.mul_pos hT c.qDim_pos
  have hinter := Nat.mul_pos hT c.inter_pos
  exact Nat.le_of_mul_le_mul_left (by omega : T * c.qDim ≤ T * c.hiddenSize) hT

/-- Other buffers behind those of the layer. -/
lemma sound_behind (h : 4 * (T * c.tokenWidth) ≤ ws) (hq : c.qDim ≤ c.hiddenSize) (sizes : List ℕ)
    {rest : List Span} (hsizes : 4 * (T * c.tokenWidth) + sizes.sum ≤ ws)
    (hrest : List.Forall₂ (fun s' s : Span => s'.start = s.start ∧ s'.bytes ≤ s.bytes) rest
      (carve (4 * (T * c.tokenWidth)) sizes)) :
    Sound ws (layerSpans c T ++ rest) := by
  refine (sound_layerSpans h hq).append ((sound_carve hsizes).shrink hrest)
    (sound_layerSpans le_rfl hq).inside fun s hs => ?_
  obtain ⟨s', hs', hstart, -⟩ := exists_of_forall₂ hrest hs
  exact hstart ▸ (carve_within hs').1

/-- Floats behind the buffers of a layer. -/
lemma sound_floats (h : 4 * (T * c.tokenWidth) ≤ ws) (hq : c.qDim ≤ c.hiddenSize) {n : ℕ}
    (hn : n ≤ ws / 4 - T * c.tokenWidth) :
    Sound ws (layerSpans c T ++ [floats (T * c.tokenWidth) n]) := by
  refine sound_behind h hq [4 * n] ?_ ?_
  · simp only [List.sum_cons, List.sum_nil]
    omega
  · simp [carve, floats]

/-- The int8 activations behind the buffers of a layer, from rows of whole groups. -/
lemma sound_a8Spans (h : 4 * layerNeed c true T ≤ ws) (hq : c.qDim ≤ c.hiddenSize)
    (hdvd : K % 32 = 0) (hK : K ≤ c.a8Kmax) : Sound ws (layerSpans c T ++ a8Spans c T K) := by
  rw [layerNeed, if_pos rfl, a8Width] at h
  have hneed : T * (c.a8Kmax / 4 + 1 + c.a8Kmax / 32) =
      T * (c.a8Kmax / 4) + T + T * (c.a8Kmax / 32) := by ring
  have hcodes : T * K ≤ T * (4 * (c.a8Kmax / 4)) := Nat.mul_le_mul_left T (by omega)
  have hsums : T * (K / 32) ≤ T * (c.a8Kmax / 32) :=
    Nat.mul_le_mul_left T (Nat.div_le_div_right hK)
  have hfour : T * (4 * (c.a8Kmax / 4)) = 4 * (T * (c.a8Kmax / 4)) := by ring
  refine sound_behind (by omega) hq
    [4 * (T * (c.a8Kmax / 4)), 4 * T, 4 * (T * (c.a8Kmax / 32))] ?_ ?_
  · simp only [List.sum_cons, List.sum_nil]
    omega
  · simp only [a8Spans, carve, floats, List.forall₂_cons, List.forall₂_nil_right_iff,
      and_true, true_and]
    omega

end Spans

/-! ### The steps of a layer -/

/-- What a projection gathers fits into what is left. -/
def Weight.Fits (T K left : ℕ) (w : Weight) : Prop :=
  (w.perm = true → T * K ≤ left) ∧
    (w.quantKind = .ternary → w.perm = false ∧ (T * K + 3) / 4 + T ≤ left)

/-- The projections of a layer with their widths. -/
def Layer.inputs (L : Layer) (c : Config) : List (Weight × ℕ) :=
  [(L.qProj, c.hiddenSize), (L.kProj, c.hiddenSize), (L.vProj, c.hiddenSize),
    (L.oProj, c.qDim), (L.gateProj, c.hiddenSize), (L.upProj, c.hiddenSize),
    (L.downProj, c.intermediateSize)]

section Steps

variable {c : Config} {L : Layer} {nt pos T ws K : ℕ} {w : Weight}

lemma clean_cpuProj (h : 4 * (T * c.tokenWidth) ≤ ws) (hq : c.qDim ≤ c.hiddenSize) :
    Clean ws (cpuProj c T ws K w) ↔ w.Fits T K (ws / 4 - T * c.tokenWidth) := by
  have hbase := sound_layerSpans h hq
  have hgather : T * K ≤ ws / 4 - T * c.tokenWidth →
      Sound ws (layerSpans c T ++ [floats (T * c.tokenWidth) (T * K)]) := sound_floats h hq
  have hrows : (T * K + 3) / 4 + T ≤ ws / 4 - T * c.tokenWidth →
      Sound ws (layerSpans c T ++
        [floats (T * c.tokenWidth) T, ⟨4 * (T * c.tokenWidth + T), T * K⟩]) := by
    intro hroom
    refine sound_behind h hq [4 * T, T * K] ?_ ?_
    · simp only [List.sum_cons, List.sum_nil]
      omega
    · simp only [carve, floats, List.forall₂_cons, List.forall₂_nil_right_iff, and_true, true_and]
      omega
  rw [cpuProj, Weight.Fits, layerNeed]
  by_cases hkind : w.quantKind = .ternary <;> cases hperm : w.perm <;>
    simp [hkind, hbase] <;> tauto

lemma open_cpuProj : Open (cpuProj c T ws K w) := by
  rw [cpuProj]
  by_cases hkind : w.quantKind = .ternary <;> cases hperm : w.perm <;> simp [hkind]

/-- The projections of an input, where the layer's check has passed. -/
lemma clean_inputOps (h : 4 * layerNeed c (layerA8 L c false) T ≤ ws) (hq : c.qDim ≤ c.hiddenSize)
    (hK : K ≤ c.a8Kmax) (ps : List Weight) :
    Clean ws (inputOps c (layerA8 L c false) T ws K ps) ↔
      (layerA8 L c false = false → ∀ w ∈ ps, w.Fits T K (ws / 4 - T * c.tokenWidth)) := by
  rw [inputOps]
  cases ha : layerA8 L c false with
  | true =>
    rw [ha] at h
    have hcalls : ∀ l : List Weight, K % 32 = 0 → Clean ws (l.map fun _ =>
        (.call (layerSpans c T ++ a8Spans c T K) : Op Status)) := by
      intro l hdvd
      induction l with
      | nil => trivial
      | cons w l ih => exact ⟨sound_a8Spans h hq hdvd hK, ih⟩
    simp only [reduceIte, clean_guard, clean_call, decide_eq_true_eq]
    exact ⟨fun _ hfalse => absurd hfalse (by simp),
      fun _ hdvd => ⟨sound_a8Spans h hq hdvd hK, hcalls ps hdvd⟩⟩
  | false =>
    rw [ha, layerNeed, if_neg (by simp), Nat.add_zero] at h
    simp only [Bool.false_eq_true, reduceIte, forall_const]
    rw [clean_flatMap]
    constructor
    · intro hall w hw
      obtain ⟨front, rest, hsplit⟩ := List.append_of_mem hw
      exact (clean_cpuProj h hq).mp (hall front w rest hsplit fun _ _ => open_cpuProj)
    · intro hall front w rest hsplit _
      exact (clean_cpuProj h hq).mpr (hall w (hsplit ▸ by simp))

lemma open_inputOps {a8 : Bool} {ps : List Weight} :
    Open (inputOps c a8 T ws K ps) ↔ (a8 = true → K % 32 = 0) := by
  rw [inputOps]
  cases a8 with
  | true =>
    simp only [reduceIte, open_guard, open_call, decide_eq_true_eq, forall_const,
      and_iff_left_iff_imp]
    intro _ ok s hs
    obtain ⟨w, -, heq⟩ := List.mem_map.mp hs
    cases heq
  | false =>
    simp only [Bool.false_eq_true, reduceIte, false_imp_iff, iff_true]
    intro ok s hs
    obtain ⟨w, -, hw⟩ := List.mem_flatMap.mp hs
    exact open_cpuProj ok s hw

/-- The steps of a layer that is not BitNet's. -/
lemma clean_genericOps (hT : 0 < T) :
    Clean ws (genericOps c L T ws) ↔
      4 * layerNeed c (layerA8 L c false) T ≤ ws ∧ c.qDim ≤ c.hiddenSize ∧
        (layerA8 L c false = false →
          ∀ p ∈ L.inputs c, p.1.Fits T p.2 (ws / 4 - T * c.tokenWidth)) := by
  rw [genericOps]
  simp only [List.flatten_cons, List.flatten_nil, List.append_nil, clean_append, clean_check,
    clean_call, clean_commit, clean_nil, open_check, open_call, open_commit, open_nil,
    open_inputOps, and_true, true_imp_iff, decide_eq_true_eq]
  constructor
  · rintro ⟨⟨hneed, hbase⟩, hqkv, hrest⟩
    have hq := qDim_le_of_sound hT hbase
    refine ⟨hneed, hq, fun ha => ?_⟩
    have hhidden := fun ps => (clean_inputOps hneed hq c.hidden_le_a8Kmax ps).mp
    have hquery := fun ps => (clean_inputOps hneed hq c.qDim_le_a8Kmax ps).mp
    have hinter := fun ps => (clean_inputOps hneed hq c.inter_le_a8Kmax ps).mp
    rw [ha] at hqkv hrest hhidden hquery hinter
    simp only [Bool.false_eq_true, false_imp_iff, true_imp_iff] at hrest hhidden hquery hinter
    obtain ⟨-, ho, -, hgate, -, hdown⟩ := hrest
    have hqkv := hhidden _ hqkv
    have ho := hquery _ ho
    have hgate := hhidden _ hgate
    have hdown := hinter _ hdown
    simp only [List.mem_cons, List.not_mem_nil, or_false, forall_eq_or_imp, forall_eq] at *
    simp only [Layer.inputs, List.mem_cons, List.not_mem_nil, or_false, forall_eq_or_imp, forall_eq]
    tauto
  · rintro ⟨hneed, hq, hfits⟩
    have hbase : Sound ws (layerSpans c T) :=
      sound_layerSpans (by rw [layerNeed] at hneed; omega) hq
    simp only [Layer.inputs, List.mem_cons, List.not_mem_nil, or_false, forall_eq_or_imp,
      forall_eq] at hfits
    have hhidden := fun ps => (clean_inputOps hneed hq c.hidden_le_a8Kmax ps).mpr
    have hquery := fun ps => (clean_inputOps hneed hq c.qDim_le_a8Kmax ps).mpr
    have hinter := fun ps => (clean_inputOps hneed hq c.inter_le_a8Kmax ps).mpr
    have hqkv := hhidden [L.qProj, L.kProj, L.vProj] fun ha => by simp [hfits ha]
    have ho := hquery [L.oProj] fun ha => by simp [hfits ha]
    have hgate := hhidden [L.gateProj, L.upProj] fun ha => by simp [hfits ha]
    have hdown := hinter [L.downProj] fun ha => by simp [hfits ha]
    exact ⟨⟨hneed, hbase⟩, hqkv, fun _ => ⟨⟨hbase, hbase, hbase⟩, ho, fun _ => ⟨hbase, hgate,
      fun _ => ⟨hbase, hdown⟩⟩⟩⟩

lemma open_genericOps :
    Open (genericOps c L T ws) ↔ (layerA8 L c false = true →
      c.hiddenSize % 32 = 0 ∧ c.qDim % 32 = 0 ∧ c.intermediateSize % 32 = 0) := by
  rw [genericOps]
  simp only [List.flatten_cons, List.flatten_nil, List.append_nil, open_append, open_check,
    open_call, open_commit, open_nil, open_inputOps, true_and]
  tauto

/-- The buffers of a BitNet layer are sound where its own check passes. -/
lemma sound_bitnetSpans {kv : ℕ} (h : bitnetLayerCpuBytes c nt T kv ≤ ws) :
    Sound ws (bitnetSpans c nt T kv) := by
  rw [bitnetSpans]
  set sizes := [c.hiddenSize, c.qDim, c.kvDim, c.kvDim, c.qDim, c.intermediateSize,
    c.intermediateSize, 1, 1].map fun width => 4 * (T * width) with hsizes
  set per := attnScratch kv c.headDim with hper
  have hsum : 4 * (T * (c.hiddenSize + c.qDim + 2 * c.kvDim + c.qDim + 2 * c.intermediateSize) +
      T * 2) = sizes.sum := by
    simp only [hsizes, List.map_cons, List.map_nil, List.sum_cons, List.sum_nil]
    ring
  have hroom : sizes.sum + 4 * (nt * per) + T * bitnetWide c ≤ ws := by
    rw [bitnetLayerCpuBytes, ← hper] at h
    omega
  have hworker : workerFloats c T kv ≤ per := by
    rw [workerFloats, hper, attnScratch]
    split_ifs <;> omega
  have hworkers : List.Forall₂ (fun s' s : Span => s'.start = s.start ∧ s'.bytes ≤ s.bytes)
      ((List.range nt).map fun i => ⟨sizes.sum + 4 * (i * per), 4 * workerFloats c T kv⟩)
      (carve sizes.sum (List.replicate nt (4 * per))) := by
    rw [carve_replicate, List.forall₂_map_left_iff, List.forall₂_map_right_iff, List.forall₂_same]
    exact fun i _ => ⟨by ring, Nat.mul_le_mul_left 4 hworker⟩
  have hscratch : Sound ws (carve sizes.sum (List.replicate nt (4 * per))) := by
    refine sound_carve ?_
    rw [List.sum_replicate, smul_eq_mul, Nat.mul_left_comm]
    omega
  have hsizes : Sound ws (carve 0 sizes) := sound_carve (by omega)
  have hin : ∀ s ∈ carve 0 sizes, s.stop ≤ sizes.sum := fun s hs =>
    (carve_within hs).2.trans (Nat.zero_add _).le
  have hbehind : ∀ s ∈ (List.range nt).map (fun i =>
      (⟨sizes.sum + 4 * (i * per), 4 * workerFloats c T kv⟩ : Span)),
      sizes.sum ≤ s.start ∧ s.stop ≤ sizes.sum + 4 * (nt * per) := by
    intro s hs
    obtain ⟨i, hi, rfl⟩ := List.mem_map.mp hs
    have hlast : (i + 1) * per ≤ nt * per := Nat.mul_le_mul_right per (List.mem_range.mp hi)
    rw [Nat.succ_mul] at hlast
    refine ⟨Nat.le_add_right _ _, ?_⟩
    rw [Span.stop]
    dsimp only
    omega
  have hcodes : Sound ws [⟨sizes.sum + 4 * (nt * per), T * bitnetWide c⟩] :=
    ⟨fun s hs => List.mem_singleton.mp hs ▸ hroom, List.pairwise_singleton _ _⟩
  have hfront : ∀ s ∈ carve 0 sizes ++ (List.range nt).map (fun i =>
      (⟨sizes.sum + 4 * (i * per), 4 * workerFloats c T kv⟩ : Span)),
      s.stop ≤ sizes.sum + 4 * (nt * per) := by
    intro s hs
    rcases List.mem_append.mp hs with hs | hs
    · exact (hin s hs).trans (Nat.le_add_right _ _)
    · exact (hbehind s hs).2
  refine ((hsizes.append (hscratch.shrink hworkers) hin fun s hs => (hbehind s hs).1).append
    hcodes hfront fun s hs => ?_)
  rw [List.mem_singleton.mp hs]

lemma clean_projectOps {spans : List Span} (h : Sound ws spans) (ps : List Weight) :
    Clean ws (projectOps spans ps) := by
  refine ⟨h, ?_⟩
  induction ps with
  | nil => trivial
  | cons w ps ih => exact fun _ => ⟨h, ih⟩

lemma open_projectOps {spans : List Span} {ps : List Weight} :
    Open (projectOps spans ps) ↔ ∀ w ∈ ps, w.quantKind = .ternary := by
  rw [projectOps, open_call]
  induction ps with
  | nil => simp
  | cons w ps ih => simp [ih]

/-- The steps of a BitNet layer. -/
lemma clean_bitnetOps :
    Clean ws (bitnetOps c nt L pos T ws) ↔
      (bitnetShape c = true → bitnetLayerCpuBytes c nt T (pos + T) ≤ ws) := by
  rw [bitnetOps]
  simp only [List.flatten_cons, List.cons_append, List.nil_append, clean_guard, clean_check,
    decide_eq_true_eq]
  refine ⟨fun h hshape => (h hshape).1, fun h hshape => ⟨h hshape, ?_⟩⟩
  have hspans := sound_bitnetSpans (h hshape)
  simp only [List.flatten_nil, List.append_nil, clean_append, clean_call, clean_commit, hspans,
    clean_projectOps hspans, implies_true, and_self]

lemma open_bitnetOps :
    Open (bitnetOps c nt L pos T ws) ↔
      bitnetShape c = true ∧ ∀ w ∈ L.projections, w.quantKind = .ternary := by
  rw [bitnetOps]
  simp only [List.flatten_cons, List.flatten_nil, List.append_nil, open_append, open_check,
    open_guard, open_call, open_commit, open_nil, open_projectOps, Layer.projections,
    List.mem_cons, List.not_mem_nil, or_false, forall_eq_or_imp, forall_eq, true_and, and_true]
  tauto

/-- The layer ends the prefill at a check that is not about the workspace. -/
def Layer.Stops (L : Layer) (c : Config) : Prop :=
  if L.qProj.quantKind = .ternary then
    ¬(bitnetShape c = true ∧ ∀ w ∈ L.projections, w.quantKind = .ternary)
  else layerA8 L c false = true ∧
    ¬(c.hiddenSize % 32 = 0 ∧ c.qDim % 32 = 0 ∧ c.intermediateSize % 32 = 0)

lemma open_decoderLayerCpu : Open (decoderLayerCpu c nt L pos T ws) ↔ ¬L.Stops c := by
  rw [decoderLayerCpu, Layer.Stops]
  split_ifs
  · rw [open_bitnetOps, not_not]
  · rw [open_genericOps, not_and, not_not]

/-- What a layer asks of the workspace at its front. -/
def layerBytes (c : Config) (nt : ℕ) (L : Layer) (pos T : ℕ) : ℕ :=
  if L.qProj.quantKind = .ternary then bitnetLayerCpuBytes c nt T (pos + T)
  else 4 * layerNeed c (layerA8 L c false) T

lemma check_not_mem_cpuProj {ok : Bool} : Op.check ok .outOfMemory ∉ cpuProj c T ws K w := by
  rw [cpuProj]
  by_cases hkind : w.quantKind = .ternary <;> cases hperm : w.perm <;> simp [hkind]

lemma check_not_mem_inputOps {ok a8 : Bool} {ps : List Weight} :
    Op.check ok .outOfMemory ∉ inputOps c a8 T ws K ps := by
  rw [inputOps]
  cases a8 with
  | true => simp
  | false => simp [check_not_mem_cpuProj]

/-- A layer that has room appends before it can ask for more. -/
lemma commit_of_layerBytes (h : layerBytes c nt L pos T ≤ ws) :
    ∃ front uses rest, decoderLayerCpu c nt L pos T ws = front ++ .commit uses :: rest ∧
      Op.check false .outOfMemory ∉ front := by
  rw [layerBytes] at h
  rw [decoderLayerCpu]
  split_ifs at h ⊢ with hkind
  · obtain ⟨rest, hsplit⟩ : ∃ rest, bitnetOps c nt L pos T ws =
        (.guard (bitnetShape c) .unsupported ::
          .check (bitnetLayerCpuBytes c nt T (pos + T) ≤ ws) .outOfMemory ::
          .call (bitnetSpans c nt T (pos + T)) ::
          (projectOps (bitnetSpans c nt T (pos + T)) [L.qProj, L.kProj, L.vProj] ++
            [.call (bitnetSpans c nt T (pos + T))])) ++
        .commit (bitnetSpans c nt T (pos + T)) :: rest := by
      simp only [bitnetOps, List.flatten_cons, List.cons_append, List.append_assoc,
        List.nil_append]
      exact ⟨_, rfl⟩
    refine ⟨_, _, _, hsplit, ?_⟩
    simp [h, projectOps]
  · obtain ⟨rest, hsplit⟩ : ∃ rest, genericOps c L T ws =
        (.check (4 * layerNeed c (layerA8 L c false) T ≤ ws) .outOfMemory ::
          .call (layerSpans c T) ::
          (inputOps c (layerA8 L c false) T ws c.hiddenSize [L.qProj, L.kProj, L.vProj] ++
            [.call (layerSpans c T)])) ++
        .commit (layerSpans c T) :: rest := by
      simp only [genericOps, List.flatten_cons, List.cons_append, List.append_assoc,
        List.nil_append]
      exact ⟨_, rfl⟩
    refine ⟨_, _, _, hsplit, ?_⟩
    simp [h, check_not_mem_inputOps]

end Steps

/-! ### The estimate -/

/-- The bytes of a BitNet layer grow by the token. -/
lemma bitnetLayerCpuBytes_eq (c : Config) (nt T kv : ℕ) :
    bitnetLayerCpuBytes c nt T kv = bitnetLayerCpuBytes c nt 0 kv +
      T * (bitnetLayerCpuBytes c nt 1 kv - bitnetLayerCpuBytes c nt 0 kv) := by
  have hstep : bitnetLayerCpuBytes c nt 1 kv - bitnetLayerCpuBytes c nt 0 kv =
      4 * (c.hiddenSize + c.qDim + 2 * c.kvDim + c.qDim + 2 * c.intermediateSize + 2) +
        bitnetWide c := by
    simp only [bitnetLayerCpuBytes]
    omega
  rw [hstep, bitnetLayerCpuBytes, bitnetLayerCpuBytes]
  ring

lemma bitnetLayerCpuBytes_mono {c : Config} {nt T kv kv' : ℕ} (h : kv ≤ kv') :
    bitnetLayerCpuBytes c nt T kv ≤ bitnetLayerCpuBytes c nt T kv' := by
  have hscratch : attnScratch kv c.headDim ≤ attnScratch kv' c.headDim := by
    rw [attnScratch, attnScratch]
    omega
  rw [bitnetLayerCpuBytes, bitnetLayerCpuBytes]
  gcongr

namespace Model

variable (m : Model)

/-- What the prefill takes some tokens to cost, by the kind of the first layer. -/
def estimate (nt kvEnd tokens : ℕ) : ℕ :=
  if m.bitnetFirst then bitnetLayerCpuBytes m.config nt tokens kvEnd else tokens * m.perToken

/-- The most tokens, up to 2048 and those of the prompt, whose estimate the workspace holds. -/
def tokens (nt kvEnd ws seqLen : ℕ) : ℕ :=
  Nat.findGreatest (fun t => m.estimate nt kvEnd t ≤ ws) (min 2048 seqLen)

variable {m}

lemma perToken_pos : 0 < m.perToken := by
  have hwidth := m.config.tokenWidth_pos
  rw [perToken]
  omega

/-- The division finds the most tokens that are held. -/
lemma le_fit_iff {nt kvEnd ws t : ℕ} (ht : 0 < t) :
    t ≤ m.fit nt kvEnd ws ↔ m.estimate nt kvEnd t ≤ ws := by
  rw [fit, estimate]
  split_ifs with hfirst
  · have hbytes := bitnetLayerCpuBytes_eq m.config nt t kvEnd
    set fixed := bitnetLayerCpuBytes m.config nt 0 kvEnd
    have hper : 0 < bitnetLayerCpuBytes m.config nt 1 kvEnd - fixed := by
      simp only [fixed, bitnetLayerCpuBytes]
      omega
    have hgrow := Nat.mul_pos ht hper
    dsimp only
    split_ifs with hroom
    · rw [Nat.le_div_iff_mul_le hper]
      omega
    · omega
  · exact Nat.le_div_iff_mul_le perToken_pos

lemma tokens_eq {nt kvEnd ws seqLen : ℕ} :
    m.tokens nt kvEnd ws seqLen = min (m.fit nt kvEnd ws) (min 2048 seqLen) := by
  rw [tokens, Nat.findGreatest_eq_iff]
  refine ⟨min_le_right _ _, fun hpos => ?_, fun t hlt hle => ?_⟩
  · exact (le_fit_iff (Nat.pos_of_ne_zero hpos)).mp (min_le_left _ _)
  · rw [← le_fit_iff (by omega)]
    omega

end Model

/-! ### What the estimate leaves out -/

namespace Model

variable (m : Model)

/-- The 256 bytes that an int8 layer takes once: from 64 that the estimate has for every token, from
the rows it has for act-order layers, or from what is left. -/
def A8Fits (ws T : ℕ) : Prop :=
  256 ≤ T * (64 + 4 * m.gatherWidth) + (ws - T * m.perToken)

/-- A layer finds what the estimate, made for the first layer's kind, does not count. -/
def Covers (nt ws pos T : ℕ) (L : Layer) : Prop :=
  let c := m.config
  if L.qProj.quantKind = .ternary then
    m.bitnetFirst = true ∨ (bitnetShape c = true → bitnetLayerCpuBytes c nt T (pos + T) ≤ ws)
  else c.qDim ≤ c.hiddenSize ∧
    if m.bitnetFirst then
      4 * layerNeed c (layerA8 L c false) T ≤ ws ∧ (layerA8 L c false = false →
        ∀ p ∈ L.inputs c, p.1.Fits T p.2 (ws / 4 - T * c.tokenWidth))
    else if layerA8 L c false then m.A8Fits ws T
    else ∀ p ∈ L.inputs c, p.1.quantKind = .ternary →
      p.1.perm = false ∧ 4 * ((T * p.2 + 3) / 4 + T) ≤ ws - 4 * (T * c.tokenWidth)

/-- The first layer refuses, or every layer that is reached finds what the estimate does not
count. -/
def Roomy (nt cur ws seqLen : ℕ) : Prop :=
  let T := m.tokens nt (cur + seqLen) ws seqLen
  (∃ L rest, m.layers = L :: rest ∧ layerA8 L m.config false = true ∧ ¬m.A8Fits ws T) ∨
    ∀ front start L rest, m.layerCalls seqLen T = front ++ (start, L) :: rest →
      (∀ call ∈ front, ¬call.2.Stops m.config) →
      m.Covers nt ws (cur + start) (chunkLen seqLen T start) L

variable {m} {L : Layer} {nt pos T ws kvEnd : ℕ}

lemma not_ternary_of_a8 {gpu : Bool} {c : Config} (ha : layerA8 L c gpu = true) :
    L.qProj.quantKind ≠ .ternary :=
  (of_layerA8 ha L.qProj (by simp [Layer.projections])).2

/-- The check of an int8 layer against the estimate. -/
lemma a8_check_iff (hL : L ∈ m.layers) (ha : layerA8 L m.config false = true)
    (h : T * m.perToken ≤ ws) : 4 * layerNeed m.config true T ≤ ws ↔ m.A8Fits ws T := by
  have hany : m.anyA8 = true := List.any_eq_true.mpr ⟨L, hL, ha⟩
  have hper : T * m.perToken = 4 * (T * m.config.tokenWidth) + 4 * (T * m.gatherWidth) +
      (4 * (T * a8Width m.config) + 64 * T) := by
    rw [perToken, hany, if_pos rfl]
    ring
  have hspare : T * (64 + 4 * m.gatherWidth) = 64 * T + 4 * (T * m.gatherWidth) := by ring
  rw [A8Fits, layerNeed, if_pos rfl]
  omega

lemma width_gather_le :
    4 * (T * m.config.tokenWidth) + 4 * (T * m.gatherWidth) ≤ T * m.perToken :=
  calc 4 * (T * m.config.tokenWidth) + 4 * (T * m.gatherWidth)
      = T * (4 * m.config.tokenWidth + 4 * m.gatherWidth) := by ring
    _ ≤ T * m.perToken := Nat.mul_le_mul_left T (Nat.le_add_right _ _)

/-- The buffers of a layer are in the estimate. -/
lemma width_le (h : T * m.perToken ≤ ws) : 4 * (T * m.config.tokenWidth) ≤ ws :=
  (Nat.le_add_right _ _).trans (width_gather_le.trans h)

/-- So are the rows that it gathers. -/
lemma gather_le (hL : L ∈ m.layers) (hq : m.config.qDim ≤ m.config.hiddenSize)
    (h : T * m.perToken ≤ ws) :
    ∀ p ∈ L.inputs m.config, p.1.perm = true → T * p.2 ≤ ws / 4 - T * m.config.tokenWidth := by
  intro p hp hperm
  have hper : 4 * (T * m.config.tokenWidth) + 4 * (T * m.gatherWidth) ≤ ws :=
    width_gather_le.trans h
  have hmem : p.1 ∈ L.projections := by
    simp only [Layer.inputs, List.mem_cons, List.not_mem_nil, or_false] at hp
    rcases hp with rfl | rfl | rfl | rfl | rfl | rfl | rfl <;> simp [Layer.projections]
  have hact : m.hasActOrder = true :=
    List.any_eq_true.mpr ⟨L, hL, List.any_eq_true.mpr ⟨p.1, hmem, hperm⟩⟩
  have hwidth : p.2 ≤ m.gatherWidth := by
    rw [gatherWidth, hact, if_pos rfl]
    simp only [Layer.inputs, List.mem_cons, List.not_mem_nil, or_false] at hp
    rcases hp with rfl | rfl | rfl | rfl | rfl | rfl | rfl <;> dsimp only <;> split_ifs <;> omega
  have hrow := Nat.mul_le_mul_left T hwidth
  omega

/-- The check of a first layer whose kind the estimate is made for. -/
lemma first_layerBytes {rest : List Layer} (hlayers : m.layers = L :: rest)
    (h : m.estimate nt kvEnd T ≤ ws) (hpos : pos + T ≤ kvEnd)
    (ha : layerA8 L m.config false = true → m.A8Fits ws T) :
    layerBytes m.config nt L pos T ≤ ws := by
  have hfirst : m.bitnetFirst = decide (L.qProj.quantKind = .ternary) := by
    rw [bitnetFirst, hlayers]
  have hL : L ∈ m.layers := hlayers ▸ List.mem_cons_self
  rw [estimate, hfirst] at h
  rw [layerBytes]
  by_cases hkind : L.qProj.quantKind = .ternary
  · rw [if_pos (by simpa using hkind)] at h
    rw [if_pos hkind]
    exact (bitnetLayerCpuBytes_mono hpos).trans h
  · rw [if_neg (by simpa using hkind)] at h
    rw [if_neg hkind]
    cases hint8 : layerA8 L m.config false with
    | true => exact (a8_check_iff hL hint8 h).mpr (ha hint8)
    | false =>
      rw [layerNeed, if_neg Bool.false_ne_true, Nat.add_zero]
      exact width_le h

/-- A layer of a chunk that the estimate holds is clean where it finds the rest. -/
theorem clean_iff_covers (hL : L ∈ m.layers) (hT : 0 < T) (h : m.estimate nt kvEnd T ≤ ws)
    (hpos : pos + T ≤ kvEnd) :
    Clean ws (decoderLayerCpu m.config nt L pos T ws) ↔ m.Covers nt ws pos T L := by
  rw [estimate] at h
  rw [decoderLayerCpu, Covers]
  by_cases hkind : L.qProj.quantKind = .ternary
  · rw [if_pos hkind, if_pos hkind, clean_bitnetOps]
    by_cases hfirst : m.bitnetFirst = true
    · rw [if_pos hfirst] at h
      exact iff_of_true (fun _ => (bitnetLayerCpuBytes_mono hpos).trans h) (.inl hfirst)
    · exact (or_iff_right hfirst).symm
  · rw [if_neg hkind, if_neg hkind, clean_genericOps hT]
    by_cases hfirst : m.bitnetFirst = true
    · rw [if_pos hfirst]
      tauto
    · rw [if_neg hfirst] at h ⊢
      cases ha : layerA8 L m.config false with
      | true =>
        rw [if_pos rfl, a8_check_iff hL ha h]
        simp only [Bool.true_eq_false, false_imp_iff, and_true]
        exact and_comm
      | false =>
        rw [if_neg Bool.false_ne_true, layerNeed, if_neg Bool.false_ne_true, Nat.add_zero]
        simp only [forall_const]
        constructor
        · rintro ⟨hneed, hq, hfits⟩
          refine ⟨hq, fun p hp hternary => ?_⟩
          obtain ⟨hperm, hroom⟩ := (hfits p hp).2 hternary
          exact ⟨hperm, by omega⟩
        · rintro ⟨hq, hfits⟩
          have hneed := width_le h
          refine ⟨hneed, hq, fun p hp => ⟨gather_le hL hq h p hp, fun hternary => ?_⟩⟩
          obtain ⟨hperm, hroom⟩ := hfits p hp hternary
          exact ⟨hperm, by omega⟩

end Model

/-! ### The prefill -/

section Main

variable {m : Model} {nt cur maxLen ws : ℕ}

/-- The steps of a prefill in chunks. -/
def chunkOps (m : Model) (nt cur ws seqLen chunk : ℕ) : List (Op Status) :=
  (m.layerCalls seqLen chunk).flatMap fun call =>
    decoderLayerCpu m.config nt call.2 (cur + call.1) (chunkLen seqLen chunk call.1) ws

/-- A prefill refuses, or it runs in chunks of the most tokens whose estimate is held. -/
lemma prefillCpu_eq {seqLen : ℤ} (hseq : 0 < seqLen) :
    prefillCpu m nt cur maxLen ws seqLen =
      if m.tokens nt (cur + seqLen.toNat) ws seqLen.toNat = 0 then .error .outOfMemory
      else if maxLen < cur + seqLen.toNat then .error .overflow
      else .ok (chunkOps m nt cur ws seqLen.toNat
        (m.tokens nt (cur + seqLen.toNat) ws seqLen.toNat)) := by
  have hpos : 0 < seqLen.toNat := by omega
  have htokens : m.tokens nt (cur + seqLen.toNat) ws seqLen.toNat =
      min (m.fit nt (cur + seqLen.toNat) ws) (min 2048 seqLen.toNat) := Model.tokens_eq
  rw [prefillCpu, if_neg hseq.not_ge]
  dsimp only
  set fit := m.fit nt (cur + seqLen.toNat) ws
  have hzero : m.tokens nt (cur + seqLen.toNat) ws seqLen.toNat = 0 ↔ fit < 1 := by omega
  have hchunk : (if (if 2048 < fit then 2048 else fit) < seqLen.toNat then
      (if 2048 < fit then 2048 else fit) else seqLen.toNat) =
      m.tokens nt (cur + seqLen.toNat) ws seqLen.toNat := by
    split_ifs <;> omega
  simp only [hzero, hchunk]
  rfl

/-- A call of a layer in a chunk: the layer, the length of the chunk and its place. -/
lemma of_layerCalls {seqLen chunk start : ℕ} {L : Layer} (hchunk : 0 < chunk)
    (h : (start, L) ∈ m.layerCalls seqLen chunk) :
    L ∈ m.layers ∧ 0 < chunkLen seqLen chunk start ∧ chunkLen seqLen chunk start ≤ chunk ∧
      start + chunkLen seqLen chunk start ≤ seqLen := by
  obtain ⟨hstart, hL⟩ := List.pair_mem_product.mp h
  have hlt := ((Lanes.mem_starts hchunk).mp hstart).1
  refine ⟨hL, ?_⟩
  rw [chunkLen]
  split_ifs <;> omega

/-- The first call is that of the first layer on a whole chunk. -/
lemma layerCalls_eq {seqLen chunk : ℕ} {L : Layer} {rest : List Layer} (hseq : 0 < seqLen)
    (hchunk : 0 < chunk) (h : m.layers = L :: rest) :
    ∃ calls, m.layerCalls seqLen chunk = (0, L) :: calls := by
  have hturns : (seqLen + chunk - 1) / chunk = (seqLen - 1) / chunk + 1 := by
    have hsum : seqLen + chunk - 1 = seqLen - 1 + chunk := by omega
    rw [hsum, Nat.add_div_right _ hchunk]
  rw [Model.layerCalls, Lanes.starts, hturns, List.range_succ_eq_map, List.map_cons, h,
    Nat.zero_mul]
  exact ⟨_, rfl⟩

/-- Chunks of the most tokens that are held keep to the workspace in every run where the first
layer refuses, or what is not in the estimate fits. -/
theorem chunkOps_keeps_iff {seqLen : ℕ} (hseq : 0 < seqLen)
    (hT : m.tokens nt (cur + seqLen) ws seqLen ≠ 0) :
    (∀ l stop, Run (chunkOps m nt cur ws seqLen (m.tokens nt (cur + seqLen) ws seqLen)) l stop →
      Keeps ws .outOfMemory l stop) ↔ m.Roomy nt cur ws seqLen := by
  have hchunk := Nat.pos_of_ne_zero hT
  have htokens : m.tokens nt (cur + seqLen) ws seqLen =
      min (m.fit nt (cur + seqLen) ws) (min 2048 seqLen) := Model.tokens_eq
  rw [Model.Roomy]
  set T := m.tokens nt (cur + seqLen) ws seqLen
  have hwhole : chunkLen seqLen T 0 = T := by
    rw [chunkLen]
    split_ifs <;> omega
  have hheld : ∀ t, 0 < t → t ≤ T → m.estimate nt (cur + seqLen) t ≤ ws := fun t hpos hle =>
    (Model.le_fit_iff hpos).mp (by omega)
  have hclean : Clean ws (chunkOps m nt cur ws seqLen T) ↔
      ∀ front start L rest, m.layerCalls seqLen T = front ++ (start, L) :: rest →
        (∀ call ∈ front, ¬call.2.Stops m.config) →
        m.Covers nt ws (cur + start) (chunkLen seqLen T start) L := by
    have hcall : ∀ front start L rest, m.layerCalls seqLen T = front ++ (start, L) :: rest →
        (Clean ws (decoderLayerCpu m.config nt L (cur + start) (chunkLen seqLen T start) ws) ↔
          m.Covers nt ws (cur + start) (chunkLen seqLen T start) L) := by
      intro front start L rest hsplit
      have hmem : (start, L) ∈ m.layerCalls seqLen T := by rw [hsplit]; simp
      obtain ⟨hL, hlen, hle, hend⟩ := of_layerCalls hchunk hmem
      exact Model.clean_iff_covers hL hlen (hheld _ hlen hle) (by omega)
    rw [chunkOps, clean_flatMap]
    constructor
    · intro h front start L rest hsplit hfront
      exact (hcall front start L rest hsplit).mp
        (h front (start, L) rest hsplit fun call hmem =>
          open_decoderLayerCpu.mpr (hfront call hmem))
    · rintro h front ⟨start, L⟩ rest hsplit hfront
      exact (hcall front start L rest hsplit).mpr (h front start L rest hsplit fun call hmem =>
        open_decoderLayerCpu.mp (hfront call hmem))
  rw [← hclean]
  constructor
  · intro h
    cases hlayers : m.layers with
    | nil => exact .inr (hclean.mpr fun front start L rest hsplit => by
        have hmem : (start, L) ∈ m.layerCalls seqLen T := by rw [hsplit]; simp
        exact absurd (of_layerCalls hchunk hmem).1 (by simp [hlayers]))
    | cons L rest =>
      by_cases hrefuse : layerA8 L m.config false = true ∧ ¬m.A8Fits ws T
      · exact .inl ⟨L, rest, rfl, hrefuse⟩
      · obtain ⟨calls, hcalls⟩ := layerCalls_eq hseq hchunk hlayers
        have hroom : layerBytes m.config nt L cur T ≤ ws :=
          Model.first_layerBytes hlayers (hheld T hchunk le_rfl)
            (by omega) fun ha => by_contra fun hspare => hrefuse ⟨ha, hspare⟩
        obtain ⟨front, uses, behind, hfirst, hcheck⟩ := commit_of_layerBytes hroom
        have hother : Status.overflow ≠ .outOfMemory := by simp
        refine .inr (clean_of_keeps hother h fun l rest' hsplit _ => ?_)
        have hops : front ++ .commit uses :: (behind ++ calls.flatMap fun call =>
            decoderLayerCpu m.config nt call.2 (cur + call.1) (chunkLen seqLen T call.1) ws) =
            l ++ .check false .outOfMemory :: rest' := by
          rw [← hsplit, chunkOps, hcalls, List.flatMap_cons, Nat.add_zero, hwhole, hfirst,
            List.append_assoc, List.cons_append]
        exact committed_of_split hcheck hops
  · rintro (⟨L, rest, hlayers, ha, hspare⟩ | h)
    · obtain ⟨calls, hcalls⟩ := layerCalls_eq hseq hchunk hlayers
      have hestimate := hheld T hchunk le_rfl
      have hkind := Model.not_ternary_of_a8 ha
      have hfirst : m.bitnetFirst = false := by simp [Model.bitnetFirst, hlayers, hkind]
      rw [Model.estimate, hfirst, if_neg Bool.false_ne_true] at hestimate
      have hneed : ¬4 * layerNeed m.config true T ≤ ws := fun hneed =>
        hspare ((Model.a8_check_iff (by simp [hlayers]) ha hestimate).mp hneed)
      obtain ⟨behind, hops⟩ : ∃ behind, chunkOps m nt cur ws seqLen T =
          .check false .outOfMemory :: behind := by
        rw [chunkOps, hcalls, List.flatMap_cons, hwhole, decoderLayerCpu, if_neg hkind, genericOps]
        simp only [ha, hneed, decide_false, List.flatten_cons, List.cons_append]
        exact ⟨_, rfl⟩
      exact fun l stop hrun => keeps_of_refused (hops ▸ hrun)
    · exact fun l stop hrun => h.keeps hrun

/-- **The workspace of a CPU prefill.** Every run keeps to it exactly where the call has no token
to run, refuses, or what its estimate does not count fits. -/
theorem prefillCpu_keeps_iff (m : Model) (nt cur maxLen ws : ℕ) (seqLen : ℤ) :
    (∀ ops, prefillCpu m nt cur maxLen ws seqLen = .ok ops →
      ∀ l stop, Run ops l stop → Keeps ws .outOfMemory l stop) ↔
      seqLen ≤ 0 ∨ m.tokens nt (cur + seqLen.toNat) ws seqLen.toNat = 0 ∨
        maxLen < cur + seqLen.toNat ∨ m.Roomy nt cur ws seqLen.toNat := by
  by_cases hseq : seqLen ≤ 0
  · refine iff_of_true (fun ops hops => ?_) (.inl hseq)
    rw [prefillCpu, if_pos hseq] at hops
    exact nomatch hops
  · rw [prefillCpu_eq (not_le.mp hseq)]
    by_cases hT : m.tokens nt (cur + seqLen.toNat) ws seqLen.toNat = 0
    · rw [if_pos hT]
      exact iff_of_true (fun ops hops => nomatch hops) (.inr (.inl hT))
    · rw [if_neg hT]
      by_cases hlen : maxLen < cur + seqLen.toNat
      · rw [if_pos hlen]
        exact iff_of_true (fun ops hops => nomatch hops) (.inr (.inr (.inl hlen)))
      · rw [if_neg hlen]
        have hkeeps := chunkOps_keeps_iff (m := m) (by omega : 0 < seqLen.toNat) hT
        constructor
        · exact fun h => .inr (.inr (.inr (hkeeps.mp (h _ rfl))))
        · rintro (h | h | h | h)
          · exact absurd h hseq
          · exact absurd h hT
          · exact absurd h hlen
          · intro ops hops
            obtain rfl := Except.ok.inj hops
            exact hkeeps.mpr h

/-- A dense layer and an int8 one behind it. -/
def mixedModel : Model where
  config := ⟨32, 1, 1, 32, 32, by simp, by simp, by simp, by simp, by simp, rfl⟩
  layers :=
    let dense : Weight := ⟨.none, false, false, 0, .rowmajor, false⟩
    let int8 : Weight := ⟨.int8, false, true, 0, .rowmajor, false⟩
    [⟨dense, dense, dense, dense, dense, dense, dense⟩, ⟨int8, int8, int8, int8, int8, int8, int8⟩]

/-- A workspace for the estimate of one token: the first layer appends, and the second one
refuses. -/
theorem prefillCpu_outgrown :
    ∃ ops l stop, prefillCpu mixedModel 1 0 1 1128 1 = .ok ops ∧ Run ops l stop ∧
      ¬Keeps 1128 .outOfMemory l stop := by
  refine ⟨chunkOps mixedModel 1 0 1128 1 1, (chunkOps mixedModel 1 0 1128 1 1).take 14,
    some (.check false .outOfMemory, .outOfMemory), by decide, ?_, ?_⟩
  · have hsplit : chunkOps mixedModel 1 0 1128 1 1 =
        (chunkOps mixedModel 1 0 1128 1 1).take 14 ++ .check false .outOfMemory ::
          (chunkOps mixedModel 1 0 1128 1 1).drop 15 := by decide
    exact .stop hsplit (by decide) ⟨rfl, rfl⟩
  · rintro (⟨hnone, -⟩ | ⟨-, hcheck⟩)
    · exact hnone ⟨layerSpans mixedModel.config 1, by decide⟩
    · exact hcheck false .outOfMemory .outOfMemory rfl

end Main

end VibeVoice.Prefill
