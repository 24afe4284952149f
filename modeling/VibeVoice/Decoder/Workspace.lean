import Mathlib.Tactic
import VibeVoice.Status

/-!
What decides how a decoder layer uses its workspace (`decoder.c`, `config.c`, `loader.c`).

Sizes are natural numbers. The loader bounds none of them: those are meant that an `int` has room
for, with products a `size_t` has room for.

* `Config`, `Layer`: the sizes that pass the loader, and the projections of a layer.
* `layerA8`: whether a layer runs on int8 activations.
-/

namespace VibeVoice.Prefill

/-- `vv_quant_kind_t`. -/
inductive QuantKind
  | none | nf4 | int4g | int8 | ternary
  deriving DecidableEq, Repr

/-- `vv_int4g_layout_t`. -/
inductive Int4gLayout
  | rowmajor | gpu
  deriving DecidableEq, Repr

/-- A projection, without its data: `perm` and `zeros` say whether those are there. -/
structure Weight where
  quantKind : QuantKind
  perm : Bool
  actInt8 : Bool
  groupSize : ℕ
  int4gLayout : Int4gLayout
  zeros : Bool
  deriving DecidableEq, Repr

/-- The projections of a layer. -/
structure Layer where
  qProj : Weight
  kProj : Weight
  vProj : Weight
  oProj : Weight
  gateProj : Weight
  upProj : Weight
  downProj : Weight
  deriving DecidableEq, Repr

/-- `vv_layer_projections`. -/
def Layer.projections (L : Layer) : List Weight :=
  [L.qProj, L.kProj, L.vProj, L.oProj, L.gateProj, L.upProj, L.downProj]

/-- The sizes of `vv_llm_config_t`, as `parse_decoder_config` and the shapes of the projections let
them pass. -/
structure Config where
  hiddenSize : ℕ
  numAttentionHeads : ℕ
  numKeyValueHeads : ℕ
  headDim : ℕ
  intermediateSize : ℕ
  hidden_pos : 0 < hiddenSize
  heads_pos : 0 < numAttentionHeads
  kv_pos : 0 < numKeyValueHeads
  dim_pos : 0 < headDim
  inter_pos : 0 < intermediateSize
  shared : numAttentionHeads % numKeyValueHeads = 0

namespace Config

variable (c : Config)

/-- The width of a query, and of the attention's output. -/
def qDim : ℕ := c.numAttentionHeads * c.headDim

/-- The width of a key. -/
def kvDim : ℕ := c.numKeyValueHeads * c.headDim

/-- `a8_kmax`. -/
def a8Kmax : ℕ :=
  let k := c.hiddenSize
  let k := if k < c.intermediateSize then c.intermediateSize else k
  if k < c.qDim then c.qDim else k

/-- What a token takes of the buffers of a layer. -/
def tokenWidth : ℕ := 3 * c.hiddenSize + c.qDim + 2 * c.kvDim + 2 * c.intermediateSize

lemma qDim_pos : 0 < c.qDim := Nat.mul_pos c.heads_pos c.dim_pos

lemma tokenWidth_pos : 0 < c.tokenWidth := by
  have hhidden := c.hidden_pos
  rw [tokenWidth]
  omega

lemma hidden_le_a8Kmax : c.hiddenSize ≤ c.a8Kmax := by
  rw [a8Kmax]
  split_ifs <;> omega

lemma inter_le_a8Kmax : c.intermediateSize ≤ c.a8Kmax := by
  rw [a8Kmax]
  split_ifs <;> omega

lemma qDim_le_a8Kmax : c.qDim ≤ c.a8Kmax := by
  rw [a8Kmax]
  split_ifs <;> omega

end Config

/-- `VV_ACT_QUANT_MAX_K`. -/
def actQuantMaxK : ℕ := 22528

/-- `VV_ACT_QUANT_MIN_K`. -/
def actQuantMinK : ℕ := 256

/-- Whether a projection of a layer whose first one is of a kind can run on int8 activations. -/
def Weight.a8 (kind : QuantKind) (gpu : Bool) (w : Weight) : Bool :=
  w.actInt8 && !w.perm && w.quantKind = kind &&
    (w.quantKind = .int8 || (w.quantKind = .int4g && w.groupSize % 32 = 0 &&
      if gpu then w.int4gLayout = .gpu else w.int4gLayout = .rowmajor && w.zeros))

/-- `layer_a8`. -/
def layerA8 (L : Layer) (c : Config) (gpu : Bool) : Bool :=
  if gpu && (actQuantMaxK < c.a8Kmax || c.hiddenSize < actQuantMinK) then false
  else L.projections.all (Weight.a8 L.qProj.quantKind gpu)

/-- The layers of a model and its sizes. -/
structure Model where
  config : Config
  layers : List Layer

/-- A layer on int8 activations permutes nothing and has no ternary projection. -/
lemma of_layerA8 {L : Layer} {c : Config} {gpu : Bool} (h : layerA8 L c gpu = true) :
    ∀ w ∈ L.projections, w.perm = false ∧ w.quantKind ≠ .ternary := by
  intro w hw
  rw [layerA8] at h
  split_ifs at h
  have hall := List.all_eq_true.mp h w hw
  simp only [Weight.a8, Bool.and_eq_true, Bool.or_eq_true, Bool.not_eq_true',
    decide_eq_true_eq] at hall
  obtain ⟨⟨⟨-, hperm⟩, -⟩, hkind⟩ := hall
  refine ⟨hperm, fun hternary => ?_⟩
  rw [hternary] at hkind
  simp at hkind

end VibeVoice.Prefill
