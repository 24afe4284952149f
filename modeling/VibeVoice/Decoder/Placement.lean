import Mathlib.Tactic.Linarith
import VibeVoice.Decoder.LayerPool

/-!
Where the layers go (`vv_inference_init` of `pipeline.c`): how they are split over the devices, what
the primary keeps resident, and what each shard keeps, for `gpu_layers < 0`.

Byte counts are natural numbers, a division by zero is `none`, and the share of a device, which is
computed in `double`s, is a parameter.  A device reports the same memory each time it is asked.

* `Setup.plan`: what `vv_inference_init` decides before and while it allocates.
* `shrink_spec`: where the loop that halves the window ends.
* `Plan.Sound`: layers live where they are computed, within the budgets.
* `plan_sound_iff`: when they do.
-/

namespace VibeVoice.Placement

/-! ### Devices and stores -/

/-- What a device says of its memory: its free and its total bytes scaled by `--vram-budget`, the
cap of `--gpu-memory` (`0` for none), and `vv_gpu_reserved`. -/
structure Device where
  free : ℕ
  total : ℕ
  cap : ℕ
  reserved : ℕ

/-- `vv_gpu_budget`. -/
def Device.budget (d : Device) : ℕ := if d.cap ≠ 0 ∧ d.cap < d.free then d.cap else d.free

/-- `vv_gpu_budget_reclaim`. -/
def Device.budgetReclaim (d : Device) (reclaimable : ℕ) : ℕ :=
  let budget := if d.total - d.free < reclaimable then d.total else d.free + reclaimable
  if d.cap ≠ 0 ∧ d.cap < budget then d.cap else budget

/-- The shape of a KV store: `vv_kv_bytes_per_vec`, `vv_kv_has_meta` and `vv_kv_is_raw` of its
format. -/
structure KvShape where
  kvHeads : ℕ
  headDim : ℕ
  bytesPerVec : ℕ
  hasMeta : Bool
  isRaw : Bool

/-- `vv_kv_cache_bytes`. -/
def KvShape.bytes (kv : KvShape) (layers tokens : ℕ) : ℕ :=
  let perLayer := 2 * (tokens * kv.kvHeads * kv.bytesPerVec)
    + (if kv.hasMeta then 2 * (tokens * kv.kvHeads * 2) else 0)
    + if kv.isRaw then 0 else kv.kvHeads * kv.headDim * 2
  perLayer * layers

/-- The bytes of a model, the devices, and what was asked for.  `num_hidden_layers` is an `int`. -/
structure Setup where
  layers : ℕ
  layers_lt : layers < 2 ^ 31
  perLayer : ℕ
  embed : ℕ
  lmHead : ℕ
  frontend : ℕ
  encoderHost : ℕ
  kv : KvShape
  streamingFamily : Bool
  maxSeqLen : ℤ
  nSlots : ℤ
  wantsPages : Bool
  sharesMemory : Bool
  primary : Device
  others : List Device
  share : List ℕ → ℕ → ℕ → ℕ

/-! ### The split -/

/-- `pick`: the first device with the most layers, or with the fewest. -/
def pick (most : Bool) (out : List ℕ) : ℕ :=
  (List.range out.length).foldl (fun p i =>
    if (if most then out.getD p 0 < out.getD i 0 else out.getD i 0 < out.getD p 0) then i else p) 0

/-- `while (assigned != n_layers)`. -/
def settle (layers assigned : ℕ) (out : List ℕ) : List ℕ :=
  if assigned = layers then out
  else if layers < assigned then
    let p := pick true out
    if out.getD p 0 ≤ 1 then out
    else settle layers (assigned - 1) (out.set p (out.getD p 0 - 1))
  else
    let p := pick false out
    settle layers (assigned + 1) (out.set p (out.getD p 0 + 1))
termination_by (assigned - layers) + (layers - assigned)

/-- `split_layers`. -/
def splitLayers (share : List ℕ → ℕ → ℕ → ℕ) (room : List ℕ) (layers : ℕ) : List ℕ :=
  let out := (List.range room.length).map fun i => max (share room layers i) 1
  settle layers out.sum out

/-! ### The primary -/

/-- `vv_placement_t`. -/
inductive Strategy
  | allGpu | streamFull | streamEmbed | streamAll | cpuOnly
  deriving DecidableEq, Repr

/-- The bytes by which the two staging buffers of a pool are larger than two layers. -/
def slack : ℕ := Decoder.layerTensorSlots * 256 * 2

/-- `decide_placement`. -/
def decidePlacement (available allLayers embed lmHead perLayer kv workspace : ℕ) : Strategy :=
  let base := workspace + kv
  let staging := (perLayer + Decoder.layerTensorSlots * 256) * 2
  if available = 0 then .cpuOnly
  else if available < base then .cpuOnly
  else
    let remaining := available - base
    if allLayers + embed + lmHead ≤ remaining then .allGpu
    else if staging + embed + lmHead ≤ remaining then .streamFull
    else if staging + embed ≤ remaining then .streamEmbed
    else if staging ≤ remaining then .streamAll
    else .cpuOnly

/-- A quotient, where there is one. -/
def div? (a b : ℕ) : Option ℕ := if b = 0 then none else some (a / b)

lemma div?_eq_some {a b q : ℕ} : div? a b = some q ↔ b ≠ 0 ∧ a / b = q := by
  rw [div?]
  split_ifs with hb <;> simp [hb]

/-- `(int)` of a `size_t`. -/
def toInt (x : ℕ) : ℤ := Int.bmod x (2 ^ 32)

variable (s : Setup)

def mib (n : ℕ) : ℕ := n * 1024 * 1024

/-- `sharding`, for a layer split. -/
def Setup.sharding : Bool := s.others ≠ []

/-- `room`. -/
def Setup.room : List ℕ :=
  (s.primary.budget - s.primary.reserved - (mib 512 + (s.embed + s.lmHead + s.frontend))) ::
    s.others.map fun d => d.budget - d.reserved - mib 512

/-- `split`. -/
def Setup.split : List ℕ := splitLayers s.share s.room s.layers

/-- `primary_layers`. -/
def Setup.primaryLayers : ℕ := if s.sharding then s.split.getD 0 0 else s.layers

/-- `n_slots`. -/
def Setup.slots : ℕ := if 0 < s.nSlots then s.nSlots.toNat else 1

/-- `paged`. -/
def Setup.paged : Bool := s.wantsPages && !s.sharding

/-- `all_layers`. -/
def Setup.allLayers : ℕ := s.perLayer * s.primaryLayers

/-- `available`, after what is reserved. -/
def Setup.available : ℕ :=
  let reclaimable :=
    if s.sharesMemory then s.allLayers + s.embed + s.lmHead + s.encoderHost else 0
  s.primary.budgetReclaim reclaimable - (s.primary.reserved + s.frontend)

/-- `kv_per_token`. -/
def Setup.kvPerToken : ℕ := s.kv.bytes s.primaryLayers 1

/-- `ws_target`. -/
def Setup.wsTarget : ℕ := if s.streamingFamily then mib 256 else mib 512

/-- `resident`. -/
def Setup.resident : ℕ :=
  s.wsTarget + s.allLayers + s.embed + s.lmHead + if s.paged then (s.slots - 1) * s.wsTarget else 0

/-- `kv_floor`. -/
def kvFloor : ℕ := 8192

/-- `max_seq`, trimmed to what the weights leave. -/
def Setup.trimmed : Option ℕ :=
  let maxSeq := if 0 < s.maxSeqLen then s.maxSeqLen.toNat else 32768
  if s.resident < s.available then
    (div? (s.available - s.resident) s.kvPerToken).map fun kvRoom =>
      let fitted := kvRoom / 256 * 256
      if kvRoom < maxSeq ∧ 2048 ≤ fitted then fitted else maxSeq
  else some maxSeq

/-- `room` of a pool, in tokens. -/
def Setup.poolRoom : Option ℕ :=
  if s.resident < s.available then div? (s.available - s.resident) s.kvPerToken else some 0

/-- `pool_tokens` of a window. -/
def Setup.poolTokens (maxSeq : ℕ) : Option ℕ :=
  if s.paged then
    s.poolRoom.map fun room =>
      let want := maxSeq * s.slots
      let want := if room < want then max room maxSeq else want
      let tokens := toInt (want / 64 * 64)
      if tokens < maxSeq then maxSeq else tokens.toNat
  else some maxSeq

/-- Half the window, or the floor. -/
def halved (maxSeq : ℕ) : ℕ := if maxSeq / 2 < kvFloor then kvFloor else maxSeq / 2

lemma halved_lt {maxSeq : ℕ} (h : kvFloor < maxSeq) : halved maxSeq < maxSeq := by
  rw [halved]
  rw [kvFloor] at h ⊢
  split_ifs <;> omega

/-- The loop that halves the window: the placement, `max_seq` and `kv_total`. -/
def Setup.shrink (s : Setup) (maxSeq kvTotal : ℕ) : Strategy × ℕ × ℕ :=
  let p := decidePlacement s.available s.allLayers s.embed s.lmHead s.perLayer kvTotal s.wsTarget
  if _hstop : p = .allGpu ∨ maxSeq ≤ kvFloor then (p, maxSeq, kvTotal)
  else s.shrink (halved maxSeq) (halved maxSeq * s.kvPerToken)
termination_by maxSeq
decreasing_by exact halved_lt (not_le.mp fun h => _hstop (.inr h))

/-- The bytes of the embedding and the head that a placement keeps on the device. -/
def Setup.kept : Strategy → ℕ
  | .allGpu | .streamFull => s.embed + s.lmHead
  | .streamEmbed => s.embed
  | .streamAll | .cpuOnly => 0

/-- `auto_resident_layers`; `fixed` counts the embedding and the head where they are streamed
beside. -/
def Setup.autoResident (p : Strategy) (kvTotal : ℕ) : Option ℕ :=
  let fixed := s.wsTarget + kvTotal + 2 * s.perLayer + if p = .allGpu then 0 else s.kept p
  if fixed < s.available then
    (div? (s.available - fixed) s.perLayer).map fun fit => if s.layers < fit then s.layers else fit
  else some 0

/-- `n_resident_layers`. -/
def Setup.residentLayers (p : Strategy) (auto : ℕ) : ℕ :=
  match p with
  | .cpuOnly => 0
  | .allGpu => s.primaryLayers
  | _ => auto

/-! ### The shards -/

/-- A shard: the layers it computes, those it keeps, its KV slice and its budget. -/
structure Shard where
  first : ℕ
  layers : ℕ
  resident : ℤ
  kv : ℕ
  budget : ℕ
  deriving DecidableEq, Repr

/-- The turn of the loop for one more device. -/
def Setup.shard (maxSeq : ℕ) (d : Device) (first layers : ℕ) : Option Shard :=
  let budget := d.budget - d.reserved
  let kv := s.kv.bytes layers maxSeq
  let room := if kv + mib 512 < budget then budget - kv - mib 512 else 0
  (div? room s.perLayer).map fun fit =>
    { first, layers, kv, budget
      resident := if (layers : ℤ) < toInt fit then layers else toInt fit }

/-- The loop over the other devices, from layer `next` on. -/
def Setup.shards (maxSeq : ℕ) : ℕ → List Device → List ℕ → Option (List Shard)
  | _, [], _ => some []
  | next, d :: ds, split =>
    (s.shard maxSeq d next (split.headD 0)).bind fun sh =>
      (Setup.shards maxSeq (next + split.headD 0) ds split.tail).map (sh :: ·)

/-! ### The plan -/

/-- What `vv_inference_init` decides. -/
structure Plan where
  strategy : Strategy
  maxSeq : ℕ
  kvTotal : ℕ
  resident : ℕ
  shards : List Shard
  deriving DecidableEq, Repr

/-- The shards of a placement: none where the GPU is not used. -/
def Setup.shardsOf (strategy : Strategy) (maxSeq : ℕ) : Option (List Shard) :=
  if strategy = .cpuOnly then some []
  else s.shards maxSeq s.primaryLayers s.others s.split.tail

/-- What follows the loop that halves the window. -/
def Setup.planOf (r : Strategy × ℕ × ℕ) : Option Plan :=
  (s.autoResident r.1 r.2.2).bind fun auto =>
    (s.shardsOf r.1 r.2.1).map fun shards =>
      { strategy := r.1, maxSeq := r.2.1, kvTotal := r.2.2, shards
        resident := s.residentLayers r.1 auto }

/-- `kv_total` before the loop. -/
def Setup.kvTotal (maxSeq : ℕ) : Option ℕ := (s.poolTokens maxSeq).map (· * s.kvPerToken)

/-- The placement, the residency of the primary, and the shards. -/
def Setup.plan : Option Plan :=
  s.trimmed.bind fun maxSeq =>
    (s.kvTotal maxSeq).bind fun kvTotal => s.planOf (s.shrink maxSeq kvTotal)

/-! ### What is planned -/

/-- `upload_layer_range`: a layer that is on a device stays there. -/
def uploadRange (layers dev first : ℕ) (count : ℤ) (home : ℕ → Option ℕ) : ℕ → Option ℕ :=
  fun i =>
    if home i = none ∧ first ≤ i ∧ (i : ℤ) < first + count ∧ i < layers then some dev else home i

variable (p : Plan)

/-- The device each layer is uploaded to: `0` for the primary, `k + 1` for shard `k`. -/
def Plan.home : ℕ → Option ℕ :=
  p.shards.zipIdx.foldl
    (fun home sh => uploadRange s.layers (sh.2 + 1) sh.1.first sh.1.resident home)
    (uploadRange s.layers 0 0 p.resident fun _ => none)

/-- A device computes a layer. -/
def Plan.Computes (layer : ℕ) : ℕ → Prop
  | 0 => layer < s.primaryLayers
  | k + 1 => ∃ sh, p.shards[k]? = some sh ∧ sh.first ≤ layer ∧ layer < sh.first + sh.layers

/-- The bytes of the two staging buffers, where not all layers are resident. -/
def Setup.staging (all : Bool) : ℕ := if all then 0 else 2 * s.perLayer + slack

/-- The bytes planned for the primary. -/
def Plan.bytes : ℕ :=
  s.wsTarget + p.kvTotal + p.resident * s.perLayer + s.staging (s.primaryLayers ≤ p.resident)
    + s.kept p.strategy

/-- The bytes planned for a shard. -/
def Shard.bytes (sh : Shard) : ℕ :=
  mib 512 + sh.kv + sh.resident.toNat * s.perLayer + s.staging (sh.layers ≤ sh.resident)

/-- `vv_inference_init` goes on with the GPU: there is a KV store for the layers of each device. -/
structure Plan.GoesOn : Prop where
  strategy : p.strategy ≠ .cpuOnly
  primary_pos : 0 < s.primaryLayers
  primary_le : s.primaryLayers ≤ s.layers
  shards_pos : ∀ sh ∈ p.shards, 0 < sh.layers
  shards_le : ∀ sh ∈ p.shards, sh.first + sh.layers ≤ s.layers

/-- Layers live where they are computed, within the budget of each device. -/
structure Plan.Sound : Prop where
  primary : p.resident ≤ s.primaryLayers
  shards : ∀ sh ∈ p.shards, sh.resident ≤ sh.layers
  homes : ∀ layer dev, p.home s layer = some dev → p.Computes s layer dev
  primaryBytes : p.bytes s ≤ s.available
  shardBytes : ∀ sh ∈ p.shards, sh.bytes s ≤ sh.budget

/-! ### The window -/

variable {s}

lemma wsTarget_pos : 0 < s.wsTarget := by
  rw [Setup.wsTarget]
  split_ifs <;> decide

lemma poolTokens_ge {w t : ℕ} (h : s.poolTokens w = some t) : w ≤ t := by
  rw [Setup.poolTokens] at h
  split_ifs at h with hpaged
  · obtain ⟨room, -, rfl⟩ := Option.map_eq_some_iff.mp h
    dsimp only
    generalize toInt _ = tokens
    split_ifs with hlt
    · exact le_rfl
    · omega
  · exact (Option.some.inj h).le

/-- Everything fits where the sum of all does. -/
lemma decidePlacement_allGpu {kv : ℕ} :
    decidePlacement s.available s.allLayers s.embed s.lmHead s.perLayer kv s.wsTarget = .allGpu ↔
      s.wsTarget + kv + s.allLayers + s.embed + s.lmHead ≤ s.available := by
  have hpos := wsTarget_pos (s := s)
  simp only [decidePlacement]
  split_ifs <;> simp <;> omega

/-- The store of the smallest window the loop comes to. -/
def Setup.smallestKv (s : Setup) (maxSeq kvTotal : ℕ) : ℕ :=
  if maxSeq ≤ kvFloor then kvTotal else kvFloor * s.kvPerToken

lemma smallestKv_halved {maxSeq : ℕ} (kvTotal : ℕ) (h : kvFloor < maxSeq) :
    s.smallestKv (halved maxSeq) (halved maxSeq * s.kvPerToken) = s.smallestKv maxSeq kvTotal := by
  rw [Setup.smallestKv, Setup.smallestKv, if_neg (not_le.mpr h)]
  split_ifs with hle
  · have hge : kvFloor ≤ halved maxSeq := by
      rw [halved]
      split_ifs <;> omega
    rw [le_antisymm hle hge]
  · rfl

/-- The loop ends with all weights resident where they fit beside the smallest store; else it ends
with that store. -/
lemma shrink_spec (maxSeq kvTotal : ℕ) (hkv : s.smallestKv maxSeq kvTotal ≤ kvTotal) :
    let r := s.shrink maxSeq kvTotal
    r.1 = decidePlacement s.available s.allLayers s.embed s.lmHead s.perLayer r.2.2 s.wsTarget ∧
      (r.1 = .allGpu ∨ r.2.2 = s.smallestKv maxSeq kvTotal) ∧
      s.smallestKv maxSeq kvTotal ≤ r.2.2 := by
  fun_induction Setup.shrink s maxSeq kvTotal with
  | case1 maxSeq kvTotal p hstop =>
    exact ⟨rfl, hstop.imp_right fun hle => (if_pos hle).symm, hkv⟩
  | case2 maxSeq kvTotal p hstop ih =>
    have hlt : kvFloor < maxSeq := not_le.mp fun h => hstop (.inr h)
    have hsame := smallestKv_halved (s := s) kvTotal hlt
    rw [← hsame]
    refine ih ?_
    rw [Setup.smallestKv]
    split_ifs with hle
    · exact le_rfl
    · exact Nat.mul_le_mul_right _ (not_le.mp hle).le

/-! ### Homes -/

lemma uploadRange_computes {layers dev first : ℕ} {count : ℤ} {home : ℕ → Option ℕ}
    (hhome : ∀ layer d, home layer = some d → p.Computes s layer d)
    (hrange : ∀ i : ℕ, first ≤ i → (i : ℤ) < first + count → p.Computes s i dev) :
    ∀ layer d, uploadRange layers dev first count home layer = some d → p.Computes s layer d := by
  intro layer d h
  rw [uploadRange] at h
  split_ifs at h with hup
  · obtain rfl := Option.some.inj h
    exact hrange layer hup.2.1 hup.2.2.1
  · exact hhome layer d h

/-- Ranges that lie inside the devices' own bring no layer to another device. -/
lemma home_computes (hprimary : p.resident ≤ s.primaryLayers)
    (hshards : ∀ sh ∈ p.shards, sh.resident ≤ sh.layers) :
    ∀ layer dev, p.home s layer = some dev → p.Computes s layer dev := by
  have hrun : ∀ (shs : List (Shard × ℕ)) (home : ℕ → Option ℕ),
      (∀ sh ∈ shs, p.shards[sh.2]? = some sh.1) →
      (∀ layer d, home layer = some d → p.Computes s layer d) →
      ∀ layer d, shs.foldl
        (fun home sh => uploadRange s.layers (sh.2 + 1) sh.1.first sh.1.resident home)
        home layer = some d → p.Computes s layer d := by
    intro shs
    induction shs with
    | nil => exact fun home _ hhome => hhome
    | cons sh shs ih =>
      intro home hmem hhome
      have hsh := hmem sh List.mem_cons_self
      refine ih _ (fun x hx => hmem x (List.mem_cons_of_mem _ hx))
        (uploadRange_computes p hhome fun i hfirst hlast => ⟨sh.1, hsh, hfirst, ?_⟩)
      have := hshards sh.1 (List.mem_of_getElem? hsh)
      omega
  refine hrun _ _ (fun sh hsh => ?_) (uploadRange_computes p (fun _ _ h => by cases h) ?_)
  · exact List.mk_mem_zipIdx_iff_getElem?.mp hsh
  · intro i _ hlast
    rw [Plan.Computes]
    omega

/-! ### Budgets -/

/-- What the primary's budget has to be: for everything beside the smallest store; or the bytes
beside what is fixed hold no more than its own layers, and all of them or some layers and the slack
of the staging buffers. -/
def Setup.PrimaryFits (s : Setup) (kv : ℕ) : Prop :=
  s.wsTarget + kv + s.allLayers + s.embed + s.lmHead ≤ s.available ∨
    let kept := s.kept (decidePlacement s.available s.allLayers s.embed s.lmHead s.perLayer kv
      s.wsTarget)
    let left := s.available - (s.wsTarget + kv + 2 * s.perLayer + kept)
    min (left / s.perLayer) s.layers ≤ s.primaryLayers ∧
      (s.primaryLayers ≤ left / s.perLayer ∨ slack ≤ left % s.perLayer)

lemma slack_eq : slack = 18944 := by decide +kernel

lemma staging_eq (perLayer : ℕ) :
    (perLayer + Decoder.layerTensorSlots * 256) * 2 = 2 * perLayer + slack := by
  unfold slack
  generalize Decoder.layerTensorSlots = slots
  omega

/-- A placement that streams has room for the staging buffers and for what it keeps. -/
lemma decidePlacement_kept {kv : ℕ} {strategy : Strategy}
    (h : decidePlacement s.available s.allLayers s.embed s.lmHead s.perLayer kv s.wsTarget =
      strategy) (hall : strategy ≠ .allGpu) (hcpu : strategy ≠ .cpuOnly) :
    s.wsTarget + kv + 2 * s.perLayer + s.kept strategy + slack ≤ s.available := by
  simp only [decidePlacement, staging_eq] at h
  split_ifs at h with h₀ h₁ h₂ h₃ h₄ h₅
  · exact absurd h.symm hcpu
  · exact absurd h.symm hcpu
  · exact absurd h.symm hall
  · rw [← h, Setup.kept]
    omega
  · rw [← h, Setup.kept]
    omega
  · rw [← h, Setup.kept]
    omega
  · exact absurd h.symm hcpu

/-- The layers that are kept beside the staging buffers, against the budget. -/
lemma resident_fits {perLayer layers primary left fit resident : ℕ}
    (hle : primary ≤ layers) (hfit : fit = left / perLayer) (hres : resident = min fit layers)
    (hown : resident ≤ primary) :
    resident * perLayer + (if primary ≤ resident then 0 else 2 * perLayer + slack) ≤
        left + 2 * perLayer ↔ primary ≤ fit ∨ slack ≤ left % perLayer := by
  have hdiv : fit * perLayer + left % perLayer = left := by
    rw [hfit, Nat.mul_comm]
    exact Nat.div_add_mod left perLayer
  split_ifs with hall
  · have hmul : resident * perLayer ≤ fit * perLayer :=
      Nat.mul_le_mul_right _ (hres ▸ min_le_left fit layers)
    have : resident ≤ fit := hres ▸ min_le_left fit layers
    exact iff_of_true (by omega) (.inl (by omega))
  · obtain rfl : resident = fit := by omega
    constructor
    · intro h
      exact .inr (by omega)
    · rintro (h | h)
      · omega
      · omega

lemma residentLayers_streams {strategy : Strategy} (hall : strategy ≠ .allGpu)
    (hcpu : strategy ≠ .cpuOnly) (auto : ℕ) : s.residentLayers strategy auto = auto := by
  cases strategy with
  | allGpu => exact absurd rfl hall
  | cpuOnly => exact absurd rfl hcpu
  | streamFull | streamEmbed | streamAll => rfl

/-- The primary's part of a sound plan. -/
lemma primary_iff {maxSeq kvTotal auto : ℕ} (hkv : s.smallestKv maxSeq kvTotal ≤ kvTotal)
    (hcpu : (s.shrink maxSeq kvTotal).1 ≠ .cpuOnly) (hlayers : s.primaryLayers ≤ s.layers)
    (hauto : s.autoResident (s.shrink maxSeq kvTotal).1 (s.shrink maxSeq kvTotal).2.2 = some auto)
    (hp : p.strategy = (s.shrink maxSeq kvTotal).1)
    (hpkv : p.kvTotal = (s.shrink maxSeq kvTotal).2.2)
    (hres : p.resident = s.residentLayers p.strategy auto) :
    p.resident ≤ s.primaryLayers ∧ p.bytes s ≤ s.available ↔
      s.PrimaryFits (s.smallestKv maxSeq kvTotal) := by
  obtain ⟨hplace, hend, hsmall⟩ := shrink_spec maxSeq kvTotal hkv
  generalize s.shrink maxSeq kvTotal = r at *
  rw [← hpkv] at hplace hend hsmall hauto
  rw [← hp] at hplace hend hauto hcpu
  by_cases hall : p.strategy = .allGpu
  · -- everything is resident, and the smaller store leaves more room
    have hfits := decidePlacement_allGpu.mp (hplace.symm.trans hall)
    rw [hall, Setup.residentLayers] at hres
    rw [Setup.PrimaryFits, Plan.bytes, hres, hall, Setup.staging, Setup.kept, decide_eq_true le_rfl]
    have hcomm : s.allLayers = s.primaryLayers * s.perLayer := Nat.mul_comm _ _
    exact iff_of_true ⟨le_rfl, by simp only [if_true]; omega⟩ (.inl (by omega))
  · have hkv₀ := hend.resolve_left hall
    have hroom := decidePlacement_kept hplace.symm hall hcpu
    have hnot : ¬ s.wsTarget + s.smallestKv maxSeq kvTotal + s.allLayers + s.embed + s.lmHead ≤
        s.available := fun h =>
      hall (hplace.trans (by rw [hkv₀]; exact decidePlacement_allGpu.mpr h))
    have hslack := slack_eq
    have hres' : p.resident = auto := hres.trans (residentLayers_streams hall hcpu auto)
    simp only [Setup.autoResident, if_neg hall] at hauto
    rw [if_pos (by omega)] at hauto
    obtain ⟨fit, hdiv, hfit⟩ := Option.map_eq_some_iff.mp hauto
    obtain ⟨-, hquot⟩ := div?_eq_some.mp hdiv
    have hmin : auto = min fit s.layers := by
      rw [← hfit]
      split_ifs <;> omega
    rw [Setup.PrimaryFits, or_iff_right hnot, ← hkv₀, ← hplace, hres']
    dsimp only
    rw [hquot, ← hmin]
    refine and_congr_right fun hown => ?_
    rw [← resident_fits hlayers hquot.symm hmin hown, Plan.bytes, hres',
      Setup.staging]
    simp only [decide_eq_true_eq]
    omega

/-- `(int)` of a count that is no `int` takes at least `2³²` off. -/
lemma toInt_cases (x : ℕ) :
    (x < 2 ^ 31 ∧ toInt x = x) ∨ (2 ^ 31 ≤ x ∧ toInt x ≤ x - 2 ^ 32) := by
  unfold toInt
  have h := Int.bmod_def x (2 ^ 32)
  generalize Int.bmod x (2 ^ 32) = y at *
  norm_num at h ⊢
  split_ifs at h <;> omega

/-- The layers a shard keeps, against its budget: it leaves no room for the staging buffers. -/
lemma shard_fits {ws kv budget perLayer layers fit k : ℕ} {resident : ℤ} (hk : k ≤ 2 ^ 20)
    (hzero : perLayer ≠ 0)
    (hfit : (if kv + ws < budget then budget - kv - ws else 0) / perLayer = fit)
    (hpos : 0 < layers) (hlt : layers < 2 ^ 31)
    (hres : resident = if (layers : ℤ) < toInt fit then (layers : ℤ) else toInt fit) :
    ws + kv + resident.toNat * perLayer +
        (if (layers : ℤ) ≤ resident then 0 else 2 * perLayer + k) ≤ budget ↔
      ws + kv + layers * perLayer ≤ budget := by
  generalize hroom : (if kv + ws < budget then budget - kv - ws else 0) = room at hfit
  have hdiv : fit * perLayer + room % perLayer = room := by
    rw [← hfit, Nat.mul_comm]
    exact Nat.div_add_mod room perLayer
  have hmod := Nat.mod_lt room (Nat.pos_of_ne_zero hzero)
  have hlayer : perLayer ≤ layers * perLayer := Nat.le_mul_of_pos_left perLayer hpos
  have hint := toInt_cases fit
  generalize toInt fit = asInt at hres hint
  by_cases hall : layers ≤ resident
  · -- all layers are resident
    obtain rfl : resident = layers := by
      split_ifs at hres <;> omega
    rw [if_pos hall, Int.toNat_natCast, Nat.add_zero]
  · rw [if_neg hall]
    have hkeeps : resident = asInt := by
      split_ifs at hres <;> omega
    rcases hint with ⟨-, hsame⟩ | ⟨hbig, hwrap⟩
    · -- some layers do not fit, and what is left is less than a layer
      have hmul : (fit + 1) * perLayer ≤ layers * perLayer :=
        Nat.mul_le_mul_right _ (by omega)
      rw [hkeeps, hsame, Int.toNat_natCast]
      rw [Nat.add_mul, Nat.one_mul] at hmul
      split_ifs at hroom <;> omega
    · -- the room is far more than all layers take
      have hmul : (resident.toNat + 2 + k) * perLayer ≤ fit * perLayer :=
        Nat.mul_le_mul_right _ (by omega)
      have hmul' : layers * perLayer ≤ fit * perLayer := Nat.mul_le_mul_right _ (by omega)
      have hk' : k ≤ k * perLayer := Nat.le_mul_of_pos_right k (by omega)
      rw [Nat.add_mul, Nat.add_mul] at hmul
      split_ifs at hroom <;> omega

lemma ite_lt_le (a b : ℤ) : (if a < b then a else b) ≤ a := by
  split_ifs with h
  · exact le_rfl
  · exact not_lt.mp h

/-- What one turn of the loop over the devices makes. -/
lemma shard_iff {maxSeq first layers : ℕ} {d : Device} {sh : Shard}
    (h : s.shard maxSeq d first layers = some sh) (hpos : 0 < sh.layers)
    (hlt : sh.layers < 2 ^ 31) : sh.resident ≤ sh.layers ∧
      (sh.bytes s ≤ sh.budget ↔ mib 512 + sh.kv + sh.layers * s.perLayer ≤ sh.budget) := by
  obtain ⟨fit, hdiv, rfl⟩ := Option.map_eq_some_iff.mp h
  obtain ⟨hzero, hfit⟩ := div?_eq_some.mp hdiv
  rw [Shard.bytes, Setup.staging]
  dsimp only at hpos hlt ⊢
  generalize hres : (if (layers : ℤ) < toInt fit then (layers : ℤ) else toInt fit) = resident
  refine ⟨hres ▸ ite_lt_le _ _, ?_⟩
  simp only [decide_eq_true_eq]
  exact shard_fits (by rw [slack_eq]; decide) hzero hfit hpos hlt hres.symm

lemma mem_shards {maxSeq next : ℕ} {ds : List Device} {split : List ℕ} {shs : List Shard}
    (h : s.shards maxSeq next ds split = some shs) {sh : Shard} (hsh : sh ∈ shs) :
    ∃ d first layers, s.shard maxSeq d first layers = some sh := by
  induction ds generalizing next split shs with
  | nil =>
    cases h
    cases hsh
  | cons d ds ih =>
    obtain ⟨sh', hone, hrest⟩ := Option.bind_eq_some_iff.mp h
    obtain ⟨shs', hshs, rfl⟩ := Option.map_eq_some_iff.mp hrest
    rcases List.mem_cons.mp hsh with rfl | hsh
    · exact ⟨d, next, _, hone⟩
    · exact ih hshs hsh

/-! ### Plans -/

/-- The KV bytes of the primary at the smallest window the loop comes to. -/
def Setup.floorKv (s : Setup) : Option ℕ :=
  s.trimmed.bind fun maxSeq => (s.kvTotal maxSeq).map (s.smallestKv maxSeq)

/-- Layers live where they are computed, and every budget holds what is planned, exactly when the
primary's budget is as `PrimaryFits` says, and the budget of every shard holds its workspace, its
KV slice and all of its layers. -/
theorem plan_sound_iff (hplan : s.plan = some p) (hgo : p.GoesOn s) : p.Sound s ↔
    (∀ kv, s.floorKv = some kv → s.PrimaryFits kv) ∧
      ∀ sh ∈ p.shards, mib 512 + sh.kv + sh.layers * s.perLayer ≤ sh.budget := by
  obtain ⟨maxSeq, htrim, hplan⟩ := Option.bind_eq_some_iff.mp hplan
  obtain ⟨kvTotal, hkv, hplan⟩ := Option.bind_eq_some_iff.mp hplan
  obtain ⟨auto, hauto, hplan⟩ := Option.bind_eq_some_iff.mp hplan
  obtain ⟨shards, hshards, rfl⟩ := Option.map_eq_some_iff.mp hplan
  have hfloor : s.floorKv = some (s.smallestKv maxSeq kvTotal) := by
    rw [Setup.floorKv, htrim, Option.bind_some, hkv, Option.map_some]
  have hsmall : s.smallestKv maxSeq kvTotal ≤ kvTotal := by
    obtain ⟨tokens, htokens, rfl⟩ := Option.map_eq_some_iff.mp hkv
    have := poolTokens_ge htokens
    rw [Setup.smallestKv]
    split_ifs with hle
    · exact le_rfl
    · exact Nat.mul_le_mul_right _ (by omega)
  have hprimary := primary_iff
    ⟨(s.shrink maxSeq kvTotal).1, (s.shrink maxSeq kvTotal).2.1, (s.shrink maxSeq kvTotal).2.2,
      s.residentLayers (s.shrink maxSeq kvTotal).1 auto, shards⟩
    hsmall hgo.strategy hgo.primary_le hauto rfl rfl rfl
  rw [Setup.shardsOf, if_neg hgo.strategy] at hshards
  have hshard : ∀ sh ∈ shards, sh.resident ≤ sh.layers ∧
      (sh.bytes s ≤ sh.budget ↔ mib 512 + sh.kv + sh.layers * s.perLayer ≤ sh.budget) := by
    intro sh hsh
    obtain ⟨d, first, layers, hone⟩ := mem_shards hshards hsh
    have := hgo.shards_le sh hsh
    have := s.layers_lt
    exact shard_iff hone (hgo.shards_pos sh hsh) (by omega)
  constructor
  · intro h
    refine ⟨fun kv hkv' => ?_, fun sh hsh => (hshard sh hsh).2.mp (h.shardBytes sh hsh)⟩
    rw [hfloor] at hkv'
    rw [← Option.some.inj hkv']
    exact hprimary.mp ⟨h.primary, h.primaryBytes⟩
  · rintro ⟨hfits, hslices⟩
    obtain ⟨hown, hbytes⟩ := hprimary.mpr (hfits _ hfloor)
    have hranges : ∀ sh ∈ shards, sh.resident ≤ sh.layers := fun sh hsh => (hshard sh hsh).1
    exact ⟨hown, hranges, home_computes _ hown hranges, hbytes,
      fun sh hsh => (hshard sh hsh).2.mpr (hslices sh hsh)⟩

/-! ### Two devices -/

/-- The share of a device, rounded to the nearest number of layers. -/
def exactShare (room : List ℕ) (layers i : ℕ) : ℕ :=
  let total := (room.map (· + 1)).sum
  (2 * layers * (room.getD i 0 + 1) + total) / (2 * total)

/-- Two layers of 100 MiB with an embedding and a head of 1 GiB each, on a primary with `free` bytes
and a second device with 8 GiB. -/
def twoDevices (free : ℕ) : Setup where
  layers := 2
  layers_lt := by decide
  perLayer := mib 100
  embed := mib 1024
  lmHead := mib 1024
  frontend := 0
  encoderHost := 0
  kv := { kvHeads := 1, headDim := 128, bytesPerVec := 256, hasMeta := false, isRaw := true }
  streamingFamily := false
  maxSeqLen := 2048
  nSlots := 1
  wantsPages := false
  sharesMemory := false
  primary := { free, total := mib 8192, cap := 0, reserved := 0 }
  others := [{ free := mib 8192, total := mib 8192, cap := 0, reserved := 0 }]
  share := exactShare

/-- The second device computes layer 1 and keeps it. -/
def secondShard : Shard :=
  { first := 1, layers := 1, resident := 1, kv := mib 1, budget := mib 8192 }

/-- With room for everything the plan is sound. -/
theorem plan_sound_roomy : ∃ p, (twoDevices (mib 8192)).plan = some p ∧
    p.Sound (twoDevices (mib 8192)) := by
  have hplan : (twoDevices (mib 8192)).plan =
      some ⟨.allGpu, 2048, mib 1, 1, [secondShard]⟩ := by decide +kernel
  refine ⟨_, hplan, (plan_sound_iff _ hplan ⟨by decide, by decide +kernel, by decide +kernel,
    fun sh hsh => ?_, fun sh hsh => ?_⟩).mpr ⟨fun kv hkv => .inl ?_, fun sh hsh => ?_⟩⟩
  · rw [List.mem_singleton.mp hsh]
    decide +kernel
  · rw [List.mem_singleton.mp hsh]
    decide +kernel
  · have hfloor : (twoDevices (mib 8192)).floorKv = some (mib 1) := by decide +kernel
    rw [← Option.some.inj (hfloor.symm.trans hkv)]
    decide +kernel
  · rw [List.mem_singleton.mp hsh]
    decide +kernel

/-- A primary that streams keeps the layer of the second device too: what it leaves for the
embedding and the head it does not keep is room for two layers. -/
theorem plan_not_sound : ¬∀ (s : Setup) (p : Plan), s.plan = some p → p.GoesOn s → p.Sound s := by
  intro h
  have hplan : (twoDevices (mib 1014)).plan =
      some ⟨.streamAll, 2048, mib 1, 2, [secondShard]⟩ := by decide +kernel
  have hsound := h _ _ hplan ⟨by decide, by decide +kernel, by decide +kernel, fun sh hsh => by
    rw [List.mem_singleton.mp hsh]
    decide +kernel, fun sh hsh => by
    rw [List.mem_singleton.mp hsh]
    decide +kernel⟩
  have hown : (twoDevices (mib 1014)).primaryLayers = 1 := by decide +kernel
  have := hsound.primary
  rw [hown] at this
  exact absurd this (by decide)

end VibeVoice.Placement
