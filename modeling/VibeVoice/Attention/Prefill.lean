import VibeVoice.Attention.Decode

/-!
Causal attention of the rows of a prefill, tile by tile (`attention.cu`) and in one pass
(`cpu_kernels.c`), in exact arithmetic.

The warps of a block share tiles of keys and values, so all of them go on as long as the last row
needs to; a mask keeps each row to the positions that it sees. Caches and chunks have less than
`2 ^ 31` elements, as the kernel's `int` offsets take them.

* `flashAttn2Prefill`: what the threads of the tiled kernel store.
* `attentionPrefillCpu`: the loop of the CPU.
* `block_state`: behind some tiles, the state of a row is that of its positions in them.
* `prefill_agrees`: the two give a row the same attention over the positions that it sees.
-/

namespace VibeVoice.Attention

open Finset Lanes Warp Softmax

variable {R : Type} [Field R] [LinearOrder R] (A : Flash R)

/-- The arguments of the two prefills; `null` where a pointer is missing. -/
structure PrefillCall (R : Type) where
  q : ℕ → R
  k : ℕ → R
  v : ℕ → R
  null : Bool
  nQHeads : ℕ
  nKvHeads : ℕ
  headDim : ℕ
  qLen : ℕ
  qOffset : ℕ
  kvLen : ℕ
  causal : Bool
  scale : R

namespace PrefillCall

variable (c : PrefillCall R)

/-! ### The tiled kernel -/

/-- `kv_head`. -/
def kvHead (head : ℕ) : ℕ := head / (c.nQHeads / c.nKvHeads)

/-- `block_max_kv`. -/
def blockMaxKv (tileRow : ℕ) : ℕ :=
  let tileLast := tileRow * 8 + 8 - 1
  let most := if c.causal then c.qOffset + tileLast + 1 else c.kvLen
  if c.kvLen < most then c.kvLen else most

/-- `K_tile` or `V_tile`, over what it held. -/
def loadTile (src : ℕ → R) (head kvStart : ℕ) (tile : ℕ → R) : ℕ → R :=
  stores ((List.range 256).flatMap fun tid =>
    (strided (32 * c.headDim) 256 tid).map fun idx =>
      let r := idx / c.headDim
      let col := idx % c.headDim
      let pos := kvStart + r
      (r * (c.headDim + 2) + col, if pos < c.kvLen then
        src (pos * (c.nKvHeads * c.headDim) + c.kvHead head * c.headDim + col) else 0)) tile

/-- `Q_smem`. -/
def loadQ (head tileRow : ℕ) (smem : ℕ → R) : ℕ → R :=
  stores ((List.range 8).flatMap fun warp =>
    (List.range 32).flatMap fun lane =>
      (strided c.headDim 32 lane).map fun d =>
        let qRow := tileRow * 8 + warp
        (warp * c.headDim + d, if qRow < c.qLen then
          c.q (qRow * (c.nQHeads * c.headDim) + head * c.headDim + d) else 0)) smem

/-- A block between two tiles: its shared memory, and the registers of the lanes of its warps. -/
structure Block (R : Type) where
  kTile : ℕ → R
  vTile : ℕ → R
  regs : ℕ → ℕ → Running R (ℕ → R)

/-- `score` of a lane. -/
def tileScore (qSmem kTile : ℕ → R) (tileRow kvStart warp lane : ℕ) : R :=
  let qRow := tileRow * 8 + warp
  let kvPos := kvStart + lane
  if qRow < c.qLen ∧ kvPos < c.kvLen ∧ (c.causal = false ∨ kvPos ≤ c.qOffset + qRow) then
    (∑ d ∈ range (c.headDim / 2),
      (qSmem (warp * c.headDim + 2 * d) * kTile (lane * (c.headDim + 2) + 2 * d) +
        qSmem (warp * c.headDim + (2 * d + 1)) *
          kTile (lane * (c.headDim + 2) + (2 * d + 1)))) * c.scale
  else A.low

/-- What a warp makes of a tile with these scores. -/
def tileStep (score : ℕ → R) (vTile : ℕ → R) (tileValid : ℕ) (w : ℕ → Running R (ℕ → R)) :
    ℕ → Running R (ℕ → R) :=
  let top := fun lane => max (w lane).m (exchange max 5 score lane)
  let p := fun lane =>
    if A.low < score lane ∧ A.low < top lane then A.exp (score lane - top lane) else 0
  fun lane =>
    let haveAny := A.low < top lane
    let alpha := if haveAny ∧ A.low < (w lane).m then A.exp ((w lane).m - top lane) else 1
    { m := if haveAny then top lane else (w lane).m
      l := (w lane).l * alpha + butterfly 5 p lane
      o := fun d => (w lane).o d * alpha + ∑ k ∈ range tileValid, if p k ≠ 0 then
        p k * vTile (k * (c.headDim + 2) + lane * (c.headDim / 32) + d) else 0 }

/-- One turn of the loop over the tiles, in all threads of a block. -/
def tileTurn (qSmem : ℕ → R) (head tileRow : ℕ) (b : Block R) (tj : ℕ) : Block R :=
  let kvStart := tj * 32
  let kTile := c.loadTile c.k head kvStart b.kTile
  let vTile := c.loadTile c.v head kvStart b.vTile
  { kTile := kTile
    vTile := vTile
    regs := fun warp => c.tileStep A (c.tileScore A qSmem kTile tileRow kvStart warp) vTile
      (min 32 (c.kvLen - kvStart)) (b.regs warp) }

/-- A block behind its loop, where the shared memory held anything at first. -/
def block (head tileRow : ℕ) (smem : ℕ → R) : Block R :=
  (List.range ((c.blockMaxKv tileRow + 32 - 1) / 32)).foldl
    (c.tileTurn A (c.loadQ head tileRow smem) head tileRow) ⟨smem, smem, fun _ _ => ⟨A.low, 0, 0⟩⟩

/-- `flash_attn2_prefill_kernel`, with what was in the shared memory of a block. -/
def flashAttn2Prefill (smem : ℕ → ℕ → ℕ → R) : List (ℕ × R) :=
  (List.range c.nQHeads).flatMap fun head =>
    (List.range ((c.qLen + 8 - 1) / 8)).flatMap fun tileRow =>
      (List.range 8).flatMap fun warp =>
        (List.range 32).flatMap fun lane =>
          let qRow := tileRow * 8 + warp
          let r := (c.block A head tileRow (smem head tileRow)).regs warp lane
          if qRow < c.qLen then
            (List.range (c.headDim / 32)).map fun d =>
              (qRow * (c.nQHeads * c.headDim) + head * c.headDim + lane * (c.headDim / 32) + d,
                r.o d * if A.tiny < r.l then 1 / r.l else 0)
          else []

/-- `vv_attn_fa1_prefill_dev`. -/
def vvAttnFa1PrefillDev (smem : ℕ → ℕ → ℕ → R) : Except Status (Option (List (ℕ × R))) :=
  if c.null then .error .nullPtr
  else if c.qLen = 0 ∨ c.kvLen = 0 then .ok none
  else if 256 < c.headDim ∨ c.headDim % 32 ≠ 0 then .error .unsupported
  else .ok (some (c.flashAttn2Prefill A smem))

/-! ### The CPU -/

/-- `limit`: the positions that a row sees. -/
def limit (r : ℕ) : ℕ :=
  let qAbs := c.qOffset + r
  if c.causal then (if qAbs + 1 < c.kvLen then qAbs + 1 else c.kvLen) else c.kvLen

/-- The query of a row. -/
def query (r h d : ℕ) : R := c.q (r * (c.nQHeads * c.headDim) + h * c.headDim + d)

/-- The keys of a head. -/
def key (h t d : ℕ) : R := c.k (t * (c.nKvHeads * c.headDim) + c.kvHead h * c.headDim + d)

/-- The values. -/
def value (h t d : ℕ) : R := c.v (t * (c.nKvHeads * c.headDim) + c.kvHead h * c.headDim + d)

/-- `sc`. -/
def score (r h t : ℕ) : R := (∑ d ∈ range c.headDim, c.query r h d * c.key h t d) * c.scale

/-- `m_i`, `l_i` and `ov` of the pass; `none` is `-INFINITY`. -/
structure Pass (R : Type) where
  m : Option R
  l : R
  o : ℕ → R

/-- A position of the pass. -/
def passTurn (E : Expo R) (s : R) (v : ℕ → R) (p : Pass R) : Pass R :=
  let top := match p.m with
    | none => s
    | some m => if m < s then s else m
  let a := match p.m with
    | none => 0
    | some m => E.exp (m - top)
  let w := E.exp (s - top)
  { m := some top
    l := p.l * a + w
    o := fun d => p.o d * a + w * v d }

/-- The pass over the positions of a row. -/
def pass (E : Expo R) (r h : ℕ) : Pass R :=
  (List.range (c.limit r)).foldl (fun p t => passTurn E (c.score r h t) (c.value h t) p)
    ⟨none, 0, fun _ => 0⟩

/-- `vv_attention_prefill_cpu`. -/
def attentionPrefillCpu (E : Expo R) : Except Status (List (ℕ × R)) :=
  if c.null then .error .nullPtr
  else .ok <| (List.range c.qLen).flatMap fun r =>
    (List.range c.nQHeads).flatMap fun h =>
      (List.range c.headDim).map fun d =>
        let p := c.pass E r h
        (r * (c.nQHeads * c.headDim) + h * c.headDim + d, p.o d * if 0 < p.l then 1 / p.l else 0)

/-! ### Shared memory -/

variable {c} {A}

omit [LinearOrder R] in
/-- A row of a tile is a row of the cache, or zero behind its end. -/
lemma loadTile_eq {src tile : ℕ → R} {head kvStart r col : ℕ} (hr : r < 32)
    (hcol : col < c.headDim) :
    c.loadTile src head kvStart tile (r * (c.headDim + 2) + col) =
      if kvStart + r < c.kvLen then
        src ((kvStart + r) * (c.nKvHeads * c.headDim) + c.kvHead head * c.headDim + col) else 0 := by
  have hdim : 0 < c.headDim := by omega
  have hdiv : (r * c.headDim + col) / c.headDim = r := by
    rw [Nat.mul_comm, Nat.mul_add_div hdim, Nat.div_eq_of_lt hcol, Nat.add_zero]
  have hmod : (r * c.headDim + col) % c.headDim = col := by
    rw [Nat.mul_add_mod_self_right, Nat.mod_eq_of_lt hcol]
  refine stores_eq ⟨_, List.mem_flatMap.mpr ⟨(r * c.headDim + col) % 256, ?_,
    List.mem_map.mpr ⟨r * c.headDim + col, ?_, rfl⟩⟩, ?_⟩ ?_
  · exact List.mem_range.mpr (Nat.mod_lt _ (by omega))
  · exact (mem_strided (by omega) (Nat.mod_lt _ (by omega))).mpr ⟨Kernels.cell_lt hr hcol, rfl⟩
  · show (r * c.headDim + col) / c.headDim * (c.headDim + 2) + (r * c.headDim + col) % c.headDim =
      r * (c.headDim + 2) + col
    rw [hdiv, hmod]
  · intro w hw hx
    obtain ⟨tid, -, hw⟩ := List.mem_flatMap.mp hw
    obtain ⟨idx, -, rfl⟩ := List.mem_map.mp hw
    have hlt := Nat.mod_lt idx hdim
    obtain ⟨hrow, hcol'⟩ := Kernels.cell_inj (by omega) (by omega) hx
    rw [hrow, hcol']

omit [LinearOrder R] in
/-- The query of a warp. -/
lemma loadQ_eq {smem : ℕ → R} {head tileRow warp d : ℕ} (hwarp : warp < 8) (hd : d < c.headDim)
    (hrow : tileRow * 8 + warp < c.qLen) :
    c.loadQ head tileRow smem (warp * c.headDim + d) = c.query (tileRow * 8 + warp) head d := by
  refine stores_eq ⟨_, List.mem_flatMap.mpr ⟨warp, List.mem_range.mpr hwarp,
    List.mem_flatMap.mpr ⟨d % 32, List.mem_range.mpr (Nat.mod_lt d (by omega)),
      List.mem_map.mpr ⟨d, ?_, rfl⟩⟩⟩, rfl⟩ ?_
  · exact (mem_strided (by omega) (Nat.mod_lt d (by omega))).mpr ⟨hd, rfl⟩
  · intro w hw hx
    obtain ⟨warp', -, hw⟩ := List.mem_flatMap.mp hw
    obtain ⟨lane, hlane, hw⟩ := List.mem_flatMap.mp hw
    obtain ⟨d', hd', rfl⟩ := List.mem_map.mp hw
    have hd' := ((mem_strided (by omega) (List.mem_range.mp hlane)).mp hd').1
    obtain ⟨rfl, rfl⟩ := Kernels.cell_inj hd' hd hx
    exact if_pos hrow

/-! ### A tile -/

omit [Field R] [LinearOrder R] in
lemma lt_limit {r t : ℕ} : t < c.limit r ↔
    t < c.kvLen ∧ (c.causal = false ∨ t ≤ c.qOffset + r) := by
  rw [limit]
  rcases c.causal with - | -
  · simp
  · simp only [if_true, Bool.true_eq_false, false_or]
    split_ifs <;> omega

/-- A lane scores its position, or has the sentinel where its row does not see it. -/
lemma tileScore_eq {qSmem kTile : ℕ → R} {tileRow kvStart warp lane head : ℕ}
    (hdim : c.headDim % 2 = 0) (hrow : tileRow * 8 + warp < c.qLen)
    (hq : ∀ d < c.headDim, qSmem (warp * c.headDim + d) = c.query (tileRow * 8 + warp) head d)
    (hk : ∀ d < c.headDim, kvStart + lane < c.kvLen →
      kTile (lane * (c.headDim + 2) + d) = c.key head (kvStart + lane) d) :
    c.tileScore A qSmem kTile tileRow kvStart warp lane =
      if kvStart + lane < c.limit (tileRow * 8 + warp) then
        c.score (tileRow * 8 + warp) head (kvStart + lane) else A.low := by
  have hsee : (tileRow * 8 + warp < c.qLen ∧ kvStart + lane < c.kvLen ∧
      (c.causal = false ∨ kvStart + lane ≤ c.qOffset + (tileRow * 8 + warp))) ↔
        kvStart + lane < c.limit (tileRow * 8 + warp) := by
    rw [and_iff_right hrow, lt_limit]
  refine if_ctx_congr hsee (fun hvis => congrArg (· * c.scale) ?_) fun _ => rfl
  have hlt := (lt_limit.mp hvis).1
  obtain ⟨n, hn⟩ : ∃ n, n = c.headDim / 2 := ⟨_, rfl⟩
  have hdim : c.headDim = n * 2 := by omega
  have hpairs := sum_range_mul (fun d => c.query (tileRow * 8 + warp) head d *
    c.key head (kvStart + lane) d) n 2
  rw [← hdim] at hpairs
  rw [hpairs, ← hn]
  refine sum_congr rfl fun i hi => ?_
  have hi := mem_range.mp hi
  rw [hq _ (by omega), hq _ (by omega), hk _ (by omega) hlt, hk _ (by omega) hlt, sum_range_succ,
    sum_range_one, Nat.mul_comm i 2]
  rfl

/-- The positions of a tile that a row sees. -/
lemma range_tile (kvStart limit : ℕ) : range (min kvStart limit) ∪
    ((range 32).filter (kvStart + · < limit)).image (kvStart + ·) =
      range (min (kvStart + 32) limit) := by
  ext t
  simp only [mem_union, mem_range, mem_image, mem_filter]
  constructor
  · rintro (ht | ⟨k, ⟨hk, hlt⟩, rfl⟩) <;> omega
  · intro ht
    rcases Nat.lt_or_ge t kvStart with hlt | hge
    · exact .inl (by omega)
    · exact .inr ⟨t - kvStart, ⟨by omega, by omega⟩, by omega⟩

/-- The state of a row behind the first `n` positions. -/
def rowState (A : Flash R) (c : PrefillCall R) (r h n : ℕ) : Running R (ℕ → R) :=
  running A.toExpo A.low (c.score r h) (c.value h) (range (min n (c.limit r)))

/-- The weight of a lane's score. -/
def tileWeight (A : Flash R) (f : ℕ → R) (top : R) (k : ℕ) : R :=
  if A.low < f k ∧ A.low < top then A.exp (f k - top) else 0

section Tile

variable {r h kvStart : ℕ} {f : ℕ → R}

/-- The state of a row behind a tile, from the scores of its lanes. -/
lemma rowState_tile (hlow : ∀ t < c.limit r, A.low < c.score r h t)
    (hf : ∀ k < 32, f k = if kvStart + k < c.limit r then c.score r h (kvStart + k) else A.low) :
    let r₀ := rowState A c r h kvStart
    let top := max r₀.m ((range 32).fold max A.low f)
    let alpha := if A.low < top ∧ A.low < r₀.m then A.exp (r₀.m - top) else 1
    (rowState A c r h (kvStart + 32)).m = (if A.low < top then top else r₀.m) ∧
      (rowState A c r h (kvStart + 32)).l =
        r₀.l * alpha + ∑ k ∈ range 32, tileWeight A f top k ∧
      ∀ e, (rowState A c r h (kvStart + 32)).o e = r₀.o e * alpha +
        ∑ k ∈ range 32, tileWeight A f top k * c.value h (kvStart + k) e := by
  intro r₀ top alpha
  have hstate : rowState A c r h (kvStart + 32) = ⟨if A.low < top then top else r₀.m,
      r₀.l * alpha + ∑ k ∈ range 32, tileWeight A f top k,
      alpha • r₀.o + ∑ k ∈ range 32, tileWeight A f top k • c.value h (kvStart + k)⟩ := by
    rw [rowState, ← range_tile]
    refine tile_running (fun a _ b _ hab => Nat.add_left_cancel hab)
      (fun k hk => hf k (mem_range.mp hk)) ?_ (fun t ht => hlow t ?_) fun k _ hk => hlow _ hk
    · refine disjoint_left.mpr fun t ht ht' => ?_
      obtain ⟨k, -, rfl⟩ := mem_image.mp ht'
      have hlt := mem_range.mp ht
      omega
    · have hlt := mem_range.mp ht
      omega
  rw [hstate]
  refine ⟨rfl, rfl, fun e => ?_⟩
  calc alpha * r₀.o e + (∑ k ∈ range 32, tileWeight A f top k • c.value h (kvStart + k)) e
      = r₀.o e * alpha + ∑ k ∈ range 32, tileWeight A f top k * c.value h (kvStart + k) e := by
        rw [mul_comm, Finset.sum_apply]
        rfl

/-- A warp takes in the positions of a tile that its row sees. -/
lemma tileStep_carries {lane : ℕ} {vTile : ℕ → R} {w : ℕ → Running R (ℕ → R)}
    (hdim : c.headDim % 32 = 0) (hlane : lane < 32)
    (hlow : ∀ t < c.limit r, A.low < c.score r h t)
    (hf : ∀ k < 32, f k = if kvStart + k < c.limit r then c.score r h (kvStart + k) else A.low)
    (hv : ∀ k < 32, ∀ d < c.headDim, kvStart + k < c.kvLen →
      vTile (k * (c.headDim + 2) + d) = c.value h (kvStart + k) d)
    (hw : ∀ lane < 32, Carries (c.headDim / 32) (w lane) (rowState A c r h kvStart) lane) :
    Carries (c.headDim / 32) (c.tileStep A f vTile (min 32 (c.kvLen - kvStart)) w lane)
      (rowState A c r h (kvStart + 32)) lane := by
  obtain ⟨hm, hl, ho⟩ := rowState_tile hlow hf
  obtain ⟨top, htop⟩ : ∃ top, top = max (rowState A c r h kvStart).m
    ((range 32).fold max A.low f) := ⟨_, rfl⟩
  rw [← htop] at hm hl ho
  have hle : ∀ k < 32, A.low ≤ f k := by
    intro k hk
    rw [hf k hk]
    split_ifs with hvis
    · exact (hlow _ hvis).le
    · exact le_rfl
  -- every lane of the warp finds the same largest score
  have hlanes : ∀ k < 32, max (w k).m (exchange max 5 f k) = top := by
    intro k hk
    rw [htop, (hw k hk).m]
    exact congrArg _ (exchange_max hk hle)
  have hp : ∀ k < 32, (if A.low < f k ∧ A.low < max (w k).m (exchange max 5 f k) then
      A.exp (f k - max (w k).m (exchange max 5 f k)) else 0) = tileWeight A f top k :=
    fun k hk => by rw [hlanes k hk, tileWeight]
  have hzero : ∀ k < 32, c.kvLen ≤ kvStart + k → tileWeight A f top k = 0 := by
    intro k hk hend
    rw [tileWeight, hf k hk, if_neg fun hlt => not_lt.mpr hend (lt_limit.mp hlt).1]
    exact if_neg fun hboth => lt_irrefl _ hboth.1
  have hcar := hw lane hlane
  refine ⟨?_, ?_, fun d hd => ?_⟩
  · rw [hm, ← hcar.m]
    simp only [tileStep, hlanes lane hlane]
  · rw [hl, ← hcar.l, ← hcar.m]
    simp only [tileStep, hlanes lane hlane]
    rw [butterfly_eq_sum_range _ hlane]
    exact congrArg _ (sum_congr rfl fun k hk => hp k (mem_range.mp hk))
  · have hin : lane * (c.headDim / 32) + d < c.headDim := by
      calc lane * (c.headDim / 32) + d < 32 * (c.headDim / 32) := Kernels.cell_lt hlane hd
        _ = c.headDim := Nat.mul_div_cancel' (Nat.dvd_of_mod_eq_zero hdim)
    rw [ho, ← hcar.o d hd, ← hcar.m]
    simp only [tileStep, hlanes lane hlane]
    refine congrArg _ ?_
    calc _ = ∑ k ∈ range (min 32 (c.kvLen - kvStart)),
            tileWeight A f top k * c.value h (kvStart + k) (lane * (c.headDim / 32) + d) := by
          refine sum_congr rfl fun k hk => ?_
          have hk := mem_range.mp hk
          rw [hp k (by omega), Nat.add_assoc, hv k (by omega) _ hin (by omega)]
          split_ifs with hne
          · rfl
          · rw [not_not.mp hne, zero_mul]
      _ = ∑ k ∈ range 32,
            tileWeight A f top k * c.value h (kvStart + k) (lane * (c.headDim / 32) + d) := by
          refine sum_subset (range_mono (Nat.min_le_left ..)) fun k hk hk' => ?_
          rw [mem_range] at hk hk'
          rw [hzero k hk (by omega), zero_mul]

end Tile

/-! ### A block -/

section Run

variable {tileRow warp head : ℕ}

/-- Behind some tiles, a row has the state of its positions in them. -/
lemma block_state (smem : ℕ → R) (hdim : c.headDim % 32 = 0) (hwarp : warp < 8)
    (hrow : tileRow * 8 + warp < c.qLen)
    (hlow : ∀ t < c.limit (tileRow * 8 + warp), A.low < c.score (tileRow * 8 + warp) head t)
    (n : ℕ) : ∀ lane < 32, Carries (c.headDim / 32)
      (((List.range n).foldl (c.tileTurn A (c.loadQ head tileRow smem) head tileRow)
        ⟨smem, smem, fun _ _ => ⟨A.low, 0, 0⟩⟩).regs warp lane)
      (rowState A c (tileRow * 8 + warp) head (n * 32)) lane := by
  induction n with
  | zero =>
    intro lane _
    rw [rowState, Nat.zero_mul, Nat.zero_min, range_zero, running_empty]
    exact ⟨rfl, rfl, fun _ _ => rfl⟩
  | succ n ih =>
    intro lane hlane
    rw [List.range_succ, List.foldl_append, List.foldl_cons, List.foldl_nil, Nat.succ_mul]
    refine tileStep_carries hdim hlane hlow (fun k hk => ?_) (fun k hk d hd hlt => ?_) ih
    · refine tileScore_eq (by omega) hrow (fun d hd => loadQ_eq hwarp hd hrow) fun d hd hlt => ?_
      rw [loadTile_eq hk hd, if_pos hlt, key]
    · rw [loadTile_eq hk hd, if_pos hlt, value]

omit [Field R] [LinearOrder R] in
/-- The tiles of a block get as far as its rows see. -/
lemma limit_le_blockMaxKv (tileRow : ℕ) (hwarp : warp < 8) :
    c.limit (tileRow * 8 + warp) ≤ c.blockMaxKv tileRow := by
  rw [limit, blockMaxKv]
  rcases c.causal with - | - <;> simp only [if_true, Bool.false_eq_true, if_false] <;> split_ifs <;>
    omega

/-- Behind its loop, a row has the state of all positions it sees. -/
lemma block_carries (smem : ℕ → R) {lane : ℕ} (hdim : c.headDim % 32 = 0) (hwarp : warp < 8)
    (hrow : tileRow * 8 + warp < c.qLen)
    (hlow : ∀ t < c.limit (tileRow * 8 + warp), A.low < c.score (tileRow * 8 + warp) head t)
    (hlane : lane < 32) :
    Carries (c.headDim / 32) ((c.block A head tileRow smem).regs warp lane)
      (running A.toExpo A.low (c.score (tileRow * 8 + warp) head) (c.value head)
        (range (c.limit (tileRow * 8 + warp)))) lane := by
  have hstate := block_state smem hdim hwarp hrow hlow
    ((c.blockMaxKv tileRow + 32 - 1) / 32) lane hlane
  have hle := limit_le_blockMaxKv (c := c) tileRow hwarp
  rwa [rowState, Nat.min_eq_right (by omega)] at hstate

end Run

/-! ### The pass of the CPU -/

/-- A position of the pass, where `none` stands for the sentinel. -/
lemma passTurn_take {E : Expo R} {low s : R} {v : ℕ → R} {r : Running R (ℕ → R)} {n : ℕ}
    (hs : low < s) (hle : low ≤ r.m) (hn : low < r.m ↔ n ≠ 0) :
    passTurn E s v ⟨if n = 0 then none else some r.m, r.l, r.o⟩ =
      ⟨some (r.take E low s v).m, (r.take E low s v).l, (r.take E low s v).o⟩ := by
  by_cases hzero : n = 0
  · have hm : r.m = low := le_antisymm (not_lt.mp fun hlt => hn.mp hlt hzero) hle
    rw [if_pos hzero, Running.take, hm, max_eq_right hs.le, if_neg (lt_irrefl low)]
    simp only [passTurn, zero_smul, mul_zero, zero_add]
    rfl
  · have hmax : (if r.m < s then s else r.m) = max r.m s := by
      split_ifs with hlt
      · exact (max_eq_right hlt.le).symm
      · exact (max_eq_left (not_lt.mp hlt)).symm
    rw [if_neg hzero, Running.take, if_pos (hn.mpr hzero)]
    simp only [passTurn, hmax]
    congr 1
    funext d
    exact congrArg (· + _) (mul_comm ..)

/-- Behind some positions, the pass has their state. -/
lemma foldl_passTurn {E : Expo R} {low : R} {r h : ℕ} (n : ℕ)
    (hlow : ∀ t < n, low < c.score r h t) :
    (List.range n).foldl (fun p t => passTurn E (c.score r h t) (c.value h t) p)
        ⟨none, 0, fun _ => 0⟩ =
      ⟨if n = 0 then none else some (running E low (c.score r h) (c.value h) (range n)).m,
        (running E low (c.score r h) (c.value h) (range n)).l,
        (running E low (c.score r h) (c.value h) (range n)).o⟩ := by
  induction n with
  | zero => rfl
  | succ n ih =>
    have hlow' : ∀ t ∈ range n, low < c.score r h t :=
      fun t ht => hlow t ((mem_range.mp ht).trans n.lt_succ_self)
    have hnext := take_running (E := E) (v := c.value h) (notMem_range_self (n := n)) hlow'
      (hlow n n.lt_succ_self)
    have hunion : range n ∪ {n} = range (n + 1) := by
      rw [range_add_one, union_comm]
      rfl
    have hsome : low < (running E low (c.score r h) (c.value h) (range n)).m ↔ n ≠ 0 :=
      (low_lt_fold hlow').trans nonempty_range_iff
    rw [List.range_succ, List.foldl_append, List.foldl_cons, List.foldl_nil,
      ih fun t ht => hlow t (ht.trans n.lt_succ_self), ← hunion, ← hnext, if_neg n.succ_ne_zero]
    have hle : low ≤ (range n).fold max low (c.score r h) := low_le_fold
    exact passTurn_take (hlow n n.lt_succ_self) hle hsome

/-! ### Both -/

/-- The attention of a row over the positions that it sees. -/
def attended (E : Expo R) (c : PrefillCall R) (r h : ℕ) : ℕ → R :=
  mean E (c.score r h) (c.value h) (range (c.limit r))

/-- Where a dimension of a row and a head is in the output. -/
def cell (c : PrefillCall R) (i : ℕ × ℕ × ℕ) : ℕ :=
  i.1 * (c.nQHeads * c.headDim) + i.2.1 * c.headDim + i.2.2

/-- The rows, heads and dimensions of the output. -/
def cells (c : PrefillCall R) : Set (ℕ × ℕ × ℕ) :=
  {i | i.1 < c.qLen ∧ i.2.1 < c.nQHeads ∧ i.2.2 < c.headDim}

omit [Field R] [LinearOrder R] in
lemma cell_injOn : Set.InjOn c.cell c.cells := by
  rintro ⟨r, h, d⟩ ⟨-, hh, hd⟩ ⟨r', h', d'⟩ ⟨-, hh', hd'⟩ heq
  simp only [cell, Nat.add_assoc] at heq
  obtain ⟨rfl, heq⟩ := Kernels.cell_inj (Kernels.cell_lt hh hd) (Kernels.cell_lt hh' hd') heq
  obtain ⟨rfl, rfl⟩ := Kernels.cell_inj hd hd' heq
  rfl

lemma mem_flashAttn2Prefill [IsStrictOrderedRing R] (hdim : c.headDim % 32 = 0)
    (smem : ℕ → ℕ → ℕ → R)
    (hlow : ∀ r < c.qLen, ∀ h < c.nQHeads, ∀ t < c.limit r, A.low < c.score r h t) (x : ℕ × R) :
    x ∈ c.flashAttn2Prefill A smem ↔
      ∃ i ∈ c.cells, x = (c.cell i, attended A.toExpo c i.1 i.2.1 i.2.2) := by
  have hn : 32 * (c.headDim / 32) = c.headDim :=
    Nat.mul_div_cancel' (Nat.dvd_of_mod_eq_zero hdim)
  have hval : ∀ head < c.nQHeads, ∀ tileRow warp lane d, warp < 8 → tileRow * 8 + warp < c.qLen →
      lane < 32 → d < c.headDim / 32 →
      ((c.block A head tileRow (smem head tileRow)).regs warp lane).o d *
        (if A.tiny < ((c.block A head tileRow (smem head tileRow)).regs warp lane).l then
          1 / ((c.block A head tileRow (smem head tileRow)).regs warp lane).l else 0) =
      attended A.toExpo c (tileRow * 8 + warp) head (lane * (c.headDim / 32) + d) := by
    intro head hhead tileRow warp lane d hwarp hrow hlane hd
    have hcar := block_carries (smem head tileRow) hdim hwarp hrow
      (hlow _ hrow head hhead) hlane
    rw [hcar.l, hcar.o d hd, attended, one_div, ← quotient_running A.tiny_lt fun t ht =>
      hlow _ hrow head hhead t (mem_range.mp ht)]
    exact mul_comm ..
  simp only [flashAttn2Prefill, List.mem_flatMap, List.mem_range]
  constructor
  · rintro ⟨head, hhead, tileRow, -, warp, hwarp, lane, hlane, hx⟩
    by_cases hrow : tileRow * 8 + warp < c.qLen
    · rw [if_pos hrow] at hx
      obtain ⟨d, hd, rfl⟩ := List.mem_map.mp hx
      have hd := List.mem_range.mp hd
      refine ⟨(tileRow * 8 + warp, head, lane * (c.headDim / 32) + d), ⟨hrow, hhead, ?_⟩, ?_⟩
      · exact (Kernels.cell_lt hlane hd).trans_eq hn
      · rw [hval head hhead tileRow warp lane d hwarp hrow hlane hd, cell, Nat.add_assoc _ _ d]
    · rw [if_neg hrow] at hx
      exact absurd hx List.not_mem_nil
  · rintro ⟨⟨r, head, e⟩, ⟨hr, hhead, he⟩, rfl⟩
    have hr : r < c.qLen := hr
    have he : e < c.headDim := he
    have hpos : 0 < c.headDim / 32 := by omega
    have hd := Nat.mod_lt e hpos
    have hlane : e / (c.headDim / 32) < 32 := (Nat.div_lt_iff_lt_mul hpos).mpr (by omega)
    refine ⟨head, hhead, r / 8, by omega, r % 8, Nat.mod_lt r (by omega), e / (c.headDim / 32),
      hlane, ?_⟩
    have hv := hval head hhead (r / 8) (r % 8) _ _ (Nat.mod_lt r (by omega))
      (by rwa [Nat.div_add_mod']) hlane hd
    rw [Nat.div_add_mod', Nat.div_add_mod'] at hv
    rw [Nat.div_add_mod', if_pos hr, List.mem_map]
    refine ⟨e % (c.headDim / 32), List.mem_range.mpr hd, ?_⟩
    rw [hv, cell, Nat.add_assoc _ (e / (c.headDim / 32) * _), Nat.div_add_mod']

lemma mem_attentionPrefillCpu [IsStrictOrderedRing R] {E : Expo R} {low : R} {cpu : List (ℕ × R)}
    (hcpu : c.attentionPrefillCpu E = .ok cpu)
    (hlow : ∀ r < c.qLen, ∀ h < c.nQHeads, ∀ t < c.limit r, low < c.score r h t) (x : ℕ × R) :
    x ∈ cpu ↔ ∃ i ∈ c.cells, x = (c.cell i, attended E c i.1 i.2.1 i.2.2) := by
  rw [attentionPrefillCpu] at hcpu
  split_ifs at hcpu
  obtain rfl := Except.ok.inj hcpu
  have hval : ∀ r < c.qLen, ∀ h < c.nQHeads, ∀ d,
      (c.pass E r h).o d * (if 0 < (c.pass E r h).l then 1 / (c.pass E r h).l else 0) =
        attended E c r h d := by
    intro r hr h hh d
    rw [pass, foldl_passTurn _ (hlow r hr h hh), attended, one_div,
      ← quotient_running one_pos fun t ht => hlow r hr h hh t (mem_range.mp ht)]
    exact mul_comm ..
  simp only [List.mem_flatMap, List.mem_map, List.mem_range]
  constructor
  · rintro ⟨r, hr, h, hh, d, hd, rfl⟩
    exact ⟨(r, h, d), ⟨hr, hh, hd⟩, Prod.ext rfl (hval r hr h hh d)⟩
  · rintro ⟨⟨r, h, d⟩, ⟨hr, hh, hd⟩, rfl⟩
    exact ⟨r, hr, h, hh, d, hd, Prod.ext rfl (hval r hr h hh d)⟩

end PrefillCall

open PrefillCall

/-- **Prefill.**  In whatever order the threads store, the tiled kernel and the pass of the CPU give
each row of each head the same: its attention over the positions that it sees.  Nothing else
changes. -/
theorem prefill_agrees [IsStrictOrderedRing R] (A : Flash R) (c : PrefillCall R)
    {smem : ℕ → ℕ → ℕ → R} {gpu cpu : List (ℕ × R)} {out out' host host' : ℕ → R}
    (hgpu : c.vvAttnFa1PrefillDev A smem = .ok (some gpu))
    (hcpu : c.attentionPrefillCpu A.toExpo = .ok cpu)
    (hlow : ∀ r < c.qLen, ∀ h < c.nQHeads, ∀ t < c.limit r, A.low < c.score r h t)
    (hout : Stored gpu out out') (hhost : Stored cpu host host') :
    (∀ i ∈ c.cells, out' (c.cell i) = attended A.toExpo c i.1 i.2.1 i.2.2 ∧
        host' (c.cell i) = attended A.toExpo c i.1 i.2.1 i.2.2) ∧
      ∀ o, (∀ i ∈ c.cells, c.cell i ≠ o) → out' o = out o ∧ host' o = host o := by
  rw [vvAttnFa1PrefillDev] at hgpu
  split_ifs at hgpu with hnull hlen hdim
  · cases hgpu
  obtain rfl := Option.some.inj (Except.ok.inj hgpu)
  obtain ⟨-, hdim⟩ := not_or.mp hdim
  obtain ⟨hcells, hrest⟩ := hout.cells cell_injOn
    (mem_flashAttn2Prefill (not_not.mp hdim) smem hlow)
  obtain ⟨hcells', hrest'⟩ := hhost.cells cell_injOn (mem_attentionPrefillCpu hcpu hlow)
  exact ⟨fun i hi => ⟨hcells i hi, hcells' i hi⟩, fun o ho => ⟨hrest o ho, hrest' o ho⟩⟩

/-- The second chunk of a prompt. -/
noncomputable def secondChunk : PrefillCall ℝ where
  q := fun i => i
  k := fun i => i
  v := fun i => i
  null := false
  nQHeads := 14
  nKvHeads := 2
  headDim := 64
  qLen := 10
  qOffset := 30
  kvLen := 40
  causal := true
  scale := 1

theorem prefill_agrees_second :
    stores (secondChunk.flashAttn2Prefill Flash.real fun _ _ _ => 0) (fun _ => 0)
        (secondChunk.cell (3, 9, 5)) =
      attended Flash.real.toExpo secondChunk 3 9 5 := by
  have hlow : ∀ r < 10, ∀ h < 14, ∀ t < secondChunk.limit r,
      Flash.real.low < secondChunk.score r h t := fun r _ h _ t _ =>
    low_lt_of_nonneg (mul_nonneg (sum_nonneg fun d _ =>
      mul_nonneg (Nat.cast_nonneg _) (Nat.cast_nonneg _)) zero_le_one)
  have hcell : (3, 9, 5) ∈ secondChunk.cells := ⟨by decide, by decide, by decide⟩
  exact ((prefill_agrees Flash.real secondChunk rfl rfl hlow (stored _ _)
    (stored _ fun _ => 0)).1 (3, 9, 5) hcell).1

end VibeVoice.Attention
