import VibeVoice.Kernels.Int8Encoder
import VibeVoice.Lib.Loop
import VibeVoice.Lib.Steps

/-!
The towers of the int8 speech encoder (`vae_i8.c`): which parts of the work buffers every operation
reads and writes. Sizes are natural numbers, frames those an `int` has room for.

* `Tower`, `prepare`: two towers, and the shapes the engine accepts.
* `towerFrames`, `i8vaeFrames`, `towerSizes`, `workAlloc`: the sizes of the buffers.
* `runBlock`, `runTower`, `encode`: the operations, with their checks.
* `Fits`: what remains to be checked of the shapes.
* `encode_inside_iff`: on those shapes alone, every operation stays inside its buffers.
-/

namespace VibeVoice.I8vae

open Kernels Steps

/-! ### Towers -/

/-- `vv_i8_block_t`: `norms` says that its four vectors are there. -/
structure Block (ℓ : Type) where
  norms : Bool
  mixer : ℓ
  fc1 : ℓ
  fc2 : ℓ

/-- A stage: its downsampling layer (the stem, for the first one) and its blocks. -/
structure Stage (ℓ : Type) where
  ds : ℓ
  blocks : List (Block ℓ)

/-- `vv_i8_tower_t`. -/
structure Tower (ℓ : Type) where
  stages : List (Stage ℓ)
  head : ℓ
  cfc1 : ℓ
  cnorm : Bool
  cfc2 : ℓ

/-- A layer with the panels of `prep_layer`. -/
structure Layer extends I8Layer where
  packed : Option Acts

/-- `hidden`. -/
def Tower.hidden (tw : Tower Layer) : ℕ := tw.cfc2.outCh

section Prepare

variable (junk : Acts)

/-- `prep_layer`, with the layer it leaves. -/
def ready (L : I8Layer) (inCh wantOut : ℕ) : Except Status Layer :=
  (prepLayer L inCh wantOut junk).map fun p => ⟨L, p⟩

/-- A block of `vv_i8vae_prepare`. -/
def prepBlock (C : ℕ) (B : Block I8Layer) : Except Status (Block Layer) :=
  if B.norms = false then .error .weightMissing
  else if B.mixer.depthwise = false ∨ B.mixer.stride ≠ 1 ∨ B.mixer.outCh ≠ C then
    .error .shapeMismatch
  else
    ready junk B.mixer C C >>= fun mixer => ready junk B.fc1 C 0 >>= fun fc1 =>
      ready junk B.fc2 B.fc1.outCh C >>= fun fc2 => .ok ⟨B.norms, mixer, fc1, fc2⟩

/-- A stage of `vv_i8vae_prepare`, over `C` channels. -/
def prepStage (C : ℕ) (S : Stage I8Layer) : Except Status (Stage Layer) :=
  ready junk S.ds C 0 >>= fun ds =>
    if 2048 < S.ds.outCh then .error .unsupported
    else S.blocks.mapM (prepBlock junk S.ds.outCh) >>= fun blocks => .ok ⟨ds, blocks⟩

/-- The stages of a tower, and the number of channels behind them. -/
def prepStages : ℕ → List (Stage I8Layer) → Except Status (List (Stage Layer) × ℕ)
  | C, [] => .ok ([], C)
  | C, S :: stages =>
    prepStage junk C S >>= fun s => prepStages S.ds.outCh stages >>= fun r =>
      .ok (s :: r.1, r.2)

/-- A tower of `vv_i8vae_prepare`. -/
def prepTower (tw : Tower I8Layer) : Except Status (Tower Layer) :=
  if tw.stages.length < 1 ∨ 8 < tw.stages.length then .error .modelFormat
  else
    prepStages junk 1 tw.stages >>= fun r => ready junk tw.head r.2 0 >>= fun head =>
      ready junk tw.cfc1 tw.head.outCh 0 >>= fun cfc1 =>
        ready junk tw.cfc2 tw.cfc1.outCh tw.cfc1.outCh >>= fun cfc2 =>
          if tw.cnorm = false then .error .weightMissing
          else .ok ⟨r.1, head, cfc1, tw.cnorm, cfc2⟩

/-- `vv_i8vae_prepare`. -/
def prepare (v : Tower I8Layer × Tower I8Layer) : Except Status (Tower Layer × Tower Layer) :=
  prepTower junk v.1 >>= fun a => prepTower junk v.2 >>= fun s => .ok (a, s)

end Prepare

/-! ### Sizes -/

/-- The length behind a layer. -/
def Layer.len (L : Layer) (T : ℕ) : ℕ := convOutLen T L.k L.stride

/-- The length behind the stages. -/
def stagesLen (stages : List (Stage Layer)) (n : ℕ) : ℕ :=
  stages.foldl (fun T S => S.ds.len T) n

/-- `tower_frames`. -/
def towerFrames (tw : Tower Layer) (n : ℕ) : ℕ := convOutLen (stagesLen tw.stages n) tw.head.k 1

/-- `vv_i8vae_frames`. -/
def i8vaeFrames (v : Tower Layer × Tower Layer) (n : ℕ) : ℕ :=
  if n = 0 then 0 else min (towerFrames v.1 n) (towerFrames v.2 n)

/-- A turn of the loop of `tower_sizes`: the length, `act` and `hid`. -/
def stageSizes (s : ℕ × ℕ × ℕ) (S : Stage Layer) : ℕ × ℕ × ℕ :=
  let T := S.ds.len s.1
  (T, max s.2.1 (T * S.ds.outCh),
    match S.blocks with
    | [] => s.2.2
    | B :: _ => max s.2.2 (T * B.fc1.outCh))

/-- `tower_sizes`: `act` and `hid`. -/
def towerSizes (tw : Tower Layer) (n : ℕ) : ℕ × ℕ :=
  let s := tw.stages.foldl stageSizes (n, n, 0)
  let F := convOutLen s.1 tw.head.k 1
  (max (max s.2.1 (F * tw.hidden)) (F * tw.cfc1.outCh), s.2.2)

/-- The buffers. -/
inductive Buf
  | b0 | b1 | b2 | hid | ybuf | rowv | out

/-- `work_t`: the elements of the buffers, and when results are kept between two passes. -/
structure Work where
  act : ℕ
  hid : ℕ
  ybufN : ℕ
  rowv : ℕ
  keepK : ℤ
  keepDw : Bool

/-- `work_alloc`. -/
def workAlloc (v : Tower Layer × Tower Layer) (n : ℕ) (keepK : ℤ) (keepDw : Bool) : Work :=
  let a := towerSizes v.1 n
  let s := towerSizes v.2 n
  let act := max a.1 s.1
  let hid := max a.2 s.2
  ⟨act + 64, hid + 64, min (max hid act) (2 ^ 29 / 4), n + 1, keepK, keepDw⟩

/-- What is allocated in front of a buffer: `I8_MARGIN`, for the activations. -/
def Buf.margin : Buf → ℕ
  | .b0 | .b1 | .b2 => 65536
  | _ => 0

/-- The elements of a buffer, where the caller's has `rows`. -/
def Work.size (w : Work) (rows : ℕ) : Buf → ℕ
  | .b0 | .b1 | .b2 => w.act
  | .hid => w.hid
  | .ybuf => w.ybufN
  | .rowv => w.rowv
  | .out => rows

/-- What an operation reads or writes: elements of a buffer, or the panels of a layer. -/
inductive Use
  | span (b : Buf) (lo hi : ℤ)
  | panels (there : Bool)

/-- The elements are inside the buffer; the panels are there. -/
def Use.Inside (w : Work) (rows : ℕ) : Use → Prop
  | .span b lo hi => lo < hi → -b.margin ≤ lo ∧ hi ≤ w.size rows b
  | .panels there => there = true

/-! ### Operations -/

/-- `act_t`, without its scale. -/
structure Act where
  q : Buf
  T : ℕ
  C : ℕ

/-- The values of some activations. -/
def Act.all (x : Act) : Use := .span x.q 0 (x.T * x.C : ℕ)

/-- What a layer leaves in `base`. -/
def Layer.out (L : Layer) (x : Act) (base : Buf) : Act := ⟨base, L.len x.T, L.outCh⟩

section Ops

variable (w : Work)

/-- A step of a call. -/
abbrev Op := Step Status Use

/-- `op_linear`. -/
def opLinear (L : Layer) (x : Act) (base : Buf) : List Op :=
  let y := L.out x base
  let K := L.k * x.C
  if y.T = 0 then []
  else
    let keep := w.keepK < K ∧ y.T * y.C ≤ w.ybufN
    -- without a whole quad of columns, `gemm` reads neither the activations nor the panels
    (if 0 < y.C ∧ 0 < K / 4 then
        [.act (.span x.q (-((L.k - L.stride) * x.C : ℕ))
            (-((L.k - L.stride) * x.C : ℕ) + ((y.T - 1) * (L.stride * x.C) + K / 4 * 4 : ℕ))),
          .act (.panels L.packed.isSome)]
      else []) ++
    (if keep then [.act (.span .ybuf 0 (y.T * y.C : ℕ))] else []) ++ [.act y.all]

/-- `op_stem`. -/
def opStem (L : Layer) (x : Act) (base : Buf) : List Op :=
  let y := L.out x base
  .guard (y.C ≤ 256) .unsupported ::
    (if 0 < y.T ∧ 0 < y.C then
        [.act (.span x.q (-(L.k - L.stride : ℕ))
          (((y.T - 1) * L.stride : ℕ) - (L.k - L.stride : ℕ) + L.k))]
      else []) ++ [.act y.all]

/-- `op_dwconv`. -/
def opDwconv (L : Layer) (x : Act) (base : Buf) : List Op :=
  let y : Act := ⟨base, x.T, x.C⟩
  .guard (x.C ≤ 2048) .unsupported ::
    (if 0 < x.T then [.act (.span x.q (-((L.k - 1) * x.C : ℕ)) (x.T * x.C : ℕ))] else []) ++
    (if w.keepDw ∧ x.T * x.C ≤ w.ybufN then [.act (.span .ybuf 0 (x.T * x.C : ℕ))] else []) ++
    [.act y.all]

/-- `op_rmsnorm`. -/
def opRmsnorm (x : Act) (base : Buf) : List Op :=
  let y : Act := ⟨base, x.T, x.C⟩
  [.act x.all, .act (.span .rowv 0 x.T), .act y.all]

/-- `op_add_scaled`, of some channels. -/
def opAddScaled (a b : Act) : List Op :=
  [.guard (a.T = b.T ∧ a.C = b.C) .shapeMismatch, .guard (a.C % 8 = 0) .unsupported,
    .act a.all, .act b.all]

/-- `run_block`. -/
def runBlock (B : Block Layer) (x : Act) : List Op :=
  let h : Act := ⟨.b1, x.T, x.C⟩
  let m : Act := ⟨.b2, x.T, x.C⟩
  let f1 := B.fc1.out h .hid
  let f2 := B.fc2.out f1 .b2
  opRmsnorm x .b1 ++ opDwconv w B.mixer h .b2 ++ opAddScaled m x ++ opRmsnorm x .b1 ++
    opLinear w B.fc1 h .hid ++ opLinear w B.fc2 f1 .b2 ++ opAddScaled f2 x

/-- The blocks of a stage. -/
def runBlocks (blocks : List (Block Layer)) (x : Act) : List Op :=
  blocks.flatMap fun B => runBlock w B x

/-- The stages behind the first one, and the end of `run_tower`. -/
def runStages (tw : Tower Layer) : List (Stage Layer) → Act → List Op
  | [], x =>
    let h := tw.head.out x .b1
    let c1 := tw.cfc1.out h .b2
    let cn : Act := ⟨.b0, c1.T, c1.C⟩
    opLinear w tw.head x .b1 ++ opLinear w tw.cfc1 h .b2 ++ opRmsnorm c1 .b0 ++
      opLinear w tw.cfc2 cn .b1
  | S :: stages, x =>
    let y := S.ds.out x .b1
    let x' := S.ds.out x .b0
    -- the copy back into the first buffer
    opLinear w S.ds x .b1 ++ [.act y.all, .act x'.all] ++ runBlocks w S.blocks x' ++
      runStages tw stages x'

/-- `run_tower`, over `n` samples. -/
def runTower (tw : Tower Layer) (n : ℕ) : List Op :=
  let x : Act := ⟨.b1, n, 1⟩
  match tw.stages with
  | [] => []
  | S :: stages =>
    let y := S.ds.out x .b0
    .act x.all :: opStem S.ds x .b0 ++ runBlocks w S.blocks y ++ runStages w tw stages y

/-- The frames that `run_tower` returns. -/
def Tower.outLen (tw : Tower Layer) (n : ℕ) : ℕ :=
  tw.cfc2.len (tw.cfc1.len (tw.head.len (stagesLen tw.stages n)))

/-- The windows of `vv_i8vae_encode`, with `total` rows in front of them. -/
def encodeWindows (v : Tower Layer × Tower Layer) : ℕ → List ℕ → List Op
  | _, [] => []
  | total, len :: lens =>
    let hs := v.1.hidden
    let fa := v.1.outLen len
    let f := min fa (v.2.outLen len)
    runTower w v.1 len ++
      [.act (.span .b1 0 (fa * hs : ℕ)),
        .act (.span .out (total * hs : ℕ) ((total + fa) * hs : ℕ))] ++
      runTower w v.2 len ++
      [.act (.span .b1 0 (f * hs : ℕ)),
        .act (.span .out (total * hs : ℕ) ((total + f) * hs : ℕ))] ++
      encodeWindows v (total + f) lens

end Ops

/-- The samples of a window. -/
def windowLen (n : ℕ) (window : ℤ) : ℕ := if 0 < window ∧ window < n then window.toNat else n

/-- The lengths of the windows. -/
def windows (n win : ℕ) : List ℕ := (Lanes.starts n win).map fun off => min (n - off) win

/-- `vv_i8vae_encode`, where the buffers could be allocated. -/
def encode (v : Tower Layer × Tower Layer) (n : ℕ) (window : ℤ) (keepK : ℤ) (keepDw : Bool) :
    List Op :=
  .guard (0 < n) .invalidArg :: .guard (v.2.hidden = v.1.hidden) .shapeMismatch ::
    encodeWindows (workAlloc v (windowLen n window) keepK keepDw) v 0
      (windows n (windowLen n window))

/-! ### The shapes that fit -/

/-- The padding of a layer fits in the margin in front of what it reads; its panels are there. -/
def Layer.Padded (margin : ℕ) (L : Layer) (T C : ℕ) : Prop :=
  0 < T / L.stride → 0 < L.outCh → 4 ≤ L.k * C →
    (L.k - L.stride) * C ≤ margin ∧ L.depthwise = false ∧ L.k * C % 4 = 0

/-- A block fits: the mixer's taps in the margin, the hidden layer in its buffer, and no padding in
front of the hidden layer. -/
def BlockFits (act hid : ℕ) (T C : ℕ) (B : Block Layer) : Prop :=
  let T1 := T / B.fc1.stride
  (0 < T → (B.mixer.k - 1) * C ≤ 65536) ∧
    (C % 8 = 0 → B.fc1.Padded 65536 T C ∧ T1 * B.fc1.outCh ≤ hid ∧ B.fc2.Padded 0 T1 B.fc1.outCh ∧
      (C = 0 → T1 / B.fc2.stride * B.fc2.outCh ≤ act))

/-- A block leaves the shape it was given. -/
def BlockPasses (T C : ℕ) (B : Block Layer) : Prop :=
  C % 8 = 0 ∧ T / B.fc1.stride / B.fc2.stride = T ∧ B.fc2.outCh = C

/-- The blocks that are reached fit. -/
def BlocksFit (act hid : ℕ) (T C : ℕ) (blocks : List (Block Layer)) : Prop :=
  ∀ front B rest, blocks = front ++ B :: rest → (∀ B' ∈ front, BlockPasses T C B') →
    BlockFits act hid T C B

/-- The stages behind the first one, and the end of a tower, fit as far as they are reached. -/
def StagesFit (act hid : ℕ) (tw : Tower Layer) : List (Stage Layer) → ℕ → ℕ → Prop
  | [], T, C =>
    let F := T / tw.head.stride
    tw.head.Padded 65536 T C ∧ F * tw.head.outCh ≤ act ∧ tw.cfc1.Padded 65536 F tw.head.outCh ∧
      tw.cfc2.Padded 65536 (F / tw.cfc1.stride) tw.cfc1.outCh
  | S :: stages, T, C =>
    let T' := T / S.ds.stride
    S.ds.Padded 65536 T C ∧ BlocksFit act hid T' S.ds.outCh S.blocks ∧
      ((∀ B ∈ S.blocks, BlockPasses T' S.ds.outCh B) →
        StagesFit act hid tw stages T' S.ds.outCh)

/-- Every block of the stages leaves the shape it was given. -/
def StagesPass : List (Stage Layer) → ℕ → Prop
  | [], _ => True
  | S :: stages, T =>
    (∀ B ∈ S.blocks, BlockPasses (T / S.ds.stride) S.ds.outCh B) ∧
      StagesPass stages (T / S.ds.stride)

/-- A tower fits, over `n` samples. -/
def TowerFits (act hid : ℕ) (tw : Tower Layer) (n : ℕ) : Prop :=
  match tw.stages with
  | [] => True
  | S :: stages =>
    let T := n / S.ds.stride
    S.ds.outCh ≤ 256 → (0 < T → 0 < S.ds.outCh → S.ds.k - S.ds.stride ≤ 65536) ∧
      BlocksFit act hid T S.ds.outCh S.blocks ∧
      ((∀ B ∈ S.blocks, BlockPasses T S.ds.outCh B) → StagesFit act hid tw stages T S.ds.outCh)

/-- A tower comes to its end. -/
def TowerPasses (tw : Tower Layer) (n : ℕ) : Prop :=
  (∀ S ∈ tw.stages.head?, S.ds.outCh ≤ 256) ∧ StagesPass tw.stages n

/-- The rows of the first tower fit behind `total` rows. -/
def RowsFit (v : Tower Layer × Tower Layer) (n total len : ℕ) : Prop :=
  0 < v.1.outLen len → 0 < v.1.hidden → total + v.1.outLen len ≤ i8vaeFrames v n

/-- The shapes and lengths that fit: both towers over a window, and, where they come to their end,
the rows of the first one in every window. -/
def Fits (v : Tower Layer × Tower Layer) (n : ℕ) (window : ℤ) : Prop :=
  let win := windowLen n window
  let act := max (towerSizes v.1 win).1 (towerSizes v.2 win).1 + 64
  let hid := max (towerSizes v.1 win).2 (towerSizes v.2 win).2 + 64
  0 < n → v.2.hidden = v.1.hidden → TowerFits act hid v.1 win ∧
    (TowerPasses v.1 win → RowsFit v n 0 win ∧ TowerFits act hid v.2 win ∧
      (TowerPasses v.2 win → ∀ i, i * win < n →
        RowsFit v n (i * min (v.1.outLen win) (v.2.outLen win)) (min (n - i * win) win)))

/-! ### Layers that are ready -/

/-- What `prep_layer` leaves. -/
structure Layer.Ready (L : Layer) (inCh wantOut : ℕ) : Prop where
  out_eq : 0 < wantOut → L.outCh = wantOut
  stride_pos : 0 < L.stride
  stride_le : L.stride ≤ L.k
  packed_iff : L.packed.isSome = true ↔ L.depthwise = false ∧ L.k * inCh % 4 = 0

/-- A layer of `prep_layer` is ready. -/
lemma ready_ok {junk : Acts} {L : I8Layer} {inCh wantOut : ℕ} {L' : Layer}
    (h : ready junk L inCh wantOut = .ok L') : L'.toI8Layer = L ∧ L'.Ready inCh wantOut := by
  rw [ready, prepLayer] at h
  by_cases hshape : L.inCh ≠ inCh ∨ 0 < wantOut ∧ L.outCh ≠ wantOut ∨ L.k < 1 ∨ L.stride < 1 ∨
      L.k < L.stride
  · rw [if_pos hshape] at h
    cases h
  · rw [if_neg hshape] at h
    simp only [not_or, not_and, not_not, not_lt] at hshape
    obtain ⟨hin, hout, -, hstride, hle⟩ := hshape
    by_cases hpanels : L.depthwise = true ∨ L.k * L.inCh % 4 ≠ 0
    · rw [if_pos hpanels] at h
      cases h
      refine ⟨rfl, hout, hstride, hle, ?_⟩
      rw [hin] at hpanels
      simp only [Option.isSome_none, Bool.false_eq_true, false_iff, not_and]
      intro hdepth
      rw [hdepth] at hpanels
      exact hpanels.resolve_left Bool.false_ne_true
    · rw [if_neg hpanels] at h
      cases h
      rw [hin] at hpanels
      simp only [not_or, Bool.not_eq_true, not_not] at hpanels
      exact ⟨rfl, hout, hstride, hle, by simp [hpanels]⟩

/-- Behind a stride there are that many times fewer rows. -/
lemma convOutLen_eq {k s : ℕ} (hpos : 0 < s) (hle : s ≤ k) (T : ℕ) : convOutLen T k s = T / s := by
  rw [convOutLen]
  by_cases hshort : T + (k - s) < k
  · rw [if_pos hshort, Nat.div_eq_of_lt (by omega)]
  · rw [if_neg hshort, show T + (k - s) - k = T - s by omega,
      ← Nat.div_eq_sub_div hpos (by omega)]

lemma Layer.Ready.len_eq {L : Layer} {inCh wantOut : ℕ} (h : L.Ready inCh wantOut) (T : ℕ) :
    L.len T = T / L.stride :=
  convOutLen_eq h.stride_pos h.stride_le T

/-- A block of `vv_i8vae_prepare`. -/
structure BlockReady (C : ℕ) (B : Block Layer) : Prop where
  mixer : B.mixer.Ready C C
  fc1 : B.fc1.Ready C 0
  fc2 : B.fc2.Ready B.fc1.outCh C

/-- The stages of `vv_i8vae_prepare`, and what is behind them. -/
def StagesReady (tw : Tower Layer) : List (Stage Layer) → ℕ → Prop
  | [], C => tw.head.Ready C 0 ∧ tw.cfc1.Ready tw.head.outCh 0 ∧
      tw.cfc2.Ready tw.cfc1.outCh tw.cfc1.outCh
  | S :: stages, C => S.ds.Ready C 0 ∧ S.ds.outCh ≤ 2048 ∧
      (∀ B ∈ S.blocks, BlockReady S.ds.outCh B) ∧ StagesReady tw stages S.ds.outCh

section Ready

variable {junk : Acts}

lemma prepBlock_ok {C : ℕ} {B : Block I8Layer} {B' : Block Layer}
    (h : prepBlock junk C B = .ok B') : BlockReady C B' := by
  rw [prepBlock] at h
  split at h
  · cases h
  · split at h
    · cases h
    · obtain ⟨mixer, hmixer, h⟩ := Loop.bind_eq_ok.mp h
      obtain ⟨fc1, hfc1, h⟩ := Loop.bind_eq_ok.mp h
      obtain ⟨fc2, hfc2, h⟩ := Loop.bind_eq_ok.mp h
      cases h
      obtain ⟨heq, hready⟩ := ready_ok hfc1
      have hout : B.fc1.outCh = fc1.outCh := congrArg I8Layer.outCh heq.symm
      exact ⟨(ready_ok hmixer).2, hready, hout ▸ (ready_ok hfc2).2⟩

lemma prepStage_ok {C : ℕ} {S : Stage I8Layer} {S' : Stage Layer}
    (h : prepStage junk C S = .ok S') : S'.ds.Ready C 0 ∧ S'.ds.outCh ≤ 2048 ∧
      (∀ B ∈ S'.blocks, BlockReady S'.ds.outCh B) ∧ S'.ds.outCh = S.ds.outCh := by
  obtain ⟨ds, hds, h⟩ := Loop.bind_eq_ok.mp h
  obtain ⟨heq, hready⟩ := ready_ok hds
  have hout : ds.outCh = S.ds.outCh := congrArg I8Layer.outCh heq
  split at h
  · cases h
  · rename_i hwide
    obtain ⟨blocks, hblocks, h⟩ := Loop.bind_eq_ok.mp h
    cases h
    refine ⟨hready, hout ▸ not_lt.mp hwide, fun B hB => ?_, hout⟩
    obtain ⟨B₀, -, hB₀⟩ := Loop.exists_of_forall₂ (Loop.mapM_eq_ok.mp hblocks) hB
    exact hout ▸ prepBlock_ok hB₀

lemma prepStages_ok {tw : Tower Layer} {stages : List (Stage I8Layer)} {C : ℕ}
    {r : List (Stage Layer) × ℕ} (h : prepStages junk C stages = .ok r)
    (hend : tw.head.Ready r.2 0 ∧ tw.cfc1.Ready tw.head.outCh 0 ∧
      tw.cfc2.Ready tw.cfc1.outCh tw.cfc1.outCh) : StagesReady tw r.1 C := by
  induction stages generalizing C r with
  | nil =>
    cases h
    exact hend
  | cons S stages ih =>
    obtain ⟨s, hs, h⟩ := Loop.bind_eq_ok.mp h
    obtain ⟨r', hr', h⟩ := Loop.bind_eq_ok.mp h
    cases h
    obtain ⟨hds, hwide, hblocks, hout⟩ := prepStage_ok hs
    exact ⟨hds, hwide, hblocks, hout ▸ ih hr' hend⟩

/-- A tower of `vv_i8vae_prepare` is ready. -/
lemma prepTower_ok {tw : Tower I8Layer} {tw' : Tower Layer} (h : prepTower junk tw = .ok tw') :
    StagesReady tw' tw'.stages 1 := by
  rw [prepTower] at h
  split at h
  · cases h
  · obtain ⟨r, hr, h⟩ := Loop.bind_eq_ok.mp h
    obtain ⟨head, hhead, h⟩ := Loop.bind_eq_ok.mp h
    obtain ⟨cfc1, hcfc1, h⟩ := Loop.bind_eq_ok.mp h
    obtain ⟨cfc2, hcfc2, h⟩ := Loop.bind_eq_ok.mp h
    split at h
    · cases h
    · cases h
      obtain ⟨hheadEq, hhead⟩ := ready_ok hhead
      obtain ⟨hcfc1Eq, hcfc1⟩ := ready_ok hcfc1
      have hdim : tw.head.outCh = head.outCh := congrArg I8Layer.outCh hheadEq.symm
      have hwidth : tw.cfc1.outCh = cfc1.outCh := congrArg I8Layer.outCh hcfc1Eq.symm
      exact prepStages_ok hr ⟨hhead, hdim ▸ hcfc1, hwidth ▸ (ready_ok hcfc2).2⟩

end Ready

/-! ### One operation -/

section Inside

variable {w : Work} {rows : ℕ} {L : Layer} {x y : Act} {base : Buf} {wantOut : ℕ}

lemma inside_zero {b : Buf} {m : ℕ} :
    (Use.span b 0 m).Inside w rows ↔ m ≤ w.size rows b := by
  simp only [Use.Inside]
  omega

/-- Elements from the margin on. -/
lemma inside_behind {b : Buf} {p : ℕ} (len : ℕ) (hlen : 0 < len) (hsize : len ≤ w.size rows b + p) :
    (Use.span b (-(p : ℕ)) (-(p : ℕ) + (len : ℕ))).Inside w rows ↔ p ≤ b.margin := by
  simp only [Use.Inside]
  omega

lemma inside_all : x.all.Inside w rows ↔ x.T * x.C ≤ w.size rows x.q := inside_zero

@[simp] lemma passes_opLinear : Passes (opLinear w L x base) := by
  rw [opLinear]
  dsimp only
  by_cases hM : (L.out x base).T = 0
  · rw [if_pos hM]
    exact passes_nil
  · rw [if_neg hM]
    simp only [passes_append, passes_ite, passes_act, passes_nil, implies_true, and_self]

@[simp] lemma passes_opStem : Passes (opStem L x base) ↔ L.outCh ≤ 256 := by
  rw [opStem, passes_append, passes_guard]
  simp only [passes_ite, passes_act, passes_nil, implies_true, and_true, decide_eq_true_eq]
  exact Iff.rfl

@[simp] lemma passes_opDwconv : Passes (opDwconv w L x base) ↔ x.C ≤ 2048 := by
  rw [opDwconv]
  simp only [passes_append, passes_guard, passes_ite, passes_act, passes_nil, implies_true,
    and_true, decide_eq_true_eq]

@[simp] lemma passes_opRmsnorm : Passes (opRmsnorm x base) := rfl

@[simp] lemma passes_opAddScaled :
    Passes (opAddScaled x y) ↔ (x.T = y.T ∧ x.C = y.C) ∧ x.C % 8 = 0 := by
  simp [opAddScaled]

/-- The rows of a layer are inside what it reads. -/
lemma taps_le {T C k s : ℕ} (hk : s ≤ k) (hM : 0 < T / s) :
    (T / s - 1) * (s * C) + k * C ≤ T * C + (k - s) * C := by
  have hrows : (T / s - 1) * s + s ≤ T := by
    calc (T / s - 1) * s + s = (T / s - 1 + 1) * s := (Nat.succ_mul ..).symm
      _ = T / s * s := by rw [Nat.sub_add_cancel hM]
      _ ≤ T := Nat.div_mul_le_self ..
  calc (T / s - 1) * (s * C) + k * C = ((T / s - 1) * s + s + (k - s)) * C := by
        rw [← mul_assoc, ← add_mul, add_assoc, Nat.add_sub_cancel' hk]
    _ ≤ (T + (k - s)) * C := Nat.mul_le_mul_right _ (Nat.add_le_add_right hrows _)
    _ = T * C + (k - s) * C := add_mul ..

/-- A linear layer stays inside its buffers just where its padding and its result fit. -/
lemma holds_opLinear (w : Work) (rows : ℕ) (x : Act) (base : Buf) (hL : L.Ready x.C wantOut)
    (hx : x.T * x.C ≤ w.size rows x.q) :
    Holds (Use.Inside w rows) (opLinear w L x base) ↔
      L.Padded x.q.margin x.T x.C ∧ L.len x.T * L.outCh ≤ w.size rows base := by
  rw [opLinear, Layer.Padded, ← hL.len_eq, Layer.out]
  dsimp only
  by_cases hM : L.len x.T = 0
  · simp [hM]
  · have hlen := hL.len_eq x.T
    have hpos : 0 < L.len x.T := Nat.pos_of_ne_zero hM
    have htaps := taps_le (T := x.T) (C := x.C) hL.stride_le (hlen ▸ hpos)
    rw [← hlen] at htaps
    have hquad : 0 < L.k * x.C / 4 ↔ 4 ≤ L.k * x.C := by omega
    rw [if_neg hM]
    simp only [passes_append, holds_append, holds_ite, holds_act, holds_nil, passes_ite, passes_act,
      passes_nil, and_true, implies_true, and_self, true_imp_iff, inside_all, inside_zero, hpos,
      hquad]
    have htap : 4 ≤ L.k * x.C → ((Use.span x.q (-((L.k - L.stride) * x.C : ℕ))
        (-((L.k - L.stride) * x.C : ℕ) + ((L.len x.T - 1) * (L.stride * x.C) +
          L.k * x.C / 4 * 4 : ℕ))).Inside w rows ↔ (L.k - L.stride) * x.C ≤ x.q.margin) :=
      fun hfour => inside_behind _ (by omega) (by omega)
    constructor
    · rintro ⟨⟨hread, -⟩, hwrite⟩
      refine ⟨fun hN hfour => ?_, hwrite⟩
      obtain ⟨hspan, hthere⟩ := hread ⟨hN, hfour⟩
      exact ⟨(htap hfour).mp hspan, hL.packed_iff.mp hthere⟩
    · rintro ⟨hpadded, hwrite⟩
      refine ⟨⟨fun hread => ?_, fun h => h.2⟩, hwrite⟩
      obtain ⟨hmargin, hpanels⟩ := hpadded hread.1 hread.2
      exact ⟨(htap hread.2).mpr hmargin, hL.packed_iff.mpr hpanels⟩

/-- The stem stays inside its buffers just where its padding and its result fit. -/
lemma holds_opStem (w : Work) (rows : ℕ) (x : Act) (base : Buf) (hL : L.Ready 1 wantOut)
    (hx : x.T ≤ w.size rows x.q) :
    Holds (Use.Inside w rows) (opStem L x base) ↔ (L.outCh ≤ 256 →
      (0 < L.len x.T → 0 < L.outCh → L.k - L.stride ≤ x.q.margin) ∧
        L.len x.T * L.outCh ≤ w.size rows base) := by
  have hle := hL.stride_le
  have hlen := hL.len_eq x.T
  have htap : 0 < L.len x.T → ((Use.span x.q (-(L.k - L.stride : ℕ))
      (((L.len x.T - 1) * L.stride : ℕ) - (L.k - L.stride : ℕ) + L.k)).Inside w rows ↔
        L.k - L.stride ≤ x.q.margin) := fun hM => by
    have hrows := taps_le (T := x.T) (C := 1) hle (hlen ▸ hM)
    rw [← hlen, mul_one, mul_one, mul_one, mul_one] at hrows
    have hpos := hL.stride_pos
    rw [← inside_behind ((L.len x.T - 1) * L.stride + L.k) (by omega)
      (Nat.le_trans (by omega) (Nat.add_le_add_right hx _)),
      Nat.cast_add ((L.len x.T - 1) * L.stride)]
    exact iff_of_eq (congrArg (fun hi => Use.Inside w rows (.span x.q _ hi)) (by ring))
  rw [opStem]
  simp only [holds_append, holds_guard, holds_ite, holds_act, holds_nil, passes_guard, passes_ite,
    passes_act, passes_nil, and_true, implies_true, inside_all, decide_eq_true_eq]
  constructor
  · rintro ⟨hread, hwrite⟩ hN
    exact ⟨fun hM hout => (htap hM).mp (hread hN ⟨hM, hout⟩), hwrite hN⟩
  · intro h
    exact ⟨fun hN hpos => (htap hpos.1).mpr ((h hN).1 hpos.1 hpos.2), fun hN => (h hN).2⟩

/-- The depthwise convolution stays inside its buffers just where its padding fits. -/
lemma holds_opDwconv (w : Work) (rows : ℕ) (x : Act) (base : Buf)
    (hx : x.T * x.C ≤ w.size rows x.q) (hy : x.T * x.C ≤ w.size rows base) :
    Holds (Use.Inside w rows) (opDwconv w L x base) ↔
      (x.C ≤ 2048 → 0 < x.T → (L.k - 1) * x.C ≤ x.q.margin) := by
  rw [opDwconv]
  simp only [passes_append, holds_append, holds_guard, holds_ite, holds_act, holds_nil,
    passes_guard, passes_ite, passes_act, passes_nil, and_true, implies_true, inside_all,
    inside_zero, decide_eq_true_eq]
  have htap : 0 < x.T → ((Use.span x.q (-((L.k - 1) * x.C : ℕ)) (x.T * x.C : ℕ)).Inside w rows ↔
      (L.k - 1) * x.C ≤ x.q.margin) := fun hT => by
    simp only [Use.Inside]
    generalize (L.k - 1) * x.C = p
    generalize x.T * x.C = n at hx ⊢
    omega
  constructor
  · intro h hC hT
    exact (htap hT).mp (h.1.1 hC hT)
  · intro h
    exact ⟨⟨fun hC hT => (htap hT).mpr (h hC hT), fun _ hkeep => hkeep.2⟩, fun _ => hy⟩

lemma holds_opRmsnorm (hx : x.T * x.C ≤ w.size rows x.q) (hrow : x.T ≤ w.rowv)
    (hy : x.T * x.C ≤ w.size rows base) : Holds (Use.Inside w rows) (opRmsnorm x base) := by
  simp only [opRmsnorm, holds_act, inside_all, holds_nil, and_true]
  exact ⟨hx, inside_zero.mpr hrow, hy⟩

lemma holds_opAddScaled (hx : y.T * y.C ≤ w.size rows x.q) (hy : y.T * y.C ≤ w.size rows y.q) :
    Holds (Use.Inside w rows) (opAddScaled x y) := by
  simp only [opAddScaled, holds_guard, holds_act, inside_all, holds_nil, and_true,
    decide_eq_true_eq]
  rintro ⟨hT, hC⟩ -
  rw [hT, hC]
  exact ⟨hx, hy⟩

end Inside

/-! ### Blocks -/

section Blocks

variable {w : Work} {rows T C : ℕ} {B : Block Layer} {blocks : List (Block Layer)}

lemma passes_runBlock (hB : BlockReady C B) (hC : C ≤ 2048) :
    Passes (runBlock w B ⟨.b0, T, C⟩) ↔ BlockPasses T C B := by
  simp only [runBlock, passes_append, passes_opRmsnorm, passes_opDwconv, passes_opAddScaled,
    passes_opLinear, Layer.out, hB.fc1.len_eq, hB.fc2.len_eq, BlockPasses, hC, true_and, and_true]
  constructor
  · rintro ⟨hwhole, ⟨hT, hout⟩, -⟩
    exact ⟨hwhole, hT, hout⟩
  · rintro ⟨hwhole, hT, hout⟩
    exact ⟨hwhole, ⟨hT, hout⟩, hout ▸ hwhole⟩

/-- A block stays inside its buffers just where it fits. -/
lemma holds_runBlock (hB : BlockReady C B) (hC : C ≤ 2048) (hx : T * C ≤ w.act)
    (hrow : T ≤ w.rowv) :
    Holds (Use.Inside w rows) (runBlock w B ⟨.b0, T, C⟩) ↔ BlockFits w.act w.hid T C B := by
  have hnorm : Holds (Use.Inside w rows) (opRmsnorm ⟨.b0, T, C⟩ .b1) := holds_opRmsnorm hx hrow hx
  have hmixer := holds_opDwconv w rows (L := B.mixer) ⟨.b1, T, C⟩ .b2 hx hx
  have hadd : Holds (Use.Inside w rows) (opAddScaled ⟨.b2, T, C⟩ ⟨.b0, T, C⟩) :=
    holds_opAddScaled hx hx
  have hfc1 := holds_opLinear w rows ⟨.b1, T, C⟩ .hid hB.fc1 hx
  simp only [runBlock, holds_append, passes_append, passes_opRmsnorm, passes_opDwconv,
    passes_opAddScaled, passes_opLinear, hnorm, hmixer, hadd, hfc1, hC, BlockFits, true_and,
    and_true, true_imp_iff, implies_true, and_self, Layer.out, hB.fc1.len_eq]
  have hfc2 := fun hhid => holds_opLinear w rows
    ⟨.hid, T / B.fc1.stride, B.fc1.outCh⟩ .b2 hB.fc2 hhid
  simp only [hB.fc2.len_eq] at hfc2 ⊢
  constructor
  · rintro ⟨⟨⟨htaps, hup⟩, hdown⟩, -⟩
    refine ⟨htaps, fun hwhole => ?_⟩
    obtain ⟨hpad, hhid⟩ := hup hwhole
    obtain ⟨hpad', hact⟩ := (hfc2 hhid).mp (hdown hwhole)
    exact ⟨hpad, hhid, hpad', fun _ => hact⟩
  · rintro ⟨htaps, hfits⟩
    refine ⟨⟨⟨htaps, fun hwhole => ?_⟩, fun hwhole => ?_⟩, fun _ => holds_opAddScaled hx hx⟩
    · exact ⟨(hfits hwhole).1, (hfits hwhole).2.1⟩
    · obtain ⟨-, hhid, hpad', hact⟩ := hfits hwhole
      refine (hfc2 hhid).mpr ⟨hpad', ?_⟩
      rcases Nat.eq_zero_or_pos C with hC0 | hCpos
      · exact hact hC0
      · -- back to the channels of the block
        rw [hB.fc2.out_eq hCpos]
        calc T / B.fc1.stride / B.fc2.stride * C ≤ T * C :=
              Nat.mul_le_mul_right _ ((Nat.div_le_self ..).trans (Nat.div_le_self ..))
          _ ≤ w.act := hx

lemma passes_runBlocks (hready : ∀ B ∈ blocks, BlockReady C B) (hC : C ≤ 2048) :
    Passes (runBlocks w blocks ⟨.b0, T, C⟩) ↔ ∀ B ∈ blocks, BlockPasses T C B := by
  rw [runBlocks, passes_flatMap]
  exact forall₂_congr fun B hB => passes_runBlock (hready B hB) hC

/-- The blocks of a stage stay inside their buffers just where those that are reached fit. -/
lemma holds_runBlocks (hready : ∀ B ∈ blocks, BlockReady C B) (hC : C ≤ 2048)
    (hx : T * C ≤ w.act) (hrow : T ≤ w.rowv) :
    Holds (Use.Inside w rows) (runBlocks w blocks ⟨.b0, T, C⟩) ↔
      BlocksFit w.act w.hid T C blocks := by
  rw [runBlocks, holds_flatMap]
  refine forall₃_congr fun front B rest => forall_congr' fun hsplit => ?_
  subst hsplit
  have hfront : (∀ B' ∈ front, Passes (runBlock w B' ⟨.b0, T, C⟩)) ↔
      ∀ B' ∈ front, BlockPasses T C B' := forall₂_congr fun B' hB' =>
    passes_runBlock (hready B' (List.mem_append_left _ hB')) hC
  have hB : BlockReady C B := hready B (List.mem_append_right _ List.mem_cons_self)
  rw [hfront, holds_runBlock hB hC hx hrow]

end Blocks

/-! ### Stages -/

/-- The buffers hold the activations behind every stage and those of the connector. -/
def Counted (act : ℕ) (tw : Tower Layer) : List (Stage Layer) → ℕ → Prop
  | [], T => T * tw.hidden ≤ act ∧ T * tw.cfc1.outCh ≤ act
  | S :: stages, T =>
    T / S.ds.stride * S.ds.outCh ≤ act ∧ Counted act tw stages (T / S.ds.stride)

section Stages

variable {w : Work} {rows T C n : ℕ} {tw : Tower Layer} {stages : List (Stage Layer)}

lemma Counted.mono {act act' T' : ℕ} (h : Counted act tw stages T) (hact : act ≤ act')
    (hT : T' ≤ T) : Counted act' tw stages T' := by
  induction stages generalizing T T' with
  | nil =>
    exact ⟨(Nat.mul_le_mul_right _ hT).trans (h.1.trans hact),
      (Nat.mul_le_mul_right _ hT).trans (h.2.trans hact)⟩
  | cons S stages ih =>
    have hdiv : T' / S.ds.stride ≤ T / S.ds.stride := Nat.div_le_div_right hT
    exact ⟨(Nat.mul_le_mul_right _ hdiv).trans (h.1.trans hact), ih h.2 hdiv⟩

/-- The loop of `tower_sizes` counts every stage. -/
lemma counted_stageSizes (hready : StagesReady tw stages C) (T a h : ℕ) :
    let s := stages.foldl stageSizes (T, a, h)
    let F := convOutLen s.1 tw.head.k 1
    a ≤ s.2.1 ∧ Counted (max (max s.2.1 (F * tw.hidden)) (F * tw.cfc1.outCh)) tw stages T := by
  induction stages generalizing T a h C with
  | nil =>
    have hF : convOutLen T tw.head.k 1 = T := by
      have hk := hready.1.stride_pos.trans_le hready.1.stride_le
      rw [convOutLen_eq Nat.one_pos hk, Nat.div_one]
    dsimp only [List.foldl_nil]
    rw [hF]
    exact ⟨le_rfl, (le_max_right ..).trans (le_max_left ..), le_max_right ..⟩
  | cons S stages ih =>
    obtain ⟨hds, -, -, hrest⟩ := hready
    rw [List.foldl_cons, stageSizes, hds.len_eq]
    obtain ⟨hle, hcount⟩ := ih hrest (T / S.ds.stride)
      (max a (T / S.ds.stride * S.ds.outCh)) (match S.blocks with
        | [] => h
        | B :: _ => max h (T / S.ds.stride * B.fc1.outCh))
    have hstage := (le_max_right a (T / S.ds.stride * S.ds.outCh)).trans hle
    exact ⟨(le_max_left ..).trans hle,
      hstage.trans ((le_max_left ..).trans (le_max_left ..)), hcount⟩

lemma counted_towerSizes (hready : StagesReady tw tw.stages 1) (n : ℕ) :
    Counted (towerSizes tw n).1 tw tw.stages n :=
  (counted_stageSizes hready n n 0).2

lemma le_towerSizes (hready : StagesReady tw tw.stages 1) (n : ℕ) : n ≤ (towerSizes tw n).1 :=
  (counted_stageSizes hready n n 0).1.trans ((le_max_left ..).trans (le_max_left ..))

lemma passes_runStages (hready : StagesReady tw stages C) :
    Passes (runStages w tw stages ⟨.b0, T, C⟩) ↔ StagesPass stages T := by
  induction stages generalizing T C with
  | nil => simp [runStages, StagesPass]
  | cons S stages ih =>
    obtain ⟨hds, hwide, hblocks, hrest⟩ := hready
    simp only [runStages, passes_append, passes_opLinear, passes_act, passes_nil, Layer.out,
      hds.len_eq, passes_runBlocks hblocks hwide, ih hrest, StagesPass, true_and]

/-- The stages stay inside their buffers just where they fit as far as they are reached. -/
lemma holds_runStages (hready : StagesReady tw stages C) (hx : T * C ≤ w.act) (hrow : T ≤ w.rowv)
    (hcount : Counted w.act tw stages T) :
    Holds (Use.Inside w rows) (runStages w tw stages ⟨.b0, T, C⟩) ↔
      StagesFit w.act w.hid tw stages T C := by
  induction stages generalizing T C with
  | nil =>
    obtain ⟨hhead, hcfc1, hcfc2⟩ := hready
    obtain ⟨hhidden, hwidth⟩ := hcount
    have hF : T / tw.head.stride ≤ T := Nat.div_le_self ..
    have hF' : T / tw.head.stride / tw.cfc1.stride ≤ T := (Nat.div_le_self ..).trans hF
    have hc1 : T / tw.head.stride / tw.cfc1.stride * tw.cfc1.outCh ≤ w.act :=
      (Nat.mul_le_mul_right _ hF').trans hwidth
    have hc2 : T / tw.head.stride / tw.cfc1.stride / tw.cfc2.stride * tw.cfc2.outCh ≤ w.act :=
      (Nat.mul_le_mul_right _ ((Nat.div_le_self ..).trans hF')).trans hhidden
    have hup := holds_opLinear w rows ⟨.b0, T, C⟩ .b1 hhead hx
    have hconn := fun hdim => holds_opLinear w rows
      ⟨.b1, T / tw.head.stride, tw.head.outCh⟩ .b2 hcfc1 hdim
    have hnorm : Holds (Use.Inside w rows)
        (opRmsnorm ⟨.b2, T / tw.head.stride / tw.cfc1.stride, tw.cfc1.outCh⟩ .b0) :=
      holds_opRmsnorm hc1 (hF'.trans hrow) hc1
    have hlast := holds_opLinear w rows
      ⟨.b0, T / tw.head.stride / tw.cfc1.stride, tw.cfc1.outCh⟩ .b1 hcfc2 hc1
    rw [hhead.len_eq] at hup
    simp only [hcfc1.len_eq] at hconn
    rw [hcfc2.len_eq] at hlast
    simp only [runStages, holds_append, passes_append, passes_opLinear, passes_opRmsnorm, hup,
      Layer.out, hhead.len_eq, hcfc1.len_eq, hnorm, hlast, and_true, true_imp_iff, StagesFit]
    constructor
    · rintro ⟨⟨⟨hpad, hdim⟩, hmid⟩, hend⟩
      exact ⟨hpad, hdim, ((hconn hdim).mp hmid).1, hend.1⟩
    · rintro ⟨hpad, hdim, hmid, hend⟩
      exact ⟨⟨⟨hpad, hdim⟩, (hconn hdim).mpr ⟨hmid, hc1⟩⟩, hend, hc2⟩
  | cons S stages ih =>
    obtain ⟨hds, hwide, hblocks, hrest⟩ := hready
    obtain ⟨hstage, hcount⟩ := hcount
    have hrow' : T / S.ds.stride ≤ w.rowv := (Nat.div_le_self ..).trans hrow
    have hdown := holds_opLinear w rows ⟨.b0, T, C⟩ .b1 hds hx
    have hcopy : Holds (Use.Inside w rows)
        ([.act (Act.all ⟨.b1, T / S.ds.stride, S.ds.outCh⟩),
          .act (Act.all ⟨.b0, T / S.ds.stride, S.ds.outCh⟩)] : List Op) := by
      simp only [holds_act, inside_all, holds_nil, and_true]
      exact ⟨hstage, hstage⟩
    have hwrite : T / S.ds.stride * S.ds.outCh ≤ w.size rows .b1 := hstage
    simp only [runStages, holds_append, passes_append, passes_opLinear, passes_act, passes_nil,
      hdown, Layer.out, hds.len_eq, hcopy, hwrite, holds_runBlocks hblocks hwide hstage hrow',
      passes_runBlocks hblocks hwide, ih hrest hstage hrow' hcount, StagesFit, true_and, and_true,
      true_imp_iff, implies_true, and_assoc]
    exact Iff.rfl

end Stages

/-! ### Towers -/

section Towers

variable {w : Work} {rows n : ℕ} {tw : Tower Layer}

lemma passes_runTower (hready : StagesReady tw tw.stages 1) :
    Passes (runTower w tw n) ↔ TowerPasses tw n := by
  rw [runTower, TowerPasses]
  cases hstages : tw.stages with
  | nil => simp [StagesPass]
  | cons S stages =>
    rw [hstages] at hready
    obtain ⟨hds, hwide, hblocks, hrest⟩ := hready
    simp only [passes_append, passes_act, passes_opStem, Layer.out, hds.len_eq,
      passes_runBlocks hblocks hwide, passes_runStages hrest, List.head?_cons,
      Option.mem_some_iff, forall_eq', StagesPass, and_assoc]

/-- A tower stays inside its buffers just where it fits. -/
lemma holds_runTower (hready : StagesReady tw tw.stages 1) (hn : n ≤ w.act) (hrow : n ≤ w.rowv)
    (hcount : Counted w.act tw tw.stages n) :
    Holds (Use.Inside w rows) (runTower w tw n) ↔ TowerFits w.act w.hid tw n := by
  rw [runTower, TowerFits]
  cases hstages : tw.stages with
  | nil => simp
  | cons S stages =>
    rw [hstages] at hready hcount
    obtain ⟨hds, hwide, hblocks, hrest⟩ := hready
    obtain ⟨hstage, hcount⟩ := hcount
    have hrow' : n / S.ds.stride ≤ w.rowv := (Nat.div_le_self ..).trans hrow
    have haudio : n * 1 ≤ w.size rows .b1 := by
      rw [mul_one]
      exact hn
    have hstem := holds_opStem w rows ⟨.b1, n, 1⟩ .b0 hds hn
    have hwrite : n / S.ds.stride * S.ds.outCh ≤ w.size rows .b0 := hstage
    simp only [holds_append, holds_act, inside_all, haudio, hstem, passes_append, passes_act,
      passes_opStem, Layer.out, hds.len_eq, hwrite, holds_runBlocks hblocks hwide hstage hrow',
      passes_runBlocks hblocks hwide, holds_runStages hrest hstage hrow' hcount, true_and,
      and_true]
    constructor
    · rintro ⟨⟨hread, hblocks⟩, hrest⟩ hnarrow
      exact ⟨hread hnarrow, hblocks hnarrow, fun hpass => hrest ⟨hnarrow, hpass⟩⟩
    · intro h
      exact ⟨⟨fun hnarrow => (h hnarrow).1, fun hnarrow => (h hnarrow).2.1⟩,
        fun hpass => (h hpass.1).2.2 hpass.2⟩

/-! ### Shorter windows -/

variable {act hid C T T' n' : ℕ} {B : Block Layer} {L : Layer} {stages : List (Stage Layer)}

lemma Layer.Padded.mono {margin : ℕ} (h : L.Padded margin T C) (hT : T' ≤ T) :
    L.Padded margin T' C :=
  fun hM => h (hM.trans_le (Nat.div_le_div_right hT))

lemma BlockPasses.mono (h : BlockPasses T C B) (hT : T' ≤ T) : BlockPasses T' C B := by
  obtain ⟨hwhole, hlen, hout⟩ := h
  refine ⟨hwhole, ?_, hout⟩
  rw [Nat.div_div_eq_div_mul] at hlen ⊢
  rcases Nat.div_eq_self.mp hlen with rfl | hone
  · rw [Nat.le_zero.mp hT, Nat.zero_div]
  · rw [hone, Nat.div_one]

lemma BlockFits.mono (h : BlockFits act hid T C B) (hT : T' ≤ T) : BlockFits act hid T' C B := by
  obtain ⟨htaps, hrest⟩ := h
  have hT1 : T' / B.fc1.stride ≤ T / B.fc1.stride := Nat.div_le_div_right hT
  refine ⟨fun hpos => htaps (hpos.trans_le hT), fun hwhole => ?_⟩
  obtain ⟨hpad, hhid, hpad', hact⟩ := hrest hwhole
  exact ⟨hpad.mono hT, (Nat.mul_le_mul_right _ hT1).trans hhid, hpad'.mono hT1, fun hC =>
    (Nat.mul_le_mul_right _ (Nat.div_le_div_right hT1)).trans (hact hC)⟩

lemma BlocksFit.mono {blocks : List (Block Layer)} (h : BlocksFit act hid T C blocks)
    (hpass : ∀ B ∈ blocks, BlockPasses T C B) (hT : T' ≤ T) : BlocksFit act hid T' C blocks :=
  fun front B rest hsplit _ =>
    (h front B rest hsplit fun B' hB' => hpass B' (hsplit ▸ List.mem_append_left _ hB')).mono hT

lemma StagesPass.mono (h : StagesPass stages T) (hT : T' ≤ T) : StagesPass stages T' := by
  induction stages generalizing T T' with
  | nil => trivial
  | cons S stages ih =>
    have hdiv : T' / S.ds.stride ≤ T / S.ds.stride := Nat.div_le_div_right hT
    exact ⟨fun B hB => (h.1 B hB).mono hdiv, ih h.2 hdiv⟩

lemma StagesFit.mono (h : StagesFit act hid tw stages T C) (hpass : StagesPass stages T)
    (hT : T' ≤ T) : StagesFit act hid tw stages T' C := by
  induction stages generalizing T T' C with
  | nil =>
    obtain ⟨hhead, hdim, hcfc1, hcfc2⟩ := h
    have hF : T' / tw.head.stride ≤ T / tw.head.stride := Nat.div_le_div_right hT
    exact ⟨hhead.mono hT, (Nat.mul_le_mul_right _ hF).trans hdim, hcfc1.mono hF,
      hcfc2.mono (Nat.div_le_div_right hF)⟩
  | cons S stages ih =>
    obtain ⟨hds, hblocks, hrest⟩ := h
    have hdiv : T' / S.ds.stride ≤ T / S.ds.stride := Nat.div_le_div_right hT
    exact ⟨hds.mono hT, hblocks.mono hpass.1 hdiv, fun _ => ih (hrest hpass.1) hpass.2 hdiv⟩

/-- A tower that comes to its end over a window does so over a shorter one, -/
lemma TowerPasses.mono (h : TowerPasses tw n) (hn : n' ≤ n) : TowerPasses tw n' :=
  ⟨h.1, h.2.mono hn⟩

/-- and then it fits there, too. -/
lemma TowerFits.mono (h : TowerFits act hid tw n) (hpass : TowerPasses tw n) (hn : n' ≤ n) :
    TowerFits act hid tw n' := by
  rw [TowerFits] at h ⊢
  rw [TowerPasses] at hpass
  cases hstages : tw.stages with
  | nil => trivial
  | cons S stages =>
    rw [hstages] at h hpass
    obtain ⟨-, hblocksPass, hrestPass⟩ := hpass
    have hdiv : n' / S.ds.stride ≤ n / S.ds.stride := Nat.div_le_div_right hn
    intro hnarrow
    obtain ⟨hread, hblocks, hrest⟩ := h hnarrow
    exact ⟨fun hpos => hread (hpos.trans_le hdiv), hblocks.mono hblocksPass hdiv,
      fun _ => (hrest hblocksPass).mono hrestPass hdiv⟩

end Towers

/-! ### Windows -/

section Windows

variable {w : Work} {v : Tower Layer × Tower Layer} {total win len n : ℕ} {lens : List ℕ}

lemma outLen_le {tw : Tower Layer} {stages : List (Stage Layer)} {act C T : ℕ}
    (hready : StagesReady tw stages C) (hcount : Counted act tw stages T) :
    tw.cfc2.len (tw.cfc1.len (tw.head.len (stagesLen stages T))) * tw.hidden ≤ act := by
  induction stages generalizing T C with
  | nil =>
    obtain ⟨hhead, hcfc1, hcfc2⟩ := hready
    rw [hhead.len_eq, hcfc1.len_eq, hcfc2.len_eq]
    refine le_trans (Nat.mul_le_mul_right _ ?_) hcount.1
    exact (Nat.div_le_self ..).trans ((Nat.div_le_self ..).trans (Nat.div_le_self ..))
  | cons S stages ih =>
    obtain ⟨hds, -, -, hrest⟩ := hready
    rw [stagesLen, List.foldl_cons, hds.len_eq]
    exact ih hrest hcount.2

/-- Rows of the caller's buffer. -/
lemma inside_out {hs total rows cap : ℕ} :
    (Use.span .out (total * hs : ℕ) ((total + rows) * hs : ℕ)).Inside w (cap * hs) ↔
      (0 < rows → 0 < hs → total + rows ≤ cap) := by
  have hspan : ((total * hs : ℕ) : ℤ) < ((total + rows) * hs : ℕ) ↔ 0 < rows ∧ 0 < hs := by
    rw [Nat.cast_lt, Nat.add_mul, Nat.lt_add_right_iff_pos]
    exact CanonicallyOrderedAdd.mul_pos
  simp only [Use.Inside, hspan, and_imp, Work.size]
  refine forall₂_congr fun hrows hs => ?_
  rw [Nat.cast_le, Nat.mul_le_mul_right_iff hs]
  omega

/-- One window stays inside the buffers just where both towers and its rows fit. -/
lemma holds_window (hready1 : StagesReady v.1 v.1.stages 1) (hready2 : StagesReady v.2 v.2.stages 1)
    (hlen : len ≤ w.act) (hrow : len ≤ w.rowv) (hcount1 : Counted w.act v.1 v.1.stages len)
    (hcount2 : Counted w.act v.2 v.2.stages len) :
    Holds (Use.Inside w (i8vaeFrames v n * v.1.hidden)) (encodeWindows w v total (len :: lens)) ↔
      TowerFits w.act w.hid v.1 len ∧ (TowerPasses v.1 len → RowsFit v n total len ∧
        TowerFits w.act w.hid v.2 len ∧ (TowerPasses v.2 len →
          Holds (Use.Inside w (i8vaeFrames v n * v.1.hidden)) (encodeWindows w v
            (total + min (v.1.outLen len) (v.2.outLen len)) lens))) := by
  have hread : v.1.outLen len * v.1.hidden ≤ w.act := outLen_le hready1 hcount1
  have hmin : min (v.1.outLen len) (v.2.outLen len) ≤ v.1.outLen len := min_le_left ..
  have hread' := (Nat.mul_le_mul_right v.1.hidden hmin).trans hread
  simp only [encodeWindows, holds_append, holds_act, holds_nil, passes_append, passes_act,
    passes_nil, inside_zero, inside_out, holds_runTower hready1 hlen hrow hcount1,
    holds_runTower hready2 hlen hrow hcount2, passes_runTower hready1, passes_runTower hready2,
    and_true]
  constructor
  · rintro ⟨⟨⟨⟨hfits, hrows⟩, hfits'⟩, -⟩, hrest⟩
    exact ⟨hfits, fun hpass => ⟨(hrows hpass).2, hfits' hpass, fun hpass' =>
      hrest ⟨hpass, hpass'⟩⟩⟩
  · rintro ⟨hfits, h⟩
    refine ⟨⟨⟨⟨hfits, fun hpass => ⟨hread, (h hpass).1⟩⟩, fun hpass => (h hpass).2.1⟩, ?_⟩, ?_⟩
    · rintro ⟨hpass, -⟩
      refine ⟨hread', fun hpos hs => ?_⟩
      have hrows := (h hpass).1 (hpos.trans_le hmin) hs
      omega
    · rintro ⟨hpass, hpass'⟩
      exact (h hpass).2.2 hpass'

/-- The windows of one length stay inside the buffers just where the rows of each of them fit. -/
lemma holds_encodeWindows (hready1 : StagesReady v.1 v.1.stages 1)
    (hready2 : StagesReady v.2 v.2.stages 1) (hwin : win ≤ w.act) (hrow : win ≤ w.rowv)
    (hcount1 : Counted w.act v.1 v.1.stages win) (hcount2 : Counted w.act v.2 v.2.stages win)
    (hfits1 : TowerFits w.act w.hid v.1 win) (hpass1 : TowerPasses v.1 win)
    (hfits2 : TowerFits w.act w.hid v.2 win) (hpass2 : TowerPasses v.2 win)
    (hle : ∀ len ∈ lens, len ≤ win) (hwhole : ∀ i, i + 1 < lens.length → lens[i]? = some win) :
    Holds (Use.Inside w (i8vaeFrames v n * v.1.hidden)) (encodeWindows w v total lens) ↔
      ∀ i len, lens[i]? = some len →
        RowsFit v n (total + i * min (v.1.outLen win) (v.2.outLen win)) len := by
  induction lens generalizing total with
  | nil => simp [encodeWindows]
  | cons len lens ih =>
    have hlen : len ≤ win := hle len List.mem_cons_self
    have ih' := fun total => @ih total (fun l hl => hle l (List.mem_cons_of_mem _ hl))
      fun i hi => hwhole (i + 1) (by simpa using hi)
    rw [holds_window hready1 hready2 (hlen.trans hwin) (hlen.trans hrow)
      (hcount1.mono le_rfl hlen) (hcount2.mono le_rfl hlen), ih']
    simp only [hfits1.mono hpass1 hlen, hfits2.mono hpass2 hlen, hpass1.mono hlen,
      hpass2.mono hlen, true_and, true_imp_iff]
    constructor
    · rintro ⟨hfirst, hrest⟩ i l hl
      cases i with
      | zero =>
        cases hl
        rw [Nat.zero_mul, Nat.add_zero]
        exact hfirst
      | succ i =>
        rw [List.getElem?_cons_succ] at hl
        have hnext : i < lens.length := (List.getElem?_eq_some_iff.mp hl).1
        have heq := hwhole 0 (by simp only [List.length_cons]; omega)
        cases heq
        have hi := hrest i l hl
        rwa [add_assoc, ← one_add_mul, Nat.add_comm 1] at hi
    · intro h
      refine ⟨?_, fun i l hl => ?_⟩
      · have h0 := h 0 len rfl
        rwa [Nat.zero_mul, Nat.add_zero] at h0
      · have hnext : i < lens.length := (List.getElem?_eq_some_iff.mp hl).1
        have heq := hwhole 0 (by simp only [List.length_cons]; omega)
        cases heq
        have hi := h (i + 1) l hl
        rwa [Nat.add_comm i 1, one_add_mul, ← add_assoc] at hi

lemma windows_getElem? (hwin : 0 < win) (i : ℕ) :
    (windows n win)[i]? = if i * win < n then some (min (n - i * win) win) else none := by
  rw [windows, Lanes.starts, List.getElem?_map, List.getElem?_map]
  by_cases hi : i * win < n
  · have hlt : i < (n + win - 1) / win := (Nat.lt_div_iff_mul_lt hwin).mpr (by omega)
    rw [if_pos hi, List.getElem?_range hlt]
    rfl
  · have hge : (n + win - 1) / win ≤ i := Nat.le_of_lt_succ <|
      (Nat.div_lt_iff_lt_mul hwin).mpr (by rw [Nat.succ_mul]; omega)
    rw [if_neg hi, List.getElem?_eq_none (by rwa [List.length_range])]
    rfl

lemma windowLen_pos (hn : 0 < n) (window : ℤ) : 0 < windowLen n window := by
  rw [windowLen]
  split <;> omega

lemma windowLen_le (n : ℕ) (window : ℤ) : windowLen n window ≤ n := by
  rw [windowLen]
  split <;> omega

end Windows

/-! ### The whole call -/

/-- Every operation of a call stays inside its buffers, and every panel it reads is there, just
where the towers and the rows fit. -/
theorem encode_inside_iff {junk : Acts} {raw : Tower I8Layer × Tower I8Layer}
    {v : Tower Layer × Tower Layer} (hprep : prepare junk raw = .ok v) (n : ℕ) (window keepK : ℤ)
    (keepDw : Bool) :
    (∀ u ∈ reached (encode v n window keepK keepDw),
      u.Inside (workAlloc v (windowLen n window) keepK keepDw) (i8vaeFrames v n * v.1.hidden)) ↔
        Fits v n window := by
  obtain ⟨a, ha, hprep⟩ := Loop.bind_eq_ok.mp hprep
  obtain ⟨s, hs, hprep⟩ := Loop.bind_eq_ok.mp hprep
  cases hprep
  have hready1 := prepTower_ok ha
  have hready2 := prepTower_ok hs
  change Holds _ _ ↔ _
  rw [encode, Fits, holds_guard, holds_guard, decide_eq_true_eq, decide_eq_true_eq]
  refine forall₂_congr fun hn hhidden => ?_
  generalize hw : workAlloc (a, s) (windowLen n window) keepK keepDw = w
  have hact : w.act = max (towerSizes a (windowLen n window)).1
      (towerSizes s (windowLen n window)).1 + 64 := hw ▸ rfl
  have hhid : w.hid = max (towerSizes a (windowLen n window)).2
      (towerSizes s (windowLen n window)).2 + 64 := hw ▸ rfl
  have hrow : windowLen n window ≤ w.rowv := hw ▸ Nat.le_succ _
  have hle1 : (towerSizes a (windowLen n window)).1 ≤ w.act := by
    rw [hact]
    exact (le_max_left ..).trans (Nat.le_add_right ..)
  have hle2 : (towerSizes s (windowLen n window)).1 ≤ w.act := by
    rw [hact]
    exact (le_max_right ..).trans (Nat.le_add_right ..)
  have hcount1 := (counted_towerSizes hready1 (windowLen n window)).mono hle1 le_rfl
  have hcount2 := (counted_towerSizes hready2 (windowLen n window)).mono hle2 le_rfl
  have hwin : windowLen n window ≤ w.act := (le_towerSizes hready1 _).trans hle1
  have hpos := windowLen_pos hn window
  have hlist := windows_getElem? (n := n) hpos
  dsimp only
  rw [← hact, ← hhid]
  generalize hlens : windows n (windowLen n window) = lens at hlist ⊢
  cases lens with
  | nil =>
    have h0 := hlist 0
    rw [if_pos (by rwa [Nat.zero_mul])] at h0
    cases h0
  | cons len lens =>
    have hfirst : len = windowLen n window := by
      have h0 := hlist 0
      rw [if_pos (by rwa [Nat.zero_mul]), Nat.zero_mul, Nat.sub_zero,
        min_eq_right (windowLen_le n window)] at h0
      exact Option.some.inj h0
    subst hfirst
    have hstep : Holds _ (encodeWindows w (a, s) 0 (windowLen n window :: lens)) ↔ _ :=
      holds_window (v := (a, s)) (n := n) hready1 hready2 hwin hrow hcount1 hcount2
    refine hstep.trans (and_congr_right fun hfits1 => forall_congr' fun hpass1 =>
      and_congr_right fun hrows => and_congr_right fun hfits2 => forall_congr' fun hpass2 => ?_)
    simp only [hfits1, hpass1, hrows, hfits2, hpass2, true_and, true_imp_iff] at hstep
    rw [← hstep, holds_encodeWindows hready1 hready2 hwin hrow hcount1 hcount2 hfits1 hpass1
      hfits2 hpass2]
    · constructor
      · intro h i hi
        have hrow := h i _ ((hlist i).trans (if_pos hi))
        rwa [Nat.zero_add] at hrow
      · intro h i len hlen
        have hi : i * windowLen n window < n := by
          by_contra hi
          rw [hlist, if_neg hi] at hlen
          cases hlen
        rw [hlist, if_pos hi] at hlen
        cases hlen
        rw [Nat.zero_add]
        exact h i hi
    · intro len hlen
      obtain ⟨i, hi⟩ := List.mem_iff_getElem?.mp hlen
      rw [hlist] at hi
      split at hi
      · cases hi
        exact min_le_right ..
      · cases hi
    · intro i hi
      have hnext := List.getElem?_eq_getElem hi
      rw [hlist] at hnext ⊢
      split at hnext
      · rename_i hlt
        rw [Nat.succ_mul] at hlt
        rw [if_pos (by omega), min_eq_right (by omega)]
      · cases hnext

lemma blocksFit_one {act hid T C : ℕ} {B : Block Layer} (h : BlockFits act hid T C B) :
    BlocksFit act hid T C [B] := by
  intro front B' rest hB _
  cases front with
  | nil => cases hB; exact h
  | cons _ front => simp at hB

/-- A tower of one stage, with eight channels and a block. -/
def blockTower : Tower I8Layer :=
  let layer (inCh outCh : ℕ) : I8Layer := ⟨fun _ => 1, inCh, outCh, 1, 1, false⟩
  ⟨[⟨layer 1 8, [⟨true, ⟨fun _ => 1, 8, 8, 3, 1, true⟩, layer 8 16, layer 16 8⟩]⟩],
    layer 8 8, layer 8 8, true, layer 8 8⟩

/-- Two towers of eight channels, over three samples. -/
theorem encode_inside_block :
    ∃ v, prepare (fun _ => 0) (blockTower, blockTower) = .ok v ∧
      ∀ u ∈ reached (encode v 3 0 0 true),
        u.Inside (workAlloc v (windowLen 3 0) 0 true) (i8vaeFrames v 3 * v.1.hidden) :=
  ⟨_, rfl, (@encode_inside_iff (fun _ => 0) (blockTower, blockTower) _ rfl 3 0 0 true).mpr
    fun _ _ => by
      refine ⟨?_, fun _ => ⟨fun _ _ => by decide, ?_, fun _ i hi _ _ => ?_⟩⟩
      iterate 2
        refine fun _ => ⟨fun _ _ => by decide, blocksFit_one ⟨fun _ => by decide, fun _ =>
          ⟨?_, by decide, ?_, fun h => absurd h (by decide)⟩⟩, fun _ => ⟨?_, by decide, ?_, ?_⟩⟩
        iterate 5 exact fun _ _ _ => ⟨by decide, rfl, rfl⟩
      -- there is one window
      have hi : i = 0 := by
        rw [show windowLen 3 0 = 3 from rfl] at hi
        omega
      subst hi
      decide⟩

/-- A tower of one stage and no blocks: four channels, and `dim` behind the head. -/
def plainTower (dim : ℕ) : Tower I8Layer :=
  let layer (inCh outCh : ℕ) : I8Layer := ⟨fun _ => 1, inCh, outCh, 1, 1, false⟩
  ⟨[⟨layer 1 4, []⟩], layer 4 dim, layer dim 4, true, layer 4 4⟩

/-- A head of 1000 channels, behind buffers of 4 + 64 bytes. -/
theorem encode_head_outside :
    ∃ v, prepare (fun _ => 0) (plainTower 1000, plainTower 1000) = .ok v ∧
      ¬ ∀ u ∈ reached (encode v 1 0 0 true),
        u.Inside (workAlloc v (windowLen 1 0) 0 true) (i8vaeFrames v 1 * v.1.hidden) := by
  refine ⟨_, rfl, fun h => ?_⟩
  have hspan := h (.span .b1 0 1000) (List.mem_of_getElem? (i := 5) rfl) (by decide)
  exact absurd hspan.2 (by decide)

end VibeVoice.I8vae
