import Mathlib.Tactic.Linarith
import VibeVoice.Encoder.GpuStream

/-!
The scratch memory of the accelerator's encoder (`vae_gpu.c`): its sizes, fixed when the arena is
created, against what a batch forms in it.

Sizes count elements, of 2 bytes for activations and 4 for statistics. A launch is modelled by the
ranges of columns it reads and writes. No `int` and no `int64_t` overflows.

* `arenaLayout`, `arenaCreate`: the sizes, products and sums of `size_t`.
* `encodeUses`: what the launches of `vv_vae_encode` touch, and how it ends.
* `Ends`: its rule for one part behind the other.
* `Reach`: how many columns a batch can bring to a stage.
* `encodeUses_ok_iff`: which batches an arena is large enough for.
-/

namespace VibeVoice.Encoder

/-! ### Plans with their widths -/

/-- A block of a stage, with the width of its FFN. -/
structure Block (α : Type) where
  mixer : Layer α
  mixer_kind : mixer.kind = .mixer
  hidden : ℕ
  hidden_pos : 0 < hidden

/-- The downsample of a stage, with its output channels. -/
structure Down (α : Type) where
  layer : Layer α
  layer_kind : layer.kind = .down
  outCh : ℕ
  outCh_pos : 0 < outCh

/-- A stage of a plan with widths. -/
structure SizedStage (α : Type) where
  blocks : List (Block α)
  down : Option (Down α)

/-- A plan with the channels of its stem and the widths of its stages. -/
structure Sized (α : Type) where
  stem : Layer α
  stem_kind : stem.kind = .stem
  ch : ℕ
  ch_pos : 0 < ch
  stages : List (SizedStage α)
  stages_ne : stages ≠ []
  head : Layer α
  head_kind : head.kind = .head

section Plan

variable {α : Type}

/-- A stage without its widths. -/
def SizedStage.stage (s : SizedStage α) : Stage α where
  mixers := s.blocks.map Block.mixer
  down := s.down.map Down.layer
  mixers_kind := by
    intro L hL
    obtain ⟨b, -, rfl⟩ := List.mem_map.mp hL
    exact b.mixer_kind
  down_kind := by
    intro L hL
    obtain ⟨d, -, rfl⟩ := Option.map_eq_some_iff.mp hL
    exact d.layer_kind

/-- A plan without its widths. -/
def Sized.plan (d : Sized α) : Plan α where
  stem := d.stem
  stages := d.stages.map SizedStage.stage
  head := d.head
  stem_kind := d.stem_kind
  head_kind := d.head_kind

/-- Channels and samples per column behind a stage. -/
def SizedStage.behind (s : SizedStage α) (ch div : ℕ) : ℕ × ℕ :=
  match s.down with
  | some d => (d.outCh, div * d.layer.stride)
  | none => (ch, div)

/-- A stage with its channels (`C`) and its samples per column (`div`). -/
structure StageRow (α : Type) where
  ch : ℕ
  div : ℕ
  stage : SizedStage α

/-- The stages of the plan as `vae_plan_build` counts them. -/
def stageRows : ℕ → ℕ → List (SizedStage α) → List (StageRow α)
  | _, _, [] => []
  | ch, div, s :: ss => ⟨ch, div, s⟩ :: stageRows (s.behind ch div).1 (s.behind ch div).2 ss

/-- The widest FFN of a stage. -/
def SizedStage.hidden (s : SizedStage α) : ℕ := (s.blocks.map Block.hidden).foldl max 0

/-- The channels the head takes. -/
def headCh : ℕ → List (SizedStage α) → ℕ
  | ch, [] => ch
  | ch, s :: ss => headCh (s.behind ch 1).1 ss

end Plan

/-! ### Sizes -/

/-- `round8`. -/
def round8 (v : ℕ) : ℕ := (v + 7) / 8 * 8

/-- A number as a `size_t` keeps it. -/
def sizeT (n : ℕ) : ℕ := n % 2 ^ 64

/-- `align_up`, for numbers as `size` keeps them. -/
def alignUp (size : ℕ → ℕ) (v a : ℕ) : ℕ := size (v + a - 1) / a * a

/-- `VV_VAE_MAX_ITEMS`. -/
def vaeMaxItems : ℕ := 32

/-- `VAE_ALIGN`. -/
def vaeAlign : ℕ := 256

/-- `VAE_FFN_TILE_BYTES`, in elements. -/
def ffnTileElems : ℕ := 32 * 1024 * 1024 / 2

/-- `vae_arena_layout_t`, but for the bounds by stage. -/
structure Layout where
  actElems : ℕ
  rinvElems : ℕ
  hidElems : ℕ
  offAct1 : ℕ
  offRinv : ℕ
  offHid : ℕ
  bytes : ℕ

section Layout

variable {α : Type}

/-- `ld` of a stage. -/
def StageRow.ld (r : StageRow α) (maxItems maxSamples : ℕ) : ℕ :=
  round8 (maxSamples / r.div + 8 * maxItems)

/-- The largest of some sizes. -/
def largest (sizes : List ℕ) : ℕ := sizes.foldl max 0

/-- The rows of the im2col columns of the downsamples, each with the bound of the stage its output
is in: the next one, or the last one where there is none. -/
def downSizes (maxItems maxSamples last : ℕ) : List (StageRow α) → List (ℕ × ℕ)
  | [] => []
  | r :: rows =>
    let next := (rows.head?.map fun r' => r'.ld maxItems maxSamples).getD last
    (r.stage.down.toList.map fun d => (r.ch * d.layer.k, next)) ++
      downSizes maxItems maxSamples last rows

/-- Every im2col size of the plan, the head's behind those of the downsamples. -/
def Sized.convSizes (d : Sized α) (maxItems maxSamples : ℕ) : List (ℕ × ℕ) :=
  let rows := stageRows d.ch 1 d.stages
  let last := (rows.getLast?.map fun r => r.ld maxItems maxSamples).getD 0
  downSizes maxItems maxSamples last rows ++ [(headCh d.ch d.stages * d.head.k, last)]

/-- `max_cap`. -/
def Sized.maxCap (d : Sized α) : ℕ := largest (d.plan.layers.map fun L => L.k - 1)

section Size

variable (size : ℕ → ℕ) (d : Sized α) (maxItems maxSamples : ℕ)

/-- `act`, the elements of an activation buffer. -/
def Sized.actWant : ℕ :=
  largest ((stageRows d.ch 1 d.stages).map fun r => size (r.ch * r.ld maxItems maxSamples))

/-- `hid_full`: the hidden buffer that takes everything at once. -/
def Sized.hidFull : ℕ :=
  max (largest ((stageRows d.ch 1 d.stages).map fun r =>
      size (r.stage.hidden * r.ld maxItems maxSamples)))
    (largest ((d.convSizes maxItems maxSamples).map fun c => size (c.1 * c.2)))

/-- `hid`, before it is bounded: the size of a tile, and 128 columns of the widest. -/
def Sized.hidWant : ℕ :=
  max (max ffnTileElems
      (size (largest ((stageRows d.ch 1 d.stages).map fun r => r.stage.hidden) * 128)))
    (largest ((d.convSizes maxItems maxSamples).map fun c => size (c.1 * 128)))

/-- The buffers of an arena, each aligned. -/
def Layout.stack (act rinv hid : ℕ) : Layout :=
  let offAct1 := alignUp size (size (act * 2)) vaeAlign
  let offRinv := size (offAct1 + alignUp size (size (act * 2)) vaeAlign)
  let offHid := size (offRinv + alignUp size (size (rinv * 4)) vaeAlign)
  { actElems := act
    rinvElems := rinv
    hidElems := hid
    offAct1 := offAct1
    offRinv := offRinv
    offHid := offHid
    bytes := size (offHid + alignUp size (size (hid * 2)) vaeAlign) }

/-- `arena_layout`, for sizes as `size` keeps them. -/
def layoutOf : Layout :=
  let rinv := size (((stageRows d.ch 1 d.stages).head?.map fun r =>
    r.ld maxItems maxSamples).getD 0 + maxItems * (d.maxCap + 1))
  .stack size (d.actWant size maxItems maxSamples) rinv
    (min (d.hidWant size maxItems maxSamples) (d.hidFull size maxItems maxSamples))

end Size

/-- `arena_layout`. -/
def arenaLayout (d : Sized α) (maxItems maxSamples : ℕ) : Layout :=
  layoutOf sizeT d maxItems maxSamples

/-- No size of an arena is too large for a `size_t`. -/
structure Sized.Fits (d : Sized α) (maxItems maxSamples : ℕ) : Prop where
  want : d.hidWant id maxItems maxSamples < 2 ^ 64
  full : d.hidFull id maxItems maxSamples < 2 ^ 64
  bytes : (layoutOf id d maxItems maxSamples).bytes < 2 ^ 64

/-- `vv_vae_arena`. -/
structure Arena where
  maxItems : ℕ
  maxSamples : ℕ
  lay : Layout

/-- `vv_vae_arena_create`. -/
def arenaCreate (d : Sized α) (maxItems maxSamples : ℕ) : Except Status Arena :=
  if maxItems < 1 ∨ maxSamples < 1 then throw .invalidArg
  else
    let items := if vaeMaxItems < maxItems then vaeMaxItems else maxItems
    pure ⟨items, maxSamples, arenaLayout d items maxSamples⟩

end Layout

/-! ### What the launches touch -/

/-- The buffers of the arena. -/
inductive Buf
  | act (second : Bool)
  | rinv
  | hid
  deriving DecidableEq, Repr

/-- Ranges of columns in a buffer of `rows` rows, `ld` apart. -/
structure Use where
  buf : Buf
  rows : ℕ
  ld : ℕ
  cols : List (ℕ × ℕ)

/-- Where a packed walk through the layers stands. -/
structure Walk where
  li : ℕ
  cur : Bool
  lens : List ℕ
  ld : ℕ

/-- The launches of a part of an encode, and the walk it leaves or how it ends. -/
structure Trace where
  uses : List (List Use)
  ends : Except Status Walk

/-- The next part, unless the encode has ended. -/
def Trace.andThen (r : Trace) (next : Walk → Trace) : Trace :=
  match r.ends with
  | .ok w => ⟨r.uses ++ (next w).uses, (next w).ends⟩
  | .error e => ⟨r.uses, .error e⟩

section Uses

variable {α : Type} (l : Layout) (items : List (Item α))

/-- The packed input ranges of a layer. -/
def inCols (ds : List (Desc α)) : List (ℕ × ℕ) := ds.map fun d => (d.inOff, d.inLen)

/-- The packed output ranges of a layer. -/
def outCols (ds : List (Desc α)) : List (ℕ × ℕ) := ds.map fun d => (d.outOff, d.outLen)

/-- The statistics of the columns and of every context. -/
def rinvCols (T n cap : ℕ) : List (ℕ × ℕ) :=
  (0, T) :: (List.range n).map fun i => (T + i * cap, cap)

/-- Tiles of the columns of a launch. -/
def tilesOf (T tile : ℕ) : List (ℕ × ℕ) :=
  (List.range ((T + tile - 1) / tile)).map fun i => (i * tile, min (T - i * tile) tile)

/-- `tile` of the FFN. -/
def ffnTile (hidden : ℕ) : ℕ := l.hidElems / hidden / 128 * 128

/-- `tile` of the im2col GEMMs. -/
def convTile (kc : ℕ) : ℕ :=
  let tile := l.hidElems / kc
  if 128 ≤ tile then tile / 128 * 128 else tile / 8 * 8

/-- A tile of the FFN of a block. -/
def ffnTileUses (ch hidden : ℕ) (w : Walk) (t : ℕ × ℕ) : List Use :=
  [⟨.act w.cur, ch, w.ld, [t]⟩, ⟨.rinv, 1, w.lens.sum, [t]⟩, ⟨.hid, hidden, round8 t.2, [(0, t.2)]⟩]

/-- The FFN of a block over some tiles of the columns. -/
def ffnTiles (ch hidden : ℕ) (w : Walk) : List (ℕ × ℕ) → Trace
  | [] => ⟨[], .ok w⟩
  | t :: ts =>
    if l.hidElems < hidden * round8 t.2 then ⟨[], .error .overflow⟩
    else (Trace.mk [ffnTileUses ch hidden w t] (.ok w)).andThen fun w => ffnTiles ch hidden w ts

/-- The FFN of a block. -/
def ffnUses (ch hidden : ℕ) (w : Walk) : Trace :=
  if w.lens.sum = 0 then ⟨[], .ok w⟩
  else if ffnTile l hidden < 128 then ⟨[], .error .overflow⟩
  else ffnTiles l ch hidden w (tilesOf w.lens.sum (ffnTile l hidden))

/-- The mixer of a block over all columns, behind their statistics. -/
def mixerUses (ch : ℕ) (L : Layer α) (w : Walk) : Trace :=
  let T := w.lens.sum
  let cols := inCols (makeDesc L w.li 0 0 items w.lens)
  let cap := L.k - 1
  let stat : Use := ⟨.rinv, 1, T + items.length * cap, rinvCols T items.length cap⟩
  let w' := { w with li := w.li + 1, cur := !w.cur }
  if T = 0 then ⟨[], .ok w'⟩
  else if mixMaxK < L.k then ⟨[[⟨.act w.cur, ch, w.ld, cols⟩, stat]], .error .invalidArg⟩
  else ⟨[[⟨.act w.cur, ch, w.ld, cols⟩, stat],
    [⟨.act w.cur, ch, w.ld, cols⟩, ⟨.act !w.cur, ch, w.ld, cols⟩, stat]], .ok w'⟩

/-- A block: the mixer, and the FFN behind it. -/
def blockUses (ch : ℕ) (b : Block α) (w : Walk) : Trace :=
  (mixerUses items ch b.mixer w).andThen (ffnUses l ch b.hidden)

/-- The blocks of a stage. -/
def blocksUses (ch : ℕ) : List (Block α) → Walk → Trace
  | [], w => ⟨[], .ok w⟩
  | b :: bs, w => (blockUses l items ch b w).andThen (blocksUses ch bs)

/-- A GEMM over im2col columns: each tile of them is laid out, and then used. -/
def convUses (ch kc : ℕ) (w : Walk) (ds : List (Desc α)) (out : ℕ × ℕ → List Use) :
    List (List Use) :=
  (tilesOf (ds.map Desc.outLen).sum (convTile l kc)).flatMap fun t =>
    [[⟨.act w.cur, ch, w.ld, inCols ds⟩, ⟨.hid, kc, round8 t.2, [(0, t.2)]⟩],
      ⟨.hid, kc, round8 t.2, [(0, t.2)]⟩ :: out t]

/-- The GEMM of a convolution, unless there is no tile for it or `vv_vae_im2col_dev` refuses it. -/
def gemmUses (ch k : ℕ) (w w' : Walk) (ds : List (Desc α)) (out : ℕ × ℕ → List Use) : Trace :=
  let T := (ds.map Desc.outLen).sum
  if 0 < T ∧ convTile l (ch * k) < 8 then ⟨[], .error .overflow⟩
  else if 0 < T ∧ maxTaps < ch * k then ⟨[], .error .invalidArg⟩
  else ⟨convUses l ch (ch * k) w ds out, .ok w'⟩

/-- The downsample of a stage. -/
def downUses (ch : ℕ) (d : Down α) (w : Walk) : Trace :=
  let ds := makeDesc d.layer w.li 0 0 items w.lens
  let T := (ds.map Desc.outLen).sum
  if l.actElems < d.outCh * round8 T then ⟨[], .error .overflow⟩
  else gemmUses l ch d.layer.k w
    { li := w.li + 1, cur := !w.cur, lens := ds.map Desc.outLen, ld := round8 T } ds
    fun t => [⟨.act !w.cur, d.outCh, round8 T, [t]⟩]

/-- A stage. -/
def stageUses (ch : ℕ) (s : SizedStage α) (w : Walk) : Trace :=
  (blocksUses l items ch s.blocks w).andThen fun w =>
    match s.down with
    | none => ⟨[], .ok w⟩
    | some d => downUses l items ch d w

/-- The stages from channels `ch` on. -/
def stagesUses : ℕ → List (SizedStage α) → Walk → Trace
  | _, [], w => ⟨[], .ok w⟩
  | ch, s :: ss, w => (stageUses l items ch s w).andThen (stagesUses (s.behind ch 1).1 ss)

/-- The head, whose frames go to the items' own rows. -/
def headUses (ch : ℕ) (head : Layer α) (w : Walk) : Trace :=
  gemmUses l ch head.k w w (makeDesc head w.li 0 0 items w.lens) fun _ => []

/-- The launches of `vv_vae_encode` behind its entry checks. -/
def encodeUses (d : Sized α) : Trace :=
  let ds := makeDesc d.stem 0 0 0 items (items.map fun it => it.audio.length)
  let lens := ds.map Desc.outLen
  let ld := round8 lens.sum
  if l.actElems < d.ch * ld then ⟨[], .error .overflow⟩
  else
    let stem := if lens.sum = 0 then [] else [[⟨.act false, d.ch, ld, outCols ds⟩]]
    ((Trace.mk stem (.ok ⟨1, false, lens, ld⟩)).andThen
      (stagesUses l items d.ch d.stages)).andThen (headUses l items (headCh d.ch d.stages) d.head)

end Uses

/-! ### What it takes to fit -/

/-- The elements of a buffer. -/
def Layout.elems (l : Layout) : Buf → ℕ
  | .act _ => l.actElems
  | .rinv => l.rinvElems
  | .hid => l.hidElems

/-- The bytes of a buffer, where it starts and how many they are. -/
def Layout.span (l : Layout) : Buf → ℕ × ℕ
  | .act false => (0, l.actElems * 2)
  | .act true => (l.offAct1, l.actElems * 2)
  | .rinv => (l.offRinv, l.rinvElems * 4)
  | .hid => (l.offHid, l.hidElems * 2)

/-- The buffers of an arena do not overlap, and it holds them all. -/
def Layout.Sound (l : Layout) : Prop :=
  (∀ b, (l.span b).1 + (l.span b).2 ≤ l.bytes) ∧
    ∀ b b', b ≠ b' → (l.span b).1 + (l.span b).2 ≤ (l.span b').1 ∨
      (l.span b').1 + (l.span b').2 ≤ (l.span b).1

/-- The ranges of a use are inside of its buffer, and one behind the other. -/
structure Use.Inside (l : Layout) (u : Use) : Prop where
  room : u.rows * u.ld ≤ l.elems u.buf
  cols : ∀ c ∈ u.cols, c.1 + c.2 ≤ u.ld
  apart : u.cols.Pairwise fun c c' => c.1 + c.2 ≤ c'.1

/-- A launch whose ranges are inside of their buffers, which are different ones. -/
def Fitting (l : Layout) (us : List Use) : Prop :=
  (∀ u ∈ us, u.Inside l) ∧ us.Pairwise fun u u' => u.buf ≠ u'.buf

section Room

variable {α : Type}

/-- The layer and the lengths of the items behind a stage. -/
def SizedStage.next (items : List (Item α)) (s : SizedStage α) (li : ℕ) (lens : List ℕ) :
    ℕ × List ℕ :=
  match s.down with
  | none => (li + s.blocks.length, lens)
  | some d => (li + s.blocks.length + 1,
      (makeDesc d.layer (li + s.blocks.length) 0 0 items lens).map Desc.outLen)

/-- 128 columns of each FFN fit `full` elements, up to the first mixer the launcher refuses. -/
def BlocksRoomy (full : ℕ) : List (Block α) → Prop
  | [] => True
  | b :: bs => b.mixer.k ≤ mixMaxK → 128 * b.hidden ≤ full ∧ BlocksRoomy full bs

/-- The launchers take the mixers of a stage with `T` columns. -/
def SizedStage.MixersTaken (s : SizedStage α) (T : ℕ) : Prop :=
  0 < T → ∀ b ∈ s.blocks, b.mixer.k ≤ mixMaxK

/-- The launchers take the downsample of a stage with `ch` channels into `T` columns. -/
def SizedStage.DownTaken (s : SizedStage α) (ch T : ℕ) : Prop :=
  0 < T → ∀ d ∈ s.down, ch * d.layer.k ≤ maxTaps

/-- The launchers take the stages from channels `ch` on. -/
def StagesTaken (items : List (Item α)) : ℕ → ℕ → List ℕ → List (SizedStage α) → Prop
  | _, _, _, [] => True
  | ch, li, lens, s :: ss =>
    let next := s.next items li lens
    (s.MixersTaken lens.sum ∧ s.DownTaken ch next.2.sum) ∧
      StagesTaken items (s.behind ch 1).1 next.1 next.2 ss

/-- As far as the launchers take the stages, 128 columns of every FFN that the batch brings a column
to fit `full` elements, and what comes out of a downsample behind the last stage fits `act`. -/
def Roomy (full act : ℕ) (items : List (Item α)) : ℕ → ℕ → List ℕ → List (SizedStage α) → Prop
  | _, _, _, [] => True
  | ch, li, lens, s :: ss =>
    let next := s.next items li lens
    ((0 < lens.sum → BlocksRoomy full s.blocks) ∧ (s.MixersTaken lens.sum → ss = [] →
      ∀ d ∈ s.down, d.outCh * round8 next.2.sum ≤ act)) ∧
      (s.MixersTaken lens.sum ∧ s.DownTaken ch next.2.sum →
        Roomy full act items (s.behind ch 1).1 next.1 next.2 ss)

/-- The lengths of the items behind the stem. -/
def Sized.stemLens (d : Sized α) (items : List (Item α)) : List ℕ :=
  (makeDesc d.stem 0 0 0 items (items.map fun it => it.audio.length)).map Desc.outLen

end Room

/-! ### Sizes -/

section Sizes

variable {α : Type}

lemma le_round8 (v : ℕ) : v ≤ round8 v := by
  rw [round8]
  omega

lemma round8_mono {v w : ℕ} (h : v ≤ w) : round8 v ≤ round8 w :=
  Nat.mul_le_mul_right 8 (Nat.div_le_div_right (by omega))

lemma round8_le {v w : ℕ} (h : v ≤ w) (hw : 8 ∣ w) : round8 v ≤ w := by
  rw [round8]
  omega

lemma le_alignUp (v : ℕ) : v ≤ alignUp id v vaeAlign := by
  rw [alignUp, id, vaeAlign]
  omega

lemma sizeT_eq {n : ℕ} (h : n < 2 ^ 64) : sizeT n = n := Nat.mod_eq_of_lt h

lemma alignUp_sizeT {v : ℕ} (h : alignUp id v vaeAlign < 2 ^ 64) :
    alignUp sizeT (sizeT v) vaeAlign = alignUp id v vaeAlign := by
  rw [sizeT_eq ((le_alignUp v).trans_lt h)]
  rw [alignUp, id, vaeAlign] at h
  rw [alignUp, alignUp, id, vaeAlign, sizeT_eq (by omega)]

lemma le_largest {sizes : List ℕ} {v : ℕ} (h : v ∈ sizes) : v ≤ largest sizes := by
  have hfold : ∀ (xs : List ℕ) (m : ℕ), m ≤ xs.foldl max m ∧ ∀ x ∈ xs, x ≤ xs.foldl max m := by
    intro xs
    induction xs with
    | nil => exact fun m => ⟨le_rfl, nofun⟩
    | cons y ys ih =>
      intro m
      obtain ⟨hm, hall⟩ := ih (max m y)
      refine ⟨(le_max_left m y).trans hm, fun x hx => ?_⟩
      rcases List.mem_cons.mp hx with rfl | hmem
      · exact (le_max_right m x).trans hm
      · exact hall x hmem
  exact (hfold sizes 0).2 v h

lemma largest_sizeT {β : Type} {xs : List β} {f : β → ℕ}
    (h : largest (xs.map fun x => id (f x)) < 2 ^ 64) :
    largest (xs.map fun x => sizeT (f x)) = largest (xs.map fun x => id (f x)) :=
  congrArg largest (List.map_congr_left fun _ hx =>
    sizeT_eq ((le_largest (List.mem_map_of_mem hx)).trans_lt h))

/-- Where the numbers of a layout are exact, its buffers lie one behind the other. -/
lemma stack_steps (act rinv hid : ℕ) :
    (Layout.stack id act rinv hid).offAct1 = alignUp id (act * 2) vaeAlign ∧
      (Layout.stack id act rinv hid).offRinv = (Layout.stack id act rinv hid).offAct1 +
        alignUp id (act * 2) vaeAlign ∧
      (Layout.stack id act rinv hid).offHid = (Layout.stack id act rinv hid).offRinv +
        alignUp id (rinv * 4) vaeAlign ∧
      (Layout.stack id act rinv hid).bytes = (Layout.stack id act rinv hid).offHid +
        alignUp id (hid * 2) vaeAlign := ⟨rfl, rfl, rfl, rfl⟩

lemma stack_sound (act rinv hid : ℕ) : (Layout.stack id act rinv hid).Sound := by
  obtain ⟨hact1, hrinv, hhid, hbytes⟩ := stack_steps act rinv hid
  have hact := le_alignUp (act * 2)
  have hstat := le_alignUp (rinv * 4)
  have hlast := le_alignUp (hid * 2)
  have helems : (Layout.stack id act rinv hid).actElems = act ∧
      (Layout.stack id act rinv hid).rinvElems = rinv ∧
      (Layout.stack id act rinv hid).hidElems = hid := ⟨rfl, rfl, rfl⟩
  constructor
  · rintro ((_ | _) | _ | _)
    all_goals
      simp only [Layout.span]
      omega
  · rintro ((_ | _) | _ | _) ((_ | _) | _ | _) hne
    all_goals
      simp only [Layout.span]
      first
        | exact absurd rfl hne
        | omega

/-- Buffers that fit a `size_t` lie where exact numbers have them. -/
lemma stack_sizeT {act rinv hid : ℕ} (h : (Layout.stack id act rinv hid).bytes < 2 ^ 64) :
    act < 2 ^ 64 ∧ rinv < 2 ^ 64 ∧
      Layout.stack sizeT act rinv hid = Layout.stack id act rinv hid := by
  obtain ⟨hact1, hrinv, hhid, hbytes⟩ := stack_steps act rinv hid
  have hact : alignUp id (act * 2) vaeAlign < 2 ^ 64 := by omega
  have hstat : alignUp id (rinv * 4) vaeAlign < 2 ^ 64 := by omega
  have hlast : alignUp id (hid * 2) vaeAlign < 2 ^ 64 := by omega
  have hle := le_alignUp (act * 2)
  have hle' := le_alignUp (rinv * 4)
  refine ⟨by omega, by omega, ?_⟩
  simp only [Layout.stack, alignUp_sizeT hact, alignUp_sizeT hstat, alignUp_sizeT hlast]
  rw [sizeT_eq (n := _ + alignUp id (act * 2) vaeAlign) (by omega),
    sizeT_eq (n := _ + alignUp id (rinv * 4) vaeAlign) (by omega), sizeT_eq (by omega)]
  rfl

/-- An arena that fits a `size_t` has the sizes that exact numbers give. -/
lemma Sized.Fits.layout {d : Sized α} {maxItems maxSamples : ℕ} (h : d.Fits maxItems maxSamples) :
    arenaLayout d maxItems maxSamples = layoutOf id d maxItems maxSamples := by
  have hfull := max_lt_iff.mp h.full
  have hwant := max_lt_iff.mp h.want
  obtain ⟨hact, hrinv, hstack⟩ := stack_sizeT h.bytes
  rw [arenaLayout, layoutOf, Sized.actWant, Sized.hidWant, Sized.hidFull, largest_sizeT hact,
    largest_sizeT hfull.1, largest_sizeT hfull.2, largest_sizeT hwant.2,
    sizeT_eq (n := _ * 128) (max_lt_iff.mp hwant.1).2, sizeT_eq (n := _ + _ * _) hrinv]
  exact hstack

end Sizes

/-! ### How many columns a batch brings -/

section Columns

variable {α : Type} {Ls : List (Layer α)} {L : Layer α} {li : ℕ}

/-- Columns of `m` items whose samples are `total` in all, at `div` samples a column. -/
def Reach (total m div T : ℕ) : Prop := div * T + 2 * m ≤ total + 2 * div * m

/-- A chunk gives out at most two columns more than its length has room for. -/
lemma layerStep_le {k s have' n : ℕ} (hs : 0 < s) (hsk : s ≤ k) (hhave : have' ≤ k - 1)
    (fin : Bool) : s * (layerStep k s have' n fin).1 + 2 ≤ n + 2 * s := by
  cases fin with
  | true =>
    show s * (if 0 < have' + n - (k - s) then (have' + n - (k - s) + s - 1) / s else 0) + 2 ≤ _
    have hmul := Nat.mul_div_le (have' + n - (k - s) + s - 1) s
    split <;> omega
  | false =>
    show s * (if k ≤ have' + n then (have' + n - k) / s + 1 else 0) + 2 ≤ _
    have hmul := Nat.mul_div_le (have' + n - k) s
    split
    · rw [Nat.mul_add]
      omega
    · omega

lemma haveCols_le {it : Item α} (hit : it.Valid Ls) (hL : Ls[li]? = some L) :
    it.haveCols L li ≤ L.k - 1 := by
  have hs := L.stride_pos
  rw [Item.haveCols]
  cases hst : it.state with
  | none =>
    show L.freshHave ≤ _
    rw [Layer.freshHave]
    omega
  | some st =>
    show (if st.fresh = true then L.freshHave else st.haveCols li) ≤ _
    by_cases hfresh : st.fresh = true
    · rw [if_pos hfresh, Layer.freshHave]
      omega
    · rw [if_neg hfresh]
      exact (hit st hst (Bool.not_eq_true _ ▸ hfresh) li L hL).2.1

lemma sum_outLen_le (hL : Ls[li]? = some L) {items : List (Item α)}
    (hvalid : ∀ it ∈ items, it.Valid Ls) {lens : List ℕ} (hlen : lens.length = items.length)
    (inOff outOff : ℕ) :
    L.stride * ((makeDesc L li inOff outOff items lens).map Desc.outLen).sum + 2 * items.length ≤
      lens.sum + 2 * L.stride * items.length := by
  induction items generalizing lens inOff outOff with
  | nil =>
    cases lens with
    | nil => exact Nat.le_refl _
    | cons n ns => exact nomatch hlen
  | cons it items ih =>
    cases lens with
    | nil => exact nomatch hlen
    | cons n ns =>
      have hstep := layerStep_le (n := n) L.stride_pos L.stride_le
        (haveCols_le (hvalid it List.mem_cons_self) hL) it.fin
      have hrest := ih (fun it' h => hvalid it' (List.mem_cons_of_mem _ h))
        (Nat.succ.inj hlen) (inOff + n) (outOff + (descOf L li inOff outOff it n).outLen)
      rw [makeDesc, List.map_cons, List.sum_cons, List.sum_cons, List.length_cons, Nat.mul_add,
        Nat.mul_add, Nat.mul_add]
      have hout : (descOf L li inOff outOff it n).outLen =
          (layerStep L.k L.stride (it.haveCols L li) n it.fin).1 := rfl
      rw [hout] at hrest ⊢
      omega

lemma length_makeDesc {items : List (Item α)} {lens : List ℕ} (h : lens.length = items.length)
    (L : Layer α) (li inOff outOff : ℕ) :
    (makeDesc L li inOff outOff items lens).length = items.length := by
  induction items generalizing lens inOff outOff with
  | nil =>
    cases lens with
    | nil => rfl
    | cons n ns => exact nomatch h
  | cons it items ih =>
    cases lens with
    | nil => exact nomatch h
    | cons n ns => exact congrArg (· + 1) (ih (Nat.succ.inj h) _ _)

lemma sum_inLen {items : List (Item α)} {lens : List ℕ} (h : lens.length = items.length)
    (L : Layer α) (li inOff outOff : ℕ) :
    ((makeDesc L li inOff outOff items lens).map Desc.inLen).sum = lens.sum := by
  induction items generalizing lens inOff outOff with
  | nil =>
    cases lens with
    | nil => rfl
    | cons n ns => exact nomatch h
  | cons it items ih =>
    cases lens with
    | nil => exact nomatch h
    | cons n ns => exact congrArg (n + ·) (ih (Nat.succ.inj h) _ _)

lemma Reach.next {total m div T T' s : ℕ} (h : Reach total m div T)
    (hnext : s * T' + 2 * m ≤ T + 2 * s * m) : Reach total m (div * s) T' := by
  have hmul : div * (s * T' + 2 * m) ≤ div * (T + 2 * s * m) := Nat.mul_le_mul_left div hnext
  rw [Reach] at h ⊢
  linarith

/-- The columns a batch brings to a stage fit the bound of the stage. -/
lemma Reach.le_ld {total m T maxItems maxSamples : ℕ} {r : StageRow α}
    (h : Reach total m r.div T) (hdiv : 0 < r.div) (htotal : total ≤ maxSamples)
    (hm : m ≤ maxItems) : round8 T ≤ r.ld maxItems maxSamples := by
  have hdivmod := Nat.div_add_mod maxSamples r.div
  have hmod := Nat.mod_lt maxSamples hdiv
  have hbound : T < maxSamples / r.div + 2 * m + 1 := by
    by_contra hge
    have hle : r.div * (maxSamples / r.div + 2 * m + 1) ≤ r.div * T :=
      Nat.mul_le_mul_left _ (not_lt.mp hge)
    rw [Reach] at h
    linarith
  exact round8_mono (by omega)

end Columns

/-! ### Launches inside of their buffers -/

section Inside

variable {α : Type} {l : Layout} {items : List (Item α)} {lens : List ℕ}

lemma inside_packed {off len : Desc α → ℕ} {ds : List (Desc α)} {ch ld : ℕ} {b : Bool}
    (hcons : Packed.Consecutive off len 0 ds) (hld : (ds.map len).sum ≤ ld)
    (hroom : ch * ld ≤ l.actElems) :
    (⟨.act b, ch, ld, ds.map fun d => (off d, len d)⟩ : Use).Inside l := by
  refine ⟨hroom, fun c hc => ?_, List.pairwise_map.mpr hcons.pairwise⟩
  obtain ⟨d, hd, rfl⟩ := List.mem_map.mp hc
  have hbound := (hcons.bounds d hd).2
  rw [Nat.zero_add] at hbound
  exact hbound.trans hld

lemma inside_in (L : Layer α) (li ch ld : ℕ) (b : Bool) (hlen : lens.length = items.length)
    (hld : lens.sum ≤ ld) (hroom : ch * ld ≤ l.actElems) :
    (⟨.act b, ch, ld, inCols (makeDesc L li 0 0 items lens)⟩ : Use).Inside l :=
  inside_packed (consecutive_in L li 0 0 items lens) ((sum_inLen hlen ..).trans_le hld) hroom

lemma inside_one {buf : Buf} {rows ld : ℕ} {c : ℕ × ℕ} (hroom : rows * ld ≤ l.elems buf)
    (hc : c.1 + c.2 ≤ ld) : (⟨buf, rows, ld, [c]⟩ : Use).Inside l := by
  refine ⟨hroom, fun c' hc' => ?_, List.pairwise_singleton _ _⟩
  rw [List.mem_singleton.mp hc']
  exact hc

lemma inside_rinv {T n cap : ℕ} (hroom : T + n * cap ≤ l.rinvElems) :
    (⟨.rinv, 1, T + n * cap, rinvCols T n cap⟩ : Use).Inside l := by
  have hnext : ∀ i < n, i * cap + cap ≤ n * cap := by
    intro i hi
    rw [← Nat.succ_mul]
    exact Nat.mul_le_mul_right cap hi
  refine ⟨(Nat.one_mul _).trans_le hroom, fun c hc => ?_, ?_⟩
  · rcases List.mem_cons.mp hc with rfl | hmem
    · show 0 + T ≤ T + n * cap
      omega
    · obtain ⟨i, hi, rfl⟩ := List.mem_map.mp hmem
      have hi' := hnext i (List.mem_range.mp hi)
      show T + i * cap + cap ≤ T + n * cap
      omega
  · refine .cons (fun c hc => ?_) (List.pairwise_map.mpr ?_)
    · obtain ⟨i, -, rfl⟩ := List.mem_map.mp hc
      show 0 + T ≤ T + i * cap
      omega
    · refine (List.pairwise_lt_range (n := n)).imp fun {i j} hij => ?_
      have hmul : (i + 1) * cap ≤ j * cap := Nat.mul_le_mul_right cap hij
      rw [Nat.succ_mul] at hmul
      show T + i * cap + cap ≤ T + j * cap
      omega

lemma fitting_nil : Fitting l [] := ⟨nofun, .nil⟩

lemma Fitting.cons {u : Use} {us : List Use} (h : Fitting l us) (hu : u.Inside l)
    (hne : ∀ u' ∈ us, u.buf ≠ u'.buf) : Fitting l (u :: us) := by
  refine ⟨fun u' hu' => ?_, .cons hne h.2⟩
  rcases List.mem_cons.mp hu' with rfl | hmem
  · exact hu
  · exact h.1 u' hmem

lemma mem_tilesOf {T tile : ℕ} {t : ℕ × ℕ} (h : t ∈ tilesOf T tile) :
    t.1 + t.2 ≤ T ∧ t.2 ≤ tile := by
  obtain ⟨i, hi, rfl⟩ := List.mem_map.mp h
  have hlt := List.mem_range.mp hi
  rcases Nat.eq_zero_or_pos tile with rfl | hpos
  · rw [Nat.div_zero] at hlt
    exact absurd hlt i.not_lt_zero
  · have hle : (i + 1) * tile ≤ T + tile - 1 :=
      (Nat.mul_le_mul_right tile hlt).trans (Nat.div_mul_le_self _ _)
    rw [Nat.succ_mul] at hle
    refine ⟨?_, min_le_right _ _⟩
    show i * tile + min (T - i * tile) tile ≤ T
    have hmin := min_le_left (T - i * tile) tile
    omega

lemma hid_room {rows tile n : ℕ} (hroom : rows * tile ≤ l.hidElems) (hdvd : 8 ∣ tile)
    (hn : n ≤ tile) : rows * round8 n ≤ l.hidElems :=
  (Nat.mul_le_mul_left rows (round8_le hn hdvd)).trans hroom

lemma ffnTile_room (l : Layout) (hidden : ℕ) :
    hidden * ffnTile l hidden ≤ l.hidElems ∧ 8 ∣ ffnTile l hidden := by
  constructor
  · calc hidden * ffnTile l hidden ≤ hidden * (l.hidElems / hidden) :=
        Nat.mul_le_mul_left _ (Nat.div_mul_le_self _ _)
      _ ≤ l.hidElems := Nat.mul_div_le _ _
  · exact Dvd.dvd.mul_left (Nat.dvd_of_mod_eq_zero rfl) _

lemma ffnTile_lt_iff {hidden : ℕ} (hpos : 0 < hidden) :
    ffnTile l hidden < 128 ↔ ¬ 128 * hidden ≤ l.hidElems := by
  rw [← Nat.le_div_iff_mul_le hpos, ffnTile]
  omega

lemma convTile_room (l : Layout) (kc : ℕ) :
    kc * convTile l kc ≤ l.hidElems ∧ 8 ∣ convTile l kc := by
  have hle : convTile l kc ≤ l.hidElems / kc := by
    show (if 128 ≤ l.hidElems / kc then l.hidElems / kc / 128 * 128
      else l.hidElems / kc / 8 * 8) ≤ _
    split
    · exact Nat.div_mul_le_self _ _
    · exact Nat.div_mul_le_self _ _
  refine ⟨(Nat.mul_le_mul_left kc hle).trans (Nat.mul_div_le _ _), ?_⟩
  show 8 ∣ if 128 ≤ l.hidElems / kc then l.hidElems / kc / 128 * 128
    else l.hidElems / kc / 8 * 8
  split <;> omega

lemma le_convTile {kc : ℕ} (hpos : 0 < kc) (h : 8 * kc ≤ l.hidElems) : 8 ≤ convTile l kc := by
  have hdiv : 8 ≤ l.hidElems / kc := (Nat.le_div_iff_mul_le hpos).mpr h
  show 8 ≤ if 128 ≤ l.hidElems / kc then l.hidElems / kc / 128 * 128
    else l.hidElems / kc / 8 * 8
  split <;> omega

end Inside

/-! ### The layers of a batch -/

section Parts

variable {l : Layout} {Q Q' L L' : Prop} {P P' : Walk → Prop} {r : Trace}

/-- A part whose launches fit: it overflows unless `Q`, is refused unless `L`, and leaves a walk
that meets `P` elsewhere. -/
structure Ends (l : Layout) (Q L : Prop) (P : Walk → Prop) (r : Trace) : Prop where
  fits : ∀ us ∈ r.uses, Fitting l us
  overflow : ¬ Q → r.ends = .error .overflow
  refused : Q → ¬ L → r.ends = .error .invalidArg
  goes : Q → L → ∃ w, r.ends = .ok w ∧ P w

lemma Ends.of_ok {uses : List (List Use)} {w : Walk} (hfits : ∀ us ∈ uses, Fitting l us)
    (hw : P w) : Ends l True True P ⟨uses, .ok w⟩ :=
  ⟨hfits, fun h => absurd trivial h, fun _ h => absurd trivial h, fun _ _ => ⟨w, rfl, hw⟩⟩

lemma Ends.of_overflow (hQ : ¬ Q) : Ends l Q L P ⟨[], .error .overflow⟩ :=
  ⟨nofun, fun _ => rfl, fun h => absurd h hQ, fun h => absurd h hQ⟩

lemma Ends.of_refused {uses : List (List Use)} (hfits : ∀ us ∈ uses, Fitting l us) (hQ : Q)
    (hL : ¬ L) : Ends l Q L P ⟨uses, .error .invalidArg⟩ :=
  ⟨hfits, fun h => absurd hQ h, fun _ _ => rfl, fun _ h => absurd h hL⟩

lemma Ends.mono (h : Ends l Q L P r) (hQ : Q ↔ Q') (hL : Q → (L ↔ L')) (hP : ∀ w, P w → P' w) :
    Ends l Q' L' P' r where
  fits := h.fits
  overflow := fun hnot => h.overflow (mt hQ.mp hnot)
  refused := fun hQ' hnot => h.refused (hQ.mpr hQ') (mt (hL (hQ.mpr hQ')).mp hnot)
  goes := fun hQ' hL' => by
    obtain ⟨w, hok, hw⟩ := h.goes (hQ.mpr hQ') ((hL (hQ.mpr hQ')).mpr hL')
    exact ⟨w, hok, hP w hw⟩

lemma Ends.congr (h : Ends l Q L P r) (hQ : Q ↔ Q') (hL : Q → (L ↔ L')) : Ends l Q' L' P r :=
  h.mono hQ hL fun _ hw => hw

/-- One part behind the other: the second one counts as far as the first one goes. -/
lemma Ends.andThen {next : Walk → Trace} (h : Ends l Q L P r)
    (hnext : ∀ w, P w → Ends l Q' L' P' (next w)) :
    Ends l (Q ∧ (L → Q')) (L ∧ L') P' (r.andThen next) := by
  by_cases hstop : Q ∧ L
  · obtain ⟨w, hok, hw⟩ := h.goes hstop.1 hstop.2
    obtain ⟨hfits, hover, hrefused, hgoes⟩ := hnext w hw
    rw [Trace.andThen, hok]
    refine ⟨fun us hus => ?_, fun hnot => hover fun hQ' => hnot ⟨hstop.1, fun _ => hQ'⟩,
      fun hQ hnot => hrefused (hQ.2 hstop.2) fun hL' => hnot ⟨hstop.2, hL'⟩,
      fun hQ hL => hgoes (hQ.2 hstop.2) hL.2⟩
    rcases List.mem_append.mp hus with hfirst | hsecond
    · exact h.fits us hfirst
    · exact hfits us hsecond
  · obtain ⟨e, he⟩ : ∃ e, r.ends = .error e := by
      by_cases hQ : Q
      · exact ⟨_, h.refused hQ fun hL => hstop ⟨hQ, hL⟩⟩
      · exact ⟨_, h.overflow hQ⟩
    have hrun : r.andThen next = ⟨r.uses, .error e⟩ := by
      rw [Trace.andThen, he]
    rw [hrun]
    refine ⟨h.fits, fun hnot => ?_, fun hQ hnot => ?_, fun hQ hL => absurd ⟨hQ.1, hL.1⟩ hstop⟩
    · have hQ : ¬ Q := fun hQ => hnot ⟨hQ, fun hL => absurd ⟨hQ, hL⟩ hstop⟩
      exact he ▸ h.overflow hQ
    · exact he ▸ h.refused hQ.1 fun hL => hstop ⟨hQ.1, hL⟩

lemma Ends.before {w : Walk} (h : Ends l Q L (· = w) r) (next : Walk → Trace)
    (hnext : Ends l Q' L' P' (next w)) : Ends l (Q ∧ (L → Q')) (L ∧ L') P' (r.andThen next) :=
  h.andThen fun w' hw' => by
    rw [hw']
    exact hnext

/-- The rule where what is refused depends on the walk. -/
lemma Ends.andThen_of {M : Walk → Prop} (h : Ends l Q L P r) (next : Walk → Trace)
    (hnext : ∀ w, P w → Ends l Q' (M w) P' (next w)) :
    ∃ L', Ends l (Q ∧ (L → Q')) L' P' (r.andThen next) := by
  have hknown : Ends l Q L (fun w => P w ∧ r.ends = .ok w) r := by
    refine ⟨h.fits, h.overflow, h.refused, fun hQ hL => ?_⟩
    obtain ⟨w, hok, hw⟩ := h.goes hQ hL
    exact ⟨w, hok, hw, hok⟩
  have hrest : ∀ w, P w ∧ r.ends = .ok w →
      Ends l Q' (∀ w, r.ends = .ok w → M w) P' (next w) := by
    intro w hw
    refine (hnext w hw.1).congr Iff.rfl fun _ => ⟨fun hL w' hw' => ?_, fun hL => hL w hw.2⟩
    rwa [← Except.ok.inj (hw.2.symm.trans hw')]
  exact ⟨_, hknown.andThen hrest⟩

/-- A part overflows, and does not end in another way, where it has no room. -/
lemma Ends.ne_overflow_iff (h : Ends l Q L P r) : r.ends ≠ .error .overflow ↔ Q := by
  refine ⟨fun hne => not_not.mp fun hQ => hne (h.overflow hQ), fun hQ hover => ?_⟩
  by_cases hL : L
  · obtain ⟨w, hok, -⟩ := h.goes hQ hL
    exact nomatch hok.symm.trans hover
  · exact nomatch (h.refused hQ hL).symm.trans hover

end Parts

section Layers

variable {α : Type} {l : Layout} {items : List (Item α)} {ch : ℕ} {w : Walk}

/-- The columns of a walk fit an activation buffer. -/
structure Placed (l : Layout) (items : List (Item α)) (ch : ℕ) (w : Walk) : Prop where
  len : w.lens.length = items.length
  ld : w.ld = round8 w.lens.sum
  room : ch * w.ld ≤ l.actElems

lemma Placed.sum_le (h : Placed l items ch w) : w.lens.sum ≤ w.ld := h.ld ▸ le_round8 _

lemma ffnTiles_ends (h : Placed l items ch w) (hrinv : w.lens.sum ≤ l.rinvElems) {hidden : ℕ}
    {ts : List (ℕ × ℕ)} (hts : ∀ t ∈ ts, t.1 + t.2 ≤ w.lens.sum ∧
      hidden * round8 t.2 ≤ l.hidElems) :
    Ends l True True (· = w) (ffnTiles l ch hidden w ts) := by
  induction ts with
  | nil => exact .of_ok nofun rfl
  | cons t ts ih =>
    obtain ⟨hin, hroom⟩ := hts t List.mem_cons_self
    have hhid : (⟨.hid, hidden, round8 t.2, [(0, t.2)]⟩ : Use).Inside l :=
      inside_one hroom ((Nat.zero_add _).trans_le (le_round8 _))
    have hstat : (⟨.rinv, 1, w.lens.sum, [t]⟩ : Use).Inside l :=
      inside_one ((Nat.one_mul _).trans_le hrinv) hin
    have hact : (⟨.act w.cur, ch, w.ld, [t]⟩ : Use).Inside l :=
      inside_one h.room (hin.trans h.sum_le)
    have hfits : Fitting l (ffnTileUses ch hidden w t) := by
      refine ((fitting_nil.cons hhid nofun).cons hstat ?_).cons hact ?_
      · simp
      · simp
    have hfirst : Ends l True True (· = w) ⟨[ffnTileUses ch hidden w t], .ok w⟩ :=
      .of_ok (List.forall_mem_singleton.mpr hfits) rfl
    rw [ffnTiles, if_neg (not_lt.mpr hroom)]
    have hrest := ih fun t' ht' => hts t' (List.mem_cons_of_mem _ ht')
    exact (hfirst.before (fun w => ffnTiles l ch hidden w ts) hrest).congr (by simp) (by simp)

/-- The FFN of a block overflows where no tile of 128 columns fits. -/
lemma ffnUses_ends (h : Placed l items ch w) (hrinv : w.lens.sum ≤ l.rinvElems) {hidden : ℕ}
    (hpos : 0 < hidden) : Ends l (0 < w.lens.sum → 128 * hidden ≤ l.hidElems) True (· = w)
      (ffnUses l ch hidden w) := by
  rw [ffnUses]
  by_cases hnone : w.lens.sum = 0
  · rw [if_pos hnone]
    exact .congr (.of_ok nofun rfl) (by simp [hnone]) (by simp)
  · rw [if_neg hnone]
    have hsome := Nat.pos_of_ne_zero hnone
    by_cases hwide : 128 * hidden ≤ l.hidElems
    · obtain ⟨hroom, hdvd⟩ := ffnTile_room l hidden
      rw [if_neg fun hlt => (ffnTile_lt_iff hpos).mp hlt hwide]
      refine (ffnTiles_ends h hrinv fun t ht => ?_).congr (by simp [hwide]) (by simp)
      obtain ⟨hin, hle⟩ := mem_tilesOf ht
      exact ⟨hin, hid_room hroom hdvd hle⟩
    · rw [if_pos ((ffnTile_lt_iff hpos).mpr hwide)]
      exact .of_overflow fun hfits => hwide (hfits hsome)

/-- A mixer is refused where it has too many taps. -/
lemma mixerUses_ends (h : Placed l items ch w) {L : Layer α}
    (hrinv : w.lens.sum + items.length * (L.k - 1) ≤ l.rinvElems) :
    Ends l True (0 < w.lens.sum → L.k ≤ mixMaxK)
      (· = { w with li := w.li + 1, cur := !w.cur }) (mixerUses items ch L w) := by
  have hin := fun c => inside_in L w.li ch w.ld c h.len h.sum_le h.room
  have hstat := fitting_nil.cons (inside_rinv hrinv) nofun
  have hrms := hstat.cons (hin w.cur) (by simp)
  rw [mixerUses]
  by_cases hnone : w.lens.sum = 0
  · rw [if_pos hnone]
    exact .congr (.of_ok nofun rfl) Iff.rfl (by simp [hnone])
  · rw [if_neg hnone]
    have hsome := Nat.pos_of_ne_zero hnone
    by_cases hwide : mixMaxK < L.k
    · rw [if_pos hwide]
      exact .of_refused (List.forall_mem_singleton.mpr hrms) trivial
        fun htaken => not_lt.mpr (htaken hsome) hwide
    · rw [if_neg hwide]
      have hmix : Fitting l [⟨.act w.cur, ch, w.ld, inCols (makeDesc L w.li 0 0 items w.lens)⟩,
          ⟨.act !w.cur, ch, w.ld, inCols (makeDesc L w.li 0 0 items w.lens)⟩,
          ⟨.rinv, 1, w.lens.sum + items.length * (L.k - 1),
            rinvCols w.lens.sum items.length (L.k - 1)⟩] := by
        refine (hstat.cons (hin _) ?_).cons (hin _) ?_
        · simp
        · cases w.cur <;> simp
      exact .congr
        (.of_ok (List.forall_mem_cons.mpr ⟨hrms, List.forall_mem_singleton.mpr hmix⟩) rfl)
        Iff.rfl (by simp [not_lt.mp hwide])

/-- The blocks of a stage, up to a mixer that is refused. -/
lemma blocksUses_ends {bs : List (Block α)} (h : Placed l items ch w)
    (hrinv : ∀ b ∈ bs, w.lens.sum + items.length * (b.mixer.k - 1) ≤ l.rinvElems) :
    Ends l (0 < w.lens.sum → BlocksRoomy l.hidElems bs)
      (0 < w.lens.sum → ∀ b ∈ bs, b.mixer.k ≤ mixMaxK)
      (fun w' => ∃ cur, w' = { w with li := w.li + bs.length, cur := cur })
      (blocksUses l items ch bs w) := by
  induction bs generalizing w with
  | nil => exact .congr (.of_ok nofun ⟨w.cur, rfl⟩) (by simp [BlocksRoomy]) (by simp)
  | cons b bs ih =>
    have hmix := hrinv b List.mem_cons_self
    have hnext : Placed l items ch { w with li := w.li + 1, cur := !w.cur } :=
      ⟨h.len, h.ld, h.room⟩
    have hffn := ffnUses_ends hnext ((Nat.le_add_right _ _).trans hmix) b.hidden_pos
    have hrest := ih hnext fun b' hb' => hrinv b' (List.mem_cons_of_mem _ hb')
    have hblock := (mixerUses_ends h hmix).before _ hffn
    refine (hblock.before (blocksUses l items ch bs) hrest).mono ?_ ?_ ?_
    · rw [BlocksRoomy]
      tauto
    · rw [List.forall_mem_cons]
      tauto
    · rintro w' ⟨cur, rfl⟩
      refine ⟨cur, ?_⟩
      simp [Nat.add_assoc, Nat.add_comm]

/-- The im2col GEMM of a convolution. -/
lemma convUses_fitting (h : Placed l items ch w) (L : Layer α) (kc : ℕ)
    {out : ℕ × ℕ → List Use} (hout : ∀ t, t.1 + t.2 ≤
        ((makeDesc L w.li 0 0 items w.lens).map Desc.outLen).sum → Fitting l (out t))
    (hne : ∀ t, ∀ u ∈ out t, u.buf ≠ .hid) :
    ∀ us ∈ convUses l ch kc w (makeDesc L w.li 0 0 items w.lens) out, Fitting l us := by
  intro us hus
  obtain ⟨t, ht, hmem⟩ := List.mem_flatMap.mp hus
  obtain ⟨hin, hle⟩ := mem_tilesOf ht
  obtain ⟨hroom, hdvd⟩ := convTile_room l kc
  have hhid : (⟨.hid, kc, round8 t.2, [(0, t.2)]⟩ : Use).Inside l :=
    inside_one (hid_room hroom hdvd hle) ((Nat.zero_add _).trans_le (le_round8 _))
  rcases List.mem_cons.mp hmem with rfl | hmem
  · refine (fitting_nil.cons hhid nofun).cons
      (inside_in L w.li ch w.ld w.cur h.len h.sum_le h.room) ?_
    simp
  · rw [List.mem_singleton.mp hmem]
    exact (hout t hin).cons hhid fun u hu => (hne t u hu).symm

/-- The GEMM of a convolution whose im2col columns fit eight at a time. -/
lemma gemmUses_ends (h : Placed l items ch w) (hch : 0 < ch) (L : Layer α) {w' : Walk}
    {P : Walk → Prop} (hw' : P w') (hkc : 8 * (ch * L.k) ≤ l.hidElems)
    {out : ℕ × ℕ → List Use} (hout : ∀ t, t.1 + t.2 ≤
        ((makeDesc L w.li 0 0 items w.lens).map Desc.outLen).sum → Fitting l (out t))
    (hne : ∀ t, ∀ u ∈ out t, u.buf ≠ .hid) :
    Ends l True (0 < ((makeDesc L w.li 0 0 items w.lens).map Desc.outLen).sum → ch * L.k ≤ maxTaps)
      P (gemmUses l ch L.k w w' (makeDesc L w.li 0 0 items w.lens) out) := by
  have htile := le_convTile (Nat.mul_pos hch (L.stride_pos.trans_le L.stride_le)) hkc
  rw [gemmUses, if_neg fun hlt => not_lt.mpr htile hlt.2]
  split
  · next hwide =>
    exact .of_refused nofun trivial fun htaken => not_lt.mpr (htaken hwide.1) hwide.2
  · next hnarrow =>
    refine .congr (.of_ok (convUses_fitting h L _ hout hne) hw') Iff.rfl fun _ => ?_
    exact iff_of_true trivial fun hsome => not_lt.mp fun hwide => hnarrow ⟨hsome, hwide⟩

/-- A downsample overflows where its output does not fit an activation buffer. -/
lemma downUses_ends (h : Placed l items ch w) (hch : 0 < ch) {d : Down α}
    (hkc : 8 * (ch * d.layer.k) ≤ l.hidElems) {T : ℕ}
    (hT : T = ((makeDesc d.layer w.li 0 0 items w.lens).map Desc.outLen).sum) :
    Ends l (d.outCh * round8 T ≤ l.actElems) (0 < T → ch * d.layer.k ≤ maxTaps)
      (fun w' => w'.li = w.li + 1 ∧
        w'.lens = (makeDesc d.layer w.li 0 0 items w.lens).map Desc.outLen ∧
        Placed l items d.outCh w') (downUses l items ch d w) := by
  subst hT
  rw [downUses]
  split
  · next hwide => exact .of_overflow (not_le.mpr hwide)
  · next hfits =>
    have hroom := not_lt.mp hfits
    have hlen : ((makeDesc d.layer w.li 0 0 items w.lens).map Desc.outLen).length =
        items.length := by
      rw [List.length_map, length_makeDesc h.len]
    refine .congr (gemmUses_ends h hch d.layer ⟨rfl, rfl, hlen, rfl, hroom⟩ hkc (fun t ht => ?_)
      fun t u hu => ?_) (by simp [hroom]) fun _ => Iff.rfl
    · exact fitting_nil.cons (inside_one hroom (ht.trans (le_round8 _))) nofun
    · rw [List.mem_singleton.mp hu]
      exact nofun

end Layers

/-! ### The stages of a batch -/

section Stages

variable {α : Type} {l : Layout} {items : List (Item α)} {maxItems maxSamples full : ℕ}

/-- What a layout has for a stage. -/
structure Covers (l : Layout) (maxItems maxSamples full : ℕ) (r : StageRow α) : Prop where
  ch_pos : 0 < r.ch
  div_pos : 0 < r.div
  act : r.ch * r.ld maxItems maxSamples ≤ l.actElems
  rinv : ∀ b ∈ r.stage.blocks,
    r.ld maxItems maxSamples + maxItems * (b.mixer.k - 1) ≤ l.rinvElems
  down : ∀ d ∈ r.stage.down, 8 * (r.ch * d.layer.k) ≤ l.hidElems
  hid : ∀ b ∈ r.stage.blocks, 128 * b.hidden ≤ full ↔ 128 * b.hidden ≤ l.hidElems

/-- A batch of a stage: its columns, the layers they have still to go through, and its items. -/
structure Entering (l : Layout) (maxItems maxSamples : ℕ) (Ls rest : List (Layer α))
    (items : List (Item α)) (ch div : ℕ) (w : Walk) : Prop where
  placed : Placed l items ch w
  layers : From Ls w.li rest
  valid : ∀ it ∈ items, it.Valid Ls
  few : items.length ≤ maxItems
  reach : ∃ total, total ≤ maxSamples ∧ Reach total items.length div w.lens.sum

lemma From.append {Ls xs ys : List (Layer α)} {li : ℕ} (h : From Ls li (xs ++ ys)) :
    From Ls (li + xs.length) ys := by
  intro j L hL
  have hshift := h (xs.length + j) L
  rw [List.getElem?_append_right (Nat.le_add_right _ _), Nat.add_sub_cancel_left] at hshift
  rw [Nat.add_assoc]
  exact hshift hL

lemma SizedStage.stage_down (s : SizedStage α) : s.stage.down = s.down.map Down.layer := rfl

section Stage

variable {Ls rest : List (Layer α)} {ch div : ℕ} {w : Walk} {s : SizedStage α}

lemma Entering.sum_le (h : Entering l maxItems maxSamples Ls rest items ch div w)
    (hcov : Covers l maxItems maxSamples full ⟨ch, div, s⟩) :
    round8 w.lens.sum ≤ (⟨ch, div, s⟩ : StageRow α).ld maxItems maxSamples := by
  obtain ⟨total, htotal, hreach⟩ := h.reach
  exact Reach.le_ld (r := ⟨ch, div, s⟩) hreach hcov.div_pos htotal h.few

lemma Entering.rinv (h : Entering l maxItems maxSamples Ls rest items ch div w)
    (hcov : Covers l maxItems maxSamples full ⟨ch, div, s⟩) :
    ∀ b ∈ s.blocks, w.lens.sum + items.length * (b.mixer.k - 1) ≤ l.rinvElems := by
  intro b hb
  refine (Nat.add_le_add ?_ (Nat.mul_le_mul_right _ h.few)).trans (hcov.rinv b hb)
  exact (le_round8 _).trans (h.sum_le hcov)

/-- The layers behind the blocks of a stage. -/
lemma Entering.behind
    (h : Entering l maxItems maxSamples Ls (s.stage.layers ++ rest) items ch div w) :
    From Ls (w.li + s.blocks.length) (s.stage.down.toList ++ rest) := by
  have hlen : s.stage.mixers.length = s.blocks.length := List.length_map _
  have hlayers := h.layers
  rw [Stage.layers, List.append_assoc] at hlayers
  have hbehind := hlayers.append
  rwa [hlen] at hbehind

/-- What a batch can bring out of a stage. -/
lemma Entering.next_reach
    (h : Entering l maxItems maxSamples Ls (s.stage.layers ++ rest) items ch div w) :
    ∃ total, total ≤ maxSamples ∧
      Reach total items.length (s.behind ch div).2 (s.next items w.li w.lens).2.sum := by
  obtain ⟨total, htotal, hreach⟩ := h.reach
  have hbehind := h.behind
  rw [s.stage_down] at hbehind
  refine ⟨total, htotal, ?_⟩
  rw [SizedStage.behind, SizedStage.next]
  cases hd : s.down with
  | none => exact hreach
  | some d =>
    rw [hd] at hbehind
    exact hreach.next (sum_outLen_le hbehind.head h.valid h.placed.len 0 0)

lemma blocksRoomy_congr {full full' : ℕ} {bs : List (Block α)}
    (h : ∀ b ∈ bs, 128 * b.hidden ≤ full ↔ 128 * b.hidden ≤ full') :
    BlocksRoomy full bs ↔ BlocksRoomy full' bs := by
  induction bs with
  | nil => exact Iff.rfl
  | cons b bs ih =>
    have hrest := ih fun b' hb' => h b' (List.mem_cons_of_mem _ hb')
    rw [BlocksRoomy, BlocksRoomy, h b List.mem_cons_self, hrest]

/-- A stage: its FFNs, up to a mixer that is refused, and its downsample behind all of them. -/
lemma stageUses_ends (h : Entering l maxItems maxSamples Ls (s.stage.layers ++ rest) items ch div w)
    (hcov : Covers l maxItems maxSamples full ⟨ch, div, s⟩) :
    Ends l ((0 < w.lens.sum → BlocksRoomy full s.blocks) ∧ (s.MixersTaken w.lens.sum →
        ∀ d ∈ s.down, d.outCh * round8 (s.next items w.li w.lens).2.sum ≤ l.actElems))
      (s.MixersTaken w.lens.sum ∧ s.DownTaken ch (s.next items w.li w.lens).2.sum)
      (fun w' => (w'.li, w'.lens) = s.next items w.li w.lens ∧
        Entering l maxItems maxSamples Ls rest items (s.behind ch div).1 (s.behind ch div).2 w')
      (stageUses l items ch s w) := by
  have hblocks := (blocksUses_ends h.placed (h.rinv hcov)).congr
    (imp_congr_right fun _ => (blocksRoomy_congr hcov.hid).symm) fun _ => Iff.rfl
  refine hblocks.andThen ?_
  rintro _ ⟨cur, rfl⟩
  have hbehind := h.behind
  obtain ⟨total, htotal, hreach⟩ := h.next_reach
  rw [s.stage_down] at hbehind
  rw [SizedStage.DownTaken]
  rw [SizedStage.behind, SizedStage.next] at hreach ⊢
  cases hd : s.down with
  | none =>
    rw [hd] at hbehind hreach
    exact .congr (.of_ok nofun ⟨rfl, ⟨h.placed.len, h.placed.ld, h.placed.room⟩, hbehind, h.valid,
      h.few, total, htotal, hreach⟩) (by simp) (by simp)
  | some d =>
    rw [hd] at hbehind hreach
    have hdown := downUses_ends (w := { w with li := w.li + s.blocks.length, cur := cur })
      ⟨h.placed.len, h.placed.ld, h.placed.room⟩ hcov.ch_pos (hcov.down d hd) rfl
    refine hdown.mono (by simp) (by simp) ?_
    rintro w' ⟨hli, hlens, hplaced⟩
    refine ⟨?_, hplaced, ?_, h.valid, h.few, total, htotal, ?_⟩
    · rw [hli, hlens]
    · rw [hli]
      exact hbehind.tail
    · rw [hlens]
      exact hreach

/-- What comes out of a stage fits the activations, where another one follows. -/
lemma Entering.down_room {s' : SizedStage α}
    (h : Entering l maxItems maxSamples Ls (s.stage.layers ++ rest) items ch div w)
    (hcov : Covers l maxItems maxSamples full ⟨(s.behind ch div).1, (s.behind ch div).2, s'⟩) :
    ∀ d ∈ s.down, d.outCh * round8 (s.next items w.li w.lens).2.sum ≤ l.actElems := by
  intro d hd
  obtain ⟨total, htotal, hreach⟩ := h.next_reach
  have hld := hreach.le_ld (r := ⟨(s.behind ch div).1, (s.behind ch div).2, s'⟩) hcov.div_pos
    htotal h.few
  have hch : (s.behind ch div).1 = d.outCh := by
    rw [SizedStage.behind, hd]
  calc d.outCh * round8 (s.next items w.li w.lens).2.sum
      = (s.behind ch div).1 * round8 (s.next items w.li w.lens).2.sum := by rw [hch]
    _ ≤ (s.behind ch div).1 * _ := Nat.mul_le_mul_left _ hld
    _ ≤ l.actElems := hcov.act

end Stage

lemma behind_ch (s : SizedStage α) (ch div : ℕ) : (s.behind ch div).1 = (s.behind ch 1).1 := by
  rw [SizedStage.behind, SizedStage.behind]
  cases s.down <;> rfl

/-- The stages overflow where there is no room for the batch. -/
lemma stagesUses_ends {Ls rest : List (Layer α)} {ss : List (SizedStage α)} {ch div : ℕ} {w : Walk}
    (h : Entering l maxItems maxSamples Ls
      ((ss.map SizedStage.stage).flatMap Stage.layers ++ rest) items ch div w)
    (hcov : ∀ r ∈ stageRows ch div ss, Covers l maxItems maxSamples full r) :
    Ends l (Roomy full l.actElems items ch w.li w.lens ss) (StagesTaken items ch w.li w.lens ss)
      (fun w' => ∃ div', Entering l maxItems maxSamples Ls rest items (headCh ch ss) div' w')
      (stagesUses l items ch ss w) := by
  induction ss generalizing ch div w with
  | nil => exact .of_ok nofun ⟨div, h⟩
  | cons s ss ih =>
    rw [List.map_cons, List.flatMap_cons, List.append_assoc] at h
    have hstage := stageUses_ends h (hcov _ List.mem_cons_self)
    have hcov' := fun r hr => hcov r (List.mem_cons_of_mem _ hr)
    have hout : (ss = [] → ∀ d ∈ s.down,
        d.outCh * round8 (s.next items w.li w.lens).2.sum ≤ l.actElems) ↔
        ∀ d ∈ s.down, d.outCh * round8 (s.next items w.li w.lens).2.sum ≤ l.actElems := by
      refine ⟨fun hlast => ?_, fun hall _ => hall⟩
      cases ss with
      | nil => exact hlast rfl
      | cons s' ss' => exact h.down_room (hcov' _ List.mem_cons_self)
    rw [← hout] at hstage
    rw [behind_ch] at hcov' hstage
    refine hstage.andThen ?_
    rintro w' ⟨hnext, hentering⟩
    rw [← hnext]
    exact ih hentering hcov'

end Stages

/-! ### The sizes of an arena -/

section Arena

variable {α : Type} {d : Sized α} {maxItems maxSamples : ℕ}

lemma stageRows_pos {ss : List (SizedStage α)} {ch div : ℕ} (hch : 0 < ch) (hdiv : 0 < div) :
    ∀ r ∈ stageRows ch div ss, 0 < r.ch ∧ 0 < r.div ∧ r.stage ∈ ss := by
  induction ss generalizing ch div with
  | nil => exact nofun
  | cons s ss ih =>
    intro r hr
    have hpos : 0 < (s.behind ch div).1 ∧ 0 < (s.behind ch div).2 := by
      rw [SizedStage.behind]
      cases s.down with
      | none => exact ⟨hch, hdiv⟩
      | some dn => exact ⟨dn.outCh_pos, Nat.mul_pos hdiv dn.layer.stride_pos⟩
    rcases List.mem_cons.mp hr with rfl | hmem
    · exact ⟨hch, hdiv, List.mem_cons_self⟩
    · obtain ⟨hr1, hr2, hr3⟩ := ih hpos.1 hpos.2 r hmem
      exact ⟨hr1, hr2, List.mem_cons_of_mem _ hr3⟩

lemma eight_le_ld (r : StageRow α) (hitems : 0 < maxItems) : 8 ≤ r.ld maxItems maxSamples := by
  calc 8 ≤ 8 * maxItems := Nat.le_mul_of_pos_right 8 hitems
    _ ≤ maxSamples / r.div + 8 * maxItems := Nat.le_add_left _ _
    _ ≤ r.ld maxItems maxSamples := le_round8 _

lemma headCh_pos {ss : List (SizedStage α)} {ch : ℕ} (hch : 0 < ch) : 0 < headCh ch ss := by
  induction ss generalizing ch with
  | nil => exact hch
  | cons s ss ih =>
    refine ih ?_
    rw [SizedStage.behind]
    cases s.down with
    | none => exact hch
    | some dn => exact dn.outCh_pos

lemma mem_downSizes {rows : List (StageRow α)} {last : ℕ} (hlast : 8 ≤ last)
    (hitems : 0 < maxItems) {r : StageRow α} (hr : r ∈ rows) {dn : Down α}
    (hdn : dn ∈ r.stage.down) :
    ∃ n, 8 ≤ n ∧ (r.ch * dn.layer.k, n) ∈ downSizes maxItems maxSamples last rows := by
  induction rows with
  | nil => exact nomatch hr
  | cons r' rows ih =>
    rw [downSizes]
    rcases List.mem_cons.mp hr with rfl | hmem
    · refine ⟨_, ?_, List.mem_append_left _
        (List.mem_map_of_mem (Option.mem_toList.mpr hdn))⟩
      cases rows with
      | nil => exact hlast
      | cons r'' rows => exact eight_le_ld r'' hitems
    · obtain ⟨n, hn, hsize⟩ := ih hmem
      exact ⟨n, hn, List.mem_append_right _ hsize⟩

lemma eight_le_last (d : Sized α) (hitems : 0 < maxItems) :
    8 ≤ ((stageRows d.ch 1 d.stages).getLast?.map fun r => r.ld maxItems maxSamples).getD 0 := by
  have hne : stageRows d.ch 1 d.stages ≠ [] := by
    cases hss : d.stages with
    | nil => exact absurd hss d.stages_ne
    | cons s ss => exact List.cons_ne_nil _ _
  rw [List.getLast?_eq_some_getLast hne]
  exact eight_le_ld _ hitems

/-- The im2col columns of a convolution fit eight at a time. -/
lemma conv_room {c : ℕ × ℕ} (hc : c ∈ d.convSizes maxItems maxSamples) (h : 8 ≤ c.2) :
    8 * c.1 ≤ (layoutOf id d maxItems maxSamples).hidElems := by
  have hwide : c.1 * 128 ≤ largest ((d.convSizes maxItems maxSamples).map fun c => c.1 * 128) :=
    le_largest (List.mem_map_of_mem hc)
  have hfull : c.1 * c.2 ≤ largest ((d.convSizes maxItems maxSamples).map fun c => c.1 * c.2) :=
    le_largest (List.mem_map_of_mem hc)
  refine le_min ((Nat.le_trans ?_ hwide).trans (le_max_right _ _))
    ((Nat.le_trans ?_ hfull).trans (le_max_right _ _))
  · omega
  · rw [Nat.mul_comm]
    exact Nat.mul_le_mul_left _ h

/-- A 128-column tile fits the hidden buffer where it fits all it would ever have to take. -/
lemma ffn_room {r : StageRow α} (hr : r ∈ stageRows d.ch 1 d.stages) {b : Block α}
    (hb : b ∈ r.stage.blocks) : 128 * b.hidden ≤ d.hidFull id maxItems maxSamples ↔
      128 * b.hidden ≤ (layoutOf id d maxItems maxSamples).hidElems := by
  have hwidest : b.hidden ≤ largest ((stageRows d.ch 1 d.stages).map fun r => r.stage.hidden) :=
    (le_largest (List.mem_map_of_mem hb) : b.hidden ≤ r.stage.hidden).trans
      (le_largest (List.mem_map_of_mem hr))
  constructor
  · intro hfull
    refine le_min (Nat.le_trans ?_ ((le_max_right _ _).trans (le_max_left _ _))) hfull
    rw [Nat.mul_comm]
    exact Nat.mul_le_mul_right 128 hwidest
  · exact fun h => h.trans (min_le_right _ _)

/-- What the layout of an arena has for the stages of its plan. -/
lemma layoutOf_covers (d : Sized α) (hitems : 0 < maxItems) :
    ∀ r ∈ stageRows d.ch 1 d.stages, Covers (layoutOf id d maxItems maxSamples) maxItems maxSamples
      (d.hidFull id maxItems maxSamples) r := by
  intro r hr
  obtain ⟨hch, hdiv, hmem⟩ := stageRows_pos d.ch_pos Nat.one_pos r hr
  refine ⟨hch, hdiv, le_largest (List.mem_map_of_mem hr), fun b hb => ?_, fun dn hdn => ?_,
    fun b hb => ffn_room hr hb⟩
  · have hfirst : r.ld maxItems maxSamples ≤
        ((stageRows d.ch 1 d.stages).head?.map fun r => r.ld maxItems maxSamples).getD 0 := by
      cases hss : d.stages with
      | nil => exact absurd hss d.stages_ne
      | cons s ss =>
        refine round8_mono (Nat.add_le_add_right ?_ _)
        exact (Nat.div_le_self _ _).trans_eq (Nat.div_one _).symm
    have hcap : b.mixer.k - 1 ≤ d.maxCap := by
      refine le_largest (List.mem_map.mpr ⟨b.mixer, ?_, rfl⟩)
      refine List.mem_cons_of_mem _ (List.mem_append_left _ (List.mem_flatMap.mpr
        ⟨r.stage.stage, List.mem_map_of_mem hmem, List.mem_append_left _ ?_⟩))
      exact List.mem_map_of_mem hb
    exact Nat.add_le_add hfirst (Nat.mul_le_mul_left _ (hcap.trans (Nat.le_succ _)))
  · obtain ⟨n, hn, hsize⟩ := mem_downSizes (eight_le_last d hitems) hitems hr hdn
    exact conv_room (List.mem_append_left _ hsize) hn

/-- The stem's columns fit the activations. -/
lemma stem_room (d : Sized α) {T : ℕ}
    (hT : round8 T ≤ round8 (maxSamples + 8 * maxItems)) :
    d.ch * round8 T ≤ (layoutOf id d maxItems maxSamples).actElems := by
  cases hss : d.stages with
  | nil => exact absurd hss d.stages_ne
  | cons s ss =>
    have hact : d.ch * (⟨d.ch, 1, s⟩ : StageRow α).ld maxItems maxSamples ≤
        (layoutOf id d maxItems maxSamples).actElems := by
      refine le_largest (List.mem_map.mpr ⟨⟨d.ch, 1, s⟩, ?_, rfl⟩)
      rw [hss]
      exact List.mem_cons_self
    rw [StageRow.ld, Nat.div_one] at hact
    exact (Nat.mul_le_mul_left _ hT).trans hact

/-- A batch an arena takes: its items are in reachable states, and it stays within the bounds of the
entry checks. -/
structure Taken (ζ : α) (d : Sized α) (A : Arena) (items : List (Item α)) : Prop where
  reached : ∀ it ∈ items, ∀ st, it.state = some st → Reached ζ d.plan.layers st
  few : items.length ≤ A.maxItems
  total : (items.map fun it => it.audio.length).sum ≤ A.maxSamples

lemma arenaCreate_lay {A : Arena} (hA : arenaCreate d maxItems maxSamples = .ok A) :
    0 < A.maxItems ∧ A.lay = arenaLayout d A.maxItems A.maxSamples := by
  rw [arenaCreate] at hA
  split at hA
  · exact nomatch hA
  · obtain rfl := Except.ok.inj hA
    refine ⟨?_, rfl⟩
    dsimp only
    split
    · exact Nat.zero_lt_succ _
    · omega

/-- What the stem leaves. -/
def stemWalk (d : Sized α) (items : List (Item α)) : Walk :=
  ⟨1, false, d.stemLens items, round8 (d.stemLens items).sum⟩

/-- The columns of the stem fit the activations. -/
lemma Taken.entering {ζ : α} {A : Arena} {items : List (Item α)} (h : Taken ζ d A items)
    (hlay : A.lay = layoutOf id d A.maxItems A.maxSamples) :
    Entering A.lay A.maxItems A.maxSamples d.plan.layers
      ((d.stages.map SizedStage.stage).flatMap Stage.layers ++ [d.head]) items d.ch 1
      (stemWalk d items) := by
  have hvalid : ∀ it ∈ items, it.Valid d.plan.layers := by
    intro it hit st hst
    exact Reached.valid (h.reached it hit st hst)
  have hin : (items.map fun it => it.audio.length).length = items.length := List.length_map _
  have hlens : (d.stemLens items).length = items.length := by
    rw [Sized.stemLens, List.length_map, length_makeDesc hin]
  have hlayers : From d.plan.layers 0 (d.stem ::
      ((d.stages.map SizedStage.stage).flatMap Stage.layers ++ [d.head])) := by
    intro j L hL
    rw [Nat.zero_add]
    exact hL
  have hstart : Reach (items.map fun it => it.audio.length).sum items.length 1
      (items.map fun it => it.audio.length).sum := by
    rw [Reach]
    omega
  have hstride : d.stem.stride = 1 := d.stem.stride_eq (by rw [d.stem_kind]; exact nofun)
  have hreach := hstart.next (sum_outLen_le hlayers.head hvalid hin 0 0)
  rw [hstride] at hreach
  have hbound := hreach.le_ld (r := (⟨d.ch, 1, ⟨[], none⟩⟩ : StageRow α)) Nat.one_pos h.total h.few
  rw [StageRow.ld, Nat.div_one] at hbound
  have hroom : d.ch * round8 (d.stemLens items).sum ≤ A.lay.actElems := by
    rw [hlay]
    exact stem_room d hbound
  exact ⟨⟨hlens, rfl, hroom⟩, hlayers.tail, hvalid, h.few, _, h.total, hreach⟩

/-- In an arena whose sizes fit a `size_t`, the encode of a batch within its bounds does not
overflow, and stays inside of buffers that do not overlap, exactly where a 128-column tile of each
FFN it reaches fits the whole hidden buffer and what comes out of a last downsample fits the
activations. -/
theorem encodeUses_ok_iff (ζ : α) (d : Sized α) {A : Arena}
    (hA : arenaCreate d maxItems maxSamples = .ok A) (hfit : d.Fits A.maxItems A.maxSamples)
    {items : List (Item α)} (h : Taken ζ d A items) :
    ((encodeUses A.lay items d).ends ≠ .error .overflow ∧
      (∀ us ∈ (encodeUses A.lay items d).uses, Fitting A.lay us) ∧ A.lay.Sound) ↔
      Roomy (d.hidFull id A.maxItems A.maxSamples) A.lay.actElems items d.ch 1 (d.stemLens items)
        d.stages := by
  obtain ⟨hitems, hlay⟩ := arenaCreate_lay hA
  rw [hfit.layout] at hlay
  have hsound : A.lay.Sound := hlay ▸ stack_sound _ _ _
  have hentering := h.entering hlay
  have hcov : ∀ r ∈ stageRows d.ch 1 d.stages, Covers A.lay A.maxItems A.maxSamples
      (d.hidFull id A.maxItems A.maxSamples) r := hlay ▸ layoutOf_covers d hitems
  have hkc : 8 * (headCh d.ch d.stages * d.head.k) ≤ A.lay.hidElems := by
    rw [hlay]
    exact conv_room (List.mem_append_right _ (List.mem_singleton.mpr rfl))
      (eight_le_last d hitems)
  have hstem : Ends A.lay True True (· = stemWalk d items) ⟨if (d.stemLens items).sum = 0 then []
      else [[⟨.act false, d.ch, round8 (d.stemLens items).sum, outCols (makeDesc d.stem 0 0 0 items
        (items.map fun it => it.audio.length))⟩]], .ok (stemWalk d items)⟩ := by
    refine .of_ok (fun us hus => ?_) rfl
    split at hus
    · exact nomatch hus
    · rw [List.mem_singleton.mp hus]
      exact fitting_nil.cons
        (inside_packed (consecutive_out ..) (le_round8 _) hentering.placed.room) nofun
  obtain ⟨L, hrun⟩ := (hstem.before _ (stagesUses_ends hentering hcov)).andThen_of
    (headUses A.lay items (headCh d.ch d.stages) d.head)
    fun w hw => gemmUses_ends (P := fun _ => True) hw.choose_spec.placed (headCh_pos d.ch_pos)
      d.head trivial hkc (fun _ _ => fitting_nil) fun _ _ hu => nomatch hu
  have hends : Ends A.lay (Roomy (d.hidFull id A.maxItems A.maxSamples) A.lay.actElems items d.ch 1
      (d.stemLens items) d.stages) L (fun _ => True) (encodeUses A.lay items d) := by
    rw [encodeUses]
    split
    · next hlt => exact absurd hlt (not_lt.mpr hentering.placed.room)
    · exact hrun.congr (by simp [stemWalk]) fun _ => Iff.rfl
  exact ⟨fun hall => hends.ne_overflow_iff.mp hall.1, fun hroomy =>
    ⟨hends.ne_overflow_iff.mpr hroomy, hends.fits, hsound⟩⟩

end Arena

/-- A plan of one block, whose layers look at one column. -/
def oneBlock : Sized ℕ where
  stem := .adding .stem 0
  stem_kind := Eq.refl Kind.stem
  ch := 1
  ch_pos := Nat.one_pos
  stages := [{
    blocks := [{
      mixer := .adding .mixer 0
      mixer_kind := Eq.refl Kind.mixer
      hidden := 1
      hidden_pos := Nat.one_pos }]
    down := none }]
  stages_ne := List.cons_ne_nil _ _
  head := .adding .head 0
  head_kind := Eq.refl Kind.head

/-- A stateless window. -/
def clip (audio : List ℕ) : Item ℕ := ⟨audio, none, true, 0⟩

lemma taken_clip {A : Arena} {audio : List ℕ} (hfew : 1 ≤ A.maxItems)
    (htotal : audio.length ≤ A.maxSamples) : Taken 0 oneBlock A [clip audio] := by
  refine ⟨fun it hit st hst => ?_, hfew, htotal⟩
  rw [List.mem_singleton.mp hit] at hst
  exact nomatch hst

/-- With room for 128 columns, a window of three samples goes through. -/
theorem encodeUses_wide_arena :
    (encodeUses (arenaLayout oneBlock 1 128) [clip [1, 2, 3]] oneBlock).ends ≠ .error .overflow ∧
      (∀ us ∈ (encodeUses (arenaLayout oneBlock 1 128) [clip [1, 2, 3]] oneBlock).uses,
        Fitting (arenaLayout oneBlock 1 128) us) ∧ (arenaLayout oneBlock 1 128).Sound := by
  have hA : arenaCreate oneBlock 1 128 = .ok ⟨1, 128, arenaLayout oneBlock 1 128⟩ := rfl
  have htotal : [1, 2, 3].length ≤ 128 := Nat.le_add_left 3 125
  have hfit : oneBlock.Fits 1 128 := ⟨by decide, by decide, by decide⟩
  refine (encodeUses_ok_iff 0 oneBlock hA hfit (taken_clip le_rfl htotal)).mpr ?_
  refine ⟨⟨fun _ _ => ⟨?_, trivial⟩, fun _ _ => nofun⟩, fun _ => trivial⟩
  decide

/-- An arena made for one sample does not take it: no 128-column tile fits its hidden buffer. -/
theorem narrow_arena_overflows : arenaCreate oneBlock 1 1 = .ok ⟨1, 1, arenaLayout oneBlock 1 1⟩ ∧
    Taken 0 oneBlock ⟨1, 1, arenaLayout oneBlock 1 1⟩ [clip [1]] ∧
    (encodeUses (arenaLayout oneBlock 1 1) [clip [1]] oneBlock).ends = .error .overflow :=
  ⟨rfl, taken_clip le_rfl le_rfl, rfl⟩

/-- An arena made for `2 ^ 62` samples has buffers outside of it: its sizes wrap. -/
theorem wrapped_arena_unsound :
    arenaCreate oneBlock 1 (2 ^ 62) = .ok ⟨1, 2 ^ 62, arenaLayout oneBlock 1 (2 ^ 62)⟩ ∧
      ¬ (arenaLayout oneBlock 1 (2 ^ 62)).Sound := by
  refine ⟨rfl, fun h => absurd (h.1 (.act true)) ?_⟩
  decide

end VibeVoice.Encoder
