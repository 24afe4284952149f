import VibeVoice.Encoder.Conv
import VibeVoice.Lib.Loop
import VibeVoice.Status

/-!
The encoder on the host (`vae_cpu.c`): the layers over tiles of the signal, with a buffer of rows
in front of every stage and of the head.

A row is an element of `α`. A read outside of a buffer, or a context that does not fit the room of
its layer, is a fault.

* `runLayer`: a layer over the rows of its buffer, by the kind of the layer.
* `runStage`: a stage, which waits for `CPU_MIN_ROWS` rows.
* `encodeCpu`: `vv_conv_vae_encode_cpu`.
* `computes_cpu`: whatever the tiles, every layer gives out what it makes of the whole signal.
-/

namespace VibeVoice.Encoder

open Streaming (Out)

/-! ### Contexts -/

/-- `cpu_ctx_t`: the room of a layer's context, and how many of its rows count. -/
structure CpuCtx (α : Type) where
  tail : List α
  haveCols : ℕ

section Model

variable {α : Type} (ζ : α)

/-- The context of a fresh stream: `cap` rows of zeros. -/
def CpuCtx.fresh (L : Layer α) : CpuCtx α := ⟨List.replicate (L.k - 1) ζ, L.freshHave⟩

variable {ζ} in
/-- `concat_ctx`. -/
def concatCtx (ctx : CpuCtx α) (x : List α) : Option (List α) :=
  if ctx.haveCols ≤ ctx.tail.length then some (ctx.tail.take ctx.haveCols ++ x) else none

variable {ζ} in
/-- `save_ctx`: the last `keep` of the first `total` rows. -/
def saveCtx (ctx : CpuCtx α) (cat : List α) (total keep : ℕ) : Option (CpuCtx α) :=
  if keep ≤ total ∧ keep ≤ ctx.tail.length then
    some ⟨(cat.drop (total - keep)).take keep ++ ctx.tail.drop keep, keep⟩
  else none

/-! ### Layers -/

/-- The stem, directly; a tap behind the rows there are is left out. -/
def stemCpu (L : Layer α) (ctx : CpuCtx α) (x : List α) (fin : Bool) :
    Option (List α × CpuCtx α) := do
  let (ol, keep) := layerStep L.k L.stride ctx.haveCols x.length fin
  let cat ← concatCtx ctx x
  let out ← (List.range ol).mapM fun t =>
    ((List.range L.k).mapM fun kk =>
      if t + kk < cat.length then cat[t + kk]? else some ζ).map L.op
  let ctx' ← saveCtx ctx cat cat.length (if fin then 0 else keep)
  pure (out, ctx')

/-- `conv_gemm`: the windows are copied out of the rows, zeros behind them up to the last one. -/
def convGemm (L : Layer α) (ctx : CpuCtx α) (x : List α) (fin : Bool) :
    Option (List α × CpuCtx α) := do
  let (ol, keep) := layerStep L.k L.stride ctx.haveCols x.length fin
  let padRows := if 0 < ol then (ol - 1) * L.stride + L.k else 0
  let rows := if padRows < ctx.haveCols + x.length then ctx.haveCols + x.length else padRows
  let cat ← concatCtx ctx x
  let total := cat.length
  let padded := cat ++ List.replicate (rows - total) ζ
  let out ← (List.range ol).mapM fun j =>
    ((List.range L.k).mapM fun kk => padded[j * L.stride + kk]?).map L.op
  let ctx' ← saveCtx ctx padded total (if fin then 0 else keep)
  pure (out, ctx')

/-- `block_cpu`: the mixer, whose taps in front of the first row are left out, and the FFN. -/
def blockCpu (L : Layer α) (ctx : CpuCtx α) (x : List α) (fin : Bool) :
    Option (List α × CpuCtx α) := do
  let keep := (layerStep L.k L.stride ctx.haveCols x.length fin).2
  let cat ← concatCtx ctx x
  let base : ℤ := cat.length - x.length - (L.k - 1)
  let out ← (List.range x.length).mapM fun (t : ℕ) =>
    ((List.range L.k).mapM fun (kk : ℕ) =>
      if 0 ≤ base + t + kk then cat[(base + t + kk).toNat]? else some ζ).map
        fun w => L.point (L.op w)
  let ctx' ← saveCtx ctx cat cat.length (if fin then 0 else keep)
  pure (out, ctx')

/-- A layer of the plan over the rows of its buffer. -/
def runLayer (L : Layer α) (ctx : CpuCtx α) (x : List α) (fin : Bool) :
    Option (List α × CpuCtx α) :=
  match L.kind with
  | .stem => stemCpu ζ L ctx x fin
  | .mixer => blockCpu ζ L ctx x fin
  | .down | .head => convGemm ζ L ctx x fin

/-- Layers one behind the other: what each gives out, and the contexts they are left with. -/
def runLayers : List (Layer α) → List (CpuCtx α) → List α → Bool →
    Option (List (List α) × List (CpuCtx α))
  | L :: Ls, ctx :: ctxs, x, fin => do
      let r ← runLayer ζ L ctx x fin
      let rest ← runLayers Ls ctxs r.1 fin
      pure (r.1 :: rest.1, r.2 :: rest.2)
  | _, _, _, _ => some ([], [])

/-! ### Stages -/

/-- `CPU_MIN_ROWS`. -/
def cpuMinRows : ℕ := 256

/-- `CPU_TILE_SAMPLES`. -/
def cpuTileSamples : ℕ := 48000

/-- Layers behind a buffer, and their contexts. -/
structure StageRun (α : Type) where
  fifo : List α
  ctxs : List (CpuCtx α)

/-- `run_stage`, for new rows in its buffer; the head waits in the same way. -/
def runStage (Ls : List (Layer α)) (r : StageRun α) (fin : Bool) (rows : List α) :
    Option (Out α × StageRun α) :=
  let x := r.fifo ++ rows
  if fin = false ∧ x.length < cpuMinRows then some (.none α Ls.length, ⟨x, r.ctxs⟩)
  else do
    let y ← runLayers ζ Ls r.ctxs x fin
    pure (⟨y.1, outputOf x y.1⟩, ⟨[], y.2⟩)

/-- The stages, each feeding the next one. -/
def runStages : List (List (Layer α)) → List (StageRun α) → Bool → List α →
    Option (Out α × List (StageRun α))
  | S :: Ss, r :: rs, fin, rows => do
      let y ← runStage ζ S r fin rows
      let rest ← runStages Ss rs fin y.1.out
      pure (y.1.andThen rest.1, y.2 :: rest.2)
  | _, _, _, rows => some (⟨[], rows⟩, [])

/-- What waits behind the stem: the stages, and the head on its own. -/
def Plan.stops (P : Plan α) : List (List (Layer α)) := P.stages.map Stage.layers ++ [[P.head]]

/-- `cpu_run_t`. -/
structure CpuRun (α : Type) where
  stem : CpuCtx α
  stops : List (StageRun α)

/-- A run before its first tile. -/
def CpuRun.start (P : Plan α) : CpuRun α :=
  ⟨.fresh ζ P.stem, P.stops.map fun Ls => ⟨[], Ls.map (CpuCtx.fresh ζ)⟩⟩

/-- A tile of the signal. -/
def runTile (P : Plan α) : Streaming.Step α (CpuRun α) := fun r fin tile => do
  let y ← runLayer ζ P.stem r.stem tile fin
  let rest ← runStages ζ P.stops r.stops fin y.1
  pure (⟨y.1 :: rest.1.layers, rest.1.out⟩, ⟨y.2, rest.2⟩)

/-- The tiles of a signal, the last one of them marked. -/
def tiles (audio : List α) : List (List α) × List α :=
  if audio.length ≤ cpuTileSamples then ([], audio)
  else
    let r := tiles (audio.drop cpuTileSamples)
    (audio.take cpuTileSamples :: r.1, r.2)
termination_by audio.length
decreasing_by
  rw [List.length_drop]
  have hpos : 0 < cpuTileSamples := Nat.zero_lt_succ _
  omega

/-- `vv_conv_vae_encode_cpu`: the columns of every layer, and the frames. -/
def encodeCpu (P : Plan α) (audio : List α) : Checked (Out α) := do
  if audio.length = 0 then throw .invalidArg
  let cut := tiles audio
  let r ← ExceptT.lift (Streaming.run (runTile ζ P) (.start ζ P) cut.1 cut.2)
  pure r.1

end Model

/-! ### A layer on the host -/

section Layers

variable {α : Type} {ζ : α} {L : Layer α} {c : CpuCtx α} {ctx x : List α}

/-- A context of the host in the room of its layer. -/
def CpuCtx.Holds (L : Layer α) (c : CpuCtx α) (ctx : List α) : Prop :=
  c.tail.length = L.k - 1 ∧ c.haveCols ≤ L.k - 1 ∧ ctx = c.tail.take c.haveCols

lemma holds_fresh : (CpuCtx.fresh ζ L).Holds L (L.pad ζ) := by
  have hs := L.stride_pos
  have hle : L.freshHave ≤ L.k - 1 := by
    rw [Layer.freshHave]
    omega
  refine ⟨List.length_replicate, hle, ?_⟩
  rw [CpuCtx.fresh, List.take_replicate, min_eq_left hle]
  rfl

lemma CpuCtx.Holds.length (h : c.Holds L ctx) : ctx.length = c.haveCols := by
  rw [h.2.2, List.length_take, h.1, min_eq_left h.2.1]

lemma CpuCtx.Holds.concat (h : c.Holds L ctx) (x : List α) : concatCtx c x = some (ctx ++ x) := by
  rw [concatCtx, if_pos (h.1.symm ▸ h.2.1), h.2.2]

/-- The rows to keep always fit the room of the layer. -/
lemma CpuCtx.Holds.save (h : c.Holds L ctx) (hfits : L.Fits ctx) (fin : Bool) (x z : List α) :
    ∃ c', saveCtx c (ctx ++ x ++ z) (ctx ++ x).length
        (if fin then 0 else (layerStep L.k L.stride ctx.length x.length fin).2) = some c' ∧
      c'.Holds L (L.chunk ζ ctx fin x).2 := by
  obtain ⟨keep, hkeep⟩ : ∃ keep, keep =
      if fin then 0 else (layerStep L.k L.stride ctx.length x.length fin).2 := ⟨_, rfl⟩
  have hbound : keep ≤ (ctx ++ x).length ∧ keep ≤ L.k - 1 ∧
      (L.chunk ζ ctx fin x).2 = (ctx ++ x).drop ((ctx ++ x).length - keep) := by
    cases fin with
    | true => exact ⟨hkeep.trans_le (Nat.zero_le _), hkeep.trans_le (Nat.zero_le _), hkeep ▸ rfl⟩
    | false =>
      obtain ⟨hlen, -, hhigh⟩ := L.chunk_bounds ζ hfits.1 x
      have hstep : keep = (layerStep L.k L.stride ctx.length x.length false).2 := hkeep
      refine ⟨?_, hstep.trans_le (hlen.symm.trans_le hhigh), hstep ▸ rfl⟩
      rw [hstep, List.length_append]
      exact Nat.sub_le _ _
  obtain ⟨hle, hroom, hchunk⟩ := hbound
  rw [← hkeep, hchunk]
  have hrest : ((ctx ++ x).drop ((ctx ++ x).length - keep)).length = keep := by
    rw [List.length_drop]
    omega
  have hcut : ((ctx ++ x ++ z).drop ((ctx ++ x).length - keep)).take keep =
      (ctx ++ x).drop ((ctx ++ x).length - keep) := by
    rw [List.drop_append_of_le_length (Nat.sub_le _ _)]
    exact List.take_left' hrest
  refine ⟨_, if_pos ⟨hle, h.1.symm ▸ hroom⟩, ?_, hroom, ?_⟩
  · rw [List.length_append, hcut, hrest, List.length_drop, h.1]
    omega
  · rw [hcut]
    exact (List.take_left' hrest).symm

lemma Layer.op_eq (hkind : L.kind ≠ .mixer) : (fun w => L.point (L.op w)) = L.op := by
  rw [L.point_eq hkind]
  rfl

lemma chunk_fst (L : Layer α) (ctx x : List α) (fin : Bool) :
    (L.chunk ζ ctx fin x).1 =
      L.columns ζ (ctx ++ x) (layerStep L.k L.stride ctx.length x.length fin).1 := rfl

lemma stemCpu_eq (h : c.Holds L ctx) (hfits : L.Fits ctx) (hkind : L.kind = .stem) (fin : Bool)
    (x : List α) :
    ∃ c', stemCpu ζ L c x fin = some ((L.chunk ζ ctx fin x).1, c') ∧
      c'.Holds L (L.chunk ζ ctx fin x).2 := by
  have hstride : L.stride = 1 := L.stride_eq fun hd => nomatch hkind.symm.trans hd
  have hop := L.op_eq fun hm => nomatch hkind.symm.trans hm
  obtain ⟨c', hsave, hc'⟩ := h.save (ζ := ζ) hfits fin x []
  rw [List.append_nil] at hsave
  refine ⟨c', ?_, hc'⟩
  have hcols : ((List.range (layerStep L.k L.stride ctx.length x.length fin).1).mapM fun t =>
      ((List.range L.k).mapM fun kk =>
        if t + kk < (ctx ++ x).length then (ctx ++ x)[t + kk]? else some ζ).map L.op) =
      some (L.chunk ζ ctx fin x).1 := by
    rw [chunk_fst, ← hop]
    refine mapM_columns fun t _ kk _ => ?_
    rw [hstride, Nat.mul_one]
    by_cases hin : t + kk < (ctx ++ x).length
    · rw [if_pos hin, List.getElem?_eq_getElem hin, Option.getD_some]
    · rw [if_neg hin, List.getElem?_eq_none (not_lt.mp hin), Option.getD_none]
  rw [stemCpu, ← h.length, h.concat x]
  show (do
    let out ← (List.range (layerStep L.k L.stride ctx.length x.length fin).1).mapM _
    let ctx' ← saveCtx c (ctx ++ x) (ctx ++ x).length
      (if fin then 0 else (layerStep L.k L.stride ctx.length x.length fin).2)
    pure (out, ctx')) = _
  rw [hcols, hsave]
  rfl

lemma blockCpu_eq (h : c.Holds L ctx) (hfits : L.Fits ctx) (hkind : L.kind = .mixer) (fin : Bool)
    (x : List α) :
    ∃ c', blockCpu ζ L c x fin = some ((L.chunk ζ ctx fin x).1, c') ∧
      c'.Holds L (L.chunk ζ ctx fin x).2 := by
  have hstride : L.stride = 1 := L.stride_eq fun hd => nomatch hkind.symm.trans hd
  have hk := L.stride_pos.trans_le L.stride_le
  have hctx : ctx.length = L.k - 1 := by
    rw [Layer.Fits, hstride] at hfits
    omega
  obtain ⟨c', hsave, hc'⟩ := h.save (ζ := ζ) hfits fin x []
  rw [List.append_nil] at hsave
  refine ⟨c', ?_, hc'⟩
  have hbase : ((ctx ++ x).length : ℤ) - x.length - ((L.k : ℤ) - 1) = 0 := by
    rw [List.length_append, hctx]
    omega
  have hcols : ((List.range x.length).mapM fun (t : ℕ) =>
      ((List.range L.k).mapM fun (kk : ℕ) =>
        if (0 : ℤ) ≤ 0 + t + kk then (ctx ++ x)[((0 : ℤ) + t + kk).toNat]? else some ζ).map
          fun w => L.point (L.op w)) = some (L.chunk ζ ctx fin x).1 := by
    rw [chunk_fst, hstride, layerStep_stride_one hk hctx]
    refine mapM_columns fun t ht kk hkk => ?_
    have hnat : ((0 : ℤ) + t + kk).toNat = t + kk := by omega
    have hin : t + kk < (ctx ++ x).length := by
      rw [List.length_append, hctx]
      omega
    rw [if_pos (by omega), hnat, hstride, Nat.mul_one, List.getElem?_eq_getElem hin,
      Option.getD_some]
  rw [blockCpu, ← h.length, h.concat x]
  show (do
    let out ← (List.range x.length).mapM fun (t : ℕ) =>
      ((List.range L.k).mapM fun (kk : ℕ) =>
        if 0 ≤ ((ctx ++ x).length : ℤ) - x.length - ((L.k : ℤ) - 1) + t + kk then
          (ctx ++ x)[(((ctx ++ x).length : ℤ) - x.length - ((L.k : ℤ) - 1) + t + kk).toNat]?
        else some ζ).map fun w => L.point (L.op w)
    let ctx' ← saveCtx c (ctx ++ x) (ctx ++ x).length
      (if fin then 0 else (layerStep L.k L.stride ctx.length x.length fin).2)
    pure (out, ctx')) = _
  rw [hbase, hcols, hsave]
  rfl

lemma convGemm_eq (h : c.Holds L ctx) (hfits : L.Fits ctx) (hkind : L.kind ≠ .mixer) (fin : Bool)
    (x : List α) :
    ∃ c', convGemm ζ L c x fin = some ((L.chunk ζ ctx fin x).1, c') ∧
      c'.Holds L (L.chunk ζ ctx fin x).2 := by
  have hop := L.op_eq hkind
  obtain ⟨r, hr⟩ : ∃ r, r = layerStep L.k L.stride ctx.length x.length fin := ⟨_, rfl⟩
  obtain ⟨padRows, hpad⟩ : ∃ padRows, padRows =
      if 0 < r.1 then (r.1 - 1) * L.stride + L.k else 0 := ⟨_, rfl⟩
  obtain ⟨rows, hrows⟩ : ∃ rows, rows =
      if padRows < ctx.length + x.length then ctx.length + x.length else padRows := ⟨_, rfl⟩
  obtain ⟨z, hz⟩ : ∃ z, z = List.replicate (rows - (ctx ++ x).length) ζ := ⟨_, rfl⟩
  obtain ⟨c', hsave, hc'⟩ := h.save (ζ := ζ) hfits fin x z
  rw [← hr] at hsave
  refine ⟨c', ?_, hc'⟩
  have hcols : ((List.range r.1).mapM fun j =>
      ((List.range L.k).mapM fun kk => (ctx ++ x ++ z)[j * L.stride + kk]?).map L.op) =
      some (L.chunk ζ ctx fin x).1 := by
    rw [chunk_fst, ← hr, ← hop]
    refine mapM_columns fun t ht kk hkk => ?_
    have hlast : t * L.stride ≤ (r.1 - 1) * L.stride := Nat.mul_le_mul_right _ (by omega)
    have hpadded : t * L.stride + kk < rows := by
      rw [if_pos (Nat.zero_lt_of_lt ht)] at hpad
      rw [hrows]
      split <;> omega
    by_cases hin : t * L.stride + kk < (ctx ++ x).length
    · rw [List.getElem?_append_left hin, List.getElem?_eq_getElem hin, Option.getD_some]
    · have hzero : t * L.stride + kk - (ctx ++ x).length < rows - (ctx ++ x).length := by omega
      rw [List.getElem?_append_right (not_lt.mp hin), hz, List.getElem?_replicate_of_lt hzero,
        List.getElem?_eq_none (not_lt.mp hin), Option.getD_none]
  rw [convGemm, ← h.length, h.concat x, ← hr]
  show (do
    let out ← (List.range r.1).mapM fun j => ((List.range L.k).mapM fun kk =>
      (ctx ++ x ++ List.replicate ((if (if 0 < r.1 then (r.1 - 1) * L.stride + L.k else 0) <
          ctx.length + x.length then ctx.length + x.length
        else (if 0 < r.1 then (r.1 - 1) * L.stride + L.k else 0)) - (ctx ++ x).length)
          ζ)[j * L.stride + kk]?).map L.op
    let ctx' ← saveCtx c (ctx ++ x ++ List.replicate ((if (if 0 < r.1 then
        (r.1 - 1) * L.stride + L.k else 0) < ctx.length + x.length then ctx.length + x.length
      else (if 0 < r.1 then (r.1 - 1) * L.stride + L.k else 0)) - (ctx ++ x).length) ζ)
        (ctx ++ x).length (if fin then 0 else r.2)
    pure (out, ctx')) = _
  rw [← hpad, ← hrows, ← hz, hcols, hsave]
  rfl

/-- A layer over its rows is the layer over a chunk. -/
lemma runLayer_eq (h : c.Holds L ctx) (hfits : L.Fits ctx) (fin : Bool) (x : List α) :
    ∃ c', runLayer ζ L c x fin = some ((L.chunk ζ ctx fin x).1, c') ∧
      c'.Holds L (L.chunk ζ ctx fin x).2 := by
  rw [runLayer]
  cases hkind : L.kind with
  | stem => exact stemCpu_eq h hfits hkind fin x
  | mixer => exact blockCpu_eq h hfits hkind fin x
  | down => exact convGemm_eq h hfits (fun hm => nomatch hkind.symm.trans hm) fin x
  | head => exact convGemm_eq h hfits (fun hm => nomatch hkind.symm.trans hm) fin x

end Layers

/-! ### Stages and tiles -/

section Stages

variable {α : Type} {ζ : α}

/-- The contexts of layers in a row, in the rooms of their layers. -/
def HoldsAll : List (Layer α) → List (CpuCtx α) → List (List α) → Prop
  | L :: Ls, c :: cs, ctx :: ctxs => c.Holds L ctx ∧ HoldsAll Ls cs ctxs
  | [], [], [] => True
  | _, _, _ => False

/-- The count of a context is between the overlap of two windows and the room of its layer. -/
def CpuCtx.Fits (L : Layer α) (c : CpuCtx α) : Prop :=
  c.tail.length = L.k - 1 ∧ L.k - L.stride ≤ c.haveCols ∧ c.haveCols ≤ L.k - 1

lemma holdsAll_fresh (Ls : List (Layer α)) :
    HoldsAll Ls (Ls.map (CpuCtx.fresh ζ)) (Ls.map fun L => L.pad ζ) := by
  induction Ls with
  | nil => trivial
  | cons L Ls ih => exact ⟨holds_fresh, ih⟩

lemma HoldsAll.fits {Ls : List (Layer α)} {cs : List (CpuCtx α)} {ctxs : List (List α)}
    (h : HoldsAll Ls cs ctxs) (hfits : List.Forall₂ Layer.Fits Ls ctxs) :
    List.Forall₂ CpuCtx.Fits Ls cs := by
  induction hfits generalizing cs with
  | nil =>
    cases cs with
    | nil => exact .nil
    | cons c cs => exact h.elim
  | @cons L ctx Ls ctxs hctx _ ih =>
    cases cs with
    | nil => exact h.elim
    | cons c cs =>
      refine .cons ⟨h.1.1, ?_, h.1.2.1⟩ (ih h.2)
      rw [← h.1.length]
      exact hctx.1

/-- Layers over their rows are the stack over a chunk. -/
lemma runLayers_eq {Ls : List (Layer α)} {cs : List (CpuCtx α)} {ctxs : List (List α)}
    (h : HoldsAll Ls cs ctxs) (hfits : List.Forall₂ Layer.Fits Ls ctxs) (fin : Bool)
    (x : List α) :
    ∃ cs', runLayers ζ Ls cs x fin = some ((chunkAll ζ Ls ctxs fin x).1, cs') ∧
      HoldsAll Ls cs' (chunkAll ζ Ls ctxs fin x).2 := by
  induction hfits generalizing cs x with
  | nil =>
    cases cs with
    | nil => exact ⟨[], rfl, trivial⟩
    | cons c cs => exact h.elim
  | @cons L ctx Ls ctxs hctx _ ih =>
    cases cs with
    | nil => exact h.elim
    | cons c cs =>
      obtain ⟨c', hlayer, hc'⟩ := runLayer_eq (ζ := ζ) h.1 hctx fin x
      obtain ⟨cs', hrest, hcs'⟩ := ih h.2 (L.chunk ζ ctx fin x).1
      refine ⟨c' :: cs', ?_, hc', hcs'⟩
      rw [runLayers, hlayer]
      show (do
        let rest ← runLayers ζ Ls cs (L.chunk ζ ctx fin x).1 fin
        pure ((L.chunk ζ ctx fin x).1 :: rest.1, c' :: rest.2)) = _
      rw [hrest]
      rfl

variable (ζ) in
/-- Layers over their rows, as a step of a streaming machine. -/
def layersStep (Ls : List (Layer α)) : Streaming.Step α (List (CpuCtx α)) := fun cs fin x =>
  (runLayers ζ Ls cs x fin).map fun y => (⟨y.1, outputOf x y.1⟩, y.2)

lemma law_layers (Ls : List (Layer α)) :
    Streaming.Law (layersStep ζ Ls) Ls.length (wholeOut ζ Ls)
      (Ls.map (CpuCtx.fresh ζ)) (List.Forall₂ CpuCtx.Fits Ls) := by
  refine ⟨_, fun _ => True, (computes_stack ζ Ls).of_sim
    (R := fun cs ctxs => HoldsAll Ls cs ctxs ∧ List.Forall₂ Layer.Fits Ls ctxs)
    fun hR fin x _ _ hstep => ?_, ⟨_, ⟨holdsAll_fresh Ls, ?_⟩, stacked_none Ls⟩, ?_⟩
  · obtain ⟨rfl, rfl⟩ := Prod.mk.inj (Option.some.inj hstep)
    obtain ⟨cs', hrun, hcs'⟩ := runLayers_eq (ζ := ζ) hR.1 hR.2 fin x
    refine ⟨cs', ?_, fun hfin => ⟨hcs', ?_⟩, fun _ => trivial⟩
    · rw [layersStep, hrun]
      rfl
    · subst hfin
      exact chunkAll_fits hR.2 x
  · exact (stacked_none Ls).1.fits
  · rintro xs z cs ⟨ctxs, hR, -⟩
    exact hR.1.fits hR.2

/-- A stage is its layers behind a buffer. -/
lemma law_stage (Ls : List (Layer α)) :
    Streaming.Law (runStage ζ Ls) Ls.length (wholeOut ζ Ls)
      ⟨[], Ls.map (CpuCtx.fresh ζ)⟩ (fun r => List.Forall₂ CpuCtx.Fits Ls r.ctxs) := by
  refine ((law_layers (ζ := ζ) Ls).buffered cpuMinRows).of_sim
    (R := fun r s => r = ⟨s.1, s.2⟩) rfl (fun r s hr h => hr ▸ h) ?_
  rintro _ s rfl fin x y t hstep
  refine ⟨⟨t.1, t.2⟩, ?_, rfl⟩
  rw [Streaming.buffered] at hstep
  rw [runStage]
  by_cases hwait : fin = false ∧ (s.1 ++ x).length < cpuMinRows
  · rw [if_pos hwait] at hstep
    obtain ⟨rfl, rfl⟩ := Prod.mk.inj (Option.some.inj hstep)
    exact if_pos hwait
  · rw [if_neg hwait] at hstep
    obtain ⟨⟨y', cs'⟩, hlayers, heq⟩ := Option.map_eq_some_iff.mp hstep
    obtain ⟨⟨zss, cs⟩, hrun, heq'⟩ := Option.map_eq_some_iff.mp hlayers
    obtain ⟨rfl, rfl⟩ := Prod.mk.inj heq'
    obtain ⟨rfl, rfl⟩ := Prod.mk.inj heq
    refine (if_neg hwait).trans ?_
    rw [hrun]
    rfl

/-- Stages in a row. -/
lemma law_stages (Ss : List (List (Layer α))) :
    Streaming.Law (runStages ζ Ss) Ss.flatten.length
      (wholeOut ζ Ss.flatten) (Ss.map fun Ls => ⟨[], Ls.map (CpuCtx.fresh ζ)⟩)
      (List.Forall₂ (fun Ls r => List.Forall₂ CpuCtx.Fits Ls r.ctxs) Ss) := by
  induction Ss with
  | nil =>
    refine ⟨fun xs z rs => z = ⟨[], xs⟩ ∧ rs = [], fun _ => True, ?_, ⟨rfl, rfl⟩, ?_⟩
    · constructor
      · rintro xs _ _ ⟨rfl, rfl⟩
        rfl
      · rintro xs _ _ ⟨rfl, rfl⟩ cs
        exact ⟨_, _, rfl, rfl, rfl, rfl⟩
      · rintro xs _ _ ⟨rfl, rfl⟩ cs
        exact ⟨_, _, rfl, rfl, rfl, trivial⟩
    · rintro xs _ _ ⟨-, rfl⟩
      exact .nil
  | cons S Ss ih =>
    have hcomp := (law_stage (ζ := ζ) S).comp ih
    have hwhole : (fun xs => (wholeOut ζ S xs).andThen
        (wholeOut ζ Ss.flatten (wholeOut ζ S xs).out)) =
        wholeOut ζ (S :: Ss).flatten := by
      funext xs
      exact (wholeOut_append S Ss.flatten xs).symm
    rw [hwhole] at hcomp
    rw [List.flatten_cons, List.length_append]
    refine hcomp.of_sim (R := fun rs s => rs = s.1 :: s.2) rfl ?_ ?_
    · rintro _ s rfl ⟨hS, hSs⟩
      exact .cons hS hSs
    · rintro _ s rfl fin x y t hstep
      obtain ⟨⟨y₁, r₁⟩, hstage, hrest⟩ := Option.bind_eq_some_iff.mp hstep
      obtain ⟨⟨y₂, rs₂⟩, hstages, heq⟩ := Option.map_eq_some_iff.mp hrest
      obtain ⟨rfl, rfl⟩ := Prod.mk.inj heq
      refine ⟨r₁ :: rs₂, ?_, rfl⟩
      rw [runStages, hstage]
      show (do
        let rest ← runStages ζ Ss s.2 fin y₁.out
        pure (y₁.andThen rest.1, r₁ :: rest.2)) = _
      rw [hstages]
      rfl

/-- The contexts of a run, each in the room of its layer. -/
def CpuRun.Fits (P : Plan α) (r : CpuRun α) : Prop :=
  r.stem.Fits P.stem ∧ List.Forall₂ (fun Ls s => List.Forall₂ CpuCtx.Fits Ls s.ctxs) P.stops r.stops

lemma Plan.stops_flatten (P : Plan α) : P.stem :: P.stops.flatten = P.layers := by
  rw [Plan.stops, List.flatten_append, List.flatten_singleton, Plan.layers, List.flatMap_def]

variable (ζ) in
/-- The tiles of a signal through the plan, whatever their lengths. -/
theorem law_cpu (P : Plan α) :
    Streaming.Law (runTile ζ P) P.layers.length (wholeOut ζ P.layers) (.start ζ P)
      (CpuRun.Fits P) := by
  have hcomp := (law_layers (ζ := ζ) [P.stem]).comp (law_stages (ζ := ζ) P.stops)
  have hwhole : (fun xs => (wholeOut ζ [P.stem] xs).andThen
      (wholeOut ζ P.stops.flatten (wholeOut ζ [P.stem] xs).out)) =
      wholeOut ζ P.layers := by
    funext xs
    rw [← P.stops_flatten]
    exact (wholeOut_append [P.stem] P.stops.flatten xs).symm
  have hlen : [P.stem].length + P.stops.flatten.length = P.layers.length := by
    rw [← P.stops_flatten, List.length_cons, Nat.add_comm]
    rfl
  rw [hwhole, hlen] at hcomp
  refine hcomp.of_sim (R := fun r s => s = ([r.stem], r.stops)) rfl ?_ ?_
  · rintro r _ rfl ⟨hstem, hstops⟩
    cases hstem with
    | cons hfits _ => exact ⟨hfits, hstops⟩
  · rintro r _ rfl fin x y t hstep
    obtain ⟨⟨y₁, cs⟩, hstem, hrest⟩ := Option.bind_eq_some_iff.mp hstep
    obtain ⟨⟨y₂, rs⟩, hstages, heq⟩ := Option.map_eq_some_iff.mp hrest
    obtain ⟨⟨zss, cs'⟩, hlayers, heq'⟩ := Option.map_eq_some_iff.mp hstem
    rw [runLayers] at hlayers
    obtain ⟨⟨z, c⟩, hlayer, hnone⟩ := Option.bind_eq_some_iff.mp hlayers
    obtain ⟨rfl, rfl⟩ : [z] = zss ∧ [c] = cs' := Prod.mk.inj (Option.some.inj hnone)
    obtain ⟨rfl, rfl⟩ := Prod.mk.inj heq'
    obtain ⟨rfl, rfl⟩ := Prod.mk.inj heq
    refine ⟨⟨c, rs⟩, ?_, rfl⟩
    rw [runTile, hlayer]
    show (do
      let rest ← runStages ζ P.stops r.stops fin z
      pure ((⟨z :: rest.1.layers, rest.1.out⟩ : Out α), (⟨c, rest.2⟩ : CpuRun α))) = _
    rw [show runStages ζ P.stops r.stops fin z = some (y₂, rs) from hstages]
    rfl

lemma tiles_flatten (audio : List α) : (tiles audio).1.flatten ++ (tiles audio).2 = audio := by
  induction audio using tiles.induct with
  | case1 audio hshort =>
    rw [tiles, if_pos hshort]
    rfl
  | case2 audio hlong ih =>
    rw [tiles, if_neg hlong]
    show (audio.take cpuTileSamples :: (tiles (audio.drop cpuTileSamples)).1).flatten ++
      (tiles (audio.drop cpuTileSamples)).2 = audio
    rw [List.flatten_cons, List.append_assoc, ih, List.take_append_drop]

/-- The host encodes every signal that has a sample. -/
theorem encodeCpu_eq (P : Plan α) {audio : List α} (haudio : audio ≠ []) :
    encodeCpu ζ P audio = pure (wholeOut ζ P.layers audio) := by
  obtain ⟨r, hrun⟩ := (law_cpu ζ P).run (tiles audio).1 (tiles audio).2
  rw [tiles_flatten] at hrun
  rw [encodeCpu, if_neg fun h => haudio (List.eq_nil_of_length_eq_zero h)]
  show (do
    let r ← ExceptT.lift (Streaming.run (runTile ζ P) (.start ζ P) (tiles audio).1
      (tiles audio).2)
    pure r.1 : Checked (Out α)) = _
  rw [hrun]
  rfl

end Stages

end VibeVoice.Encoder
