import Mathlib.Algebra.GroupWithZero.Nat
import Mathlib.Data.List.Forall2
import Mathlib.Order.Basic
import VibeVoice.Lib.Loop
import VibeVoice.Lib.Streaming

/-!
The causal convolutions of the Conv-VAE encoder over chunks of a signal (`vae_plan.h`).

The arithmetic of a layer is abstract: a column of its output is a function `op` of the window of
its `k` input columns, with `ζ` for a column of padding, followed for a mixer by its FFN, a
function `point` of that column alone.

* `layerStep`: `vae_layer_step`, the outputs of a chunk and the context left behind it.
* `Layer.whole`: the layer over a whole signal.
* `Layer.chunk`: the layer over a chunk behind its context.
* `Layer.Ctx`: what the context holds once a part of the signal is taken, kept by `chunk`.
* `Stacked`: the same for a stack of layers, each fed by the one in front of it.
-/

namespace VibeVoice.Encoder

open Streaming (Out)

/-! ### Layers -/

/-- `vae_layer_kind_t`. -/
inductive Kind
  | stem | mixer | down | head
  deriving DecidableEq, Repr

/-- A layer of the plan. `plan_add` checks the stride; only downsamples have one other than 1. -/
structure Layer (α : Type) where
  kind : Kind
  inCh : ℕ
  k : ℕ
  stride : ℕ
  stride_pos : 0 < stride
  stride_le : stride ≤ k
  stride_eq : kind ≠ .down → stride = 1
  op : List α → α
  point : α → α
  point_eq : kind ≠ .mixer → point = id

/-- A layer that adds up the columns of its windows. -/
def Layer.adding (kind : Kind) (overlap : ℕ) : Layer ℕ :=
  ⟨kind, 1, overlap + 1, 1, Nat.one_pos, Nat.le_add_left _ _, fun _ => rfl, List.sum, id,
    fun _ => rfl⟩

/-- A stage of the plan: its mixers, and the downsample behind them if there is one. -/
structure Stage (α : Type) where
  mixers : List (Layer α)
  down : Option (Layer α)
  mixers_kind : ∀ L ∈ mixers, L.kind = .mixer
  down_kind : ∀ L ∈ down, L.kind = .down

/-- `vae_plan_t`, in the order of `vae_plan_build`. -/
structure Plan (α : Type) where
  stem : Layer α
  stages : List (Stage α)
  head : Layer α
  stem_kind : stem.kind = .stem
  head_kind : head.kind = .head

/-- The layers of a stage. -/
def Stage.layers {α : Type} (S : Stage α) : List (Layer α) := S.mixers ++ S.down.toList

/-- The layers of the plan. -/
def Plan.layers {α : Type} (P : Plan α) : List (Layer α) :=
  P.stem :: (P.stages.flatMap Stage.layers ++ [P.head])

/-- `vae_layer_step`: the outputs of `inLen` columns behind `have'` columns of context, and the
context they leave. -/
def layerStep (k s have' inLen : ℕ) (fin : Bool) : ℕ × ℕ :=
  let total := have' + inLen
  if fin then
    let n := total - (k - s)
    (if 0 < n then (n + s - 1) / s else 0, 0)
  else
    let ol := if k ≤ total then (total - k) / s + 1 else 0
    (ol, total - ol * s)

/-- `vae_layer_fresh_have`. -/
def Layer.freshHave {α : Type} (L : Layer α) : ℕ := L.k - L.stride

/-- `vv_conv_vae_frames`. -/
def frames {α : Type} (layers : List (Layer α)) (samples : ℕ) : ℕ :=
  layers.foldl (fun len L => (layerStep L.k L.stride L.freshHave len true).1) samples

lemma layerStep_stride_one {k have' n : ℕ} (hk : 0 < k) (hhave : have' = k - 1) (fin : Bool) :
    (layerStep k 1 have' n fin).1 = n := by
  subst hhave
  cases fin with
  | true =>
    show (if 0 < k - 1 + n - (k - 1) then (k - 1 + n - (k - 1) + 1 - 1) / 1 else 0) = n
    rw [Nat.add_sub_cancel_left, Nat.add_sub_cancel, Nat.div_one]
    split <;> omega
  | false =>
    show (if k ≤ k - 1 + n then (k - 1 + n - k) / 1 + 1 else 0) = n
    rw [Nat.div_one]
    split <;> omega

section Windows

variable {α : Type} (ζ : α)

/-- The window of `k` columns from `at'` on, padded with zeros behind the end. -/
def window (k : ℕ) (cols : List α) (at' : ℕ) : List α :=
  (List.range k).map fun i => cols[at' + i]?.getD ζ

/-- A layer over columns that its padding or its context stands in front of. -/
def Layer.columns (L : Layer α) (cols : List α) (count : ℕ) : List α :=
  (List.range count).map fun j => L.point (L.op (window ζ L.k cols (j * L.stride)))

/-- The padding in front of a signal. -/
def Layer.pad (L : Layer α) : List α := List.replicate L.freshHave ζ

/-- The layer over a whole signal: zeros on the left, and on the right up to the ceiling. -/
def Layer.whole (L : Layer α) (xs : List α) : List α :=
  L.columns ζ (L.pad ζ ++ xs) ((xs.length + L.stride - 1) / L.stride)

/-- The layer over a chunk behind its context: the output columns and the next context. -/
def Layer.chunk (L : Layer α) (ctx : List α) (fin : Bool) (xs : List α) : List α × List α :=
  let r := layerStep L.k L.stride ctx.length xs.length fin
  (L.columns ζ (ctx ++ xs) r.1, (ctx ++ xs).drop ((ctx ++ xs).length - r.2))

variable {ζ}

lemma window_append {k at' : ℕ} {cols : List α} (h : at' + k ≤ cols.length) (rest : List α) :
    window ζ k (cols ++ rest) at' = window ζ k cols at' := by
  refine List.map_congr_left fun i hi => ?_
  rw [List.getElem?_append_left]
  exact Nat.lt_of_lt_of_le (Nat.add_lt_add_left (List.mem_range.mp hi) at') h

lemma window_drop (k n at' : ℕ) (cols : List α) :
    window ζ k (cols.drop n) at' = window ζ k cols (n + at') := by
  refine List.map_congr_left fun i _ => ?_
  rw [List.getElem?_drop, Nat.add_assoc]

lemma length_columns (L : Layer α) (cols : List α) (count : ℕ) :
    (L.columns ζ cols count).length = count := by
  rw [Layer.columns, List.length_map, List.length_range]

/-- Outputs on whole windows do not change when more columns come. -/
lemma columns_append_of_le {L : Layer α} {cols : List α} {count : ℕ}
    (h : count * L.stride + (L.k - L.stride) ≤ cols.length) (rest : List α) :
    L.columns ζ (cols ++ rest) count = L.columns ζ cols count := by
  refine List.map_congr_left fun j hj => ?_
  have hj' : (j + 1) * L.stride ≤ count * L.stride :=
    Nat.mul_le_mul_right _ (List.mem_range.mp hj)
  have hle := L.stride_le
  rw [Nat.succ_mul] at hj'
  rw [window_append (by omega)]

/-- Outputs go on behind the ones there are. -/
lemma columns_add (L : Layer α) (cols : List α) (m n : ℕ) :
    L.columns ζ cols (m + n) =
      L.columns ζ cols m ++ L.columns ζ (cols.drop (m * L.stride)) n := by
  rw [Layer.columns, List.range_add, List.map_append, List.map_map, Layer.columns, Layer.columns]
  congr 1
  refine List.map_congr_left fun j _ => ?_
  rw [window_drop, Function.comp_apply, Nat.add_mul]

lemma getElem?_columns {L : Layer α} {cols : List α} {count t : ℕ} (ht : t < count) :
    (L.columns ζ cols count)[t]? =
      some (L.point (L.op (window ζ L.k cols (t * L.stride)))) := by
  rw [Layer.columns, List.getElem?_map, List.getElem?_range ht, Option.map_some]

/-- A window read tap by tap. -/
lemma mapM_tap {f : ℕ → Option α} {cols : List α} {k at' : ℕ}
    (h : ∀ kk < k, f kk = some (cols[at' + kk]?.getD ζ)) :
    (List.range k).mapM f = some (window ζ k cols at') := by
  have hlen : (window ζ k cols at').length = k := by
    rw [window, List.length_map, List.length_range]
  have hentry : ∀ i < (window ζ k cols at').length, f i = (window ζ k cols at')[i]? := by
    intro i hi
    rw [hlen] at hi
    rw [h i hi, window, List.getElem?_map, List.getElem?_range hi, Option.map_some]
  have hmap := Loop.mapM_range_getElem? hentry
  rwa [hlen] at hmap

/-- The outputs of a layer read tap by tap. -/
lemma mapM_columns {L : Layer α} {f : ℕ → ℕ → Option α} {cols : List α} {count : ℕ}
    (h : ∀ t < count, ∀ kk < L.k, f t kk = some (cols[t * L.stride + kk]?.getD ζ)) :
    ((List.range count).mapM fun t => ((List.range L.k).mapM (f t)).map fun w =>
      L.point (L.op w)) = some (L.columns ζ cols count) := by
  have hlen := length_columns (ζ := ζ) L cols count
  have hentry : ∀ t < (L.columns ζ cols count).length,
      (((List.range L.k).mapM (f t)).map fun w => L.point (L.op w)) =
        (L.columns ζ cols count)[t]? := by
    intro t ht
    rw [hlen] at ht
    rw [mapM_tap (h t ht), Option.map_some, getElem?_columns ht]
  have hmap := Loop.mapM_range_getElem? hentry
  rwa [hlen] at hmap

end Windows

/-! ### A layer over a stream -/

section Stream

variable {α : Type} {ζ : α} {L : Layer α}

/-- A context is never less than the overlap of two windows, and never a whole window. -/
def Layer.Fits (L : Layer α) (ctx : List α) : Prop :=
  L.k - L.stride ≤ ctx.length ∧ ctx.length ≤ L.k - 1

/-- The context of a layer that has taken `xs` and given out `zs`: what the next output still
sees of its padded input. -/
structure Layer.Ctx (ζ : α) (L : Layer α) (xs zs ctx : List α) : Prop where
  out : zs = L.columns ζ (L.pad ζ ++ xs) zs.length
  taken : zs.length * L.stride ≤ xs.length
  eq_drop : ctx = (L.pad ζ ++ xs).drop (zs.length * L.stride)
  short : ctx.length < L.k

lemma length_pad : (L.pad ζ).length = L.k - L.stride := List.length_replicate

lemma Layer.Ctx.start : L.Ctx ζ [] [] (L.pad ζ) := by
  have hpos := L.stride_pos
  have hle := L.stride_le
  refine ⟨rfl, Nat.le_of_eq (Nat.zero_mul _), ?_, ?_⟩
  · rw [List.length_nil, Nat.zero_mul, List.drop_zero, List.append_nil]
  · rw [length_pad]
    omega

section

variable {xs zs ctx : List α}

lemma Layer.Ctx.length (h : L.Ctx ζ xs zs ctx) :
    ctx.length + zs.length * L.stride = (L.k - L.stride) + xs.length := by
  have htaken := h.taken
  have hlen := congrArg List.length h.eq_drop
  rw [List.length_drop, List.length_append, length_pad] at hlen
  omega

lemma Layer.Ctx.fits (h : L.Ctx ζ xs zs ctx) : L.Fits ctx := by
  rw [Layer.Fits]
  have hlen := h.length
  have htaken := h.taken
  have hshort := h.short
  omega

/-- The padded input with a chunk behind it, and the context with that chunk. -/
lemma Layer.Ctx.append (h : L.Ctx ζ xs zs ctx) (cs : List α) :
    ctx ++ cs = (L.pad ζ ++ (xs ++ cs)).drop (zs.length * L.stride) := by
  have hlen := h.length
  have hle : zs.length * L.stride ≤ (L.pad ζ ++ xs).length := by
    rw [List.length_append, length_pad]
    omega
  rw [← List.append_assoc, List.drop_append_of_le_length hle, ← h.eq_drop]

lemma Layer.Ctx.out_append (h : L.Ctx ζ xs zs ctx) (cs : List α) :
    zs = L.columns ζ (L.pad ζ ++ (xs ++ cs)) zs.length := by
  have htaken := h.taken
  have hle : zs.length * L.stride + (L.k - L.stride) ≤ (L.pad ζ ++ xs).length := by
    rw [List.length_append, length_pad]
    omega
  rw [← List.append_assoc, columns_append_of_le hle]
  exact h.out

/-- Outputs of a chunk behind those there are. -/
lemma Layer.Ctx.columns (h : L.Ctx ζ xs zs ctx) (cs : List α) (count : ℕ) :
    zs ++ L.columns ζ (ctx ++ cs) count =
      L.columns ζ (L.pad ζ ++ (xs ++ cs)) (zs.length + count) := by
  rw [columns_add, ← h.out_append cs, h.append cs]

lemma layerStep_feed {k s total : ℕ} (hs : 0 < s) (hsk : s ≤ k) (htotal : k - s ≤ total) :
    let ol := if k ≤ total then (total - k) / s + 1 else 0
    ol * s ≤ total - (k - s) ∧ total - ol * s < k := by
  intro ol
  by_cases hk : k ≤ total
  · have hol : ol = (total - k) / s + 1 := if_pos hk
    have hdiv := Nat.div_add_mod (total - k) s
    have hmod := Nat.mod_lt (total - k) hs
    have hmul : ol * s = s * ((total - k) / s) + s := by rw [hol, Nat.succ_mul, Nat.mul_comm]
    omega
  · have hol : ol = 0 := if_neg hk
    rw [hol, Nat.zero_mul]
    omega

/-- A chunk before the last one, by its number of outputs. -/
lemma Layer.chunk_feed (L : Layer α) (ζ : α) {ctx : List α}
    (hctx : L.k - L.stride ≤ ctx.length) (cs : List α) :
    ∃ ol, layerStep L.k L.stride ctx.length cs.length false =
        (ol, ctx.length + cs.length - ol * L.stride) ∧
      L.chunk ζ ctx false cs =
        (L.columns ζ (ctx ++ cs) ol, (ctx ++ cs).drop (ol * L.stride)) ∧
      ol * L.stride ≤ ctx.length + cs.length - (L.k - L.stride) ∧
      ctx.length + cs.length - ol * L.stride < L.k := by
  have htotal : L.k - L.stride ≤ ctx.length + cs.length := by omega
  obtain ⟨htake, hkeep⟩ := layerStep_feed L.stride_pos L.stride_le htotal
  obtain ⟨ol, hol⟩ : ∃ ol, ol = if L.k ≤ ctx.length + cs.length then
      (ctx.length + cs.length - L.k) / L.stride + 1 else 0 := ⟨_, rfl⟩
  rw [← hol] at htake hkeep
  have hstep : layerStep L.k L.stride ctx.length cs.length false =
      (ol, ctx.length + cs.length - ol * L.stride) := by
    rw [hol]
    rfl
  refine ⟨ol, hstep, ?_, htake, hkeep⟩
  rw [Layer.chunk, hstep, List.length_append]
  congr 2
  omega

/-- The context left behind a chunk is as long as `layerStep` says, and within the bounds. -/
lemma Layer.chunk_bounds (L : Layer α) (ζ : α) {ctx : List α}
    (hctx : L.k - L.stride ≤ ctx.length) (cs : List α) :
    (L.chunk ζ ctx false cs).2.length =
        (layerStep L.k L.stride ctx.length cs.length false).2 ∧
      L.Fits (L.chunk ζ ctx false cs).2 := by
  obtain ⟨ol, hstep, hchunk, htake, hkeep⟩ := L.chunk_feed ζ hctx cs
  have hlen : (L.chunk ζ ctx false cs).2.length = ctx.length + cs.length - ol * L.stride := by
    rw [hchunk, List.length_drop, List.length_append]
  rw [Layer.Fits, hlen, hstep]
  omega

/-- A chunk before the last one. -/
lemma Layer.Ctx.feed (h : L.Ctx ζ xs zs ctx) (cs : List α) :
    L.Ctx ζ (xs ++ cs) (zs ++ (L.chunk ζ ctx false cs).1) (L.chunk ζ ctx false cs).2 := by
  have hlen := h.length
  have hfits := h.fits
  rw [Layer.Fits] at hfits
  obtain ⟨ol, -, hchunk, htake, hkeep⟩ := L.chunk_feed ζ hfits.1 cs
  have hout : (zs ++ L.columns ζ (ctx ++ cs) ol).length = zs.length + ol := by
    rw [List.length_append, length_columns]
  rw [hchunk]
  refine ⟨?_, ?_, ?_, ?_⟩
  · rw [hout]
    exact h.columns cs ol
  · rw [hout, Nat.add_mul, List.length_append]
    omega
  · rw [hout, h.append cs, List.drop_drop, Nat.add_mul]
  · rw [List.length_drop, List.length_append]
    exact hkeep

/-- The last chunk. -/
lemma Layer.Ctx.finish (h : L.Ctx ζ xs zs ctx) (cs : List α) :
    zs ++ (L.chunk ζ ctx true cs).1 = L.whole ζ (xs ++ cs) := by
  have hlen := h.length
  have htaken := h.taken
  have hfits := h.fits
  rw [Layer.Fits] at hfits
  have hs := L.stride_pos
  obtain ⟨n, hn⟩ : ∃ n, n = ctx.length + cs.length - (L.k - L.stride) := ⟨_, rfl⟩
  have hol : (layerStep L.k L.stride ctx.length cs.length true).1 =
      (n + L.stride - 1) / L.stride := by
    show (if 0 < ctx.length + cs.length - (L.k - L.stride) then _ else 0) = _
    rw [← hn]
    by_cases hpos : 0 < n
    · rw [if_pos hpos]
    · rw [if_neg hpos, Nat.div_eq_of_lt (by omega)]
  have hcount : zs.length + (n + L.stride - 1) / L.stride =
      ((xs ++ cs).length + L.stride - 1) / L.stride := by
    have hsum : (xs ++ cs).length + L.stride - 1 =
        (n + L.stride - 1) + zs.length * L.stride := by
      rw [List.length_append]
      omega
    rw [hsum, Nat.add_mul_div_right _ _ hs, Nat.add_comm]
  rw [Layer.chunk, hol, Layer.whole, ← hcount]
  exact h.columns cs _

end

end Stream

/-! ### A stack of layers -/

section Stack

variable {α : Type} (ζ : α)

/-- A chunk through a stack: the output columns of every layer, and the next contexts. -/
def chunkAll : List (Layer α) → List (List α) → Bool → List α → List (List α) × List (List α)
  | L :: Ls, ctx :: ctxs, fin, xs =>
    let r := L.chunk ζ ctx fin xs
    let rest := chunkAll Ls ctxs fin r.1
    (r.1 :: rest.1, r.2 :: rest.2)
  | _, _, _, _ => ([], [])

/-- A whole signal through a stack: the output columns of every layer. -/
def wholeAll : List (Layer α) → List α → List (List α)
  | [], _ => []
  | L :: Ls, xs => L.whole ζ xs :: wholeAll Ls (L.whole ζ xs)

/-- The contexts of a stack that has taken `xs`, its layers having given out `zss`. -/
def Stacked : List (Layer α) → List α → List (List α) → List (List α) → Prop
  | [], _, zss, ctxs => zss = [] ∧ ctxs = []
  | L :: Ls, xs, zss, ctxs => ∃ zs zss' ctx ctxs', zss = zs :: zss' ∧ ctxs = ctx :: ctxs' ∧
      L.Ctx ζ xs zs ctx ∧ Stacked Ls zs zss' ctxs'

variable {ζ}

lemma stacked_start (Ls : List (Layer α)) :
    Stacked ζ Ls [] (Ls.map fun _ => []) (Ls.map fun L => L.pad ζ) := by
  induction Ls with
  | nil => exact ⟨rfl, rfl⟩
  | cons L Ls ih => exact ⟨[], _, _, _, rfl, rfl, .start, ih⟩

/-- A chunk before the last one keeps every context. -/
lemma Stacked.feed {Ls : List (Layer α)} {xs : List α} {zss ctxs : List (List α)}
    (h : Stacked ζ Ls xs zss ctxs) (cs : List α) :
    Stacked ζ Ls (xs ++ cs) (List.zipWith (· ++ ·) zss (chunkAll ζ Ls ctxs false cs).1)
      (chunkAll ζ Ls ctxs false cs).2 := by
  induction Ls generalizing xs zss ctxs cs with
  | nil =>
    obtain ⟨rfl, rfl⟩ := h
    exact ⟨rfl, rfl⟩
  | cons L Ls ih =>
    obtain ⟨zs, zss, ctx, ctxs, rfl, rfl, hctx, hrest⟩ := h
    exact ⟨_, _, _, _, rfl, rfl, hctx.feed cs, ih hrest _⟩

/-- The last chunk completes the columns of every layer. -/
lemma Stacked.finish {Ls : List (Layer α)} {xs : List α} {zss ctxs : List (List α)}
    (h : Stacked ζ Ls xs zss ctxs) (cs : List α) :
    List.zipWith (· ++ ·) zss (chunkAll ζ Ls ctxs true cs).1 = wholeAll ζ Ls (xs ++ cs) := by
  induction Ls generalizing xs zss ctxs cs with
  | nil =>
    obtain ⟨rfl, rfl⟩ := h
    rfl
  | cons L Ls ih =>
    obtain ⟨zs, zss, ctx, ctxs, rfl, rfl, hctx, hrest⟩ := h
    have hout := hctx.finish cs
    have hnext := ih hrest (L.chunk ζ ctx true cs).1
    rw [hout] at hnext
    exact congrArg₂ List.cons hout hnext

/-! ### A stack as a machine -/

/-- What the last layer gives out: the input where there is none. -/
def outputOf (xs : List α) (zss : List (List α)) : List α := zss.getLast?.getD xs

variable (ζ) in
/-- A whole signal through a stack. -/
def wholeStack (Ls : List (Layer α)) (xs : List α) : List α :=
  Ls.foldl (fun xs L => L.whole ζ xs) xs

variable (ζ) in
/-- A chunk through a stack, as a step of a streaming machine. -/
def stackStep (Ls : List (Layer α)) : Streaming.Step α (List (List α)) := fun ctxs fin xs =>
  let r := chunkAll ζ Ls ctxs fin xs
  some (⟨r.1, outputOf xs r.1⟩, r.2)

variable (ζ) in
/-- A whole signal through a stack: the columns of every layer, and those of the last one. -/
def wholeOut (Ls : List (Layer α)) (xs : List α) : Out α :=
  ⟨wholeAll ζ Ls xs, wholeStack ζ Ls xs⟩

lemma outputOf_cons (xs ys : List α) (zss : List (List α)) :
    outputOf xs (ys :: zss) = outputOf ys zss := by
  rw [outputOf, outputOf, List.getLast?_cons, Option.getD_some]

lemma outputOf_wholeAll (Ls : List (Layer α)) (xs : List α) :
    outputOf xs (wholeAll ζ Ls xs) = wholeStack ζ Ls xs := by
  induction Ls generalizing xs with
  | nil => rfl
  | cons L Ls ih =>
    rw [wholeAll, outputOf_cons, ih]
    rfl

lemma outputOf_zipWith {xs ys : List α} {zss yss : List (List α)} (h : zss.length = yss.length) :
    outputOf (xs ++ ys) (List.zipWith (· ++ ·) zss yss) = outputOf xs zss ++ outputOf ys yss := by
  induction zss generalizing xs ys yss with
  | nil =>
    obtain rfl := List.eq_nil_of_length_eq_zero h.symm
    rfl
  | cons zs zss ih =>
    cases yss with
    | nil => exact nomatch h
    | cons ws yss =>
      rw [List.zipWith_cons_cons, outputOf_cons, outputOf_cons, outputOf_cons]
      exact ih (Nat.succ.inj h)

/-- A stack of two stacks. -/
lemma wholeOut_append (Ls Ls' : List (Layer α)) (xs : List α) :
    wholeOut ζ (Ls ++ Ls') xs =
      (wholeOut ζ Ls xs).andThen (wholeOut ζ Ls' (wholeOut ζ Ls xs).out) := by
  refine congrArg₂ Out.mk ?_ List.foldl_append
  induction Ls generalizing xs with
  | nil => rfl
  | cons L Ls ih => exact congrArg (List.cons (L.whole ζ xs)) (ih (L.whole ζ xs))

lemma Stacked.length {Ls : List (Layer α)} {xs : List α} {zss ctxs : List (List α)}
    (h : Stacked ζ Ls xs zss ctxs) : zss.length = Ls.length ∧ ctxs.length = Ls.length := by
  induction Ls generalizing xs zss ctxs with
  | nil =>
    obtain ⟨rfl, rfl⟩ := h
    exact ⟨rfl, rfl⟩
  | cons L Ls ih =>
    obtain ⟨zs, zss, ctx, ctxs, rfl, rfl, -, hrest⟩ := h
    exact ⟨congrArg (· + 1) (ih hrest).1, congrArg (· + 1) (ih hrest).2⟩

/-- Every context is within its bounds. -/
lemma Stacked.fits {Ls : List (Layer α)} {xs : List α} {zss ctxs : List (List α)}
    (h : Stacked ζ Ls xs zss ctxs) : List.Forall₂ Layer.Fits Ls ctxs := by
  induction Ls generalizing xs zss ctxs with
  | nil =>
    obtain ⟨rfl, rfl⟩ := h
    exact .nil
  | cons L Ls ih =>
    obtain ⟨zs, zss, ctx, ctxs, rfl, rfl, hctx, hrest⟩ := h
    exact .cons hctx.fits (ih hrest)

lemma length_chunkAll {Ls : List (Layer α)} {ctxs : List (List α)} (h : ctxs.length = Ls.length)
    (fin : Bool) (xs : List α) : (chunkAll ζ Ls ctxs fin xs).1.length = Ls.length := by
  induction Ls generalizing ctxs xs with
  | nil => rfl
  | cons L Ls ih =>
    cases ctxs with
    | nil => exact nomatch h
    | cons ctx ctxs => exact congrArg (· + 1) (ih (Nat.succ.inj h) _)

/-- A chunk before the last one leaves every context within its bounds. -/
lemma chunkAll_fits {Ls : List (Layer α)} {ctxs : List (List α)}
    (h : List.Forall₂ Layer.Fits Ls ctxs) (cs : List α) :
    List.Forall₂ Layer.Fits Ls (chunkAll ζ Ls ctxs false cs).2 := by
  induction h generalizing cs with
  | nil => exact .nil
  | @cons L ctx Ls ctxs hctx _ ih => exact .cons (L.chunk_bounds ζ hctx.1 cs).2 (ih _)

variable (ζ) in
/-- However a signal is cut, every layer gives out what it makes of the whole. -/
theorem computes_stack (Ls : List (Layer α)) :
    Streaming.Computes (stackStep ζ Ls) Ls.length (wholeOut ζ Ls)
      (fun xs z ctxs => Stacked ζ Ls xs z.layers ctxs ∧ z.out = outputOf xs z.layers)
      (fun _ => True) := by
  constructor
  · rintro xs z ctxs ⟨h, -⟩
    exact h.length.1
  · rintro xs z ctxs ⟨h, hout⟩ cs
    have hlen := length_chunkAll (ζ := ζ) h.length.2 false cs
    refine ⟨_, _, rfl, hlen, h.feed cs, ?_⟩
    show z.out ++ outputOf cs _ = _
    rw [hout]
    exact (outputOf_zipWith (h.length.1.trans hlen.symm)).symm
  · rintro xs z ctxs ⟨h, hout⟩ cs
    have hlen := length_chunkAll (ζ := ζ) h.length.2 true cs
    refine ⟨_, _, rfl, hlen, congrArg₂ Out.mk (h.finish cs) ?_, trivial⟩
    rw [hout, ← outputOf_zipWith (h.length.1.trans hlen.symm), h.finish, outputOf_wholeAll]

/-- A stack that has taken nothing. -/
lemma stacked_none (Ls : List (Layer α)) :
    Stacked ζ Ls [] (Out.none α Ls.length).layers (Ls.map fun L => L.pad ζ) ∧
      (Out.none α Ls.length).out = outputOf [] (Out.none α Ls.length).layers := by
  have hstart := stacked_start (ζ := ζ) Ls
  rw [List.map_const'] at hstart
  refine ⟨hstart, ?_⟩
  rw [Out.none, outputOf, List.getLast?_replicate]
  split <;> rfl

lemma layerStep_fresh (L : Layer α) (len : ℕ) :
    (layerStep L.k L.stride L.freshHave len true).1 = (len + L.stride - 1) / L.stride := by
  have hn : L.freshHave + len - (L.k - L.stride) = len := Nat.add_sub_cancel_left _ _
  have hs := L.stride_pos
  show (if 0 < L.freshHave + len - (L.k - L.stride) then
    (L.freshHave + len - (L.k - L.stride) + L.stride - 1) / L.stride else 0) = _
  rw [hn]
  by_cases hpos : 0 < len
  · rw [if_pos hpos]
  · rw [if_neg hpos, Nat.div_eq_of_lt (by omega)]

/-- The frames of a whole signal are counted from its samples alone. -/
lemma length_wholeStack (Ls : List (Layer α)) (xs : List α) :
    (wholeStack ζ Ls xs).length = frames Ls xs.length := by
  induction Ls generalizing xs with
  | nil => rfl
  | cons L Ls ih =>
    rw [wholeStack, List.foldl_cons, frames, List.foldl_cons, layerStep_fresh]
    have hwhole : (L.whole ζ xs).length = (xs.length + L.stride - 1) / L.stride :=
      length_columns L _ _
    rw [← hwhole]
    exact ih _

end Stack

end VibeVoice.Encoder
