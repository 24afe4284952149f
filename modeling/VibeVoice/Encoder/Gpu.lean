import VibeVoice.Encoder.Conv
import VibeVoice.Lib.Packed
import VibeVoice.Status

/-!
The batched streaming encoder of the accelerator (`vae_gpu.c` and the kernels it launches).

The columns of all items of a batch lie one behind the other in one packed buffer; a descriptor
tells each convolution where an item starts and what its state holds. A read outside of a buffer
is a fault. Launches are taken to succeed, but for the checks of `vv_vae_mixer_dev` and
`vv_vae_im2col_dev`, and the batch to fit the arena, whose overflow exits are left out here.

* `makeDesc`, `launch`, `encode`: a batch through all layers, and the commit of the states.
* `Desc.Of`: an entry describes its item; what the taps of the kernels see.
* `launch_eq`: a layer over a batch is the layer over every item of it.
-/

namespace VibeVoice.Encoder

/-! ### States, items and descriptors -/

/-- `vv_vae_state`: two buffers of columns by layer, and how many of the live one count. -/
structure GpuState (α : Type) where
  tails : Bool → ℕ → List α
  haveCols : ℕ → ℕ
  cur : Bool
  fresh : Bool

/-- `vv_vae_state_create`. -/
def GpuState.create {α : Type} : GpuState α := ⟨fun _ _ => [], fun _ => 0, false, true⟩

/-- `vv_vae_state_reset`. -/
def GpuState.reset {α : Type} (st : GpuState α) : GpuState α :=
  { st with fresh := true, cur := false }

/-- `vv_vae_item_t`; without a state the item is a window of its own. -/
structure Item (α : Type) where
  audio : List α
  state : Option (GpuState α)
  isFinal : Bool
  skipFrames : ℕ

/-- The right edge of an item is padded. -/
def Item.fin {α : Type} (it : Item α) : Bool := it.state.isNone || it.isFinal

/-- `vv_vae_conv_item_t`; `tailOut` tells whether the next context is written. -/
structure Desc (α : Type) where
  inOff : ℕ
  outOff : ℕ
  inPtr : Option (List α)
  tailIn : Option (List α)
  tailOut : Bool
  inLen : ℕ
  outLen : ℕ
  haveCols : ℕ
  keep : ℕ

section Model

variable {α : Type}

/-- `have` of an item in `make_desc`. -/
def Item.haveCols (it : Item α) (L : Layer α) (li : ℕ) : ℕ :=
  match it.state with
  | some st => if st.fresh then L.freshHave else st.haveCols li
  | none => L.freshHave

/-- `tail_in` of an item. -/
def Item.tailIn (it : Item α) (L : Layer α) (li : ℕ) : Option (List α) :=
  it.state.bind fun st =>
    if st.fresh = false ∧ 0 < it.haveCols L li then some (st.tails st.cur li) else none

/-- The entry of an item in the descriptor of layer `li`. -/
def descOf (L : Layer α) (li inOff outOff : ℕ) (it : Item α) (inLen : ℕ) : Desc α :=
  let r := layerStep L.k L.stride (it.haveCols L li) inLen it.fin
  { inOff := inOff
    outOff := outOff
    inPtr := if L.kind = .stem then some it.audio else none
    tailIn := it.tailIn L li
    tailOut := it.state.isSome && !it.fin && decide (0 < r.2)
    inLen := inLen
    outLen := r.1
    haveCols := it.haveCols L li
    keep := r.2 }

/-- `make_desc`, from given offsets on. -/
def makeDesc (L : Layer α) (li : ℕ) : ℕ → ℕ → List (Item α) → List ℕ → List (Desc α)
  | inOff, outOff, it :: its, n :: ns =>
    let d := descOf L li inOff outOff it n
    d :: makeDesc L li (inOff + n) (outOff + d.outLen) its ns
  | _, _, _, _ => []

/-! ### Kernels -/

/-- Column `q` of the input of an item. -/
def Desc.input (d : Desc α) (x : List α) (q : ℕ) : Option α :=
  match d.inPtr with
  | some audio => audio[q]?
  | none => x[d.inOff + q]?

variable (ζ : α)

/-- Column `p` of the context of an item. -/
def Desc.context (d : Desc α) (p : ℕ) : Option α :=
  match d.tailIn with
  | some tl => tl[p]?
  | none => some ζ

/-- Position `p` of context and input. -/
def Desc.column (d : Desc α) (x : List α) (p : ℕ) : Option α :=
  if p < d.haveCols then d.context ζ p else d.input x (p - d.haveCols)

/-- What a tap of a convolution sees. -/
def Desc.tap (d : Desc α) (x : List α) (p : ℕ) : Option α :=
  if p < d.haveCols + d.inLen then d.column ζ x p else some ζ

/-- What a tap of `vae_mixer_kernel` sees, `p` columns behind the one `k - 1` in front of the
item's first. -/
def Desc.mixTap (d : Desc α) (k : ℕ) (x : List α) (p : ℕ) : Option α :=
  if k - 1 ≤ p then
    if p - (k - 1) < d.inLen then x[d.inOff + (p - (k - 1))]? else some ζ
  else
    match d.tailIn with
    | some tl => if k - 1 ≤ d.haveCols + p then tl[d.haveCols + p - (k - 1)]? else some ζ
    | none => some ζ

/-- `vae_conv_kernel`: the column of every output of every item. -/
def convKernel (L : Layer α) (ds : List (Desc α)) (x : List α) (T : ℕ) : Option (List α) :=
  (List.range T).mapM fun p =>
    (ds.find? fun d => d.outOff ≤ p ∧ p < d.outOff + d.outLen).bind fun d =>
      ((List.range L.k).mapM fun kk => d.tap ζ x ((p - d.outOff) * L.stride + kk)).map L.op

/-- The item of a packed output: the scan of `vae_im2col_kernel`. -/
def scan (p : ℕ) : List (Desc α) → Option (Desc α)
  | [] => none
  | [d] => some d
  | d :: d' :: ds => if d'.outOff ≤ p then scan p (d' :: ds) else some d

/-- `vae_im2col_kernel` and the GEMM over its columns. -/
def gemmKernel (L : Layer α) (ds : List (Desc α)) (x : List α) (T : ℕ) : Option (List α) :=
  (List.range T).mapM fun p =>
    (scan p ds).bind fun d =>
      ((List.range L.k).mapM fun kk =>
        if p - d.outOff < d.outLen then d.tap ζ x ((p - d.outOff) * L.stride + kk)
        else some ζ).map L.op

/-- `vae_mixer_kernel`, and the FFN of each column. -/
def mixerKernel (L : Layer α) (ds : List (Desc α)) (x : List α) (T : ℕ) : Option (List α) :=
  (List.range T).mapM fun p =>
    (ds.find? fun d => d.inOff ≤ p ∧ p < d.inOff + d.inLen).bind fun d =>
      ((List.range L.k).mapM fun kk => d.mixTap ζ L.k x (p - d.inOff + kk)).map fun w =>
        L.point (L.op w)

/-- `vae_tail_kernel` for one item: the next context, if it is written. -/
def Desc.tail (d : Desc α) (x : List α) : Option (Option (List α)) :=
  if d.tailOut then
    ((List.range d.keep).mapM fun j => d.column ζ x (d.haveCols + d.inLen - d.keep + j)).map some
  else some none

/-! ### Encoding a batch -/

/-- `MIX_MAXK`. -/
def mixMaxK : ℕ := 16

/-- The rows of im2col columns that `vv_vae_im2col_dev` takes. -/
def maxTaps : ℕ := 65535

/-- What the launcher of a layer refuses: a mixer of too many taps, an im2col of too many rows. -/
def Layer.tooWide (L : Layer α) : Bool :=
  match L.kind with
  | .stem => false
  | .mixer => mixMaxK < L.k
  | .down | .head => maxTaps < L.inCh * L.k

/-- A layer behind its launches: its packed output, the lengths of the items in it, and the
contexts the items are left with. -/
structure Launched (α : Type) where
  cols : List α
  lens : List ℕ
  keeps : List ℕ
  tails : List (Option (List α))

/-- The launches of a layer. -/
def launch (L : Layer α) (li : ℕ) (items : List (Item α)) (x : List α) (lens : List ℕ) :
    Checked (Launched α) := do
  let ds := makeDesc L li 0 0 items lens
  let outLens := if L.kind = .mixer then lens else ds.map Desc.outLen
  if 0 < outLens.sum ∧ L.tooWide then throw .invalidArg
  else
    let cols ← ExceptT.lift <| match L.kind with
      | .stem => convKernel ζ L ds x outLens.sum
      | .mixer => mixerKernel ζ L ds x outLens.sum
      | .down | .head => gemmKernel ζ L ds x outLens.sum
    let tails ← ExceptT.lift (ds.mapM fun d => d.tail ζ x)
    pure ⟨cols, outLens, ds.map Desc.keep, tails⟩

/-- The layers in a row, from layer `li` on. -/
def walk (items : List (Item α)) :
    ℕ → List (Layer α) → List α → List ℕ → Checked (List (Launched α))
  | _, [], _, _ => pure []
  | li, L :: Ls, x, lens => do
      let r ← launch ζ L li items x lens
      let rest ← walk items (li + 1) Ls r.cols r.lens
      pure (r :: rest)

/-- A state behind an encode that did not end its stream: `keep` and `tail` by layer. -/
def GpuState.commit (st : GpuState α) (keeps : ℕ → Option ℕ) (tails : ℕ → Option (List α)) :
    GpuState α where
  tails := fun b li => if b = !st.cur then (tails li).getD (st.tails b li) else st.tails b li
  haveCols := fun li => (keeps li).getD (st.haveCols li)
  cur := !st.cur
  fresh := false

/-- What an item gets: its rows from `skipFrames` on, its frames and its state. -/
structure Result (α : Type) where
  rows : List α
  nFrames : ℕ
  state : Option (GpuState α)

/-- Item `i` once everything is enqueued; its rows lie behind those of the items in front. -/
def resultOf (rs : List (Launched α)) (x : List α) (lens : List ℕ) (i : ℕ) (it : Item α) :
    Result α :=
  let cols := (rs.getLast?.map Launched.cols).getD x
  let lens := (rs.getLast?.map Launched.lens).getD lens
  let n := lens[i]?.getD 0
  { rows := ((cols.drop (lens.take i).sum).take n).drop it.skipFrames
    nFrames := n
    state := it.state.map fun st =>
      if it.isFinal then st.reset
      else st.commit (fun li => rs[li]?.bind fun r => r.keeps[i]?)
        (fun li => rs[li]?.bind fun r => r.tails[i]?.join) }

/-- `vv_vae_encode` behind its entry checks. -/
def encode (Ls : List (Layer α)) (items : List (Item α)) : Checked (List (Result α)) := do
  let lens := items.map fun it => it.audio.length
  let rs ← walk ζ items 0 Ls [] lens
  pure (items.mapIdx (resultOf rs [] lens))

end Model

/-! ### Contexts of an item -/

section Context

variable {α : Type} {ζ : α} {Ls : List (Layer α)} {it : Item α}

/-- A state whose counts fit its live buffer and its layers. -/
def GpuState.Valid (Ls : List (Layer α)) (st : GpuState α) : Prop :=
  st.fresh = false → ∀ li L, Ls[li]? = some L →
    L.k - L.stride ≤ st.haveCols li ∧ st.haveCols li ≤ L.k - 1 ∧
      st.haveCols li ≤ (st.tails st.cur li).length

/-- An item whose state is valid. -/
def Item.Valid (Ls : List (Layer α)) (it : Item α) : Prop := ∀ st, it.state = some st → st.Valid Ls

variable (ζ) in
/-- The context layer `li` sees. -/
def GpuState.ctx (st : GpuState α) (L : Layer α) (li : ℕ) : List α :=
  if st.fresh then L.pad ζ else (st.tails st.cur li).take (st.haveCols li)

variable (ζ) in
/-- The context of an item, that of a fresh stream where it has no state. -/
def Item.ctx (it : Item α) (L : Layer α) (li : ℕ) : List α :=
  (it.state.map fun st => st.ctx ζ L li).getD (L.pad ζ)

lemma GpuState.Valid.ctx_fits {st : GpuState α} (hst : st.Valid Ls) {L : Layer α} {li : ℕ}
    (hL : Ls[li]? = some L) : L.Fits (st.ctx ζ L li) := by
  have hs := L.stride_pos
  rw [Layer.Fits, GpuState.ctx]
  by_cases hfresh : st.fresh = true
  · rw [if_pos hfresh, length_pad]
    omega
  · obtain ⟨hlow, hhigh, hlen⟩ := hst (Bool.not_eq_true _ ▸ hfresh) li L hL
    rw [if_neg hfresh, List.length_take, min_eq_left hlen]
    exact ⟨hlow, hhigh⟩

lemma Item.Valid.ctx_fits (hit : it.Valid Ls) {L : Layer α} {li : ℕ} (hL : Ls[li]? = some L) :
    L.Fits (it.ctx ζ L li) := by
  have hs := L.stride_pos
  rw [Item.ctx]
  cases hst : it.state with
  | none =>
    rw [Option.map_none, Option.getD_none, Layer.Fits, length_pad]
    omega
  | some st =>
    rw [Option.map_some, Option.getD_some]
    exact (hit st hst).ctx_fits hL

end Context

/-! ### Descriptors and kernels -/

section Kernels

variable {α : Type} {ζ : α} {Ls : List (Layer α)} {L : Layer α} {li : ℕ}

variable (ζ) in
/-- An entry describes an item whose input columns are `col`. -/
structure Desc.Of (d : Desc α) (x : List α) (L : Layer α) (li : ℕ) (it : Item α) (col : List α) :
    Prop where
  inLen : d.inLen = col.length
  input : ∀ q < col.length, d.input x q = col[q]?
  inPtr : L.kind ≠ .stem → d.inPtr = none
  haveCols : d.haveCols = (it.ctx ζ L li).length
  context : ∀ p < d.haveCols, d.context ζ p = (it.ctx ζ L li)[p]?
  step : layerStep L.k L.stride (it.ctx ζ L li).length col.length it.fin = (d.outLen, d.keep)
  tailOut : d.tailOut = (it.state.isSome && !it.fin && decide (0 < d.keep))

lemma haveCols_eq {it : Item α} (hit : it.Valid Ls) (hL : Ls[li]? = some L) :
    it.haveCols L li = (it.ctx ζ L li).length := by
  rw [Item.haveCols, Item.ctx]
  cases hst : it.state with
  | none => exact length_pad.symm
  | some st =>
    rw [Option.map_some, Option.getD_some, GpuState.ctx]
    by_cases hfresh : st.fresh = true
    · rw [if_pos hfresh, length_pad]
      exact if_pos hfresh
    · obtain ⟨-, -, hlen⟩ := hit st hst (Bool.not_eq_true _ ▸ hfresh) li L hL
      rw [if_neg hfresh, List.length_take, min_eq_left hlen]
      exact if_neg hfresh

lemma context_eq {it : Item α} (hit : it.Valid Ls) (hL : Ls[li]? = some L) {p : ℕ}
    (hp : p < it.haveCols L li) :
    (match it.tailIn L li with
      | some tl => tl[p]?
      | none => some ζ) = (it.ctx ζ L li)[p]? := by
  have hlen := haveCols_eq (ζ := ζ) hit hL
  have hpad : ∀ q < (L.pad ζ).length, some ζ = (L.pad ζ)[q]? := by
    intro q hq
    rw [length_pad] at hq
    exact (List.getElem?_replicate_of_lt hq).symm
  rw [Item.tailIn]
  rw [hlen, Item.ctx] at hp
  rw [Item.ctx]
  cases hst : it.state with
  | none =>
    rw [hst] at hp
    exact hpad p hp
  | some st =>
    rw [hst] at hp
    rw [Option.map_some, Option.getD_some, GpuState.ctx] at hp ⊢
    by_cases hfresh : st.fresh = true
    · rw [if_pos hfresh] at hp ⊢
      rw [Option.bind_some, if_neg fun h => Bool.false_ne_true (h.1.symm.trans hfresh)]
      exact hpad p hp
    · have hfalse : st.fresh = false := Bool.not_eq_true _ ▸ hfresh
      have hpos : 0 < it.haveCols L li := by
        rw [hlen, Item.ctx, hst, Option.map_some, Option.getD_some, GpuState.ctx, if_neg hfresh]
        rw [if_neg hfresh] at hp
        omega
      rw [if_neg hfresh] at hp ⊢
      rw [Option.bind_some, if_pos ⟨hfalse, hpos⟩]
      rw [List.length_take] at hp
      exact (List.getElem?_take_of_lt (by omega)).symm

lemma descOf_of {x : List α} {inOff outOff : ℕ} {it : Item α} {col : List α}
    (hit : it.Valid Ls) (hL : Ls[li]? = some L)
    (hinput : ∀ q < col.length, (descOf L li inOff outOff it col.length).input x q = col[q]?) :
    (descOf L li inOff outOff it col.length).Of ζ x L li it col := by
  have hlen := haveCols_eq (ζ := ζ) hit hL
  refine ⟨rfl, hinput, fun hk => if_neg hk, hlen, fun p hp => context_eq hit hL hp, ?_, rfl⟩
  rw [← hlen]
  rfl

section Tap

variable {d : Desc α} {x col : List α} {it : Item α}

lemma Desc.Of.column_eq (h : d.Of ζ x L li it col) {p : ℕ} (hp : p < d.haveCols + d.inLen) :
    d.column ζ x p = (it.ctx ζ L li ++ col)[p]? := by
  rw [Desc.column]
  by_cases hctx : p < d.haveCols
  · rw [if_pos hctx, h.context p hctx, List.getElem?_append_left (h.haveCols ▸ hctx)]
  · have hin := h.inLen
    rw [if_neg hctx, h.input _ (by omega), List.getElem?_append_right (by rw [← h.haveCols]; omega),
      h.haveCols]

lemma Desc.Of.tap_eq (h : d.Of ζ x L li it col) (p : ℕ) :
    d.tap ζ x p = some ((it.ctx ζ L li ++ col)[p]?.getD ζ) := by
  rw [Desc.tap]
  have hlen : (it.ctx ζ L li ++ col).length = d.haveCols + d.inLen := by
    rw [List.length_append, h.haveCols, h.inLen]
  by_cases hp : p < d.haveCols + d.inLen
  · rw [if_pos hp, h.column_eq hp, List.getElem?_eq_getElem (hlen.symm ▸ hp), Option.getD_some]
  · rw [if_neg hp, List.getElem?_eq_none (hlen.trans_le (not_lt.mp hp)), Option.getD_none]

/-- The halo of the mixer is the context of a layer with stride 1. -/
lemma Desc.Of.mixTap_eq (h : d.Of ζ x L li it col) (hkind : L.kind ≠ .stem)
    (hhave : d.haveCols = L.k - 1) (p : ℕ) :
    d.mixTap ζ L.k x p = some ((it.ctx ζ L li ++ col)[p]?.getD ζ) := by
  have hctx : (it.ctx ζ L li).length = L.k - 1 := h.haveCols.symm.trans hhave
  have hinput : ∀ q < col.length, x[d.inOff + q]? = col[q]? := by
    intro q hq
    have hq' := h.input q hq
    rwa [Desc.input, h.inPtr hkind] at hq'
  rw [Desc.mixTap]
  by_cases hp : L.k - 1 ≤ p
  · rw [if_pos hp, List.getElem?_append_right (hctx.symm ▸ hp), hctx]
    by_cases hin : p - (L.k - 1) < d.inLen
    · have hlt : p - (L.k - 1) < col.length := h.inLen ▸ hin
      rw [if_pos hin, hinput _ hlt, List.getElem?_eq_getElem hlt, Option.getD_some]
    · rw [if_neg hin, List.getElem?_eq_none (h.inLen ▸ not_lt.mp hin), Option.getD_none]
  · have hlt : p < d.haveCols := by omega
    have hentry := h.context p hlt
    rw [if_neg hp, List.getElem?_append_left (by omega)]
    rw [Desc.context] at hentry
    have hsome : ∃ y, (it.ctx ζ L li)[p]? = some y :=
      ⟨_, List.getElem?_eq_getElem (by omega)⟩
    obtain ⟨y, hy⟩ := hsome
    rw [hy] at hentry ⊢
    cases htail : d.tailIn with
    | none =>
      rw [htail] at hentry
      exact hentry
    | some tl =>
      rw [htail] at hentry
      have hshift : d.haveCols + p - (L.k - 1) = p := by omega
      show (if _ then _ else _) = _
      rw [if_pos (by omega), hshift]
      exact hentry

end Tap

/-! ### A layer over a batch -/

lemma owns_scan : Packed.Owns Desc.outOff Desc.outLen (scan (α := α)) := by
  constructor
  · intro base d ds hc p hp
    cases ds with
    | nil => rfl
    | cons d' ds =>
      have hoff : d'.outOff = base + d.outLen := hc.2.1
      exact if_neg (by omega)
  · intro base d ds hc p hp
    cases ds with
    | nil => exact absurd hp p.not_lt_zero
    | cons d' ds =>
      have hoff : d'.outOff = base + d.outLen := hc.2.1
      exact if_pos (by omega)

variable (ζ) in
/-- The columns an item gets out of a layer, and its context behind it. -/
def Item.chunk (L : Layer α) (li : ℕ) (ic : Item α × List α) : List α × List α :=
  L.chunk ζ (ic.1.ctx ζ L li) ic.1.fin ic.2

section Outputs

variable {d : Desc α} {x : List α} {ic : Item α × List α}

lemma Desc.Of.chunk_eq (h : d.Of ζ x L li ic.1 ic.2) :
    Item.chunk ζ L li ic =
      (L.columns ζ (ic.1.ctx ζ L li ++ ic.2) d.outLen,
        (ic.1.ctx ζ L li ++ ic.2).drop ((ic.1.ctx ζ L li ++ ic.2).length - d.keep)) := by
  rw [Item.chunk, Layer.chunk, h.step]

/-- The direct convolution and the GEMM fill in the columns of `chunk`. -/
lemma Desc.Of.fills_tap (h : d.Of ζ x L li ic.1 ic.2) (hkind : L.kind ≠ .mixer) :
    Packed.Fills Desc.outLen
      (fun d t => ((List.range L.k).mapM fun kk => d.tap ζ x (t * L.stride + kk)).map L.op) d
      (Item.chunk ζ L li ic).1 := by
  rw [h.chunk_eq]
  refine ⟨length_columns _ _ _, fun t ht => ?_⟩
  show ((List.range L.k).mapM fun kk => d.tap ζ x (t * L.stride + kk)).map L.op = _
  rw [getElem?_columns ht, mapM_tap (fun kk _ => h.tap_eq _), Option.map_some, L.point_eq hkind]
  rfl

lemma Desc.Of.fills_gemm (h : d.Of ζ x L li ic.1 ic.2) (hkind : L.kind ≠ .mixer) :
    Packed.Fills Desc.outLen
      (fun d t => ((List.range L.k).mapM fun kk =>
        if t < d.outLen then d.tap ζ x (t * L.stride + kk) else some ζ).map L.op) d
      (Item.chunk ζ L li ic).1 := by
  obtain ⟨hlen, hfill⟩ := h.fills_tap hkind
  refine ⟨hlen, fun t ht => ?_⟩
  simp only [if_pos ht]
  exact hfill t ht

/-- The mixer gives out a column for each one it takes. -/
lemma Desc.Of.outLen_eq (h : d.Of ζ x L li ic.1 ic.2) (hstride : L.stride = 1)
    (hhave : d.haveCols = L.k - 1) : d.outLen = d.inLen := by
  have hk := L.stride_pos.trans_le L.stride_le
  have hstep := h.step
  rw [hstride] at hstep
  rw [h.inLen]
  exact (congrArg Prod.fst hstep).symm.trans
    (layerStep_stride_one hk (h.haveCols.symm.trans hhave) ic.1.fin)

lemma Desc.Of.fills_mixer (h : d.Of ζ x L li ic.1 ic.2) (hkind : L.kind = .mixer)
    (hhave : d.haveCols = L.k - 1) :
    Packed.Fills Desc.inLen
      (fun d t => ((List.range L.k).mapM fun kk => d.mixTap ζ L.k x (t + kk)).map
        fun w => L.point (L.op w)) d
      (Item.chunk ζ L li ic).1 := by
  have hstem : L.kind ≠ .stem := fun h => nomatch hkind.symm.trans h
  have hdown : L.kind ≠ .down := fun h => nomatch hkind.symm.trans h
  have hout := h.outLen_eq (L.stride_eq hdown) hhave
  rw [h.chunk_eq]
  refine ⟨(length_columns _ _ _).trans hout, fun t ht => ?_⟩
  show ((List.range L.k).mapM fun kk => d.mixTap ζ L.k x (t + kk)).map _ = _
  rw [getElem?_columns (ht.trans_eq hout.symm), mapM_tap (fun kk _ => h.mixTap_eq hstem hhave _),
    Option.map_some, L.stride_eq hdown, Nat.mul_one]

/-- The kernel that saves the contexts writes the next one, if there is one to write. -/
lemma Desc.Of.tail_eq (h : d.Of ζ x L li ic.1 ic.2) (hkeep : d.keep ≤ d.haveCols + d.inLen) :
    d.tail ζ x = some (if d.tailOut then some (Item.chunk ζ L li ic).2 else none) := by
  have hlen : (ic.1.ctx ζ L li ++ ic.2).length = d.haveCols + d.inLen := by
    rw [List.length_append, h.haveCols, h.inLen]
  rw [Desc.tail]
  by_cases hsaved : d.tailOut = true
  · rw [if_pos hsaved, if_pos hsaved, h.chunk_eq, hlen]
    obtain ⟨rest, hrest⟩ : ∃ rest, rest =
        (ic.1.ctx ζ L li ++ ic.2).drop (d.haveCols + d.inLen - d.keep) := ⟨_, rfl⟩
    have hkept : rest.length = d.keep := by
      rw [hrest, List.length_drop, hlen]
      omega
    have hmap : (List.range d.keep).mapM
        (fun j => d.column ζ x (d.haveCols + d.inLen - d.keep + j)) = some rest := by
      rw [← hkept]
      refine Loop.mapM_range_getElem? fun j hj => ?_
      rw [hkept] at hj
      rw [hkept, h.column_eq (by omega), hrest, List.getElem?_drop]
    rw [← hrest, hmap, Option.map_some]
  · rw [if_neg hsaved, if_neg hsaved]

end Outputs

/-! ### Descriptors of a batch -/

lemma consecutive_in (L : Layer α) (li inOff outOff : ℕ) (its : List (Item α)) (ns : List ℕ) :
    Packed.Consecutive Desc.inOff Desc.inLen inOff (makeDesc L li inOff outOff its ns) := by
  induction its generalizing inOff outOff ns with
  | nil => exact trivial
  | cons it its ih =>
    cases ns with
    | nil => exact trivial
    | cons n ns => exact ⟨rfl, ih _ _ _⟩

lemma consecutive_out (L : Layer α) (li inOff outOff : ℕ) (its : List (Item α)) (ns : List ℕ) :
    Packed.Consecutive Desc.outOff Desc.outLen outOff (makeDesc L li inOff outOff its ns) := by
  induction its generalizing inOff outOff ns with
  | nil => exact trivial
  | cons it its ih =>
    cases ns with
    | nil => exact trivial
    | cons n ns => exact ⟨rfl, ih _ _ _⟩

/-- The columns of items, one behind the other. -/
def packed (ics : List (Item α × List α)) : List α := (ics.map Prod.snd).flatten

/-- The lengths of items. -/
def lengths (ics : List (Item α × List α)) : List ℕ := ics.map fun ic => ic.2.length

/-- The mixer wants an entry of a layer with the whole halo in its context. -/
def Halo (L : Layer α) (d : Desc α) : Prop := L.kind = .mixer → d.haveCols = L.k - 1

/-- The entries of a batch, each with its item. -/
def Described (ζ : α) (L : Layer α) (li : ℕ) (x : List α) (ds : List (Desc α))
    (ics : List (Item α × List α)) : Prop :=
  List.Forall₂ (fun d ic => d.Of ζ x L li ic.1 ic.2 ∧ Halo L d) ds ics

/-- Every entry describes its item, whose columns lie packed behind `front`. -/
lemma makeDesc_of {ics : List (Item α × List α)} {x : List α} (front : List α) (hL : Ls[li]? = some L)
    (hvalid : ∀ ic ∈ ics, ic.1.Valid Ls) (hstem : L.kind = .stem → ∀ ic ∈ ics, ic.2 = ic.1.audio)
    (hx : L.kind ≠ .stem → x = front ++ packed ics) (outOff : ℕ) :
    Described ζ L li x
      (makeDesc L li front.length outOff (ics.map Prod.fst) (lengths ics)) ics := by
  induction ics generalizing front outOff with
  | nil => exact .nil
  | cons ic ics ih =>
    have hit := hvalid ic List.mem_cons_self
    have hpacked : L.kind ≠ .stem → x = front ++ ic.2 ++ packed ics := fun hk =>
      (hx hk).trans (List.append_assoc _ _ _).symm
    refine .cons ⟨descOf_of hit hL fun q hq => ?_, fun hk => ?_⟩ ?_
    · show (match if L.kind = .stem then some ic.1.audio else none with
        | some audio => audio[q]?
        | none => x[front.length + q]?) = ic.2[q]?
      by_cases hk : L.kind = .stem
      · rw [if_pos hk, hstem hk ic List.mem_cons_self]
      · rw [if_neg hk, hpacked hk, List.append_assoc,
          List.getElem?_append_right (Nat.le_add_right _ _), Nat.add_sub_cancel_left]
        exact List.getElem?_append_left hq
    · have hdown : L.kind ≠ .down := fun hd => nomatch hk.symm.trans hd
      have hfits := hit.ctx_fits (ζ := ζ) hL
      rw [Layer.Fits, L.stride_eq hdown, ← haveCols_eq hit hL] at hfits
      exact hfits.2.antisymm hfits.1
    · have htail := ih (front ++ ic.2) (fun ic h => hvalid ic (List.mem_cons_of_mem _ h))
        (fun hk ic h => hstem hk ic (List.mem_cons_of_mem _ h)) hpacked
      rw [List.length_append] at htail
      exact htail _

/-! ### A layer over a batch -/

variable (ζ) in
/-- How much context an item keeps. -/
def Item.keep (L : Layer α) (li : ℕ) (ic : Item α × List α) : ℕ :=
  (layerStep L.k L.stride (ic.1.ctx ζ L li).length ic.2.length ic.1.fin).2

/-- The context of an item is written. -/
def Item.saves (it : Item α) (keep : ℕ) : Bool := it.state.isSome && !it.fin && decide (0 < keep)

variable (ζ) in
/-- A layer over every item on its own. -/
def launched (L : Layer α) (li : ℕ) (ics : List (Item α × List α)) : Launched α where
  cols := (ics.map fun ic => (Item.chunk ζ L li ic).1).flatten
  lens := ics.map fun ic => (Item.chunk ζ L li ic).1.length
  keeps := ics.map fun ic => Item.keep ζ L li ic
  tails := ics.map fun ic =>
    if ic.1.saves (Item.keep ζ L li ic) then some (Item.chunk ζ L li ic).2 else none

lemma map_eq_of_forall₂ {β γ δ : Type} {R : β → γ → Prop} {f : β → δ} {g : γ → δ} {bs : List β}
    {cs : List γ} (h : List.Forall₂ R bs cs) (hR : ∀ b c, R b c → f b = g c) :
    bs.map f = cs.map g := by
  rw [← List.forall₂_eq_eq_eq, List.forall₂_map_left_iff, List.forall₂_map_right_iff]
  exact h.imp hR

section Launch

variable {ics : List (Item α × List α)} {ds : List (Desc α)} {x : List α}

lemma Described.lens (h : Described ζ L li x ds ics) :
    (if L.kind = .mixer then lengths ics else ds.map Desc.outLen) =
      ics.map fun ic => (Item.chunk ζ L li ic).1.length := by
  have hout : ds.map Desc.outLen = ics.map fun ic => (Item.chunk ζ L li ic).1.length :=
    map_eq_of_forall₂ h fun d ic hd => by rw [hd.1.chunk_eq, length_columns]
  by_cases hk : L.kind = .mixer
  · have hdown : L.kind ≠ .down := fun hd => nomatch hk.symm.trans hd
    have hin : ds.map Desc.outLen = ics.map fun ic => ic.2.length :=
      map_eq_of_forall₂ h fun d ic hd =>
        (hd.1.outLen_eq (L.stride_eq hdown) (hd.2 hk)).trans hd.1.inLen
    rw [if_pos hk]
    exact hin.symm.trans hout
  · rw [if_neg hk, hout]

lemma Described.cols (h : Described ζ L li x ds ics)
    (hin : Packed.Consecutive Desc.inOff Desc.inLen 0 ds)
    (hout : Packed.Consecutive Desc.outOff Desc.outLen 0 ds) {T : ℕ}
    (hT : T = (ics.map fun ic => (Item.chunk ζ L li ic).1.length).sum) :
    (match L.kind with
      | .stem => convKernel ζ L ds x T
      | .mixer => mixerKernel ζ L ds x T
      | .down | .head => gemmKernel ζ L ds x T) =
      some (ics.map fun ic => (Item.chunk ζ L li ic).1).flatten := by
  have hlens := h.lens
  have hgemm : L.kind ≠ .mixer → gemmKernel ζ L ds x T =
      some (ics.map fun ic => (Item.chunk ζ L li ic).1).flatten := by
    intro hk
    rw [if_neg hk] at hlens
    rw [hT, ← hlens]
    exact Packed.packed_eq owns_scan hout
      (List.forall₂_map_right_iff.mpr (h.imp fun d ic hd => hd.1.fills_gemm hk))
  cases hk : L.kind with
  | stem =>
    have hne : L.kind ≠ .mixer := fun hm => nomatch hk.symm.trans hm
    rw [if_neg hne] at hlens
    rw [hT, ← hlens]
    exact Packed.packed_eq (Packed.owns_find _ _) hout
      (List.forall₂_map_right_iff.mpr (h.imp fun d ic hd => hd.1.fills_tap hne))
  | mixer =>
    have hdown : L.kind ≠ .down := fun hd => nomatch hk.symm.trans hd
    have hsum : T = (ds.map Desc.inLen).sum := by
      rw [hT, ← hlens, if_pos hk]
      exact congrArg List.sum (map_eq_of_forall₂ h fun d ic hd => hd.1.inLen).symm
    rw [hsum]
    exact Packed.packed_eq (Packed.owns_find _ _) hin
      (List.forall₂_map_right_iff.mpr (h.imp fun d ic hd => hd.1.fills_mixer hk (hd.2 hk)))
  | down => exact hgemm fun hm => nomatch hk.symm.trans hm
  | head => exact hgemm fun hm => nomatch hk.symm.trans hm

lemma layerStep_keep_le (k s have' n : ℕ) (fin : Bool) :
    (layerStep k s have' n fin).2 ≤ have' + n := by
  cases fin with
  | true => exact Nat.zero_le _
  | false => exact Nat.sub_le _ _

lemma Desc.Of.keep_eq {d : Desc α} {ic : Item α × List α} (h : d.Of ζ x L li ic.1 ic.2) :
    d.keep = Item.keep ζ L li ic := (congrArg Prod.snd h.step).symm

lemma Described.keeps (h : Described ζ L li x ds ics) :
    ds.map Desc.keep = ics.map fun ic => Item.keep ζ L li ic :=
  map_eq_of_forall₂ h fun _ _ hd => hd.1.keep_eq

lemma Described.tails (h : Described ζ L li x ds ics) :
    (ds.mapM fun d => d.tail ζ x) = some (ics.map fun ic =>
      if ic.1.saves (Item.keep ζ L li ic) then some (Item.chunk ζ L li ic).2 else none) := by
  refine Loop.mapM_of_forall₂ (List.forall₂_map_right_iff.mpr (h.imp fun d ic hd => ?_))
  have hle : d.keep ≤ d.haveCols + d.inLen := by
    rw [hd.1.keep_eq, hd.1.haveCols, hd.1.inLen]
    exact layerStep_keep_le _ _ _ _ _
  have hsaves : d.tailOut = ic.1.saves (Item.keep ζ L li ic) := by
    rw [hd.1.tailOut, hd.1.keep_eq]
    rfl
  rw [hd.1.tail_eq hle, hsaves]

/-- The launches of a layer do to every item what the layer does to it on its own. -/
lemma launch_eq (hL : Ls[li]? = some L) (hvalid : ∀ ic ∈ ics, ic.1.Valid Ls)
    (hstem : L.kind = .stem → ∀ ic ∈ ics, ic.2 = ic.1.audio)
    (hx : L.kind ≠ .stem → x = packed ics) :
    launch ζ L li (ics.map Prod.fst) x (lengths ics) =
      if 0 < (launched ζ L li ics).lens.sum ∧ L.tooWide then throw .invalidArg
      else pure (launched ζ L li ics) := by
  obtain ⟨ds, hds⟩ : ∃ ds, ds = makeDesc L li 0 0 (ics.map Prod.fst) (lengths ics) := ⟨_, rfl⟩
  have hin := consecutive_in L li 0 0 (ics.map Prod.fst) (lengths ics)
  have hout := consecutive_out L li 0 0 (ics.map Prod.fst) (lengths ics)
  have hdesc : Described ζ L li x ds ics :=
    hds ▸ makeDesc_of [] hL hvalid hstem hx 0
  rw [← hds] at hin hout
  rw [launch, ← hds, hdesc.lens]
  by_cases hrefused : 0 < (launched ζ L li ics).lens.sum ∧ L.tooWide = true
  · rw [if_pos hrefused]
    exact if_pos hrefused
  · rw [if_neg hrefused, hdesc.cols hin hout rfl, hdesc.tails, hdesc.keeps]
    exact if_neg hrefused

end Launch

end Kernels

end VibeVoice.Encoder
