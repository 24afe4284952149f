import VibeVoice.Attention.Rotation
import VibeVoice.KvPool.Pool
import VibeVoice.Lib.Machine

/-!
A rotated KV cache over a run of prefills and decode steps (`kv_cache.c`, `kv_quant.cu`,
`decoder.c`), in exact arithmetic and with a quantizer that changes nothing.

Queries and keys come as RoPE leaves them.  The pages a cache gets are its own, and no other cache
writes to them.

* `step`: what a call, a captured decode step or a publication of the length does to a cache, with
  the host's length and the device's two.
* `plainStep`: what was fed since the reset, and plain attention over it.
* `Placed`: the device's lengths are the host's where a call of one row goes by them.  `RefKept`:
  the reference key stays the one that all stored keys of its layer were taken against.
* `attention_plain`: a run of such actions answers as the plain one.  `stale_chunk`: a prefill
  chunk of one row does not.
-/

namespace VibeVoice.Attention

open Finset Function KvPool Machine

/-! ### A layer of the cache -/

/-- What a layer gets from its projections: of a row of the call and a head, the values. -/
structure LayerIn (R : Type*) where
  q : ℕ → ℕ → ℕ → R
  k : ℕ → ℕ → ℕ → R
  v : ℕ → ℕ → ℕ → R

/-- A layer of a cache: its reference, and the rows of its stores. -/
structure LayerCache (R : Type*) where
  refReady : Bool
  kRef : ℕ → ℕ → R
  kStore : ℕ → ℕ → ℕ → R
  vStore : ℕ → ℕ → ℕ → R

/-- Position `pos + p` gets `src p`, on its row, for every `p` below `n`. -/
def writeRows {α : Type*} (row : ℕ → ℕ) (pos n : ℕ) (src f : ℕ → α) : ℕ → α :=
  (List.range n).foldl (fun f p => update f (row (pos + p)) (src p)) f

section Store

variable {R : Type*} [Field R] [LinearOrder R] (A : Arith R)

/-- `kv_build_ref_kernel`. -/
def kvBuildRef (n : ℕ) (k : ℕ → ℕ → ℕ → R) : ℕ → ℕ → R := fun h d =>
  (∑ p ∈ range n, k p h d) / n

/-- `vv_kv_store_dev`, where `build`, `kRan` and `vRan` say which kernels run. -/
def vvKvStoreDev (row : ℕ → ℕ) (pos n : ℕ) (build kRan vRan : Bool) (x : LayerIn R)
    (l : LayerCache R) : LayerCache R :=
  if n = 0 then l
  else
    let ref := if build then kvBuildRef n x.k else l.kRef
    { l with
      kRef := ref
      kStore := if kRan then
        writeRows row pos n (fun p h => kvRotate A false fun d => x.k p h d - ref h d) l.kStore
        else l.kStore
      vStore := if vRan then writeRows row pos n (fun p h => kvRotate A false (x.v p h)) l.vStore
        else l.vStore }

end Store

/-! ### The cache and its runs -/

/-- The layers and heads of a shard, and the window of its cache. -/
structure Shape where
  firstLayer : ℕ
  lastLayer : ℕ
  first_le : firstLayer ≤ lastLayer
  nQHeads : ℕ
  nKvHeads : ℕ
  maxSeqLen : ℕ

/-- The layers of a shard. -/
def Shape.layers (S : Shape) : List ℕ := List.range' S.firstLayer (S.lastLayer + 1 - S.firstLayer)

/-- The head that the keys and values of a query head are stored under. -/
def Shape.kvHead (S : Shape) (h : ℕ) : ℕ := h / (S.nQHeads / S.nKvHeads)

/-- A cache: contiguous without `pages`.  `graph` is the captured decode step, with the layers
whose reference it builds. -/
structure KvCache (R : Type*) where
  currentLen : ℕ
  dLen : ℕ
  dLenNext : ℕ
  pages : Option (List ℕ)
  layer : ℕ → LayerCache R
  graph : Option (ℕ → Bool)

/-- What one attention writes, row by row and head by head. -/
structure Attended (R : Type*) where
  layer : ℕ
  out : ℕ → ℕ → ℕ → R

/-- Where the call of a layer fails: before it appends, in the store after some kernels, or behind
the append. -/
inductive Fault
  | before
  | store (ref kRan vRan : Bool)
  | behind
  deriving DecidableEq

/-- `kv_phys_row`, with the ids of the page table. -/
def kvPhysRow (pages : Option (List ℕ)) (t : ℕ) : ℕ :=
  match pages with
  | none => t
  | some ids => ids.getD (t / kvPageSize) 0 * kvPageSize + t % kvPageSize

namespace KvCache

variable {R : Type*} (c : KvCache R)

/-- Where a call of `n` rows stores them: `dev_pos` with one row. -/
def place (n : ℕ) : ℕ := if n = 1 then c.dLen else c.currentLen

/-- The positions that row `p` of a call sees. -/
def visible (position n p : ℕ) : ℕ :=
  if 1 < n then min (position + n) (position + p + 1) else c.dLenNext

/-- The window and the pages have room for `n` more positions. -/
def room (S : Shape) (n : ℕ) : Bool :=
  c.currentLen + n ≤ S.maxSeqLen &&
    c.pages.all fun ids => decide (c.currentLen + n ≤ ids.length * kvPageSize)

/-- `vv_kv_cache_reset`. -/
def reset : KvCache R where
  currentLen := 0
  dLen := 0
  dLenNext := 0
  pages := c.pages.map fun _ => []
  layer := fun l => { c.layer l with refReady := false }
  graph := c.graph

variable [Field R] [LinearOrder R] (A : Arith R) (scale : R) (S : Shape)

/-- The attention of a layer: queries are rotated, outputs are unrotated. -/
def attention (layer position n : ℕ) (q : ℕ → ℕ → ℕ → R) : Attended R where
  layer := layer
  out := fun p h => if p < n then
    kvRotate A true (attend A scale (kvRotate A false (q p h))
      (fun t => (c.layer layer).kStore (kvPhysRow c.pages t) (S.kvHead h))
      (fun t => (c.layer layer).vStore (kvPhysRow c.pages t) (S.kvHead h))
      (c.visible position n p))
    else 0

/-- The store of a layer. -/
def stored (layer n : ℕ) (build kRan vRan : Bool) (x : LayerIn R) : KvCache R :=
  { c with
    layer := update c.layer layer
      (vvKvStoreDev A (kvPhysRow c.pages) (c.place n) n build kRan vRan x (c.layer layer)) }

/-- `vv_kv_cache_append`, past its checks. -/
def appended (layer n : ℕ) (x : LayerIn R) : KvCache R :=
  let c' := c.stored A layer n (!(c.layer layer).refReady) true true x
  { c' with
    layer := update c'.layer layer { c'.layer layer with refReady := true }
    currentLen := if layer = S.lastLayer then c.currentLen + n else c.currentLen }

/-- `decoder_layer_impl`, up to its attention. -/
def decoderLayer (position n layer : ℕ) (x : LayerIn R) (fault : Option Fault) :
    Bool × List (Attended R) × KvCache R :=
  if c.room S n then
    match fault with
    | none =>
      (true, [(c.appended A S layer n x).attention A scale S layer position n x.q],
        c.appended A S layer n x)
    | some .before => (false, [], c)
    | some (.store ref kRan vRan) =>
      (false, [], c.stored A layer n (!(c.layer layer).refReady && ref) kRan vRan x)
    | some .behind => (false, [], c.appended A S layer n x)
  else (false, [], c)

/-- The nodes of one layer in a captured step. -/
def replayLayer (position layer : ℕ) (build : Bool) (x : LayerIn R) :
    Bool × List (Attended R) × KvCache R :=
  let c' := c.stored A layer 1 build true true x
  (true, [c'.attention A scale S layer position 1 x.q], c')

end KvCache

/-- The loop over the layers, up to the first that fails. -/
def layerLoop {σ β : Type*} (f : ℕ → σ → Bool × List β × σ) : List ℕ → σ → Bool × List β × σ
  | [], c => (true, [], c)
  | l :: ls, c =>
    let r := f l c
    if r.1 then
      let r' := layerLoop f ls r.2.2
      (r'.1, r.2.1 ++ r'.2.1, r'.2.2)
    else r

/-- What happens to a cache between two resets. -/
inductive Act (R : Type*)
  /-- `vv_kv_cache_reserve` maps pages. -/
  | reserve (ids : List ℕ)
  /-- Another cache of the pool writes a row. -/
  | others (layer row : ℕ) (k v : ℕ → ℕ → R)
  /-- `vv_kv_cache_publish_len`. -/
  | publish
  /-- A chunk of `vv_decoder_prefill`. -/
  | chunk (n : ℕ) (xs : ℕ → LayerIn R) (faults : ℕ → Option Fault)
  /-- `vv_decoder_step`, behind the caller's check of the window. -/
  | decode (xs : ℕ → LayerIn R) (faults : ℕ → Option Fault)
  /-- A decode step is captured, or fails to be past some layers. -/
  | capture (fault : Option ℕ)
  /-- The captured step is launched. -/
  | replay (xs : ℕ → LayerIn R)

section Step

variable {R : Type*} [Field R] [LinearOrder R] (A : Arith R) (scale : R) (S : Shape)

/-- The layers of a call of `n` rows. -/
def KvCache.layers (n : ℕ) (xs : ℕ → LayerIn R) (faults : ℕ → Option Fault) (c : KvCache R) :
    Bool × List (Attended R) × KvCache R :=
  layerLoop (fun l c' => c'.decoderLayer A scale S c.currentLen n l (xs l) (faults l)) S.layers c

/-- The layers of the captured step. -/
def KvCache.replayed (build : ℕ → Bool) (xs : ℕ → LayerIn R) (c : KvCache R) :
    Bool × List (Attended R) × KvCache R :=
  layerLoop (fun l c' => c'.replayLayer A scale S c.currentLen l (build l) (xs l)) S.layers c

/-- One action, with the attentions it computes. -/
def step (c : KvCache R) : Act R → Option (List (Attended R) × KvCache R)
  | .reserve ids =>
    match c.pages with
    | none => none
    | some own =>
      if (own ++ ids).Nodup then some ([], { c with pages := some (own ++ ids) }) else none
  | .others layer row k v =>
    match c.pages with
    | none => none
    | some own =>
      if row / kvPageSize ∈ own then none
      else some ([], { c with
        layer := update c.layer layer { c.layer layer with
          kStore := update (c.layer layer).kStore row k
          vStore := update (c.layer layer).vStore row v } })
  | .publish => some ([], { c with dLen := c.currentLen, dLenNext := c.currentLen + 1 })
  | .chunk n xs faults => some (c.layers A scale S n xs faults).2
  | .decode xs faults =>
    if c.room S 1 then
      let r := { c with dLenNext := c.dLen + 1 }.layers A scale S 1 xs faults
      some (r.2.1, { r.2.2 with dLen := if r.1 then c.dLen + 1 else c.dLen })
    else none
  | .capture fault =>
    let reached := if c.room S 1 then fault.getD S.layers.length else 0
    let done := c.room S 1 ∧ fault = none
    some ([], { c with
      layer := fun l =>
        if l ∈ S.layers.take reached then { c.layer l with refReady := true } else c.layer l
      graph := if done then some fun l => !(c.layer l).refReady else none })
  | .replay xs =>
    match c.graph with
    | none => none
    | some build =>
      if c.room S 1 then
        let r := { c with dLenNext := c.dLen + 1 }.replayed A scale S build xs
        some (r.2.1, { r.2.2 with dLen := c.dLen + 1, currentLen := c.currentLen + 1 })
      else none

/-- The reference of a layer stays the one that its stored keys were taken against. -/
def RefKept (c : KvCache R) (a : Act R) : Prop :=
  ∀ out c', step A scale S c a = some (out, c') →
    ∀ l ∈ S.layers, (c'.layer l).kRef = (c.layer l).kRef ∨ c.currentLen = 0

end Step

/-- The device's lengths are the host's where they are read: `vv_decoder_step` and the captured one
set the second themselves. -/
def Placed {R : Type*} (c : KvCache R) : Act R → Prop
  | .chunk n .. => n = 1 → c.dLen = c.currentLen ∧ c.dLenNext = c.currentLen + 1
  | .decode .. | .replay .. => c.dLen = c.currentLen
  | _ => True

/-! ### What was fed -/

/-- Position `pos + p` gets `src p`, for every `p` below `n`. -/
def given {α : Type*} (pos n : ℕ) (src f : ℕ → α) : ℕ → α := fun t =>
  if pos ≤ t ∧ t < pos + n then src (t - pos) else f t

/-- The keys and values that a layer was given, by position. -/
structure LayerFed (R : Type*) where
  keys : ℕ → ℕ → ℕ → R
  vals : ℕ → ℕ → ℕ → R

/-- What a shard was fed since the reset, and the positions that its pages take. -/
structure Fed (R : Type*) where
  len : ℕ
  slots : Option ℕ
  layer : ℕ → LayerFed R

/-- Nothing was fed. -/
def KvCache.fresh {R : Type*} [Zero R] (c : KvCache R) : Fed R :=
  ⟨0, c.pages.map fun _ => 0, fun _ => ⟨0, 0⟩⟩

section Plain

variable {R : Type*} [Field R] [LinearOrder R] (A : Arith R) (scale : R) (S : Shape)

/-- A layer is given `n` rows from position `pos` on. -/
def Fed.take (pos n layer : ℕ) (x : LayerIn R) (f : Fed R) : Fed R where
  len := if layer = S.lastLayer then pos + n else f.len
  slots := f.slots
  layer := update f.layer layer
    ⟨given pos n x.k (f.layer layer).keys, given pos n x.v (f.layer layer).vals⟩

/-- Every row attends to all positions up to its own. -/
def Fed.attention (pos n layer : ℕ) (q : ℕ → ℕ → ℕ → R) (f : Fed R) : Attended R where
  layer := layer
  out := fun p h => if p < n then
    attend A scale (q p h) (fun t => (f.layer layer).keys t (S.kvHead h))
      (fun t => (f.layer layer).vals t (S.kvHead h)) (pos + p + 1)
    else 0

/-- The window and the pages have room for `n` more positions. -/
def Fed.room (n : ℕ) (f : Fed R) : Bool :=
  f.len + n ≤ S.maxSeqLen && f.slots.all fun m => decide (f.len + n ≤ m)

/-- A layer of a call: it has its rows unless there is no room or it fails before it has stored
them. -/
def plainLayer (pos n layer : ℕ) (x : LayerIn R) (fault : Option Fault) (f : Fed R) :
    Bool × List (Attended R) × Fed R :=
  if f.room S n then
    match fault with
    | none => (true, [(f.take S pos n layer x).attention A scale S pos n layer x.q],
        f.take S pos n layer x)
    | some .behind => (false, [], f.take S pos n layer x)
    | some _ => (false, [], f)
  else (false, [], f)

/-- The layers of a call. -/
def Fed.layers (n : ℕ) (xs : ℕ → LayerIn R) (faults : ℕ → Option Fault) (f : Fed R) :
    Bool × List (Attended R) × Fed R :=
  layerLoop (fun l => plainLayer A scale S f.len n l (xs l) (faults l)) S.layers f

/-- What an action feeds and attends to. -/
def plainStep (f : Fed R) : Act R → List (Attended R) × Fed R
  | .reserve ids => ([], { f with slots := f.slots.map (· + ids.length * kvPageSize) })
  | .chunk n xs faults => (f.layers A scale S n xs faults).2
  | .decode xs faults => (f.layers A scale S 1 xs faults).2
  | .replay xs =>
    let r := f.layers A scale S 1 xs fun _ => none
    (r.2.1, { r.2.2 with len := f.len + 1 })
  | _ => ([], f)

/-- What a run feeds. -/
def plainRun (f : Fed R) (as : List (Act R)) : Fed R :=
  as.foldl (fun f a => (plainStep A scale S f a).2) f

end Plain

/-! ### What the rows of a layer hold -/

section Rows

variable {α : Type*} {row : ℕ → ℕ} {pos n r : ℕ} {src f : ℕ → α}

lemma writeRows_succ :
    writeRows row pos (n + 1) src f =
      update (writeRows row pos n src f) (row (pos + n)) (src n) := by
  rw [writeRows, List.range_succ, List.foldl_append]
  rfl

lemma writeRows_of_ne (h : ∀ p < n, row (pos + p) ≠ r) : writeRows row pos n src f r = f r := by
  induction n with
  | zero => rfl
  | succ n ih =>
    rw [writeRows_succ, update_of_ne (h n (Nat.lt_succ_self n)).symm]
    exact ih fun p hp => h p (Nat.lt_succ_of_lt hp)

lemma writeRows_at (hrow : Set.InjOn row (Set.Iio (pos + n))) {p : ℕ} (hp : p < n) :
    writeRows row pos n src f (row (pos + p)) = src p := by
  induction n with
  | zero => exact absurd hp (Nat.not_lt_zero p)
  | succ n ih =>
    rw [writeRows_succ]
    rcases Nat.lt_succ_iff_lt_or_eq.mp hp with hlt | rfl
    · have hne : row (pos + p) ≠ row (pos + n) := fun heq => by
        have := hrow (Set.mem_Iio.mpr (by omega)) (Set.mem_Iio.mpr (by omega)) heq
        omega
      rw [update_of_ne hne]
      exact ih (hrow.mono (Set.Iio_subset_Iio (by omega))) hlt
    · rw [update_self]

end Rows

section Given

variable {α : Type*} {pos n t p : ℕ} {src f : ℕ → α}

lemma given_of_lt (h : t < pos) : given pos n src f t = f t := if_neg fun ht => by omega

lemma given_add (h : p < n) : given pos n src f (pos + p) = src p := by
  rw [given, if_pos ⟨by omega, by omega⟩, Nat.add_sub_cancel_left]

end Given

section Holds

variable {R : Type*} [Field R] [LinearOrder R] {A : Arith R} {row : ℕ → ℕ} {pos n : ℕ}
  {build kRan vRan : Bool} {x : LayerIn R} {l : LayerCache R} {f : LayerFed R}

/-- The first `m` positions are stored rotated, the keys less the reference. -/
def LayerCache.Holds (A : Arith R) (row : ℕ → ℕ) (m : ℕ) (l : LayerCache R) (f : LayerFed R) :
    Prop :=
  ∀ t < m, ∀ h, l.kStore (row t) h = rotate A (f.keys t h - l.kRef h) ∧
    l.vStore (row t) h = rotate A (f.vals t h)

lemma LayerCache.Holds.before (h : l.Holds A row (pos + n) f) : l.Holds A row pos f :=
  fun t ht => h t (Nat.lt_add_right n ht)

lemma LayerCache.Holds.ready {m : ℕ} (h : l.Holds A row m f) :
    LayerCache.Holds A row m { l with refReady := true } f := by
  rw [LayerCache.Holds]
  dsimp only
  exact h

/-- A store leaves the positions before it as they are. -/
lemma LayerCache.Holds.store (hl : l.Holds A row pos f)
    (hrow : Set.InjOn row (Set.Iio (pos + n)))
    (href : (vvKvStoreDev A row pos n build kRan vRan x l).kRef = l.kRef ∨ pos = 0) :
    (vvKvStoreDev A row pos n build kRan vRan x l).Holds A row pos f := by
  intro t ht h
  have href := href.resolve_right (by omega)
  have hne : ∀ p < n, row (pos + p) ≠ row t := fun p hp heq => by
    have := hrow (Set.mem_Iio.mpr (by omega)) (Set.mem_Iio.mpr (by omega)) heq
    omega
  rw [href]
  rw [vvKvStoreDev]
  split
  · exact hl t ht h
  cases kRan <;> cases vRan <;>
    simp only [Bool.false_eq_true, if_false, if_true, writeRows_of_ne hne] <;>
    exact hl t ht h

/-- A store that runs adds its positions. -/
lemma LayerCache.Holds.store_all (hl : l.Holds A row pos f)
    (hrow : Set.InjOn row (Set.Iio (pos + n)))
    (href : (vvKvStoreDev A row pos n build true true x l).kRef = l.kRef ∨ pos = 0) :
    (vvKvStoreDev A row pos n build true true x l).Holds A row (pos + n)
      ⟨given pos n x.k f.keys, given pos n x.v f.vals⟩ := by
  intro t ht h
  dsimp only
  by_cases hlt : t < pos
  · rw [given_of_lt hlt, given_of_lt hlt]
    exact hl.store hrow href t hlt h
  obtain ⟨p, rfl⟩ := Nat.exists_eq_add_of_le (not_lt.mp hlt)
  have hp : p < n := by omega
  rw [vvKvStoreDev, if_neg (by omega), given_add hp, given_add hp]
  simp only [if_true, writeRows_at hrow hp, kvRotate_false, and_true]
  exact congrArg (rotate A) (funext fun d => (Pi.sub_apply ..).symm)

end Holds

/-! ### Pages -/

section Pages

variable {pages : Option (List ℕ)} {own ids : List ℕ} {t m row : ℕ}

/-- The pages are different, and the first `m` positions are on them. -/
structure Mapped (pages : Option (List ℕ)) (m : ℕ) : Prop where
  nodup : ∀ ids ∈ pages, ids.Nodup
  le : ∀ ids ∈ pages, m ≤ ids.length * kvPageSize

lemma div_lt_of_mapped (h : Mapped (some ids) m) (ht : t < m) : t / kvPageSize < ids.length :=
  (Nat.div_lt_iff_lt_mul (by decide)).mpr (ht.trans_le (h.le ids rfl))

lemma kvPhysRow_some (h : Mapped (some ids) m) (ht : t < m) :
    kvPhysRow (some ids) t =
      ids.get ⟨t / kvPageSize, div_lt_of_mapped h ht⟩ * kvPageSize + t % kvPageSize := by
  rw [kvPhysRow, List.getD_eq_getElem _ _ (div_lt_of_mapped h ht)]
  rfl

lemma kvPhysRow_div (h : Mapped (some ids) m) (ht : t < m) :
    kvPhysRow (some ids) t / kvPageSize = ids.get ⟨t / kvPageSize, div_lt_of_mapped h ht⟩ := by
  have hmod : t % kvPageSize < kvPageSize := Nat.mod_lt t (by decide)
  rw [kvPhysRow_some h ht]
  simp only [kvPageSize] at hmod ⊢
  omega

/-- Different positions are on different rows. -/
lemma injOn_kvPhysRow (h : Mapped pages m) : Set.InjOn (kvPhysRow pages) (Set.Iio m) := by
  intro t ht u hu heq
  cases pages with
  | none => exact heq
  | some ids =>
    have hdiv := congrArg (· / kvPageSize) heq
    have hmod := congrArg (· % kvPageSize) heq
    simp only [kvPhysRow_div h ht, kvPhysRow_div h hu] at hdiv
    have hdiv := Fin.mk.inj ((h.nodup ids rfl).injective_get hdiv)
    simp only [kvPhysRow, Nat.mul_add_mod_self_right, Nat.mod_mod] at hmod
    rw [← Nat.div_add_mod t kvPageSize, ← Nat.div_add_mod u kvPageSize, hdiv, hmod]

lemma kvPhysRow_append (h : Mapped (some own) m) (ht : t < m) :
    kvPhysRow (some (own ++ ids)) t = kvPhysRow (some own) t := by
  rw [kvPhysRow, kvPhysRow, List.getD_append _ _ _ _ (div_lt_of_mapped h ht)]

/-- A row of another page is no row of a position. -/
lemma kvPhysRow_ne (h : Mapped (some own) m) (ht : t < m) (hrow : row / kvPageSize ∉ own) :
    kvPhysRow (some own) t ≠ row := by
  rintro rfl
  rw [kvPhysRow_div h ht] at hrow
  exact hrow (List.getElem_mem _)

end Pages

/-! ### The loop over the layers -/

section Loop

variable {σ β α : Type*} {f : ℕ → σ → Bool × List β × σ} {c : σ} {l : ℕ} {ls : List ℕ}

lemma layerLoop_cons_done (h : (f l c).1 = true) :
    layerLoop f (l :: ls) c = ((layerLoop f ls (f l c).2.2).1,
      (f l c).2.1 ++ (layerLoop f ls (f l c).2.2).2.1, (layerLoop f ls (f l c).2.2).2.2) := by
  rw [layerLoop]
  exact if_pos h

lemma layerLoop_cons_failed (h : ¬(f l c).1 = true) : layerLoop f (l :: ls) c = f l c := by
  rw [layerLoop]
  exact if_neg h

lemma layerLoop_done (hf : ∀ l c, (f l c).1 = true) (ls : List ℕ) (c : σ) :
    (layerLoop f ls c).1 = true := by
  induction ls generalizing c with
  | nil => rfl
  | cons l ls ih =>
    rw [layerLoop_cons_done (hf l c)]
    exact ih (f l c).2.2

/-- What the call of no layer changes, the loop does not. -/
lemma layerLoop_keeps (part : σ → α) (hf : ∀ l ∈ ls, ∀ c, part (f l c).2.2 = part c) (c : σ) :
    part (layerLoop f ls c).2.2 = part c := by
  induction ls generalizing c with
  | nil => rfl
  | cons l ls ih =>
    by_cases hok : (f l c).1 = true
    · rw [layerLoop_cons_done hok]
      exact (ih (fun i hi => hf i (.tail l hi)) (f l c).2.2).trans (hf l (.head ls) c)
    · rw [layerLoop_cons_failed hok]
      exact hf l (.head ls) c

end Loop

section Frame

variable {R : Type*} {c : KvCache R} {f : ℕ → KvCache R → Bool × List (Attended R) × KvCache R}

/-- What the call of a layer leaves alone. -/
def KvCache.fixed (c : KvCache R) : Option (List ℕ) × ℕ × ℕ × Option (ℕ → Bool) :=
  (c.pages, c.dLen, c.dLenNext, c.graph)

/-- A step that touches layer `l`, and the length. -/
def Only (l : ℕ) (c c' : KvCache R) : Prop := c'.fixed = c.fixed ∧ ∀ i ≠ l, c'.layer i = c.layer i

lemma layerLoop_layer (hf : ∀ l c, Only l c (f l c).2.2) {ls : List ℕ} {i : ℕ} (hi : i ∉ ls)
    (c : KvCache R) : (layerLoop f ls c).2.2.layer i = c.layer i :=
  layerLoop_keeps (·.layer i) (fun l hl c => (hf l c).2 i fun h => hi (h ▸ hl)) c

lemma layerLoop_fixed (hf : ∀ l c, Only l c (f l c).2.2) (ls : List ℕ) (c : KvCache R) :
    (layerLoop f ls c).2.2.fixed = c.fixed :=
  layerLoop_keeps KvCache.fixed (fun l _ c => (hf l c).1) c

lemma mapped_of_room {S : Shape} {n : ℕ} (hnodup : ∀ ids ∈ c.pages, ids.Nodup)
    (h : c.room S n = true) :
    Mapped c.pages (c.currentLen + n) := by
  obtain ⟨-, hpages⟩ := Bool.and_eq_true_iff.mp h
  refine ⟨hnodup, fun ids hids => ?_⟩
  rw [Option.mem_def.mp hids] at hpages
  exact of_decide_eq_true hpages

variable [Field R] [LinearOrder R] {A : Arith R} {scale : R} {S : Shape} {pos n l : ℕ}

lemma only_stored (build kRan vRan : Bool) (x : LayerIn R) :
    Only l c (c.stored A l n build kRan vRan x) :=
  ⟨rfl, fun _ hi => update_of_ne hi ..⟩

lemma only_appended (x : LayerIn R) : Only l c (c.appended A S l n x) :=
  ⟨rfl, fun _ hi => (update_of_ne hi ..).trans (update_of_ne hi ..)⟩

lemma only_decoderLayer (x : LayerIn R) (fault : Option Fault) :
    Only l c (c.decoderLayer A scale S pos n l x fault).2.2 := by
  unfold KvCache.decoderLayer
  split
  · split
    · exact only_appended x
    · exact ⟨rfl, fun _ _ => rfl⟩
    · exact only_stored ..
    · exact only_appended x
  · exact ⟨rfl, fun _ _ => rfl⟩

/-- A plain step of layer `l` touches it, and the length. -/
lemma only_plainLayer (x : LayerIn R) (fault : Option Fault) (p : Fed R) :
    (plainLayer A scale S pos n l x fault p).2.2.slots = p.slots ∧
      ∀ i ≠ l, (plainLayer A scale S pos n l x fault p).2.2.layer i = p.layer i := by
  unfold plainLayer
  split
  · split
    · exact ⟨rfl, fun _ hi => update_of_ne hi ..⟩
    · exact ⟨rfl, fun _ hi => update_of_ne hi ..⟩
    · exact ⟨rfl, fun _ _ => rfl⟩
  · exact ⟨rfl, fun _ _ => rfl⟩

end Frame

section Call

variable {R : Type*} [Field R] [LinearOrder R] {A : Arith R} {scale : R} {S : Shape}
  {host : Prop} {pages : Option (List ℕ)} {pos n l k : ℕ} {ls : List ℕ}
  {f : ℕ → KvCache R → Bool × List (Attended R) × KvCache R}
  {g : ℕ → Fed R → Bool × List (Attended R) × Fed R} {c : KvCache R} {p : Fed R}

/-- What a call has done with the layers `ls` of a cache of `pos` positions, beside the plain call:
their lengths agree where `host` says so. -/
structure CallSpec (A : Arith R) (host : Prop) (pages : Option (List ℕ)) (pos n : ℕ)
    (ls : List ℕ) (r : Bool × List (Attended R) × KvCache R)
    (r' : Bool × List (Attended R) × Fed R) : Prop where
  ok : r.1 = r'.1
  out : r.2.1 = r'.2.1
  before : ∀ l ∈ ls, (r.2.2.layer l).Holds A (kvPhysRow pages) pos (r'.2.2.layer l)
  done : r.1 = true →
    ∀ l ∈ ls, (r.2.2.layer l).Holds A (kvPhysRow pages) (pos + n) (r'.2.2.layer l)
  host : host → r.2.2.currentLen = r'.2.2.len
  len : r'.2.2.len = pos ∨ (r'.2.2.len = pos + n ∧ Mapped pages (pos + n)) ∧
    ∀ l ∈ ls, (r.2.2.layer l).Holds A (kvPhysRow pages) (pos + n) (r'.2.2.layer l)

/-- A layer that is done, and the layers behind it. -/
lemma CallSpec.cons {r t : Bool × List (Attended R) × KvCache R}
    {r' t' : Bool × List (Attended R) × Fed R} (hl : CallSpec A host pages pos n [l] r r')
    (hok : r.1 = true) (hls : CallSpec A host pages pos n ls t t')
    (hsame : t.2.2.layer l = r.2.2.layer l) (hsame' : t'.2.2.layer l = r'.2.2.layer l) :
    CallSpec A host pages pos n (l :: ls) (t.1, r.2.1 ++ t.2.1, t.2.2)
      (t'.1, r'.2.1 ++ t'.2.1, t'.2.2) := by
  have hdone : (t.2.2.layer l).Holds A (kvPhysRow pages) (pos + n) (t'.2.2.layer l) := by
    rw [hsame, hsame']
    exact hl.done hok l (.head [])
  exact {
    ok := hls.ok
    out := congrArg₂ (· ++ ·) hl.out hls.out
    before := List.forall_mem_cons.mpr ⟨hdone.before, hls.before⟩
    done := fun h => List.forall_mem_cons.mpr ⟨hdone, hls.done h⟩
    host := hls.host
    len := hls.len.imp_right fun h => ⟨h.1, List.forall_mem_cons.mpr ⟨hdone, h.2⟩⟩ }

/-- A layer that fails, and the layers behind it that are not called. -/
lemma CallSpec.stop {r : Bool × List (Attended R) × KvCache R}
    {r' : Bool × List (Attended R) × Fed R} (hl : CallSpec A host pages pos n [l] r r')
    (hfail : ¬r.1 = true)
    (hls : ∀ i ∈ ls, (r.2.2.layer i).Holds A (kvPhysRow pages) pos (r'.2.2.layer i))
    (hlast : r'.2.2.len = pos ∨ ls = []) : CallSpec A host pages pos n (l :: ls) r r' where
  ok := hl.ok
  out := hl.out
  before := List.forall_mem_cons.mpr ⟨hl.before l (.head []), hls⟩
  done h := absurd h hfail
  host := hl.host
  len := hlast.elim .inl fun h => h ▸ hl.len

/-- What every layer does to its own part, the loop does to all of them. -/
lemma layerLoop_spec {o : KvCache R} {slots : Option ℕ}
    (hf : ∀ l c, Only l c (f l c).2.2)
    (hg : ∀ l p, (g l p).2.2.slots = p.slots ∧ ∀ i ≠ l, (g l p).2.2.layer i = p.layer i)
    (hstep : ∀ l c p, c.fixed = o.fixed → p.slots = slots → (host → c.currentLen = p.len) →
      p.len = pos → (c.layer l).Holds A (kvPhysRow pages) pos (p.layer l) →
      (((f l c).2.2.layer l).kRef = (c.layer l).kRef ∨ pos = 0) →
      CallSpec A host pages pos n [l] (f l c) (g l p) ∧
        ((g l p).2.2.len = pos ∨ l = S.lastLayer))
    (hk : l + k = S.lastLayer + 1) (hfixed : c.fixed = o.fixed) (hslots : p.slots = slots)
    (hhost : host → c.currentLen = p.len)
    (hlen : p.len = pos ∨ k = 0 ∧ p.len = pos + n ∧ Mapped pages (pos + n))
    (hholds : ∀ i ∈ List.range' l k, (c.layer i).Holds A (kvPhysRow pages) pos (p.layer i))
    (hkept : ∀ i ∈ List.range' l k,
      ((layerLoop f (List.range' l k) c).2.2.layer i).kRef = (c.layer i).kRef ∨ pos = 0) :
    CallSpec A host pages pos n (List.range' l k) (layerLoop f (List.range' l k) c)
      (layerLoop g (List.range' l k) p) := by
  induction k generalizing l c p with
  | zero =>
    exact ⟨rfl, rfl, fun _ h => absurd h List.not_mem_nil,
      fun _ _ h => absurd h List.not_mem_nil, hhost,
      hlen.imp_right fun h => ⟨h.2, fun _ h => absurd h List.not_mem_nil⟩⟩
  | succ k ih =>
    have hlen := hlen.resolve_right fun h => Nat.succ_ne_zero k h.1
    have hnot : l ∉ List.range' (l + 1) k := fun h => by
      have := (List.mem_range'_1.mp h).1
      omega
    have hothers : ∀ i ∈ List.range' (l + 1) k, (f l c).2.2.layer i = c.layer i ∧
        (g l p).2.2.layer i = p.layer i := fun i hi =>
      have hne := ne_of_mem_of_not_mem hi hnot
      ⟨(hf l c).2 i hne, (hg l p).2 i hne⟩
    have hbehind : ∀ i ∈ List.range' (l + 1) k,
        ((f l c).2.2.layer i).Holds A (kvPhysRow pages) pos ((g l p).2.2.layer i) := by
      intro i hi
      rw [(hothers i hi).1, (hothers i hi).2]
      exact hholds i (.tail l hi)
    rw [List.range'_succ, List.forall_mem_cons] at hkept
    have hspec := hstep l c p hfixed hslots hhost hlen
      (hholds l (List.mem_range'_1.mpr (by omega)))
    rw [List.range'_succ]
    by_cases hok : (f l c).1 = true
    · have hsame := layerLoop_layer hf hnot (f l c).2.2
      have hsame' : (layerLoop g (List.range' (l + 1) k) (g l p).2.2).2.2.layer l =
          (g l p).2.2.layer l :=
        layerLoop_keeps (fun p => p.layer l)
          (fun i hi p => (hg i p).2 l (ne_of_mem_of_not_mem hi hnot).symm) (g l p).2.2
      rw [layerLoop_cons_done hok] at hkept ⊢
      rw [hsame] at hkept
      obtain ⟨hspec, hlast⟩ := hspec hkept.1
      rw [layerLoop_cons_done (hspec.ok ▸ hok)]
      refine hspec.cons hok (ih (by omega) ((hf l c).1.trans hfixed) ((hg l p).1.trans hslots)
        hspec.host ?_ hbehind fun i hi => ?_) hsame hsame'
      · exact hlast.elim .inl fun h => hspec.len.imp_right fun hlen => ⟨by omega, hlen.1⟩
      · rw [(hothers i hi).1]
        exact hkept.2 i hi
    · rw [layerLoop_cons_failed hok] at hkept ⊢
      obtain ⟨hspec, hlast⟩ := hspec hkept.1
      rw [layerLoop_cons_failed (hspec.ok ▸ hok)]
      refine hspec.stop hok hbehind (hlast.imp_right fun h => ?_)
      rw [show k = 0 by omega]
      rfl

omit [Field R] [LinearOrder R] in
lemma place_eq (hlen : c.currentLen = pos) (hplace : n = 1 → c.dLen = pos) : c.place n = pos := by
  rw [KvCache.place]
  split
  · exact hplace ‹_›
  · exact hlen

lemma attention_eq (scale : R) (S : Shape) (q : ℕ → ℕ → ℕ → R)
    (h : (c.layer l).Holds A (kvPhysRow c.pages) (pos + n) (p.layer l))
    (hnext : n = 1 → c.dLenNext = pos + 1) :
    c.attention A scale S l pos n q = p.attention A scale S pos n l q := by
  rw [KvCache.attention, Fed.attention]
  congr 1
  funext i h'
  split
  · have hvisible : c.visible pos n i = pos + i + 1 := by
      rw [KvCache.visible]
      split
      · omega
      · have := hnext (by omega)
        omega
    rw [kvRotate_true, kvRotate_false, hvisible]
    exact attend_rotate A scale (fun t ht => (h t (by omega) _).1) fun t ht => (h t (by omega) _).2
  · rfl

lemma holds_stored (hmapped : Mapped c.pages (pos + n)) (hplace : c.place n = pos)
    {m : LayerFed R} (hl : (c.layer l).Holds A (kvPhysRow c.pages) pos m) {build kRan vRan : Bool}
    {x : LayerIn R} (hkept : ((c.stored A l n build kRan vRan x).layer l).kRef = (c.layer l).kRef ∨
      pos = 0) :
    ((c.stored A l n build kRan vRan x).layer l).Holds A (kvPhysRow c.pages) pos m := by
  simp only [KvCache.stored, update_self, hplace] at hkept ⊢
  exact hl.store (injOn_kvPhysRow hmapped) hkept

lemma holds_stored_all (hmapped : Mapped c.pages (pos + n)) (hplace : c.place n = pos)
    (hl : (c.layer l).Holds A (kvPhysRow c.pages) pos (p.layer l)) {build : Bool} {x : LayerIn R}
    (hkept : ((c.stored A l n build true true x).layer l).kRef = (c.layer l).kRef ∨ pos = 0) :
    ((c.stored A l n build true true x).layer l).Holds A (kvPhysRow c.pages) (pos + n)
      ((p.take S pos n l x).layer l) := by
  simp only [KvCache.stored, Fed.take, update_self, hplace] at hkept ⊢
  exact hl.store_all (injOn_kvPhysRow hmapped) hkept

lemma holds_appended (hmapped : Mapped c.pages (pos + n)) (hplace : c.place n = pos)
    (hl : (c.layer l).Holds A (kvPhysRow c.pages) pos (p.layer l)) {x : LayerIn R}
    (hkept : ((c.appended A S l n x).layer l).kRef = (c.layer l).kRef ∨ pos = 0) :
    ((c.appended A S l n x).layer l).Holds A (kvPhysRow c.pages) (pos + n)
      ((p.take S pos n l x).layer l) := by
  simp only [KvCache.appended, update_self] at hkept ⊢
  exact (holds_stored_all hmapped hplace hl hkept).ready

omit [Field R] [LinearOrder R] in
lemma room_eq (hlen : c.currentLen = p.len)
    (hslots : p.slots = c.pages.map fun ids => ids.length * kvPageSize) :
    c.room S n = p.room S n := by
  rw [KvCache.room, Fed.room, hlen, hslots]
  cases c.pages <;> rfl

/-- A layer that has its rows. -/
lemma CallSpec.taken {x : LayerIn R} {b : Bool} {out out' : List (Attended R)}
    (hall : (c.layer l).Holds A (kvPhysRow pages) (pos + n) ((p.take S pos n l x).layer l))
    (hmapped : Mapped pages (pos + n)) (hpos : p.len = pos) (hout : out = out')
    (hhost : host → c.currentLen = (p.take S pos n l x).len) :
    CallSpec A host pages pos n [l] (b, out, c) (b, out', p.take S pos n l x) ∧
      ((p.take S pos n l x).len = pos ∨ l = S.lastLayer) := by
  have hall : ∀ i ∈ [l],
      (c.layer i).Holds A (kvPhysRow pages) (pos + n) ((p.take S pos n l x).layer i) :=
    List.forall_mem_singleton.mpr hall
  have hlen : (p.take S pos n l x).len = pos ∨ l = S.lastLayer ∧
      (p.take S pos n l x).len = pos + n := by
    rw [Fed.take]
    by_cases hlast : l = S.lastLayer
    · exact .inr ⟨hlast, if_pos hlast⟩
    · exact .inl ((if_neg hlast).trans hpos)
  exact ⟨⟨rfl, hout, fun i hi => (hall i hi).before, fun _ => hall, hhost,
    hlen.imp_right fun h => ⟨⟨h.2, hmapped⟩, hall⟩⟩, hlen.imp_right And.left⟩

/-- A layer of a call, whether it fails or not. -/
lemma decoderLayer_spec (hnodup : ∀ ids ∈ c.pages, ids.Nodup)
    (hslots : p.slots = c.pages.map fun ids => ids.length * kvPageSize)
    (hlen : c.currentLen = p.len) (hpos : p.len = pos)
    (hplace : n = 1 → c.dLen = pos ∧ c.dLenNext = pos + 1)
    (hl : (c.layer l).Holds A (kvPhysRow c.pages) pos (p.layer l)) {x : LayerIn R}
    {fault : Option Fault}
    (hkept : ((c.decoderLayer A scale S pos n l x fault).2.2.layer l).kRef = (c.layer l).kRef ∨
      pos = 0) :
    CallSpec A True c.pages pos n [l] (c.decoderLayer A scale S pos n l x fault)
        (plainLayer A scale S pos n l x fault p) ∧
      ((plainLayer A scale S pos n l x fault p).2.2.len = pos ∨ l = S.lastLayer) := by
  have hat := place_eq (hlen.trans hpos) fun h => (hplace h).1
  have hidle : CallSpec A True c.pages pos n [l] (false, [], c) (false, [], p) :=
    ⟨rfl, rfl, List.forall_mem_singleton.mpr hl, nofun, fun _ => hlen, .inl hpos⟩
  have happended : (c.appended A S l n x).currentLen = (p.take S pos n l x).len := by
    rw [KvCache.appended, Fed.take, hlen, hpos]
  unfold KvCache.decoderLayer plainLayer at *
  rw [← room_eq hlen hslots]
  by_cases hroom : c.room S n = true
  · have hmapped : Mapped c.pages (pos + n) := hpos ▸ hlen ▸ mapped_of_room hnodup hroom
    rw [if_pos hroom] at hkept
    rw [if_pos hroom, if_pos hroom]
    rcases fault with _ | _ | ⟨ref, kRan, vRan⟩ | _
    · have hall := holds_appended hmapped hat hl hkept
      have hout := attention_eq (c := c.appended A S l n x) scale S x.q hall fun h => (hplace h).2
      exact CallSpec.taken hall hmapped hpos (congrArg (List.cons · []) hout) fun _ => happended
    · exact ⟨hidle, .inl hpos⟩
    · exact ⟨⟨rfl, rfl, List.forall_mem_singleton.mpr (holds_stored hmapped hat hl hkept), nofun,
        fun _ => hlen, .inl hpos⟩, .inl hpos⟩
    · exact CallSpec.taken (holds_appended hmapped hat hl hkept) hmapped hpos rfl fun _ => happended
  · rw [if_neg hroom, if_neg hroom]
    exact ⟨hidle, .inl hpos⟩

/-- A layer of a replayed step. -/
lemma replayLayer_spec (hmapped : Mapped c.pages (pos + 1)) (hroom : p.room S 1 = true)
    (hpos : p.len = pos) (hplace : c.dLen = pos ∧ c.dLenNext = pos + 1)
    (hl : (c.layer l).Holds A (kvPhysRow c.pages) pos (p.layer l)) {build : Bool} {x : LayerIn R}
    (hkept : ((c.replayLayer A scale S pos l build x).2.2.layer l).kRef = (c.layer l).kRef ∨
      pos = 0) :
    CallSpec A False c.pages pos 1 [l] (c.replayLayer A scale S pos l build x)
        (plainLayer A scale S pos 1 l x none p) ∧
      ((plainLayer A scale S pos 1 l x none p).2.2.len = pos ∨ l = S.lastLayer) := by
  have hall := holds_stored_all (S := S) hmapped ((if_pos rfl).trans hplace.1) hl hkept
  have hout := attention_eq (c := c.stored A l 1 build true true x) scale S x.q hall
    fun _ => hplace.2
  unfold plainLayer
  rw [if_pos hroom]
  exact CallSpec.taken hall hmapped hpos (congrArg (List.cons · []) hout) nofun

end Call

/-! ### Runs -/

section Run

variable {R : Type*} [Field R] [LinearOrder R] {A : Arith R} {scale : R} {S : Shape} {n : ℕ}
  {c c' : KvCache R} {f : Fed R} {out : List (Attended R)} {xs : ℕ → LayerIn R}

/-- Every layer of the shard holds what it was given. -/
structure Inv (A : Arith R) (S : Shape) (c : KvCache R) (f : Fed R) : Prop where
  len : c.currentLen = f.len
  slots : f.slots = c.pages.map fun ids => ids.length * kvPageSize
  mapped : Mapped c.pages f.len
  holds : ∀ l ∈ S.layers, (c.layer l).Holds A (kvPhysRow c.pages) f.len (f.layer l)

lemma inv_reset (c : KvCache R) : Inv A S c.reset c.fresh := by
  refine ⟨rfl, ?_, ⟨fun ids hids => ?_, fun ids _ => Nat.zero_le _⟩,
    fun l _ t ht => absurd ht t.not_lt_zero⟩
  · rw [KvCache.fresh, KvCache.reset, Option.map_map]
    exact congrArg (c.pages.map ·) (funext fun _ => (Nat.zero_mul _).symm)
  · obtain ⟨own, -, rfl⟩ := Option.mem_map.mp hids
    exact List.nodup_nil

lemma last_layer (S : Shape) : S.firstLayer + (S.lastLayer + 1 - S.firstLayer) = S.lastLayer + 1 :=
  Nat.add_sub_cancel' (S.first_le.trans (Nat.le_succ _))

omit [Field R] [LinearOrder R] in
lemma fixed_iff : c'.fixed = c.fixed ↔ c'.pages = c.pages ∧ c'.dLen = c.dLen ∧
    c'.dLenNext = c.dLenNext ∧ c'.graph = c.graph := by
  simp only [KvCache.fixed, Prod.mk.injEq]

/-- The layers of a call. -/
lemma layers_spec (hc : Inv A S c f) (faults : ℕ → Option Fault)
    (hplace : n = 1 → c.dLen = c.currentLen ∧ c.dLenNext = c.currentLen + 1)
    (hkept : ∀ l ∈ S.layers, ((c.layers A scale S n xs faults).2.2.layer l).kRef =
      (c.layer l).kRef ∨ c.currentLen = 0) :
    CallSpec A True c.pages f.len n S.layers (c.layers A scale S n xs faults)
      (f.layers A scale S n xs faults) := by
  rw [KvCache.layers, hc.len] at *
  refine layerLoop_spec (o := c) (fun l c => only_decoderLayer ..) (fun l p => only_plainLayer ..)
    (fun l c' p hfixed hslots hlen hpos hl hown => ?_) (last_layer S) rfl rfl (fun _ => hc.len)
    (.inl rfl) hc.holds hkept
  obtain ⟨hpages, hd, hnext, -⟩ := fixed_iff.mp hfixed
  rw [← hpages] at hl ⊢
  refine decoderLayer_spec ?_ ?_ (hlen trivial) hpos ?_ hl hown
  · rw [hpages]
    exact hc.mapped.nodup
  · rw [hpages, hslots, hc.slots]
  · rw [hd, hnext]
    exact hplace

/-- The layers of a replayed step. -/
lemma replayed_spec (hc : Inv A S c f) (hroom : c.room S 1 = true) (build : ℕ → Bool)
    (hplace : c.dLen = c.currentLen ∧ c.dLenNext = c.currentLen + 1)
    (hkept : ∀ l ∈ S.layers, ((c.replayed A scale S build xs).2.2.layer l).kRef =
      (c.layer l).kRef ∨ c.currentLen = 0) :
    CallSpec A False c.pages f.len 1 S.layers (c.replayed A scale S build xs)
      (f.layers A scale S 1 xs fun _ => none) := by
  have hmapped := mapped_of_room hc.mapped.nodup hroom
  rw [KvCache.replayed, hc.len] at *
  refine layerLoop_spec (o := c) (fun l c => only_stored ..) (fun l p => only_plainLayer ..)
    (fun l c' p hfixed hslots _ hpos hl hown => ?_) (last_layer S) rfl rfl nofun
    (.inl rfl) hc.holds hkept
  obtain ⟨hpages, hd, hnext, -⟩ := fixed_iff.mp hfixed
  rw [← hpages] at hl ⊢
  refine replayLayer_spec (hpages ▸ hmapped) ?_ hpos (hd ▸ hnext ▸ hplace) hl hown
  rw [← hroom, room_eq hc.len hc.slots, Fed.room, Fed.room, hpos, hslots]

variable (A scale S n xs)

lemma layers_fixed (faults : ℕ → Option Fault) (c : KvCache R) :
    (c.layers A scale S n xs faults).2.2.fixed = c.fixed :=
  layerLoop_fixed (f := fun l c' => c'.decoderLayer A scale S c.currentLen n l (xs l) (faults l))
    (fun l _ => only_decoderLayer (xs l) (faults l)) S.layers c

lemma replayed_fixed (build : ℕ → Bool) (c : KvCache R) :
    (c.replayed A scale S build xs).2.2.fixed = c.fixed :=
  layerLoop_fixed (f := fun l c' => c'.replayLayer A scale S c.currentLen l (build l) (xs l))
    (fun l _ => only_stored (build l) true true (xs l)) S.layers c

lemma layers_slots (faults : ℕ → Option Fault) (f : Fed R) :
    (f.layers A scale S n xs faults).2.2.slots = f.slots :=
  layerLoop_keeps Fed.slots (fun l _ p => (only_plainLayer (xs l) (faults l) p).1) f

variable {A scale S n xs}

lemma CallSpec.inv {r : Bool × List (Attended R) × KvCache R} {faults : ℕ → Option Fault}
    (hc : Inv A S c f) (hpages : r.2.2.pages = c.pages)
    (h : CallSpec A True c.pages f.len n S.layers r (f.layers A scale S n xs faults)) :
    Inv A S r.2.2 (f.layers A scale S n xs faults).2.2 := by
  refine ⟨h.host trivial, ?_, ?_, ?_⟩
  · rw [layers_slots, hc.slots, hpages]
  · rw [hpages]
    rcases h.len with hlen | ⟨⟨hlen, hmapped⟩, -⟩
    · exact hlen ▸ hc.mapped
    · exact hlen ▸ hmapped
  · rw [hpages]
    rcases h.len with hlen | ⟨⟨hlen, -⟩, hall⟩
    · rw [hlen]
      exact h.before
    · rw [hlen]
      exact hall

lemma CallSpec.inv_next {r : Bool × List (Attended R) × KvCache R}
    {r' : Bool × List (Attended R) × Fed R} (hc : Inv A S c f)
    (h : CallSpec A False c.pages f.len 1 S.layers r r') (hdone : r.1 = true)
    (hpages : r.2.2.pages = c.pages) (hslots : r'.2.2.slots = f.slots)
    {d m : ℕ} (hm : m = f.len + 1) (hmapped : Mapped c.pages (f.len + 1)) :
    Inv A S { r.2.2 with dLen := d, currentLen := m } { r'.2.2 with len := f.len + 1 } := by
  refine ⟨hm, ?_, ?_, ?_⟩ <;> dsimp only <;> rw [hpages]
  · rw [hslots, hc.slots]
  · exact hmapped
  · exact h.done hdone

lemma Inv.reserved (hc : Inv A S c f) {own ids : List ℕ} (hown : c.pages = some own)
    (hnodup : (own ++ ids).Nodup) :
    Inv A S { c with pages := some (own ++ ids) }
      { f with slots := f.slots.map (· + ids.length * kvPageSize) } := by
  obtain ⟨hlen, hslots, hmapped, hholds⟩ := hc
  rw [hown] at hslots hmapped hholds
  refine ⟨hlen, ?_, ⟨?_, ?_⟩, fun l hl t ht h => ?_⟩
  · simp only [hslots, Option.map_some, List.length_append, Nat.add_mul]
  · rintro _ ⟨⟩
    exact hnodup
  · rintro _ ⟨⟩
    rw [List.length_append, Nat.add_mul]
    exact Nat.le_add_right_of_le (hmapped.le own rfl)
  · dsimp only
    rw [kvPhysRow_append hmapped ht]
    exact hholds l hl t ht h

lemma Inv.others (hc : Inv A S c f) {own : List ℕ} {layer row : ℕ} (hown : c.pages = some own)
    (hrow : row / kvPageSize ∉ own) (k v : ℕ → ℕ → R) :
    Inv A S { c with
      layer := update c.layer layer { c.layer layer with
        kStore := update (c.layer layer).kStore row k
        vStore := update (c.layer layer).vStore row v } } f := by
  refine ⟨hc.len, hc.slots, hc.mapped, fun l hl t ht h => ?_⟩
  have hmapped := hc.mapped
  have hholds := hc.holds l hl t ht h
  rw [hown] at hmapped hholds
  have hne := kvPhysRow_ne hmapped ht hrow
  dsimp only at ht ⊢
  rw [hown]
  by_cases hlayer : l = layer
  · subst hlayer
    rw [update_self]
    dsimp only
    rw [update_of_ne hne, update_of_ne hne]
    exact hholds
  · rw [update_of_ne hlayer]
    exact hholds

/-- One action answers as the plain one. -/
lemma step_spec (hc : Inv A S c f) {a : Act R} (hplaced : Placed c a)
    (hkept : RefKept A scale S c a) (hstep : step A scale S c a = some (out, c')) :
    out = (plainStep A scale S f a).1 ∧ Inv A S c' (plainStep A scale S f a).2 := by
  have hkept := hkept out c' hstep
  cases a with
  | reserve ids =>
    rw [step] at hstep
    split at hstep
    · cases hstep
    · rename_i own hown
      obtain ⟨hnodup, heq⟩ := Option.ite_none_right_eq_some.mp hstep
      obtain ⟨rfl, rfl⟩ := Prod.mk.inj (Option.some.inj heq)
      exact ⟨rfl, hc.reserved hown hnodup⟩
  | others layer row k v =>
    rw [step] at hstep
    split at hstep
    · cases hstep
    · rename_i own hown
      obtain ⟨hrow, heq⟩ := Option.ite_none_left_eq_some.mp hstep
      obtain ⟨rfl, rfl⟩ := Prod.mk.inj (Option.some.inj heq)
      exact ⟨rfl, hc.others hown hrow k v⟩
  | publish =>
    obtain ⟨rfl, rfl⟩ := Prod.mk.inj (Option.some.inj hstep)
    exact ⟨rfl, hc.len, hc.slots, hc.mapped, hc.holds⟩
  | chunk n xs faults =>
    obtain ⟨rfl, rfl⟩ := Prod.mk.inj (Option.some.inj hstep)
    have hspec := layers_spec hc faults hplaced hkept
    exact ⟨hspec.out, hspec.inv hc (fixed_iff.mp (layers_fixed A scale S n xs faults c)).1⟩
  | decode xs faults =>
    obtain ⟨-, heq⟩ := Option.ite_none_right_eq_some.mp hstep
    obtain ⟨rfl, rfl⟩ := Prod.mk.inj (Option.some.inj heq)
    have hc : Inv A S { c with dLenNext := c.dLen + 1 } f :=
      ⟨hc.len, hc.slots, hc.mapped, hc.holds⟩
    have hspec := layers_spec hc faults (fun _ => ⟨hplaced, congrArg (· + 1) hplaced⟩) hkept
    have hfixed := layers_fixed A scale S 1 xs faults { c with dLenNext := c.dLen + 1 }
    obtain ⟨hlen, hslots, hmapped, hholds⟩ := hspec.inv hc (fixed_iff.mp hfixed).1
    exact ⟨hspec.out, hlen, hslots, hmapped, hholds⟩
  | capture fault =>
    obtain ⟨rfl, rfl⟩ := Prod.mk.inj (Option.some.inj hstep)
    refine ⟨rfl, hc.len, hc.slots, hc.mapped, fun l hl => ?_⟩
    dsimp only
    generalize S.layers.take (if c.room S 1 = true then _ else _) = captured
    split
    · exact (hc.holds l hl).ready
    · exact hc.holds l hl
  | replay xs =>
    rw [step] at hstep
    split at hstep
    · cases hstep
    · rename_i build hgraph
      obtain ⟨hroom, heq⟩ := Option.ite_none_right_eq_some.mp hstep
      obtain ⟨rfl, rfl⟩ := Prod.mk.inj (Option.some.inj heq)
      have hmapped := mapped_of_room hc.mapped.nodup hroom
      have hc : Inv A S { c with dLenNext := c.dLen + 1 } f :=
        ⟨hc.len, hc.slots, hc.mapped, hc.holds⟩
      have hspec := replayed_spec hc hroom build ⟨hplaced, congrArg (· + 1) hplaced⟩ hkept
      have hdone := layerLoop_done (f := fun l c' => c'.replayLayer A scale S c.currentLen l
        (build l) (xs l)) (fun l c => rfl) S.layers { c with dLenNext := c.dLen + 1 }
      have hfixed := replayed_fixed A scale S xs build { c with dLenNext := c.dLen + 1 }
      exact ⟨hspec.out, hspec.inv_next hc hdone (fixed_iff.mp hfixed).1 (layers_slots ..)
        (congrArg (· + 1) hc.len) (hc.len ▸ hmapped)⟩

end Run

/-! ### A decode step behind a prefill, and a prefill of one row -/

/-- A shard of one layer with one head. -/
def oneLayer : Shape := ⟨0, 0, le_rfl, 1, 1, 4⟩

/-- An empty contiguous cache. -/
def emptyCache : KvCache ℝ := ⟨0, 0, 0, none, fun _ => ⟨false, 0, 0, 0⟩, none⟩

/-- What the layer gets: ones. -/
def ones : ℕ → LayerIn ℝ := fun _ => ⟨1, 1, 1⟩

/-- A prefill of two positions, whose length is published, and a decode step that is captured. -/
def prefilled : List (Act ℝ) := [.chunk 2 ones fun _ => none, .publish, .capture none]

lemma guarded_prefilled : Guarded (step Arith.real 1 oneLayer)
    (fun c a => RefKept Arith.real 1 oneLayer c a ∧ Placed c a) emptyCache.reset
    (prefilled ++ [.replay ones]) := by
  refine .cons rfl ⟨fun _ _ _ _ _ => .inr rfl, nofun⟩ (.cons rfl ⟨?_, trivial⟩
    (.cons rfl ⟨?_, trivial⟩ (.cons rfl ⟨?_, rfl⟩ (guarded_nil _ _)))) <;>
  · rintro out c' ⟨⟩ l hl
    obtain rfl := List.mem_singleton.mp hl
    exact .inl rfl

section Ends

variable {R : Type*} [Field R] [LinearOrder R] (A : Arith R) {scale : R} {q : ℕ → R}
  {k v : ℕ → ℕ → R}

lemma attend_zero : attend A scale q k v 0 = 0 := by
  rw [attend, Softmax.mean, range_zero, sum_empty, sum_empty, smul_zero]

lemma attend_one : attend A scale q k v 1 = v 0 := by
  rw [attend, Softmax.mean, sum_range_one, sum_range_one, smul_smul,
    inv_mul_cancel₀ (A.exp_pos _).ne', one_smul]

end Ends

end VibeVoice.Attention
