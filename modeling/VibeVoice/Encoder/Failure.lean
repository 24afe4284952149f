import VibeVoice.Encoder.Arena
import VibeVoice.Lib.Prog

/-!
Calls of the accelerator's encoder that fail (`vv_vae_encode`).

The states lie in the memory of the device, where every launch reads and writes them; any launch
may fail, and one that fails may leave anything in the contexts it was to write.  The activations
are values: a call reads none that it has not written.

* `vaeEncode`: the checks, the launches of the layers, and the commit.
* `keeps_live`: up to the commit the live halves of all states stay as they are.
* `deviceLayers_related`: what the layers do depends on the live halves only.
* `failed_encode`: a call that fails leaves the streams as they were, and calling again gives what
  a first call would have given.
-/

namespace VibeVoice.Encoder

open Prog

/-! ### Calls -/

/-- The channels of a layer, and for a block those of its FFN. -/
structure Dims where
  inCh : ℕ
  outCh : ℕ
  hidden : ℕ

/-- `vv_vae_weights_t`, by its address and its plan. -/
structure Weights (α : Type) where
  addr : ℕ
  layers : List (Layer α × Dims)
  tailElems : ℕ
  vaeDim : ℤ

/-- An arena with the plan it was laid out for. -/
structure PlannedArena extends Arena where
  nLayers : ℕ
  tailElems : ℕ

/-- `vv_vae_item_t`, its state by address. -/
structure Entry (α : Type) where
  audio : Option (List α)
  nSamples : ℤ
  state : Option ℕ
  isFinal : Bool
  skipFrames : ℤ
  hasOut : Bool
  outLd : ℤ

/-- The states by address, with the weights they were made for, the table `keep` of the arena, and
the launches of the call so far. -/
structure Device (α : Type) where
  owner : ℕ → ℕ
  streams : ℕ → GpuState α
  keep : ℕ → ℕ → ℕ
  launches : ℕ

/-- A launch that fails: its status, and what may stand in the context of an item then. -/
structure Failure (α : Type) where
  status : Status
  junk : ℕ → List α

/-- The arguments of a call; `none` is `NULL`. -/
structure Call (α : Type) where
  weights : Option (Weights α)
  arena : Option PlannedArena
  items : Option (List (Entry α))

/-- What can end a call early: a status, or a read outside of a buffer. -/
abbrev Stop := Option Status

section Model

variable {α : Type}

/-- The checks of an item, `before` the items in front of it. -/
def checkEntry (w : Weights α) (d : Device α) (before : List (Entry α)) (e : Entry α) :
    Option Status :=
  if e.audio.isNone ∧ 0 < e.nSamples then some .nullPtr
  else if e.hasOut = false then some .nullPtr
  else if e.nSamples < 0 ∨ e.outLd < w.vaeDim ∨ e.skipFrames < 0 then some .invalidArg
  else if e.state.any fun s => d.owner s ≠ w.addr then some .invalidArg
  else if before.any fun f => e.state.isSome && e.state == f.state then some .invalidArg
  else none

/-- The loop over the items. -/
def checkEntries (w : Weights α) (d : Device α) (before : List (Entry α)) :
    List (Entry α) → Option Status
  | [] => none
  | e :: es =>
    match checkEntry w d before e with
    | some s => some s
    | none => checkEntries w d (before ++ [e]) es

/-- The checks on entry. -/
def checkCall (w : Weights α) (a : PlannedArena) (es : List (Entry α)) (d : Device α) : Option Status :=
  if es.length < 1 ∨ a.maxItems < es.length then some .invalidArg
  else if w.layers.length ≠ a.nLayers ∨ w.tailElems ≠ a.tailElems then some .shapeMismatch
  else
    match checkEntries w d [] es with
    | some s => some s
    | none =>
      if a.maxSamples < (es.map Entry.nSamples).sum then some .overflow else none

/-- The item of an entry, with its state as it is now. -/
def Entry.item (d : Device α) (e : Entry α) : Item α where
  audio := (e.audio.getD []).take e.nSamples.toNat
  state := e.state.map d.streams
  isFinal := e.isFinal
  skipFrames := e.skipFrames.toNat

/-- The descriptor of a layer. -/
def descs (es : List (Entry α)) (li : ℕ) (L : Layer α) (lens : List ℕ) (d : Device α) :
    List (Desc α) :=
  makeDesc L li 0 0 (es.map (Entry.item d)) lens

/-- The other buffer of a layer is written. -/
def GpuState.saveTail (st : GpuState α) (li : ℕ) (ctx : List α) : GpuState α :=
  { st with tails := fun b l => if b = !st.cur ∧ l = li then ctx else st.tails b l }

/-- The context of an item is written, if there is one to write. -/
def writeTail (li : ℕ) (σ : ℕ → GpuState α) (e : Entry α) (c : Option (List α)) : ℕ → GpuState α :=
  match e.state, c with
  | some s, some ctx => Function.update σ s ((σ s).saveTail li ctx)
  | _, _ => σ

/-- The contexts that `vae_tail_kernel` writes, item by item. -/
def writeTails (li : ℕ) :
    List (Entry α) → List (Option (List α)) → (ℕ → GpuState α) → ℕ → GpuState α
  | e :: es, c :: cs, σ => writeTails li es cs (writeTail li σ e c)
  | _, _, σ => σ

/-- What a launch that fails leaves where it was to write contexts. -/
def Failure.spoil (f : Failure α) (cs : List (Option (List α))) : List (Option (List α)) :=
  cs.mapIdx fun i ctx => ctx.map fun _ => f.junk i

/-- The end of a stream's chunk, with the columns it keeps in the first `n` layers. -/
def GpuState.advance (st : GpuState α) (n : ℕ) (keep : ℕ → ℕ) : GpuState α :=
  { st with
    haveCols := fun l => if l < n then keep l else st.haveCols l
    cur := !st.cur
    fresh := false }

/-- The commit of an item. -/
def commitOne (n : ℕ) (keep : ℕ → ℕ) (σ : ℕ → GpuState α) (e : Entry α) : ℕ → GpuState α :=
  match e.state with
  | some s => Function.update σ s (if e.isFinal then (σ s).reset else (σ s).advance n keep)
  | none => σ

/-- The loop that commits the states, from item `i` on. -/
def commitAll (n : ℕ) (keep : ℕ → ℕ → ℕ) :
    ℕ → List (Entry α) → (ℕ → GpuState α) → ℕ → GpuState α
  | _, [], σ => σ
  | i, e :: es, σ => commitAll n keep (i + 1) es (commitOne n (keep i) σ e)

/-! ### Launches -/

variable (ζ : α) (fails : ℕ → Option (Failure α))

/-- A launch that writes activations. -/
def enqueue : Program Stop (Device α) Unit :=
  get >>= fun d =>
    match fails d.launches with
    | none => set { d with launches := d.launches + 1 }
    | some f => set { d with launches := d.launches + 1 } >>= fun _ => throw (some f.status)

/-- That many of them. -/
def enqueueAll : ℕ → Program Stop (Device α) Unit
  | 0 => pure ()
  | n + 1 => enqueue fails >>= fun _ => enqueueAll n

/-- The tiles of an FFN: two launches each, behind the check of their room. -/
def ffnRounds (room hidden : ℕ) : List (ℕ × ℕ) → Program Stop (Device α) Unit
  | [] => pure ()
  | t :: ts =>
    failIf (room < hidden * round8 t.2) (some Status.overflow) >>= fun _ =>
      enqueueAll fails 2 >>= fun _ => ffnRounds room hidden ts

/-- What the kernel of a layer makes of its input. -/
def kernelColumns (L : Layer α) (ds : List (Desc α)) (x : List α) (T : ℕ) : Option (List α) :=
  match L.kind with
  | .stem => convKernel ζ L ds x T
  | .mixer => mixerKernel ζ L ds x T
  | .down | .head => gemmKernel ζ L ds x T

/-- A value that a kernel computes. -/
def computed {β : Type} (v : Option β) : Program Stop (Device α) β :=
  match v with
  | some v => pure v
  | none => throw none

variable (es : List (Entry α)) (li : ℕ) (L : Layer α) (D : Dims) (a : PlannedArena)

/-- `make_desc` fills the table `keep`. -/
def noteKeeps (lens : List ℕ) : Program Stop (Device α) PUnit :=
  modify fun d => { d with
    keep := fun i l =>
      if l = li then (((descs es li L lens d)[i]?).map Desc.keep).getD (d.keep i l)
      else d.keep i l }

/-- The columns of a layer, with the states as they are now. -/
def columnsOf (lens : List ℕ) (x : List α) (T : ℕ) : Program Stop (Device α) (List α) :=
  get >>= fun d => computed (kernelColumns ζ L (descs es li L lens d) x T)

/-- The lengths behind a layer. -/
def lengthsOf (lens : List ℕ) : Program Stop (Device α) (List ℕ) :=
  get >>= fun d => pure ((descs es li L lens d).map Desc.outLen)

/-- `vv_vae_tail_dev`. -/
def saveTails (lens : List ℕ) (x : List α) : Program Stop (Device α) Unit :=
  get >>= fun d =>
    computed ((descs es li L lens d).mapM fun e => e.tail ζ x) >>= fun cs =>
      match fails d.launches with
      | none =>
        set { d with streams := writeTails li es cs d.streams, launches := d.launches + 1 }
      | some f =>
        set { d with
          streams := writeTails li es (f.spoil cs) d.streams
          launches := d.launches + 1 } >>= fun _ => throw (some f.status)

/-- The stem. -/
def stemLayer (lens : List ℕ) (x : List α) : Program Stop (Device α) (List α × List ℕ) :=
  lengthsOf es li L lens >>= fun outLens =>
    failIf (a.lay.actElems < D.outCh * round8 outLens.sum) (some Status.overflow) >>= fun _ =>
    enqueueAll fails (if 0 < outLens.sum then 1 else 0) >>= fun _ =>
    columnsOf ζ es li L lens x outLens.sum >>= fun cols =>
    saveTails ζ fails es li L lens x >>= fun _ =>
    pure (cols, outLens)

/-- The launches of a block that has columns. -/
def blockLaunches (T : ℕ) : Program Stop (Device α) Unit :=
  enqueue fails >>= fun _ =>
    failIf (mixMaxK < L.k) (some Status.invalidArg) >>= fun _ =>
    enqueueAll fails 2 >>= fun _ =>
    failIf (ffnTile a.lay D.hidden < 128) (some Status.overflow) >>= fun _ =>
    ffnRounds fails a.lay.hidElems D.hidden (tilesOf T (ffnTile a.lay D.hidden))

/-- A block: the mixer, whose next context is saved first, and the FFN. -/
def blockLayer (lens : List ℕ) (x : List α) : Program Stop (Device α) (List α × List ℕ) :=
  saveTails ζ fails es li L lens x >>= fun _ =>
    (if 0 < lens.sum then blockLaunches fails L D a lens.sum else pure ()) >>= fun _ =>
    columnsOf ζ es li L lens x lens.sum >>= fun cols =>
    pure (cols, lens)

/-- The launches of a GEMM over `T` columns: two a round. -/
def gemmLaunches (T : ℕ) : Program Stop (Device α) Unit :=
  failIf (0 < T ∧ convTile a.lay (D.inCh * L.k) < 8) (some Status.overflow) >>= fun _ =>
    enqueueAll fails (2 * (tilesOf T (convTile a.lay (D.inCh * L.k))).length)

/-- A downsample. -/
def downLayer (lens : List ℕ) (x : List α) : Program Stop (Device α) (List α × List ℕ) :=
  lengthsOf es li L lens >>= fun outLens =>
    failIf (a.lay.actElems < D.outCh * round8 outLens.sum) (some Status.overflow) >>= fun _ =>
    gemmLaunches fails L D a outLens.sum >>= fun _ =>
    columnsOf ζ es li L lens x outLens.sum >>= fun cols =>
    saveTails ζ fails es li L lens x >>= fun _ =>
    pure (cols, outLens)

/-- The head. -/
def headLayer (lens : List ℕ) (x : List α) : Program Stop (Device α) (List α × List ℕ) :=
  lengthsOf es li L lens >>= fun outLens =>
    gemmLaunches fails L D a outLens.sum >>= fun _ =>
    columnsOf ζ es li L lens x outLens.sum >>= fun cols =>
    saveTails ζ fails es li L lens x >>= fun _ =>
    pure (cols, outLens)

/-- A layer: its columns and the lengths of the items in them. -/
def deviceLayer (lens : List ℕ) (x : List α) : Program Stop (Device α) (List α × List ℕ) :=
  noteKeeps es li L lens >>= fun _ =>
    match L.kind with
    | .stem => stemLayer ζ fails es li L D a lens x
    | .mixer => blockLayer ζ fails es li L D a lens x
    | .down => downLayer ζ fails es li L D a lens x
    | .head => headLayer ζ fails es li L D a lens x

/-- The layers from layer `li` on. -/
def deviceLayers : ℕ → List (Layer α × Dims) → List ℕ → List α →
    Program Stop (Device α) (List α × List ℕ)
  | _, [], lens, x => pure (x, lens)
  | li, (L, D) :: Ls, lens, x =>
    deviceLayer ζ fails es li L D a lens x >>= fun r => deviceLayers (li + 1) Ls r.2 r.1

/-- The rows and the number of frames that each item gets. -/
def shares (r : List α × List ℕ) : List (List α × ℕ) :=
  es.mapIdx fun i e =>
    (((r.1.drop (r.2.take i).sum).take (r.2[i]?.getD 0)).drop e.skipFrames.toNat, r.2[i]?.getD 0)

/-- `vv_vae_encode`: the rows and the number of frames of each item. -/
def vaeEncode (c : Call α) : Program Stop (Device α) (List (List α × ℕ)) :=
  get >>= fun d =>
    match c.weights, c.arena, c.items with
    | some w, some a, some es =>
      match checkCall w a es d with
      | some s => throw (some s)
      | none =>
        set { d with launches := 0 } >>= fun _ =>
          deviceLayers ζ fails es a 0 w.layers (es.map fun e => (e.item d).audio.length) [] >>=
            fun r =>
              (modify fun d =>
                { d with streams := commitAll w.layers.length d.keep 0 es d.streams }) >>=
                fun _ => pure (shares es r)
    | _, _, _ => throw (some .nullPtr)

end Model

/-! ### What stays as it is -/

section Kept

variable {α : Type}

/-- What a stream is: its counts, the half in use, whether it is fresh, and the contexts of that
half. -/
def GpuState.live (st : GpuState α) : (ℕ → ℕ) × Bool × Bool × (ℕ → List α) :=
  (st.haveCols, st.cur, st.fresh, st.tails st.cur)

/-- The states of a device, with their live halves only. -/
def Device.live (d : Device α) : (ℕ → ℕ) × (ℕ → (ℕ → ℕ) × Bool × Bool × (ℕ → List α)) :=
  (d.owner, fun s => (d.streams s).live)

lemma GpuState.live_saveTail (st : GpuState α) (li : ℕ) (ctx : List α) :
    (st.saveTail li ctx).live = st.live := by
  have hcur : (st.saveTail li ctx).tails st.cur = st.tails st.cur := by
    funext l
    exact if_neg fun h => by simpa using h.1
  rw [GpuState.live, GpuState.live]
  exact congrArg (fun t => (st.haveCols, st.cur, st.fresh, t)) hcur

/-- A context is written to the other half. -/
lemma live_writeTail (li : ℕ) (σ : ℕ → GpuState α) (e : Entry α) (c : Option (List α)) (s : ℕ) :
    (writeTail li σ e c s).live = (σ s).live := by
  rw [writeTail.eq_def]
  cases e.state with
  | none => rfl
  | some s' =>
    cases c with
    | none => rfl
    | some ctx =>
      dsimp only
      by_cases hs : s = s'
      · rw [hs, Function.update_self, GpuState.live_saveTail]
      · rw [Function.update_of_ne hs]

lemma live_writeTails (li : ℕ) (es : List (Entry α)) (cs : List (Option (List α)))
    (σ : ℕ → GpuState α) (s : ℕ) : (writeTails li es cs σ s).live = (σ s).live := by
  induction es generalizing cs σ with
  | nil => rfl
  | cons e es ih =>
    cases cs with
    | nil => rfl
    | cons c cs => rw [writeTails, ih, live_writeTail]

variable {ζ : α} {fails : ℕ → Option (Failure α)} {es : List (Entry α)} {li : ℕ} {L : Layer α}
  {D : Dims} {a : PlannedArena}

lemma keeps_enqueue : Keeps Device.live (enqueue fails) := by
  intro d
  rw [enqueue, exec_bind, exec_get]
  dsimp only
  split
  · rfl
  · rw [exec_bind]
    rfl

lemma keeps_enqueueAll (n : ℕ) : Keeps Device.live (enqueueAll fails n) := by
  induction n with
  | zero => exact .pure _
  | succ n ih => exact .bind keeps_enqueue fun _ => ih

lemma keeps_ffnRounds (room hidden : ℕ) (ts : List (ℕ × ℕ)) :
    Keeps Device.live (ffnRounds fails room hidden ts) := by
  induction ts with
  | nil => exact .pure _
  | cons t ts ih => exact .bind .failIf fun _ => .bind (keeps_enqueueAll 2) fun _ => ih

lemma keeps_computed {β : Type} (v : Option β) :
    Keeps Device.live (computed v : Program Stop (Device α) β) := by
  cases v with
  | none => exact .throw _
  | some v => exact .pure _

lemma keeps_columnsOf (lens : List ℕ) (x : List α) (T : ℕ) :
    Keeps Device.live (columnsOf ζ es li L lens x T) := .get_bind fun _ => keeps_computed _

lemma keeps_lengthsOf (lens : List ℕ) : Keeps Device.live (lengthsOf es li L lens) :=
  .get_bind fun _ => .pure _

lemma keeps_noteKeeps (lens : List ℕ) : Keeps Device.live (noteKeeps es li L lens) :=
  .modify fun _ => rfl

lemma keeps_saveTails (lens : List ℕ) (x : List α) :
    Keeps Device.live (saveTails ζ fails es li L lens x) := by
  intro d
  rw [saveTails, exec_bind, exec_get]
  dsimp only
  cases (descs es li L lens d).mapM fun e => e.tail ζ x with
  | none => rfl
  | some cs =>
    rw [computed, exec_bind, exec_pure]
    dsimp only
    split
    · exact congrArg (Prod.mk d.owner) (funext fun s => live_writeTails li es cs d.streams s)
    · rename_i f _
      rw [exec_bind]
      exact congrArg (Prod.mk d.owner)
        (funext fun s => live_writeTails li es (f.spoil cs) d.streams s)

lemma keeps_blockLaunches (T : ℕ) : Keeps Device.live (blockLaunches fails L D a T) :=
  .bind keeps_enqueue fun _ => .bind .failIf fun _ => .bind (keeps_enqueueAll 2) fun _ =>
    .bind .failIf fun _ => keeps_ffnRounds _ _ _

lemma keeps_gemmLaunches (T : ℕ) : Keeps Device.live (gemmLaunches fails L D a T) :=
  .bind .failIf fun _ => keeps_enqueueAll _

/-- A layer leaves the live halves of all states as they are, also when it fails. -/
lemma keeps_deviceLayer (lens : List ℕ) (x : List α) :
    Keeps Device.live (deviceLayer ζ fails es li L D a lens x) := by
  refine .bind (keeps_noteKeeps lens) fun _ => ?_
  cases L.kind with
  | stem =>
    exact .bind (keeps_lengthsOf lens) fun _ => .bind .failIf fun _ =>
      .bind (keeps_enqueueAll _) fun _ => .bind (keeps_columnsOf lens x _) fun _ =>
        .bind (keeps_saveTails lens x) fun _ => .pure _
  | mixer =>
    exact .bind (keeps_saveTails lens x) fun _ =>
      .bind (.ite (keeps_blockLaunches _) (.pure _)) fun _ =>
        .bind (keeps_columnsOf lens x _) fun _ => .pure _
  | down =>
    exact .bind (keeps_lengthsOf lens) fun _ => .bind .failIf fun _ =>
      .bind (keeps_gemmLaunches _) fun _ => .bind (keeps_columnsOf lens x _) fun _ =>
        .bind (keeps_saveTails lens x) fun _ => .pure _
  | head =>
    exact .bind (keeps_lengthsOf lens) fun _ => .bind (keeps_gemmLaunches _) fun _ =>
      .bind (keeps_columnsOf lens x _) fun _ => .bind (keeps_saveTails lens x) fun _ => .pure _

lemma keeps_deviceLayers (li : ℕ) (Ls : List (Layer α × Dims)) (lens : List ℕ) (x : List α) :
    Keeps Device.live (deviceLayers ζ fails es a li Ls lens x) := by
  induction Ls generalizing li lens x with
  | nil => exact .pure _
  | cons Ld Ls ih => exact .bind (keeps_deviceLayer lens x) fun _ => ih _ _ _

/-- **A call that fails leaves the streams as they were.** -/
theorem live_of_error {c : Call α} {d : Device α} {s : Stop}
    (h : (exec (vaeEncode ζ fails c) d).1 = .error s) :
    (exec (vaeEncode ζ fails c) d).2.live = d.live := by
  revert h
  rw [vaeEncode, exec_bind, exec_get]
  dsimp only
  split
  · rename_i w a es _ _ _
    split
    · exact fun _ => rfl
    · rw [exec_bind]
      have hkeep : Keeps Device.live (deviceLayers ζ fails es a 0 w.layers
        (es.map fun e => (e.item d).audio.length) []) := keeps_deviceLayers 0 w.layers _ []
      replace hkeep := hkeep { d with launches := 0 }
      change (exec (deviceLayers ζ fails es a 0 w.layers _ [] >>= _) { d with launches := 0 }).1 = _ →
        (exec (deviceLayers ζ fails es a 0 w.layers _ [] >>= _) { d with launches := 0 }).2.live = _
      rw [exec_bind]
      revert hkeep
      rcases exec (deviceLayers ζ fails es a 0 w.layers _ []) { d with launches := 0 } with
        ⟨e | r, d'⟩
      · exact fun hkeep _ => hkeep
      · intro _ h
        dsimp only at h
        rw [exec_bind, exec_modify] at h
        cases h
  · exact fun _ => rfl

end Kept

/-! ### Calling again -/

section Again

variable {α : Type} {ζ : α} {fails : ℕ → Option (Failure α)} {es : List (Entry α)} {li : ℕ}
  {L : Layer α} {D : Dims} {a : PlannedArena}

/-- Two devices with the same live halves. -/
def SameLive (d d' : Device α) : Prop := d.live = d'.live

/-- The other half of a layer. -/
def GpuState.next? (st : GpuState α) (l : ℕ) : List α := st.tails (!st.cur) l

/-- Behind the layers in front of `n` two devices are alike: in the counts that are to be
committed, and in the contexts that go with them. -/
structure Alike (es : List (Entry α)) (n : ℕ) (d d' : Device α) : Prop where
  launches : d.launches = d'.launches
  live : SameLive d d'
  keep : ∀ l < n, ∀ i < es.length, d.keep i l = d'.keep i l
  saved : ∀ l < n, ∀ i e s, es[i]? = some e → e.state = some s → e.isFinal = false →
    0 < d.keep i l → (d.streams s).next? l = (d'.streams s).next? l

/-- The counts of layer `li` are in the table. -/
structure Noted (es : List (Entry α)) (li : ℕ) (L : Layer α) (lens : List ℕ) (d d' : Device α) :
    Prop extends Alike es li d d' where
  noted : ∀ i e, (descs es li L lens d)[i]? = some e → d.keep i li = e.keep ∧ d'.keep i li = e.keep

lemma SameLive.parts {d d' : Device α} (h : SameLive d d') (s : ℕ) :
    (d.streams s).haveCols = (d'.streams s).haveCols ∧ (d.streams s).cur = (d'.streams s).cur ∧
      (d.streams s).fresh = (d'.streams s).fresh ∧
      (d.streams s).tails (d.streams s).cur = (d'.streams s).tails (d'.streams s).cur := by
  have hs := congrFun (congrArg Prod.snd h) s
  simp only [Device.live, GpuState.live, Prod.mk.injEq] at hs
  exact hs

lemma SameLive.owner {d d' : Device α} (h : SameLive d d') : d.owner = d'.owner :=
  congrArg Prod.fst h

/-- An entry of a descriptor takes nothing from the other half of a state. -/
lemma descOf_item {d d' : Device α} (h : SameLive d d') (e : Entry α) (inOff outOff n : ℕ) :
    descOf L li inOff outOff (e.item d) n = descOf L li inOff outOff (e.item d') n := by
  have hhave : (e.item d).haveCols L li = (e.item d').haveCols L li := by
    rw [Item.haveCols, Item.haveCols, Entry.item, Entry.item]
    cases e.state with
    | none => rfl
    | some s =>
      obtain ⟨hcount, -, hfresh, -⟩ := h.parts s
      simp only [Option.map_some, hfresh, hcount]
  have htail : (e.item d).tailIn L li = (e.item d').tailIn L li := by
    rw [Item.tailIn, Item.tailIn, hhave, Entry.item, Entry.item]
    cases e.state with
    | none => rfl
    | some s =>
      obtain ⟨-, -, hfresh, hctx⟩ := h.parts s
      simp only [Option.map_some, Option.bind_some, hfresh, hctx]
  have hsome : (e.item d).state.isSome = (e.item d').state.isSome := by
    rw [Entry.item, Entry.item, Option.isSome_map, Option.isSome_map]
  have hfin : (e.item d).fin = (e.item d').fin := by
    rw [Item.fin, Item.fin, Entry.item, Entry.item, Option.isNone_map, Option.isNone_map]
  rw [descOf, descOf, hhave, htail, hsome, hfin]
  rfl

lemma makeDesc_item {d d' : Device α} (h : SameLive d d') (lens : List ℕ) (inOff outOff : ℕ) :
    makeDesc L li inOff outOff (es.map (Entry.item d)) lens =
      makeDesc L li inOff outOff (es.map (Entry.item d')) lens := by
  induction es generalizing inOff outOff lens with
  | nil => rfl
  | cons e es ih =>
    cases lens with
    | nil => rfl
    | cons n lens =>
      rw [List.map_cons, List.map_cons, makeDesc, makeDesc, descOf_item h]
      exact congrArg _ (ih _ _ _)

lemma descs_eq {d d' : Device α} (h : SameLive d d') (lens : List ℕ) :
    descs es li L lens d = descs es li L lens d' := makeDesc_item h lens 0 0

lemma length_descs {lens : List ℕ} (h : lens.length = es.length) (d : Device α) :
    (descs es li L lens d).length = es.length := by
  have hlen : lens.length = (es.map (Entry.item d)).length := h.trans (List.length_map _).symm
  exact (length_makeDesc hlen L li 0 0).trans (List.length_map _)

/-- A relation of devices that a launch of activations keeps. -/
structure Steady (R : Device α → Device α → Prop) : Prop where
  launches : ∀ d d', R d d' → d.launches = d'.launches
  live : ∀ d d', R d d' → SameLive d d'
  step : ∀ d d' n, R d d' → R { d with launches := n } { d' with launches := n }

lemma steady_alike (n : ℕ) : Steady (Alike es n) where
  launches _ _ h := h.launches
  live _ _ h := h.live
  step _ _ _ h := ⟨rfl, h.live, h.keep, h.saved⟩

lemma steady_noted (lens : List ℕ) : Steady (Noted es li L lens) where
  launches _ _ h := h.launches
  live _ _ h := h.live
  step _ _ _ h := ⟨⟨rfl, h.live, h.keep, h.saved⟩, h.noted⟩

section Launches

variable {R : Device α → Device α → Prop}

lemma Steady.enqueue (hR : Steady R) :
    Related R (enqueue fails) (Encoder.enqueue fails) R SameLive := by
  refine .get_bind fun d d' h => ?_
  rw [hR.launches d d' h]
  cases fails d'.launches with
  | none =>
    have hnext := hR.step d d' (d'.launches + 1) h
    exact ⟨rfl, hnext⟩
  | some f => exact ⟨rfl, hR.live _ _ (hR.step d d' (d'.launches + 1) h)⟩

lemma Steady.enqueueAll (hR : Steady R) (n : ℕ) :
    Related R (enqueueAll fails n) (Encoder.enqueueAll fails n) R SameLive := by
  induction n with
  | zero => exact .pure fun _ _ h => h
  | succ n ih => exact .bind hR.enqueue fun _ => ih

lemma Steady.failIf (hR : Steady R) {c : Prop} [Decidable c] {s : Stop} :
    Related R (Prog.failIf c s) (Prog.failIf c s) R SameLive :=
  Related.failIf Iff.rfl (fun _ _ h => hR.live _ _ h) fun _ _ h => h

lemma Steady.ffnRounds (hR : Steady R) (room hidden : ℕ) (ts : List (ℕ × ℕ)) :
    Related R (ffnRounds fails room hidden ts) (Encoder.ffnRounds fails room hidden ts) R
      SameLive := by
  induction ts with
  | nil => exact .pure fun _ _ h => h
  | cons t ts ih => exact .bind hR.failIf fun _ => .bind (hR.enqueueAll 2) fun _ => ih

lemma Steady.computed (hR : Steady R) {β : Type} (v : Option β) :
    Related R (computed v : Program Stop (Device α) β) (Encoder.computed v) R SameLive := by
  cases v with
  | none => exact .throw fun _ _ h => hR.live _ _ h
  | some v => exact .pure fun _ _ h => h

lemma Steady.columnsOf (hR : Steady R) (lens : List ℕ) (x : List α) (T : ℕ) :
    Related R (columnsOf ζ es li L lens x T) (Encoder.columnsOf ζ es li L lens x T) R
      SameLive := by
  refine .get_bind fun d d' h => ?_
  rw [descs_eq (hR.live d d' h)]
  exact hR.computed _ d d' h

lemma Steady.lengthsOf (hR : Steady R) (lens : List ℕ) :
    Related R (lengthsOf es li L lens) (Encoder.lengthsOf es li L lens) R SameLive := by
  refine .get_bind fun d d' h => ?_
  rw [descs_eq (hR.live d d' h)]
  exact ⟨rfl, h⟩

lemma Steady.blockLaunches (hR : Steady R) (T : ℕ) :
    Related R (blockLaunches fails L D a T) (Encoder.blockLaunches fails L D a T) R SameLive :=
  .bind hR.enqueue fun _ => .bind hR.failIf fun _ => .bind (hR.enqueueAll 2) fun _ =>
    .bind hR.failIf fun _ => hR.ffnRounds _ _ _

lemma Steady.gemmLaunches (hR : Steady R) (T : ℕ) :
    Related R (gemmLaunches fails L D a T) (Encoder.gemmLaunches fails L D a T) R SameLive :=
  .bind hR.failIf fun _ => hR.enqueueAll _

end Launches

/-- The counts of a layer are the same on both sides. -/
lemma noteKeeps_related (lens : List ℕ) :
    Related (Alike es li) (noteKeeps es li L lens) (noteKeeps es li L lens) (Noted es li L lens)
      SameLive := by
  refine .modify fun d d' h => ?_
  have hdescs : descs es li L lens d = descs es li L lens d' := descs_eq h.live lens
  refine ⟨⟨h.launches, h.live, fun l hl i hi => ?_, fun l hl i e s hi hs hfin hpos => ?_⟩,
    fun i e he => ?_⟩
  · dsimp only
    rw [if_neg hl.ne, if_neg hl.ne]
    exact h.keep l hl i hi
  · dsimp only at hpos ⊢
    rw [if_neg hl.ne] at hpos
    exact h.saved l hl i e s hi hs hfin hpos
  · change (descs es li L lens d)[i]? = some e at he
    dsimp only
    rw [if_pos rfl, if_pos rfl, ← hdescs, he]
    exact ⟨rfl, rfl⟩

lemma GpuState.next?_saveTail (st : GpuState α) (l li : ℕ) (ctx : List α) :
    (st.saveTail li ctx).next? l = if l = li then ctx else st.next? l := by
  rw [GpuState.next?, GpuState.next?, GpuState.saveTail]
  simp

/-- What is written, and where. -/
lemma next?_writeTail (σ : ℕ → GpuState α) (e : Entry α) (c : Option (List α)) (s l : ℕ) :
    (writeTail li σ e c s).next? l =
      if e.state = some s ∧ l = li then c.getD ((σ s).next? l) else (σ s).next? l := by
  rw [writeTail.eq_def]
  cases e.state with
  | none => simp
  | some s' =>
    cases c with
    | none => simp
    | some ctx =>
      dsimp only
      by_cases hs : s' = s
      · rw [hs, Function.update_self, GpuState.next?_saveTail]
        simp
      · rw [Function.update_of_ne (Ne.symm hs), if_neg fun h => hs (Option.some.inj h.1)]

lemma next?_writeTails_ne {l : ℕ} (hl : l ≠ li) (cs : List (Option (List α)))
    (σ : ℕ → GpuState α) (s : ℕ) : (writeTails li es cs σ s).next? l = (σ s).next? l := by
  induction es generalizing cs σ with
  | nil => rfl
  | cons e es ih =>
    cases cs with
    | nil => rfl
    | cons c cs => rw [writeTails, ih, next?_writeTail, if_neg fun h => hl h.2]

/-- Where a context is written, or was the same before, it is the same behind the launch. -/
lemma next?_writeTails {cs : List (Option (List α))} {σ σ' : ℕ → GpuState α} {s : ℕ}
    (h : (σ s).next? li = (σ' s).next? li ∨
      ∃ (i : ℕ) (e : Entry α) (ctx : List α), es[i]? = some e ∧ cs[i]? = some (some ctx) ∧
        e.state = some s) :
    (writeTails li es cs σ s).next? li = (writeTails li es cs σ' s).next? li := by
  induction es generalizing cs σ σ' with
  | nil =>
    rcases h with h | ⟨i, e, ctx, he, -⟩
    · exact h
    · simp at he
  | cons e es ih =>
    cases cs with
    | nil =>
      rcases h with h | ⟨i, e, ctx, -, hc, -⟩
      · exact h
      · simp at hc
    | cons c cs =>
      rw [writeTails, writeTails]
      refine ih ?_
      rw [next?_writeTail, next?_writeTail]
      rcases h with h | ⟨i, e', ctx, he, hc, hs⟩
      · rw [h]
        exact .inl rfl
      · cases i with
        | zero =>
          obtain rfl := Option.some.inj he
          obtain rfl := Option.some.inj hc
          rw [if_pos ⟨hs, rfl⟩, if_pos ⟨hs, rfl⟩]
          exact .inl rfl
        | succ i => exact .inr ⟨i, e', ctx, he, hc, hs⟩

/-- An entry of a descriptor is made for its item. -/
lemma getElem?_makeDesc {its : List (Item α)} {ns : List ℕ} {inOff outOff i : ℕ} {de : Desc α}
    (h : (makeDesc L li inOff outOff its ns)[i]? = some de) :
    ∃ it n inOff' outOff', its[i]? = some it ∧ de = descOf L li inOff' outOff' it n := by
  induction its generalizing ns inOff outOff i with
  | nil => simp [makeDesc] at h
  | cons it its ih =>
    cases ns with
    | nil => simp [makeDesc] at h
    | cons n ns =>
      rw [makeDesc] at h
      cases i with
      | zero => exact ⟨it, n, inOff, outOff, rfl, (Option.some.inj h).symm⟩
      | succ i => exact ih h

/-- The context of an item that goes on is written, if it keeps any. -/
lemma tailOut_descs {lens : List ℕ} {d : Device α} {i s : ℕ} {e : Entry α} {de : Desc α}
    (hde : (descs es li L lens d)[i]? = some de) (he : es[i]? = some e) (hs : e.state = some s)
    (hfin : e.isFinal = false) (hpos : 0 < de.keep) : de.tailOut = true := by
  obtain ⟨it, n, inOff, outOff, hit, rfl⟩ := getElem?_makeDesc hde
  rw [List.getElem?_map, he, Option.map_some, Option.some.injEq] at hit
  subst hit
  change ((e.item d).state.isSome && !(e.item d).fin &&
    decide (0 < (descOf L li inOff outOff (e.item d) n).keep)) = true
  have hsome : (e.item d).state.isSome = true := by rw [Entry.item, Option.isSome_map, hs]; rfl
  have hgoes : (e.item d).fin = false := by
    rw [Item.fin, Entry.item, Option.isNone_map, hs, hfin]
    rfl
  rw [hsome, decide_eq_true hpos, hgoes]
  rfl

/-- Behind the launch that saves the contexts of a layer, the layer is done. -/
lemma saveTails_related {lens : List ℕ} (hlen : lens.length = es.length) (x : List α) :
    Related (Noted es li L lens) (saveTails ζ fails es li L lens x)
      (saveTails ζ fails es li L lens x) (Alike es (li + 1)) SameLive := by
  refine .get_bind fun d d' h => ?_
  have hds : descs es li L lens d = descs es li L lens d' := descs_eq h.live lens
  have hlive : ∀ cs, (d.owner, fun s => (writeTails li es cs d.streams s).live) =
      (d'.owner, fun s => (writeTails li es cs d'.streams s).live) := by
    intro cs
    refine congrArg₂ Prod.mk h.live.owner (funext fun s => ?_)
    rw [live_writeTails, live_writeTails]
    exact congrFun (congrArg Prod.snd h.live) s
  rw [← hds, ← h.launches]
  cases hcs : (descs es li L lens d).mapM fun e => e.tail ζ x with
  | none => exact ⟨rfl, h.live⟩
  | some cs =>
    rw [computed, exec_bind, exec_bind, exec_pure, exec_pure]
    dsimp only
    cases fails d.launches with
    | some f => exact ⟨rfl, hlive (f.spoil cs)⟩
    | none =>
      refine ⟨rfl, rfl, hlive cs, fun l hl i hi => ?_, fun l hl i e s he hs hfin hpos => ?_⟩
      · rcases Nat.lt_succ_iff_lt_or_eq.mp hl with hl | rfl
        · exact h.keep l hl i hi
        · have hde : (descs es l L lens d)[i]? = some _ :=
            List.getElem?_eq_getElem ((length_descs hlen d).symm ▸ hi)
          exact (h.noted i _ hde).1.trans (h.noted i _ hde).2.symm
      · rcases Nat.lt_succ_iff_lt_or_eq.mp hl with hl | rfl
        · dsimp only
          rw [next?_writeTails_ne hl.ne, next?_writeTails_ne hl.ne]
          exact h.saved l hl i e s he hs hfin hpos
        · have hi : i < es.length := (List.getElem?_eq_some_iff.mp he).1
          have hde : (descs es l L lens d)[i]? = some _ :=
            List.getElem?_eq_getElem ((length_descs hlen d).symm ▸ hi)
          have hkeep := (h.noted i _ hde).1
          dsimp only at hpos
          rw [hkeep] at hpos
          have hout := tailOut_descs hde he hs hfin hpos
          have hc := Loop.mapM_getElem? hcs i
          rw [hde, Option.bind_some, Desc.tail, if_pos hout] at hc
          have hi' : i < cs.length :=
            (Loop.mapM_length hcs).symm ▸ (length_descs hlen d).symm ▸ hi
          rw [List.getElem?_eq_getElem hi'] at hc
          obtain ⟨ctx, -, hctx⟩ := Option.map_eq_some_iff.mp hc.symm
          exact next?_writeTails (.inr ⟨i, e, ctx, he,
            (List.getElem?_eq_getElem hi').trans (congrArg some hctx.symm), hs⟩)

/-- A layer on two devices that are alike so far. -/
lemma deviceLayer_related {lens : List ℕ} (hlen : lens.length = es.length) (x : List α) :
    Related (Alike es li) (deviceLayer ζ fails es li L D a lens x)
      (deviceLayer ζ fails es li L D a lens x) (Alike es (li + 1)) SameLive := by
  have hnoted : Steady (Noted es li L lens) := steady_noted lens
  have hdone : Steady (Alike es (li + 1)) := steady_alike (li + 1)
  have hsave : Related (Noted es li L lens) (saveTails ζ fails es li L lens x)
      (saveTails ζ fails es li L lens x) (Alike es (li + 1)) SameLive := saveTails_related hlen x
  refine .bind (noteKeeps_related lens) fun _ => ?_
  cases L.kind with
  | stem =>
    exact .bind (hnoted.lengthsOf lens) fun _ => .bind hnoted.failIf fun _ =>
      .bind (hnoted.enqueueAll _) fun _ => .bind (hnoted.columnsOf lens x _) fun _ =>
        .bind hsave fun _ => .pure fun _ _ h => h
  | mixer =>
    exact .bind hsave fun _ =>
      .bind (.ite Iff.rfl (fun _ => hdone.blockLaunches _) fun _ => .pure fun _ _ h => h) fun _ =>
        .bind (hdone.columnsOf lens x _) fun _ => .pure fun _ _ h => h
  | down =>
    exact .bind (hnoted.lengthsOf lens) fun _ => .bind hnoted.failIf fun _ =>
      .bind (hnoted.gemmLaunches _) fun _ => .bind (hnoted.columnsOf lens x _) fun _ =>
        .bind hsave fun _ => .pure fun _ _ h => h
  | head =>
    exact .bind (hnoted.lengthsOf lens) fun _ => .bind (hnoted.gemmLaunches _) fun _ =>
      .bind (hnoted.columnsOf lens x _) fun _ => .bind hsave fun _ => .pure fun _ _ h => h

/-- Every item has a length behind a layer. -/
lemma deviceLayer_lens {lens : List ℕ} (hlen : lens.length = es.length) (x : List α) :
    Triple (fun _ => True) (deviceLayer ζ fails es li L D a lens x)
      (fun r _ => r.2.length = es.length) fun _ _ => True := by
  have hlengths : Triple (fun _ : Device α => True) (lengthsOf es li L lens)
      (fun ns _ => ns.length = es.length) fun _ _ => True :=
    .get_bind fun d _ => (List.length_map _).trans (length_descs hlen d)
  refine .bind (.true _) fun _ => ?_
  cases L.kind with
  | stem =>
    exact .bind hlengths fun _ => .bind (.const _ _) fun _ => .bind (.const _ _) fun _ =>
      .bind (.const _ _) fun _ => .bind (.const _ _) fun _ => .pure fun _ h => h
  | mixer =>
    exact .bind (.true _) fun _ => .bind (.true _) fun _ => .bind (.true _) fun _ =>
      .pure fun _ _ => hlen
  | down =>
    exact .bind hlengths fun _ => .bind (.const _ _) fun _ => .bind (.const _ _) fun _ =>
      .bind (.const _ _) fun _ => .bind (.const _ _) fun _ => .pure fun _ h => h
  | head =>
    exact .bind hlengths fun _ => .bind (.const _ _) fun _ => .bind (.const _ _) fun _ =>
      .bind (.const _ _) fun _ => .pure fun _ h => h

/-- What the layers do depends on the live halves only. -/
theorem deviceLayers_related (Ls : List (Layer α × Dims)) {lens : List ℕ}
    (hlen : lens.length = es.length) (x : List α) :
    Related (Alike es li) (deviceLayers ζ fails es a li Ls lens x)
      (deviceLayers ζ fails es a li Ls lens x) (Alike es (li + Ls.length)) SameLive := by
  induction Ls generalizing li lens x with
  | nil => exact .pure fun _ _ h => h
  | cons Ld Ls ih =>
    have hnext : li + (Ld :: Ls).length = li + 1 + Ls.length := by
      rw [List.length_cons]
      omega
    rw [hnext]
    exact .bind_of (deviceLayer_related hlen x) (deviceLayer_lens hlen x) fun _ hr => ih hr _

/-! ### The commit -/

/-- Two states that a next call sees alike in the first `n` layers. -/
structure SameState (n : ℕ) (st st' : GpuState α) : Prop where
  cur : st.cur = st'.cur
  fresh : st.fresh = st'.fresh
  haveCols : ∀ l < n, st.haveCols l = st'.haveCols l
  tails : st.fresh = false → ∀ l < n, 0 < st.haveCols l → st.tails st.cur l = st'.tails st'.cur l

/-- Devices whose states a next call sees alike. -/
def SameStates (n : ℕ) (d d' : Device α) : Prop := ∀ s, SameState n (d.streams s) (d'.streams s)

/-- The entries with a state have different ones. -/
def Distinct (es : List (Entry α)) : Prop :=
  es.Pairwise fun e f => ∀ s, e.state = some s → f.state ≠ some s

lemma commitOne_of_ne {n : ℕ} {keep : ℕ → ℕ} {σ : ℕ → GpuState α} {e : Entry α} {s : ℕ}
    (h : e.state ≠ some s) : commitOne n keep σ e s = σ s := by
  rw [commitOne.eq_def]
  cases hs : e.state with
  | none => rfl
  | some s' =>
    dsimp only
    exact Function.update_of_ne (fun heq => h (by rw [hs, heq])) _ _

lemma commitOne_self {n : ℕ} {keep : ℕ → ℕ} {σ : ℕ → GpuState α} {e : Entry α} {s : ℕ}
    (h : e.state = some s) :
    commitOne n keep σ e s = if e.isFinal then (σ s).reset else (σ s).advance n keep := by
  rw [commitOne.eq_def, h]
  exact Function.update_self _ _ _

/-- An item's state is ready to be committed, on both sides. -/
def Ready (n : ℕ) (e : Entry α) (keep keep' : ℕ → ℕ) (σ σ' : ℕ → GpuState α) : Prop :=
  ∀ s, e.state = some s → (∀ l < n, keep l = keep' l) ∧ (σ s).cur = (σ' s).cur ∧
    ((σ s).haveCols = (σ' s).haveCols) ∧
    (e.isFinal = false → ∀ l < n, 0 < keep l → (σ s).next? l = (σ' s).next? l)

lemma Ready.commitOne {n : ℕ} {e : Entry α} {keep keep' : ℕ → ℕ} {σ σ' : ℕ → GpuState α}
    (h : Ready n e keep keep' σ σ') {s : ℕ} (hs : e.state = some s) :
    SameState n (commitOne n keep σ e s) (Encoder.commitOne n keep' σ' e s) := by
  obtain ⟨hkeep, hcur, hhave, htails⟩ := h s hs
  rw [commitOne_self hs, commitOne_self hs]
  cases hfin : e.isFinal with
  | true =>
    rw [if_pos rfl, if_pos rfl]
    exact ⟨rfl, rfl, fun l _ => congrFun hhave l, fun hfresh => by cases hfresh⟩
  | false =>
    rw [if_neg (by decide), if_neg (by decide)]
    refine ⟨congrArg (!·) hcur, rfl, fun l hl => ?_, fun _ l hl hpos => ?_⟩
    · change (if l < n then keep l else _) = if l < n then keep' l else _
      rw [if_pos hl, if_pos hl, hkeep l hl]
    · change 0 < (if l < n then keep l else _) at hpos
      rw [if_pos hl] at hpos
      exact htails hfin l hl hpos

/-- The commit of states that are ready. -/
lemma commitAll_same {n i : ℕ} {keep keep' : ℕ → ℕ → ℕ} (hdistinct : Distinct es)
    {σ σ' : ℕ → GpuState α}
    (hready : ∀ j e, es[j]? = some e → Ready n e (keep (i + j)) (keep' (i + j)) σ σ') {s : ℕ}
    (hs : (∀ e ∈ es, e.state ≠ some s) → SameState n (σ s) (σ' s)) :
    SameState n (commitAll n keep i es σ s) (commitAll n keep' i es σ' s) := by
  induction es generalizing i σ σ' with
  | nil => exact hs fun e he => absurd he List.not_mem_nil
  | cons e es ih =>
    obtain ⟨hfront, hrest⟩ := List.pairwise_cons.mp hdistinct
    rw [commitAll, commitAll]
    refine ih hrest (fun j f hf t ht => ?_) fun hnone => ?_
    · have hne : e.state ≠ some t := fun he =>
        hfront f (List.mem_of_getElem? hf) t he ht
      rw [commitOne_of_ne hne, commitOne_of_ne hne]
      have hnext := hready (j + 1) f hf t ht
      rwa [show i + (j + 1) = i + 1 + j by omega] at hnext
    · by_cases he : e.state = some s
      · exact (hready 0 e rfl).commitOne he
      · rw [commitOne_of_ne he, commitOne_of_ne he]
        exact hs fun f hf => (List.mem_cons.mp hf).elim (fun h => h ▸ he) (hnone f)

lemma SameLive.sameState {d d' : Device α} (h : SameLive d d') (n s : ℕ) :
    SameState n (d.streams s) (d'.streams s) := by
  obtain ⟨hhave, hcur, hfresh, htails⟩ := h.parts s
  exact ⟨hcur, hfresh, fun l _ => congrFun hhave l, fun _ l _ _ => congrFun htails l⟩

/-- The commit of two devices that are alike behind all layers. -/
lemma commitAll_alike {n : ℕ} (hdistinct : Distinct es) {d d' : Device α}
    (h : Alike es (0 + n) d d') :
    SameStates n { d with streams := commitAll n d.keep 0 es d.streams }
      { d' with streams := commitAll n d'.keep 0 es d'.streams } := by
  rw [Nat.zero_add] at h
  refine fun s => commitAll_same hdistinct (fun j e he t ht => ?_) fun _ => h.live.sameState n s
  obtain ⟨hhave, hcur, -, -⟩ := h.live.parts t
  rw [Nat.zero_add]
  exact ⟨fun l hl => h.keep l hl j (List.getElem?_eq_some_iff.mp he).1, hcur, hhave,
    fun hfin l hl hpos => h.saved l hl j e t he ht hfin hpos⟩

/-! ### Two calls -/

lemma distinct_of_checkEntries {w : Weights α} {d : Device α} {before : List (Entry α)}
    (h : checkEntries w d before es = none) :
    (∀ e ∈ es, ∀ f ∈ before, ∀ s, e.state = some s → f.state ≠ some s) ∧ Distinct es := by
  induction es generalizing before with
  | nil => exact ⟨fun e he => absurd he List.not_mem_nil, .nil⟩
  | cons e es ih =>
    rw [checkEntries] at h
    cases hcheck : checkEntry w d before e with
    | some s => rw [hcheck] at h; cases h
    | none =>
      rw [hcheck] at h
      obtain ⟨hbefore, hrest⟩ := ih h
      have hfirst : ∀ f ∈ before, ∀ s, e.state = some s → f.state ≠ some s := by
        intro f hf s hs hf'
        rw [checkEntry] at hcheck
        split_ifs at hcheck with h₁ h₂ h₃ h₄ h₅
        exact h₅ (List.any_eq_true.mpr ⟨f, hf, by simp [hs, hf']⟩)
      refine ⟨fun f hf g hg => ?_, List.pairwise_cons.mpr ⟨fun f hf s hs hf' => ?_, hrest⟩⟩
      · rcases List.mem_cons.mp hf with rfl | hf
        · exact hfirst g hg
        · exact hbefore f hf g (List.mem_append_left _ hg)
      · exact hbefore f hf e (List.mem_append_right _ (List.mem_singleton_self e)) s hf' hs

lemma distinct_of_checkCall {w : Weights α} {d : Device α} (h : checkCall w a es d = none) :
    Distinct es := by
  rw [checkCall] at h
  cases hcheck : checkEntries w d [] es with
  | some s =>
    rw [hcheck] at h
    split_ifs at h
  | none => exact (distinct_of_checkEntries hcheck).2

lemma checkEntries_eq {w : Weights α} {d d' : Device α} (h : SameLive d d')
    (before es : List (Entry α)) : checkEntries w d before es = checkEntries w d' before es := by
  induction es generalizing before with
  | nil => rfl
  | cons e es ih =>
    have hfirst : checkEntry w d before e = checkEntry w d' before e := by
      rw [checkEntry, checkEntry, h.owner]
    rw [checkEntries, checkEntries, hfirst, ih]

/-- The number of layers of a call. -/
def Call.layers (c : Call α) : ℕ := (c.weights.map fun w => w.layers.length).getD 0

/-- Two calls with the same arguments, from devices with the same live halves. -/
theorem vaeEncode_related (c : Call α) :
    Related SameLive (vaeEncode ζ fails c) (vaeEncode ζ fails c) (SameStates c.layers)
      SameLive := by
  refine .get_bind fun d d' h => ?_
  rw [Call.layers]
  rcases c.weights with _ | w
  · exact ⟨rfl, h⟩
  rcases c.arena with _ | a
  · exact ⟨rfl, h⟩
  rcases c.items with _ | es
  · exact ⟨rfl, h⟩
  have hcheck : checkCall w a es d = checkCall w a es d' := by
    rw [checkCall, checkCall, checkEntries_eq h]
  dsimp only
  rw [← hcheck]
  cases hnone : checkCall w a es d with
  | some s => exact ⟨rfl, h⟩
  | none =>
    have hlen : (es.map fun e => (e.item d).audio.length).length = es.length := List.length_map _
    have hstart : Alike es 0 { d with launches := 0 } { d' with launches := 0 } :=
      ⟨rfl, h, fun l hl => absurd hl (Nat.not_lt_zero l), fun l hl => absurd hl (Nat.not_lt_zero l)⟩
    have hcommit : ∀ d d', Alike es (0 + w.layers.length) d d' → SameStates w.layers.length
        { d with streams := commitAll w.layers.length d.keep 0 es d.streams }
        { d' with streams := commitAll w.layers.length d'.keep 0 es d'.streams } := by
      intro d d' halike
      exact commitAll_alike (distinct_of_checkCall hnone) halike
    exact Related.bind (deviceLayers_related w.layers hlen [])
      (fun r => .bind (.modify hcommit) fun _ => .pure fun _ _ h => h) _ _ hstart

/-- **A call that fails leaves the streams as they were**, and calling again gives what a first
call would have given. -/
theorem failed_encode (ζ : α) (fails : ℕ → Option (Failure α)) (c : Call α) (d : Device α)
    {s : Stop} (h : (exec (vaeEncode ζ fails c) d).1 = .error s) :
    SameLive (exec (vaeEncode ζ fails c) d).2 d ∧
      ∀ fails', Agree (SameStates c.layers) SameLive
        (exec (vaeEncode ζ fails' c) (exec (vaeEncode ζ fails c) d).2)
        (exec (vaeEncode ζ fails' c) d) :=
  ⟨live_of_error h, fun _ => vaeEncode_related c _ _ (live_of_error h)⟩

end Again

lemma threeTaps_stride (kind : Kind) (_ : kind ≠ .down) : 1 = 1 := rfl

lemma threeTaps_point (kind : Kind) (_ : kind ≠ .mixer) : (id : ℕ → ℕ) = id := rfl

/-- A convolution of three columns. -/
def threeTaps (kind : Kind) : Layer ℕ where
  kind := kind
  inCh := 1
  k := 3
  stride := 1
  stride_pos := Nat.one_pos
  stride_le := by decide
  stride_eq := threeTaps_stride kind
  op := List.sum
  point := id
  point_eq := threeTaps_point kind

/-- A chunk of a stream through a stem and a head. -/
def twoLayers : Call ℕ where
  weights := some ⟨1, [(threeTaps .stem, ⟨1, 1, 0⟩), (threeTaps .head, ⟨1, 1, 0⟩)], 8, 1⟩
  arena := some ⟨⟨1, 16, ⟨64, 64, 64, 0, 0, 0, 0⟩⟩, 2, 8⟩
  items := some [⟨some [5, 6, 7], 3, some 0, false, 0, true, 1⟩]

/-- A stream that has two columns of context in each layer. -/
def goingOn : Device ℕ where
  owner _ := 1
  streams _ := ⟨fun half _ => if half then [8, 9] else [3, 4], fun _ => 2, false, false⟩
  keep _ _ := 0
  launches := 0

/-- The launch that saves the contexts of the head fails. -/
def lastFails (n : ℕ) : Option (Failure ℕ) := if n = 4 then some ⟨.cudaLaunch, fun _ => [0]⟩ else none

theorem failed_encode_head :
    SameLive (exec (vaeEncode 0 lastFails twoLayers) goingOn).2 goingOn ∧
      ∀ fails', Agree (SameStates twoLayers.layers) SameLive
        (exec (vaeEncode 0 fails' twoLayers) (exec (vaeEncode 0 lastFails twoLayers) goingOn).2)
        (exec (vaeEncode 0 fails' twoLayers) goingOn) :=
  failed_encode 0 lastFails twoLayers goingOn (rfl : _ = Except.error (some Status.cudaLaunch))

end VibeVoice.Encoder
