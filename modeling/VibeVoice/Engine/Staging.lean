import VibeVoice.Lib.Machine
import VibeVoice.Status

/-!
Staging of streamed layers on the device (`vv_layer_pool_stage`, `vv_layer_pool_unstage` in
`decoder.c`).

A layer is the list of its tensors in the order of `vv_layer_tensors`. Which device copies fail is
up to the caller of the model: each call to stage brings an answer for every copy it may make.

* `stage`, `unstage`, `create`: the calls.
* `Kept`: every streamed tensor has its host pointer, or that is saved where unstaging finds it.
* `Inv`: what the calls keep: a layer is as it was loaded, or in the slot that records it.
* `kept_iff`: a run keeps every weight exactly when no call fails behind a copy it has made.
-/

namespace VibeVoice.Staging

/-! ### Tensors and the pool -/

/-- Where a tensor is: nowhere, in memory of its own, or at an offset of a staging buffer. -/
inductive Ptr
  | null
  | mem (addr : ℕ)
  | staged (slot : Fin 2) (off : ℕ)
  deriving DecidableEq, Repr

/-- `vv_tensor_t`: what staging reads and writes of it. -/
structure Tensor where
  data : Ptr
  onGpu : Bool
  sizeBytes : ℕ
  deriving DecidableEq, Repr

/-- `VV_LAYER_TENSOR_SLOTS`. -/
def tensorSlots : ℕ := 2 + 7 * 5

/-- The tensors of a layer: two norms, then five for each of the seven projections. -/
@[ext]
structure Layer where
  tensors : List Tensor
  length_tensors : tensors.length = tensorSlots

/-- `attn.q_proj.tensor`. -/
def Layer.qProj (L : Layer) : Tensor := L.tensors.get ⟨2, by rw [L.length_tensors]; decide⟩

/-- `vv_layer_bytes`, of some of the tensors. -/
def bytes (ts : List Tensor) : ℕ := (ts.map fun t => if t.data = .null then 0 else t.sizeBytes).sum

/-- What the creation of the pool fixes. -/
structure Config where
  bufSize : ℕ
  nResident : ℕ
  allResident : Bool
  /-- `gpu_buf[1]` could be allocated. -/
  secondBuf : Bool

/-- `vv_layer_pool_create`. -/
def create (layers : List Layer) (allResident secondBuf : Bool) : Config where
  bufSize := (layers.map fun L => bytes L.tensors).foldl max 0 + tensorSlots * 256
  nResident := (layers.takeWhile fun L => L.qProj.onGpu).length
  allResident := allResident
  secondBuf := secondBuf

/-- A staging slot: the layer recorded in it and the pointers saved for that. -/
structure Slot where
  loaded : Option ℕ
  saved : ℕ → Ptr

/-- The layers of the model and the two slots. -/
structure State where
  layers : List Layer
  slots : Fin 2 → Slot

/-- The state a pool starts from. -/
def start (layers : List Layer) : State := ⟨layers, fun _ => ⟨none, fun _ => .null⟩⟩

/-! ### The calls -/

/-- `(off + 255) & ~255`. -/
def align (off : ℕ) : ℕ := (off + 255) / 256 * 256

/-- There is something to copy: `t->data && !t->on_gpu && t->size_bytes != 0`. -/
def Tensor.Streamed (t : Tensor) : Prop := t.data ≠ .null ∧ t.onGpu = false ∧ t.sizeBytes ≠ 0

instance (t : Tensor) : Decidable t.Streamed := inferInstanceAs (Decidable (_ ∧ _ ∧ _))

/-- The pointer saved for a tensor: `NULL` where there is nothing to restore. -/
def savedPtr (t : Tensor) : Ptr := if t.onGpu then .null else t.data

/-- A tensor pointed into a staging buffer. -/
def Tensor.patch (t : Tensor) (slot : Fin 2) (off : ℕ) : Tensor :=
  { t with data := .staged slot off, onGpu := true }

/-- The loop of `vv_layer_pool_stage` from tensor `idx` on, for the tensors, the saved pointers and
the status (`none` for `VV_OK`); `copy idx` is that of the copy. -/
def stageTensors (bufSize : ℕ) (slot : Fin 2) (copy : ℕ → Option Status) :
    ℕ → ℕ → (ℕ → Ptr) → List Tensor → List Tensor × (ℕ → Ptr) × Option Status
  | _, _, saved, [] => ([], saved, none)
  | idx, off, saved, t :: ts =>
    let saved := Function.update saved idx (savedPtr t)
    if ¬t.Streamed then
      let (ts, saved, status) := stageTensors bufSize slot copy (idx + 1) off saved ts
      (t :: ts, saved, status)
    else if bufSize < align off + t.sizeBytes then (t :: ts, saved, some .overflow)
    else
      match copy idx with
      | some e => (t :: ts, saved, some e)
      | none =>
        let (ts, saved, status) :=
          stageTensors bufSize slot copy (idx + 1) (align off + t.sizeBytes) saved ts
        (t.patch slot (align off) :: ts, saved, status)

lemma length_stageTensors (bufSize : ℕ) (slot : Fin 2) (copy : ℕ → Option Status) (idx off : ℕ)
    (saved : ℕ → Ptr) (ts : List Tensor) :
    (stageTensors bufSize slot copy idx off saved ts).1.length = ts.length := by
  induction ts generalizing idx off saved with
  | nil => rfl
  | cons t ts ih =>
    rw [stageTensors]
    split_ifs
    · rfl
    · cases copy idx with
      | none => exact congrArg (· + 1) (ih _ _ _)
      | some e => rfl
    · exact congrArg (· + 1) (ih _ _ _)

/-- The loop of `vv_layer_pool_unstage`: a saved pointer goes back into its tensor. -/
def restoreTensors (saved : ℕ → Ptr) (ts : List Tensor) : List Tensor :=
  ts.mapIdx fun idx t =>
    if saved idx = .null then t else { t with data := saved idx, onGpu := false }

/-- Restores a layer. -/
def Layer.restore (saved : ℕ → Ptr) (L : Layer) : Layer where
  tensors := restoreTensors saved L.tensors
  length_tensors := List.length_mapIdx.trans L.length_tensors

section Calls

variable (cfg : Config)

/-- The slot a layer is staged in. -/
def slotOf (layer : ℕ) : Fin 2 :=
  if cfg.secondBuf then ⟨layer % 2, Nat.mod_lt layer Nat.two_pos⟩ else ⟨0, Nat.two_pos⟩

/-- The slot that records a layer. -/
def slotWith (st : State) (layer : ℕ) : Option (Fin 2) :=
  [⟨0, Nat.two_pos⟩, ⟨1, Nat.one_lt_two⟩].find? fun s => (st.slots s).loaded = some layer

/-- `vv_layer_pool_unstage` of a layer there is. -/
def release (st : State) (layer : ℕ) : State :=
  match slotWith st layer with
  | none => st
  | some s => {
      layers := st.layers.modify layer (Layer.restore (st.slots s).saved)
      slots := Function.update st.slots s { st.slots s with loaded := none } }

/-- `vv_layer_pool_unstage`. -/
def unstage (st : State) (layer : ℤ) : Option Status × State :=
  if cfg.allResident then (none, st)
  else if layer < 0 ∨ st.layers.length ≤ layer then (some .invalidArg, st)
  else (none, release st layer.toNat)

/-- What else is in the slot of a layer is unstaged. -/
def evict (st : State) (layer : ℕ) : State :=
  match (st.slots (slotOf cfg layer)).loaded with
  | none => st
  | some old => if old = layer then st else release st old

/-- The copies of a layer into its slot. -/
def copyLayer (st : State) (layer : ℕ) (copy : ℕ → Option Status) (L : Layer) :
    List Tensor × (ℕ → Ptr) × Option Status :=
  stageTensors cfg.bufSize (slotOf cfg layer) copy 0 0 (st.slots (slotOf cfg layer)).saved L.tensors

/-- A layer with its tensors copied. -/
def copied (st : State) (layer : ℕ) (copy : ℕ → Option Status) (L : Layer) : Layer where
  tensors := (copyLayer cfg st layer copy L).1
  length_tensors := (length_stageTensors _ _ _ _ _ _ _).trans L.length_tensors

/-- The copies of a layer, and the slot recording it when all are done. -/
def load (st : State) (layer : ℕ) (copy : ℕ → Option Status) (L : Layer) : Option Status × State :=
  let slot := slotOf cfg layer
  let (_, saved, status) := copyLayer cfg st layer copy L
  let loaded := if status = none then some layer else (st.slots slot).loaded
  (status, {
    layers := st.layers.set layer (copied cfg st layer copy L)
    slots := Function.update st.slots slot ⟨loaded, saved⟩ })

/-- `vv_layer_pool_stage`. -/
def stage (st : State) (layer : ℤ) (copy : ℕ → Option Status) : Option Status × State :=
  if cfg.allResident then (none, st)
  else if layer < 0 ∨ st.layers.length ≤ layer then (some .invalidArg, st)
  else if layer < cfg.nResident then (none, st)
  else
    let st := evict cfg st layer.toNat
    if (st.slots (slotOf cfg layer.toNat)).loaded = some layer.toNat then (none, st)
    else
      match st.layers[layer.toNat]? with
      | some L => load cfg st layer.toNat copy L
      | none => (some .invalidArg, st)

/-- A call, with the statuses of the copies it may make. -/
inductive Call
  | stage (layer : ℤ) (copy : ℕ → Option Status)
  | unstage (layer : ℤ)

/-- A call and the status it returns. -/
def step (st : State) : Call → Option (Option Status × State)
  | .stage layer copy => some (stage cfg st layer copy)
  | .unstage layer => some (unstage cfg st layer)

end Calls

/-! ### The loops over the tensors of a layer -/

/-- A tensor as it was, or staged in a slot. -/
def Patched (slot : Fin 2) (o t : Tensor) : Prop :=
  t = o ∨ o.Streamed ∧ ∃ off, t = o.patch slot off

/-- Tensors staged in a slot, and what is saved of them. -/
structure StagedIn (slot : Fin 2) (saved : ℕ → Ptr) (os ts : List Tensor) : Prop where
  patched : List.Forall₂ (Patched slot) os ts
  saved : ∀ idx o, os[idx]? = some o → saved idx = savedPtr o

/-- The statuses of the copies a layer asks for, from tensor `idx` on. -/
def copies (copy : ℕ → Option Status) : ℕ → List Tensor → List (Option Status)
  | _, [] => []
  | idx, t :: ts =>
    if t.Streamed then copy idx :: copies copy (idx + 1) ts else copies copy (idx + 1) ts

/-- What `stageTensors` does to tensors that fit. -/
structure Outcome (slot : Fin 2) (copy : ℕ → Option Status) (idx : ℕ) (saved : ℕ → Ptr)
    (ts : List Tensor) (r : List Tensor × (ℕ → Ptr) × Option Status) : Prop where
  patched : List.Forall₂ (Patched slot) ts r.1
  frame : ∀ j < idx, r.2.1 j = saved j
  saved : r.2.2 = none → ∀ i t, ts[i]? = some t → r.2.1 (idx + i) = savedPtr t
  status : r.2.2 = (copies copy idx ts).findSome? id
  untouched : (copies copy idx ts).head? ≠ some none → r.1 = ts
  touched : (copies copy idx ts).head? = some none →
    ∃ i : ℕ, ∃ o t : Tensor, ts[i]? = some o ∧ r.1[i]? = some t ∧ o.onGpu = false ∧ t.onGpu = true

lemma patched_refl (slot : Fin 2) (ts : List Tensor) : List.Forall₂ (Patched slot) ts ts :=
  List.forall₂_same.mpr fun _ _ => .inl rfl

lemma align_le (off : ℕ) : align off ≤ off + 255 := by
  rw [align]
  omega

section Outcome

variable {slot : Fin 2} {copy : ℕ → Option Status} {idx : ℕ} {saved : ℕ → Ptr} {o : Tensor}
  {ts : List Tensor} {r : List Tensor × (ℕ → Ptr) × Option Status}

lemma copies_cons_of_streamed (h : o.Streamed) :
    copies copy idx (o :: ts) = copy idx :: copies copy (idx + 1) ts := if_pos h

lemma copies_cons_of_not_streamed (h : ¬o.Streamed) :
    copies copy idx (o :: ts) = copies copy (idx + 1) ts := if_neg h

lemma Outcome.frame_cons
    (h : Outcome slot copy (idx + 1) (Function.update saved idx (savedPtr o)) ts r) :
    ∀ j < idx, r.2.1 j = saved j := fun j hj => by
  rw [h.frame j (hj.trans idx.lt_succ_self), Function.update_of_ne hj.ne]

lemma Outcome.saved_cons
    (h : Outcome slot copy (idx + 1) (Function.update saved idx (savedPtr o)) ts r)
    (hok : r.2.2 = none) :
    ∀ i t, (o :: ts)[i]? = some t → r.2.1 (idx + i) = savedPtr t := by
  intro i t ht
  cases i with
  | zero =>
    obtain rfl : o = t := Option.some.inj ht
    rw [Nat.add_zero, h.frame idx idx.lt_succ_self, Function.update_self]
  | succ i =>
    rw [Nat.add_comm i 1, ← Nat.add_assoc]
    exact h.saved hok i t ht

/-- A tensor that is not copied. -/
lemma Outcome.skip (ho : ¬o.Streamed)
    (h : Outcome slot copy (idx + 1) (Function.update saved idx (savedPtr o)) ts r) :
    Outcome slot copy idx saved (o :: ts) (o :: r.1, r.2) := by
  refine ⟨.cons (.inl rfl) h.patched, h.frame_cons, h.saved_cons, ?_, ?_, ?_⟩
  · rw [copies_cons_of_not_streamed ho]
    exact h.status
  · rw [copies_cons_of_not_streamed ho]
    exact fun hne => congrArg (o :: ·) (h.untouched hne)
  · rw [copies_cons_of_not_streamed ho]
    intro hhead
    obtain ⟨i, o', t, hi, ht, hgpu⟩ := h.touched hhead
    exact ⟨i + 1, o', t, hi, ht, hgpu⟩

/-- A tensor that is copied. -/
lemma Outcome.patch (ho : o.Streamed) (hcopy : copy idx = none) (off : ℕ)
    (h : Outcome slot copy (idx + 1) (Function.update saved idx (savedPtr o)) ts r) :
    Outcome slot copy idx saved (o :: ts) (o.patch slot off :: r.1, r.2) := by
  refine ⟨.cons (.inr ⟨ho, off, rfl⟩) h.patched, h.frame_cons, h.saved_cons, ?_, ?_, ?_⟩
  · rw [copies_cons_of_streamed ho, hcopy]
    exact h.status
  · rw [copies_cons_of_streamed ho, hcopy]
    exact fun hne => absurd rfl hne
  · exact fun _ => ⟨0, o, o.patch slot off, rfl, rfl, ho.2.1, rfl⟩

/-- A tensor whose copy fails. -/
lemma Outcome.fail (ho : o.Streamed) {e : Status} (hcopy : copy idx = some e) :
    Outcome slot copy idx saved (o :: ts)
      (o :: ts, Function.update saved idx (savedPtr o), some e) := by
  refine ⟨patched_refl slot _, fun j hj => Function.update_of_ne hj.ne _ _, nofun, ?_,
    fun _ => rfl, ?_⟩
  · rw [copies_cons_of_streamed ho, hcopy]
    rfl
  · rw [copies_cons_of_streamed ho, hcopy]
    exact nofun

end Outcome

lemma bytes_cons (t : Tensor) (ts : List Tensor) :
    bytes (t :: ts) = (if t.data = .null then 0 else t.sizeBytes) + bytes ts := List.sum_cons

/-- Tensors for which the buffer has room are copied until a copy fails. -/
lemma stageTensors_outcome {bufSize : ℕ} (slot : Fin 2) (copy : ℕ → Option Status) (idx off : ℕ)
    (saved : ℕ → Ptr) (ts : List Tensor) (hfit : off + bytes ts + ts.length * 256 ≤ bufSize) :
    Outcome slot copy idx saved ts (stageTensors bufSize slot copy idx off saved ts) := by
  induction ts generalizing idx off saved with
  | nil => exact ⟨.nil, fun _ _ => rfl, fun _ _ _ => nofun, rfl, fun _ => rfl, nofun⟩
  | cons t ts ih =>
    rw [bytes_cons, List.length_cons] at hfit
    rw [stageTensors]
    by_cases ht : t.Streamed
    · rw [if_neg ht.1] at hfit
      have halign := align_le off
      rw [if_neg (not_not.mpr ht), if_neg (by omega)]
      cases hcopy : copy idx with
      | none => exact (ih _ _ _ (by omega)).patch ht hcopy (align off)
      | some e => exact .fail ht hcopy
    · rw [if_pos ht]
      exact (ih _ _ _ (by omega)).skip ht

/-- Unstaging gives the tensors back. -/
lemma restoreTensors_eq {slot : Fin 2} {saved : ℕ → Ptr} {os ts : List Tensor}
    (h : StagedIn slot saved os ts) : restoreTensors saved ts = os := by
  obtain ⟨hpatched, hsaved⟩ := h
  induction hpatched generalizing saved with
  | nil => rfl
  | @cons o t os ts hot htail ih =>
    have hrest := ih fun idx o' ho' => hsaved (idx + 1) o' ho'
    rw [restoreTensors, List.mapIdx_cons]
    refine congrArg₂ List.cons ?_ hrest
    rw [hsaved 0 o rfl, savedPtr]
    rcases hot with rfl | ⟨⟨hdata, hgpu, -⟩, off, rfl⟩
    · by_cases hgpu : t.onGpu
      · rw [if_pos hgpu, if_pos rfl]
      · have hfalse : t.onGpu = false := Bool.not_eq_true _ ▸ hgpu
        rw [if_neg hgpu, ← hfalse, ite_self]
    · rw [hgpu, if_neg Bool.false_ne_true, if_neg hdata, Tensor.patch, ← hgpu]

/-! ### What is kept -/

/-- A tensor of layer `l` has its host pointer and is off the GPU, or is in the slot that records
its layer and has its host pointer saved. -/
def TensorKept (st : State) (l idx : ℕ) (o t : Tensor) : Prop :=
  (t.data = o.data ∧ t.onGpu = false) ∨
    ∃ s off, t.data = .staged s off ∧ t.onGpu = true ∧ (st.slots s).loaded = some l ∧
      (st.slots s).saved idx = o.data

/-- No weight is lost: `layers` is the model as it was loaded. -/
def Kept (layers : List Layer) (st : State) : Prop :=
  ∀ (l : ℕ) (O : Layer), layers[l]? = some O → ∃ L, st.layers[l]? = some L ∧
    ∀ (idx : ℕ) (o : Tensor), O.tensors[idx]? = some o → o.onGpu = false →
      ∃ t, L.tensors[idx]? = some t ∧ TensorKept st l idx o t

/-- No copy of a call fails behind one that was made. -/
def Clean (cfg : Config) (st : State) : Call → Prop
  | .unstage _ => True
  | .stage layer copy =>
    cfg.allResident = false → 0 ≤ layer → cfg.nResident ≤ layer →
      (st.slots (slotOf cfg layer.toNat)).loaded ≠ some layer.toNat →
        ∀ L, st.layers[layer.toNat]? = some L → (copies copy 0 L.tensors).head? = some none →
          ∀ c ∈ copies copy 0 L.tensors, c = none

/-- A layer is as it was loaded, or staged in the slot that records it. -/
structure Inv (cfg : Config) (layers : List Layer) (st : State) : Prop where
  slot_eq : ∀ s l, (st.slots s).loaded = some l → slotOf cfg l = s
  staged : ∀ s l, (st.slots s).loaded = some l → ∃ O L, layers[l]? = some O ∧
    st.layers[l]? = some L ∧ StagedIn s (st.slots s).saved O.tensors L.tensors
  settled : ∀ l, (∀ s, (st.slots s).loaded ≠ some l) → st.layers[l]? = layers[l]?

section Inv

variable {cfg : Config} {layers : List Layer} {st : State}

lemma inv_start (cfg : Config) (layers : List Layer) : Inv cfg layers (start layers) :=
  ⟨fun _ _ => nofun, fun _ _ => nofun, fun _ _ => rfl⟩

/-- Only the slot of a layer records it. -/
lemma Inv.not_loaded (h : Inv cfg layers st) {l : ℕ}
    (hl : (st.slots (slotOf cfg l)).loaded ≠ some l) (s : Fin 2) :
    (st.slots s).loaded ≠ some l := by
  intro hs
  rw [h.slot_eq s l hs] at hl
  exact hl hs

lemma Inv.slotWith_eq (h : Inv cfg layers st) {s : Fin 2} {l : ℕ}
    (hs : (st.slots s).loaded = some l) : slotWith st l = some s := by
  rw [slotWith]
  by_cases h0 : (st.slots 0).loaded = some l
  · obtain rfl : s = 0 := (h.slot_eq s l hs).symm.trans (h.slot_eq 0 l h0)
    exact List.find?_cons_of_pos (decide_eq_true h0)
  · obtain rfl : s = 1 := Fin.eq_one_of_ne_zero s fun h => h0 (h ▸ hs)
    rw [List.find?_cons_of_neg (by simpa using h0)]
    exact List.find?_cons_of_pos (decide_eq_true hs)

lemma slotWith_eq_none {l : ℕ} (hl : ∀ s, (st.slots s).loaded ≠ some l) :
    slotWith st l = none :=
  List.find?_eq_none.mpr fun s _ => by simpa using hl s

lemma Inv.release_slots (h : Inv cfg layers st) {s : Fin 2} {l : ℕ}
    (hs : (st.slots s).loaded = some l) :
    (release st l).slots = Function.update st.slots s ⟨none, (st.slots s).saved⟩ := by
  rw [release, h.slotWith_eq hs]

lemma Inv.release_loaded (h : Inv cfg layers st) (l : ℕ) (s : Fin 2) :
    ((release st l).slots s).loaded =
      if (st.slots s).loaded = some l then none else (st.slots s).loaded := by
  by_cases hl : ∃ s, (st.slots s).loaded = some l
  · obtain ⟨s', hs'⟩ := hl
    rw [h.release_slots hs']
    by_cases heq : s = s'
    · subst heq
      rw [if_pos hs', Function.update_self]
    · have hne : (st.slots s).loaded ≠ some l := fun hs =>
        heq ((h.slot_eq s l hs).symm.trans (h.slot_eq s' l hs'))
      rw [if_neg hne, Function.update_of_ne heq]
  · rw [release, slotWith_eq_none fun s hs => hl ⟨s, hs⟩, if_neg fun hs => hl ⟨s, hs⟩]

lemma Inv.release_saved (h : Inv cfg layers st) (l : ℕ) (s : Fin 2) :
    ((release st l).slots s).saved = (st.slots s).saved := by
  by_cases hl : ∃ s, (st.slots s).loaded = some l
  · obtain ⟨s', hs'⟩ := hl
    rw [h.release_slots hs']
    by_cases heq : s = s'
    · subst heq
      rw [Function.update_self]
    · rw [Function.update_of_ne heq]
  · rw [release, slotWith_eq_none fun s hs => hl ⟨s, hs⟩]

/-- Unstaging a layer puts it back as it was loaded. -/
lemma Inv.release_layers (h : Inv cfg layers st) (l l' : ℕ) :
    (release st l).layers[l']? = if l' = l then layers[l]? else st.layers[l']? := by
  by_cases hl : ∃ s, (st.slots s).loaded = some l
  · obtain ⟨s, hs⟩ := hl
    obtain ⟨O, L, hO, hL, hstaged⟩ := h.staged s l hs
    have hlayers : (Staging.release st l).layers =
        st.layers.modify l (Layer.restore (st.slots s).saved) := by
      rw [release, h.slotWith_eq hs]
    rw [hlayers]
    by_cases heq : l' = l
    · subst heq
      rw [if_pos rfl, hO, List.getElem?_modify_eq, hL]
      exact congrArg some (Layer.ext (restoreTensors_eq hstaged))
    · rw [if_neg heq, List.getElem?_modify_ne _ _ (Ne.symm heq)]
  · rw [release, slotWith_eq_none fun s hs => hl ⟨s, hs⟩]
    by_cases heq : l' = l
    · rw [if_pos heq, heq, h.settled l fun s hs => hl ⟨s, hs⟩]
    · rw [if_neg heq]

lemma Inv.release (h : Inv cfg layers st) (l : ℕ) : Inv cfg layers (release st l) := by
  have hback : ∀ s l', ((Staging.release st l).slots s).loaded = some l' →
      (st.slots s).loaded = some l' ∧ l' ≠ l := by
    intro s l' hl'
    rw [h.release_loaded] at hl'
    split_ifs at hl' with hs
    exact ⟨hl', fun heq => hs (heq ▸ hl')⟩
  refine ⟨fun s l' hl' => h.slot_eq s l' (hback s l' hl').1, fun s l' hl' => ?_, fun l' hl' => ?_⟩
  · obtain ⟨hs, hne⟩ := hback s l' hl'
    rw [h.release_saved, h.release_layers, if_neg hne]
    exact h.staged s l' hs
  · rw [h.release_layers]
    by_cases heq : l' = l
    · rw [if_pos heq, heq]
    · rw [if_neg heq]
      refine h.settled l' fun s hs => hl' s ?_
      rw [h.release_loaded, hs, if_neg fun h => heq (Option.some.inj h)]

/-- Behind an eviction the slot is the layer's own or empty, and the layer is untouched. -/
lemma Inv.evict (h : Inv cfg layers st) {l : ℕ}
    (hl : (st.slots (slotOf cfg l)).loaded ≠ some l) :
    Inv cfg layers (evict cfg st l) ∧
      ((Staging.evict cfg st l).slots (slotOf cfg l)).loaded = none ∧
      (∀ s, ((Staging.evict cfg st l).slots s).loaded ≠ some l) ∧
      (Staging.evict cfg st l).layers[l]? = st.layers[l]? := by
  cases hold : (st.slots (slotOf cfg l)).loaded with
  | none =>
    have hevict : Staging.evict cfg st l = st := by rw [Staging.evict, hold]
    rw [hevict]
    exact ⟨h, hold, h.not_loaded hl, rfl⟩
  | some old =>
    have hne : old ≠ l := fun heq => hl (heq ▸ hold)
    have hevict : Staging.evict cfg st l = Staging.release st old := by
      rw [Staging.evict, hold]
      exact if_neg hne
    rw [hevict]
    refine ⟨h.release old, ?_, fun s hs => ?_, ?_⟩
    · rw [h.release_loaded, if_pos hold]
    · rw [h.release_loaded] at hs
      split_ifs at hs
      exact h.not_loaded hl s hs
    · rw [h.release_layers, if_neg hne.symm]

lemma load_layers (copy : ℕ → Option Status) {l : ℕ} {L : Layer} (hL : st.layers[l]? = some L)
    (l' : ℕ) : (load cfg st l copy L).2.layers[l']? =
      if l' = l then some (copied cfg st l copy L) else st.layers[l']? := by
  show (st.layers.set l _)[l']? = _
  by_cases heq : l' = l
  · subst heq
    rw [if_pos rfl, List.getElem?_set_self (List.getElem?_eq_some_iff.mp hL).1]
  · rw [if_neg heq, List.getElem?_set_ne (Ne.symm heq)]

lemma load_slot (copy : ℕ → Option Status) (l : ℕ) (L : Layer) :
    (load cfg st l copy L).2.slots (slotOf cfg l) =
      ⟨if (copyLayer cfg st l copy L).2.2 = none then some l
        else (st.slots (slotOf cfg l)).loaded, (copyLayer cfg st l copy L).2.1⟩ :=
  Function.update_self _ _ _

lemma load_slot_of_ne (copy : ℕ → Option Status) (l : ℕ) (L : Layer) {s : Fin 2}
    (hs : s ≠ slotOf cfg l) : (load cfg st l copy L).2.slots s = st.slots s :=
  Function.update_of_ne hs _ _

section Load

variable {l : ℕ} {copy : ℕ → Option Status} {L : Layer}

lemma copyLayer_outcome (hfit : bytes L.tensors + L.tensors.length * 256 ≤ cfg.bufSize) :
    Outcome (slotOf cfg l) copy 0 (st.slots (slotOf cfg l)).saved L.tensors
      (copyLayer cfg st l copy L) := by
  refine stageTensors_outcome _ _ _ _ _ _ ?_
  rw [Nat.zero_add]
  exact hfit

/-- All copies are made: the slot records the layer. -/
lemma Inv.load_of_ok (h : Inv cfg layers st) (hL : st.layers[l]? = some L)
    (hempty : (st.slots (slotOf cfg l)).loaded = none) (hl : ∀ s, (st.slots s).loaded ≠ some l)
    (hout : Outcome (slotOf cfg l) copy 0 (st.slots (slotOf cfg l)).saved L.tensors
      (copyLayer cfg st l copy L)) (hok : (copyLayer cfg st l copy L).2.2 = none) :
    Inv cfg layers (load cfg st l copy L).2 := by
  have hO : layers[l]? = some L := (h.settled l hl).symm.trans hL
  have hslot : (Staging.load cfg st l copy L).2.slots (slotOf cfg l) = _ := load_slot copy l L
  rw [if_pos hok] at hslot
  refine ⟨fun s l' hs => ?_, fun s l' hs => ?_, fun l' hl' => ?_⟩
  · by_cases heq : s = slotOf cfg l
    · subst heq
      rw [hslot] at hs
      rw [Option.some.inj hs]
    · rw [load_slot_of_ne copy l L heq] at hs
      exact h.slot_eq s l' hs
  · by_cases heq : s = slotOf cfg l
    · subst heq
      rw [hslot] at hs ⊢
      obtain rfl : l = l' := Option.some.inj hs
      refine ⟨L, _, hO, (load_layers copy hL l).trans (if_pos rfl), hout.patched,
        fun idx o ho => ?_⟩
      have hsaved := hout.saved hok idx o ho
      rwa [Nat.zero_add] at hsaved
    · rw [load_slot_of_ne copy l L heq] at hs ⊢
      have hne : l' ≠ l := fun h => hl s (h ▸ hs)
      rw [load_layers copy hL, if_neg hne]
      exact h.staged s l' hs
  · have hne : l' ≠ l := fun heq => hl' (slotOf cfg l) (by rw [hslot, heq])
    rw [load_layers copy hL, if_neg hne]
    refine h.settled l' fun s hs => ?_
    by_cases heq : s = slotOf cfg l
    · rw [heq, hempty] at hs
      exact nomatch hs
    · exact hl' s ((congrArg Slot.loaded (load_slot_of_ne copy l L heq)).trans hs)

/-- No copy is made: nothing is recorded, and nothing has changed. -/
lemma Inv.load_of_untouched (h : Inv cfg layers st) (hL : st.layers[l]? = some L)
    (hempty : (st.slots (slotOf cfg l)).loaded = none)
    (hsame : (copyLayer cfg st l copy L).1 = L.tensors)
    (hfail : (copyLayer cfg st l copy L).2.2 ≠ none) : Inv cfg layers (load cfg st l copy L).2 := by
  have hlayer : copied cfg st l copy L = L := Layer.ext hsame
  have hlayers : ∀ l' : ℕ, (Staging.load cfg st l copy L).2.layers[l']? = st.layers[l']? := by
    intro l'
    rw [load_layers copy hL, hlayer]
    by_cases heq : l' = l
    · rw [if_pos heq, heq, hL]
    · rw [if_neg heq]
  have hslot : (Staging.load cfg st l copy L).2.slots (slotOf cfg l) = _ := load_slot copy l L
  rw [if_neg hfail, hempty] at hslot
  have hback : ∀ s l', ((Staging.load cfg st l copy L).2.slots s).loaded = some l' →
      (Staging.load cfg st l copy L).2.slots s = st.slots s := by
    intro s l' hs
    by_cases heq : s = slotOf cfg l
    · rw [heq, hslot] at hs
      exact nomatch hs
    · exact load_slot_of_ne copy l L heq
  refine ⟨fun s l' hs => ?_, fun s l' hs => ?_, fun l' hl' => ?_⟩
  · rw [hback s l' hs] at hs
    exact h.slot_eq s l' hs
  · have heq := hback s l' hs
    rw [heq] at hs ⊢
    rw [hlayers]
    exact h.staged s l' hs
  · rw [hlayers]
    refine h.settled l' fun s hs => ?_
    by_cases heq : s = slotOf cfg l
    · rw [heq, hempty] at hs
      exact nomatch hs
    · exact hl' s ((congrArg Slot.loaded (load_slot_of_ne copy l L heq)).trans hs)

/-- A copy fails behind one that was made: the tensor of that one is lost. -/
lemma Inv.not_kept_of_touched (h : Inv cfg layers st) (hL : st.layers[l]? = some L)
    (hempty : (st.slots (slotOf cfg l)).loaded = none) (hl : ∀ s, (st.slots s).loaded ≠ some l)
    (hout : Outcome (slotOf cfg l) copy 0 (st.slots (slotOf cfg l)).saved L.tensors
      (copyLayer cfg st l copy L)) (hfail : (copyLayer cfg st l copy L).2.2 ≠ none)
    (hhead : (copies copy 0 L.tensors).head? = some none) :
    ¬Kept layers (load cfg st l copy L).2 := by
  intro hkept
  obtain ⟨idx, o, t, ho, ht, hogpu, htgpu⟩ := hout.touched hhead
  obtain ⟨L', hL', htensors⟩ := hkept l L ((h.settled l hl).symm.trans hL)
  rw [load_layers copy hL, if_pos rfl] at hL'
  obtain rfl := Option.some.inj hL'
  obtain ⟨t', ht', hkeep⟩ := htensors idx o ho hogpu
  obtain rfl : t = t' := Option.some.inj (ht.symm.trans ht')
  rcases hkeep with ⟨-, hfalse⟩ | ⟨s, off, -, -, hloaded, -⟩
  · exact Bool.false_ne_true (hfalse.symm.trans htgpu)
  · by_cases heq : s = slotOf cfg l
    · rw [heq, load_slot, if_neg hfail, hempty] at hloaded
      exact nomatch hloaded
    · rw [load_slot_of_ne copy l L heq] at hloaded
      exact hl s hloaded

/-- The copies keep what is kept exactly when none of them fails behind one that was made. -/
lemma Inv.load (h : Inv cfg layers st) (copy : ℕ → Option Status) (hL : st.layers[l]? = some L)
    (hempty : (st.slots (slotOf cfg l)).loaded = none) (hl : ∀ s, (st.slots s).loaded ≠ some l)
    (hfit : bytes L.tensors + L.tensors.length * 256 ≤ cfg.bufSize) :
    (((copies copy 0 L.tensors).head? = some none → ∀ c ∈ copies copy 0 L.tensors, c = none) →
        Inv cfg layers (load cfg st l copy L).2) ∧
      (Kept layers (Staging.load cfg st l copy L).2 →
        (copies copy 0 L.tensors).head? = some none →
          ∀ c ∈ copies copy 0 L.tensors, c = none) := by
  have hout : Outcome (slotOf cfg l) copy 0 (st.slots (slotOf cfg l)).saved L.tensors
      (copyLayer cfg st l copy L) := copyLayer_outcome hfit
  have hstatus : (copyLayer cfg st l copy L).2.2 = none ↔ ∀ c ∈ copies copy 0 L.tensors, c = none :=
    by rw [hout.status, List.findSome?_eq_none_iff]; rfl
  by_cases hok : (copyLayer cfg st l copy L).2.2 = none
  · exact ⟨fun _ => h.load_of_ok hL hempty hl hout hok, fun _ _ => hstatus.mp hok⟩
  · by_cases hhead : (copies copy 0 L.tensors).head? = some none
    · refine ⟨fun hclean => absurd (hstatus.mpr (hclean hhead)) hok, fun hkept => ?_⟩
      exact absurd hkept (h.not_kept_of_touched hL hempty hl hout hok hhead)
    · exact ⟨fun _ => h.load_of_untouched hL hempty (hout.untouched hhead) hok,
        fun _ h => absurd h hhead⟩

end Load

lemma exists_of_forall₂ {R : Tensor → Tensor → Prop} {os ts : List Tensor}
    (h : List.Forall₂ R os ts) {idx : ℕ} {o : Tensor} (ho : os[idx]? = some o) :
    ∃ t, ts[idx]? = some t ∧ R o t := by
  induction h generalizing idx with
  | nil => exact nomatch ho
  | cons hR _ ih =>
    cases idx with
    | zero =>
      obtain rfl := Option.some.inj ho
      exact ⟨_, rfl, hR⟩
    | succ idx => exact ih ho

lemma Inv.kept (h : Inv cfg layers st) : Kept layers st := by
  intro l O hO
  by_cases hl : ∃ s, (st.slots s).loaded = some l
  · obtain ⟨s, hs⟩ := hl
    obtain ⟨O', L, hO', hL, hstaged⟩ := h.staged s l hs
    obtain rfl : O' = O := Option.some.inj (hO'.symm.trans hO)
    refine ⟨L, hL, fun idx o ho hgpu => ?_⟩
    obtain ⟨t, ht, hpatched⟩ := exists_of_forall₂ hstaged.patched ho
    refine ⟨t, ht, ?_⟩
    rcases hpatched with rfl | ⟨-, off, rfl⟩
    · exact .inl ⟨rfl, hgpu⟩
    · refine .inr ⟨s, off, rfl, rfl, hs, ?_⟩
      rw [hstaged.saved idx o ho, savedPtr, hgpu, if_neg Bool.false_ne_true]
  · refine ⟨O, (h.settled l fun s hs => hl ⟨s, hs⟩).trans hO, fun idx o ho hgpu => ?_⟩
    exact ⟨o, ho, .inl ⟨rfl, hgpu⟩⟩

end Inv

/-! ### Runs -/

section Runs

variable {layers : List Layer} {allResident secondBuf : Bool} {st : State}

lemma le_foldl_max {xs : List ℕ} {x b : ℕ} (h : x ≤ b ∨ x ∈ xs) : x ≤ xs.foldl max b := by
  induction xs generalizing b with
  | nil => exact h.resolve_right (List.not_mem_nil)
  | cons y ys ih =>
    refine ih ?_
    rcases h with hb | hmem
    · exact .inl (hb.trans (le_max_left b y))
    · rcases List.mem_cons.mp hmem with rfl | hys
      · exact .inl (le_max_right b x)
      · exact .inr hys

/-- A staging buffer has room for every layer, with a gap before every tensor. -/
lemma le_bufSize {L : Layer} (hL : L ∈ layers) :
    bytes L.tensors + L.tensors.length * 256 ≤ (create layers allResident secondBuf).bufSize := by
  have hmax : bytes L.tensors ≤ (layers.map fun L => bytes L.tensors).foldl max 0 :=
    le_foldl_max (.inr (List.mem_map_of_mem hL))
  rw [L.length_tensors]
  exact Nat.add_le_add_right hmax _

lemma evict_eq_self {cfg : Config} {l : ℕ} (hl : (st.slots (slotOf cfg l)).loaded = some l) :
    evict cfg st l = st := by
  rw [evict, hl]
  exact if_pos rfl

lemma Inv.stage (h : Inv (create layers allResident secondBuf) layers st) (layer : ℤ)
    (copy : ℕ → Option Status) :
    (Clean (create layers allResident secondBuf) st (.stage layer copy) →
        Inv (create layers allResident secondBuf) layers
          (stage (create layers allResident secondBuf) st layer copy).2) ∧
      (Kept layers (Staging.stage (create layers allResident secondBuf) st layer copy).2 →
        Clean (create layers allResident secondBuf) st (.stage layer copy)) := by
  by_cases hall : (create layers allResident secondBuf).allResident = true
  · rw [Staging.stage, if_pos hall]
    exact ⟨fun _ => h, fun _ hnot => nomatch hall.symm.trans hnot⟩
  rw [Staging.stage, if_neg hall]
  by_cases hrange : layer < 0 ∨ (st.layers.length : ℤ) ≤ layer
  · rw [if_pos hrange]
    refine ⟨fun _ => h, fun _ _ hpos _ _ L hL => ?_⟩
    have hlt := (List.getElem?_eq_some_iff.mp hL).1
    omega
  rw [if_neg hrange]
  obtain ⟨l, rfl⟩ := Int.eq_ofNat_of_zero_le (by omega : 0 ≤ layer)
  by_cases hres : (l : ℤ) < (create layers allResident secondBuf).nResident
  · rw [if_pos hres]
    exact ⟨fun _ => h, fun _ _ _ hge => absurd hge (not_le.mpr hres)⟩
  rw [if_neg hres, Int.toNat_natCast]
  by_cases hl : (st.slots (slotOf (create layers allResident secondBuf) l)).loaded = some l
  · rw [evict_eq_self hl]
    show (_ → Inv _ _ (if _ then _ else _ : Option Status × State).2) ∧ _
    rw [if_pos hl]
    exact ⟨fun _ => h, fun _ _ _ _ hne => absurd hl hne⟩
  · obtain ⟨hinv, hempty, hnot, hsame⟩ := h.evict hl
    obtain ⟨L, hL⟩ : ∃ L, st.layers[l]? = some L :=
      ⟨_, List.getElem?_eq_getElem (by omega)⟩
    have hroom : bytes L.tensors + L.tensors.length * 256 ≤
        (create layers allResident secondBuf).bufSize :=
      le_bufSize (List.mem_of_getElem? ((h.settled l (h.not_loaded hl)).symm.trans hL))
    obtain ⟨hkeep, hlose⟩ := hinv.load copy (hsame.trans hL) hempty hnot hroom
    simp only [hempty, hsame, hL, reduceCtorEq, if_false]
    refine ⟨fun hclean => hkeep ?_, fun hkept _ _ _ _ L' hL' => ?_⟩
    · exact hclean (Bool.not_eq_true _ ▸ hall) (Int.natCast_nonneg l) (not_lt.mp hres) hl L hL
    · obtain rfl : L = L' := Option.some.inj (hL.symm.trans hL')
      exact hlose hkept

lemma inv_step (h : Inv (create layers allResident secondBuf) layers st) (c : Call) :
    ∃ r, step (create layers allResident secondBuf) st c = some r ∧
      (Clean (create layers allResident secondBuf) st c →
        Inv (create layers allResident secondBuf) layers r.2) ∧
      (Kept layers r.2 → Clean (create layers allResident secondBuf) st c) := by
  cases c with
  | stage layer copy => exact ⟨_, rfl, h.stage layer copy⟩
  | unstage layer =>
    refine ⟨_, rfl, fun _ => ?_, fun _ => trivial⟩
    rw [unstage]
    split_ifs
    · exact h
    · exact h
    · exact h.release layer.toNat

/-- Along a run of calls every weight is kept exactly when no call fails behind a copy it has
made. -/
theorem kept_iff (layers : List Layer) (allResident secondBuf : Bool) (calls : List Call) :
    Machine.Along (step (create layers allResident secondBuf)) (Kept layers) (start layers) calls ↔
      Machine.Guarded (step (create layers allResident secondBuf))
        (Clean (create layers allResident secondBuf)) (start layers) calls :=
  Machine.Along.iff_guarded (I := Inv (create layers allResident secondBuf) layers)
    (fun _ h => h.kept) (fun _ c h => inv_step h c) (inv_start _ _) calls

/-- A layer of two small tensors. -/
def twoTensors : Layer :=
  ⟨⟨.mem 1, false, 4⟩ :: ⟨.mem 2, false, 4⟩ :: List.replicate 35 ⟨.null, false, 0⟩, rfl⟩

/-- The second copy fails. Staged again and unstaged, the first tensor still points into the
staging buffer. -/
theorem failed_copy_loses_weight :
    ¬Machine.Along (step (create [twoTensors] false true)) (Kept [twoTensors])
      (start [twoTensors]) [.stage 0 fun idx => if idx = 1 then some .cuda else none] ∧
    ∃ st, Machine.run (step (create [twoTensors] false true)) (start [twoTensors])
        [.stage 0 fun idx => if idx = 1 then some .cuda else none, .stage 0 fun _ => none,
          .unstage 0] = some st ∧
      (st.layers[0]?.bind fun L => L.tensors[0]?) = some ⟨.staged 0 0, true, 4⟩ := by
  refine ⟨fun h => ?_, _, rfl, rfl⟩
  obtain ⟨L, hL, hkept⟩ := h _ List.prefix_rfl _ rfl 0 twoTensors rfl
  obtain rfl := Option.some.inj hL
  obtain ⟨t, ht, hcase⟩ := hkept 0 ⟨.mem 1, false, 4⟩ rfl rfl
  obtain rfl := Option.some.inj ht
  rcases hcase with ⟨-, hgpu⟩ | ⟨s, off, -, -, hloaded, -⟩
  · exact nomatch hgpu
  · obtain rfl | rfl : s = 0 ∨ s = 1 := by omega
    · exact nomatch hloaded
    · exact nomatch hloaded

end Runs

end VibeVoice.Staging
