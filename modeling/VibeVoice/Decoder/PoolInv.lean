import Mathlib.Data.List.Basic
import VibeVoice.Decoder.LayerPool

/-!
The invariant of the layer pool, and what keeps it.

* `Inv`: what holds between two operations on the pool.
* `prefetchBegin_cases`, `prefetchWait_waited`, `computed_streamed`: one operation each.
-/

namespace VibeVoice.Decoder

open Streams (Log Schedule)

/-! ### The copies of one layer -/

section Stage

variable {bufSize : ℕ} {slot : Slot} {fault : ℕ → Bool}

/-- The copies of a layer whose tensors are all on the host, into a buffer that has the room. -/
structure Copied (bufSize : ℕ) (slot : Slot) (idx off : ℕ) (sizes : List ℕ)
    (r : List Part × List (Place × Bool) × Except Status Unit) : Prop where
  ok : r.2.2 = .ok ()
  saved : r.2.1.map Prod.snd = List.replicate sizes.length true
  points : ∀ j size, sizes[j]? = some size → size ≠ 0 →
    ∃ o, (r.2.1.map Prod.fst)[j]? = some (.dev slot o) ∧ ⟨idx + j, o, size⟩ ∈ r.1
  room : ∀ part ∈ r.1, off ≤ part.off ∧ part.off + part.size ≤ bufSize
  apart : r.1.Pairwise fun part part' => part.off + part.size ≤ part'.off

lemma stageTensors_copied (hfault : ∀ t, fault t = false) :
    ∀ (sizes : List ℕ) (idx off : ℕ), off + (sizes.map (· + 255)).sum ≤ bufSize →
      Copied bufSize slot idx off sizes
        (stageTensors bufSize slot fault idx off (sizes.map (·, Place.host))) := by
  intro sizes
  induction sizes with
  | nil =>
    intro idx off _
    exact ⟨rfl, rfl, nofun, nofun, .nil⟩
  | cons size sizes ih =>
    intro idx off hroom
    rw [List.map_cons, List.sum_cons] at hroom
    rw [List.map_cons, stageTensors]
    by_cases hsize : size = 0
    · rw [if_pos (.inl hsize)]
      have h := ih (idx + 1) off (by omega)
      refine ⟨h.ok, ?_, ?_, h.room, h.apart⟩
      · rw [List.map_cons, h.saved]
        rfl
      · intro j size' hj hne
        cases j with
        | zero => exact absurd ((Option.some.inj hj).symm.trans hsize) hne
        | succ j =>
          obtain ⟨o, ho, hmem⟩ := h.points j size' hj hne
          rw [show idx + 1 + j = idx + (j + 1) by omega] at hmem
          exact ⟨o, ho, hmem⟩
    · rw [if_neg (by simp [hsize])]
      dsimp only
      obtain ⟨start, hstart⟩ : ∃ start, start = (off + 255) / 256 * 256 := ⟨_, rfl⟩
      have hlow : off ≤ start := by omega
      have hhigh : start ≤ off + 255 := by omega
      rw [← hstart]
      clear hstart
      rw [if_neg (by omega), hfault, if_neg Bool.false_ne_true]
      have h := ih (idx + 1) (start + size) (by omega)
      refine ⟨h.ok, ?_, ?_, ?_, ?_⟩
      · rw [List.map_cons, h.saved]
        rfl
      · intro j size' hj hne
        cases j with
        | zero =>
          obtain rfl := Option.some.inj hj
          exact ⟨_, rfl, List.mem_cons_self⟩
        | succ j =>
          obtain ⟨o, ho, hmem⟩ := h.points j size' hj hne
          rw [show idx + 1 + j = idx + (j + 1) by omega] at hmem
          exact ⟨o, ho, List.mem_cons_of_mem _ hmem⟩
      · intro part hpart
        rcases List.mem_cons.mp hpart with rfl | htail
        · exact ⟨hlow, by dsimp only; omega⟩
        · obtain ⟨hafter, hend⟩ := h.room part htail
          exact ⟨by omega, hend⟩
      · refine List.pairwise_cons.mpr ⟨fun part hpart => ?_, h.apart⟩
        exact (h.room part hpart).1

lemma sum_le_maxLayerBytes (W : Weights) {layer n : ℕ} (h : layer < n) :
    (W.sizes layer).sum ≤ maxLayerBytes W n := by
  induction n with
  | zero => exact absurd h (Nat.not_lt_zero _)
  | succ n ih =>
    rw [maxLayerBytes]
    rcases Nat.lt_succ_iff_lt_or_eq.mp h with hlt | rfl
    · exact (ih hlt).trans (Nat.le_max_left ..)
    · exact Nat.le_max_right ..

lemma sum_map_align (sizes : List ℕ) :
    (sizes.map (· + 255)).sum = sizes.sum + sizes.length * 255 := by
  induction sizes with
  | nil => rfl
  | cons size sizes ih =>
    rw [List.map_cons, List.sum_cons, ih, List.sum_cons, List.length_cons]
    omega

/-- A layer of the model fits, whatever the alignment of its tensors costs. -/
lemma room_of_layer (W : Weights) {layer : ℕ} (h : layer < W.numLayers) :
    0 + ((W.sizes layer).map (· + 255)).sum ≤ W.bufSize := by
  have hsum := sum_le_maxLayerBytes W h
  calc 0 + ((W.sizes layer).map (· + 255)).sum
      = (W.sizes layer).sum + layerTensorSlots * 255 := by
        rw [sum_map_align, W.length_sizes, Nat.zero_add]
    _ ≤ W.bufSize := Nat.add_le_add hsum (Nat.mul_le_mul_left _ (Nat.le_succ _))

lemma zip_replicate_host {n : ℕ} (sizes : List ℕ) (h : sizes.length = n) :
    sizes.zip (List.replicate n Place.host) = sizes.map (·, Place.host) := by
  subst h
  induction sizes with
  | nil => rfl
  | cons size sizes ih => rw [List.length_cons, List.replicate_succ, List.zip_cons_cons, ih]; rfl

end Stage

/-! ### The invariant -/

/-- Every copy into a staging buffer is among these operations. -/
def KnownTo (l : Log Stream Event Op) (slot : Slot) (past : List ℕ) : Prop :=
  ∀ n, copiesInto l slot n = true → n ∈ past

/-- The operation computes a layer from a staging buffer. -/
def Reads (c : PoolConfig) (l : Log Stream Event Op) (slot : Slot) (n : ℕ) : Prop :=
  ∃ layer places, l.op n = some (.compute layer places) ∧ c.nResident ≤ layer ∧ c.slot layer = slot

/-- What of `Right` is a matter of the order only. -/
structure Fixed (W : Weights) (l : Log Stream Event Op) (k layer : ℕ) (places : List Place)
    (slot : Slot) (w : ℕ) (parts : List Part) : Prop where
  filled : Filled W.bufSize slot (W.sizes layer) parts places
  copied : l.op w = some (.copy slot layer parts)
  before : w ∈ l.past k
  others : ∀ n, copiesInto l slot n = true → n ≠ w → n ∈ l.past w ∨ k ∈ l.past n

/-- A staging buffer holds a layer: the last copy into it is that of the layer. -/
structure Held (W : Weights) (c : PoolConfig) (p : Pool) (slot : Slot) (layer : ℕ) : Prop where
  streamed : c.nResident ≤ layer
  slot_eq : c.slot layer = slot
  saved : p.saved slot = List.replicate layerTensorSlots true
  filled : ∃ w parts, p.log.op w = some (.copy slot layer parts) ∧
    Filled W.bufSize slot (W.sizes layer) parts (p.place layer) ∧
    ∀ n, copiesInto p.log slot n = true → n ≠ w → n ∈ p.log.past w

/-- What holds between a copy and the records that follow it. -/
structure Core (W : Weights) (c : PoolConfig) (p : Pool) : Prop where
  wf : p.log.Wf
  resident : ∀ layer, layer < c.nResident → ∀ place ∈ p.place layer, place = .resident
  host : ∀ layer, c.nResident ≤ layer → p.loaded (c.slot layer) ≠ some layer →
    p.place layer = List.replicate layerTensorSlots .host
  length_place : ∀ layer, (p.place layer).length = layerTensorSlots
  length_saved : ∀ slot, (p.saved slot).length ≤ layerTensorSlots
  held : ∀ {slot layer}, p.loaded slot = some layer → Held W c p slot layer
  empty : ∀ {slot}, p.loaded slot = none → ∀ n, copiesInto p.log slot n = false
  computed : ∀ {slot n}, Reads c p.log slot n → n ∈ p.log.known .compute
  event_done : ∀ {slot n}, n ∈ p.log.event (.done slot) → n ∈ p.log.known .compute
  flown : ∀ slot, KnownTo p.log slot (p.log.known .xfer) ∨ KnownTo p.log slot (p.log.known .compute)
  right : ∀ {k layer places}, p.log.op k = some (.compute layer places) →
    if layer < c.nResident then ∀ place ∈ places, place = .resident
    else ∃ w parts, Fixed W p.log k layer places (c.slot layer) w parts

/-- The invariant of the pool. What is in a buffer is known to its `ready` event, or already to the
compute stream; a valid `done` event knows the copies into the buffer and what read it. -/
structure Inv (W : Weights) (c : PoolConfig) (p : Pool) : Prop extends Core W c p where
  ready : ∀ slot, KnownTo p.log slot (p.log.event (.ready slot)) ∨
    KnownTo p.log slot (p.log.known .compute)
  done_copies : ∀ {slot}, p.doneValid slot = true → KnownTo p.log slot (p.log.event (.done slot))
  done_reads : ∀ {slot n}, p.doneValid slot = true → Reads c p.log slot n →
    n ∈ p.log.event (.done slot)

section Frame

variable {W : Weights} {c : PoolConfig} {l : Log Stream Event Op} {slot : Slot} {t : Stream}
  {o : Op}

lemma copiesInto_iff {n : ℕ} :
    copiesInto l slot n = true ↔ ∃ layer parts, l.op n = some (.copy slot layer parts) := by
  rw [copiesInto]
  constructor
  · intro h
    split at h
    · next slot' layer parts heq =>
        obtain rfl := eq_of_beq h
        exact ⟨layer, parts, heq⟩
    · exact absurd h Bool.false_ne_true
  · rintro ⟨layer, parts, h⟩
    rw [h]
    exact beq_self_eq_true slot

/-- A copy into a buffer in the longer log is an old one, or the new operation. -/
lemma copiesInto_enqueue {n : ℕ} (h : copiesInto (l.enqueue t o) slot n = true) :
    n < l.ops.length ∧ copiesInto l slot n = true ∨
      n = l.ops.length ∧ ∃ layer parts, o = .copy slot layer parts := by
  obtain ⟨layer, parts, hop⟩ := copiesInto_iff.mp h
  rcases Log.op_enqueue hop with ⟨hlt, hold⟩ | ⟨rfl, rfl⟩
  · exact .inl ⟨hlt, copiesInto_iff.mpr ⟨layer, parts, hold⟩⟩
  · exact .inr ⟨rfl, layer, parts, rfl⟩

lemma reads_enqueue {n : ℕ} (h : Reads c (l.enqueue t o) slot n) :
    Reads c l slot n ∨ n = l.ops.length ∧
      ∃ layer places, o = .compute layer places ∧ c.slot layer = slot := by
  obtain ⟨layer, places, hop, hstr, hslot⟩ := h
  rcases Log.op_enqueue hop with ⟨-, hold⟩ | ⟨rfl, rfl⟩
  · exact .inl ⟨layer, places, hold, hstr, hslot⟩
  · exact .inr ⟨rfl, layer, places, rfl, hslot⟩

lemma Fixed.lt {k layer : ℕ} {places : List Place} {w : ℕ} {parts : List Part} (hl : l.Wf)
    (h : Fixed W l k layer places slot w parts) (hk : k < l.ops.length) : w < l.ops.length :=
  (hl.past_lt h.before).trans hk

/-- A read stays fixed by what is enqueued later, as long as a new copy into its buffer knows it. -/
lemma Fixed.enqueue {k layer : ℕ} {places : List Place} {w : ℕ} {parts : List Part} (hl : l.Wf)
    (h : Fixed W l k layer places slot w parts) (hk : k < l.ops.length)
    (hnew : ∀ layer parts, o = .copy slot layer parts → k ∈ l.known t) :
    Fixed W (l.enqueue t o) k layer places slot w parts where
  filled := h.filled
  copied := (Log.op_enqueue_old t o (h.lt hl hk)).trans h.copied
  before := (Log.past_enqueue_old t o hk).symm ▸ h.before
  others n hn hne := by
    rcases copiesInto_enqueue hn with ⟨hlt, hold⟩ | ⟨rfl, layer', parts', ho⟩
    · rw [Log.past_enqueue_old t o hlt, Log.past_enqueue_old t o (h.lt hl hk)]
      exact h.others n hold hne
    · rw [Log.past_enqueue_new]
      exact .inr (hnew layer' parts' ho)

end Frame

/-! ### Waiting and recording -/

section Events

variable {W : Weights} {c : PoolConfig} {p : Pool}

lemma Core.wait (h : Core W c p) (t : Stream) (e : Event) :
    Core W c { p with log := p.log.wait t e } where
  wf := h.wf.wait t e
  resident := h.resident
  host := h.host
  length_place := h.length_place
  length_saved := h.length_saved
  held hs := by
    obtain ⟨hstr, hslot, hsaved, hfilled⟩ := h.held hs
    exact ⟨hstr, hslot, hsaved, hfilled⟩
  empty := h.empty
  computed hn := Log.known_wait_mono (h.computed hn)
  event_done hn := Log.known_wait_mono (h.event_done hn)
  flown slot := by
    rcases h.flown slot with hx | hc
    · exact .inl fun n hn => Log.known_wait_mono (hx n hn)
    · exact .inr fun n hn => Log.known_wait_mono (hc n hn)
  right hk := by
    have hright := h.right hk
    split_ifs at hright ⊢ with hres
    · exact hright
    · obtain ⟨w, parts, hf, hcop, hbef, hoth⟩ := hright
      exact ⟨w, parts, hf, hcop, hbef, hoth⟩

/-- To wait is always safe. -/
lemma Inv.wait (h : Inv W c p) (t : Stream) (e : Event) :
    Inv W c { p with log := p.log.wait t e } where
  toCore := h.toCore.wait t e
  ready slot := by
    rcases h.ready slot with hr | hc
    · exact .inl hr
    · exact .inr fun n hn => Log.known_wait_mono (hc n hn)
  done_copies := h.done_copies
  done_reads := h.done_reads

lemma Core.record (h : Core W c p) (e : Event) (t : Stream)
    (hdone : ∀ slot, e = .done slot → t = .compute) :
    Core W c { p with log := p.log.record e t } where
  wf := h.wf.record e t
  resident := h.resident
  host := h.host
  length_place := h.length_place
  length_saved := h.length_saved
  held hs := by
    obtain ⟨hstr, hslot, hsaved, hfilled⟩ := h.held hs
    exact ⟨hstr, hslot, hsaved, hfilled⟩
  empty := h.empty
  computed := h.computed
  event_done {slot n} hn := by
    by_cases he : Event.done slot = e
    · subst he
      obtain rfl := hdone slot rfl
      exact Log.event_record_self (l := p.log) (.done slot) .compute ▸ hn
    · exact h.event_done (Log.event_record_of_ne (l := p.log) t he ▸ hn)
  flown := h.flown
  right hk := by
    have hright := h.right hk
    split_ifs at hright ⊢ with hres
    · exact hright
    · obtain ⟨w, parts, hf, hcop, hbef, hoth⟩ := hright
      exact ⟨w, parts, hf, hcop, hbef, hoth⟩

lemma Core.setDone (h : Core W c p) (doneValid : Slot → Bool) :
    Core W c { p with doneValid := doneValid } where
  wf := h.wf
  resident := h.resident
  host := h.host
  length_place := h.length_place
  length_saved := h.length_saved
  held hs := by
    obtain ⟨hstr, hslot, hsaved, hfilled⟩ := h.held hs
    exact ⟨hstr, hslot, hsaved, hfilled⟩
  empty := h.empty
  computed := h.computed
  event_done := h.event_done
  flown := h.flown
  right := h.right

end Events

/-! ### Staging -/

section Staging

variable {W : Weights} {c : PoolConfig} {fault : ℕ → ℕ → Bool} {p : Pool} {x : ℕ} {t : Stream}

/-- The places of the layers once a buffer is given up. -/
def clearedPlace (p : Pool) (slot : Slot) : ℕ → List Place :=
  match p.loaded slot with
  | none => p.place
  | some old => Function.update p.place old (List.replicate layerTensorSlots .host)

lemma zipWith_saved (places : List Place) (n : ℕ) (h : places.length = n) :
    places.zipWith (fun place saved => if saved then .host else place) (List.replicate n true) =
      List.replicate n Place.host := by
  subst h
  induction places with
  | nil => rfl
  | cons place places ih =>
    rw [List.length_cons, List.replicate_succ, List.zipWith_cons_cons, ih]
    rfl

lemma unstage_eq (hc : Core W c p) {slot : Slot} {old : ℕ} (h : p.loaded slot = some old) :
    unstage p old = { p with
      place := clearedPlace p slot
      loaded := Function.update p.loaded slot none } := by
  have hfind : ([0, 1] : List Slot).find? (fun s => p.loaded s = some old) = some slot := by
    have honly : ∀ s, p.loaded s = some old → s = slot := fun s hs =>
      (hc.held hs).slot_eq.symm.trans (hc.held h).slot_eq
    by_cases hzero : p.loaded 0 = some old
    · rw [List.find?_cons_of_pos (by simpa using hzero), honly 0 hzero]
    · rw [List.find?_cons_of_neg (by simpa using hzero)]
      have hslot : slot = 1 := by
        match slot with
        | 0 => exact absurd h hzero
        | 1 => rfl
      rw [← hslot, List.find?_cons_of_pos (by simpa using h)]
  rw [unstage, hfind, clearedPlace, h]
  dsimp only
  rw [(hc.held h).saved, zipWith_saved _ _ (hc.length_place old)]

/-- What a copy of a whole layer leaves. -/
structure Staged (W : Weights) (c : PoolConfig) (p p' : Pool) (x : ℕ) (t : Stream)
    (parts : List Part) (places : List Place) : Prop where
  loaded : p'.loaded = Function.update p.loaded (c.slot x) (some x)
  doneValid : p'.doneValid = p.doneValid
  saved : p'.saved = Function.update p.saved (c.slot x) (List.replicate layerTensorSlots true)
  place : p'.place = Function.update (clearedPlace p (c.slot x)) x places
  log : p'.log = p.log.enqueue t (.copy (c.slot x) x parts)
  filled : Filled W.bufSize (c.slot x) (W.sizes x) parts places
  length_places : places.length = layerTensorSlots

lemma filled_of_copied {slot : Slot} {sizes : List ℕ}
    {r : List Part × List (Place × Bool) × Except Status Unit} {bufSize : ℕ}
    (h : Copied bufSize slot 0 0 sizes r) :
    Filled bufSize slot sizes r.1 (r.2.1.map Prod.fst) where
  points j size hj hne := by
    obtain ⟨o, ho, hmem⟩ := h.points j size hj hne
    rw [Nat.zero_add] at hmem
    exact ⟨o, ho, hmem⟩
  room part hpart := (h.room part hpart).2
  apart := h.apart

/-- The copies of a layer onto a pool of which its buffer is given up. -/
lemma stage_staged (hc : Core W c p) (hfault : ∀ n j, fault n j = false) (hx : c.nResident ≤ x)
    (hlt : x < W.numLayers) (hne : p.loaded (c.slot x) ≠ some x) :
    (stage W c fault p x t).2 = .ok () ∧
      ∃ parts places, Staged W c p (stage W c fault p x t).1 x t parts places := by
  have hcleared : makeRoom p (c.slot x) x = { p with
      place := clearedPlace p (c.slot x)
      loaded := Function.update p.loaded (c.slot x) none } := by
    rw [makeRoom]
    cases hl : p.loaded (c.slot x) with
    | none =>
      dsimp only
      rw [clearedPlace, hl]
      dsimp only
      rw [← hl, Function.update_eq_self]
    | some old =>
      dsimp only
      rw [if_pos (fun hold => hne (hl.trans (congrArg some hold))), unstage_eq hc hl]
  have hplace : clearedPlace p (c.slot x) x = List.replicate layerTensorSlots .host := by
    rw [clearedPlace]
    cases hl : p.loaded (c.slot x) with
    | none => exact hc.host x hx hne
    | some old =>
      dsimp only
      rw [Function.update_of_ne (fun hold => hne (hl.trans (congrArg some hold.symm)))]
      exact hc.host x hx hne
  rw [stage, if_neg (Nat.not_le.mpr hlt), if_neg (Nat.not_lt.mpr hx)]
  dsimp only
  rw [hcleared]
  dsimp only
  rw [if_neg (by rw [Function.update_self]; exact nofun), hplace,
    zip_replicate_host _ (W.length_sizes x)]
  have hcop : Copied W.bufSize (c.slot x) 0 0 (W.sizes x) _ :=
    stageTensors_copied (hfault p.log.ops.length) (W.sizes x) 0 0 (room_of_layer W hlt)
  generalize stageTensors W.bufSize (c.slot x) (fault p.log.ops.length) 0 0
    ((W.sizes x).map (·, Place.host)) = r at hcop
  have hlen : r.2.1.length = layerTensorSlots := by
    rw [← List.length_map (f := Prod.snd), hcop.saved, List.length_replicate, W.length_sizes]
  rw [hcop.ok]
  refine ⟨rfl, r.1, r.2.1.map Prod.fst, ?_⟩
  refine ⟨?_, rfl, ?_, ?_, rfl, filled_of_copied hcop, by rw [List.length_map, hlen]⟩
  · exact Function.update_idem ..
  · dsimp only
    rw [hcop.saved, W.length_sizes, List.drop_eq_nil_of_le (by rw [hlen]; exact hc.length_saved _),
      List.append_nil]
  · dsimp only
    rw [List.drop_eq_nil_of_le (by rw [hlen, List.length_replicate]), List.append_nil]

lemma clearedPlace_of_ne {slot : Slot} {y : ℕ} (h : p.loaded slot ≠ some y) :
    clearedPlace p slot y = p.place y := by
  rw [clearedPlace]
  cases hold : p.loaded slot with
  | none => rfl
  | some old => exact Function.update_of_ne (fun hy => h (hold.trans (congrArg some hy.symm))) ..

lemma clearedPlace_self {slot : Slot} {y : ℕ} (h : p.loaded slot = some y) :
    clearedPlace p slot y = List.replicate layerTensorSlots .host := by
  rw [clearedPlace, h]
  exact Function.update_self ..

namespace Staged

variable {p' : Pool} {parts : List Part} {places : List Place}

section Frame

variable (h : Staged W c p p' x t parts places)

include h

lemma knownTo_of_ne {slot : Slot} (hne : slot ≠ c.slot x) {past : List ℕ}
    (hk : KnownTo p.log slot past) : KnownTo p'.log slot past := by
  intro n hn
  rw [h.log] at hn
  rcases copiesInto_enqueue hn with ⟨-, hold⟩ | ⟨-, layer', parts', ho⟩
  · exact hk n hold
  · obtain ⟨rfl, -⟩ := Op.copy.inj ho
    exact absurd rfl hne

lemma knownTo_self (hcopies : KnownTo p.log (c.slot x) (p.log.known t)) :
    KnownTo p'.log (c.slot x) (p'.log.known t) := by
  intro n hn
  rw [h.log] at hn ⊢
  rw [Log.known_enqueue_self]
  rcases copiesInto_enqueue hn with ⟨-, hold⟩ | ⟨rfl, -⟩
  · exact List.mem_cons_of_mem _ (hcopies n hold)
  · exact List.mem_cons_self

lemma known_mono {s : Stream} {n : ℕ} (hn : n ∈ p.log.known s) : n ∈ p'.log.known s := by
  rw [h.log]
  exact Log.known_enqueue_mono hn

lemma reads {slot : Slot} {n : ℕ} (hn : Reads c p'.log slot n) : Reads c p.log slot n := by
  rw [h.log] at hn
  rcases reads_enqueue hn with hold | ⟨-, layer, places, ho, -⟩
  · exact hold
  · exact nomatch ho

lemma event (e : Event) : p'.log.event e = p.log.event e := by
  rw [h.log, Log.event_enqueue]

lemma place_of_ne {y : ℕ} (hy : y ≠ x) (hne : p.loaded (c.slot x) ≠ some y) :
    p'.place y = p.place y := by
  rw [h.place, Function.update_of_ne hy, clearedPlace_of_ne hne]

lemma loaded_self : p'.loaded (c.slot x) = some x := by rw [h.loaded, Function.update_self]

lemma loaded_of_ne {slot : Slot} (hne : slot ≠ c.slot x) : p'.loaded slot = p.loaded slot := by
  rw [h.loaded, Function.update_of_ne hne]

lemma held_self (hx : c.nResident ≤ x) (hcopies : KnownTo p.log (c.slot x) (p.log.known t)) :
    Held W c p' (c.slot x) x := by
  refine ⟨hx, rfl, by rw [h.saved, Function.update_self], p.log.ops.length, parts, ?_, ?_, ?_⟩
  · rw [h.log]
    exact Log.op_enqueue_new ..
  · rw [h.place, Function.update_self]
    exact h.filled
  · intro n hn hne
    rw [h.log] at hn ⊢
    rw [Log.past_enqueue_new]
    rcases copiesInto_enqueue hn with ⟨-, hold⟩ | ⟨rfl, -⟩
    · exact hcopies n hold
    · exact absurd rfl hne

lemma held_of_ne {slot : Slot} {y : ℕ} (hne : slot ≠ c.slot x) (hheld : Held W c p slot y)
    (hloaded : ∀ z, p.loaded (c.slot x) = some z → c.slot z = c.slot x) : Held W c p' slot y := by
  obtain ⟨hstr, rfl, hsaved, w, parts', hop, hfilled, hothers⟩ := hheld
  have hplace : p'.place y = p.place y := by
    refine h.place_of_ne (fun hyx => hne (congrArg c.slot hyx)) fun hy => hne (hloaded y hy)
  have hw := Log.lt_of_op hop
  refine ⟨hstr, rfl, by rw [h.saved, Function.update_of_ne hne, hsaved], w, parts', ?_, ?_, ?_⟩
  · rw [h.log, Log.op_enqueue_old _ _ hw, hop]
  · rw [hplace]
    exact hfilled
  · intro n hn hnw
    rw [h.log] at hn ⊢
    rw [Log.past_enqueue_old _ _ hw]
    rcases copiesInto_enqueue hn with ⟨-, hold⟩ | ⟨-, layer', parts'', ho⟩
    · exact hothers n hold hnw
    · exact absurd (Op.copy.inj ho).1.symm hne

end Frame

/-- A layer may be copied over what its stream knows to be copied there and to be read. -/
lemma core (h : Staged W c p p' x t parts places) (hc : Core W c p) (hx : c.nResident ≤ x)
    (hcopies : KnownTo p.log (c.slot x) (p.log.known t))
    (hreads : ∀ n, Reads c p.log (c.slot x) n → n ∈ p.log.known t) : Core W c p' where
  wf := by
    rw [h.log]
    exact hc.wf.enqueue ..
  resident y hy := by
    rw [h.place_of_ne (by omega) fun hl => absurd (hc.held hl).streamed (Nat.not_le.mpr hy)]
    exact hc.resident y hy
  host y hy hl := by
    have hyx : y ≠ x := by
      rintro rfl
      exact hl h.loaded_self
    by_cases hold : p.loaded (c.slot x) = some y
    · rw [h.place, Function.update_of_ne hyx, clearedPlace_self hold]
    · rw [h.place_of_ne hyx hold]
      refine hc.host y hy fun hyl => ?_
      by_cases hslot : c.slot y = c.slot x
      · exact hold (hslot ▸ hyl)
      · exact hl ((h.loaded_of_ne hslot).trans hyl)
  length_place y := by
    by_cases hyx : y = x
    · subst hyx
      rw [h.place, Function.update_self, h.length_places]
    · by_cases hold : p.loaded (c.slot x) = some y
      · rw [h.place, Function.update_of_ne hyx, clearedPlace_self hold, List.length_replicate]
      · rw [h.place_of_ne hyx hold, hc.length_place]
  length_saved slot := by
    by_cases hslot : slot = c.slot x
    · subst hslot
      rw [h.saved, Function.update_self, List.length_replicate]
    · rw [h.saved, Function.update_of_ne hslot]
      exact hc.length_saved slot
  held {slot y} hl := by
    by_cases hslot : slot = c.slot x
    · subst hslot
      obtain rfl := Option.some.inj (h.loaded_self.symm.trans hl)
      exact h.held_self hx hcopies
    · exact h.held_of_ne hslot (hc.held (h.loaded_of_ne hslot ▸ hl))
        fun z hz => (hc.held hz).slot_eq
  empty {slot} hl n := by
    have hslot : slot ≠ c.slot x := by
      rintro rfl
      exact nomatch h.loaded_self.symm.trans hl
    rw [h.loaded_of_ne hslot] at hl
    refine Bool.eq_false_iff.mpr fun hn => ?_
    have hnone : KnownTo p.log slot [] := fun m hm => absurd hm (by rw [hc.empty hl]; exact nofun)
    exact absurd (h.knownTo_of_ne hslot hnone n hn) List.not_mem_nil
  computed hn := h.known_mono (hc.computed (h.reads hn))
  event_done hn := h.known_mono (hc.event_done (h.event _ ▸ hn))
  flown slot := by
    by_cases hslot : slot = c.slot x
    · subst hslot
      cases t with
      | compute => exact .inr (h.knownTo_self hcopies)
      | xfer => exact .inl (h.knownTo_self hcopies)
    · rcases hc.flown slot with hxfer | hcomp
      · exact .inl (h.knownTo_of_ne hslot fun n hn => h.known_mono (hxfer n hn))
      · exact .inr (h.knownTo_of_ne hslot fun n hn => h.known_mono (hcomp n hn))
  right {k layer places'} hk := by
    rw [h.log] at hk ⊢
    rcases Log.op_enqueue hk with ⟨hlt, hold⟩ | ⟨-, ho⟩
    · have hright := hc.right hold
      split_ifs at hright ⊢ with hres
      · exact hright
      · obtain ⟨w, parts', hfixed⟩ := hright
        refine ⟨w, parts', hfixed.enqueue hc.wf hlt fun layer' parts'' ho => hreads k ?_⟩
        exact ⟨layer, places', hold, Nat.not_lt.mp hres, (Op.copy.inj ho).1.symm⟩
    · exact nomatch ho

end Staged

lemma Core.no_reads (hc : Core W c p) {slot : Slot} (hl : p.loaded slot = none) (n : ℕ) :
    ¬ Reads c p.log slot n := by
  rintro ⟨layer, places, hop, hstr, rfl⟩
  have hright := hc.right hop
  rw [if_neg (Nat.not_lt.mpr hstr)] at hright
  obtain ⟨w, parts, hfixed⟩ := hright
  have hcopy := copiesInto_iff.mpr ⟨layer, parts, hfixed.copied⟩
  exact absurd hcopy (by rw [hc.empty hl]; exact Bool.false_ne_true)

lemma Core.knownTo_of_empty (hc : Core W c p) {slot : Slot} (hl : p.loaded slot = none)
    (past : List ℕ) : KnownTo p.log slot past := fun n hn =>
  absurd hn (by rw [hc.empty hl]; exact Bool.false_ne_true)

end Staging

/-! ### The operations on the pool -/

section Steps

variable {W : Weights} {c : PoolConfig} {fault : ℕ → ℕ → Bool} {p p' : Pool} {x : ℕ}

/-- Why `vv_layer_prefetch_begin` leaves the pool as it is. -/
def Skips (c : PoolConfig) (p : Pool) (x : ℕ) : Prop :=
  x < c.nResident ∨ c.noPrefetch = true ∨ p.loaded (c.slot x) = some x ∨
    p.loaded (c.slot x) ≠ none ∧ p.doneValid (c.slot x) = false

/-- A layer is on its way to its buffer. -/
structure Began (W : Weights) (c : PoolConfig) (p p' : Pool) (x : ℕ) : Prop where
  inv : Inv W c p'
  streamed : c.nResident ≤ x
  loaded : p'.loaded = Function.update p.loaded (c.slot x) (some x)
  doneValid : p'.doneValid = Function.update p.doneValid (c.slot x) false
  knownTo : ∀ {slot past}, slot ≠ c.slot x → KnownTo p.log slot past → KnownTo p'.log slot past
  compute : ∀ {n}, n ∈ p.log.known .compute → n ∈ p'.log.known .compute
  ready_self : ∀ {n}, n ∈ p.log.known .xfer → n ∈ p'.log.event (.ready (c.slot x))
  ready_of_ne : ∀ {slot}, slot ≠ c.slot x →
    p'.log.event (.ready slot) = p.log.event (.ready slot)

@[simp] lemma done_record_ready (l : Log Stream Event Op) (slot slot' : Slot) (t : Stream) :
    (l.record (.ready slot') t).event (.done slot) = l.event (.done slot) :=
  Log.event_record_of_ne t fun he => nomatch he

@[simp] lemma ready_record_done (l : Log Stream Event Op) (slot slot' : Slot) (t : Stream) :
    (l.record (.done slot') t).event (.ready slot) = l.event (.ready slot) :=
  Log.event_record_of_ne t fun he => nomatch he

lemma of_update_false {f : Slot → Bool} {slot slot' : Slot}
    (h : Function.update f slot' false slot = true) : slot ≠ slot' ∧ f slot = true := by
  have hne : slot ≠ slot' := by
    rintro rfl
    exact Bool.false_ne_true ((Function.update_self ..).symm.trans h)
  exact ⟨hne, (Function.update_of_ne hne ..).symm.trans h⟩

/-- A copy on the transfer stream, and the record behind it. -/
lemma began_of_staged {q : Pool} (hq : Inv W c q) (hx : c.nResident ≤ x) {parts : List Part}
    {places : List Place} {q' : Pool} (h : Staged W c q q' x .xfer parts places)
    (hcopies : KnownTo q.log (c.slot x) (q.log.known .xfer))
    (hreads : ∀ n, Reads c q.log (c.slot x) n → n ∈ q.log.known .xfer) :
    Began W c q { q' with
      doneValid := Function.update q'.doneValid (c.slot x) false
      log := q'.log.record (.ready (c.slot x)) .xfer } x where
  inv :=
    { toCore :=
        ((h.core hq.toCore hx hcopies hreads).record _ _ (by intro _ he; cases he)).setDone _
      ready := by
        intro slot
        by_cases hslot : slot = c.slot x
        · subst hslot
          refine .inl ?_
          rw [Log.event_record_self]
          exact h.knownTo_self hcopies
        · rw [Log.event_record_of_ne _ (fun he => hslot (Event.ready.inj he)), h.event]
          rcases hq.ready slot with hready | hcomp
          · exact .inl (h.knownTo_of_ne hslot hready)
          · exact .inr (h.knownTo_of_ne hslot fun n hn => h.known_mono (hcomp n hn))
      done_copies := by
        intro slot hdone
        obtain ⟨hslot, hdone⟩ := of_update_false hdone
        rw [h.doneValid] at hdone
        dsimp only
        rw [done_record_ready, h.event]
        exact h.knownTo_of_ne hslot (hq.done_copies hdone)
      done_reads := by
        intro slot n hdone hn
        obtain ⟨hslot, hdone⟩ := of_update_false hdone
        rw [h.doneValid] at hdone
        dsimp only
        rw [done_record_ready, h.event]
        exact hq.done_reads hdone (h.reads hn) }
  streamed := hx
  loaded := h.loaded
  doneValid := by
    dsimp only
    rw [h.doneValid]
  knownTo hne hk := h.knownTo_of_ne hne hk
  compute hn := h.known_mono hn
  ready_self hn := by
    dsimp only
    rw [Log.event_record_self]
    exact h.known_mono hn
  ready_of_ne hne := by
    dsimp only
    rw [Log.event_record_of_ne _ (fun he => hne (Event.ready.inj he)), h.event]

/-- `vv_layer_prefetch_begin` leaves the pool as it is, or the layer is on its way. -/
lemma prefetchBegin_cases (h : Inv W c p) (hfault : ∀ n j, fault n j = false)
    (hlt : x < W.numLayers) :
    (prefetchBegin W c fault p x).1 = p ∧ Skips c p x ∨
      Began W c p (prefetchBegin W c fault p x).1 x ∧ ¬ Skips c p x := by
  by_cases hskips : Skips c p x
  · refine .inl ⟨?_, hskips⟩
    rw [prefetchBegin, if_neg (Nat.not_le.mpr hlt)]
    by_cases hno : c.noPrefetch = true
    · rw [if_pos hno]
    · by_cases hres : x < c.nResident
      · rw [if_neg hno, if_pos hres]
      · by_cases hl : p.loaded (c.slot x) = some x
        · rw [if_neg hno, if_neg hres]
          dsimp only
          rw [if_pos hl]
        · rw [if_neg hno, if_neg hres]
          dsimp only
          rw [if_neg hl, if_pos]
          exact hskips.resolve_left hres |>.resolve_left hno |>.resolve_left hl
  · refine .inr ⟨?_, hskips⟩
    obtain ⟨hres, hno, hl, hnd⟩ : ¬ x < c.nResident ∧ ¬ c.noPrefetch = true ∧
        ¬ p.loaded (c.slot x) = some x ∧
        ¬ (p.loaded (c.slot x) ≠ none ∧ p.doneValid (c.slot x) = false) := by
      simpa only [Skips, not_or] using hskips
    have hx : c.nResident ≤ x := Nat.not_lt.mp hres
    rw [prefetchBegin, if_neg (Nat.not_le.mpr hlt), if_neg hno, if_neg hres]
    dsimp only
    rw [if_neg hl, if_neg hnd]
    by_cases hnone : p.loaded (c.slot x) = none
    · rw [if_neg (not_not.mpr hnone)]
      obtain ⟨hok, parts, places, hstaged⟩ :=
        stage_staged (t := .xfer) h.toCore hfault hx hlt hl
      have hbegan := began_of_staged h hx hstaged (h.knownTo_of_empty hnone _)
        fun n hn => absurd hn (h.no_reads hnone n)
      generalize stage W c fault p x .xfer = r at hok hbegan
      obtain ⟨q, s⟩ := r
      obtain rfl : s = .ok () := hok
      exact hbegan
    · have hdone : p.doneValid (c.slot x) = true :=
        eq_true_of_ne_false fun hfalse => hnd ⟨hnone, hfalse⟩
      rw [if_pos hnone]
      have hq := h.wait .xfer (.done (c.slot x))
      have hknown : ∀ {n}, n ∈ p.log.event (.done (c.slot x)) →
          n ∈ (p.log.wait .xfer (.done (c.slot x))).known .xfer := fun hn => by
        rw [Log.known_wait_self]
        exact List.mem_append_left _ hn
      obtain ⟨hok, parts, places, hstaged⟩ :=
        stage_staged (t := .xfer) hq.toCore hfault hx hlt hl
      have hbegan := began_of_staged hq hx hstaged
        (fun n hn => hknown (h.done_copies hdone n hn)) fun n hn => hknown (h.done_reads hdone hn)
      generalize stage W c fault { p with log := p.log.wait .xfer (.done (c.slot x)) } x .xfer = r
        at hok hbegan
      obtain ⟨q, s⟩ := r
      obtain rfl : s = .ok () := hok
      obtain ⟨hinv, hstr, hloaded, hdv, hk, hcomp, hself, hne⟩ := hbegan
      exact ⟨hinv, hstr, hloaded, hdv, hk, fun hn => hcomp (Log.known_wait_mono hn),
        fun hn => hself (Log.known_wait_mono hn), hne⟩

/-- A layer is in its buffer, and the compute stream knows the copies there. -/
structure Waited (W : Weights) (c : PoolConfig) (p p' : Pool) (x : ℕ) : Prop where
  inv : Inv W c p'
  loaded : p'.loaded = Function.update p.loaded (c.slot x) (some x)
  doneValid : ∀ {slot}, slot ≠ c.slot x → p'.doneValid slot = p.doneValid slot
  stale : p'.doneValid (c.slot x) = true →
    p.doneValid (c.slot x) = true ∧ p.loaded (c.slot x) = some x
  arrived : KnownTo p'.log (c.slot x) (p'.log.known .compute)
  knownTo : ∀ {slot past}, slot ≠ c.slot x → KnownTo p.log slot past → KnownTo p'.log slot past
  compute : ∀ {n}, n ∈ p.log.known .compute → n ∈ p'.log.known .compute
  event : ∀ e, p'.log.event e = p.log.event e
  ready : p.loaded (c.slot x) = some x → ∀ {n}, n ∈ p.log.event (.ready (c.slot x)) →
    n ∈ p'.log.known .compute

/-- A copy on the compute stream. -/
lemma waited_of_staged (hp : Inv W c p) (hx : c.nResident ≤ x) {parts : List Part}
    {places : List Place} {q : Pool} (h : Staged W c p q x .compute parts places)
    (hne : p.loaded (c.slot x) ≠ some x)
    (hcopies : KnownTo p.log (c.slot x) (p.log.known .compute)) :
    Waited W c p { q with doneValid := Function.update q.doneValid (c.slot x) false } x where
  inv :=
    { toCore := (h.core hp.toCore hx hcopies fun _ hn => hp.computed hn).setDone _
      ready := by
        intro slot
        by_cases hslot : slot = c.slot x
        · subst hslot
          exact .inr (h.knownTo_self hcopies)
        · dsimp only
          rw [h.event]
          rcases hp.ready slot with hready | hcomp
          · exact .inl (h.knownTo_of_ne hslot hready)
          · exact .inr (h.knownTo_of_ne hslot fun n hn => h.known_mono (hcomp n hn))
      done_copies := by
        intro slot hdone
        obtain ⟨hslot, hdone⟩ := of_update_false hdone
        rw [h.doneValid] at hdone
        dsimp only
        rw [h.event]
        exact h.knownTo_of_ne hslot (hp.done_copies hdone)
      done_reads := by
        intro slot n hdone hn
        obtain ⟨hslot, hdone⟩ := of_update_false hdone
        rw [h.doneValid] at hdone
        dsimp only
        rw [h.event]
        exact hp.done_reads hdone (h.reads hn) }
  loaded := h.loaded
  doneValid hslot := by
    dsimp only
    rw [Function.update_of_ne hslot, h.doneValid]
  stale hdone := absurd ((Function.update_self ..).symm.trans hdone) Bool.false_ne_true
  arrived := h.knownTo_self hcopies
  knownTo hslot hk := h.knownTo_of_ne hslot hk
  compute hn := h.known_mono hn
  event e := h.event e
  ready hl := absurd hl hne

/-- `vv_layer_prefetch_wait`, once what is copied to the buffer of another layer has arrived. -/
lemma prefetchWait_waited (h : Inv W c p) (hfault : ∀ n j, fault n j = false)
    (hx : c.nResident ≤ x) (hlt : x < W.numLayers)
    (hsettled : p.loaded (c.slot x) ≠ some x →
      KnownTo p.log (c.slot x) (p.log.known .compute)) :
    Waited W c p (prefetchWait W c fault p x).1 x := by
  rw [prefetchWait, if_neg (Nat.not_lt.mpr hx)]
  dsimp only
  by_cases hl : p.loaded (c.slot x) = some x
  · rw [if_neg (not_not.mpr hl)]
    have harrived : KnownTo p.log (c.slot x)
        ((p.log.wait .compute (.ready (c.slot x))).known .compute) := by
      intro n hn
      rw [Log.known_wait_self, List.mem_append]
      rcases h.ready (c.slot x) with hready | hcomp
      · exact .inl (hready n hn)
      · exact .inr (hcomp n hn)
    refine ⟨h.wait _ _, ?_, fun _ => rfl, fun hdone => ⟨hdone, hl⟩, harrived, fun _ hk => hk,
      Log.known_wait_mono, fun _ => rfl, fun _ {n} hn => ?_⟩
    · dsimp only
      rw [← hl, Function.update_eq_self]
    · dsimp only
      rw [Log.known_wait_self]
      exact List.mem_append_left _ hn
  · rw [if_pos hl]
    obtain ⟨hok, parts, places, hstaged⟩ :=
      stage_staged (t := .compute) h.toCore hfault hx hlt hl
    have hwaited := waited_of_staged h hx hstaged hl (hsettled hl)
    generalize stage W c fault p x .compute = r at hok hwaited
    obtain ⟨q, s⟩ := r
    obtain rfl : s = .ok () := hok
    exact hwaited

lemma knownTo_computeLayer {slot : Slot} {past : List ℕ} (hk : KnownTo p.log slot past) :
    KnownTo (computeLayer p x).log slot past := by
  intro n hn
  rcases copiesInto_enqueue hn with ⟨-, hold⟩ | ⟨-, layer, parts, ho⟩
  · exact hk n hold
  · exact nomatch ho

lemma known_computeLayer (x : ℕ) {n : ℕ} (hn : n ∈ p.log.known .compute) :
    n ∈ (computeLayer p x).log.known .compute := Log.known_enqueue_mono hn

/-- A layer that is resident, or in a buffer the compute stream knows, may be computed. -/
lemma Core.computeLayer (h : Core W c p)
    (hx : x < c.nResident ∨
      p.loaded (c.slot x) = some x ∧ KnownTo p.log (c.slot x) (p.log.known .compute)) :
    Core W c (computeLayer p x) where
  wf := h.wf.enqueue ..
  resident := h.resident
  host := h.host
  length_place := h.length_place
  length_saved := h.length_saved
  held {slot y} hl := by
    obtain ⟨hstr, hslot, hsaved, w, parts, hop, hfilled, hothers⟩ := h.held hl
    have hw := Log.lt_of_op hop
    refine ⟨hstr, hslot, hsaved, w, parts, ?_, hfilled, fun n hn hnw => ?_⟩
    · exact (Log.op_enqueue_old _ _ hw).trans hop
    · rw [VibeVoice.Decoder.computeLayer, Log.past_enqueue_old _ _ hw]
      rcases copiesInto_enqueue hn with ⟨-, hold⟩ | ⟨-, layer, parts, ho⟩
      · exact hothers n hold hnw
      · exact nomatch ho
  empty {slot} hl n := Bool.eq_false_iff.mpr fun hn =>
    absurd (knownTo_computeLayer (h.knownTo_of_empty hl []) n hn) List.not_mem_nil
  computed {slot n} hn := by
    rcases reads_enqueue hn with hold | ⟨rfl, -⟩
    · exact Log.known_enqueue_mono (h.computed hold)
    · rw [VibeVoice.Decoder.computeLayer, Log.known_enqueue_self]
      exact List.mem_cons_self
  event_done hn := Log.known_enqueue_mono (h.event_done hn)
  flown slot := by
    rcases h.flown slot with hxfer | hcomp
    · exact .inl (knownTo_computeLayer fun n hn => Log.known_enqueue_mono (hxfer n hn))
    · exact .inr (knownTo_computeLayer fun n hn => Log.known_enqueue_mono (hcomp n hn))
  right {k layer places} hk := by
    rcases Log.op_enqueue hk with ⟨hlt, hold⟩ | ⟨rfl, ho⟩
    · have hright := h.right hold
      split_ifs at hright ⊢ with hres
      · exact hright
      · obtain ⟨w, parts, hfixed⟩ := hright
        exact ⟨w, parts, hfixed.enqueue h.wf hlt fun _ _ ho => nomatch ho⟩
    · obtain ⟨rfl, rfl⟩ := Op.compute.inj ho
      split_ifs with hres
      · exact h.resident layer hres
      · obtain ⟨hl, hk⟩ := hx.resolve_left hres
        obtain ⟨-, -, -, w, parts, hop, hfilled, hothers⟩ := h.held hl
        have hw := Log.lt_of_op hop
        refine ⟨w, parts, hfilled, (Log.op_enqueue_old _ _ hw).trans hop, ?_, fun n hn hnw => ?_⟩
        · rw [VibeVoice.Decoder.computeLayer, Log.past_enqueue_new]
          exact hk w (copiesInto_iff.mpr ⟨layer, parts, hop⟩)
        · refine .inl ?_
          rw [VibeVoice.Decoder.computeLayer, Log.past_enqueue_old _ _ hw]
          rcases copiesInto_enqueue hn with ⟨-, hold⟩ | ⟨-, layer', parts', ho'⟩
          · exact hothers n hold hnw
          · exact nomatch ho'

/-- A layer is computed, and its buffer given free. -/
structure Computed (W : Weights) (c : PoolConfig) (p p' : Pool) (x : ℕ) : Prop where
  inv : Inv W c p'
  loaded : p'.loaded = p.loaded
  done : c.nResident ≤ x → p'.doneValid (c.slot x) = true
  doneValid : ∀ {slot}, x < c.nResident ∨ slot ≠ c.slot x → p'.doneValid slot = p.doneValid slot
  knownTo : ∀ {slot past}, KnownTo p.log slot past → KnownTo p'.log slot past
  compute : ∀ {n}, n ∈ p.log.known .compute → n ∈ p'.log.known .compute
  ready : ∀ slot, p'.log.event (.ready slot) = p.log.event (.ready slot)

lemma computed_resident (h : Inv W c p) (hx : x < c.nResident) :
    Computed W c p (prefetchDone c (computeLayer p x) x) x := by
  rw [prefetchDone, if_pos hx]
  have hreads : ∀ {slot n}, Reads c (computeLayer p x).log slot n → Reads c p.log slot n := by
    rintro slot n ⟨layer, places, hop, hstr, hslot⟩
    rcases Log.op_enqueue hop with ⟨-, hold⟩ | ⟨-, ho⟩
    · exact ⟨layer, places, hold, hstr, hslot⟩
    · obtain ⟨rfl, -⟩ := Op.compute.inj ho
      exact absurd hx (Nat.not_lt.mpr hstr)
  exact {
    inv :=
      { toCore := h.toCore.computeLayer (.inl hx)
        ready := fun slot => by
          rcases h.ready slot with hready | hcomp
          · exact .inl (knownTo_computeLayer hready)
          · exact .inr (knownTo_computeLayer fun n hn => Log.known_enqueue_mono (hcomp n hn))
        done_copies := fun hdone => knownTo_computeLayer (h.done_copies hdone)
        done_reads := fun hdone hn => h.done_reads hdone (hreads hn) }
    loaded := rfl
    done := fun hstr => absurd hx (Nat.not_lt.mpr hstr)
    doneValid := fun _ => rfl
    knownTo := knownTo_computeLayer
    compute := Log.known_enqueue_mono
    ready := fun _ => rfl }

lemma computed_streamed (h : Inv W c p) (hx : c.nResident ≤ x) (hl : p.loaded (c.slot x) = some x)
    (hk : KnownTo p.log (c.slot x) (p.log.known .compute)) :
    Computed W c p (prefetchDone c (computeLayer p x) x) x := by
  have hcore := h.toCore.computeLayer (.inr ⟨hl, hk⟩)
  rw [prefetchDone, if_neg (Nat.not_lt.mpr hx)]
  dsimp only
  rw [if_neg (not_not.mpr (show (computeLayer p x).loaded (c.slot x) = some x from hl))]
  have hdone_of_ne : ∀ {slot}, slot ≠ c.slot x →
      (((computeLayer p x).log.record (.done (c.slot x)) .compute).event (.done slot) =
        p.log.event (.done slot)) := fun hslot =>
    (Log.event_record_of_ne _ fun he => hslot (Event.done.inj he)).trans (Log.event_enqueue ..)
  exact {
    inv :=
      { toCore := (hcore.record _ _ fun _ _ => rfl).setDone _
        ready := by
          intro slot
          dsimp only
          rw [ready_record_done]
          rcases h.ready slot with hready | hcomp
          · exact .inl (knownTo_computeLayer hready)
          · exact .inr (knownTo_computeLayer fun n hn => known_computeLayer x (hcomp n hn))
        done_copies := by
          intro slot hdone
          by_cases hslot : slot = c.slot x
          · subst hslot
            dsimp only
            rw [Log.event_record_self]
            exact knownTo_computeLayer fun n hn => Log.known_enqueue_mono (hk n hn)
          · dsimp only at hdone ⊢
            rw [Function.update_of_ne hslot] at hdone
            rw [hdone_of_ne hslot]
            exact knownTo_computeLayer (h.done_copies hdone)
        done_reads := by
          intro slot n hdone hn
          by_cases hslot : slot = c.slot x
          · subst hslot
            dsimp only
            rw [Log.event_record_self]
            exact hcore.computed hn
          · dsimp only at hdone ⊢
            rw [Function.update_of_ne hslot] at hdone
            rw [hdone_of_ne hslot]
            rcases reads_enqueue hn with hold | ⟨-, layer, places, ho, hslot'⟩
            · exact h.done_reads hdone hold
            · obtain ⟨rfl, -⟩ := Op.compute.inj ho
              exact absurd hslot'.symm hslot }
    loaded := rfl
    done := fun _ => Function.update_self ..
    doneValid := fun hor => Function.update_of_ne (hor.resolve_left (Nat.not_lt.mpr hx)) ..
    knownTo := knownTo_computeLayer
    compute := known_computeLayer x
    ready := fun slot => ready_record_done .. }

end Steps

end VibeVoice.Decoder
