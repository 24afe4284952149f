import Mathlib.Data.List.Basic
import VibeVoice.Decoder.PoolInv

/-!
Weight streaming, over runs.

* `Ready`: the pools on which a pass may start.
* `At.layerTurn`: one turn of the layer loops.
* `run_right`: in a run whose passes start on such pools, every layer is computed with its own
  weights.
* `failure_not_right`: what a failed pass leaves is not always such a pool.
-/

namespace VibeVoice.Decoder

open Streams (Log Schedule)

/-! ### One way through the layers -/

/-- The next layer from `i` on that is copied to a buffer. -/
structure Next (c : PoolConfig) (i last : ℕ) (slot : Slot) (x : ℕ) : Prop where
  from_le : i ≤ x
  lt : x < last
  streamed : c.nResident ≤ x
  slot_eq : c.slot x = slot
  first : ∀ y, i ≤ y → y < x → c.nResident ≤ y → c.slot y ≠ slot

/-- No layer of the range is copied to the buffer. -/
def Unused (c : PoolConfig) (first last : ℕ) (slot : Slot) : Prop :=
  ∀ x, first ≤ x → x < last → c.nResident ≤ x → c.slot x ≠ slot

/-- By the time the compute stream waits for layer `x'` in `slot'`, it knows the copies to `slot`:
they are already ordered before the `ready` event of `slot'`, or the layer is yet to be copied on
the transfer stream behind them. -/
def Carries (c : PoolConfig) (p : Pool) (slot slot' : Slot) (x' : ℕ) : Prop :=
  if p.loaded slot' = some x' then KnownTo p.log slot (p.log.event (.ready slot'))
  else c.noPrefetch = false ∧ (p.loaded slot' = none ∨ p.doneValid slot' = true)

/-- A layer that is in a buffer and not computed yet is the next one there, or the compute stream
gets to know its copy before something else is copied over it. -/
def Pending (c : PoolConfig) (p : Pool) (first i last : ℕ) (slot : Slot) (y : ℕ) : Prop :=
  Next c i last slot y ∨ Unused c first last slot ∨ KnownTo p.log slot (p.log.known .compute) ∨
    ∃ slot' x x', Next c i last slot x ∧ Next c i last slot' x' ∧ x' < x ∧ Carries c p slot slot' x'

/-- A pass over the layers from `first` to `last` may start on the pool. -/
structure Ready (c : PoolConfig) (p : Pool) (first last : ℕ) : Prop where
  pending : ∀ slot y, p.loaded slot = some y → p.doneValid slot = false →
    Pending c p first first last slot y
  single : c.twoBufs = false → c.noPrefetch = false → ∀ y, p.loaded 0 = some y →
    p.doneValid 0 = true → Next c first last 0 y → y + 1 = last

/-- The pool before layer `i` of a pass. -/
structure At (W : Weights) (c : PoolConfig) (p : Pool) (first i last : ℕ) : Prop where
  inv : Inv W c p
  pending : ∀ slot y, p.loaded slot = some y → p.doneValid slot = false →
    Pending c p first i last slot y
  single : c.twoBufs = false → c.noPrefetch = false → ∀ y, p.loaded 0 = some y →
    p.doneValid 0 = true → Next c i last 0 y → y + 1 = last
  begun : c.twoBufs = true → i < last → Skips c p i
  computed : first < i → c.nResident ≤ i - 1 → p.loaded (c.slot (i - 1)) = some (i - 1)

section Walk

variable {W : Weights} {c : PoolConfig} {fault : ℕ → ℕ → Bool} {p p' : Pool}
  {first i last x y : ℕ} {slot : Slot}

lemma slot_single (h : c.twoBufs = false) (x : ℕ) : c.slot x = 0 := by
  rw [PoolConfig.slot, h]
  rfl

lemma slot_succ_ne (h : c.twoBufs = true) (x : ℕ) : c.slot (x + 1) ≠ c.slot x := by
  rw [PoolConfig.slot, PoolConfig.slot, if_pos h, if_pos h]
  intro heq
  have hval := congrArg Fin.val heq
  simp only [Fin.ofNat] at hval
  omega

lemma slot_zero_or_one : ∀ s : Slot, s = 0 ∨ s = 1 := by decide

lemma slot_eq_of_ne : ∀ {s s' s'' : Slot}, s ≠ s' → s ≠ s'' → s' = s'' := by decide

lemma Next.succ (h : Next c i last slot x) (hne : i ≠ x) : Next c (i + 1) last slot x where
  from_le := Nat.lt_of_le_of_ne h.from_le hne
  lt := h.lt
  streamed := h.streamed
  slot_eq := h.slot_eq
  first y hy := h.first y (Nat.le_of_succ_le hy)

lemma Next.pred (h : Next c (i + 1) last slot x) (hi : i < c.nResident) : Next c i last slot x where
  from_le := Nat.le_of_succ_le h.from_le
  lt := h.lt
  streamed := h.streamed
  slot_eq := h.slot_eq
  first y hy hyx hres := by
    rcases Nat.eq_or_lt_of_le hy with rfl | hlt
    · exact absurd hi (Nat.not_lt.mpr hres)
    · exact h.first y hlt hyx hres

lemma next_self (hi : i < last) (hres : c.nResident ≤ i) : Next c i last (c.slot i) i where
  from_le := le_rfl
  lt := hi
  streamed := hres
  slot_eq := rfl
  first _ hy hyi := absurd hyi (Nat.not_lt.mpr hy)

lemma Next.eq (h : Next c i last (c.slot i) x) (hres : c.nResident ≤ i) : x = i := by
  rcases Nat.eq_or_lt_of_le h.from_le with heq | hlt
  · exact heq.symm
  · exact absurd rfl (h.first i le_rfl hlt hres)

/-- A resident layer is in no buffer. -/
lemma Pending.succ (h : Pending c p first i last slot y) (hi : i < c.nResident) :
    Pending c p first (i + 1) last slot y := by
  have hne : ∀ {slot x}, Next c i last slot x → i ≠ x := fun hn heq =>
    absurd hi (Nat.not_lt.mpr (heq ▸ hn.streamed))
  rcases h with hnext | hunused | hknown | ⟨slot', x, x', hx, hx', hlt, hc⟩
  · exact .inl (hnext.succ (hne hnext))
  · exact .inr (.inl hunused)
  · exact .inr (.inr (.inl hknown))
  · exact .inr (.inr (.inr ⟨slot', x, x', hx.succ (hne hx), hx'.succ (hne hx'), hlt, hc⟩))

lemma Pending.began (h : Pending c p first x last slot y) (hp : Inv W c p) (hb : Began W c p p' x)
    (hslot : slot ≠ c.slot x) : Pending c p' first x last slot y := by
  have hmono : KnownTo p.log slot (p.log.known .compute) →
      KnownTo p'.log slot (p'.log.known .compute) := fun hk =>
    hb.knownTo hslot fun n hn => hb.compute (hk n hn)
  rcases h with hnext | hunused | hknown | ⟨slot', z, x', hz, hx', hlt, -⟩
  · exact .inl hnext
  · exact .inr (.inl hunused)
  · exact .inr (.inr (.inl (hmono hknown)))
  · rcases hp.flown slot with hxfer | hcomp
    · refine .inr (.inr (.inr ⟨slot', z, x', hz, hx', hlt, ?_⟩))
      have hne : slot ≠ slot' := by
        rintro rfl
        exact hz.first x' hx'.from_le hlt hx'.streamed hx'.slot_eq
      obtain rfl := slot_eq_of_ne hne hslot
      obtain rfl := hx'.eq hb.streamed
      rw [Carries, if_pos (by rw [hb.loaded, Function.update_self])]
      exact hb.knownTo hslot fun n hn => hb.ready_self (hxfer n hn)
    · exact .inr (.inr (.inl (hmono hcomp)))

lemma Pending.computed (h : Pending c p first i last slot y) (hc : Computed W c p p' x) :
    Pending c p' first i last slot y := by
  rcases h with hnext | hunused | hknown | ⟨slot', z, x', hz, hx', hlt, hcarries⟩
  · exact .inl hnext
  · exact .inr (.inl hunused)
  · exact .inr (.inr (.inl (hc.knownTo fun n hn => hc.compute (hknown n hn))))
  · refine .inr (.inr (.inr ⟨slot', z, x', hz, hx', hlt, ?_⟩))
    rw [Carries, hc.loaded, hc.ready]
    rw [Carries] at hcarries
    split_ifs at hcarries ⊢ with hl
    · exact hc.knownTo hcarries
    · refine ⟨hcarries.1, hcarries.2.imp_right fun hdone => ?_⟩
      by_cases hsame : x < c.nResident ∨ slot' ≠ c.slot x
      · rw [hc.doneValid hsame, hdone]
      · obtain ⟨hres, hslot⟩ := not_or.mp hsame
        obtain rfl := not_not.mp hslot
        exact hc.done (Nat.not_lt.mp hres)

/-- The wait for layer `i` lets the compute stream know what the layer was copied behind. -/
lemma Pending.waited (h : Pending c p first i last slot y) (hw : Waited W c p p' i)
    (hbegun : c.twoBufs = true → Skips c p i) (hres : c.nResident ≤ i) (hslot : slot ≠ c.slot i) :
    Pending c p' first (i + 1) last slot y := by
  rcases h with hnext | hunused | hknown | ⟨slot', z, x', hz, hx', hlt, hcarries⟩
  · exact .inl (hnext.succ fun heq => hslot (heq ▸ hnext.slot_eq.symm))
  · exact .inr (.inl hunused)
  · exact .inr (.inr (.inl (hw.knownTo hslot fun n hn => hw.compute (hknown n hn))))
  · have hne : slot ≠ slot' := by
      rintro rfl
      exact hz.first x' hx'.from_le hlt hx'.streamed hx'.slot_eq
    obtain rfl := slot_eq_of_ne hne hslot
    obtain rfl := hx'.eq hres
    rw [Carries] at hcarries
    split_ifs at hcarries with hl
    · refine .inr (.inr (.inl (hw.knownTo hslot fun n hn => ?_)))
      exact hw.ready hl (hcarries n hn)
    · have htwo : c.twoBufs = true := by
        refine eq_true_of_ne_false fun hone => hslot ?_
        rw [← hz.slot_eq, slot_single hone, slot_single hone]
      obtain ⟨hno, hfree⟩ := hcarries
      rcases hbegun htwo with hlow | hpre | hloaded | ⟨hnone, hdone⟩
      · exact absurd hlow (Nat.not_lt.mpr hres)
      · exact absurd (hpre.symm.trans hno) nofun
      · exact absurd hloaded hl
      · rcases hfree with hnone' | hdone'
        · exact absurd hnone' hnone
        · exact absurd (hdone.symm.trans hdone') nofun

/-- One turn of the layer loop. -/
def layerTurn (W : Weights) (c : PoolConfig) (fault : ℕ → ℕ → Bool) (i last : ℕ) (p : Pool) :
    Pool :=
  let p := (prefetchWait W c fault p i).1
  let p := if i + 1 < last then (prefetchBegin W c fault p (i + 1)).1 else p
  prefetchDone c (computeLayer p i) i

/-- A layer that was just begun is in its buffer, or its buffer is taken. -/
lemma Began.skips (h : Began W c p p' x) : Skips c p' x :=
  .inr (.inr (.inl (by rw [h.loaded, Function.update_self])))

lemma Computed.skips (h : Computed W c p p' i) (hs : Skips c p x)
    (hne : i < c.nResident ∨ c.slot x ≠ c.slot i) : Skips c p' x := by
  rw [Skips, h.loaded, h.doneValid hne]
  exact hs

/-- A turn in which no layer is begun. -/
lemma At.computed_of_resident (h : At W c p first i last) (hi : i < c.nResident)
    (hbegun : c.twoBufs = true → i + 1 < last → Skips c p (i + 1))
    (hc : Computed W c p p' i) : At W c p' first (i + 1) last where
  inv := hc.inv
  pending slot y hl hdone := by
    rw [hc.loaded] at hl
    rw [hc.doneValid (.inl hi)] at hdone
    exact ((h.pending slot y hl hdone).succ hi).computed hc
  single hone hno y hl hdone hnext := by
    rw [hc.loaded] at hl
    rw [hc.doneValid (.inl hi)] at hdone
    exact h.single hone hno y hl hdone (hnext.pred hi)
  begun htwo hlt := hc.skips (hbegun htwo hlt) (.inl hi)
  computed _ hres := absurd hi (Nat.not_lt.mpr (by rwa [Nat.add_sub_cancel] at hres))

/-- A layer begun ahead of a resident one. -/
lemma At.began_of_resident (h : At W c p first i last) (hi : i < c.nResident)
    (hlt : i + 1 < last) (hb : Began W c p p' (i + 1)) : At W c p' first i last where
  inv := hb.inv
  pending slot y hl hdone := by
    by_cases hslot : slot = c.slot (i + 1)
    · subst hslot
      rw [hb.loaded, Function.update_self] at hl
      obtain rfl := Option.some.inj hl
      exact .inl ((next_self hlt hb.streamed).pred hi)
    · rw [hb.loaded, Function.update_of_ne hslot] at hl
      rw [hb.doneValid, Function.update_of_ne hslot] at hdone
      have hpending := ((h.pending slot y hl hdone).succ hi).began h.inv hb hslot
      rcases hpending with hnext | hunused | hknown | ⟨slot', x, x', hx, hx', hltx, hc⟩
      · exact .inl (hnext.pred hi)
      · exact .inr (.inl hunused)
      · exact .inr (.inr (.inl hknown))
      · exact .inr (.inr (.inr ⟨slot', x, x', hx.pred hi, hx'.pred hi, hltx, hc⟩))
  single hone _ y _ hdone _ := by
    rw [hb.doneValid, ← slot_single hone (i + 1), Function.update_self] at hdone
    exact absurd hdone Bool.false_ne_true
  begun _ _ := .inl hi
  computed hfirst hres := absurd hi (by omega)

/-- The pool behind a layer that was waited for and computed, when what is begun in between is in
the other buffer. -/
lemma At.computed_of_streamed {q : Pool} (h : At W c p first i last) (hres : c.nResident ≤ i)
    (hlt : i < last) (hw : Waited W c p p' i)
    (hq : q = p' ∧ (i + 1 < last → Skips c p' (i + 1)) ∨
      Began W c p' q (i + 1) ∧ c.slot (i + 1) ≠ c.slot i ∧ i + 1 < last)
    {r : Pool} (hc : Computed W c q r i) : At W c r first (i + 1) last := by
  have hloaded : r.loaded (c.slot i) = some i := by
    rw [hc.loaded]
    rcases hq with ⟨rfl, -⟩ | ⟨hb, hslot, -⟩
    · rw [hw.loaded, Function.update_self]
    · rw [hb.loaded, Function.update_of_ne hslot.symm, hw.loaded, Function.update_self]
  refine ⟨hc.inv, fun slot y hl hdone => ?_, fun hone _ y hl _ hnext => ?_, fun htwo hlt' => ?_,
    fun _ _ => hloaded⟩
  · have hslot : slot ≠ c.slot i := by
      rintro rfl
      exact Bool.false_ne_true (hdone.symm.trans (hc.done hres))
    rw [hc.loaded] at hl
    rw [hc.doneValid (.inr hslot)] at hdone
    refine Pending.computed ?_ hc
    rcases hq with ⟨rfl, -⟩ | ⟨hb, hslot', hlt'⟩
    · rw [hw.loaded, Function.update_of_ne hslot] at hl
      rw [hw.doneValid hslot] at hdone
      exact (h.pending slot y hl hdone).waited hw (fun htwo => h.begun htwo hlt) hres hslot
    · obtain rfl := slot_eq_of_ne hslot.symm hslot'.symm
      rw [hb.loaded, Function.update_self] at hl
      obtain rfl := Option.some.inj hl
      exact .inl (next_self hlt' hb.streamed)
  · rw [← slot_single hone i, hloaded] at hl
    obtain rfl := Option.some.inj hl
    exact absurd hnext.from_le (Nat.not_succ_le_self _)
  · refine hc.skips ?_ (.inr (slot_succ_ne htwo i))
    rcases hq with ⟨rfl, hskips⟩ | ⟨hb, -, -⟩
    · exact hskips hlt'
    · exact hb.skips

/-- One turn of the loop. -/
lemma At.layerTurn (h : At W c p first i last) (hfault : ∀ n j, fault n j = false)
    (hfirst : first ≤ i) (hlt : i < last) (hlast : last ≤ W.numLayers) :
    At W c (layerTurn W c fault i last p) first (i + 1) last := by
  rw [VibeVoice.Decoder.layerTurn]
  by_cases hres : i < c.nResident
  · have hwait : (prefetchWait W c fault p i).1 = p := by rw [prefetchWait, if_pos hres]
    rw [hwait]
    by_cases hnext : i + 1 < last
    · rw [if_pos hnext]
      rcases prefetchBegin_cases h.inv hfault (hnext.trans_le hlast) with ⟨heq, hskips⟩ | ⟨hb, -⟩
      · rw [heq]
        exact h.computed_of_resident hres (fun _ _ => hskips) (computed_resident h.inv hres)
      · exact (h.began_of_resident hres hnext hb).computed_of_resident hres (fun _ _ => hb.skips)
          (computed_resident hb.inv hres)
    · rw [if_neg hnext]
      exact h.computed_of_resident hres (fun _ hlt' => absurd hlt' hnext)
        (computed_resident h.inv hres)
  · have hstr : c.nResident ≤ i := Nat.not_lt.mp hres
    have hw : Waited W c p (prefetchWait W c fault p i).1 i := by
      refine prefetchWait_waited h.inv hfault hstr (hlt.trans_le hlast) fun hne => ?_
      cases hl : p.loaded (c.slot i) with
      | none => exact h.inv.knownTo_of_empty hl _
      | some y =>
        cases hdone : p.doneValid (c.slot i) with
        | true => exact fun n hn => h.inv.event_done (h.inv.done_copies hdone n hn)
        | false =>
          rcases h.pending _ y hl hdone with
            hnext | hunused | hknown | ⟨_, x, x', hx, hx', hxx, -⟩
          · exact absurd (hl.trans (congrArg some (hnext.eq hstr))) hne
          · exact absurd rfl (hunused i hfirst hlt hstr)
          · exact hknown
          · exact absurd (hx.eq hstr ▸ hxx) (Nat.not_lt.mpr hx'.from_le)
    generalize (prefetchWait W c fault p i).1 = q at hw
    have hcomputed : Computed W c q (prefetchDone c (computeLayer q i) i) i :=
      computed_streamed hw.inv hstr (by rw [hw.loaded, Function.update_self]) hw.arrived
    by_cases hnext : i + 1 < last
    · rw [if_pos hnext]
      rcases prefetchBegin_cases hw.inv hfault (hnext.trans_le hlast) with
        ⟨heq, hskips⟩ | ⟨hb, hskips⟩
      · rw [heq]
        exact h.computed_of_streamed hstr hlt hw (.inl ⟨rfl, fun _ => hskips⟩) hcomputed
      · have hslot : c.slot (i + 1) ≠ c.slot i := by
          cases htwo : c.twoBufs with
          | true => exact slot_succ_ne htwo i
          | false =>
            -- the one buffer is begun anew only when its `done` event is stale
            exfalso
            obtain ⟨-, hno, -, hfree⟩ : ¬ i + 1 < c.nResident ∧ ¬ c.noPrefetch = true ∧
                ¬ q.loaded (c.slot (i + 1)) = some (i + 1) ∧
                ¬ (q.loaded (c.slot (i + 1)) ≠ none ∧ q.doneValid (c.slot (i + 1)) = false) := by
              simpa only [Skips, not_or] using hskips
            rw [slot_single htwo, ← slot_single htwo i, hw.loaded, Function.update_self] at hfree
            have hdone : q.doneValid (c.slot i) = true :=
              eq_true_of_ne_false fun hf => hfree ⟨Option.some_ne_none _, hf⟩
            obtain ⟨hd, hl⟩ := hw.stale hdone
            have hn := next_self hlt hstr
            rw [slot_single htwo] at hd hl hn
            have hend := h.single htwo (Bool.eq_false_iff.mpr hno) i hl hd hn
            omega
        have hloaded : (prefetchBegin W c fault q (i + 1)).1.loaded (c.slot i) = some i := by
          rw [hb.loaded, Function.update_of_ne hslot.symm, hw.loaded, Function.update_self]
        exact h.computed_of_streamed hstr hlt hw (.inr ⟨hb, hslot, hnext⟩)
          (computed_streamed hb.inv hstr hloaded
            (hb.knownTo hslot.symm fun n hn => hb.compute (hw.arrived n hn)))
    · rw [if_neg hnext]
      exact h.computed_of_streamed hstr hlt hw (.inl ⟨rfl, fun hlt' => absurd hlt' hnext⟩) hcomputed

lemma layerLoop_succ (fails : ℕ → Bool) (n i : ℕ) (p : Pool) :
    layerLoop W c fault fails (n + 1) i p =
      if fails i then (layerTurn W c fault i (i + (n + 1)) p, false)
      else layerLoop W c fault fails n (i + 1) (layerTurn W c fault i (i + (n + 1)) p) := by
  have hiff : n ≠ 0 ↔ i + 1 < i + (n + 1) := by omega
  rw [layerLoop, layerTurn]
  simp only [hiff]

/-- The loop keeps the invariant, and gets to its end unless the pass fails. -/
lemma At.layerLoop (hfault : ∀ n j, fault n j = false) (fails : ℕ → Bool) :
    ∀ (n i : ℕ) (p : Pool), At W c p first i (i + n) → first ≤ i → i + n ≤ W.numLayers →
      Inv W c (layerLoop W c fault fails n i p).1 ∧
        ((layerLoop W c fault fails n i p).2 = true →
          At W c (layerLoop W c fault fails n i p).1 first (i + n) (i + n)) := by
  intro n
  induction n with
  | zero => exact fun i p h _ _ => ⟨h.inv, fun _ => h⟩
  | succ n ih =>
    intro i p h hfirst hlast
    have hturn := h.layerTurn hfault hfirst (by omega) hlast
    rw [layerLoop_succ]
    by_cases hfails : fails i = true
    · rw [if_pos hfails]
      exact ⟨hturn.inv, fun hok => absurd hok Bool.false_ne_true⟩
    · rw [if_neg hfails]
      rw [show i + (n + 1) = i + 1 + n by omega] at hturn hlast ⊢
      exact ih (i + 1) _ hturn (Nat.le_succ_of_le hfirst) hlast

/-- The first layer is begun ahead of the loop. -/
lemma Ready.begin (h : Ready c p first last) (hp : Inv W c p) (hfault : ∀ n j, fault n j = false)
    (hlt : first < last) (hlast : last ≤ W.numLayers) :
    At W c (prefetchBegin W c fault p first).1 first first last := by
  rcases prefetchBegin_cases hp hfault (hlt.trans_le hlast) with ⟨heq, hskips⟩ | ⟨hb, -⟩
  · rw [heq]
    exact ⟨hp, h.pending, h.single, fun _ _ => hskips, fun hf => absurd hf (lt_irrefl first)⟩
  · refine ⟨hb.inv, fun slot y hl hdone => ?_, fun hone _ y _ hdone _ => ?_, fun _ _ => hb.skips,
      fun hf => absurd hf (lt_irrefl first)⟩
    · by_cases hslot : slot = c.slot first
      · subst hslot
        rw [hb.loaded, Function.update_self] at hl
        obtain rfl := Option.some.inj hl
        exact .inl (next_self hlt hb.streamed)
      · rw [hb.loaded, Function.update_of_ne hslot] at hl
        rw [hb.doneValid, Function.update_of_ne hslot] at hdone
        exact (h.pending slot y hl hdone).began hp hb hslot
    · rw [hb.doneValid, ← slot_single hone first, Function.update_self] at hdone
      exact absurd hdone Bool.false_ne_true

/-- Behind the last layer, the same layers may be gone through again. -/
lemma At.ready (h : At W c p first last last) (hlt : first < last) : Ready c p first last where
  pending slot y hl hdone := by
    rcases h.pending slot y hl hdone with hnext | hunused | hknown | ⟨_, x, _, hx, -⟩
    · exact absurd hnext.lt (Nat.not_lt.mpr hnext.from_le)
    · exact .inr (.inl hunused)
    · exact .inr (.inr (.inl hknown))
    · exact absurd hx.lt (Nat.not_lt.mpr hx.from_le)
  single hone _ y hl _ hnext := by
    have hres : c.nResident ≤ last - 1 :=
      hnext.streamed.trans (Nat.le_sub_one_of_lt hnext.lt)
    have hloaded := h.computed hlt hres
    rw [slot_single hone] at hloaded
    have hy := Option.some.inj (hl.symm.trans hloaded)
    omega

lemma Ready.walk (h : Ready c p first last) (hp : Inv W c p) (hfault : ∀ n j, fault n j = false)
    (hlt : first < last) (hlast : last ≤ W.numLayers) (fails : ℕ → Bool) :
    Inv W c (walk W c fault first (last - first) fails p).1 ∧
      ((walk W c fault first (last - first) fails p).2 = true →
        Ready c (walk W c fault first (last - first) fails p).1 first last) := by
  have heq : first + (last - first) = last := by omega
  have hat := h.begin hp hfault hlt hlast
  have hloop := At.layerLoop hfault fails (last - first) first _ (heq.symm ▸ hat) le_rfl
    (heq.symm ▸ hlast)
  rw [heq] at hloop
  exact ⟨hloop.1, fun hok => (hloop.2 hok).ready hlt⟩

lemma Ready.chunkLoop (hfault : ∀ n j, fault n j = false) (hlt : first < last)
    (hlast : last ≤ W.numLayers) :
    ∀ (chunks : List (ℕ → Bool)) (p : Pool), Inv W c p → (chunks ≠ [] → Ready c p first last) →
      Inv W c (chunkLoop W c fault first (last - first) chunks p) := by
  intro chunks
  induction chunks with
  | nil => exact fun p hp _ => hp
  | cons fails chunks ih =>
    intro p hp hready
    obtain ⟨hinv, hagain⟩ := (hready nofun).walk hp hfault hlt hlast fails
    rw [VibeVoice.Decoder.chunkLoop]
    generalize VibeVoice.Decoder.walk W c fault first (last - first) fails p = r at hinv hagain
    obtain ⟨q, ok⟩ := r
    cases ok with
    | false => exact hinv
    | true => exact ih q hinv fun _ => hagain rfl

end Walk

/-! ### Runs -/

section Run

variable {W : Weights} {c : PoolConfig} {fault : ℕ → ℕ → Bool} {p : Pool}

/-- The pass may start on the pool, if it goes through any layer at all. -/
def PassReady (W : Weights) (c : PoolConfig) (p : Pool) : Pass → Prop
  | .step first n _ => 0 < n → first + n ≤ W.numLayers → Ready c p first (first + n)
  | .prefill first n chunks =>
    0 < n → first + n ≤ W.numLayers → chunks ≠ [] → Ready c p first (first + n)

lemma copiesInto_poolCreate (slot : Slot) (n : ℕ) :
    copiesInto (poolCreate c).log slot n = false := rfl

lemma inv_poolCreate (W : Weights) (c : PoolConfig) : Inv W c (poolCreate c) where
  wf := Log.wf_empty
  resident layer hres place hplace := by
    rw [poolCreate] at hplace
    dsimp only at hplace
    rw [if_pos hres] at hplace
    exact List.eq_of_mem_replicate hplace
  host layer hres _ := by
    rw [poolCreate]
    dsimp only
    rw [if_neg (Nat.not_lt.mpr hres)]
  length_place _ := List.length_replicate
  length_saved _ := Nat.zero_le _
  held hl := nomatch hl
  empty _ _ := rfl
  computed := by
    rintro slot n ⟨layer, places, hop, -⟩
    exact nomatch hop
  event_done hn := nomatch hn
  flown _ := .inl fun n hn => absurd hn (by rw [copiesInto_poolCreate]; exact Bool.false_ne_true)
  right hk := nomatch hk
  ready _ := .inl fun n hn => absurd hn (by rw [copiesInto_poolCreate]; exact Bool.false_ne_true)
  done_copies hdone := absurd hdone Bool.false_ne_true
  done_reads hdone := absurd hdone Bool.false_ne_true

lemma Inv.runPass (h : Inv W c p) (hfault : ∀ n j, fault n j = false) {pass : Pass}
    (hready : PassReady W c p pass) : Inv W c (runPass W c fault p pass) := by
  have hrange : ∀ {first n}, ¬ (n = 0 ∨ W.numLayers < first + n) →
      0 < n ∧ first < first + n ∧ first + n ≤ W.numLayers := by omega
  cases pass with
  | step first n fails =>
    rw [VibeVoice.Decoder.runPass, decoderStep]
    split_ifs with hempty
    · exact h
    · obtain ⟨hn, hlt, hlast⟩ := hrange hempty
      have hwalk := (hready hn hlast).walk h hfault hlt hlast fails
      rw [Nat.add_sub_cancel_left] at hwalk
      exact hwalk.1
  | prefill first n chunks =>
    rw [VibeVoice.Decoder.runPass, decoderPrefill]
    split_ifs with hempty
    · exact h
    · obtain ⟨hn, hlt, hlast⟩ := hrange hempty
      have hloop := Ready.chunkLoop hfault hlt hlast chunks p h (hready hn hlast)
      rwa [Nat.add_sub_cancel_left] at hloop

lemma Inv.runPasses (hfault : ∀ n j, fault n j = false) :
    ∀ (passes : List Pass) (p : Pool), Inv W c p →
      (∀ pre pass post, passes = pre ++ pass :: post →
        PassReady W c (runPasses W c fault pre p) pass) →
      Inv W c (runPasses W c fault passes p) := by
  intro passes
  induction passes with
  | nil => exact fun p h _ => h
  | cons pass passes ih =>
    intro p h hready
    refine ih _ (h.runPass hfault (hready [] pass passes rfl)) fun pre pass' post heq => ?_
    exact hready (pass :: pre) pass' post (congrArg (pass :: ·) heq)

/-- The order is enough: the copy is the last one in every schedule, and later copies wait. -/
lemma Fixed.right {l : Log Stream Event Op} {k layer : ℕ} {places : List Place} {slot : Slot}
    {w : ℕ} {parts : List Part} (hl : l.Wf) (hk : k < l.ops.length)
    (h : Fixed W l k layer places slot w parts) : Right W l k layer places slot w parts where
  filled := h.filled
  copied := h.copied
  before := h.before
  holds σ := σ.last_eq hl hk h.before (copiesInto_iff.mpr ⟨layer, parts, h.copied⟩) h.others
  kept n hn hcopy := by
    have hw := hl.past_lt h.before
    rcases h.others n hcopy (by omega) with hold | hnew
    · exact absurd (hl.past_lt hold) (by omega)
    · exact hnew

lemma Inv.allRight (h : Inv W c p) : AllRight W c p.log := by
  intro k layer places hop
  have hright := h.right hop
  split_ifs at hright ⊢ with hres
  · exact hright
  · obtain ⟨w, parts, hfixed⟩ := hright
    exact ⟨c.slot layer, w, parts, hfixed.right h.wf (Log.lt_of_op hop)⟩

/-- In a run whose passes start on ready pools, every layer is computed with its own weights, as
long as every copy is enqueued. -/
theorem run_right (hfault : ∀ n j, fault n j = false) (passes : List Pass)
    (hready : ∀ pre pass post, passes = pre ++ pass :: post →
      PassReady W c (runPasses W c fault pre (poolCreate c)) pass) :
    AllRight W c (runPasses W c fault passes (poolCreate c)).log :=
  (Inv.runPasses hfault passes _ (inv_poolCreate W c) hready).allRight

lemma AllRight.streamed {l : Log Stream Event Op} (h : AllRight W c l) {k layer : ℕ}
    {places : List Place} (hop : l.op k = some (.compute layer places))
    (hres : c.nResident ≤ layer) : ∃ slot w parts, Right W l k layer places slot w parts := by
  have hright := h k layer places hop
  rwa [if_neg (Nat.not_lt.mpr hres)] at hright

lemma ready_poolCreate (c : PoolConfig) (first last : ℕ) : Ready c (poolCreate c) first last where
  pending _ _ hl _ := nomatch hl
  single _ _ _ hl _ _ := nomatch hl

/-- Four layers with one tensor each. -/
def fourLayers : Weights where
  numLayers := 4
  sizes _ := 1 :: List.replicate 36 0
  length_sizes _ := rfl

/-- A pass through all four layers that fails at one of them, or at none. -/
def fourPass (fails : Option ℕ) : Pass := .step 0 4 fun i => fails == some i

/-- A step through four layers, and one that fails at the second. -/
theorem run_right_two :
    AllRight fourLayers ⟨true, 0, false⟩
      (runPasses fourLayers ⟨true, 0, false⟩ (fun _ _ => false)
        [fourPass none, fourPass (some 1)] (poolCreate ⟨true, 0, false⟩)).log := by
  refine run_right (fun _ _ => rfl) _ fun pre pass post heq => ?_
  match pre, heq with
  | [], heq =>
    obtain ⟨rfl, -⟩ := List.cons.inj heq
    exact fun _ _ => ready_poolCreate ..
  | [_], heq =>
    obtain ⟨rfl, htail⟩ := List.cons.inj heq
    obtain ⟨rfl, -⟩ := List.cons.inj htail
    refine fun _ _ => ⟨fun slot y hl hdone => ?_, nofun⟩
    match slot with
    | 0 => exact absurd hdone (by decide)
    | 1 => exact absurd hdone (by decide)
  | _ :: _ :: _, heq => simp at heq

/-- A pass that fails at the first or second layer, and one more pass. -/
def afterFailure (twoBufs : Bool) : Log Stream Event Op :=
  (runPasses fourLayers ⟨twoBufs, 0, false⟩ (fun _ _ => false)
    [fourPass (some (if twoBufs then 1 else 0)), fourPass none]
    (poolCreate ⟨twoBufs, 0, false⟩)).log

/-- The copy that the failed pass began ahead is late, and lands on the first layer. -/
def lateCopy : Schedule (afterFailure true) where
  order := [0, 1, 2, 4, 5, 3, 6, 7, 8, 9, 10, 11]
  perm := by decide +kernel
  sorted := by decide +kernel

/-- With two buffers, what a failed pass began ahead may land on another layer; with one, the second
pass copies a layer over the first before it is computed. -/
theorem failure_not_right :
    ¬ AllRight fourLayers ⟨true, 0, false⟩ (afterFailure true) ∧
      ¬ AllRight fourLayers ⟨false, 0, false⟩ (afterFailure false) := by
  constructor
  · intro h
    have hop : (afterFailure true).op 6 =
        some (.compute 0 (.dev 0 0 :: List.replicate 36 .host)) := by decide +kernel
    obtain ⟨slot, w, parts, hright⟩ := h.streamed hop le_rfl
    have hlast := hright.holds lateCopy
    rcases slot_zero_or_one slot with hslot | hslot
    · have hlate : lateCopy.last (copiesInto (afterFailure true) 0) 6 = some 3 := by
        decide +kernel
      rw [hslot, hlate] at hlast
      have hcopied := hright.copied
      rw [← Option.some.inj hlast] at hcopied
      have hop' : (afterFailure true).op 3 = some (.copy 0 2 [⟨0, 0, 1⟩]) := by decide +kernel
      exact absurd (Op.copy.inj (Option.some.inj (hop'.symm.trans hcopied))).2.1 (by decide)
    · have hother : lateCopy.last (copiesInto (afterFailure true) 1) 6 = some 1 := by
        decide +kernel
      rw [hslot, hother] at hlast
      have hcopied := hright.copied
      rw [← Option.some.inj hlast] at hcopied
      have hop' : (afterFailure true).op 1 = some (.copy 1 1 [⟨0, 0, 1⟩]) := by decide +kernel
      exact absurd (Op.copy.inj (Option.some.inj (hop'.symm.trans hcopied))).2.1 (by decide)
  · intro h
    have hop : (afterFailure false).op 3 = some (.compute 0 (List.replicate 37 .host)) := by
      decide +kernel
    obtain ⟨slot, w, parts, hright⟩ := h.streamed hop le_rfl
    obtain ⟨off, hoff, -⟩ := hright.filled.points 0 1 rfl Nat.one_ne_zero
    exact nomatch Option.some.inj hoff

end Run

end VibeVoice.Decoder
