import VibeVoice.Lib.Machine
import VibeVoice.Lib.Tally

/-!
How `engine.c` hands out its slots (`acquire_slot_wait`, `release_slot`).

A step is one section a thread runs under `e->lock`: `acquire_slot_wait` up to its first wait or
its return, one more pass of its loop, and `release_slot`.  A waiting thread may run at any time,
which covers its timeout and spurious wake-ups.  `vv_cond_signal` reaches one thread that is in
its wait and has not been signalled yet, when there is one; it may be a thread whose timeout
fires at the same moment.  A call that does not wait is a timed one that is late at once.

* `Sound`, `Sound.step`: who holds which slot, the count, and the wake-ups under way.
* `slots_handed_out`: the same along every schedule.
-/

namespace VibeVoice.Engine

open Tally

/-- Where a thread stands. -/
inductive Phase
  /-- Holds no slot and waits for none. -/
  | idle
  /-- In `vv_cond_wait` or `vv_cond_timedwait`; `signalled` once a signal has reached it. -/
  | waiting (timed signalled : Bool)
  /-- Holds the slot. -/
  | holding (slot : ℕ)
  deriving DecidableEq, Repr

/-- A signal is on its way to the thread. -/
def Phase.signalled : Phase → Bool
  | .waiting _ signalled => signalled
  | _ => false

/-- The thread waits and no signal has reached it. -/
def Phase.asleep : Phase → Bool
  | .waiting _ signalled => !signalled
  | _ => false

/-- The fields of `vv_engine` the hand-out reads, and where its threads stand; `n_slots` is the
length of `busy`. -/
structure Slots (ι : Type) where
  busy : List Bool
  nBusy : ℤ
  completed : UInt64
  phase : ι → Phase

variable {ι : Type}

/-- An engine of `n` slots, all of them free. -/
def Slots.init (n : ℕ) : Slots ι where
  busy := List.replicate n false
  nBusy := 0
  completed := 0
  phase _ := .idle

variable [DecidableEq ι]

/-- One thread moved. -/
def Slots.setPhase (e : Slots ι) (t : ι) (ph : Phase) : Slots ι :=
  { e with phase := Function.update e.phase t ph }

/-- The loop of `acquire_slot_wait` once, with what it returns, `-1` for no slot in time; `late`
when the deadline of a timed call has passed. -/
def acquirePass (e : Slots ι) (t : ι) (timed late : Bool) : Option ℤ × Slots ι :=
  match e.busy.findIdx? (!·) with
  | some i =>
    (some i, { e with busy := e.busy.set i true, nBusy := e.nBusy + 1 }.setPhase t (.holding i))
  | none =>
    if timed && late then (some (-1), e.setPhase t .idle)
    else (none, e.setPhase t (.waiting timed false))

/-- `vv_cond_signal(&e->slot_free)`, which reaches `u`. -/
def Slots.signal (e : Slots ι) (u : Option ι) : Slots ι :=
  match u with
  | some u =>
    match e.phase u with
    | .waiting timed _ => e.setPhase u (.waiting timed true)
    | _ => e
  | none => e

/-- `release_slot`; the signal reaches `u`. -/
def releaseSlot (e : Slots ι) (t : ι) (idx : ℕ) (ok : Bool) (u : Option ι) :
    Option ℤ × Slots ι :=
  (none, ({ e with
    busy := e.busy.set idx false
    nBusy := e.nBusy - 1
    completed := if ok then e.completed + 1 else e.completed }.setPhase t .idle).signal u)

/-- The section a thread runs next. -/
inductive Act (ι : Type)
  | acquire (t : ι) (timed late : Bool)
  | wakeUp (t : ι) (late : Bool)
  | release (t : ι) (ok : Bool) (u : Option ι)

/-- A signal may reach `u`: a thread that sleeps, or nobody when nobody does. -/
def CanSignal [Fintype ι] (e : Slots ι) (u : Option ι) : Bool :=
  match u with
  | some u => (e.phase u).asleep
  | none => decide (∀ t, (e.phase t).asleep = false)

variable [Fintype ι]

/-- One step, `none` when the thread stands elsewhere. -/
def step (e : Slots ι) : Act ι → Option (Option ℤ × Slots ι)
  | .acquire t timed late =>
    match e.phase t with
    | .idle => some (acquirePass e t timed late)
    | _ => none
  | .wakeUp t late =>
    match e.phase t with
    | .waiting timed _ => some (acquirePass e t timed late)
    | _ => none
  | .release t ok u =>
    match e.phase t with
    | .holding idx => if CanSignal e u then some (releaseSlot e t idx ok u) else none
    | _ => none

/-! ### What holds between two sections -/

/-- The busy flags are the slots held, each by one thread, and `n_busy` counts them. -/
structure Held (e : Slots ι) : Prop where
  flags : ∀ i, e.busy[i]? = some true ↔ ∃ t, e.phase t = .holding i
  unique : ∀ t u i, e.phase t = .holding i → e.phase u = .holding i → t = u
  count : e.nBusy = e.busy.count true

/-- And while a thread sleeps every free slot has a signal under way. -/
structure Sound (e : Slots ι) : Prop extends Held e where
  wakes : (∃ t, (e.phase t).asleep = true) →
    (e.busy.count false : ℤ) ≤ tally Phase.signalled e.phase

/-- The slot a scan finds is free. -/
lemma scan_some {busy : List Bool} {i : ℕ} (h : busy.findIdx? (!·) = some i) :
    ∃ hi : i < busy.length, busy[i] = false := by
  obtain ⟨hi, hbusy, -⟩ := List.findIdx?_eq_some_iff_getElem.mp h
  exact ⟨hi, by simpa using hbusy⟩

/-- A scan that finds nothing has seen every slot taken. -/
lemma scan_none {busy : List Bool} (h : busy.findIdx? (!·) = none) : busy.count false = 0 := by
  rw [List.count_eq_zero]
  intro hmem
  exact absurd (List.findIdx?_eq_none_iff.mp h false hmem) (by simp)

section Held

variable {e : Slots ι}

omit [Fintype ι] in
/-- A thread that holds no slot moves to a phase without one. -/
lemma Held.setPhase (h : Held e) {t : ι} (ph : Phase) (ht : ∀ i, e.phase t ≠ .holding i)
    (hph : ∀ i, ph ≠ .holding i) : Held (e.setPhase t ph) := by
  have hsame : ∀ u i, Function.update e.phase t ph u = .holding i ↔ e.phase u = .holding i := by
    intro u i
    by_cases hut : u = t
    · subst hut
      rw [Function.update_self]
      exact iff_of_false (hph i) (ht i)
    · rw [Function.update_of_ne hut]
  refine ⟨fun i => ?_, fun u v i hu hv => ?_, h.count⟩
  · simp only [Slots.setPhase, hsame]
    exact h.flags i
  · exact h.unique u v i ((hsame u i).mp hu) ((hsame v i).mp hv)

omit [Fintype ι] in
/-- A thread takes the slot its scan has found. -/
lemma Held.take (h : Held e) {t : ι} {i : ℕ} (ht : ∀ i, e.phase t ≠ .holding i)
    (hscan : e.busy.findIdx? (!·) = some i) :
    Held ({ e with busy := e.busy.set i true, nBusy := e.nBusy + 1 }.setPhase t (.holding i)) ∧
      (e.busy.set i true).count false + 1 = e.busy.count false := by
  obtain ⟨hi, hbusy⟩ := scan_some hscan
  have hfree : ∀ u, e.phase u ≠ .holding i := by
    intro u hu
    have hflag := (h.flags i).mpr ⟨u, hu⟩
    rw [List.getElem?_eq_getElem hi, hbusy] at hflag
    cases hflag
  refine ⟨⟨fun j => ?_, fun u v j hu hv => ?_, ?_⟩, ?_⟩
  · simp only [Slots.setPhase, List.getElem?_set]
    by_cases hij : i = j
    · subst hij
      simp only [if_true, hi, true_iff]
      exact ⟨t, Function.update_self ..⟩
    · rw [if_neg hij, h.flags]
      constructor
      · rintro ⟨u, hu⟩
        have hut : u ≠ t := fun h => ht j (h ▸ hu)
        exact ⟨u, by rwa [Function.update_of_ne hut]⟩
      · rintro ⟨u, hu⟩
        by_cases hut : u = t
        · subst hut
          rw [Function.update_self, Phase.holding.injEq] at hu
          exact absurd hu hij
        · exact ⟨u, by rwa [Function.update_of_ne hut] at hu⟩
  · simp only [Slots.setPhase, Function.update_apply] at hu hv
    split_ifs at hu hv with hut hvt hvt
    · rw [hut, hvt]
    · cases hu
      exact absurd hv (hfree v)
    · cases hv
      exact absurd hu (hfree u)
    · exact h.unique u v j hu hv
  · simp only [Slots.setPhase, h.count]
    rw [List.count_set hi, hbusy]
    simp
  · have hpos : 0 < e.busy.count false := List.count_pos_iff.mpr (hbusy ▸ List.getElem_mem hi)
    rw [List.count_set hi, hbusy]
    simp
    omega

omit [Fintype ι] in
/-- A thread gives its slot back. -/
lemma Held.give (h : Held e) {t : ι} {idx : ℕ} (ht : e.phase t = .holding idx) (n : UInt64) :
    Held ({ e with
      busy := e.busy.set idx false, nBusy := e.nBusy - 1, completed := n }.setPhase t .idle) ∧
      (e.busy.set idx false).count false = e.busy.count false + 1 := by
  obtain ⟨hi, hbusy⟩ := List.getElem?_eq_some_iff.mp ((h.flags idx).mpr ⟨t, ht⟩)
  have hpos : 0 < e.busy.count true := List.count_pos_iff.mpr (hbusy ▸ List.getElem_mem hi)
  have hkept : ∀ u i, Function.update e.phase t .idle u = .holding i ↔
      u ≠ t ∧ e.phase u = .holding i := by
    intro u i
    by_cases hut : u = t
    · subst hut
      simp
    · simp [hut]
  refine ⟨⟨fun i => ?_, fun u v i hu hv => ?_, ?_⟩, ?_⟩
  · simp only [Slots.setPhase, List.getElem?_set, hkept]
    by_cases hij : idx = i
    · subst hij
      simp only [if_true, hi]
      refine iff_of_false (by simp) ?_
      rintro ⟨u, hut, hu⟩
      exact hut (h.unique u t idx hu ht)
    · rw [if_neg hij, h.flags]
      refine exists_congr fun u => ⟨fun hu => ⟨?_, hu⟩, And.right⟩
      rintro rfl
      rw [ht, Phase.holding.injEq] at hu
      exact hij hu
  · exact h.unique u v i ((hkept u i).mp hu).2 ((hkept v i).mp hv).2
  · simp only [Slots.setPhase, h.count]
    rw [List.count_set hi, hbusy]
    simp
    omega
  · rw [List.count_set hi, hbusy]
    simp

end Held

namespace Sound

variable {e : Slots ι}

omit [DecidableEq ι] in
lemma init (n : ℕ) : Sound (Slots.init n : Slots ι) where
  flags i := by simp [Slots.init, List.getElem?_replicate]
  unique t u i h := by simp [Slots.init] at h
  count := by simp [Slots.init, List.count_replicate]
  wakes h := by simp [Slots.init, Phase.asleep] at h

/-- A pass of the loop: a thread goes to sleep only when no slot is free. -/
lemma acquirePass (hs : Sound e) {t : ι} (ht : ∀ i, e.phase t ≠ .holding i) (timed late : Bool) :
    Sound (acquirePass e t timed late).2 := by
  rw [Engine.acquirePass]
  cases hscan : e.busy.findIdx? (!·) with
  | some i =>
    obtain ⟨hheld, hcount⟩ := hs.toHeld.take ht hscan
    refine ⟨hheld, fun ⟨u, hu⟩ => ?_⟩
    have hut : u ≠ t := by
      rintro rfl
      simp [Slots.setPhase, Phase.asleep] at hu
    have hwakes := hs.wakes ⟨u, by simpa [Slots.setPhase, hut] using hu⟩
    have htally : tally Phase.signalled e.phase - 1 ≤
        tally Phase.signalled (Function.update e.phase t (.holding i)) := by
      rw [tally_update]
      split_ifs <;> omega
    simp only [Slots.setPhase]
    omega
  | none =>
    have hfull : ∀ e' : Slots ι, e'.busy = e.busy →
        (e'.busy.count false : ℤ) ≤ tally Phase.signalled e'.phase := by
      intro e' he
      rw [he, scan_none hscan]
      exact tally_nonneg _ _
    dsimp only
    split_ifs
    · exact ⟨hs.toHeld.setPhase _ ht (by simp), fun _ => hfull _ rfl⟩
    · exact ⟨hs.toHeld.setPhase _ ht (by simp), fun _ => hfull _ rfl⟩

/-- A slot given back: its signal, where anyone sleeps, is one more under way. -/
lemma releaseSlot (hs : Sound e) {t : ι} {idx : ℕ} (ht : e.phase t = .holding idx) (ok : Bool)
    {u : Option ι} (hu : CanSignal e u = true) : Sound (releaseSlot e t idx ok u).2 := by
  obtain ⟨hheld, hcount⟩ := hs.toHeld.give ht (if ok then e.completed + 1 else e.completed)
  have htally : tally Phase.signalled (Function.update e.phase t .idle) =
      tally Phase.signalled e.phase := by
    rw [tally_update, ht]
    simp [Phase.signalled]
  cases u with
  | none =>
    refine ⟨hheld, fun ⟨v, hv⟩ => ?_⟩
    have hnone := of_decide_eq_true hu
    simp only [Engine.releaseSlot, Slots.signal, Slots.setPhase, Function.update_apply] at hv
    split_ifs at hv
    · cases hv
    · rw [hnone v] at hv
      cases hv
  | some u =>
    have hut : u ≠ t := by
      rintro rfl
      rw [CanSignal, ht] at hu
      cases hu
    have hwakes := hs.wakes ⟨u, hu⟩
    cases hph : e.phase u with
    | idle => rw [CanSignal, hph] at hu; cases hu
    | holding i => rw [CanSignal, hph] at hu; cases hu
    | waiting timed signalled =>
      have hasleep : signalled = false := by
        simpa [CanSignal, hph, Phase.asleep] using hu
      have hpost : Function.update e.phase t .idle u = .waiting timed signalled := by
        rw [Function.update_of_ne hut, hph]
      have hheld' := hheld.setPhase (t := u) (.waiting timed true)
        (by simp [Slots.setPhase, hpost]) (by simp)
      rw [Engine.releaseSlot, Slots.signal]
      simp only [Slots.setPhase, hpost] at hheld' ⊢
      refine ⟨hheld', fun _ => ?_⟩
      rw [tally_update, htally, hpost, hasleep]
      simp only [hcount, Phase.signalled]
      push_cast
      omega

/-- **One step keeps the invariant.** -/
lemma step {a : Act ι} {r : Option ℤ × Slots ι} (hs : Sound e) (h : step e a = some r) :
    Sound r.2 := by
  cases a with
  | acquire t timed late =>
    cases ht : e.phase t <;> simp only [Engine.step, ht, reduceCtorEq] at h
    obtain rfl := Option.some.inj h
    exact hs.acquirePass (by simp [ht]) timed late
  | wakeUp t late =>
    cases ht : e.phase t <;> simp only [Engine.step, ht, reduceCtorEq] at h
    obtain rfl := Option.some.inj h
    exact hs.acquirePass (by simp [ht]) _ late
  | release t ok u =>
    cases ht : e.phase t <;> simp only [Engine.step, ht, reduceCtorEq] at h
    split_ifs at h with hu
    obtain rfl := Option.some.inj h
    exact hs.releaseSlot ht ok hu

end Sound

omit [Fintype ι] in
/-- A pass that finds a free slot takes it, however late it is. -/
lemma acquirePass_free {e : Slots ι} {i : ℕ} (hi : e.busy[i]? = some false) (t : ι)
    (timed late : Bool) : ∃ j : ℕ, (acquirePass e t timed late).1 = some (j : ℤ) ∧
      (acquirePass e t timed late).2.phase t = .holding j := by
  rw [acquirePass]
  cases hscan : e.busy.findIdx? (!·) with
  | some j => exact ⟨j, rfl, by simp [Slots.setPhase]⟩
  | none =>
    have hmem := List.findIdx?_eq_none_iff.mp hscan false (List.mem_of_getElem? hi)
    cases hmem

/-- **Slots are handed out once and none is stranded**, along every schedule of any number of
threads:

* no slot is held by two threads, and the slots held are those with a busy flag;
* `n_busy` is the number of busy flags;
* while a thread sleeps that no signal has reached, each free slot has a signal of its own under
  way, to another thread; and whoever runs next while a slot is free takes one, its timeout
  notwithstanding. -/
theorem slots_handed_out (n : ℕ) (e : Slots ι) (h : Machine.Reachable step (Slots.init n) e) :
    ((∀ t u i, e.phase t = .holding i → e.phase u = .holding i → t = u) ∧
        ∀ i : ℕ, e.busy[i]? = some true ↔ ∃ t, e.phase t = .holding i) ∧
      e.nBusy = e.busy.count true ∧
      (∀ t timed, e.phase t = .waiting timed false →
        (e.busy.count false : ℤ) ≤ tally Phase.signalled e.phase) ∧
      ∀ t late r (i : ℕ), e.busy[i]? = some false → step e (.wakeUp t late) = some r →
        ∃ j : ℕ, r.1 = some (j : ℤ) ∧ r.2.phase t = .holding j := by
  have hs : Sound e := h.induct (P := Sound) (Sound.init n) fun _ _ _ _ hs h => hs.step h
  refine ⟨⟨hs.unique, hs.flags⟩, hs.count, fun t timed ht => hs.wakes ⟨t, ?_⟩,
    fun t late r i hi hstep => ?_⟩
  · rw [ht]
    rfl
  · cases ht : e.phase t <;> simp only [step, ht, reduceCtorEq] at hstep
    obtain rfl := Option.some.inj hstep
    exact acquirePass_free hi t _ late

/-- One slot and three threads: the slot comes back while two wait, its signal is on the way to one
of them, and the other, which times out at that moment, takes it. -/
theorem slots_handed_out_timeout :
    ∃ e : Slots (Fin 3), Machine.run step (Slots.init 1)
        [.acquire 0 false false, .acquire 1 false false, .acquire 2 true false,
          .release 0 true (some 1)] = some e ∧
      (e.busy.count false : ℤ) ≤ tally Phase.signalled e.phase ∧
      ∃ r, step e (.wakeUp 2 true) = some r ∧ ∃ j : ℕ, r.1 = some (j : ℤ) ∧
        r.2.phase 2 = .holding j := by
  have hrun : ∃ e : Slots (Fin 3), Machine.run step (Slots.init 1)
      [.acquire 0 false false, .acquire 1 false false, .acquire 2 true false,
        .release 0 true (some 1)] = some e ∧ e.phase 2 = .waiting true false ∧
      e.busy[0]? = some false := ⟨_, rfl, rfl, rfl⟩
  obtain ⟨e, he, hphase, hbusy⟩ := hrun
  obtain ⟨-, -, hwakes, hlate⟩ := slots_handed_out 1 e ⟨_, he⟩
  have hstep : step e (.wakeUp 2 true) = some (acquirePass e 2 true true) := by
    simp only [step, hphase]
  exact ⟨e, he, hwakes 2 true hphase, _, hstep, hlate 2 true _ 0 hbusy hstep⟩

end VibeVoice.Engine
