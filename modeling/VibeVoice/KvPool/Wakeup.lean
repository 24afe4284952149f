import VibeVoice.KvPool.Stall

/-!
Deadlock and lost wake-ups.

`WakeSafe` is what the pool promises its sleepers.  The accounting keeps it as long as no page
return brings `stall_gen` round to the generation of a sleeper that is still counted under it
(`Fresh`), and not longer: `wakeSafe_iff_fresh`.

`stall_gen` is an `unsigned`, so such a return exists: a sleeper that has been woken but not
scheduled keeps its `my_gen` through `2 ^ 32` returns of another cache and then takes itself for
counted, while `n_stalled` has forgotten it.  `stale_deadlock` is a run into a state where both
holders sleep and nobody will wake them.

* `Exact`: `n_stalled` is the number of the counted sleepers, who are the holders that sleep
  with no wake-up pending, and never all the holders.
* `Exact.next`: a step that meets `Fresh` keeps it.
* `Exact.wakeSafe`: it gives `WakeSafe`.
-/

namespace VibeVoice.KvPool

open Machine Tally

variable {ι : Type} [Fintype ι] [DecidableEq ι]

/-- What the pool promises its sleepers: `n_stalled` counts the holders asleep under the current
generation, each short of pages; some holder does not doze when there is one; and nobody dozes
who could be served. -/
structure WakeSafe (s : Pool ι) : Prop where
  stalled : s.nStalled = ((Finset.univ.filter fun c => (s.cache c).owned ≠ [] ∧
    (s.cache c).countedAt s.stallGen = true).card : ℤ)
  short : ∀ c, (s.cache c).countedAt s.stallGen = true → s.nFree < (s.cache c).need
  noDeadlock : (∃ c, (s.cache c).owned ≠ []) →
    ∃ c, (s.cache c).owned ≠ [] ∧ (s.cache c).dozing = false
  noLostWakeup : ∀ c, (s.cache c).sleeps = true → (s.cache c).need ≤ s.nFree →
    (s.cache c).dozing = false

/-- A return of pages meets no sleeper counted under the generation it opens. -/
def Fresh (s : Pool ι) (a : Act ι) : Prop :=
  a.returns s = true → ∀ c, (s.cache c).countedAt (s.stallGen + 1) = false

/-! ### The exact accounting -/

/-- The accounting of the sleepers is exact. -/
structure Exact (s : Pool ι) : Prop where
  stalled : s.nStalled = tally (Cache.countedAt s.stallGen) s.cache
  dozing_of_counted : ∀ c, (s.cache c).countedAt s.stallGen = true → (s.cache c).dozing = true
  counted_of_dozing : ∀ c, (s.cache c).dozing = true → (s.cache c).pages ≠ [] →
    (s.cache c).countedAt s.stallGen = true
  slack : 0 < s.nHolders → s.nStalled < s.nHolders

omit [DecidableEq ι] in
lemma Exact.fresh (n : ℕ) (maxSeqLen : ι → ℤ) : Exact (Pool.fresh n maxSeqLen) where
  stalled := by simp [Pool.fresh, tally, Cache.countedAt]
  dozing_of_counted := by simp [Pool.fresh, Cache.countedAt]
  counted_of_dozing := by simp [Pool.fresh, Cache.dozing]
  slack := by simp [Pool.fresh]

lemma owned_of_dozing {k : Cache} (h : k.dozing = true) : k.owned = k.pages := by
  cases hp : k.phase <;> simp_all [Cache.dozing, Cache.owned, Cache.livePages, Cache.popped]

omit [DecidableEq ι] in
/-- A counted sleeper holds its pages. -/
lemma Stalls.owned_of_counted {s : Pool ι} {c : ι} {g : UInt32} (h : Stalls s)
    (hc : (s.cache c).countedAt g = true) : (s.cache c).owned ≠ [] := by
  have hpages := h.counted_pages c g hc
  cases hp : (s.cache c).phase <;>
    simp_all [Cache.countedAt, Cache.owned, Cache.livePages, Cache.popped]

omit [DecidableEq ι] in
/-- At most the holders are stalled. -/
lemma Exact.le_holders {n : ℕ} {s : Pool ι} (hled : Ledger n s) (hst : Stalls s) (h : Exact s) :
    s.nStalled ≤ s.nHolders := by
  rw [h.stalled, hled.holders]
  refine tally_mono fun c hc => ?_
  simpa [Cache.holds] using hst.owned_of_counted hc

omit [Fintype ι] in
/-- A step that replaces the cache `c` under the same generation keeps the two readings of being
stalled together, when the new cache does. -/
lemma Exact.update_readings {s : Pool ι} {c : ι} {k : Cache}
    (hdoz : ∀ d, (s.cache d).countedAt s.stallGen = true → (s.cache d).dozing = true)
    (hcnt : ∀ d, (s.cache d).dozing = true → (s.cache d).pages ≠ [] →
      (s.cache d).countedAt s.stallGen = true)
    (hk : k.countedAt s.stallGen = true → k.dozing = true)
    (hk' : k.dozing = true → k.pages ≠ [] → k.countedAt s.stallGen = true) :
    (∀ d, (Function.update s.cache c k d).countedAt s.stallGen = true →
        (Function.update s.cache c k d).dozing = true) ∧
      ∀ d, (Function.update s.cache c k d).dozing = true →
        (Function.update s.cache c k d).pages ≠ [] →
        (Function.update s.cache c k d).countedAt s.stallGen = true :=
  ⟨forall_update (P := fun k => k.countedAt s.stallGen = true → k.dozing = true) hdoz hk,
    forall_update (P := fun k => k.dozing = true → k.pages ≠ [] → k.countedAt s.stallGen = true)
      hcnt hk'⟩

/-- A return of pages that meets no sleeper of the next generation leaves nobody counted. -/
lemma Exact.of_broadcast {s s' : Pool ι} {c : ι} {k : Cache} (hk : k.sleeps = false)
    (hfresh : ∀ d, (s.cache d).countedAt (s.stallGen + 1) = false)
    (hcache : ∀ d, s'.cache d = (Function.update s.cache c k d).wake)
    (hgen : s'.stallGen = s.stallGen + 1) (hstalled : s'.nStalled = 0) : Exact s' := by
  have hnone : ∀ d, (s'.cache d).countedAt s'.stallGen = false := by
    intro d
    rw [hcache, hgen, Cache.wake_countedAt]
    exact forall_update (P := fun k => k.countedAt (s.stallGen + 1) = false) hfresh
      (Cache.countedAt_of_awake hk _) d
  refine ⟨?_, fun d hd => ?_, fun d hd _ => ?_, fun h => hstalled ▸ h⟩
  · rw [hstalled, tally_eq_zero hnone]
  · rw [hnone d] at hd; cases hd
  · rw [hcache, Cache.wake_dozing] at hd; cases hd

/-- Every step that meets `Fresh` keeps the accounting exact. -/
theorem Exact.next {n : ℕ} {s s' : Pool ι} {a : Act ι} {o : Outcome} (hled : Ledger n s)
    (hst : Stalls s) (h : Exact s) (hfresh : Fresh s a) (hs : step s a = some (o, s')) :
    Exact s' := by
  have heff := step_effect hs
  simp only [Fresh] at hfresh
  generalize a.cacheOf = c at heff
  generalize a.returns s = ret at heff hfresh
  have hup := tally_update (Cache.countedAt s.stallGen) s.cache c
  have hstalled := h.stalled
  have hslack := h.slack
  cases heff with
  | skip => exact h
  | @own _ k hout hsame hawake hwf =>
    have hold := Cache.countedAt_of_awake (sleeps_of_outside hout) s.stallGen
    have hnew := Cache.countedAt_of_awake hawake s.stallGen
    obtain ⟨hd, hc⟩ := update_readings (c := c) (k := k) h.dozing_of_counted
      h.counted_of_dozing (by simp [hnew]) (by simp [Cache.dozing_of_awake hawake])
    refine ⟨?_, hd, hc, hslack⟩
    simp only [Pool.setCache, hup, hold, hnew]
    simpa using hstalled
  | @refuse need wait counted myGen hk hshort hwhy =>
    have hold := hk.countedAt (s := s)
    obtain ⟨hd, hc⟩ := update_readings (c := c) (k := { s.cache c with phase := .idle })
      h.dozing_of_counted h.counted_of_dozing (by simp [Cache.countedAt])
      (by simp [Cache.dozing])
    have hnew : Cache.countedAt s.stallGen { s.cache c with phase := .idle } = false := rfl
    refine ⟨?_, hd, hc, fun hpos => ?_⟩
    · simp only [Pool.setCache, hup, hold, hnew]
      cases stillCounted s counted myGen <;> simp [hstalled]
    · have := hslack hpos
      simp only [Pool.setCache]
      cases stillCounted s counted myGen <;> simp <;> omega
  | @stall need counted myGen hk hshort hholds hnot hrun =>
    have hold := hk.countedAt (s := s)
    have hnew : Cache.countedAt s.stallGen
        { s.cache c with phase := .asleep need true s.stallGen false } = true := by
      simp [Cache.countedAt]
    obtain ⟨hd, hc⟩ := update_readings (c := c)
      (k := { s.cache c with phase := .asleep need true s.stallGen false })
      h.dozing_of_counted h.counted_of_dozing (fun _ => rfl) (fun _ _ => hnew)
    refine ⟨?_, hd, hc, fun _ => ?_⟩
    · simp only [Pool.setCache, hup, hold, hnew, hnot]
      simp [hstalled]
    · simp only [Pool.setCache]
      omega
  | @doze need counted myGen hk hshort hcount =>
    have hold := hk.countedAt (s := s)
    have hnew : Cache.countedAt s.stallGen { s.cache c with
        phase := .asleep need (stillCounted s counted myGen) myGen false }
        = stillCounted s counted myGen := by
      simp only [Cache.countedAt, stillCounted]
      cases counted <;> simp [BEq.comm]
    obtain ⟨hd, hc⟩ := update_readings (c := c) (k := { s.cache c with
        phase := .asleep need (stillCounted s counted myGen) myGen false })
      h.dozing_of_counted h.counted_of_dozing (fun _ => rfl) (fun _ hpages => by
        rw [hnew]; exact hcount.resolve_left hpages)
    refine ⟨?_, hd, hc, hslack⟩
    simp only [Pool.setCache, hup, hold, hnew]
    simpa using hstalled
  | @grant need wait counted myGen hk henough =>
    have hold := hk.countedAt (s := s)
    have hle := h.le_holders hled hst
    obtain ⟨hd, hc⟩ := update_readings (c := c)
      (k := { s.cache c with phase := .mapping (s.freeStack.take need) })
      h.dozing_of_counted h.counted_of_dozing (by simp [Cache.countedAt])
      (by simp [Cache.dozing])
    have hnew : Cache.countedAt s.stallGen
        { s.cache c with phase := .mapping (s.freeStack.take need) } = false := rfl
    refine ⟨?_, hd, hc, fun hpos => ?_⟩
    · simp only [Pool.setCache, hup, hold, hnew]
      cases stillCounted s counted myGen <;> simp [hstalled]
    · -- a first page makes one more holder, who is running
      simp only [Pool.setCache] at hpos ⊢
      cases stillCounted s counted myGen <;> cases hp : (s.cache c).pages.isEmpty <;>
        simp [hp] at hpos ⊢ <;> omega
  | @commit ids hk =>
    have hold : (s.cache c).countedAt s.stallGen = false := by simp [Cache.countedAt, hk]
    obtain ⟨hd, hc⟩ := update_readings (c := c)
      (k := { s.cache c with pages := (s.cache c).pages ++ ids, phase := .idle })
      h.dozing_of_counted h.counted_of_dozing (by simp [Cache.countedAt])
      (by simp [Cache.dozing])
    have hnew : Cache.countedAt s.stallGen
        { s.cache c with pages := (s.cache c).pages ++ ids, phase := .idle } = false := rfl
    refine ⟨?_, hd, hc, hslack⟩
    simp only [Pool.setCache, hup, hold, hnew]
    simpa using hstalled
  | @unmap ids st hk hst =>
    exact .of_broadcast (c := c) (k := { s.cache c with phase := .idle }) rfl (hfresh rfl)
      (fun _ => rfl) rfl rfl
  | @giveBack free hk hpages =>
    exact .of_broadcast (c := c) (k := { s.cache c with phase := .releasing free }) rfl
      (hfresh rfl) (fun _ => rfl) rfl rfl

omit [DecidableEq ι] in
/-- An exact accounting keeps the promise. -/
theorem Exact.wakeSafe {n : ℕ} {s : Pool ι} (hled : Ledger n s) (hst : Stalls s)
    (h : Exact s) : WakeSafe s where
  stalled := by
    rw [h.stalled, tally_eq_card]
    congr 2
    refine Finset.filter_congr fun c _ => ?_
    exact ⟨fun hc => ⟨hst.owned_of_counted hc, hc⟩, fun hc => hc.2⟩
  short c hc := hst.short c (h.dozing_of_counted c hc)
  noDeadlock := by
    rintro ⟨c, hc⟩
    by_contra hall
    simp only [not_exists, not_and, Bool.not_eq_false] at hall
    have hholds : (s.cache c).holds = true := by simpa [Cache.holds] using hc
    have hpos : 0 < s.nHolders := hled.holders ▸ tally_pos (g := s.cache) hholds
    have hle : tally Cache.holds s.cache ≤ tally (Cache.countedAt s.stallGen) s.cache := by
      refine tally_mono fun d hd => ?_
      have howned : (s.cache d).owned ≠ [] := by simpa [Cache.holds] using hd
      have hdoze := hall d howned
      exact h.counted_of_dozing d hdoze (owned_of_dozing hdoze ▸ howned)
    have hslack := h.slack hpos
    rw [← hled.holders, ← h.stalled] at hle
    omega
  noLostWakeup c _ hneed := by
    by_contra hdoze
    have hshort := hst.short c (by simpa using hdoze)
    omega

/-! ### Every run -/

/-- A run of steps that meet `Fresh` keeps the accounting exact. -/
lemma Exact.along {n : ℕ} {maxSeqLen : ι → ℤ} {as : List (Act ι)}
    (h : Guarded step Fresh (Pool.fresh n maxSeqLen) as) :
    Along step (fun s => Ledger n s ∧ Stalls s ∧ Exact s) (Pool.fresh n maxSeqLen) as :=
  .of_guarded ⟨Ledger.fresh n maxSeqLen, Stalls.fresh n maxSeqLen, Exact.fresh n maxSeqLen⟩
    (fun _ _ _ _ ⟨hled, hst, hex⟩ hG hs => ⟨hled.next hs, hst.next hs, hex.next hled hst hG hs⟩) h

/-- A return that meets a sleeper of the next generation leaves it counted but not in
`n_stalled`. -/
lemma not_wakeSafe_of_stale {s s' : Pool ι} {a : Act ι} {o : Outcome} {c : ι} (hst : Stalls s)
    (hs : step s a = some (o, s')) (hret : a.returns s = true)
    (hc : (s.cache c).countedAt (s.stallGen + 1) = true) : ¬ WakeSafe s' := by
  intro hsafe
  have heff := step_effect hs
  rw [hret] at heff
  generalize hactor : a.cacheOf = d at heff
  have hholds := hst.owned_of_counted hc
  -- in both returns the actor is awake, so the sleeper is another cache
  have hkey : s'.nStalled = 0 ∧ (s'.cache c).owned ≠ [] ∧
      (s'.cache c).countedAt s'.stallGen = true := by
    have hcd : (s.cache d).sleeps = false → c ≠ d := by
      rintro hawake rfl
      rw [Cache.countedAt_of_awake hawake] at hc
      cases hc
    cases heff with
    | unmap hk hstat =>
      have hne := hcd (by simp [Cache.sleeps, hk])
      refine ⟨rfl, ?_, ?_⟩ <;>
        simpa [Pool.broadcast, Pool.setCache, Function.update_of_ne hne]
    | giveBack hk hpages =>
      have hne := hcd (by simp [Cache.sleeps, hk])
      refine ⟨rfl, ?_, ?_⟩ <;>
        simpa [Pool.broadcast, Pool.setCache, Function.update_of_ne hne]
  obtain ⟨hzero, howned, hcount⟩ := hkey
  have hcard := hsafe.stalled
  rw [hzero] at hcard
  have hempty := Finset.card_eq_zero.mp (Int.natCast_eq_zero.mp hcard.symm)
  have hmem : c ∈ Finset.univ.filter fun c => (s'.cache c).owned ≠ [] ∧
      (s'.cache c).countedAt s'.stallGen = true :=
    Finset.mem_filter.mpr ⟨Finset.mem_univ c, howned, hcount⟩
  rw [hempty] at hmem
  exact Finset.notMem_empty c hmem

/-- **The pool keeps its promise all along a run exactly when** every return of pages in it
meets no sleeper that is still counted under the generation the return opens. -/
theorem wakeSafe_iff_fresh (n : ℕ) (maxSeqLen : ι → ℤ) (as : List (Act ι)) (s : Pool ι)
    (hs : run step (Pool.fresh n maxSeqLen) as = some s) :
    Along step WakeSafe (Pool.fresh n maxSeqLen) as ↔
      Guarded step Fresh (Pool.fresh n maxSeqLen) as := by
  constructor
  · intro hsafe pre a hpre t ht hret c
    by_contra hc
    have hreach : Reachable step (Pool.fresh n maxSeqLen) t := ⟨pre, ht⟩
    have hst := Stalls.reachable hreach
    obtain ⟨u, hu⟩ := run_prefix hpre hs
    have hlast := run_snoc step (a := a) ht
    rw [hlast, Option.map_eq_some_iff] at hu
    obtain ⟨⟨o, t'⟩, hstep, rfl⟩ := hu
    have hrun : run step (Pool.fresh n maxSeqLen) (pre ++ [a]) = some t' := by
      rw [hlast, hstep]; rfl
    exact not_wakeSafe_of_stale hst hstep hret (by simpa using hc) (hsafe _ hpre _ hrun)
  · intro hfresh pre hpre t ht
    obtain ⟨hled, hst, hex⟩ := Exact.along hfresh pre hpre t ht
    exact hex.wakeSafe hled hst

/-- A sleeper woken by a release and served. -/
theorem wakeSafe_iff_fresh_release :
    Along step WakeSafe (Pool.fresh 2 fun _ : Fin 2 => 128)
        [.reserve 0 64 false, .mapDone 0 (.ok ()), .reserve 1 64 false, .mapDone 1 (.ok ()),
          .reserve 0 128 true, .release 1, .wakeUp 0] ↔
      Guarded step Fresh (Pool.fresh 2 fun _ : Fin 2 => 128)
        [.reserve 0 64 false, .mapDone 0 (.ok ()), .reserve 1 64 false, .mapDone 1 (.ok ()),
          .reserve 0 128 true, .release 1, .wakeUp 0] :=
  wakeSafe_iff_fresh 2 _ _ _ rfl

/-! ### The generation comes round -/

/-- The first cache was counted under generation `0`, was woken and has not run since; the
second one holds the other page. -/
def stale (g : UInt32) : Pool (Fin 2) where
  nPages := 2
  freeStack := []
  nHolders := 2
  nStalled := 0
  stallGen := g
  cache := ![⟨128, false, [0], .asleep 1 true 0 true⟩, ⟨128, false, [1], .idle⟩]

/-- The second cache gives its page back and takes it again. -/
def turnover : List (Act (Fin 2)) :=
  let c := Fin.last 1
  [.release c, .finishRelease c, .reserve c 64 false, .mapDone c (.ok ())]

lemma run_turnover (g : UInt32) : run step (stale g) turnover = some (stale (g + 1)) := by
  simp only [turnover, run, Option.bind]
  refine congrArg some (Pool.ext rfl rfl rfl rfl rfl ?_)
  funext c
  fin_cases c <;> rfl

lemma stale_reachable (k : ℕ) :
    Reachable step (Pool.fresh 2 fun _ => 128) (stale (1 + UInt32.ofNat k)) := by
  induction k with
  | zero =>
    refine ⟨[.reserve 0 64 false, .mapDone 0 (.ok ()), .reserve 1 64 false, .mapDone 1 (.ok ()),
      .reserve 0 128 true] ++ turnover, ?_⟩
    refine congrArg some (Pool.ext rfl rfl rfl rfl rfl ?_)
    funext c
    fin_cases c <;> rfl
  | succ k ih =>
    have hnext : (1 : UInt32) + UInt32.ofNat (k + 1) = 1 + UInt32.ofNat k + 1 := by
      rw [UInt32.ofNat_add, UInt32.add_assoc]; rfl
    rw [hnext]
    exact ih.trans ⟨turnover, run_turnover _⟩

/-- **A reachable deadlock**: both caches hold pages, both sleep, and no wake-up is pending. -/
theorem stale_deadlock :
    ∃ s : Pool (Fin 2), Reachable step (Pool.fresh 2 fun _ => 128) s ∧
      (∀ c, (s.cache c).owned ≠ [] ∧ (s.cache c).dozing = true) ∧ ¬ WakeSafe s := by
  have hround : (1 : UInt32) + UInt32.ofNat (2 ^ 32 - 1) = 0 := by decide
  have hstale := stale_reachable (2 ^ 32 - 1)
  rw [hround] at hstale
  refine ⟨_, hstale.trans ⟨[.wakeUp 0, .reserve 1 128 true], rfl⟩, by decide, fun hsafe => ?_⟩
  obtain ⟨c, _, hc⟩ := hsafe.noDeadlock ⟨0, by decide⟩
  fin_cases c <;> exact absurd hc (by decide)

end VibeVoice.KvPool
