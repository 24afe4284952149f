import VibeVoice.KvPool.Ownership

/-!
What `n_stalled` says on every run.

A sleeper with no wake-up pending that was counted under the current `stall_gen` really waits
for more than is free; call those the blocked holders.  On every run `n_stalled` is at most
their number (`Stalls.le`).  It can be less: `stall_gen` is an `unsigned`, and when it comes
round to the generation of a sleeper that has not run since, that sleeper takes itself for
counted.  Such an error only makes a waiter more patient, so the verdict
`VV_ERR_KV_POOL_EXHAUSTED` is sound on every run (`exhausted_verdict_sound`).
-/

namespace VibeVoice.KvPool

open Machine Tally

variable {ι : Type} [Fintype ι] [DecidableEq ι]

/-- The cache sleeps, counted under generation `g`, and no wake-up is pending. -/
def Cache.blocked (g : UInt32) (k : Cache) : Bool := k.countedAt g && k.dozing

/-- What holds of the sleepers on every run. -/
structure Stalls (s : Pool ι) : Prop where
  short : ∀ c, (s.cache c).dozing = true → s.nFree < (s.cache c).need
  counted_pages : ∀ c g, (s.cache c).countedAt g = true → (s.cache c).pages ≠ []
  le : s.nStalled ≤ tally (Cache.blocked s.stallGen) s.cache

omit [DecidableEq ι] in
lemma Stalls.fresh (n : ℕ) (maxSeqLen : ι → ℤ) : Stalls (Pool.fresh n maxSeqLen) where
  short := by simp [Pool.fresh, Cache.dozing]
  counted_pages := by simp [Pool.fresh, Cache.countedAt]
  le := tally_nonneg _ _

omit [Fintype ι] [DecidableEq ι] in
/-- The thread in a pass is one of the `n_stalled` exactly when it went to sleep counted under
the current generation. -/
lemma Waits.countedAt {s : Pool ι} {k : Cache} {need : ℕ} {wait counted : Bool} {g : UInt32}
    (h : Waits k need wait counted g) : k.countedAt s.stallGen = stillCounted s counted g := by
  cases h with
  | call hidle hneed hwait => simp [Cache.countedAt, stillCounted, hidle]
  | woken hasleep => simp [Cache.countedAt, stillCounted, hasleep, BEq.comm]

omit [Fintype ι] [DecidableEq ι] in
/-- A blocked thread that makes a pass is one of the `n_stalled`. -/
lemma Waits.blocked_le {s : Pool ι} {k : Cache} {need : ℕ} {wait counted : Bool} {g : UInt32}
    (h : Waits k need wait counted g) :
    (if k.blocked s.stallGen then (1 : ℤ) else 0) ≤ (stillCounted s counted g).toInt := by
  rw [Cache.blocked, h.countedAt]
  cases stillCounted s counted g <;> cases k.dozing <;> simp

omit [DecidableEq ι] in
lemma Waits.pages_of_counted {s : Pool ι} {c : ι} {need : ℕ} {wait counted : Bool} {g : UInt32}
    (h : Waits (s.cache c) need wait counted g) (hs : Stalls s)
    (hc : stillCounted s counted g = true) : (s.cache c).pages ≠ [] :=
  hs.counted_pages c s.stallGen (h.countedAt.trans hc)

/-- A cache outside a reservation does not sleep. -/
lemma sleeps_of_outside {k : Cache} (h : k.phase = .idle ∨ ∃ free, k.phase = .releasing free) :
    k.sleeps = false := by
  rcases h with h | ⟨free, h⟩ <;> simp [Cache.sleeps, h]

omit [Fintype ι] in
/-- A property of all caches survives the replacement of one. -/
lemma forall_update {P : Cache → Prop} {s : Pool ι} {c : ι} {k : Cache}
    (h : ∀ d, P (s.cache d)) (hk : P k) (d : ι) : P (Function.update s.cache c k d) := by
  by_cases hdc : d = c
  · rw [hdc, Function.update_self]; exact hk
  · rw [Function.update_of_ne hdc]; exact h d

omit [Fintype ι] in
lemma Stalls.short_update {s : Pool ι} {c : ι} {k : Cache}
    (h : ∀ d, (s.cache d).dozing = true → s.nFree < (s.cache d).need)
    (hk : k.dozing = true → s.nFree < k.need) (d : ι) :
    (Function.update s.cache c k d).dozing = true →
      s.nFree < (Function.update s.cache c k d).need :=
  forall_update (P := fun k => k.dozing = true → s.nFree < k.need) h hk d

omit [Fintype ι] in
lemma Stalls.pages_update {s : Pool ι} {c : ι} {k : Cache}
    (h : ∀ d g, (s.cache d).countedAt g = true → (s.cache d).pages ≠ [])
    (hk : ∀ g, k.countedAt g = true → k.pages ≠ []) (d : ι) (g : UInt32) :
    (Function.update s.cache c k d).countedAt g = true →
      (Function.update s.cache c k d).pages ≠ [] :=
  forall_update (P := fun k => ∀ g, k.countedAt g = true → k.pages ≠ []) h hk d g

/-- Every step keeps the facts about the sleepers. -/
theorem Stalls.next {s s' : Pool ι} {a : Act ι} {o : Outcome} (h : Stalls s)
    (hs : step s a = some (o, s')) : Stalls s' := by
  have heff := step_effect hs
  generalize a.cacheOf = c at heff
  generalize a.returns s = ret at heff
  have hup := tally_update (Cache.blocked s.stallGen) s.cache c
  have hle := h.le
  cases heff with
  | skip => exact h
  | @own _ k hout hsame hawake hk =>
    have hold := sleeps_of_outside hout
    refine ⟨short_update h.short (by simp [Cache.dozing_of_awake hawake]),
      pages_update h.counted_pages (by simp [Cache.countedAt_of_awake hawake]), ?_⟩
    simp only [Pool.setCache, hup, Cache.blocked, Cache.dozing_of_awake hawake,
      Cache.dozing_of_awake hold, Bool.and_false] at hle ⊢
    simpa using hle
  | @refuse need wait counted myGen hk hshort hwhy =>
    have hb := hk.blocked_le (s := s)
    refine ⟨short_update h.short (by simp [Cache.dozing]),
      pages_update h.counted_pages (by simp [Cache.countedAt]), ?_⟩
    have hnew : Cache.blocked s.stallGen { s.cache c with phase := .idle } = false := by
      simp [Cache.blocked, Cache.dozing]
    simp only [Pool.setCache, hup, hnew, Bool.false_eq_true, if_false]
    omega
  | @stall need counted myGen hk hshort hholds hnot hrun =>
    refine ⟨short_update h.short fun _ => hshort,
      pages_update h.counted_pages fun _ _ => hholds, ?_⟩
    have hold : (s.cache c).blocked s.stallGen = false := by
      rw [Cache.blocked, hk.countedAt, hnot, Bool.false_and]
    simp only [Pool.setCache, hup, hold]
    simp [Cache.blocked, Cache.countedAt, Cache.dozing]
    omega
  | @doze need counted myGen hk hshort hcount =>
    have hb := hk.blocked_le (s := s)
    refine ⟨short_update h.short fun _ => hshort,
      pages_update h.counted_pages fun g hg => ?_, ?_⟩
    · have hstill : stillCounted s counted myGen = true := by
        simp only [Cache.countedAt, Bool.and_eq_true] at hg
        exact hg.1
      exact hk.pages_of_counted h hstill
    · have hnew : (Cache.blocked s.stallGen { s.cache c with
          phase := .asleep need (stillCounted s counted myGen) myGen false })
          = stillCounted s counted myGen := by
        simp only [Cache.blocked, Cache.countedAt, Cache.dozing, stillCounted]
        cases counted <;> simp [BEq.comm]
      simp only [Pool.setCache, hup, hnew]
      cases hst : stillCounted s counted myGen <;> simp [hst] at hb ⊢ <;> omega
  | @grant need wait counted myGen hk henough =>
    have hb := hk.blocked_le (s := s)
    have hfewer : s.freeStack.length - need ≤ s.nFree := Nat.sub_le _ _
    refine ⟨fun d hd => ?_, pages_update h.counted_pages (by simp [Cache.countedAt]), ?_⟩
    · have := short_update (c := c) (k := { s.cache c with
        phase := .mapping (s.freeStack.take need) }) h.short (by simp [Cache.dozing]) d hd
      simp only [Pool.nFree, Pool.setCache, List.length_drop] at hfewer this ⊢
      omega
    · have hnew : Cache.blocked s.stallGen
          { s.cache c with phase := .mapping (s.freeStack.take need) } = false := by
        simp [Cache.blocked, Cache.dozing]
      simp only [Pool.setCache, hup, hnew, Bool.false_eq_true, if_false]
      omega
  | @commit ids hk =>
    refine ⟨short_update h.short (by simp [Cache.dozing]),
      pages_update h.counted_pages (by simp [Cache.countedAt]), ?_⟩
    simp only [Pool.setCache, hup]
    simpa [Cache.blocked, Cache.dozing, hk] using hle
  | @unmap ids st hk hst =>
    refine ⟨by simp [Pool.broadcast], fun d g hd => ?_, tally_nonneg _ _⟩
    simp only [Pool.broadcast, Cache.wake_countedAt, Cache.wake_pages] at hd ⊢
    exact pages_update h.counted_pages (by simp [Cache.countedAt]) d g hd
  | @giveBack free hk hpages =>
    refine ⟨by simp [Pool.broadcast], fun d g hd => ?_, tally_nonneg _ _⟩
    simp only [Pool.broadcast, Cache.wake_countedAt, Cache.wake_pages] at hd ⊢
    exact pages_update h.counted_pages (by simp [Cache.countedAt]) d g hd

/-- The facts about the sleepers hold on every run from a new pool. -/
theorem Stalls.reachable {n : ℕ} {maxSeqLen : ι → ℤ} {s : Pool ι}
    (h : Reachable step (Pool.fresh n maxSeqLen) s) : Stalls s :=
  h.induct (Stalls.fresh n maxSeqLen) fun _ _ _ _ ih hs => ih.next hs

/-! ### The verdict -/

/-- A waiting reservation of the cache `c` asks for `need` pages in the step `a`: a call of
`vv_kv_cache_reserve_wait` on a cache without `no_wait`, or the next pass of one. -/
inductive WaitsFor (s : Pool ι) (c : ι) : ℕ → Act ι → Prop
  | call (nPositions : ℤ) (hwait : (s.cache c).noWait = false) :
      WaitsFor s c (pagesFor nPositions - (s.cache c).pages.length).toNat
        (.reserve c nPositions true)
  | woken : WaitsFor s c (s.cache c).need (.wakeUp c)

/-- The cache holds pages and only a release of another cache can end its wait: it is blocked in
`reserve_pages`, counted under the current generation, with no wake-up pending. -/
structure Stuck (s : Pool ι) (k : Cache) : Prop where
  counted : k.countedAt s.stallGen = true
  dozing : k.dozing = true
  short : s.nFree < k.need

omit [Fintype ι] in
/-- A pass gives the verdict only when it comes up short, and when it waits also hopeless. -/
lemma reservePass_exhausted {s s' : Pool ι} {c : ι} {need : ℕ} {wait counted : Bool} {g : UInt32}
    (h : reservePass s c need wait counted g = (some (.error .kvPoolExhausted), s')) :
    s.nFree < need ∧
      (wait = true → hopeless s (s.cache c) need (stillCounted s counted g) = true) := by
  simp only [reservePass] at h
  split_ifs at h with hshort hgive hcount
  · refine ⟨hshort, fun hwait => ?_⟩
    simpa [hwait] using hgive
  all_goals simp at h

omit [Fintype ι] in
/-- A waiting reservation that ends with the verdict came up short in a hopeless pass. -/
lemma WaitsFor.hopeless {s s' : Pool ι} {c : ι} {need : ℕ} {a : Act ι} (ha : WaitsFor s c need a)
    (hs : step s a = some (some (.error .kvPoolExhausted), s')) :
    s.nFree < need ∧ ∃ counted g, Waits (s.cache c) need true counted g ∧
      hopeless s (s.cache c) need (stillCounted s counted g) = true := by
  cases ha with
  | call nPositions hwait =>
    cases hp : (s.cache c).phase <;> simp only [step, hp, Option.some.injEq, reduceCtorEq] at hs
    simp only [reservePages, hwait, Bool.not_false, Bool.and_self] at hs
    split_ifs at hs with hlen hwant
    · simp at hs
    · simp at hs
    · obtain ⟨hshort, hhope⟩ := reservePass_exhausted hs
      exact ⟨hshort, false, 0, .call hp (by omega) fun _ => hwait, hhope rfl⟩
  | woken =>
    cases hp : (s.cache c).phase <;> simp only [step, hp, Option.some.injEq, reduceCtorEq] at hs
    rename_i need counted g w
    have hneed : (s.cache c).need = need := by simp [Cache.need, hp]
    obtain ⟨hshort, hhope⟩ := reservePass_exhausted hs
    rw [hneed]
    exact ⟨hshort, counted, g, .woken hp, hhope rfl⟩

omit [DecidableEq ι] in
/-- A pool without holders has all its pages free. -/
lemma Ledger.nFree_of_no_holders {n : ℕ} {s : Pool ι} (h : Ledger n s) (h₀ : s.nHolders = 0) :
    s.nFree = s.nPages := by
  have hempty : ∀ c, ((s.cache c).owned : Multiset ℕ) = 0 := by
    intro c
    by_contra hc
    have hholds : (s.cache c).holds = true := by
      simpa [Cache.holds] using hc
    have hpos := tally_pos (g := s.cache) hholds
    rw [← h.holders] at hpos
    omega
  have hcard := congrArg Multiset.card h.parts
  simp only [hempty, Finset.sum_const_zero, add_zero, Multiset.coe_card,
    Multiset.card_range] at hcard
  rw [Pool.nFree, hcard, h.total]

/-- When the other holders are outnumbered by the `n_stalled`, each of them is blocked. -/
lemma Stalls.blocked_of_running {n : ℕ} {s : Pool ι} {c : ι} {need : ℕ} {wait counted : Bool}
    {g : UInt32} (hled : Ledger n s) (h : Stalls s)
    (hk : Waits (s.cache c) need wait counted g) (hpages : (s.cache c).pages ≠ [])
    (hrun : running s (s.cache c) (stillCounted s counted g) ≤ 0) {d : ι} (hdc : d ≠ c)
    (hd : (s.cache d).owned ≠ []) : (s.cache d).blocked s.stallGen = true := by
  -- count everywhere but at `c`
  let others := Function.update s.cache c (Cache.mk 0 false [] .idle)
  have hholds : tally Cache.holds others = s.nHolders - 1 := by
    have hc : (s.cache c).holds = true := by simpa [Cache.holds, hk.owned] using hpages
    have hnew : Cache.holds (Cache.mk 0 false [] .idle) = false := rfl
    have hup : tally Cache.holds others = _ := tally_update Cache.holds s.cache c _
    rw [hc, hnew, ← hled.holders] at hup
    simpa using hup
  have hblocked : s.nStalled - (stillCounted s counted g).toInt
      ≤ tally (Cache.blocked s.stallGen) others := by
    have hle := h.le
    have hb := hk.blocked_le (s := s)
    have hnew : Cache.blocked s.stallGen (Cache.mk 0 false [] .idle) = false := rfl
    have hup : tally (Cache.blocked s.stallGen) others = _ := tally_update _ s.cache c _
    rw [hnew] at hup
    simp only [Bool.false_eq_true, if_false, add_zero] at hup
    omega
  have himp : ∀ e, Cache.blocked s.stallGen (others e) = true → (others e).holds = true := by
    intro e he
    have hcount : (others e).countedAt s.stallGen = true := (Bool.and_eq_true_iff.mp he).1
    have hne : (others e).pages ≠ [] :=
      pages_update h.counted_pages (by simp [Cache.countedAt]) e s.stallGen hcount
    cases hp : (others e).phase <;> simp_all [Cache.countedAt, Cache.holds, Cache.owned,
      Cache.livePages]
  have hfull : (s.cache c).pages.isEmpty = false := List.isEmpty_eq_false_iff.mpr hpages
  have hle : tally Cache.holds others ≤ tally (Cache.blocked s.stallGen) others := by
    simp only [running, hfull, Bool.not_false, Bool.toInt, cond_true] at hrun hblocked
    omega
  have hat := eq_of_tally_le himp hle d
  simp only [others, Function.update_of_ne hdc] at hat
  exact hat (by simpa [Cache.holds] using hd)

/-- **The verdict `VV_ERR_KV_POOL_EXHAUSTED` of a waiting reservation is sound on every run**:
the request exceeds the pool, or the cache holds pages and every other holder is stuck. -/
theorem exhausted_verdict_sound (n : ℕ) (maxSeqLen : ι → ℤ) (s s' : Pool ι) (c : ι) (need : ℕ)
    (a : Act ι) (hs : Reachable step (Pool.fresh n maxSeqLen) s) (ha : WaitsFor s c need a)
    (hstep : step s a = some (some (.error .kvPoolExhausted), s')) :
    s.nPages < need ∨
      ((s.cache c).pages ≠ [] ∧ ∀ d, d ≠ c → (s.cache d).owned ≠ [] → Stuck s (s.cache d)) := by
  have hled := Ledger.reachable hs
  have hst := Stalls.reachable hs
  obtain ⟨hshort, counted, g, hk, hhope⟩ := ha.hopeless hstep
  simp only [KvPool.hopeless, Bool.or_eq_true, Bool.and_eq_true, decide_eq_true_eq,
    Bool.not_eq_true', List.isEmpty_eq_false_iff, List.isEmpty_iff] at hhope
  rcases hhope with (hpool | ⟨hpages, hrun⟩) | ⟨_, hnone⟩
  · exact .inl hpool
  · refine .inr ⟨hpages, fun d hdc hd => ?_⟩
    have hblocked := hst.blocked_of_running hled hk hpages hrun hdc hd
    obtain ⟨hcount, hdoze⟩ := Bool.and_eq_true_iff.mp hblocked
    exact ⟨hcount, hdoze, hst.short d hdoze⟩
  · exact .inl (hled.nFree_of_no_holders hnone ▸ hshort)

/-- Two caches share two pages and both want a second one: the last to ask fails. -/
theorem exhausted_verdict_sound_two :
    ∃ s : Pool (Fin 2), (s.cache 0).phase = .asleep 1 true 0 false ∧
      (s.nPages < 1 ∨ ((s.cache 1).pages ≠ [] ∧
        ∀ d, d ≠ 1 → (s.cache d).owned ≠ [] → Stuck s (s.cache d))) :=
  ⟨_, rfl, exhausted_verdict_sound 2 (fun _ : Fin 2 => 128) _ _ 1 1 (.reserve 1 128 true)
    ⟨[.reserve 0 64 false, .mapDone 0 (.ok ()), .reserve 1 64 false, .mapDone 1 (.ok ()),
      .reserve 0 128 true], rfl⟩ (.call 128 rfl) rfl⟩

end VibeVoice.KvPool
