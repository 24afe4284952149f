import VibeVoice.Decoder.Placement
import VibeVoice.KvPool.Undo

/-!
The pool of a context and its clones (`vv_inference_init` and `vv_inference_clone` of
`pipeline.c`): how many pages it has, and the windows of the caches that share it.

Allocations succeed, and an `int` that overflows wraps.

* `initPaged`, `inferenceClone`: the caches that share a pool.
* `Slot.fits`: the pool has the pages of one window.
* `refused_short`: a refusal comes up short of pages that the window has.
* `lone_slot`: a cache that is the only holder is never refused.
-/

namespace VibeVoice.KvPool

open Machine Placement

/-! ### The size of the pool -/

/-- The loop that halves the window, with `pool_tokens` in place of the bytes of the store. -/
def shrinkPool (s : Setup) (maxSeq poolTokens : ℕ) : Strategy × ℕ × ℕ :=
  let p := decidePlacement s.available s.allLayers s.embed s.lmHead s.perLayer
    (poolTokens * s.kvPerToken) s.wsTarget
  if _hstop : p = .allGpu ∨ maxSeq ≤ kvFloor then (p, maxSeq, poolTokens)
  else shrinkPool s (halved maxSeq) (halved maxSeq)
termination_by maxSeq
decreasing_by exact halved_lt (not_le.mp fun h => _hstop (.inr h))

/-- The pages of a pool of some tokens. -/
def poolPages (poolTokens : ℕ) : ℤ := (toInt (poolTokens + (kvPageSize - 1))).tdiv kvPageSize

/-- `vv_kv_pool_create`: the number of pages. -/
def kvPoolCreate (numLayers count : ℕ) (nPages : ℤ) : Except Status ℕ :=
  if count = 0 ∨ numLayers < count ∨ nPages ≤ 0 then .error .invalidArg else .ok nPages.toNat

/-- What a context has of its paged cache: its placement, the pages of its pool and its window. -/
structure Slot where
  placement : Strategy
  nPages : ℕ
  maxSeqLen : ℕ
  deriving DecidableEq, Repr

/-- `vv_kv_cache_create_paged`. -/
def kvCacheCreatePaged (placement : Strategy) (nPages maxSeqLen : ℕ) : Except Status Slot :=
  if maxSeqLen = 0 then .error .invalidArg else .ok ⟨placement, nPages, maxSeqLen⟩

/-- The paged cache of `vv_inference_init`, where the GPU is used and the cache is paged. -/
def initPaged (s : Setup) : Option (Except Status Slot) :=
  s.trimmed >>= fun maxSeq => s.poolTokens maxSeq >>= fun poolTokens =>
    let r := shrinkPool s maxSeq poolTokens
    if r.1 = .cpuOnly ∨ ¬s.paged then none
    else some (kvPoolCreate s.layers s.primaryLayers (poolPages r.2.2) >>= fun nPages =>
      kvCacheCreatePaged r.1 nPages r.2.1)

/-- `vv_inference_clone`, of a context with a pool. -/
def inferenceClone (parent : Slot) : Except Status Slot :=
  if parent.placement ≠ .allGpu then .error .unsupported
  else kvCacheCreatePaged parent.placement parent.nPages parent.maxSeqLen

/-- The contexts that share the pool of a setup. -/
inductive Slot.Of (s : Setup) : Slot → Prop
  | init {slot} (h : initPaged s = some (.ok slot)) : Slot.Of s slot
  | clone {parent slot} (hparent : Slot.Of s parent) (h : inferenceClone parent = .ok slot) :
      Slot.Of s slot

/-- The pool has the pages of a window. -/
structure Slot.Fits (slot : Slot) : Prop where
  window_pos : 0 < slot.maxSeqLen
  pages : pagesFor slot.maxSeqLen ≤ slot.nPages

section Sizing

variable {s : Setup}

/-- What is asked for is an `int`, and trimming it leaves some. -/
lemma trimmed_spec (hint : s.maxSeqLen < 2 ^ 31) {maxSeq : ℕ} (h : s.trimmed = some maxSeq) :
    0 < maxSeq ∧ maxSeq < 2 ^ 31 := by
  obtain ⟨asked, hasked⟩ : ∃ n, (if 0 < s.maxSeqLen then s.maxSeqLen.toNat else 32768) = n :=
    ⟨_, rfl⟩
  have hbound : 0 < asked ∧ asked < 2 ^ 31 := by
    rw [← hasked]
    split_ifs <;> omega
  simp only [Setup.trimmed, hasked] at h
  split_ifs at h with hroom
  · obtain ⟨kvRoom, -, hfit⟩ := Option.map_eq_some_iff.mp h
    split_ifs at hfit with hless <;> omega
  · exact Option.some.inj h ▸ hbound

lemma toInt_lt (x : ℕ) : toInt x < 2 ^ 31 := Int.bmod_lt (by norm_num)

lemma poolTokens_lt {maxSeq poolTokens : ℕ} (hlt : maxSeq < 2 ^ 31)
    (h : s.poolTokens maxSeq = some poolTokens) : poolTokens < 2 ^ 31 := by
  rw [Setup.poolTokens] at h
  split_ifs at h with hpaged
  · obtain ⟨room, -, rfl⟩ := Option.map_eq_some_iff.mp h
    dsimp only
    have htokens := toInt_lt
    split_ifs
    · exact hlt
    · have hint := htokens (max room maxSeq / 64 * 64)
      omega
    · exact hlt
    · have hint := htokens (maxSeq * s.slots / 64 * 64)
      omega
  · exact Option.some.inj h ▸ hlt

/-- The loop keeps the pool at least as long as the window. -/
lemma shrinkPool_spec {maxSeq poolTokens : ℕ} (hpos : 0 < maxSeq) (hle : maxSeq ≤ poolTokens) :
    0 < (shrinkPool s maxSeq poolTokens).2.1 ∧
      (shrinkPool s maxSeq poolTokens).2.1 ≤ (shrinkPool s maxSeq poolTokens).2.2 ∧
      (shrinkPool s maxSeq poolTokens).2.2 ≤ poolTokens := by
  fun_induction shrinkPool s maxSeq poolTokens with
  | case1 maxSeq poolTokens p hstop => exact ⟨hpos, hle, le_rfl⟩
  | case2 maxSeq poolTokens p hstop ih =>
    have hlt := halved_lt (not_le.mp fun h => hstop (.inr h))
    have hhalved : 0 < halved maxSeq := by
      rw [halved, kvFloor]
      split_ifs <;> omega
    obtain ⟨hw, hwt, ht⟩ := ih hhalved le_rfl
    exact ⟨hw, hwt, by omega⟩

lemma toInt_of_lt {x : ℕ} (h : x < 2 ^ 31) : toInt x = x := by
  unfold toInt
  rw [Int.bmod_def]
  omega

lemma toInt_neg {x : ℕ} (h : 2 ^ 31 ≤ x) (h' : x < 2 ^ 32) : toInt x < 0 := by
  unfold toInt
  rw [Int.bmod_def]
  omega

/-- Pages are those of all tokens; where the sum wraps, there are none. -/
lemma poolPages_spec {poolTokens : ℕ} (hlt : poolTokens < 2 ^ 31) (h : 0 < poolPages poolTokens) :
    poolPages poolTokens = pagesFor poolTokens := by
  change 0 < (toInt (poolTokens + 63)).tdiv 64 at h
  rcases Nat.lt_or_ge (poolTokens + 63) (2 ^ 31) with hsmall | hbig
  · have hsame : toInt (poolTokens + 63) = (poolTokens + 63 : ℕ) := toInt_of_lt hsmall
    show (toInt (poolTokens + 63)).tdiv 64 = _
    rw [hsame]
    rfl
  · have hneg : toInt (poolTokens + 63) < 0 := toInt_neg hbig (by omega)
    have hnone : 0 ≤ (-toInt (poolTokens + 63)).tdiv 64 := Int.tdiv_nonneg (by omega) (by norm_num)
    rw [Int.neg_tdiv] at hnone
    omega

lemma initPaged_fits (hint : s.maxSeqLen < 2 ^ 31) {slot : Slot}
    (h : initPaged s = some (.ok slot)) : slot.Fits := by
  obtain ⟨maxSeq, htrim, h⟩ := Option.bind_eq_some_iff.mp h
  obtain ⟨poolTokens, htokens, h⟩ := Option.bind_eq_some_iff.mp h
  obtain ⟨hpos, hlt⟩ := trimmed_spec hint htrim
  obtain ⟨hwindow, hle, htop⟩ := shrinkPool_spec (s := s) hpos (poolTokens_ge htokens)
  have hlt' := poolTokens_lt hlt htokens
  dsimp only at h
  generalize shrinkPool s maxSeq poolTokens = r at h hwindow hle htop
  split_ifs at h with hcpu
  rw [kvPoolCreate] at h
  split_ifs at h with hrefused
  · cases h
  · change some (if r.2.1 = 0 then _ else _) = _ at h
    rw [if_neg hwindow.ne'] at h
    have hpos' : 0 < poolPages r.2.2 := not_le.mp fun h => hrefused (.inr (.inr h))
    have hpages := poolPages_spec (htop.trans_lt hlt') hpos'
    have hmono : pagesFor r.2.1 ≤ pagesFor r.2.2 := pagesFor_mono (by omega)
    rw [← hpages, ← Int.toNat_of_nonneg hpos'.le] at hmono
    injection h with h
    injection h with h
    rw [← h]
    refine ⟨hwindow, ?_⟩
    dsimp only
    exact hmono

lemma initPaged_eq {maxSeq poolTokens nPages : ℕ} {r : Strategy × ℕ × ℕ}
    (htrim : s.trimmed = some maxSeq) (htokens : s.poolTokens maxSeq = some poolTokens)
    (hshrink : shrinkPool s maxSeq poolTokens = r) (hgpu : r.1 ≠ .cpuOnly) (hpaged : s.paged)
    (hpages : kvPoolCreate s.layers s.primaryLayers (poolPages r.2.2) = .ok nPages)
    (hwindow : r.2.1 ≠ 0) : initPaged s = some (.ok ⟨r.1, nPages, r.2.1⟩) := by
  have hgoes : ¬(r.1 = .cpuOnly ∨ ¬s.paged) := not_or.mpr ⟨hgpu, not_not.mpr hpaged⟩
  simp only [initPaged, htrim, htokens, hshrink, hpages, Option.bind_eq_bind, Option.bind_some,
    if_neg hgoes]
  exact congrArg some (if_neg hwindow)

/-- A clone shares the pool and the window of its parent. -/
lemma inferenceClone_spec {parent slot : Slot} (h : inferenceClone parent = .ok slot) :
    slot = parent := by
  rw [inferenceClone, kvCacheCreatePaged] at h
  split_ifs at h
  exact (Except.ok.inj h).symm

/-- All contexts of a setup have one pool and one window. -/
lemma Slot.Of.eq {slot : Slot} (h : Slot.Of s slot) : initPaged s = some (.ok slot) := by
  induction h with
  | init h => exact h
  | clone _ h ih => rwa [inferenceClone_spec h]

end Sizing

/-! ### Refusals -/

section Refusals

variable {ι : Type} [DecidableEq ι] {maxSeqLen : ι → ℤ} {s s' : Pool ι}

omit [DecidableEq ι] in
lemma need_le (h : Bounded maxSeqLen s) {c : ι} {nPositions : ℤ}
    (hlen : ¬(s.cache c).maxSeqLen < nPositions)
    (hwant : ¬pagesFor nPositions ≤ (s.cache c).pages.length) :
    ((s.cache c).pages.length : ℤ) + (pagesFor nPositions - (s.cache c).pages.length).toNat ≤
      pagesFor (maxSeqLen c) := by
  have hmono := pagesFor_mono (not_lt.mp hlen)
  rw [(h c).1] at hmono
  omega

lemma release_ne_refused (c : ι) (free : Bool) :
    (kvCacheRelease s c free).1 ≠ some (.error .kvPoolExhausted) := by
  rw [kvCacheRelease]
  by_cases hempty : (s.cache c).pages.isEmpty
  · rw [if_pos hempty]
    simp
  · rw [if_neg hempty]
    simp

/-- A refusal comes up short of pages that the window has. -/
lemma refused_short (h : Bounded maxSeqLen s) {a : Act ι}
    (hs : step s a = some (some (.error .kvPoolExhausted), s')) :
    ∃ need : ℕ, s.nFree < need ∧ (s.cache a.cacheOf).owned = (s.cache a.cacheOf).pages ∧
      ((s.cache a.cacheOf).pages.length : ℤ) + need ≤ pagesFor (maxSeqLen a.cacheOf) := by
  cases a with
  | reserve c nPositions wait =>
    cases hp : (s.cache c).phase <;> simp only [step, hp, Option.some.injEq, reduceCtorEq] at hs
    simp only [reservePages] at hs
    split_ifs at hs with hlen hwant
    · cases hs
    · cases hs
    · exact ⟨_, (reservePass_exhausted hs).1, Cache.owned_of_idle hp, need_le h hlen hwant⟩
  | wakeUp c =>
    cases hp : (s.cache c).phase <;> simp only [step, hp, Option.some.injEq, reduceCtorEq] at hs
    refine ⟨_, (reservePass_exhausted hs).1, ?_, le_trans ?_ (h c).2⟩
    · simp [Act.cacheOf, Cache.owned, Cache.livePages, Cache.popped, hp]
    · simp [Act.cacheOf, Cache.claims, Cache.popped, Cache.need, hp]
  | mapDone c r =>
    cases hp : (s.cache c).phase <;> simp only [step, hp, Option.some.injEq, reduceCtorEq] at hs
    cases r with
    | ok u => cases hs
    | error st => exact absurd (Except.error.inj (Option.some.inj (Prod.mk.inj hs).1)) st.2
  | release c =>
    cases hp : (s.cache c).phase <;> simp only [step, hp, Option.some.injEq, reduceCtorEq] at hs
    exact absurd (congrArg Prod.fst hs) (release_ne_refused c false)
  | reset c =>
    cases hp : (s.cache c).phase <;> simp only [step, hp, Option.some.injEq, reduceCtorEq] at hs
    exact absurd (congrArg Prod.fst hs) (release_ne_refused c false)
  | free c =>
    cases hp : (s.cache c).phase <;> simp only [step, hp, Option.some.injEq, reduceCtorEq] at hs
    exact absurd (congrArg Prod.fst hs) (release_ne_refused c true)
  | finishRelease c =>
    cases hp : (s.cache c).phase <;>
      simp only [step, hp, Option.some.injEq, Prod.mk.injEq, reduceCtorEq] at hs
    cases hs.1
  | setNoWait c noWait =>
    cases hp : (s.cache c).phase <;>
      simp only [step, hp, Option.some.injEq, Prod.mk.injEq, reduceCtorEq] at hs
    cases hs.1

omit [DecidableEq ι] in
/-- The pages are the free ones and those of one cache, where no other holds any. -/
lemma Ledger.nFree_add_owned [Fintype ι] {n : ℕ} {s : Pool ι} (h : Ledger n s) {c : ι}
    (hothers : ∀ d, d ≠ c → (s.cache d).owned = []) :
    s.nFree + (s.cache c).owned.length = n := by
  have hsum : ∑ d, ((s.cache d).owned : Multiset ℕ) = (s.cache c).owned := by
    refine Finset.sum_eq_single c (fun d _ hd => ?_) fun hc => absurd (Finset.mem_univ c) hc
    rw [hothers d hd]
    rfl
  have hcard := congrArg Multiset.card h.parts
  rwa [hsum, Multiset.card_add, Multiset.card_range] at hcard

end Refusals

/-- **A lone slot** can use all of its window.  The pool of a context has the pages of the window
that the context and each of its clones have, and a reservation is refused for want of pages only
where another of them holds some. -/
theorem lone_slot (s : Setup) (hint : s.maxSeqLen < 2 ^ 31) (slot : Slot)
    (hslot : initPaged s = some (.ok slot)) :
    pagesFor slot.maxSeqLen ≤ slot.nPages ∧
      ∀ (ι : Type) [Fintype ι] [DecidableEq ι] (slots : ι → Slot), (∀ c, (slots c).Of s) →
        (∀ c, (slots c).nPages = slot.nPages ∧ pagesFor (slots c).maxSeqLen ≤ slot.nPages) ∧
        ∀ pool, Reachable step (Pool.fresh slot.nPages fun c => (slots c).maxSeqLen) pool →
          ∀ a pool', step pool a = some (some (.error .kvPoolExhausted), pool') →
            ∃ d, d ≠ a.cacheOf ∧ (pool.cache d).owned ≠ [] := by
  have hfits := initPaged_fits hint hslot
  refine ⟨hfits.pages, fun ι _ _ slots hof => ?_⟩
  have hsame : ∀ c, slots c = slot := fun c =>
    Except.ok.inj (Option.some.inj ((hof c).eq.symm.trans hslot))
  refine ⟨fun c => by rw [hsame c]; exact ⟨rfl, hfits.pages⟩, fun pool hreach a pool' hs => ?_⟩
  by_contra hlone
  have hothers : ∀ d, d ≠ a.cacheOf → (pool.cache d).owned = [] := fun d hd =>
    not_not.mp fun hne => hlone ⟨d, hd, hne⟩
  have hwindow : ∀ c, 0 < ((slots c).maxSeqLen : ℤ) := fun c => by
    rw [hsame c]
    exact_mod_cast hfits.window_pos
  have hbounded := Bounded.reachable hwindow hreach
  obtain ⟨need, hshort, howned, hneed⟩ := refused_short hbounded hs
  have hsum := (Ledger.reachable hreach).nFree_add_owned hothers
  have hpages := hfits.pages
  rw [hsame] at hneed
  rw [howned] at hsum
  omega

/-- Two slots of 100 positions on a device with room for both. -/
def twoSlots : Setup where
  layers := 28
  layers_lt := by norm_num
  perLayer := 200000000
  embed := 0
  lmHead := 0
  frontend := 0
  encoderHost := 0
  kv := { kvHeads := 4, headDim := 128, bytesPerVec := 256, hasMeta := false, isRaw := true }
  streamingFamily := false
  maxSeqLen := 100
  nSlots := 2
  wantsPages := true
  sharesMemory := false
  primary := { free := 24000000000, total := 24000000000, cap := 0, reserved := 0 }
  others := []
  share _ _ _ := 0

lemma twoSlots_paged : initPaged twoSlots = some (.ok ⟨.allGpu, 3, 100⟩) := by
  have hall : decidePlacement twoSlots.available twoSlots.allLayers twoSlots.embed twoSlots.lmHead
      twoSlots.perLayer (192 * twoSlots.kvPerToken) twoSlots.wsTarget = .allGpu := by decide +kernel
  have hshrink : shrinkPool twoSlots 100 192 = (.allGpu, 100, 192) := by
    rw [shrinkPool]
    exact (dif_pos (.inl hall)).trans (by rw [hall])
  exact initPaged_eq (by decide +kernel) (by decide +kernel) hshrink (by decide) rfl
    (by decide +kernel) (by decide)

/-- One slot holds two of three pages, and its clone is refused two. -/
theorem lone_slot_two :
    pagesFor 100 ≤ 3 ∧ ∃ pool : Pool (Fin 2),
      (step pool (.reserve 1 100 false)).map Prod.fst = some (some (.error .kvPoolExhausted)) ∧
        ∃ d, d ≠ (1 : Fin 2) ∧ (pool.cache d).owned ≠ [] := by
  have hslot := twoSlots_paged
  have hclone : Slot.Of twoSlots ⟨.allGpu, 3, 100⟩ := .clone (.init hslot) rfl
  obtain ⟨hpages, hall⟩ := lone_slot twoSlots (by decide) _ hslot
  have hrefused := (hall (Fin 2) (fun _ => ⟨.allGpu, 3, 100⟩) fun _ => hclone).2 _
    ⟨[.reserve 0 100 false, .mapDone 0 (.ok ())], rfl⟩ (.reserve 1 100 false) _ rfl
  refine ⟨hpages, _, ?_, hrefused⟩
  rfl

end VibeVoice.KvPool
