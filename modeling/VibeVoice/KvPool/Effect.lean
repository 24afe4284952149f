import VibeVoice.KvPool.Pool

/-!
What one step of the pool can do, said once: every invariant of the pool is proved from
`step_effect` and never unfolds the locked sections again.

* `Waits`: the four ways a thread can be in a pass of `reserve_pages`.
* `Effect`: the transitions, each with the guard under which the source takes it.
* `step_effect`: a step of the cache `c` is one of them; pages come back exactly in the steps
  that `Act.returns` tells.
-/

namespace VibeVoice.KvPool

variable {ι : Type} [DecidableEq ι]

/-- A thread enters a pass of `reserve_pages` with these locals: from its call, where nothing is
counted yet, or out of `vv_cond_wait`. -/
inductive Waits (k : Cache) : ℕ → Bool → Bool → UInt32 → Prop
  | call {need wait} (hidle : k.phase = .idle) (hneed : 0 < need)
      (hwait : wait = true → k.noWait = false) : Waits k need wait false 0
  | woken {need counted myGen w} (hasleep : k.phase = .asleep need counted myGen w) :
      Waits k need true counted myGen

lemma Waits.need_pos {k : Cache} {need : ℕ} {wait counted : Bool} {g : UInt32}
    (h : Waits k need wait counted g) (hk : k.WellFormed) : 0 < need := by
  cases h with
  | call hidle hneed hwait => exact hneed
  | woken hasleep => simpa [Cache.WellFormed, hasleep] using hk

/-- Outside `vv_kv_page_map_dev` and `vv_kv_cache_release` a cache owns its pages. -/
lemma Waits.owned {k : Cache} {need : ℕ} {wait counted : Bool} {g : UInt32}
    (h : Waits k need wait counted g) : k.owned = k.pages := by
  cases h with
  | call hidle hneed hwait => exact Cache.owned_of_idle hidle
  | woken hasleep => simp [Cache.owned, Cache.livePages, Cache.popped, hasleep]

/-- The effects of a step of the cache `c`; the Boolean tells whether pages come back. -/
inductive Effect (s : Pool ι) (c : ι) : Bool → Outcome → Pool ι → Prop
  /-- A call that asks nothing of the pool. -/
  | skip {o : Outcome} (ho : o ≠ some (.error .kvPoolExhausted)) : Effect s c false o s
  /-- A thread outside a reservation writes its own cache, which owns the same pages as before. -/
  | own {o : Outcome} {k : Cache} (hout : (s.cache c).phase = .idle ∨
        ∃ free, (s.cache c).phase = .releasing free)
      (hsame : k.owned = (s.cache c).owned) (hawake : k.sleeps = false) (hwf : k.WellFormed)
      (ho : o ≠ some (.error .kvPoolExhausted)) : Effect s c false o (s.setCache c k)
  /-- The verdict. -/
  | refuse {need wait counted myGen} (hk : Waits (s.cache c) need wait counted myGen)
      (hshort : s.nFree < need)
      (hwhy : wait = true → hopeless s (s.cache c) need (stillCounted s counted myGen) = true) :
      Effect s c false (some (.error .kvPoolExhausted))
        ({ s with nStalled := s.nStalled - (stillCounted s counted myGen).toInt }.setCache c
          { s.cache c with phase := .idle })
  /-- A holder that is not counted yet counts itself and sleeps. -/
  | stall {need counted myGen} (hk : Waits (s.cache c) need true counted myGen)
      (hshort : s.nFree < need) (hholds : (s.cache c).pages ≠ [])
      (hnot : stillCounted s counted myGen = false)
      (hrun : s.nStalled < s.nHolders - 1) :
      Effect s c false none
        ({ s with nStalled := s.nStalled + 1 }.setCache c
          { s.cache c with phase := .asleep need true s.stallGen false })
  /-- A thread that holds nothing, or is counted already, sleeps. -/
  | doze {need counted myGen} (hk : Waits (s.cache c) need true counted myGen)
      (hshort : s.nFree < need)
      (hcount : (s.cache c).pages = [] ∨ stillCounted s counted myGen = true) :
      Effect s c false none
        (s.setCache c { s.cache c with
          phase := .asleep need (stillCounted s counted myGen) myGen false })
  /-- The pages are popped. -/
  | grant {need wait counted myGen} (hk : Waits (s.cache c) need wait counted myGen)
      (henough : need ≤ s.nFree) :
      Effect s c false none
        ({ s with
          nStalled := s.nStalled - (stillCounted s counted myGen).toInt
          nHolders := s.nHolders + (s.cache c).pages.isEmpty.toInt
          freeStack := s.freeStack.drop need }.setCache c
          { s.cache c with phase := .mapping (s.freeStack.take need) })
  /-- The mapping succeeded and the pages are the cache's. -/
  | commit {ids} (hk : (s.cache c).phase = .mapping ids) :
      Effect s c false (some (.ok ()))
        (s.setCache c { s.cache c with pages := (s.cache c).pages ++ ids, phase := .idle })
  /-- The mapping failed and the pages went back. -/
  | unmap {ids} {st : Status} (hk : (s.cache c).phase = .mapping ids)
      (hst : st ≠ .kvPoolExhausted) :
      Effect s c true (some (.error st))
        (({ s with
          freeStack := ids ++ s.freeStack
          nHolders := s.nHolders - (s.cache c).pages.isEmpty.toInt
          nStalled := 0
          stallGen := s.stallGen + 1 }.setCache c { s.cache c with phase := .idle }).broadcast)
  /-- The pages of a cache were released. -/
  | giveBack {free : Bool} (hk : (s.cache c).phase = .idle) (hpages : (s.cache c).pages ≠ []) :
      Effect s c true none
        (({ s with
          freeStack := (s.cache c).pages ++ s.freeStack
          nHolders := s.nHolders - 1
          nStalled := 0
          stallGen := s.stallGen + 1 }.setCache c
            { s.cache c with phase := .releasing free }).broadcast)

/-- The cache whose thread acts. -/
def Act.cacheOf : Act ι → ι
  | .reserve c _ _ | .wakeUp c | .mapDone c _ | .release c | .reset c | .free c
  | .finishRelease c | .setNoWait c _ => c

/-- The action returns pages to the pool: the release of a cache that has some, or a mapping
that failed. -/
def Act.returns (s : Pool ι) : Act ι → Bool
  | .release c | .reset c | .free c => !(s.cache c).pages.isEmpty
  | .mapDone _ (.error _) => true
  | _ => false

/-- A pass under the lock refuses, sleeps or pops. -/
lemma reservePass_effect {s : Pool ι} {c : ι} {need : ℕ} {wait counted : Bool} {myGen : UInt32}
    (hk : Waits (s.cache c) need wait counted myGen) :
    Effect s c false (reservePass s c need wait counted myGen).1
      (reservePass s c need wait counted myGen).2 := by
  by_cases hshort : s.nFree < need
  · simp only [reservePass, if_pos hshort]
    by_cases hgive : (!wait || hopeless s (s.cache c) need (stillCounted s counted myGen)) = true
    · rw [if_pos hgive]
      refine .refuse hk hshort fun hwait => ?_
      simpa [hwait] using hgive
    · rw [if_neg hgive]
      simp only [Bool.or_eq_true, Bool.not_eq_true', not_or, Bool.not_eq_false,
        Bool.not_eq_true] at hgive
      obtain ⟨rfl, hhope⟩ := hgive
      by_cases hnew : (!(s.cache c).pages.isEmpty && !stillCounted s counted myGen) = true
      · rw [if_pos hnew]
        simp only [Bool.and_eq_true, Bool.not_eq_true', List.isEmpty_eq_false_iff] at hnew
        refine .stall hk hshort hnew.1 hnew.2 ?_
        have hfull : (s.cache c).pages.isEmpty = false := List.isEmpty_eq_false_iff.mpr hnew.1
        simp only [hopeless, running, hnew.2, hfull, Bool.toInt] at hhope
        simp at hhope
        omega
      · rw [if_neg hnew]
        refine .doze hk hshort ?_
        by_cases hp : (s.cache c).pages = []
        · exact .inl hp
        · simpa [hp] using hnew
  · simp only [reservePass, if_neg hshort]
    exact .grant hk (by omega)

/-- A release gives the pages back, or has none to give. -/
lemma kvCacheRelease_effect {s s' : Pool ι} {c : ι} {free : Bool} {o : Outcome}
    (hp : (s.cache c).phase = .idle) (h : kvCacheRelease s c free = (o, s')) :
    Effect s c (!(s.cache c).pages.isEmpty) o s' := by
  by_cases hempty : (s.cache c).pages = []
  · simp only [kvCacheRelease, hempty, List.isEmpty_nil, if_true, Prod.mk.injEq] at h
    obtain ⟨rfl, rfl⟩ := h
    rw [hempty]
    refine .own (.inl hp) ?_ ?_ ?_ (by simp) <;> cases free <;>
      simp [Cache.owned, Cache.livePages, Cache.popped, Cache.sleeps, Cache.WellFormed,
        hp, hempty]
  · have hfull : (s.cache c).pages.isEmpty = false := List.isEmpty_eq_false_iff.mpr hempty
    simp only [kvCacheRelease, hfull, Bool.false_eq_true, if_false, Prod.mk.injEq] at h
    obtain ⟨rfl, rfl⟩ := h
    rw [hfull]
    exact .giveBack hp hempty

/-- A reservation refuses or grants at once, or makes its first pass. -/
lemma reservePages_effect {s s' : Pool ι} {c : ι} {nPositions : ℤ} {wait : Bool} {o : Outcome}
    (hp : (s.cache c).phase = .idle) (h : reservePages s c nPositions wait = (o, s')) :
    Effect s c false o s' := by
  simp only [reservePages] at h
  split_ifs at h with hlen hwant
  · cases h; exact .skip (by simp)
  · cases h; exact .skip (by simp)
  · obtain ⟨rfl, rfl⟩ := Prod.mk.inj h
    refine reservePass_effect (.call hp (by omega) fun hw => ?_)
    simpa using (Bool.and_eq_true_iff.mp hw).2

/-- **Every step is one of the effects**, on the cache whose thread acts. -/
theorem step_effect {s s' : Pool ι} {a : Act ι} {o : Outcome} (h : step s a = some (o, s')) :
    Effect s a.cacheOf (a.returns s) o s' := by
  cases a with
  | reserve c nPositions wait =>
    cases hp : (s.cache c).phase <;> simp only [step, hp, Option.some.injEq, reduceCtorEq] at h
    exact reservePages_effect hp h
  | wakeUp c =>
    cases hp : (s.cache c).phase <;> simp only [step, hp, Option.some.injEq, reduceCtorEq] at h
    obtain ⟨rfl, rfl⟩ := Prod.mk.inj h
    exact reservePass_effect (.woken hp)
  | mapDone c r =>
    cases hp : (s.cache c).phase <;> simp only [step, hp, Option.some.injEq, reduceCtorEq] at h
    cases r with
    | ok u => cases h; exact .commit hp
    | error st => cases h; exact .unmap hp st.2
  | release c =>
    cases hp : (s.cache c).phase <;> simp only [step, hp, Option.some.injEq, reduceCtorEq] at h
    exact kvCacheRelease_effect hp h
  | reset c =>
    cases hp : (s.cache c).phase <;> simp only [step, hp, Option.some.injEq, reduceCtorEq] at h
    exact kvCacheRelease_effect hp h
  | free c =>
    cases hp : (s.cache c).phase <;> simp only [step, hp, Option.some.injEq, reduceCtorEq] at h
    exact kvCacheRelease_effect hp h
  | finishRelease c =>
    cases hp : (s.cache c).phase <;>
      simp only [step, hp, Option.some.injEq, Prod.mk.injEq, reduceCtorEq] at h
    obtain ⟨rfl, rfl⟩ := h
    rename_i free
    refine .own (.inr ⟨free, hp⟩) ?_ ?_ ?_ (by simp) <;> cases free <;>
      simp [Act.cacheOf, Cache.owned, Cache.livePages, Cache.popped, Cache.sleeps,
        Cache.WellFormed, hp]
  | setNoWait c noWait =>
    cases hp : (s.cache c).phase <;>
      simp only [step, hp, Option.some.injEq, Prod.mk.injEq, reduceCtorEq] at h
    obtain ⟨rfl, rfl⟩ := h
    refine .own (.inl hp) ?_ ?_ ?_ (by simp) <;>
      simp [Act.cacheOf, Cache.owned, Cache.livePages, Cache.popped, Cache.sleeps,
        Cache.WellFormed, hp]

end VibeVoice.KvPool
