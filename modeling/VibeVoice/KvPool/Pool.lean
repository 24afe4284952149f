import Mathlib.Tactic
import VibeVoice.Status
import VibeVoice.Lib.Machine

/-!
The paged KV cache of `kv_cache.c`: a pool of pages shared by several caches, each driven by
one thread at a time.

The threads meet in the sections they run under `pool->lock`, so a step of the machine is one
such section, or one of the writes a thread makes to its own cache between two of them:

* `reserve`: `reserve_pages` from its call to the first time it gives up the lock, which is a
  refusal, `vv_cond_wait`, or the pop of its pages;
* `wakeUp`: one more pass of the `while (p->n_free < need)` loop after a wake-up, spurious or not;
* `mapDone`: `vv_kv_page_map_dev` came back, with the commit `n_pages = want` or the section
  that pushes the popped pages back;
* `release`, `reset`, `free`: the section of `vv_kv_cache_release` each of them runs;
* `finishRelease`: the write `n_pages = 0`, which follows the unlock.

The pages of a cache are the list `pages[0..n_pages)`, the free stack is a list with its top
first, and `woken` records that a broadcast has reached a sleeper that has not run since.
-/

namespace VibeVoice.KvPool

/-- `VV_KV_PAGE_SIZE`. -/
def kvPageSize : ℕ := 64

/-- Where the thread that drives a cache stands. -/
inductive Phase
  /-- Outside the pool. -/
  | idle
  /-- In `vv_cond_wait`, with the locals `need`, `counted` and `my_gen` of `reserve_pages`. -/
  | asleep (need : ℕ) (counted : Bool) (myGen : UInt32) (woken : Bool)
  /-- In `vv_kv_page_map_dev`, with the ids just popped. -/
  | mapping (popped : List ℕ)
  /-- In `vv_kv_cache_release` past the unlock, called by `vv_kv_cache_free` or not. -/
  | releasing (free : Bool)
  /-- After `vv_kv_cache_free`. -/
  | freed
  deriving DecidableEq, Repr

/-- What the pool code reads of a `vv_kv_cache_t`, and where its thread stands. -/
structure Cache where
  maxSeqLen : ℤ
  noWait : Bool
  pages : List ℕ
  phase : Phase
  deriving DecidableEq, Repr

/-- The bookkeeping of a `vv_kv_pool_t` and its caches. -/
@[ext]
structure Pool (ι : Type) where
  nPages : ℕ
  freeStack : List ℕ
  nHolders : ℤ
  nStalled : ℤ
  stallGen : UInt32
  cache : ι → Cache

namespace Cache

/-- The ids a reservation has popped and is mapping. -/
def popped (k : Cache) : List ℕ :=
  match k.phase with
  | .mapping ids => ids
  | _ => []

/-- `pages[0..n_pages)`, of which a cache past the unlock of its release owns none. -/
def livePages (k : Cache) : List ℕ :=
  match k.phase with
  | .releasing _ => []
  | _ => k.pages

/-- Every id a cache has taken from the pool. -/
def owned (k : Cache) : List ℕ := k.livePages ++ k.popped

/-- The cache owns at least one page, a reservation in flight included. -/
def holds (k : Cache) : Bool := !k.owned.isEmpty

/-- A broadcast reaches the cache. -/
def wake (k : Cache) : Cache :=
  match k.phase with
  | .asleep need counted myGen _ => { k with phase := .asleep need counted myGen true }
  | _ => k

/-- A reservation under way asks for at least one page. -/
def WellFormed (k : Cache) : Prop :=
  match k.phase with
  | .asleep need _ _ _ => 0 < need
  | .mapping ids => ids ≠ []
  | _ => True

/-- The thread of the cache is in `vv_cond_wait`. -/
def sleeps (k : Cache) : Bool :=
  match k.phase with
  | .asleep _ _ _ _ => true
  | _ => false

/-- The cache sleeps and was counted in `n_stalled` under generation `g`. -/
def countedAt (g : UInt32) (k : Cache) : Bool :=
  match k.phase with
  | .asleep _ counted myGen _ => counted && myGen == g
  | _ => false

/-- The cache sleeps and no wake-up is pending. -/
def dozing (k : Cache) : Bool :=
  match k.phase with
  | .asleep _ _ _ woken => !woken
  | _ => false

/-- The pages a sleeping cache waits for, `0` for any other. -/
def need (k : Cache) : ℕ :=
  match k.phase with
  | .asleep need _ _ _ => need
  | _ => 0

/-- The physical row of position `t`, by the host's mirror of the page table. -/
def row (k : Cache) (t : ℕ) : Option ℕ :=
  (k.livePages[t / kvPageSize]?).map fun id => id * kvPageSize + t % kvPageSize

section Phases

variable (m : ℤ) (b : Bool) (ids : List ℕ)

@[simp] lemma owned_idle : (Cache.mk m b ids .idle).owned = ids := List.append_nil ids

@[simp] lemma owned_asleep (need : ℕ) (counted : Bool) (g : UInt32) (w : Bool) :
    (Cache.mk m b ids (.asleep need counted g w)).owned = ids := List.append_nil ids

@[simp] lemma owned_mapping (popped : List ℕ) :
    (Cache.mk m b ids (.mapping popped)).owned = ids ++ popped := rfl

@[simp] lemma owned_releasing (free : Bool) :
    (Cache.mk m b ids (.releasing free)).owned = [] := rfl

lemma owned_of_mapping {k : Cache} {popped : List ℕ} (h : k.phase = .mapping popped) :
    k.owned = k.pages ++ popped := by
  simp [owned, livePages, Cache.popped, h]

lemma owned_of_idle {k : Cache} (h : k.phase = .idle) : k.owned = k.pages := by
  simp [owned, livePages, Cache.popped, h]

end Phases

lemma holds_toInt (k : Cache) : k.holds.toInt = if k.owned = [] then 0 else 1 := by
  cases h : k.owned <;> simp [holds, h]

@[simp] lemma wake_pages (k : Cache) : k.wake.pages = k.pages := by
  cases h : k.phase <;> simp [wake, h]

@[simp] lemma wake_owned (k : Cache) : k.wake.owned = k.owned := by
  cases h : k.phase <;> simp [wake, owned, livePages, popped, h]

@[simp] lemma wake_holds (k : Cache) : k.wake.holds = k.holds := by simp [holds]

@[simp] lemma wake_countedAt (g : UInt32) (k : Cache) :
    k.wake.countedAt g = k.countedAt g := by
  cases h : k.phase <;> simp [wake, countedAt, h]

@[simp] lemma wake_wellFormed (k : Cache) : k.wake.WellFormed ↔ k.WellFormed := by
  cases h : k.phase <;> simp [wake, WellFormed, h]

@[simp] lemma wake_sleeps (k : Cache) : k.wake.sleeps = k.sleeps := by
  cases h : k.phase <;> simp [wake, sleeps, h]

@[simp] lemma wake_need (k : Cache) : k.wake.need = k.need := by
  cases h : k.phase <;> simp [wake, need, h]

lemma countedAt_of_awake {k : Cache} (h : k.sleeps = false) (g : UInt32) :
    k.countedAt g = false := by
  cases hp : k.phase <;> simp_all [sleeps, countedAt]

lemma dozing_of_awake {k : Cache} (h : k.sleeps = false) : k.dozing = false := by
  cases hp : k.phase <;> simp_all [sleeps, dozing]

/-- After a broadcast nobody sleeps without a wake-up pending. -/
@[simp] lemma wake_dozing (k : Cache) : k.wake.dozing = false := by
  cases h : k.phase <;> simp [wake, dozing, h]

end Cache

variable {ι : Type}

namespace Pool

/-- `p->n_free`. -/
def nFree (s : Pool ι) : ℕ := s.freeStack.length

/-- One cache replaced. -/
def setCache [DecidableEq ι] (s : Pool ι) (c : ι) (k : Cache) : Pool ι :=
  { s with cache := Function.update s.cache c k }

/-- `vv_cond_broadcast(&p->freed)`. -/
def broadcast (s : Pool ι) : Pool ι := { s with cache := fun c => (s.cache c).wake }

end Pool

/-- What the call a cache is in returns in a step, `none` while it goes on. -/
abbrev Outcome := Option (Except Status Unit)

/-- What `vv_kv_page_map_dev` returns: the device's codes do not include the pool's own one. -/
abbrev MapResult := Except { st : Status // st ≠ .kvPoolExhausted } Unit

/-- `want`: the pages that hold `n_positions` positions. -/
def pagesFor (nPositions : ℤ) : ℤ := (nPositions + (kvPageSize - 1)).tdiv kvPageSize

/-- `counted && p->stall_gen == my_gen`: the thread is one of the `n_stalled`. -/
def stillCounted (s : Pool ι) (counted : Bool) (myGen : UInt32) : Bool :=
  counted && s.stallGen == myGen

/-- `running`: the other holders that are not waiting themselves. -/
def running (s : Pool ι) (k : Cache) (counted : Bool) : ℤ :=
  (s.nHolders - (!k.pages.isEmpty).toInt) - (s.nStalled - counted.toInt)

/-- `hopeless`: nobody could give this thread the pages it needs. -/
def hopeless (s : Pool ι) (k : Cache) (need : ℕ) (counted : Bool) : Bool :=
  decide (s.nPages < need) ||
    (!k.pages.isEmpty && decide (running s k counted ≤ 0)) ||
    (k.pages.isEmpty && decide (s.nHolders = 0))

variable [DecidableEq ι]

/-- One pass of `reserve_pages` under the lock, up to the next point where it leaves it: the
loop `while (p->n_free < need)` once, or the pop that follows it. -/
def reservePass (s : Pool ι) (c : ι) (need : ℕ) (wait counted : Bool) (myGen : UInt32) :
    Outcome × Pool ι :=
  let k := s.cache c
  -- a count made under an older generation has been cleared since
  let counted := stillCounted s counted myGen
  if s.nFree < need then
    if !wait || hopeless s k need counted then
      (some (.error .kvPoolExhausted),
        { s with nStalled := s.nStalled - counted.toInt }.setCache c { k with phase := .idle })
    else if !k.pages.isEmpty && !counted then
      (none, { s with nStalled := s.nStalled + 1 }.setCache c
        { k with phase := .asleep need true s.stallGen false })
    else
      (none, s.setCache c { k with phase := .asleep need counted myGen false })
  else
    (none,
      { s with
        nStalled := s.nStalled - counted.toInt
        nHolders := s.nHolders + k.pages.isEmpty.toInt
        freeStack := s.freeStack.drop need }.setCache c
      { k with phase := .mapping (s.freeStack.take need) })

/-- `reserve_pages`, from the call to the first time it leaves the lock. -/
def reservePages (s : Pool ι) (c : ι) (nPositions : ℤ) (wait : Bool) : Outcome × Pool ι :=
  let k := s.cache c
  if k.maxSeqLen < nPositions then (some (.error .overflow), s)
  else
    let wait := wait && !k.noWait
    let want := pagesFor nPositions
    if want ≤ k.pages.length then (some (.ok ()), s)
    else reservePass s c (want - k.pages.length).toNat wait false 0

/-- The end of `reserve_pages`: `vv_kv_page_map_dev` came back with `r`. -/
def mapDone (s : Pool ι) (c : ι) (popped : List ℕ) (r : MapResult) : Outcome × Pool ι :=
  let k := s.cache c
  match r with
  | .ok () => (some (.ok ()), s.setCache c { k with pages := k.pages ++ popped, phase := .idle })
  | .error st =>
    (some (.error st.1),
      ({ s with
        freeStack := popped ++ s.freeStack
        nHolders := s.nHolders - k.pages.isEmpty.toInt
        nStalled := 0
        stallGen := s.stallGen + 1 }.setCache c { k with phase := .idle }).broadcast)

/-- `vv_kv_cache_release` up to the unlock; `free` when `vv_kv_cache_free` called it. -/
def kvCacheRelease (s : Pool ι) (c : ι) (free : Bool) : Outcome × Pool ι :=
  let k := s.cache c
  if k.pages.isEmpty then
    (some (.ok ()), s.setCache c { k with phase := if free then .freed else .idle })
  else
    (none,
      ({ s with
        freeStack := k.pages ++ s.freeStack
        nHolders := s.nHolders - 1
        nStalled := 0
        stallGen := s.stallGen + 1 }.setCache c { k with phase := .releasing free }).broadcast)

/-- `vv_kv_cache_reset`: the lengths and the reference keys it also clears are the cache's own. -/
def kvCacheReset (s : Pool ι) (c : ι) : Outcome × Pool ι := kvCacheRelease s c false

/-- `vv_kv_cache_free` of a paged cache. -/
def kvCacheFree (s : Pool ι) (c : ι) : Outcome × Pool ι := kvCacheRelease s c true

/-- What the thread of one cache may do next. -/
inductive Act (ι : Type)
  | reserve (c : ι) (nPositions : ℤ) (wait : Bool)
  | wakeUp (c : ι)
  | mapDone (c : ι) (r : MapResult)
  | release (c : ι)
  | reset (c : ι)
  | free (c : ι)
  | finishRelease (c : ι)
  | setNoWait (c : ι) (noWait : Bool)

/-- One step of the machine, `none` when the thread of the cache stands elsewhere. -/
def step (s : Pool ι) : Act ι → Option (Outcome × Pool ι)
  | .reserve c nPositions wait =>
    match (s.cache c).phase with
    | .idle => some (reservePages s c nPositions wait)
    | _ => none
  | .wakeUp c =>
    match (s.cache c).phase with
    | .asleep need counted myGen _ => some (reservePass s c need true counted myGen)
    | _ => none
  | .mapDone c r =>
    match (s.cache c).phase with
    | .mapping popped => some (mapDone s c popped r)
    | _ => none
  | .release c =>
    match (s.cache c).phase with
    | .idle => some (kvCacheRelease s c false)
    | _ => none
  | .reset c =>
    match (s.cache c).phase with
    | .idle => some (kvCacheReset s c)
    | _ => none
  | .free c =>
    match (s.cache c).phase with
    | .idle => some (kvCacheFree s c)
    | _ => none
  | .finishRelease c =>
    match (s.cache c).phase with
    | .releasing free =>
      some (some (.ok ()), s.setCache c
        { s.cache c with pages := [], phase := if free then .freed else .idle })
    | _ => none
  | .setNoWait c noWait =>
    match (s.cache c).phase with
    | .idle => some (none, s.setCache c { s.cache c with noWait := noWait })
    | _ => none

/-- A new pool of `n` pages, low ids on top, and its caches, which hold nothing. -/
def Pool.fresh (n : ℕ) (maxSeqLen : ι → ℤ) : Pool ι where
  nPages := n
  freeStack := List.range n
  nHolders := 0
  nStalled := 0
  stallGen := 0
  cache c := { maxSeqLen := maxSeqLen c, noWait := false, pages := [], phase := .idle }

end VibeVoice.KvPool
