import VibeVoice.Engine.Leases
import VibeVoice.Engine.Slots
import VibeVoice.KvPool.Undo

/-!
The engine as a whole: its clients run the code of their calls, take slots and give them back,
and drive the caches of the slots they hold, over one pool of pages.

A step of the machine is one call of one client's code, or the part of it that the client runs
under a lock: a pass of `acquire_slot_wait`, a section of the pool.  Between two of them any other
client may step, and every call may fail wherever it can.

* `Tidy`, `Tidy.step`: a slot nobody holds has an idle, empty cache; a client that holds one keeps
  to the contract of its code.
* `idle_slot_holds_nothing`: what that says along every schedule.
-/

namespace VibeVoice.Engine

open Calls

/-- The engine: its slots, the pool with the caches of the slots, what each client has still to
run, and how often each slot was handed out and came back. -/
structure System (κ : Type) (n : ℕ) where
  slots : Slots κ
  pool : KvPool.Pool (Fin n)
  client : κ → Client
  acquired : ℕ → ℕ
  released : ℕ → ℕ

/-- What happens next. -/
inductive Move (κ : Type) (n : ℕ)
  /-- A client calls the engine. -/
  | invoke (t : κ) (entry : Entry)
  /-- What a client has called comes back. -/
  | op (t : κ) (r : Answer)
  /-- `acquire_slot_wait` up to its first wait, or once more around its loop. -/
  | acquire (t : κ) (late : Bool)
  | wakeUp (t : κ) (late : Bool)
  /-- `release_slot`, whose signal reaches `u`. -/
  | release (t : κ) (u : Option κ)
  /-- A section of the pool that a client runs for the cache of its slot. -/
  | pool (t : κ) (a : KvPool.Act (Fin n))

/-- The sections of the pool that a call runs. -/
def poolAct {ι : Type} : Call → KvPool.Act ι → Bool
  | .reservePages wait, .reserve _ _ wait' => wait == wait'
  | .reservePages _, .wakeUp _ => true
  | .reservePages _, .mapDone _ _ => true
  | .kvCacheRelease, .release _ => true
  | .kvCacheRelease, .finishRelease _ => true
  | .kvCacheReset, .reset _ => true
  | .kvCacheReset, .finishRelease _ => true
  | .setNoWait on, .setNoWait _ on' => on == on'
  | _, _ => false

/-- The answer of a call after one of its sections, `none` while it goes on. -/
def answerOf {ι : Type} : KvPool.Act ι → KvPool.Outcome → Option Answer
  | .setNoWait _ _, _ => some (.ok ())
  | _, o => o

namespace System

variable {κ : Type} {n : ℕ}

/-- `n` slots over a new pool, and clients that have not called yet. -/
def init (pages : ℕ) (maxSeqLen : Fin n → ℤ) : System κ n where
  slots := .init n
  pool := .fresh pages maxSeqLen
  client _ := .done none
  acquired _ := 0
  released _ := 0

variable [DecidableEq κ]

/-- A client has the code `code` left. -/
def setClient (e : System κ n) (t : κ) (code : Client) : System κ n :=
  { e with client := Function.update e.client t code }

/-- After a pass of `acquire_slot_wait`: a slot, none in time, or a wait. -/
def acquiring (e : System κ n) (t : κ) (next : Answer → Client) :
    Option ℤ × Slots κ → System κ n
  | (some (.ofNat i), slots) =>
    { e with
      slots := slots
      acquired := Function.update e.acquired i (e.acquired i + 1) }.setClient t (next (.ok ()))
  | (some (.negSucc _), slots) => { e with slots := slots }.setClient t (next (.error .busy))
  | (none, slots) => { e with slots := slots }

/-- After `release_slot`. -/
def releasing (e : System κ n) (t : κ) (next : Answer → Client) (idx : ℕ) (slots : Slots κ) :
    System κ n :=
  { e with
    slots := slots
    released := Function.update e.released idx (e.released idx + 1) }.setClient t (next (.ok ()))

/-- After a section of the pool. -/
def serving (e : System κ n) (t : κ) (next : Answer → Client) (r : Option Answer)
    (pool : KvPool.Pool (Fin n)) : System κ n :=
  match r with
  | some r => { e with pool := pool }.setClient t (next r)
  | none => { e with pool := pool }

variable [Fintype κ]

/-- One step, `none` when the client stands elsewhere. -/
def step (e : System κ n) : Move κ n → Option (Unit × System κ n)
  | .invoke t entry =>
    match e.client t with
    | .done before => (entry.code before).map fun code => ((), e.setClient t code)
    | .call _ _ => none
  | .op t r =>
    match e.client t with
    | .call (.op _) next => some ((), e.setClient t (next r))
    | _ => none
  | .acquire t late =>
    match e.client t with
    | .call (.acquireSlot timed) next =>
      (Engine.step e.slots (.acquire t timed late)).map fun r => ((), e.acquiring t next r)
    | _ => none
  | .wakeUp t late =>
    match e.client t with
    | .call (.acquireSlot _) next =>
      (Engine.step e.slots (.wakeUp t late)).map fun r => ((), e.acquiring t next r)
    | _ => none
  | .release t u =>
    match e.client t, e.slots.phase t with
    | .call (.releaseSlot ok) next, .holding idx =>
      (Engine.step e.slots (.release t ok u)).map fun r => ((), e.releasing t next idx r.2)
    | _, _ => none
  | .pool t a =>
    match e.client t with
    | .call c next =>
      if e.slots.phase t = .holding a.cacheOf ∧ poolAct c a then
        (KvPool.step e.pool a).map fun r => ((), e.serving t next (answerOf a r.1) r.2)
      else none
    | .done _ => none

end System

/-! ### What a section of the pool does to the cache of a client -/

section Sections

open KvPool

variable {ι : Type} [DecidableEq ι]

/-- A request knows right about its cache. -/
def Describes (l : Lease) (k : Cache) : Prop :=
  (l.pages = false → k.pages = []) ∧ k.noWait = l.noWait

/-- Where a cache may stand while its client is in a call. -/
def Serving : Call → KvPool.Phase → Prop
  | _, .idle => True
  | .reservePages _, .asleep _ _ _ _ => True
  | .reservePages _, .mapping _ => True
  | .kvCacheRelease, .releasing free => free = false
  | .kvCacheReset, .releasing free => free = false
  | _, _ => False

/-- What a section leaves: the call goes on, or it is over and its answer tells what it did. -/
def Served (c : Call) (l : Lease) (k : Cache) : Option Answer → Prop
  | some r => ∃ l', after c r (some l) = some l' ∧ Describes l' k ∧ k.phase = .idle
  | none => Describes l k ∧ Serving c k.phase

lemma serving_idle (c : Call) : Serving c .idle := by
  cases c <;> trivial

/-- Most calls run outside the pool. -/
lemma Serving.idle {c : Call} {ph : KvPool.Phase} (h : Serving c ph)
    (hc : (∃ o, c = .op o) ∨ ∃ ok, c = .releaseSlot ok) : ph = .idle := by
  rcases hc with ⟨o, rfl⟩ | ⟨ok, rfl⟩ <;> cases ph <;> first | rfl | exact h.elim

lemma wake_idle {k : Cache} (h : k.phase = .idle) : k.wake = k := by
  simp [Cache.wake, h]

lemma describes_wake {l : Lease} {k : Cache} (h : Describes l k) : Describes l k.wake := by
  cases hk : k.phase <;> simpa [Cache.wake, hk, Describes] using h

lemma serving_wake {c : Call} {k : Cache} (h : Serving c k.phase) : Serving c k.wake.phase := by
  cases hk : k.phase <;> cases c <;> simp_all [Cache.wake, Serving]

variable {s s' : Pool ι} {i : ι} {l : Lease}

/-- A pass of `reserve_pages` that fails has kept nothing. -/
lemma reservePass_served (h : Describes l (s.cache i)) (need : ℕ) (wait wait' counted : Bool)
    (myGen : UInt32) :
    Served (.reservePages wait') l ((reservePass s i need wait counted myGen).2.cache i)
      (reservePass s i need wait counted myGen).1 := by
  rcases reservePass_cases s i need wait counted myGen with hp | ⟨counted', gen, -, hp⟩ | ⟨-, hp⟩
  · rw [hp]
    exact ⟨l, rfl, by simpa [Pool.setCache, Describes] using h, by simp [Pool.setCache]⟩
  · rw [hp]
    exact ⟨by simpa [Pool.setCache, Describes] using h, by simp [Pool.setCache, Serving]⟩
  · rw [hp]
    exact ⟨by simpa [Pool.setCache, Describes] using h, by simp [Pool.setCache, Serving]⟩

lemma reservePages_served (h : Describes l (s.cache i)) (hidle : (s.cache i).phase = .idle)
    (m : ℤ) (wait wait' : Bool) :
    Served (.reservePages wait') l ((reservePages s i m wait).2.cache i)
      (reservePages s i m wait).1 := by
  simp only [reservePages]
  split_ifs
  · exact ⟨l, rfl, h, hidle⟩
  · exact ⟨_, rfl, ⟨Bool.noConfusion, h.2⟩, hidle⟩
  · exact reservePass_served h _ _ _ _ _

lemma mapDone_served (h : Describes l (s.cache i)) (popped : List ℕ) (r : MapResult)
    (wait' : Bool) :
    Served (.reservePages wait') l ((mapDone s i popped r).2.cache i) (mapDone s i popped r).1 := by
  cases r with
  | ok u =>
    exact ⟨_, rfl, ⟨Bool.noConfusion, by simpa [mapDone, Pool.setCache] using h.2⟩,
      by simp [mapDone, Pool.setCache]⟩
  | error st =>
    have hcache : (mapDone s i popped (.error st)).2.cache i =
        { s.cache i with phase := .idle } := by
      simp [mapDone, Pool.broadcast, Pool.setCache, Cache.wake]
    rw [hcache]
    exact ⟨l, rfl, h, rfl⟩

/-- A release starts with a cache that keeps its list of pages for a moment longer. -/
lemma kvCacheRelease_served {c : Call} (hc : c = .kvCacheRelease ∨ c = .kvCacheReset)
    (h : Describes l (s.cache i)) :
    Served c l ((KvPool.kvCacheRelease s i false).2.cache i)
      (KvPool.kvCacheRelease s i false).1 := by
  have hafter : ∀ r, after c r (some l) = some { l with pages := false } := by
    rcases hc with rfl | rfl <;> exact fun r => rfl
  by_cases hempty : (s.cache i).pages.isEmpty
  · rw [KvPool.kvCacheRelease, if_pos hempty]
    refine ⟨_, hafter _, ⟨fun _ => ?_, ?_⟩, ?_⟩
    · simpa [Pool.setCache] using hempty
    · simpa [Pool.setCache] using h.2
    · simp [Pool.setCache]
  · have hcache : ((KvPool.kvCacheRelease s i false).2.cache i) =
        { s.cache i with phase := .releasing false } := by
      simp [KvPool.kvCacheRelease, hempty, Pool.broadcast, Pool.setCache, Cache.wake]
    rw [hcache, KvPool.kvCacheRelease, if_neg hempty]
    exact ⟨h, by rcases hc with rfl | rfl <;> rfl⟩

/-- **One section of the pool**, run by the client of the cache for the call it is in. -/
lemma poolStep_served {c : Call} {a : KvPool.Act ι} {o : Outcome} (hca : poolAct c a = true)
    (hstep : KvPool.step s a = some (o, s')) (h : Describes l (s.cache a.cacheOf))
    (hserving : Serving c (s.cache a.cacheOf).phase) :
    Served c l (s'.cache a.cacheOf) (answerOf a o) := by
  cases a with
  | free i => cases c <;> simp only [poolAct, Bool.false_eq_true] at hca
  | reserve i m wait =>
    cases c <;> simp only [poolAct, Bool.false_eq_true] at hca
    case reservePages wait' =>
      cases hp : (s.cache i).phase <;>
        simp only [KvPool.step, hp, Option.some.injEq, reduceCtorEq] at hstep
      have hserved := reservePages_served (i := i) h hp m wait wait'
      rwa [hstep] at hserved
  | wakeUp i =>
    cases c <;> simp only [poolAct, Bool.false_eq_true] at hca
    case reservePages wait' =>
      cases hp : (s.cache i).phase <;>
        simp only [KvPool.step, hp, Option.some.injEq, reduceCtorEq] at hstep
      case asleep need counted gen woken =>
        have hserved := reservePass_served (i := i) h need true wait' counted gen
        rwa [hstep] at hserved
  | mapDone i r =>
    cases c <;> simp only [poolAct, Bool.false_eq_true] at hca
    case reservePages wait' =>
      cases hp : (s.cache i).phase <;>
        simp only [KvPool.step, hp, Option.some.injEq, reduceCtorEq] at hstep
      case mapping popped =>
        have hserved := mapDone_served (i := i) h popped r wait'
        rwa [hstep] at hserved
  | release i =>
    cases c <;> simp only [poolAct, Bool.false_eq_true] at hca
    cases hp : (s.cache i).phase <;>
      simp only [KvPool.step, hp, Option.some.injEq, reduceCtorEq] at hstep
    have hserved := kvCacheRelease_served (i := i) (.inl rfl) h
    rwa [hstep] at hserved
  | reset i =>
    cases c <;> simp only [poolAct, Bool.false_eq_true] at hca
    cases hp : (s.cache i).phase <;>
      simp only [KvPool.step, hp, Option.some.injEq, reduceCtorEq] at hstep
    have hserved := kvCacheRelease_served (i := i) (.inr rfl) h
    rw [KvPool.kvCacheReset] at hstep
    rwa [hstep] at hserved
  | finishRelease i =>
    cases hp : (s.cache i).phase <;>
      simp only [KvPool.step, hp, Option.some.injEq, reduceCtorEq, Prod.mk.injEq] at hstep
    case releasing free =>
      obtain ⟨rfl, rfl⟩ := hstep
      simp only [Act.cacheOf, hp] at h hserving
      have hfree : free = false := by
        cases c <;> first | exact hserving | exact hserving.elim
      subst hfree
      have hafter : ∀ r, after c r (some l) = some { l with pages := false } := by
        cases c <;> first | exact fun _ => rfl | exact absurd hca Bool.false_ne_true
      exact ⟨_, hafter _, by simpa [Pool.setCache, Describes, Act.cacheOf] using h.2,
        by simp [Pool.setCache, Act.cacheOf]⟩
  | setNoWait i on =>
    cases c <;> simp only [poolAct, Bool.false_eq_true, beq_iff_eq] at hca
    subst hca
    cases hp : (s.cache i).phase <;>
      simp only [KvPool.step, hp, Option.some.injEq, reduceCtorEq, Prod.mk.injEq] at hstep
    obtain ⟨rfl, rfl⟩ := hstep
    exact ⟨_, rfl, by simpa [Pool.setCache, Describes, Act.cacheOf] using h.1,
      by simp [Pool.setCache, Act.cacheOf]⟩

end Sections

/-! ### What holds between two steps -/

/-- A cache that an idle slot may have. -/
structure Unused (k : KvPool.Cache) : Prop where
  pages : k.pages = []
  noWait : k.noWait = false
  phase : k.phase = .idle

lemma Describes.unused {k : KvPool.Cache} (h : Describes .clean k) (hp : k.phase = .idle) :
    Unused k :=
  ⟨h.1 rfl, h.2, hp⟩

lemma Unused.describes {k : KvPool.Cache} (h : Unused k) : Describes .clean k :=
  ⟨fun _ => h.pages, h.noWait⟩

lemma Unused.owned {k : KvPool.Cache} (h : Unused k) : k.owned = [] :=
  (KvPool.Cache.owned_of_idle h.phase).trans h.pages

/-- The slot of a thread. -/
def Phase.slot : Phase → Option ℕ
  | .holding i => some i
  | _ => none

@[simp] lemma Phase.slot_eq_some {ph : Phase} {i : ℕ} : ph.slot = some i ↔ ph = .holding i := by
  cases ph <;> simp [Phase.slot]

/-- Where the cache of a client may stand. -/
def Stands : Client → KvPool.Phase → Prop
  | .done _, ph => ph = .idle
  | .call c _, ph => Serving c ph

lemma stands_idle (code : Client) : Stands code .idle := by
  cases code with
  | done st => rfl
  | call c next => exact serving_idle c

lemma stands_wake {code : Client} {k : KvPool.Cache} (h : Stands code k.phase) :
    Stands code k.wake.phase := by
  cases code with
  | done st =>
    have hk : k.phase = .idle := h
    rw [wake_idle hk]
    exact hk
  | call c next => exact serving_wake h

section Keeps

variable {n : ℕ}

/-- A client keeps to the contract of its code, with the slot it holds or without one. -/
def Keeps (cache : Fin n → KvPool.Cache) (code : Client) : Option ℕ → Prop
  | none => Code.Meets slotContract Settled code none
  | some i => ∃ hi : i < n, ∃ l, Describes l (cache ⟨i, hi⟩) ∧ Stands code (cache ⟨i, hi⟩).phase ∧
      Code.Meets slotContract Settled code (some l)

/-- What others do to the cache of a client is a wake-up at most. -/
lemma Keeps.frame {cache cache' : Fin n → KvPool.Cache} {code : Client} {slot : Option ℕ}
    (h : Keeps cache code slot)
    (hcache : ∀ i : Fin n, slot = some (i : ℕ) →
      cache' i = cache i ∨ cache' i = (cache i).wake) : Keeps cache' code slot := by
  cases slot with
  | none => exact h
  | some i =>
    obtain ⟨hi, l, hl, hst, hcode⟩ := h
    refine ⟨hi, l, ?_⟩
    rcases hcache ⟨i, hi⟩ rfl with hk | hk
    · rw [hk]
      exact ⟨hl, hst, hcode⟩
    · rw [hk]
      exact ⟨describes_wake hl, stands_wake hst, hcode⟩

end Keeps

variable {κ : Type} [DecidableEq κ] {n : ℕ}

/-- A pass takes a free slot, gives up, or waits. -/
lemma acquirePass_cases (s : Slots κ) (t : κ) (timed late : Bool) :
    (∃ i : ℕ, s.busy[i]? = some false ∧ acquirePass s t timed late = (some (i : ℤ),
        { s with busy := s.busy.set i true, nBusy := s.nBusy + 1 }.setPhase t (.holding i))) ∨
      acquirePass s t timed late = (some (-1), s.setPhase t .idle) ∨
      acquirePass s t timed late = (none, s.setPhase t (.waiting timed false)) := by
  rw [acquirePass]
  cases hscan : s.busy.findIdx? (!·) with
  | some i =>
    obtain ⟨hi, hbusy⟩ := scan_some hscan
    exact .inl ⟨i, by rw [List.getElem?_eq_getElem hi, hbusy], rfl⟩
  | none =>
    dsimp only
    split_ifs
    · exact .inr (.inl rfl)
    · exact .inr (.inr rfl)

/-- A signal changes nobody's slot. -/
lemma signal_slot (s : Slots κ) (u : Option κ) (v : κ) :
    ((s.signal u).phase v).slot = (s.phase v).slot := by
  cases u with
  | none => rfl
  | some u =>
    rw [Slots.signal]
    cases hu : s.phase u with
    | idle => rfl
    | holding i => rfl
    | waiting timed signalled =>
      by_cases huv : v = u
      · subst huv
        simp [Slots.setPhase, Phase.slot, hu]
      · simp [Slots.setPhase, huv]

lemma signal_busy (s : Slots κ) (u : Option κ) : (s.signal u).busy = s.busy := by
  cases u with
  | none => rfl
  | some u =>
    rw [Slots.signal]
    cases s.phase u <;> rfl

variable [Fintype κ]

/-- Every slot of the engine is clean, or in the hands of a client that will clean it. -/
structure Tidy (e : System κ n) : Prop where
  sound : Sound e.slots
  size : e.slots.busy.length = n
  count : ∀ i, e.acquired i = e.released i + if e.slots.busy[i]? = some true then 1 else 0
  unused : ∀ i : Fin n, e.slots.busy[(i : ℕ)]? = some false → Unused (e.pool.cache i)
  keeps : ∀ t, Keeps e.pool.cache (e.client t) (e.slots.phase t).slot

namespace Tidy

variable {e : System κ n}

omit [DecidableEq κ] in
lemma init (pages : ℕ) (maxSeqLen : Fin n → ℤ) [DecidableEq κ] :
    Tidy (System.init pages maxSeqLen : System κ n) where
  sound := .init n
  size := List.length_replicate
  count i := by simp [System.init, Slots.init, List.getElem?_replicate]
  unused i _ := ⟨rfl, rfl, rfl⟩
  keeps t := rfl

/-- A client goes on with other code. -/
lemma setClient (h : Tidy e) {t : κ} {code : Client}
    (hcode : Keeps e.pool.cache code (e.slots.phase t).slot) : Tidy (e.setClient t code) where
  sound := h.sound
  size := h.size
  count := h.count
  unused := h.unused
  keeps u := by
    simp only [System.setClient]
    by_cases hut : u = t
    · subst hut
      rwa [Function.update_self]
    · rw [Function.update_of_ne hut]
      exact h.keeps u

/-- A client without a slot has moved, and still has none. -/
lemma setPhase (h : Tidy e) {t : κ} {ph : Phase} (hno : (e.slots.phase t).slot = none)
    (hph : ph.slot = none) (hsound : Sound (e.slots.setPhase t ph)) :
    Tidy { e with slots := e.slots.setPhase t ph } where
  sound := hsound
  size := h.size
  count := h.count
  unused := h.unused
  keeps u := by
    have hu := h.keeps u
    simp only [Slots.setPhase]
    by_cases hut : u = t
    · subst hut
      rw [Function.update_self, hph]
      rwa [hno] at hu
    · rwa [Function.update_of_ne hut]

/-- A client takes a free slot, which is clean. -/
lemma take (h : Tidy e) {t : κ} {code : Client} {i : ℕ} (hfree : e.slots.busy[i]? = some false)
    (hcode : Code.Meets slotContract Settled code (some .clean)) {slots : Slots κ}
    (hslots : slots = { e.slots with
      busy := e.slots.busy.set i true, nBusy := e.slots.nBusy + 1 }.setPhase t (.holding i))
    (hsound : Sound slots) :
    Tidy ({ e with
      slots := slots
      acquired := Function.update e.acquired i (e.acquired i + 1) }.setClient t code) := by
  obtain ⟨hi, hbusy⟩ := List.getElem?_eq_some_iff.mp hfree
  subst hslots
  refine ⟨hsound, by simpa [System.setClient, Slots.setPhase] using h.size, fun j => ?_,
    fun j hj => ?_, fun u => ?_⟩
  · have hj := h.count j
    simp only [System.setClient, Slots.setPhase, List.getElem?_set, Function.update_apply]
    by_cases hij : i = j
    · subst hij
      simp only [hfree] at hj
      simp [hi, hj]
    · rw [if_neg (Ne.symm hij), if_neg hij]
      exact hj
  · simp only [System.setClient, Slots.setPhase, List.getElem?_set] at hj
    by_cases hij : i = (j : ℕ)
    · simp [hij] at hj
    · rw [if_neg hij] at hj
      exact h.unused j hj
  · simp only [System.setClient, Slots.setPhase]
    by_cases hut : u = t
    · subst hut
      rw [Function.update_self, Function.update_self]
      have hin : i < n := h.size ▸ hi
      have hclean := h.unused ⟨i, hin⟩ hfree
      exact ⟨hin, .clean, hclean.describes, hclean.phase ▸ stands_idle code, hcode⟩
    · rw [Function.update_of_ne hut, Function.update_of_ne hut]
      exact h.keeps u

/-- A pass of `acquire_slot_wait`. -/
lemma acquiring (h : Tidy e) {t : κ} {asked : Bool} {next : Answer → Client}
    (hclient : e.client t = .call (.acquireSlot asked) next)
    (hno : (e.slots.phase t).slot = none) (timed late : Bool)
    (hsound : Sound (acquirePass e.slots t timed late).2) :
    Tidy (e.acquiring t next (acquirePass e.slots t timed late)) := by
  have hkeeps := h.keeps t
  rw [hno, hclient] at hkeeps
  obtain ⟨-, hnext⟩ := hkeeps
  rcases acquirePass_cases e.slots t timed late with ⟨i, hfree, hpass⟩ | hpass | hpass
  · rw [hpass] at hsound ⊢
    exact h.take hfree (hnext (.ok ()) _ rfl) rfl hsound
  · rw [hpass] at hsound ⊢
    refine (h.setPhase hno rfl hsound).setClient ?_
    simp only [Slots.setPhase, Function.update_self]
    exact hnext (.error .busy) _ rfl
  · rw [hpass] at hsound ⊢
    exact h.setPhase hno rfl hsound

/-- A client gives its slot back, which it has cleaned. -/
lemma releasing (h : Tidy e) {t : κ} {ok : Bool} {next : Answer → Client} {idx : ℕ}
    {u : Option κ} (hclient : e.client t = .call (.releaseSlot ok) next)
    (hphase : e.slots.phase t = .holding idx)
    (hsound : Sound (releaseSlot e.slots t idx ok u).2) :
    Tidy (e.releasing t next idx (releaseSlot e.slots t idx ok u).2) ∧
      ∃ hi : idx < n, Unused (e.pool.cache ⟨idx, hi⟩) := by
  have hbusy : e.slots.busy[idx]? = some true := (h.sound.flags idx).mpr ⟨t, hphase⟩
  obtain ⟨hlen, -⟩ := List.getElem?_eq_some_iff.mp hbusy
  have hkeeps := h.keeps t
  rw [Phase.slot_eq_some.mpr hphase, hclient] at hkeeps
  obtain ⟨hi, l, hl, hst, hpre, hnext⟩ := hkeeps
  obtain rfl : l = .clean := Option.some.inj hpre
  have hclean := hl.unused (Serving.idle hst (.inr ⟨ok, rfl⟩))
  refine ⟨⟨hsound, ?_, fun j => ?_, fun j hj => ?_, fun v => ?_⟩, hi, hclean⟩
  · simpa [System.releasing, System.setClient, releaseSlot, signal_busy, Slots.setPhase]
      using h.size
  · have hj := h.count j
    simp only [System.releasing, System.setClient, releaseSlot, signal_busy, Slots.setPhase,
      List.getElem?_set, Function.update_apply]
    by_cases hij : idx = j
    · subst hij
      simp only [hbusy] at hj
      simp [hlen, hj]
    · rw [if_neg (Ne.symm hij), if_neg hij]
      exact hj
  · simp only [System.releasing, System.setClient, releaseSlot, signal_busy, Slots.setPhase,
      List.getElem?_set] at hj
    by_cases hij : idx = (j : ℕ)
    · obtain rfl : (⟨idx, hi⟩ : Fin n) = j := Fin.ext hij
      exact hclean
    · rw [if_neg hij] at hj
      exact h.unused j hj
  · simp only [System.releasing, System.setClient, releaseSlot, signal_slot, Slots.setPhase]
    by_cases hvt : v = t
    · subst hvt
      rw [Function.update_self, Function.update_self]
      exact hnext (.ok ()) _ rfl
    · rw [Function.update_of_ne hvt, Function.update_of_ne hvt]
      exact h.keeps v

/-- `release_slot`, with what is left of the slot at that moment. -/
lemma released (h : Tidy e) {t : κ} {u : Option κ} {r : Unit × System κ n}
    (hs : System.step e (.release t u) = some r) :
    Tidy r.2 ∧ ∃ i : Fin n, e.slots.phase t = .holding i ∧
      r.2.released i = e.released i + 1 ∧ Unused (e.pool.cache i) := by
  rcases hc : e.client t with before | ⟨c, next⟩
  · simp [System.step, hc] at hs
  cases c <;> simp only [System.step, hc, reduceCtorEq] at hs
  case releaseSlot ok =>
    cases hp : e.slots.phase t <;>
      simp only [hp, reduceCtorEq, Option.map_eq_some_iff] at hs
    case holding idx =>
      obtain ⟨r', hr', rfl⟩ := hs
      have hsound := h.sound.step hr'
      simp only [Engine.step, hp] at hr'
      split_ifs at hr'
      obtain rfl := Option.some.inj hr'
      obtain ⟨htidy, hi, hk⟩ := h.releasing hc hp hsound
      exact ⟨htidy, ⟨idx, hi⟩, rfl, Function.update_self .., hk⟩

omit [DecidableEq κ] in
/-- A client that is done and has no stream has no slot. -/
lemma running (h : Tidy e) {t : κ} {i : ℕ} (hp : e.slots.phase t = .holding i) :
    e.client t ≠ .done none := by
  intro hdone
  have hkeeps := h.keeps t
  rw [Phase.slot_eq_some.mpr hp, hdone] at hkeeps
  obtain ⟨-, l, -, -, hsettled⟩ := hkeeps
  cases hsettled

/-- A section of the pool, for the cache of the slot the client holds. -/
lemma serving (h : Tidy e) {t : κ} {c : Call} {next : Answer → Client}
    {a : KvPool.Act (Fin n)} {o : KvPool.Outcome} {pool : KvPool.Pool (Fin n)}
    (hclient : e.client t = .call c next)
    (hphase : e.slots.phase t = .holding (a.cacheOf : ℕ)) (hca : poolAct c a = true)
    (hstep : KvPool.step e.pool a = some (o, pool)) :
    Tidy (e.serving t next (answerOf a o) pool) := by
  have hbusy := (h.sound.flags _).mpr ⟨t, hphase⟩
  have hothers : ∀ i, i ≠ a.cacheOf →
      pool.cache i = e.pool.cache i ∨ pool.cache i = (e.pool.cache i).wake :=
    fun i hi => KvPool.step_cache hstep (Ne.symm hi)
  have hunused : ∀ i : Fin n, e.slots.busy[(i : ℕ)]? = some false → Unused (pool.cache i) := by
    intro i hi
    have hia : i ≠ a.cacheOf := by
      rintro rfl
      rw [hbusy] at hi
      cases hi
    have hold := h.unused i hi
    rcases hothers i hia with hk | hk
    · rwa [hk]
    · rwa [hk, wake_idle hold.phase]
  have hkept : ∀ u, u ≠ t → Keeps pool.cache (e.client u) (e.slots.phase u).slot := by
    intro u hut
    refine (h.keeps u).frame fun i hi => hothers i ?_
    rintro rfl
    exact hut (h.sound.unique u t _ (Phase.slot_eq_some.mp hi) hphase)
  have hkeeps := h.keeps t
  rw [Phase.slot_eq_some.mpr hphase, hclient] at hkeeps
  obtain ⟨hi, l, hl, hst, hpre, hnext⟩ := hkeeps
  have hserved : Served c l (pool.cache a.cacheOf) (answerOf a o) :=
    poolStep_served hca hstep hl hst
  cases hr : answerOf a o with
  | some r =>
    rw [hr] at hserved
    obtain ⟨l', hafter, hl', hidle⟩ := hserved
    refine ⟨h.sound, h.size, h.count, hunused, fun u => ?_⟩
    simp only [System.serving, System.setClient]
    by_cases hut : u = t
    · subst hut
      rw [Function.update_self, Phase.slot_eq_some.mpr hphase]
      exact ⟨hi, l', hl', hidle ▸ stands_idle _, hnext r _ hafter.symm⟩
    · rw [Function.update_of_ne hut]
      exact hkept u hut
  | none =>
    rw [hr] at hserved
    refine ⟨h.sound, h.size, h.count, hunused, fun u => ?_⟩
    simp only [System.serving]
    by_cases hut : u = t
    · subst hut
      rw [Phase.slot_eq_some.mpr hphase, hclient]
      exact ⟨hi, l, hserved.1, hserved.2, hpre, hnext⟩
    · exact hkept u hut

/-- **One step keeps the engine tidy.** -/
theorem step {a : Move κ n} {r : Unit × System κ n} (h : Tidy e) (hs : System.step e a = some r) :
    Tidy r.2 := by
  cases a with
  | invoke t entry =>
    cases hc : e.client t <;> simp only [System.step, hc, reduceCtorEq, Option.map_eq_some_iff] at hs
    case done before =>
      obtain ⟨code, hcode, rfl⟩ := hs
      have hkeeps := h.keeps t
      refine h.setClient ?_
      rw [hc] at hkeeps
      cases hslot : (e.slots.phase t).slot with
      | none =>
        rw [hslot] at hkeeps
        exact entry.meets hcode hkeeps
      | some i =>
        rw [hslot] at hkeeps
        obtain ⟨hi, l, hl, hst, hsettled⟩ := hkeeps
        have hidle : (e.pool.cache ⟨i, hi⟩).phase = .idle := hst
        exact ⟨hi, l, hl, hidle ▸ stands_idle code, entry.meets hcode hsettled⟩
  | op t answer =>
    rcases hc : e.client t with before | ⟨c, next⟩
    · simp [System.step, hc] at hs
    cases c <;> simp only [System.step, hc, reduceCtorEq, Option.some.injEq] at hs
    case op o =>
      obtain rfl := hs
      have hkeeps := h.keeps t
      refine h.setClient ?_
      rw [hc] at hkeeps
      cases hslot : (e.slots.phase t).slot with
      | none =>
        rw [hslot] at hkeeps
        exact hkeeps.2 answer none rfl
      | some i =>
        rw [hslot] at hkeeps
        obtain ⟨hi, l, hl, hst, hpre, hnext⟩ := hkeeps
        have hidle := Serving.idle hst (.inl ⟨o, rfl⟩)
        exact ⟨hi, l, hl, hidle ▸ stands_idle _, hnext answer _ rfl⟩
  | acquire t late | wakeUp t late =>
    rcases hc : e.client t with before | ⟨c, next⟩
    · simp [System.step, hc] at hs
    cases c <;> simp only [System.step, hc, reduceCtorEq, Option.map_eq_some_iff] at hs
    case acquireSlot timed =>
      obtain ⟨r, hr, rfl⟩ := hs
      have hsound := h.sound.step hr
      cases hp : e.slots.phase t <;> simp only [Engine.step, hp, reduceCtorEq] at hr
      obtain rfl := Option.some.inj hr
      exact h.acquiring hc (by rw [hp]; rfl) _ late hsound
  | release t u => exact (h.released hs).1
  | pool t a =>
    rcases hc : e.client t with before | ⟨c, next⟩
    · simp [System.step, hc] at hs
    simp only [System.step, hc] at hs
    split_ifs at hs with hgo
    obtain ⟨⟨o, pool⟩, hpool, rfl⟩ := Option.map_eq_some_iff.mp hs
    exact h.serving hc hgo.1 hgo.2 hpool

end Tidy

omit [Fintype κ] in
@[simp] lemma System.acquiring_pool (e : System κ n) (t : κ) (next : Answer → Client)
    (r : Option ℤ × Slots κ) : (e.acquiring t next r).pool = e.pool := by
  rcases r with ⟨_ | i, slots⟩
  · rfl
  · cases i <;> rfl

omit [Fintype κ] in
@[simp] lemma System.serving_pool (e : System κ n) (t : κ) (next : Answer → Client)
    (r : Option Answer) (pool : KvPool.Pool (Fin n)) :
    (e.serving t next r pool).pool = pool := by
  cases r <;> rfl

/-- A step of the engine is a step of the pool, or leaves it alone. -/
lemma System.pool_step {e e' : System κ n} {a : Move κ n} {o : Unit}
    (hs : System.step e a = some (o, e')) :
    e'.pool = e.pool ∨ ∃ act out, KvPool.step e.pool act = some (out, e'.pool) := by
  cases a with
  | pool t a =>
    simp only [System.step] at hs
    split at hs
    · split_ifs at hs
      obtain ⟨⟨out, pool⟩, hpool, he⟩ := Option.map_eq_some_iff.mp hs
      cases he
      exact .inr ⟨a, out, by rw [System.serving_pool, hpool]⟩
    · cases hs
  | invoke t entry =>
    simp only [System.step] at hs
    split at hs
    · obtain ⟨code, -, he⟩ := Option.map_eq_some_iff.mp hs
      cases he
      exact .inl rfl
    · cases hs
  | op t answer =>
    simp only [System.step] at hs
    split at hs <;> cases hs
    exact .inl rfl
  | acquire t late | wakeUp t late =>
    simp only [System.step] at hs
    split at hs
    · obtain ⟨r, -, he⟩ := Option.map_eq_some_iff.mp hs
      cases he
      exact .inl (e.acquiring_pool _ _ _)
    · cases hs
  | release t u =>
    simp only [System.step] at hs
    split at hs
    · obtain ⟨r, -, he⟩ := Option.map_eq_some_iff.mp hs
      cases he
      exact .inl rfl
    · cases hs

/-- **An idle slot holds nothing**, along every schedule of any number of clients, with every call
free to fail:

* a slot whose busy flag is off has a cache without pages, with `no_wait` off and with nobody in
  the pool for it;
* a slot has come back as often as it was handed out, but for the time it is busy;
* when it comes back its cache is clean already;
* a client that holds a slot is in a call, or has a stream open;
* so every page is owned by a cache whose slot is held by such a client, and whoever waits for
  pages waits for those;
* what happens in the pool is a run of the pool. -/
theorem idle_slot_holds_nothing (pages : ℕ) (maxSeqLen : Fin n → ℤ) (e : System κ n)
    (h : Machine.Reachable System.step (System.init pages maxSeqLen) e) :
    (∀ i : Fin n, e.slots.busy[(i : ℕ)]? = some false →
        (e.pool.cache i).pages = [] ∧ (e.pool.cache i).owned = [] ∧
          (e.pool.cache i).noWait = false ∧ (e.pool.cache i).phase = .idle) ∧
      (∀ i : ℕ, e.acquired i = e.released i + if e.slots.busy[i]? = some true then 1 else 0) ∧
      (∀ t u r, System.step e (.release t u) = some r → ∃ i : Fin n,
        e.slots.phase t = .holding i ∧ r.2.released i = e.released i + 1 ∧
          (e.pool.cache i).owned = [] ∧ (e.pool.cache i).noWait = false) ∧
      (∀ t i, e.slots.phase t = .holding i → e.client t ≠ .done none) ∧
      (∀ i : Fin n, (e.pool.cache i).owned ≠ [] →
        ∃ t, e.slots.phase t = .holding i ∧ e.client t ≠ .done none) ∧
      Machine.Reachable KvPool.step (.fresh pages maxSeqLen) e.pool := by
  have htidy : Tidy e := h.induct (P := Tidy) (Tidy.init pages maxSeqLen)
    fun _ _ _ _ ht hs => ht.step hs
  have hrunning : ∀ t i, e.slots.phase t = .holding i → e.client t ≠ .done none :=
    fun t i hp => htidy.running hp
  refine ⟨fun i hi => ?_, htidy.count, fun t u r hr => ?_, hrunning, fun i hi => ?_, ?_⟩
  · have hk := htidy.unused i hi
    exact ⟨hk.pages, hk.owned, hk.noWait, hk.phase⟩
  · obtain ⟨-, i, hp, hcount, hk⟩ := htidy.released hr
    exact ⟨i, hp, hcount, hk.owned, hk.noWait⟩
  · have hbusy : e.slots.busy[(i : ℕ)]? = some true := by
      have hlt : (i : ℕ) < e.slots.busy.length := by
        rw [htidy.size]
        exact i.isLt
      rw [List.getElem?_eq_getElem hlt]
      by_contra hidle
      refine hi (htidy.unused i ?_).owned
      rw [List.getElem?_eq_getElem hlt]
      simpa using hidle
    obtain ⟨t, hp⟩ := (htidy.sound.flags i).mp hbusy
    exact ⟨t, hp, hrunning t i hp⟩
  · refine h.induct (P := fun e => Machine.Reachable KvPool.step (.fresh pages maxSeqLen) e.pool)
      (Machine.Reachable.refl _) ?_
    intro e a o e' hr hs
    rcases System.pool_step hs with hpool | ⟨act, out, hact⟩
    · rwa [hpool]
    · exact hr.next hact

/-- A clip whose encoding fails once its pages are mapped. -/
def failedEncode : List (Move (Fin 1) 1) :=
  [.invoke 0 (.transcribe false 8 0), .op 0 (.ok ()), .op 0 (.ok ()), .acquire 0 false,
    .op 0 (.ok ()), .op 0 (.ok ()), .op 0 (.ok ()), .pool 0 (.reset 0), .op 0 (.ok ()),
    .op 0 (.ok ()), .op 0 (.ok ()), .pool 0 (.reserve 0 100 true), .pool 0 (.mapDone 0 (.ok ())),
    .op 0 (.ok ()), .op 0 (.ok ()), .op 0 (.error .cuda), .op 0 (.ok ()), .pool 0 (.release 0),
    .pool 0 (.finishRelease 0), .release 0 none]

theorem idle_slot_holds_nothing_encode :
    ∃ e : System (Fin 1) 1,
      Machine.run System.step (System.init 2 fun _ => 128) failedEncode = some e ∧
        e.slots.busy = [false] ∧ e.released 0 = 1 ∧ (e.pool.cache 0).pages = [] := by
  have hrun : ∃ e : System (Fin 1) 1,
      Machine.run System.step (System.init 2 fun _ => 128) failedEncode = some e ∧
        e.slots.busy = [false] ∧ e.released 0 = 1 := ⟨_, rfl, rfl, rfl⟩
  obtain ⟨e, he, hbusy, hcount⟩ := hrun
  obtain ⟨hidle, -⟩ := idle_slot_holds_nothing 2 (fun _ => 128) e ⟨failedEncode, he⟩
  exact ⟨e, he, hbusy, hcount, (hidle 0 (by rw [hbusy]; rfl)).1⟩

end VibeVoice.Engine
