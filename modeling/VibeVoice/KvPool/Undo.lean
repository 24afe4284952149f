import VibeVoice.KvPool.Stall

/-!
One call of `reserve_pages` from end to end, with any steps of other caches in between.

* `Reserving`: the runs of a call, up to its answer.
* `reservePass_cases`: what a pass under the lock can do.
* `Bounded.reachable`: no cache ever owns or waits for more than its `max_pages`.
* `Pending.next`, `Alone`: what holds of the caller while it waits, and of the pool while nobody
  else acts.
* `reserve_undoes`: a failing call leaves everything as it was, and a call that succeeds leaves
  the pages it was asked for behind the old ones.
-/

namespace VibeVoice.KvPool

open Machine Tally

section Calls

variable {ι : Type} [DecidableEq ι]

/-- A call of `reserve_pages` by the cache `c` in the state `s₀`, with the steps that others take
meanwhile, the answer once there is one, and the state so far. -/
inductive Reserving (s₀ : Pool ι) (c : ι) (nPositions : ℤ) (wait : Bool) :
    List (Act ι) → Outcome → Pool ι → Prop
  | call {o : Outcome} {s : Pool ι} (hs : step s₀ (.reserve c nPositions wait) = some (o, s)) :
      Reserving s₀ c nPositions wait [] o s
  | own {others : List (Act ι)} {a : Act ι} {o : Outcome} {s s' : Pool ι}
      (h : Reserving s₀ c nPositions wait others none s) (ha : a.cacheOf = c)
      (hs : step s a = some (o, s')) : Reserving s₀ c nPositions wait others o s'
  | other {others : List (Act ι)} {a : Act ι} {o : Outcome} {s s' : Pool ι}
      (h : Reserving s₀ c nPositions wait others none s) (ha : a.cacheOf ≠ c)
      (hs : step s a = some (o, s')) : Reserving s₀ c nPositions wait (others ++ [a]) none s'

variable {s₀ s s' : Pool ι} {c : ι} {need : ℕ} {wait counted : Bool} {myGen : UInt32}

/-- A pass under the lock gives up, sleeps, or pops its pages. -/
lemma reservePass_cases (s : Pool ι) (c : ι) (need : ℕ) (wait counted : Bool) (myGen : UInt32) :
    (reservePass s c need wait counted myGen = (some (.error .kvPoolExhausted),
        { s with nStalled := s.nStalled - (stillCounted s counted myGen).toInt }.setCache c
          { s.cache c with phase := .idle })) ∨
      (∃ counted' myGen', (counted' = true → myGen' = s.stallGen) ∧
        reservePass s c need wait counted myGen = (none,
          { s with nStalled := s.nStalled - (stillCounted s counted myGen).toInt +
              counted'.toInt }.setCache c
            { s.cache c with phase := .asleep need counted' myGen' false })) ∨
      need ≤ s.nFree ∧ reservePass s c need wait counted myGen = (none,
        { s with
          nStalled := s.nStalled - (stillCounted s counted myGen).toInt
          nHolders := s.nHolders + (s.cache c).pages.isEmpty.toInt
          freeStack := s.freeStack.drop need }.setCache c
        { s.cache c with phase := .mapping (s.freeStack.take need) }) := by
  by_cases hshort : s.nFree < need
  · rw [reservePass, if_pos hshort]
    by_cases hgive : (!wait || hopeless s (s.cache c) need (stillCounted s counted myGen)) = true
    · rw [if_pos hgive]
      exact .inl rfl
    · rw [if_neg hgive]
      by_cases hnew : (!(s.cache c).pages.isEmpty && !stillCounted s counted myGen) = true
      · rw [if_pos hnew]
        have hnot : stillCounted s counted myGen = false := by
          simpa using (Bool.and_eq_true_iff.mp hnew).2
        refine .inr (.inl ⟨true, s.stallGen, fun _ => rfl, ?_⟩)
        rw [hnot]
        simp
      · rw [if_neg hnew]
        refine .inr (.inl ⟨stillCounted s counted myGen, myGen, fun hstill => ?_, ?_⟩)
        · exact (beq_iff_eq.mp (Bool.and_eq_true_iff.mp hstill).2).symm
        · rw [sub_add_cancel]
  · rw [reservePass, if_neg hshort]
    exact .inr (.inr ⟨not_lt.mp hshort, rfl⟩)

/-- A step leaves the caches of the others alone, up to a wake-up. -/
lemma step_cache {a : Act ι} {o : Outcome} (hs : step s a = some (o, s')) (ha : a.cacheOf ≠ c) :
    s'.cache c = s.cache c ∨ s'.cache c = (s.cache c).wake := by
  have heff := step_effect hs
  generalize a.cacheOf = d at heff ha
  generalize a.returns s = ret at heff
  have hupdate : ∀ k, Function.update s.cache d k c = s.cache c := fun k =>
    Function.update_of_ne ha.symm _ _
  cases heff with
  | skip => exact .inl rfl
  | own | refuse | stall | doze | grant | commit => exact .inl (hupdate _)
  | unmap | giveBack => exact .inr (congrArg Cache.wake (hupdate _))

/-! ### The size of a cache -/

/-- The pages a cache owns or waits for. -/
def Cache.claims (k : Cache) : ℕ := k.pages.length + k.popped.length + k.need

@[simp] lemma Cache.wake_popped (k : Cache) : k.wake.popped = k.popped := by
  cases h : k.phase <;> simp [wake, popped, h]

@[simp] lemma Cache.wake_maxSeqLen (k : Cache) : k.wake.maxSeqLen = k.maxSeqLen := by
  cases h : k.phase <;> simp [wake, h]

@[simp] lemma Cache.wake_claims (k : Cache) : k.wake.claims = k.claims := by
  simp [claims]

lemma Cache.pages_le_claims (k : Cache) : k.pages.length ≤ k.claims :=
  (Nat.le_add_right ..).trans (Nat.le_add_right ..)

lemma pagesFor_mono {m n : ℤ} (h : m ≤ n) : pagesFor m ≤ pagesFor n :=
  Int.tdiv_le_tdiv (by decide) (by omega)

/-- The caches stay within the pages of their longest sequence. -/
def Bounded (maxSeqLen : ι → ℤ) (s : Pool ι) : Prop :=
  ∀ c, (s.cache c).maxSeqLen = maxSeqLen c ∧ ((s.cache c).claims : ℤ) ≤ pagesFor (maxSeqLen c)

variable {maxSeqLen : ι → ℤ}

lemma Bounded.setCache {k : Cache} (h : Bounded maxSeqLen s)
    (hs : s'.cache = Function.update s.cache c k)
    (hlen : k.maxSeqLen = (s.cache c).maxSeqLen)
    (hk : (k.claims : ℤ) ≤ pagesFor (maxSeqLen c)) : Bounded maxSeqLen s' := by
  intro d
  rw [hs]
  by_cases hd : d = c
  · subst hd
    rw [Function.update_self]
    exact ⟨hlen.trans (h d).1, hk⟩
  · rw [Function.update_of_ne hd]
    exact h d

omit [DecidableEq ι] in
lemma Bounded.broadcast (h : Bounded maxSeqLen s) : Bounded maxSeqLen s.broadcast := fun d => by
  simpa [Pool.broadcast] using h d

/-- A pass claims what it was called for, or gives up. -/
lemma Bounded.reservePass (h : Bounded maxSeqLen s)
    (hneed : (((s.cache c).pages.length + need : ℕ) : ℤ) ≤ pagesFor (maxSeqLen c)) :
    Bounded maxSeqLen (reservePass s c need wait counted myGen).2 := by
  rcases reservePass_cases s c need wait counted myGen with
    hpass | ⟨counted', myGen', -, hpass⟩ | ⟨-, hpass⟩
  · rw [hpass]
    refine h.setCache rfl rfl (le_trans ?_ hneed)
    simp [Cache.claims, Cache.popped, Cache.need]
  · rw [hpass]
    refine h.setCache rfl rfl (le_trans ?_ hneed)
    simp [Cache.claims, Cache.popped, Cache.need]
  · rw [hpass]
    refine h.setCache rfl rfl (le_trans ?_ hneed)
    have htake : (s.freeStack.take need).length ≤ need := List.length_take_le ..
    simp only [Cache.claims, Cache.popped, Cache.need]
    omega

/-- A release drops claims. -/
lemma Bounded.kvCacheRelease (h : Bounded maxSeqLen s) (free : Bool) :
    Bounded maxSeqLen (kvCacheRelease s c free).2 := by
  have hpages : ((s.cache c).pages.length : ℤ) ≤ pagesFor (maxSeqLen c) :=
    le_trans (by exact_mod_cast (s.cache c).pages_le_claims) (h c).2
  rw [KvPool.kvCacheRelease]
  by_cases hempty : (s.cache c).pages.isEmpty
  · rw [if_pos hempty]
    refine h.setCache rfl rfl (le_trans ?_ hpages)
    cases free <;> simp [Cache.claims, Cache.popped, Cache.need]
  · rw [if_neg hempty]
    refine Bounded.broadcast (h.setCache rfl rfl (le_trans ?_ hpages))
    simp [Cache.claims, Cache.popped, Cache.need]

lemma Bounded.next {a : Act ι} {o : Outcome} (h : Bounded maxSeqLen s)
    (hs : step s a = some (o, s')) : Bounded maxSeqLen s' := by
  cases a with
  | reserve c nPositions wait =>
    cases hp : (s.cache c).phase <;> simp only [step, hp, Option.some.injEq, reduceCtorEq] at hs
    simp only [reservePages] at hs
    split_ifs at hs with hlen hwant
    · cases hs
      exact h
    · cases hs
      exact h
    · have hmono := pagesFor_mono (not_lt.mp hlen)
      rw [(h c).1] at hmono
      obtain rfl := congrArg Prod.snd hs
      exact h.reservePass (by omega)
  | wakeUp c =>
    cases hp : (s.cache c).phase <;> simp only [step, hp, Option.some.injEq, reduceCtorEq] at hs
    obtain rfl := congrArg Prod.snd hs
    refine h.reservePass (le_trans ?_ (h c).2)
    simp [Cache.claims, Cache.popped, Cache.need, hp]
  | mapDone c r =>
    cases hp : (s.cache c).phase <;> simp only [step, hp, Option.some.injEq, reduceCtorEq] at hs
    cases r with
    | ok u =>
      cases hs
      refine h.setCache rfl rfl (le_trans ?_ (h c).2)
      simp [Cache.claims, Cache.popped, Cache.need, hp]
    | error st =>
      cases hs
      refine Bounded.broadcast (h.setCache rfl rfl (le_trans ?_ (h c).2))
      exact_mod_cast (s.cache c).pages_le_claims
  | release c | reset c | free c =>
    cases hp : (s.cache c).phase <;> simp only [step, hp, Option.some.injEq, reduceCtorEq] at hs
    obtain rfl := congrArg Prod.snd hs
    exact h.kvCacheRelease _
  | finishRelease c =>
    cases hp : (s.cache c).phase <;>
      simp only [step, hp, Option.some.injEq, Prod.mk.injEq, reduceCtorEq] at hs
    obtain ⟨-, rfl⟩ := hs
    rename_i free
    refine h.setCache rfl rfl (le_trans ?_ (h c).2)
    cases free <;> exact Int.natCast_nonneg (s.cache c).claims
  | setNoWait c noWait =>
    cases hp : (s.cache c).phase <;>
      simp only [step, hp, Option.some.injEq, Prod.mk.injEq, reduceCtorEq] at hs
    obtain ⟨-, rfl⟩ := hs
    refine h.setCache rfl rfl (le_trans ?_ (h c).2)
    simp [Cache.claims, Cache.popped, Cache.need, hp]

omit [DecidableEq ι] in
lemma Bounded.fresh (n : ℕ) (hmax : ∀ c, 0 < maxSeqLen c) :
    Bounded maxSeqLen (Pool.fresh n maxSeqLen) := fun c => by
  refine ⟨rfl, ?_⟩
  have hpos : pagesFor 1 ≤ pagesFor (maxSeqLen c) := pagesFor_mono (hmax c)
  have hone : pagesFor 1 = 1 := rfl
  show ((0 : ℕ) : ℤ) ≤ _
  omega

/-- No cache ever owns or waits for more than its `max_pages`. -/
lemma Bounded.reachable {n : ℕ} (hmax : ∀ c, 0 < maxSeqLen c)
    (h : Reachable step (Pool.fresh n maxSeqLen) s) : Bounded maxSeqLen s :=
  h.induct (Bounded.fresh n hmax) fun _ _ _ _ ih hs => ih.next hs

/-! ### The caller -/

/-- What holds of the caller until it has its answer: it waits for what it lacks, or maps it. -/
def Pending (s₀ : Pool ι) (c : ι) (nPositions : ℤ) (s : Pool ι) : Prop :=
  nPositions ≤ (s₀.cache c).maxSeqLen ∧ (s.cache c).pages = (s₀.cache c).pages ∧
    ∃ need, 0 < need ∧ ((s₀.cache c).pages.length + need : ℕ) = pagesFor nPositions ∧
      ((∃ counted g w, (s.cache c).phase = .asleep need counted g w) ∨
        ∃ ids, ids.length = need ∧ (s.cache c).phase = .mapping ids)

/-- What an answer leaves the caller with. -/
def Answered (s₀ : Pool ι) (c : ι) (nPositions : ℤ) (r : Except Status Unit) (s : Pool ι) : Prop :=
  (s.cache c).phase = .idle ∧
    match r with
    | .error _ => (s.cache c).pages = (s₀.cache c).pages
    | .ok () => nPositions ≤ (s₀.cache c).maxSeqLen ∧ (s₀.cache c).pages <+: (s.cache c).pages ∧
        ((s.cache c).pages.length : ℤ) = max ((s₀.cache c).pages.length : ℤ) (pagesFor nPositions)

/-- The caller, with or without an answer. -/
def Caller (s₀ : Pool ι) (c : ι) (nPositions : ℤ) (o : Outcome) (s : Pool ι) : Prop :=
  match o with
  | none => Pending s₀ c nPositions s
  | some r => Answered s₀ c nPositions r s

variable {nPositions : ℤ}

/-- A pass for what the caller lacks. -/
lemma Caller.reservePass (hlen : nPositions ≤ (s₀.cache c).maxSeqLen)
    (hpages : (s.cache c).pages = (s₀.cache c).pages) (hpos : 0 < need)
    (hneed : (((s₀.cache c).pages.length + need : ℕ) : ℤ) = pagesFor nPositions) :
    Caller s₀ c nPositions (reservePass s c need wait counted myGen).1
      (reservePass s c need wait counted myGen).2 := by
  rcases reservePass_cases s c need wait counted myGen with
    hpass | ⟨counted', myGen', -, hpass⟩ | ⟨henough, hpass⟩
  · rw [hpass]
    refine ⟨?_, ?_⟩
    · simp [Pool.setCache]
    · simpa [Pool.setCache] using hpages
  · rw [hpass]
    refine ⟨hlen, ?_, need, hpos, hneed, .inl ⟨counted', myGen', false, ?_⟩⟩
    · simpa [Pool.setCache] using hpages
    · simp [Pool.setCache]
  · rw [hpass]
    refine ⟨hlen, ?_, need, hpos, hneed, .inr ⟨s.freeStack.take need, ?_, ?_⟩⟩
    · simpa [Pool.setCache] using hpages
    · exact List.length_take_of_le henough
    · simp [Pool.setCache]

/-- The caller on every run of its call. -/
lemma Reserving.caller {others : List (Act ι)} {o : Outcome}
    (h : Reserving s₀ c nPositions wait others o s) : Caller s₀ c nPositions o s := by
  induction h with
  | @call o s hs =>
    cases hp : (s₀.cache c).phase <;> simp only [step, hp, Option.some.injEq, reduceCtorEq] at hs
    simp only [reservePages] at hs
    split_ifs at hs with hlen hwant
    · cases hs
      exact ⟨hp, rfl⟩
    · cases hs
      refine ⟨hp, not_lt.mp hlen, List.prefix_rfl, ?_⟩
      exact (max_eq_left hwant).symm
    · obtain ⟨rfl, rfl⟩ := Prod.mk.inj hs
      exact Caller.reservePass (not_lt.mp hlen) rfl (by omega) (by omega)
  | @own others a o s s' h ha hs ih =>
    obtain ⟨hlen, hpages, need, hpos, hneed, ⟨counted, g, w, hp⟩ | ⟨ids, hids, hp⟩⟩ := ih
    · subst ha
      cases a with
      | wakeUp c =>
        simp only [Act.cacheOf] at *
        simp only [step, hp, Option.some.injEq] at hs
        obtain ⟨rfl, rfl⟩ := Prod.mk.inj hs
        exact Caller.reservePass hlen hpages hpos hneed
      | reserve | mapDone | release | reset | free | finishRelease | setNoWait =>
        simp only [Act.cacheOf] at hp
        simp only [step, hp, reduceCtorEq] at hs
    · subst ha
      cases a with
      | mapDone c r =>
        simp only [Act.cacheOf] at *
        simp only [step, hp, Option.some.injEq] at hs
        cases r with
        | ok u =>
          cases hs
          refine ⟨by simp [Pool.setCache], hlen, ?_, ?_⟩
          · simp [Pool.setCache, hpages]
          · simp only [Pool.setCache, Function.update_self, List.length_append, hpages]
            omega
        | error st =>
          cases hs
          refine ⟨?_, ?_⟩
          · simp [Pool.setCache, Pool.broadcast, Cache.wake]
          · simp [Pool.setCache, Pool.broadcast, hpages]
      | reserve | wakeUp | release | reset | free | finishRelease | setNoWait =>
        simp only [Act.cacheOf] at hp
        simp only [step, hp, reduceCtorEq] at hs
  | @other others a o s s' h ha hs ih =>
    obtain ⟨hlen, hpages, need, hpos, hneed, hphase⟩ := ih
    rcases step_cache hs ha with hc | hc
    · refine ⟨hlen, ?_, need, hpos, hneed, ?_⟩
      · rw [hc, hpages]
      · rwa [hc]
    · refine ⟨hlen, ?_, need, hpos, hneed, ?_⟩
      · rw [hc, Cache.wake_pages, hpages]
      · rw [hc]
        rcases hphase with ⟨counted, g, w, hp⟩ | ⟨ids, hids, hp⟩
        · exact .inl ⟨counted, g, true, by simp [Cache.wake, hp]⟩
        · exact .inr ⟨ids, hids, by simp [Cache.wake, hp]⟩

/-! ### The pool while nobody else acts -/

/-- The counters and the free stack of the pool, for a caller with or without an answer. -/
def Alone (s₀ : Pool ι) (c : ι) (o : Outcome) (s : Pool ι) : Prop :=
  match o with
  | none =>
    s.stallGen = s₀.stallGen ∧ (s.cache c).pages = (s₀.cache c).pages ∧
      ((∃ need counted g w, (s.cache c).phase = .asleep need counted g w ∧
          (counted = true → g = s.stallGen) ∧ s.freeStack = s₀.freeStack ∧
          s.nHolders = s₀.nHolders ∧ s.nStalled = s₀.nStalled + counted.toInt) ∨
        ∃ ids, (s.cache c).phase = .mapping ids ∧ ids ++ s.freeStack = s₀.freeStack ∧
          s.nHolders = s₀.nHolders + (s₀.cache c).pages.isEmpty.toInt)
  | some (.error _) =>
    s.freeStack = s₀.freeStack ∧ s.nHolders = s₀.nHolders ∧
      (s.nStalled = s₀.nStalled ∨ s.nStalled = 0)
  | some (.ok ()) => True

lemma Alone.reservePass (hgen : s.stallGen = s₀.stallGen)
    (hpages : (s.cache c).pages = (s₀.cache c).pages) (hfree : s.freeStack = s₀.freeStack)
    (hhold : s.nHolders = s₀.nHolders)
    (hstall : s.nStalled = s₀.nStalled + (stillCounted s counted myGen).toInt) :
    Alone s₀ c (reservePass s c need wait counted myGen).1
      (reservePass s c need wait counted myGen).2 := by
  rcases reservePass_cases s c need wait counted myGen with
    hpass | ⟨counted', myGen', hgen', hpass⟩ | ⟨-, hpass⟩
  · rw [hpass]
    refine ⟨hfree, hhold, .inl ?_⟩
    simp only [Pool.setCache]
    omega
  · rw [hpass]
    refine ⟨hgen, ?_, .inl ⟨need, counted', myGen', false, ?_, hgen', hfree, hhold, ?_⟩⟩
    · simpa [Pool.setCache] using hpages
    · simp [Pool.setCache]
    · simp only [Pool.setCache]
      omega
  · rw [hpass]
    refine ⟨hgen, ?_, .inr ⟨s.freeStack.take need, ?_, ?_, ?_⟩⟩
    · simpa [Pool.setCache] using hpages
    · simp [Pool.setCache]
    · exact (List.take_append_drop ..).trans hfree
    · show s.nHolders + _ = _
      rw [hhold, hpages]

lemma Reserving.alone {others : List (Act ι)} {o : Outcome}
    (h : Reserving s₀ c nPositions wait others o s) : others = [] → Alone s₀ c o s := by
  induction h with
  | @call o s hs =>
    intro _
    cases hp : (s₀.cache c).phase <;> simp only [step, hp, Option.some.injEq, reduceCtorEq] at hs
    simp only [reservePages] at hs
    split_ifs at hs with hlen hwant
    · cases hs
      exact ⟨rfl, rfl, .inl rfl⟩
    · cases hs
      exact trivial
    · obtain ⟨rfl, rfl⟩ := Prod.mk.inj hs
      exact Alone.reservePass rfl rfl rfl rfl (by simp [stillCounted])
  | @own others a o s s' h ha hs ih =>
    intro hnone
    obtain ⟨hgen, hpages, ⟨need, counted, g, w, hp, hcount, hfree, hhold, hstall⟩ |
      ⟨ids, hp, hfree, hhold⟩⟩ := ih hnone
    · subst ha
      cases a with
      | wakeUp c =>
        simp only [Act.cacheOf] at *
        simp only [step, hp, Option.some.injEq] at hs
        obtain ⟨rfl, rfl⟩ := Prod.mk.inj hs
        have hstill : stillCounted s counted g = counted := by
          cases counted with
          | false => rfl
          | true => simp [stillCounted, hcount rfl]
        exact Alone.reservePass hgen hpages hfree hhold (by rw [hstill, hstall])
      | reserve | mapDone | release | reset | free | finishRelease | setNoWait =>
        simp only [Act.cacheOf] at hp
        simp only [step, hp, reduceCtorEq] at hs
    · subst ha
      cases a with
      | mapDone c r =>
        simp only [Act.cacheOf] at *
        simp only [step, hp, Option.some.injEq] at hs
        cases r with
        | ok u =>
          cases hs
          exact trivial
        | error st =>
          cases hs
          refine ⟨hfree, ?_, .inr rfl⟩
          show s.nHolders - _ = _
          rw [hhold, hpages, add_sub_cancel_right]
      | reserve | wakeUp | release | reset | free | finishRelease | setNoWait =>
        simp only [Act.cacheOf] at hp
        simp only [step, hp, reduceCtorEq] at hs
  | other => exact fun hnone => absurd hnone (by simp)

/-- A call starts outside the pool. -/
lemma Reserving.idle {others : List (Act ι)} {o : Outcome}
    (h : Reserving s₀ c nPositions wait others o s) : (s₀.cache c).phase = .idle := by
  induction h with
  | call hs =>
    cases hp : (s₀.cache c).phase <;> simp only [step, hp, reduceCtorEq] at hs
    rfl
  | own _ _ _ ih | other _ _ _ ih => exact ih

lemma Reserving.reachable {others : List (Act ι)} {o : Outcome}
    (h : Reserving s₀ c nPositions wait others o s) : Reachable step s₀ s := by
  induction h with
  | call hs => exact (Reachable.refl s₀).next hs
  | own _ _ hs ih | other _ _ hs ih => exact ih.next hs

end Calls

/-! ### The whole call -/

section Undo

variable {ι : Type} [Fintype ι] [DecidableEq ι]

/-- What a failing call leaves: its own pages and page count; the holders and the free pages up to
what others did; no count of its own among the stalled; and all as it was when nobody else acted. -/
structure Undone (s₀ : Pool ι) (c : ι) (others : List (Act ι)) (s : Pool ι) : Prop where
  pages : (s.cache c).pages = (s₀.cache c).pages
  owned : (s.cache c).owned = (s₀.cache c).owned
  holders : s.nHolders - tally Cache.holds (fun d : {d // d ≠ c} => s.cache d) =
    s₀.nHolders - tally Cache.holds (fun d : {d // d ≠ c} => s₀.cache d)
  free : (s.freeStack : Multiset ℕ) + ∑ d : {d // d ≠ c}, ((s.cache d).owned : Multiset ℕ) =
    s₀.freeStack + ∑ d : {d // d ≠ c}, ((s₀.cache d).owned : Multiset ℕ)
  stalled : s.nStalled ≤ tally (Cache.blocked s.stallGen) (fun d : {d // d ≠ c} => s.cache d)
  alone : others = [] → s.freeStack = s₀.freeStack ∧ s.nHolders = s₀.nHolders ∧
    (s.nStalled = s₀.nStalled ∨ s.nStalled = 0)

/-- A count, with one part apart. -/
lemma tally_eq_add (p : Cache → Bool) (g : ι → Cache) (c : ι) :
    tally p g = (p (g c)).toInt + tally p (fun d : {d // d ≠ c} => g d) := by
  rw [tally, Fintype.sum_eq_add_sum_subtype_ne _ c, tally]
  cases p (g c) <;> rfl

/-- A caller that owns what it owned before has undone its call. -/
lemma Undone.of_ledger {n : ℕ} {s₀ s : Pool ι} {c : ι} {others : List (Act ι)} (h₀ : Ledger n s₀)
    (h : Ledger n s) (hst : Stalls s) (hidle₀ : (s₀.cache c).phase = .idle)
    (hidle : (s.cache c).phase = .idle) (hpages : (s.cache c).pages = (s₀.cache c).pages)
    (halone : others = [] → s.freeStack = s₀.freeStack ∧ s.nHolders = s₀.nHolders ∧
      (s.nStalled = s₀.nStalled ∨ s.nStalled = 0)) : Undone s₀ c others s := by
  have howned : (s.cache c).owned = (s₀.cache c).owned := by
    rw [Cache.owned_of_idle hidle, Cache.owned_of_idle hidle₀, hpages]
  refine ⟨hpages, howned, ?_, ?_, ?_, halone⟩
  · have hhold : (s.cache c).holds = (s₀.cache c).holds := by rw [Cache.holds, Cache.holds, howned]
    rw [h.holders, h₀.holders, tally_eq_add _ s.cache c, tally_eq_add _ s₀.cache c, hhold]
    omega
  · have hparts := h.parts.trans h₀.parts.symm
    rw [Fintype.sum_eq_add_sum_subtype_ne _ c, Fintype.sum_eq_add_sum_subtype_ne _ c, howned,
      add_left_comm, add_left_comm (s₀.freeStack : Multiset ℕ)] at hparts
    exact add_left_cancel hparts
  · have hawake : (s.cache c).blocked s.stallGen = false := by
      rw [Cache.blocked, Cache.dozing, hidle, Bool.and_false]
    have hle := hst.le
    rw [tally_eq_add _ s.cache c, hawake] at hle
    simpa using hle

/-- **A failing reservation changes nothing, and one that succeeds adds the pages it was asked
for**, in every reachable state and whatever other caches do until the call returns. -/
theorem reserve_undoes (n : ℕ) (maxSeqLen : ι → ℤ) (hmax : ∀ d, 0 < maxSeqLen d) (s₀ s : Pool ι)
    (hs₀ : Reachable step (Pool.fresh n maxSeqLen) s₀) (c : ι) (nPositions : ℤ) (wait : Bool)
    (others : List (Act ι)) (r : Except Status Unit)
    (h : Reserving s₀ c nPositions wait others (some r) s) :
    match r with
    | .error _ => Undone s₀ c others s
    | .ok () => (s₀.cache c).pages <+: (s.cache c).pages ∧
        ((s.cache c).pages.length : ℤ) = max ((s₀.cache c).pages.length : ℤ) (pagesFor nPositions) ∧
        ((s.cache c).pages.length : ℤ) ≤ pagesFor (maxSeqLen c) := by
  have hs := hs₀.trans h.reachable
  have hcaller : Answered s₀ c nPositions r s := h.caller
  cases r with
  | error st =>
    exact .of_ledger (Ledger.reachable hs₀) (Ledger.reachable hs) (Stalls.reachable hs) h.idle
      hcaller.1 hcaller.2 h.alone
  | ok u =>
    obtain ⟨-, -, hold, hlen⟩ := hcaller
    refine ⟨hold, hlen, ?_⟩
    have hbounded := (Bounded.reachable hmax hs c).2
    exact le_trans (by exact_mod_cast (s.cache c).pages_le_claims) hbounded

/-- A mapping fails behind the reservation of another cache. -/
theorem reserve_undoes_mapping :
    ∃ s : Pool (Fin 2), Undone (Pool.fresh 2 fun _ => 64) 1 [.reserve 0 64 false] s ∧
      (s.cache 0).phase = .mapping [1] ∧ s.freeStack = [0] :=
  ⟨_, reserve_undoes 2 (fun _ : Fin 2 => 64) (by decide) _ _ (Reachable.refl _) 1 64 true
    [.reserve 0 64 false] (.error .outOfMemory)
    (.own (a := .mapDone 1 (.error ⟨.outOfMemory, by decide⟩))
      (.other (a := .reserve 0 64 false) (.call rfl) (by decide) rfl) rfl rfl), rfl, rfl⟩

end Undo

end VibeVoice.KvPool
