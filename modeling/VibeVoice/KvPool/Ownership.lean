import VibeVoice.Lib.Tally
import VibeVoice.KvPool.Effect

/-!
Who owns the pages of the pool.

Every step hands ids from one place to another, so the free stack and the pages of all caches
stay a partition of `{0, …, n-1}` (`Ledger.next`), and `n_holders` counts the caches with a
nonempty part (`Ledger.holders`).

`vv_kv_cache_release` returns the pages under the lock but writes `n_pages = 0` after it.  In
between, the ids are still in `pages[0..n_pages)` while another thread may already pop them, so
the partition is stated for `Cache.livePages`, which such a cache has none of;
`stale_pages_overlap` is a run to a state where the stale `n_pages` matters.
-/

namespace VibeVoice.KvPool

open Machine Tally

variable {ι : Type} [Fintype ι] [DecidableEq ι]

/-! ### The ledger -/

/-- The ledger of the pool: the parts sum up to the whole, the holders are counted, and a
reservation under way asks for at least one page. -/
structure Ledger (n : ℕ) (s : Pool ι) : Prop where
  total : s.nPages = n
  parts : (s.freeStack : Multiset ℕ) + ∑ c, ((s.cache c).owned : Multiset ℕ) = Multiset.range n
  holders : s.nHolders = tally Cache.holds s.cache
  wellFormed : ∀ c, (s.cache c).WellFormed

omit [DecidableEq ι] in
lemma Ledger.fresh (n : ℕ) (maxSeqLen : ι → ℤ) : Ledger n (Pool.fresh n maxSeqLen) where
  total := rfl
  parts := by simp [Pool.fresh, Cache.owned, Cache.livePages, Cache.popped, Multiset.range]
  holders := by
    simp [Pool.fresh, tally, Cache.holds, Cache.owned, Cache.livePages, Cache.popped]
  wellFormed := by simp [Pool.fresh, Cache.WellFormed]

/-- A step that hands ids between the free stack and the cache `c` keeps the ledger. -/
lemma Ledger.transfer {n : ℕ} {s s' : Pool ι} {c : ι} {k : Cache} (h : Ledger n s)
    (htotal : s'.nPages = s.nPages)
    (hcache : ∀ d, s'.cache d = Function.update s.cache c k d ∨
      s'.cache d = (Function.update s.cache c k d).wake)
    (hparts : (s'.freeStack : Multiset ℕ) + (k.owned : Multiset ℕ)
      = (s.freeStack : Multiset ℕ) + ((s.cache c).owned : Multiset ℕ))
    (hholders : s'.nHolders + (s.cache c).holds.toInt = s.nHolders + k.holds.toInt)
    (hk : k.WellFormed) : Ledger n s' := by
  have howned : ∀ d, (s'.cache d).owned = (Function.update s.cache c k d).owned := fun d => by
    rcases hcache d with hd | hd <;> simp [hd]
  refine ⟨htotal.trans h.total, ?_, ?_, ?_⟩
  · -- both sides with what `c` owned before, which then cancels
    have hsum := sum_update (fun k : Cache => (k.owned : Multiset ℕ)) s.cache c k
    have hcongr : ∑ d, ((s'.cache d).owned : Multiset ℕ)
        = ∑ d, (((Function.update s.cache c k) d).owned : Multiset ℕ) :=
      Finset.sum_congr rfl fun d _ => by rw [howned d]
    have hadd : (s'.freeStack : Multiset ℕ) + ∑ d, ((s'.cache d).owned : Multiset ℕ)
          + ((s.cache c).owned : Multiset ℕ)
        = (Multiset.range n) + ((s.cache c).owned : Multiset ℕ) := by
      calc (s'.freeStack : Multiset ℕ) + ∑ d, ((s'.cache d).owned : Multiset ℕ)
            + ((s.cache c).owned : Multiset ℕ)
          = (s'.freeStack : Multiset ℕ) +
              (∑ d, ((s.cache d).owned : Multiset ℕ) + (k.owned : Multiset ℕ)) := by
            rw [hcongr, add_assoc, hsum]
        _ = ((s'.freeStack : Multiset ℕ) + (k.owned : Multiset ℕ)) +
              ∑ d, ((s.cache d).owned : Multiset ℕ) := by abel
        _ = ((s.freeStack : Multiset ℕ) + ∑ d, ((s.cache d).owned : Multiset ℕ)) +
              ((s.cache c).owned : Multiset ℕ) := by rw [hparts]; abel
        _ = Multiset.range n + ((s.cache c).owned : Multiset ℕ) := by rw [h.parts]
    exact add_right_cancel hadd
  · have hcount : tally Cache.holds s'.cache = tally Cache.holds (Function.update s.cache c k) :=
      tally_congr fun d => by simp [Cache.holds, howned d]
    have hup := tally_update Cache.holds s.cache c k
    have hs := h.holders
    cases hk : k.holds <;> cases hc : (s.cache c).holds <;>
      simp only [hk, hc, Bool.toInt, cond_true, cond_false, if_true, Bool.false_eq_true,
        if_false] at hup hholders <;>
      omega
  · intro d
    have hwf : (Function.update s.cache c k d).WellFormed := by
      by_cases hdc : d = c
      · rw [hdc, Function.update_self]; exact hk
      · rw [Function.update_of_ne hdc]; exact h.wellFormed d
    rcases hcache d with hd | hd <;> simpa [hd] using hwf

/-- Every step keeps the ledger. -/
theorem Ledger.next {n : ℕ} {s s' : Pool ι} {a : Act ι} {o : Outcome} (h : Ledger n s)
    (hs : step s a = some (o, s')) : Ledger n s' := by
  have heff := step_effect hs
  generalize a.cacheOf = c at heff
  generalize a.returns s = ret at heff
  have hwf := h.wellFormed c
  cases heff with
  | skip => exact h
  | @own _ k hout hsame hawake hk =>
    refine h.transfer (c := c) (k := k) rfl (fun d => .inl rfl) ?_ ?_ hk
    · rw [hsame]; rfl
    · simp [Cache.holds_toInt, hsame, Pool.setCache]
  | refuse hk hshort hwhy =>
    refine h.transfer (c := c) rfl (fun d => .inl rfl) ?_ ?_ (by simp [Cache.WellFormed])
    · simp [hk.owned, Pool.setCache]
    · simp [Cache.holds_toInt, hk.owned, Pool.setCache]
  | stall hk hshort hholds hnot hrun =>
    refine h.transfer (c := c) rfl (fun d => .inl rfl) ?_ ?_ (hk.need_pos hwf)
    · simp [hk.owned, Pool.setCache]
    · simp [Cache.holds_toInt, hk.owned, Pool.setCache]
  | doze hk hshort hcount =>
    refine h.transfer (c := c) rfl (fun d => .inl rfl) ?_ ?_ (hk.need_pos hwf)
    · simp [hk.owned, Pool.setCache]
    · simp [Cache.holds_toInt, hk.owned, Pool.setCache]
  | @grant need wait counted myGen hk henough =>
    have hne : s.freeStack.take need ≠ [] := by
      have hpos := hk.need_pos hwf
      intro hnil
      have hlen := congrArg List.length hnil
      simp only [List.length_take, List.length_nil, Pool.nFree] at hlen henough
      omega
    refine h.transfer (c := c) rfl (fun d => .inl rfl) ?_ ?_ hne
    · -- the popped ids move from the top of the stack into the cache
      have hsplit := congrArg (fun l : List ℕ => (l : Multiset ℕ))
        (List.take_append_drop need s.freeStack)
      simp only [← Multiset.coe_add] at hsplit
      simp only [Pool.setCache, hk.owned, Cache.owned_mapping, ← Multiset.coe_add]
      rw [← hsplit]
      abel
    · cases hp : (s.cache c).pages <;>
        simp [Cache.holds_toInt, hk.owned, hp, hne, Pool.setCache]
  | commit hk =>
    refine h.transfer (c := c) rfl (fun d => .inl rfl) ?_ ?_ (by simp [Cache.WellFormed])
    · simp [Cache.owned_of_mapping hk, Pool.setCache]
    · simp [Cache.holds_toInt, Cache.owned_of_mapping hk, Pool.setCache]
  | @unmap ids st hk hst =>
    have hne : ids ≠ [] := by simpa [Cache.WellFormed, hk] using hwf
    refine h.transfer (c := c) rfl (fun d => .inr rfl) ?_ ?_ (by simp [Cache.WellFormed])
    · simp only [Pool.broadcast, Pool.setCache, Cache.owned_of_mapping hk, Cache.owned_idle,
        ← Multiset.coe_add]
      abel
    · cases hp : (s.cache c).pages <;>
        simp [Cache.holds_toInt, Cache.owned_of_mapping hk, hp, hne, Pool.broadcast,
          Pool.setCache]
  | giveBack hk hpages =>
    refine h.transfer (c := c) rfl (fun d => .inr rfl) ?_ ?_ (by simp [Cache.WellFormed])
    · simp only [Pool.broadcast, Pool.setCache, Cache.owned_of_idle hk, Cache.owned_releasing,
        ← Multiset.coe_add]
      simp [add_comm]
    · simp [Pool.broadcast, Pool.setCache, Cache.holds_toInt, Cache.owned_of_idle hk, hpages]

/-- The ledger is kept on every run from a new pool. -/
theorem Ledger.reachable {n : ℕ} {maxSeqLen : ι → ℤ} {s : Pool ι}
    (h : Reachable step (Pool.fresh n maxSeqLen) s) : Ledger n s :=
  h.induct (Ledger.fresh n maxSeqLen) fun _ _ _ _ ih hs => ih.next hs

/-! ### Conservation -/

/-- **The pages are conserved**, with `held` the pages a cache is taken to hold: the free stack,
the pages held and the pages being mapped are duplicate-free, pairwise disjoint and together
exactly `{0, …, n-1}`. -/
structure Conserved (held : Cache → List ℕ) (n : ℕ) (s : Pool ι) : Prop where
  free_nodup : s.freeStack.Nodup
  held_nodup : ∀ c, (held (s.cache c)).Nodup
  popped_nodup : ∀ c, (s.cache c).popped.Nodup
  free_held : ∀ c, s.freeStack.Disjoint (held (s.cache c))
  free_popped : ∀ c, s.freeStack.Disjoint (s.cache c).popped
  held_held : ∀ c d, c ≠ d → (held (s.cache c)).Disjoint (held (s.cache d))
  held_popped : ∀ c d, (held (s.cache c)).Disjoint (s.cache d).popped
  popped_popped : ∀ c d, c ≠ d → (s.cache c).popped.Disjoint (s.cache d).popped
  exactly : ∀ id, id < n ↔
    id ∈ s.freeStack ∨ ∃ c, id ∈ held (s.cache c) ∨ id ∈ (s.cache c).popped

/-- The ledger, read part by part. -/
theorem Ledger.conserved {n : ℕ} {s : Pool ι} (h : Ledger n s) :
    Conserved Cache.livePages n s := by
  have hall : ((s.freeStack : Multiset ℕ) + ∑ c, ((s.cache c).owned : Multiset ℕ)).Nodup := by
    rw [h.parts]; exact Multiset.nodup_range n
  have hsplit := Multiset.nodup_add.mp hall
  have howned : ∀ c, (s.cache c).owned.Nodup := nodup_of_sum_nodup hsplit.2.1
  have hfree : ∀ c, s.freeStack.Disjoint (s.cache c).owned := by
    intro c x hx hc
    exact Multiset.disjoint_left.mp hsplit.2.2 hx (mem_sum_iff.mpr ⟨c, hc⟩)
  have hpair : ∀ c d, c ≠ d → (s.cache c).owned.Disjoint (s.cache d).owned :=
    fun c d hcd => disjoint_of_sum_nodup hsplit.2.1 hcd
  have hlive : ∀ c x, x ∈ (s.cache c).livePages → x ∈ (s.cache c).owned :=
    fun c x hx => List.mem_append_left _ hx
  have hpop : ∀ c x, x ∈ (s.cache c).popped → x ∈ (s.cache c).owned :=
    fun c x hx => List.mem_append_right _ hx
  exact
    { free_nodup := hsplit.1
      held_nodup := fun c => (List.nodup_append.mp (howned c)).1
      popped_nodup := fun c => (List.nodup_append.mp (howned c)).2.1
      free_held := fun c x hx hc => hfree c hx (hlive c x hc)
      free_popped := fun c x hx hc => hfree c hx (hpop c x hc)
      held_held := fun c d hcd x hc hd => hpair c d hcd (hlive c x hc) (hlive d x hd)
      held_popped := by
        intro c d x hc hd
        by_cases hcd : c = d
        · subst hcd
          exact (List.nodup_append.mp (howned c)).2.2 x hc x hd rfl
        · exact hpair c d hcd (hlive c x hc) (hpop d x hd)
      popped_popped := fun c d hcd x hc hd => hpair c d hcd (hpop c x hc) (hpop d x hd)
      exactly := by
        intro id
        have hmem := congrArg (fun m : Multiset ℕ => id ∈ m) h.parts
        simp only [Multiset.mem_add, Multiset.mem_coe, mem_sum_iff, Multiset.mem_range,
          eq_iff_iff] at hmem
        rw [← hmem]
        simp only [Cache.owned, List.mem_append] }

omit [Fintype ι] [DecidableEq ι] in
/-- Different caches keep their positions in different rows. -/
lemma Conserved.rows_ne {n : ℕ} {s : Pool ι} (h : Conserved Cache.livePages n s) {c d : ι}
    (hcd : c ≠ d) {t u r : ℕ} (hc : (s.cache c).row t = some r) : (s.cache d).row u ≠ some r := by
  intro hd
  simp only [Cache.row, Option.map_eq_some_iff] at hc hd
  obtain ⟨i, hi, hri⟩ := hc
  obtain ⟨j, hj, hrj⟩ := hd
  have hij : i = j := by
    have ht := Nat.mod_lt t (show 0 < kvPageSize by decide)
    have hu := Nat.mod_lt u (show 0 < kvPageSize by decide)
    simp only [kvPageSize] at hri hrj ht hu
    omega
  subst hij
  exact h.held_held c d hcd (List.mem_of_getElem? hi) (List.mem_of_getElem? hj)

/-- **The pool conserves its pages on every run**: a cache counts for none of its pages once
the section of `vv_kv_cache_release` has returned them. -/
theorem pages_conserved (n : ℕ) (maxSeqLen : ι → ℤ) (s : Pool ι)
    (hs : Reachable step (Pool.fresh n maxSeqLen) s) :
    Conserved Cache.livePages n s ∧
      s.nHolders = ((Finset.univ.filter fun c => (s.cache c).owned ≠ []).card : ℤ) ∧
      ∀ c d t u r, c ≠ d → (s.cache c).row t = some r → (s.cache d).row u ≠ some r := by
  have hledger := Ledger.reachable hs
  refine ⟨hledger.conserved, ?_, fun c d t u r hcd hc => hledger.conserved.rows_ne hcd hc⟩
  rw [hledger.holders, tally_eq_card]
  simp [Cache.holds]

/-- Two caches of a pool of three pages, one mapping its second page. -/
theorem pages_conserved_mapping :
    ∃ s : Pool (Fin 2), (s.cache 1).phase = .mapping [1] ∧ Conserved Cache.livePages 3 s ∧
      s.nHolders = ((Finset.univ.filter fun c => (s.cache c).owned ≠ []).card : ℤ) ∧
      ∀ c d t u r, c ≠ d → (s.cache c).row t = some r → (s.cache d).row u ≠ some r :=
  ⟨_, rfl, pages_conserved 3 (fun _ : Fin 2 => 128) _
    ⟨[.reserve 0 64 false, .mapDone 0 (.ok ()), .reserve 1 1 true], rfl⟩⟩

/-- With `n_pages` as it stands in memory the parts do overlap: past the unlock of its release a
cache still lists a page that another cache has popped. -/
theorem stale_pages_overlap :
    ∃ s : Pool (Fin 2), Reachable step (Pool.fresh 1 fun _ => 64) s ∧
      0 ∈ (s.cache 0).pages ∧ 0 ∈ (s.cache 1).popped ∧ ¬ Conserved Cache.pages 1 s := by
  refine ⟨_, ⟨[.reserve 0 64 false, .mapDone 0 (.ok ()), .release 0, .reserve 1 64 false], rfl⟩,
    by decide, by decide, fun h => ?_⟩
  exact h.held_popped 0 1 (a := 0) (by decide) (by decide)

end VibeVoice.KvPool
