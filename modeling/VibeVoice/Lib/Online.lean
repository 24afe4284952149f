import Mathlib.Data.Finset.Fold
import VibeVoice.Lib.Softmax

/-!
Softmax in one pass, in exact arithmetic.

The weights are taken against the largest score so far.  A sentinel below every score stands for
the largest of no scores.

* `Running`: the state of a pass.  `running`: the state after a set of scores.
* `take_running`, `absorb_running`: one more score, and a tile of scores at once.
* `merge_running`: the states of disjoint sets, put together.
* `mean_running`: the quotient is the mean.
-/

namespace Softmax

open Finset

/-- The largest score so far, the sum of the weights against it and that of the weighted vectors. -/
@[ext] structure Running (R M : Type*) where
  m : R
  l : R
  o : M

section Exponential

variable {R : Type*} [Field R] [LinearOrder R] (E : Expo R)

lemma Expo.exp_zero : E.exp 0 = 1 := by
  have hsq : E.exp 0 * E.exp 0 = E.exp 0 * 1 := by rw [← E.exp_add, add_zero, mul_one]
  exact mul_left_cancel₀ (E.exp_pos 0).ne' hsq

/-- A weight, taken against something else. -/
lemma Expo.exp_rebase (a b c : R) : E.exp (a - b) * E.exp (c - a) = E.exp (c - b) := by
  rw [← E.exp_add]
  congr 1
  ring

end Exponential

/-! ### The largest score -/

section Largest

variable {R ι : Type*} [LinearOrder R] {low : R} {s : ι → R} {t u : Finset ι}

lemma ite_le_eq {N : Type*} {m : R} (x y : N) :
    (if m ≤ low then x else y) = if low < m then y else x := by
  rw [← ite_not]
  exact if_congr not_le rfl rfl

lemma low_le_fold : low ≤ t.fold max low s := (le_fold_max low).mpr (.inl le_rfl)

lemma le_fold {i : ι} (hi : i ∈ t) : s i ≤ t.fold max low s :=
  (le_fold_max (s i)).mpr (.inr ⟨i, hi, le_rfl⟩)

/-- The sentinel stands for no scores only. -/
lemma low_lt_fold (h : ∀ i ∈ t, low < s i) : low < t.fold max low s ↔ t.Nonempty := by
  constructor
  · intro hlt
    rw [nonempty_iff_ne_empty]
    rintro rfl
    exact lt_irrefl _ hlt
  · rintro ⟨i, hi⟩
    exact (h i hi).trans_le (le_fold hi)

/-- One of the scores is the largest. -/
lemma exists_eq_fold (h : ∀ i ∈ t, low < s i) (ht : t.Nonempty) :
    ∃ i ∈ t, s i = t.fold max low s := by
  rcases (le_fold_max (t.fold max low s)).mp le_rfl with hle | ⟨i, hi, hle⟩
  · exact absurd hle (not_le.mpr ((low_lt_fold h).mpr ht))
  · exact ⟨i, hi, (le_fold hi).antisymm hle⟩

lemma fold_biUnion {κ : Type*} [DecidableEq ι] {P : Finset κ} {f : κ → Finset ι} :
    (P.biUnion f).fold max low s = P.fold max low fun k => (f k).fold max low s := by
  refine le_antisymm ((fold_max_le _).mpr ⟨low_le_fold, fun i hi => ?_⟩)
    ((fold_max_le _).mpr ⟨low_le_fold, fun k hk => ?_⟩)
  · obtain ⟨k, hk, hik⟩ := mem_biUnion.mp hi
    exact (le_fold hik).trans (le_fold (s := fun k => (f k).fold max low s) hk)
  · exact (fold_max_le _).mpr
      ⟨low_le_fold, fun i hi => le_fold (mem_biUnion.mpr ⟨k, hk, hi⟩)⟩

lemma fold_union [DecidableEq ι] :
    (t ∪ u).fold max low s = max (t.fold max low s) (u.fold max low s) := by
  refine le_antisymm ((fold_max_le _).mpr ⟨low_le_fold.trans (le_max_left ..), fun i hi => ?_⟩) ?_
  · rcases mem_union.mp hi with h | h
    · exact (le_fold h).trans (le_max_left ..)
    · exact (le_fold h).trans (le_max_right ..)
  · refine max_le ((fold_max_le _).mpr ⟨low_le_fold, fun i hi => ?_⟩)
      ((fold_max_le _).mpr ⟨low_le_fold, fun i hi => ?_⟩)
    · exact le_fold (mem_union_left u hi)
    · exact le_fold (mem_union_right t hi)

end Largest

/-! ### The operations -/

variable {R ι κ M : Type*} [Field R] [LinearOrder R] [AddCommGroup M] [Module R M] (E : Expo R)
  (low : R)

/-- One more score and its vector. -/
def Running.take (s : R) (v : M) (r : Running R M) : Running R M :=
  let top := max r.m s
  let alpha := if low < r.m then E.exp (r.m - top) else 0
  let p := E.exp (s - top)
  { m := top
    l := r.l * alpha + p
    o := alpha • r.o + p • v }

/-- The states of some slices, put together.  A slice without scores is left out. -/
def merge (P : Finset κ) (r : κ → Running R M) : Running R M :=
  let top := P.fold max low fun k => (r k).m
  { m := top
    l := ∑ k ∈ P, if (r k).m ≤ low then 0 else E.exp ((r k).m - top) * (r k).l
    o := ∑ k ∈ P, if (r k).m ≤ low then 0 else E.exp ((r k).m - top) • (r k).o }

/-- The state after the scores of a set. -/
def running (s : ι → R) (v : ι → M) (t : Finset ι) : Running R M where
  m := t.fold max low s
  l := ∑ i ∈ t, E.exp (s i - t.fold max low s)
  o := ∑ i ∈ t, E.exp (s i - t.fold max low s) • v i

variable {E low} {s : ι → R} {v : ι → M} {t u : Finset ι}

@[simp] lemma running_empty : running E low s v ∅ = ⟨low, 0, 0⟩ := rfl

/-! ### Sums against another score -/

lemma mul_sum_rebase (a b : R) :
    E.exp (a - b) * ∑ i ∈ t, E.exp (s i - a) = ∑ i ∈ t, E.exp (s i - b) := by
  rw [mul_sum]
  exact sum_congr rfl fun i _ => E.exp_rebase a b (s i)

lemma smul_sum_rebase (a b : R) :
    E.exp (a - b) • ∑ i ∈ t, E.exp (s i - a) • v i = ∑ i ∈ t, E.exp (s i - b) • v i := by
  rw [smul_sum]
  exact sum_congr rfl fun i _ => by rw [smul_smul, E.exp_rebase]

/-- The sums of a pass, taken against another score.  Without scores so far they are zero, and what
they are multiplied by does not matter. -/
lemma rebase_running (h : ∀ i ∈ t, low < s i) (z b : R) :
    (running E low s v t).l * (if low < (running E low s v t).m then
        E.exp ((running E low s v t).m - b) else z) = ∑ i ∈ t, E.exp (s i - b) ∧
      (if low < (running E low s v t).m then E.exp ((running E low s v t).m - b) else z) •
        (running E low s v t).o = ∑ i ∈ t, E.exp (s i - b) • v i := by
  rw [mul_comm]
  split_ifs with hlow
  · exact ⟨mul_sum_rebase _ b, smul_sum_rebase _ b⟩
  · obtain rfl : t = ∅ := not_nonempty_iff_eq_empty.mp fun ht => hlow ((low_lt_fold h).mpr ht)
    simp

/-! ### One pass -/

/-- A tile of scores, or a single one. -/
theorem running_union [DecidableEq ι] (hd : Disjoint t u) (h : ∀ i ∈ t, low < s i) (z : R) :
    let top := max (running E low s v t).m (u.fold max low s)
    let alpha := if low < (running E low s v t).m then
      E.exp ((running E low s v t).m - top) else z
    running E low s v (t ∪ u) = ⟨top, (running E low s v t).l * alpha + ∑ i ∈ u, E.exp (s i - top),
      alpha • (running E low s v t).o + ∑ i ∈ u, E.exp (s i - top) • v i⟩ := by
  intro top alpha
  have htop : (t ∪ u).fold max low s = top := fold_union
  obtain ⟨hl, ho⟩ := rebase_running (E := E) (v := v) h z top
  refine Running.ext htop ?_ ?_
  · calc ∑ i ∈ t ∪ u, E.exp (s i - (t ∪ u).fold max low s)
        = ∑ i ∈ t, E.exp (s i - top) + ∑ i ∈ u, E.exp (s i - top) := by rw [htop, sum_union hd]
      _ = (running E low s v t).l * alpha + ∑ i ∈ u, E.exp (s i - top) := by rw [← hl]
  · calc ∑ i ∈ t ∪ u, E.exp (s i - (t ∪ u).fold max low s) • v i
        = ∑ i ∈ t, E.exp (s i - top) • v i + ∑ i ∈ u, E.exp (s i - top) • v i := by
          rw [htop, sum_union hd]
      _ = alpha • (running E low s v t).o + ∑ i ∈ u, E.exp (s i - top) • v i := by rw [← ho]

lemma take_running [DecidableEq ι] {i : ι} (hi : i ∉ t) (h : ∀ j ∈ t, low < s j)
    (hs : low < s i) :
    (running E low s v t).take E low (s i) (v i) = running E low s v (t ∪ {i}) := by
  have hmax : ({i} : Finset ι).fold max low s = s i := by
    rw [fold_singleton, max_eq_left hs.le]
  rw [running_union (disjoint_singleton_right.mpr hi) h 0, hmax, sum_singleton, sum_singleton]
  rfl

/-- A loop over some scores. -/
theorem foldl_take [DecidableEq ι] {l : List ι} (hl : l.Nodup) (h : ∀ j ∈ l, low < s j) :
    l.foldl (fun r j => r.take E low (s j) (v j)) ⟨low, 0, 0⟩ = running E low s v l.toFinset := by
  induction l using List.reverseRecOn with
  | nil => rfl
  | append_singleton l i ih =>
    rw [List.nodup_append_comm] at hl
    obtain ⟨hi, hnodup⟩ := List.nodup_cons.mp hl
    have hlow : ∀ j ∈ l, low < s j := fun j hj => h j (List.mem_append_left _ hj)
    rw [List.foldl_append, List.foldl_cons, List.foldl_nil, ih hnodup hlow,
      take_running (by rwa [List.mem_toFinset]) (fun j hj => hlow j (List.mem_toFinset.mp hj))
        (h i (List.mem_append_right _ (List.mem_singleton_self i))),
      List.toFinset_append]
    rfl

section Masked

variable [DecidableEq ι] {lanes : Finset κ} {f : κ → R} {pos : κ → ι} {vis : κ → Prop}
  [DecidablePred vis]

omit [Field R] in
lemma fold_masked (hf : ∀ k ∈ lanes, f k = if vis k then s (pos k) else low) :
    lanes.fold max low f = ((lanes.filter vis).image pos).fold max low s := by
  refine le_antisymm ((fold_max_le _).mpr ⟨low_le_fold, fun k hk => ?_⟩)
    ((fold_max_le _).mpr ⟨low_le_fold, fun i hi => ?_⟩)
  · rw [hf k hk]
    split_ifs with hvis
    · exact le_fold (mem_image_of_mem pos (mem_filter.mpr ⟨hk, hvis⟩))
    · exact low_le_fold
  · obtain ⟨k, hk, rfl⟩ := mem_image.mp hi
    obtain ⟨hk, hvis⟩ := mem_filter.mp hk
    calc s (pos k) = f k := by rw [hf k hk, if_pos hvis]
      _ ≤ lanes.fold max low f := le_fold hk

lemma sum_masked {N : Type*} [AddCommMonoid N] {g : ι → N} {q : κ → N}
    (hpos : Set.InjOn pos lanes) (hg : ∀ k ∈ lanes, q k = if vis k then g (pos k) else 0) :
    ∑ k ∈ lanes, q k = ∑ i ∈ (lanes.filter vis).image pos, g i := by
  rw [sum_congr rfl hg, ← sum_filter, sum_image]
  exact fun a ha b hb => hpos (mem_filter.mp ha).1 (mem_filter.mp hb).1

/-- A tile whose lanes have a score each, where the sentinel masks the ones that do not count. -/
theorem tile_running (hpos : Set.InjOn pos lanes)
    (hf : ∀ k ∈ lanes, f k = if vis k then s (pos k) else low)
    (hd : Disjoint t ((lanes.filter vis).image pos)) (h : ∀ i ∈ t, low < s i)
    (hlow : ∀ k ∈ lanes, vis k → low < s (pos k)) :
    let top := max (running E low s v t).m (lanes.fold max low f)
    let alpha := if low < top ∧ low < (running E low s v t).m then
      E.exp ((running E low s v t).m - top) else 1
    let p := fun k => if low < f k ∧ low < top then E.exp (f k - top) else 0
    running E low s v (t ∪ (lanes.filter vis).image pos) =
      ⟨if low < top then top else (running E low s v t).m,
        (running E low s v t).l * alpha + ∑ k ∈ lanes, p k,
        alpha • (running E low s v t).o + ∑ k ∈ lanes, p k • v (pos k)⟩ := by
  intro top alpha p
  have hle : low ≤ (running E low s v t).m := low_le_fold
  have hp : ∀ k ∈ lanes, p k = if vis k then E.exp (s (pos k) - top) else 0 := by
    intro k hk
    have htop : f k ≤ top := (le_fold hk).trans (le_max_right ..)
    simp only [p]
    rw [hf k hk] at htop ⊢
    by_cases hvis : vis k
    · rw [if_pos hvis] at htop ⊢
      rw [if_pos hvis, if_pos ⟨hlow k hk hvis, (hlow k hk hvis).trans_le htop⟩]
    · rw [if_neg hvis, if_neg hvis, if_neg fun hboth => lt_irrefl low hboth.1]
  have halpha : alpha = if low < (running E low s v t).m then
      E.exp ((running E low s v t).m - top) else 1 := by
    refine if_congr (and_iff_right_of_imp fun hm => ?_) rfl rfl
    exact hm.trans_le (le_max_left ..)
  have hm : (if low < top then top else (running E low s v t).m) = top := by
    split_ifs with hlt
    · rfl
    · exact le_antisymm (le_max_left ..) ((not_lt.mp hlt).trans hle)
  rw [running_union hd h 1, ← fold_masked hf, hm, halpha, ← sum_masked hpos hp,
    ← sum_masked hpos (q := fun k => p k • v (pos k)) fun k hk => by
      rw [hp k hk, ite_smul, zero_smul]]

end Masked

/-! ### Slices -/

/-- The states of disjoint sets make up that of their union. -/
theorem merge_running [DecidableEq ι] {P : Finset κ} {f : κ → Finset ι}
    (hd : Set.PairwiseDisjoint (P : Set κ) f) (h : ∀ k ∈ P, ∀ i ∈ f k, low < s i) :
    merge E low P (fun k => running E low s v (f k)) = running E low s v (P.biUnion f) := by
  have htop : P.fold max low (fun k => (running E low s v (f k)).m) =
      (P.biUnion f).fold max low s := fold_biUnion.symm
  refine Running.ext htop ?_ ?_
  · calc ∑ k ∈ P, (if (running E low s v (f k)).m ≤ low then 0 else
          E.exp ((running E low s v (f k)).m - P.fold max low fun k =>
            (running E low s v (f k)).m) * (running E low s v (f k)).l)
        = ∑ k ∈ P, ∑ i ∈ f k, E.exp (s i - (P.biUnion f).fold max low s) := by
          refine sum_congr rfl fun k hk => ?_
          rw [ite_le_eq, htop, ← (rebase_running (E := E) (v := v) (h k hk) 0 _).1, mul_ite,
            mul_zero, mul_comm]
      _ = (running E low s v (P.biUnion f)).l := (sum_biUnion hd).symm
  · calc ∑ k ∈ P, (if (running E low s v (f k)).m ≤ low then 0 else
          E.exp ((running E low s v (f k)).m - P.fold max low fun k =>
            (running E low s v (f k)).m) • (running E low s v (f k)).o)
        = ∑ k ∈ P, ∑ i ∈ f k, E.exp (s i - (P.biUnion f).fold max low s) • v i := by
          refine sum_congr rfl fun k hk => ?_
          rw [ite_le_eq, htop, ← (rebase_running (E := E) (v := v) (h k hk) 0 _).2, ite_smul,
            zero_smul]
      _ = (running E low s v (P.biUnion f)).o := (sum_biUnion hd).symm

omit [AddCommGroup M] [Module R M] in
/-- A dimension of the states of some slices. -/
lemma merge_apply {δ : Type*} {P : Finset κ} {r : κ → Running R R} {r' : κ → Running R (δ → R)}
    {d : δ} (h : ∀ k ∈ P, r k = ⟨(r' k).m, (r' k).l, (r' k).o d⟩) :
    merge E low P r =
      ⟨(merge E low P r').m, (merge E low P r').l, (merge E low P r').o d⟩ := by
  have htop : P.fold max low (fun k => (r k).m) = P.fold max low fun k => (r' k).m :=
    fold_congr fun k hk => by rw [h k hk]
  refine Running.ext htop ?_ ?_
  · simp only [merge, htop]
    exact sum_congr rfl fun k hk => by rw [h k hk]
  · simp only [merge, htop, Finset.sum_apply]
    exact sum_congr rfl fun k hk => by
      rw [h k hk]
      split_ifs <;> rfl

/-! ### The quotient -/

lemma mean_running : (running E low s v t).l⁻¹ • (running E low s v t).o = mean E s v t := by
  rw [← mean_add (-t.fold max low s) s v t, mean]
  simp only [running, sub_eq_neg_add]

/-- The largest score has weight one. -/
lemma one_le_running [IsStrictOrderedRing R] (h : ∀ i ∈ t, low < s i) (ht : t.Nonempty) :
    1 ≤ (running E low s v t).l := by
  obtain ⟨i, hi, hmax⟩ := exists_eq_fold h ht
  calc 1 = E.exp (s i - t.fold max low s) := by rw [hmax, sub_self, E.exp_zero]
    _ ≤ ∑ i ∈ t, E.exp (s i - t.fold max low s) :=
        single_le_sum (f := fun j => E.exp (s j - t.fold max low s))
          (fun j _ => (E.exp_pos _).le) hi

/-- The quotient, which is zero where the sum of the weights is too small. -/
theorem quotient_running [IsStrictOrderedRing R] {tiny : R} (hone : tiny < 1)
    (h : ∀ i ∈ t, low < s i) :
    (if tiny < (running E low s v t).l then (running E low s v t).l⁻¹ else 0) •
      (running E low s v t).o = mean E s v t := by
  rcases t.eq_empty_or_nonempty with rfl | ht
  · simp [mean]
  · rw [if_pos (hone.trans_le (one_le_running h ht)), mean_running]

end Softmax
