import Mathlib.Algebra.BigOperators.Group.Finset.Basic
import Mathlib.Data.Finset.Fold
import Mathlib.Data.Nat.Bitwise
import VibeVoice.Lib.Lanes

/-!
Threads of a block that work on one result.

* `strided`: the indices of a thread that goes on in steps. `perm_strided`: the threads share out all
  indices.
* `rounds`: a reduction in shared memory that halves the threads. `rounds_zero`: it folds the threads
  in the order of their reversed bits.
* `butterfly`: a sum over lanes that are exchanged in pairs. `butterfly_eq_sum`: every lane gets it.
* `exchange`: the same for other operations. `exchange_max`: every lane gets the largest value.
-/

namespace Warp

open Lanes Finset

/-! ### Loops in steps -/

/-- The indices of a loop `for (i = l; i < n; i += p)`. -/
def strided (n p l : ℕ) : List ℕ := (starts (n - l) p).map (l + ·)

lemma mem_strided {n p l i : ℕ} (hp : 0 < p) (hl : l < p) :
    i ∈ strided n p l ↔ i < n ∧ i % p = l := by
  rw [strided, List.mem_map]
  constructor
  · rintro ⟨s, hs, rfl⟩
    obtain ⟨hlt, hmod⟩ := (mem_starts hp).mp hs
    rw [Nat.add_mod, hmod, Nat.add_zero, Nat.mod_mod, Nat.mod_eq_of_lt hl]
    exact ⟨by omega, rfl⟩
  · rintro ⟨hi, hmod⟩
    have hle : i % p ≤ i := Nat.mod_le ..
    refine ⟨i - l, (mem_starts hp).mpr ⟨by omega, ?_⟩, by omega⟩
    have hdvd : p ∣ i - i % p := Nat.dvd_sub_mod i
    rw [hmod] at hdvd
    exact Nat.mod_eq_zero_of_dvd hdvd

lemma strided_pairwise {n p l : ℕ} (hp : 0 < p) : (strided n p l).Pairwise (· < ·) := by
  rw [strided, starts, List.map_map, List.pairwise_map]
  exact List.pairwise_lt_range.imp fun h => Nat.add_lt_add_left (Nat.mul_lt_mul_of_pos_right h hp) l

/-- Every index belongs to one thread. -/
lemma perm_strided {n p : ℕ} (hp : 0 < p) :
    ((List.range p).flatMap (strided n p)).Perm (List.range n) := by
  refine (List.perm_ext_iff_of_nodup ?_ List.nodup_range).mpr fun i => ?_
  · refine List.nodup_flatMap.mpr ⟨fun l _ => (strided_pairwise hp).imp Nat.ne_of_lt, ?_⟩
    refine List.pairwise_lt_range.imp_of_mem fun {l l'} hl hl' hlt => ?_
    rw [List.mem_range] at hl hl'
    intro i hi hi'
    have hmod := ((mem_strided hp hl).mp hi).2
    have hmod' := ((mem_strided hp hl').mp hi').2
    omega
  · rw [List.mem_flatMap, List.mem_range]
    constructor
    · rintro ⟨l, hl, hi⟩
      exact ((mem_strided hp (List.mem_range.mp hl)).mp hi).1
    · exact fun hi => ⟨i % p, List.mem_range.mpr (Nat.mod_lt i hp),
        (mem_strided hp (Nat.mod_lt i hp)).mpr ⟨hi, rfl⟩⟩

/-- Rows of `n` indices. -/
lemma range_mul (m n : ℕ) :
    (List.range m).flatMap (fun g => (List.range n).map (g * n + ·)) = List.range (m * n) := by
  induction m with
  | zero => rw [Nat.zero_mul, List.range_zero, List.flatMap_nil]
  | succ m ih =>
    rw [List.range_succ, List.flatMap_append, List.flatMap_singleton, ih, Nat.succ_mul,
      List.range_add]

lemma sum_map_range {M : Type} [AddCommMonoid M] (f : ℕ → M) (n : ℕ) :
    ((List.range n).map f).sum = ∑ i ∈ range n, f i := by
  induction n with
  | zero => rfl
  | succ n ih => rw [List.range_succ, List.map_append, List.sum_append, ih, sum_range_succ,
      List.map_singleton, List.sum_singleton]

/-! ### Halving -/

/-- The lowest `n` bits in the other order. -/
def bitRev : ℕ → ℕ → ℕ
  | 0, _ => 0
  | n + 1, q => bitRev n (q / 2) + q % 2 * 2 ^ n

lemma bitRev_lt (n q : ℕ) : bitRev n q < 2 ^ n := by
  induction n generalizing q with
  | zero => exact Nat.one_pos
  | succ n ih =>
    have hlow := ih (q / 2)
    rw [bitRev, Nat.pow_succ]
    rcases Nat.mod_two_eq_zero_or_one q with h | h <;> rw [h] <;> omega

/-- The highest bit becomes the lowest one. -/
lemma bitRev_add_pow {n q : ℕ} (hq : q < 2 ^ n) (b : ℕ) (hb : b < 2) :
    bitRev (n + 1) (q + b * 2 ^ n) = 2 * bitRev n q + b := by
  induction n generalizing q with
  | zero =>
    obtain rfl : q = 0 := by omega
    simp only [bitRev]
    omega
  | succ n ih =>
    have hpow : 2 ^ (n + 1) = 2 ^ n * 2 := Nat.pow_succ ..
    have hhalf : (q + b * 2 ^ (n + 1)) / 2 = q / 2 + b * 2 ^ n := by
      rw [hpow, ← mul_assoc, Nat.add_mul_div_right _ _ (by omega)]
    have hbit : (q + b * 2 ^ (n + 1)) % 2 = q % 2 := by
      rw [hpow, ← mul_assoc, Nat.add_mul_mod_self_right]
    rw [bitRev, hhalf, hbit, ih (by omega), bitRev, hpow]
    ring

lemma bitRev_bitRev {n q : ℕ} (hq : q < 2 ^ n) : bitRev n (bitRev n q) = q := by
  induction n generalizing q with
  | zero =>
    rw [bitRev]
    omega
  | succ n ih =>
    have hhalf : q / 2 < 2 ^ n := by
      rw [Nat.pow_succ] at hq
      omega
    calc bitRev (n + 1) (bitRev (n + 1) q)
        = bitRev (n + 1) (bitRev n (q / 2) + q % 2 * 2 ^ n) := rfl
      _ = 2 * bitRev n (bitRev n (q / 2)) + q % 2 :=
          bitRev_add_pow (bitRev_lt n _) _ (Nat.mod_lt q (by omega))
      _ = 2 * (q / 2) + q % 2 := by rw [ih hhalf]
      _ = q := Nat.div_add_mod q 2

section Halving

variable {β : Type} (op : β → β → β)

/-- The rounds of a reduction over `2 ^ n` cells: each thread of the lower half takes in its partner
of the upper half. -/
def rounds : ℕ → (ℕ → β) → ℕ → β
  | 0, sv => sv
  | n + 1, sv => rounds n fun t => if t < 2 ^ n then op (sv t) (sv (t + 2 ^ n)) else sv t

lemma foldr_pairs {ι : Type} {op : β → β → β} (hassoc : ∀ a b c, op (op a b) c = op a (op b c))
    (e : β) (f g : ι → β) (l : List ι) :
    (l.map fun q => op (f q) (g q)).foldr op e = (l.flatMap fun q => [f q, g q]).foldr op e := by
  induction l with
  | nil => rfl
  | cons q l ih =>
    rw [List.map_cons, List.foldr_cons, List.flatMap_cons, ih, hassoc]
    rfl

/-- The first thread ends with all cells, in the order of their reversed bits. -/
theorem rounds_zero {op : β → β → β} {e : β} (hassoc : ∀ a b c, op (op a b) c = op a (op b c))
    (hunit : ∀ a, op a e = a) (n : ℕ) (sv : ℕ → β) :
    rounds op n sv 0 = ((List.range (2 ^ n)).map fun q => sv (bitRev n q)).foldr op e := by
  induction n generalizing sv with
  | zero => exact (hunit (sv 0)).symm
  | succ n ih =>
    have hpairs : ((List.range (2 ^ (n + 1))).map fun q => sv (bitRev (n + 1) q)) =
        (List.range (2 ^ n)).flatMap fun q => [sv (bitRev n q), sv (bitRev n q + 2 ^ n)] := by
      rw [Nat.pow_succ, ← range_mul, List.map_flatMap]
      refine List.flatMap_congr fun q _ => ?_
      have heven : bitRev (n + 1) (q * 2 + 0) = bitRev n q := by
        rw [bitRev, Nat.add_zero, Nat.mul_div_cancel _ (by omega), Nat.mul_mod_left,
          Nat.zero_mul, Nat.add_zero]
      have hodd : bitRev (n + 1) (q * 2 + 1) = bitRev n q + 2 ^ n := by
        rw [bitRev, show (q * 2 + 1) / 2 = q by omega, show (q * 2 + 1) % 2 = 1 by omega,
          Nat.one_mul]
      calc ((List.range 2).map (q * 2 + ·)).map (fun q => sv (bitRev (n + 1) q))
          = [sv (bitRev (n + 1) (q * 2 + 0)), sv (bitRev (n + 1) (q * 2 + 1))] := rfl
        _ = [sv (bitRev n q), sv (bitRev n q + 2 ^ n)] := by rw [heven, hodd]
    rw [rounds, ih, hpairs, ← foldr_pairs hassoc]
    refine congrArg (List.foldr op e) (List.map_congr_left fun q _ => ?_)
    rw [if_pos (bitRev_lt n q)]

end Halving

/-! ### Exchanges -/

section Butterfly

variable {M : Type} [AddCommMonoid M]

/-- A sum over `2 ^ n` lanes, `v += __shfl_xor(v, off)` with halved offsets. -/
def butterfly : ℕ → (ℕ → M) → ℕ → M
  | 0, v => v
  | n + 1, v => butterfly n fun l => v l + v (l ^^^ 2 ^ n)

lemma xor_pow_of_lt {n i : ℕ} (hi : i < 2 ^ n) : i ^^^ 2 ^ n = i + 2 ^ n := by
  refine Nat.eq_of_testBit_eq fun j => ?_
  rw [Nat.testBit_xor, Nat.testBit_two_pow, Nat.add_comm]
  rcases Nat.lt_trichotomy j n with hj | rfl | hj
  · rw [Nat.testBit_two_pow_add_gt hj, decide_eq_false (by omega), Bool.xor_false]
  · rw [Nat.testBit_two_pow_add_eq, Nat.testBit_lt_two_pow hi]
    simp
  · have hle : 2 ^ n + i < 2 ^ j := by
      calc 2 ^ n + i < 2 ^ n * 2 := by omega
        _ = 2 ^ (n + 1) := (Nat.pow_succ ..).symm
        _ ≤ 2 ^ j := Nat.pow_le_pow_right (by omega) hj
    rw [Nat.testBit_lt_two_pow hle, Nat.testBit_lt_two_pow (by omega), decide_eq_false (by omega)]
    rfl

/-- Every lane ends with the sum. -/
theorem butterfly_eq_sum (n : ℕ) (v : ℕ → M) (l : ℕ) :
    butterfly n v l = ∑ i ∈ range (2 ^ n), v (l ^^^ i) := by
  induction n generalizing v with
  | zero => simp [butterfly]
  | succ n ih =>
    rw [butterfly, ih, Nat.pow_succ, Nat.mul_two, sum_range_add, sum_add_distrib]
    refine congrArg (_ + ·) (sum_congr rfl fun i hi => ?_)
    rw [Nat.xor_assoc, xor_pow_of_lt (mem_range.mp hi), Nat.add_comm]

end Butterfly

section Exchange

variable {α M : Type} [AddCommMonoid M]

/-- `v = op(v, __shfl_xor(v, off))` with halved offsets. -/
def exchange (op : α → α → α) : ℕ → (ℕ → α) → ℕ → α
  | 0, v => v
  | n + 1, v => exchange op n fun l => op (v l) (v (l ^^^ 2 ^ n))

/-- A lane meets every lane. -/
lemma exists_xor {n l i : ℕ} (hl : l < 2 ^ n) (hi : i < 2 ^ n) : ∃ j < 2 ^ n, l ^^^ j = i :=
  ⟨l ^^^ i, Nat.xor_lt_two_pow hl hi, by rw [← Nat.xor_assoc, Nat.xor_self, Nat.zero_xor]⟩

lemma butterfly_eq_sum_range {n l : ℕ} (z : ℕ → M) (hl : l < 2 ^ n) :
    butterfly n z l = ∑ i ∈ range (2 ^ n), z i := by
  rw [butterfly_eq_sum]
  refine sum_nbij' (l ^^^ ·) (l ^^^ ·) ?_ ?_ ?_ ?_ fun _ _ => rfl
  · exact fun i hi => mem_range.mpr (Nat.xor_lt_two_pow hl (mem_range.mp hi))
  · exact fun i hi => mem_range.mpr (Nat.xor_lt_two_pow hl (mem_range.mp hi))
  · exact fun i _ => by rw [← Nat.xor_assoc, Nat.xor_self, Nat.zero_xor]
  · exact fun i _ => by rw [← Nat.xor_assoc, Nat.xor_self, Nat.zero_xor]

lemma exchange_max_le [LinearOrder α] {n l : ℕ} {v : ℕ → α} {c : α} :
    exchange max n v l ≤ c ↔ ∀ i < 2 ^ n, v (l ^^^ i) ≤ c := by
  induction n generalizing v with
  | zero => simp [exchange]
  | succ n ih =>
    rw [exchange, ih]
    have hpow : 2 ^ (n + 1) = 2 ^ n + 2 ^ n := by rw [Nat.pow_succ, Nat.mul_two]
    constructor
    · intro h i hi
      rcases Nat.lt_or_ge i (2 ^ n) with hlow | hhigh
      · exact (max_le_iff.mp (h i hlow)).1
      · obtain ⟨j, rfl⟩ := Nat.exists_eq_add_of_le' hhigh
        have hj : j < 2 ^ n := by omega
        have hle := (max_le_iff.mp (h j hj)).2
        rwa [Nat.xor_assoc, xor_pow_of_lt hj] at hle
    · intro h i hi
      refine max_le (h i (by omega)) ?_
      rw [Nat.xor_assoc, xor_pow_of_lt hi]
      exact h (i + 2 ^ n) (by omega)

/-- Every lane ends with the largest value. -/
lemma exchange_max [LinearOrder α] {n l : ℕ} {v : ℕ → α} {b : α} (hl : l < 2 ^ n)
    (hb : ∀ i < 2 ^ n, b ≤ v i) : exchange max n v l = (range (2 ^ n)).fold max b v := by
  refine le_antisymm (exchange_max_le.mpr fun i hi => ?_) ((fold_max_le _).mpr ⟨?_, fun i hi => ?_⟩)
  · exact (le_fold_max _).mpr (.inr ⟨_, mem_range.mpr (Nat.xor_lt_two_pow hl hi), le_rfl⟩)
  · refine (hb l hl).trans ?_
    have hself := exchange_max_le.mp (le_refl (exchange max n v l)) 0 (Nat.two_pow_pos n)
    rwa [Nat.xor_zero] at hself
  · obtain ⟨j, hj, rfl⟩ := exists_xor hl (mem_range.mp hi)
    exact exchange_max_le.mp le_rfl j hj

end Exchange

end Warp
