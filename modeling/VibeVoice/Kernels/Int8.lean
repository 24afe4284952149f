import Mathlib.Algebra.BigOperators.Ring.Finset
import VibeVoice.Kernels.TernaryDrive

/-!
The int8 kernels of the language model (`bitnet_cpu.c`): rows of int8 weights against rows of int8
activations.

* `i8RowScalar`, `i8RowAvx2`, `i8RowAvxvnni`, `i8RowAvx512`, `i8RowNeon`: one row against one row.
* `i8Drive`: the driver.
* `natAbs_mul_sign`: the sign trick, and what it loses on the weight -128.
* `i8Row_sums`: what a kernel computes.
* `i8Drive_ok`: every cell is stored.
-/

namespace VibeVoice.Kernels

open Finset Lanes
open Lanes.Acc (lift)

/-! ### The kernels -/

/-- The end of a row: `for (kk = k; kk < K; kk++) s += a[kk] * w[kk]`. -/
def i8Tail (a w : Acts) (k K : ℕ) (s : Acc) : Acc :=
  turns (K - k) (fun i s => s.add 32 (lift ((a (k + i)).toInt * (w (k + i)).toInt))) s

/-- `i8_tile_scalar`, for one row of activations and one of weights. -/
def i8RowScalar (a w : Acts) (K : ℕ) : Acc := i8Tail a w 0 K (lift 0)

/-- A register of bytes. -/
def loadEpi8 (v : Acts) (off : ℕ) : ℕ → Int8 := fun j => v (off + j)

/-- The bytes of a register as numbers. -/
def ints (v : ℕ → Int8) : ℕ → ℤ := fun j => (v j).toInt

/-- `i8_tile_avx2_n`, for one row of activations and one of weights. -/
def i8RowAvx2 (a w : Acts) (K : ℕ) : Acc :=
  let acc := turns (K / 32) (fun i acc =>
    let x := loadEpi8 a (i * 32)
    let wv := loadEpi8 w (i * 32)
    let p := maddubs (absEpi8 x) (ints (signEpi8 wv x))
    addLanes 32 acc (maddOnes p)) zero
  i8Tail a w (K / 32 * 32) K (hsum acc)

/-- `i8_tile_avxvnni_n`, for one row of activations and one of weights. -/
def i8RowAvxvnni (a w : Acts) (K : ℕ) : Acc :=
  let acc := turns (K / 32) (fun i acc =>
    let x := loadEpi8 a (i * 32)
    let wv := loadEpi8 w (i * 32)
    dpbusd acc (absEpi8 x) (ints (signEpi8 wv x))) zero
  i8Tail a w (K / 32 * 32) K (hsum acc)

/-- `i8_tile_avx512_n`, for one row of activations and one of weights. -/
def i8RowAvx512 (a w : Acts) (K : ℕ) : Acc :=
  let acc := turns (K / 64) (fun i acc =>
    let x := loadEpi8 a (i * 64)
    let wv := loadEpi8 w (i * 64)
    dpbusd acc (absEpi8 x) (ints (maskSign wv x))) zero
  let k := K / 64 * 64
  let tail := if k < K then i8RowAvx2 (fun i => a (k + i)) (fun i => w (k + i)) (K - k) else lift 0
  (reduceAdd acc).add 32 tail

/-- `i8_tile_neon_n`, for one row of activations and one of weights. -/
def i8RowNeon (dotprod : Bool) (a w : Acts) (K : ℕ) : Acc :=
  let acc := turns (K / 16) (fun i acc =>
    let x := ints (loadEpi8 a (i * 16))
    let wv := ints (loadEpi8 w (i * 16))
    if dotprod then vdot acc x wv
    else
      let acc := vpadal acc (vmull x wv)
      vpadal acc (vmull (fun l => x (8 + l)) (fun l => wv (8 + l)))) zero
  i8Tail a w (K / 16 * 16) K (vaddv acc)

/-- `pick_i8`. -/
def i8Row : Isa → Acts → Acts → ℕ → Acc
  | .scalar => i8RowScalar
  | .avx2 => i8RowAvx2
  | .avxvnni => i8RowAvxvnni
  | .avx512vnni => i8RowAvx512
  | .neon dotprod => i8RowNeon dotprod

/-- A tile: cell `t * 4 + r` holds activation row `t` against weight row `r`. -/
def i8Tile (isa : Isa) (a : Acts) (lda : ℕ) (w : Acts) (ldw K : ℕ) : ℕ → Acc := fun o =>
  i8Row isa (fun k => a (o / 4 * lda + k)) (fun k => w (o % 4 * ldw + k)) K

/-- The row group and the tile of an item of `i8_drive`: M-major for small `N`, else N-major. -/
def i8Item (N ngroups mtiles it : ℕ) : ℕ × ℕ :=
  if N ≤ 512 then (it % ngroups, it / ngroups) else (it / mtiles, it % mtiles)

/-- `i8_drive`; `emit` is what is stored for a cell. -/
def i8Drive {β : Type} (isa : Isa) (a w : Acts) (M N K : ℕ) (emit : ℕ → ℕ → Acc → β)
    (out : ℕ → β) : Except Status (ℕ → β) :=
  if M = 0 ∨ N = 0 ∨ K = 0 then .error .invalidArg
  else
    let ngroups := (N + 3) / 4
    let mtiles := (M + 1) / 2
    .ok (stores ((List.range (ngroups * mtiles)).flatMap fun it =>
      let n0 := (i8Item N ngroups mtiles it).1 * 4
      let m0 := (i8Item N ngroups mtiles it).2 * 2
      let o := i8Tile isa (fun i => a (m0 * K + i)) K (fun i => w (n0 * K + i)) K K
      (List.range (min 2 (M - m0))).flatMap fun t => (List.range (min 4 (N - n0))).map fun r =>
        ((m0 + t) * N + n0 + r, emit (m0 + t) (n0 + r) (o (t * 4 + r)))) out)

/-- `vv_i8_gemm_i32_cpu`. -/
def i8GemmI32 (isa : Isa) (a w : Acts) (M N K : ℕ) (acc : ℕ → Acc) : Except Status (ℕ → Acc) :=
  i8Drive isa a w M N K (fun _ _ s => s) acc

/-! ### The sums -/

/-- What a row of weights and a row of activations sum to. -/
def int8Dot (a w : Acts) (K : ℕ) : ℤ := ∑ k ∈ range K, (a k).toInt * (w k).toInt

/-- The weight -128 has no negative in a byte: what is missing from `|x| * sign(w, x)`, in units of
256. -/
def signLoss (x w : Int8) : ℤ := if x < 0 ∧ w = -128 then -x.toInt else 0

/-- The units of 256 that the sign trick misses on the first `n` columns. -/
def lost (a w : Acts) (n : ℕ) : ℤ := ∑ k ∈ range n, signLoss (a k) (w k)

/-- The columns that a kernel multiplies by the sign trick. -/
def signTricked : Isa → ℕ → ℕ
  | .scalar, _ | .neon _, _ => 0
  | _, K => K / 32 * 32

section Terms

variable {a w : Acts} {x : ℕ → Int8} {j k : ℕ}

lemma abs_mul_le (x w : Int8) : |x.toInt * w.toInt| ≤ 2 ^ 14 :=
  calc |x.toInt * w.toInt| = |x.toInt| * |w.toInt| := abs_mul ..
    _ ≤ 128 * 128 := mul_le_mul (abs_toInt_le x) (abs_toInt_le w) (abs_nonneg _) (by omega)
    _ = 2 ^ 14 := rfl

lemma toInt_neg_eq (w : Int8) (h : w ≠ -128) : (-w).toInt = -w.toInt := by
  have hne : w.toInt ≠ -128 := fun hw => h (Int8.toInt_inj.mp hw)
  have hlow := w.le_toInt
  have hhigh := w.toInt_lt
  rw [Int8.toInt_neg]
  exact Int.bmod_eq_of_le_mul_two (by omega) (by omega)

/-- The sign trick: exact, except for a negative activation and the weight -128. -/
lemma natAbs_mul_sign (w x : ℕ → Int8) (j : ℕ) :
    (absEpi8 x j : ℤ) * (signEpi8 w x j).toInt =
      (x j).toInt * (w j).toInt - 256 * signLoss (x j) (w j) := by
  rw [absEpi8, signEpi8, signLoss, Int.natCast_natAbs]
  by_cases hneg : x j < 0
  · have hlt : (x j).toInt < 0 := Int8.lt_iff_toInt_lt.mp hneg
    rw [if_pos hneg, abs_of_neg hlt]
    by_cases hw : w j = -128
    · rw [if_pos ⟨hneg, hw⟩, hw]
      show -(x j).toInt * (-128) = (x j).toInt * (-128) - 256 * -(x j).toInt
      ring
    · rw [if_neg fun h => hw h.2, toInt_neg_eq _ hw]
      ring
  · have hge : 0 ≤ (x j).toInt := not_lt.mp fun h => hneg (Int8.lt_iff_toInt_lt.mpr h)
    rw [if_neg hneg, if_neg fun h : x j < 0 ∧ w j = -128 => hneg h.1, abs_of_nonneg hge, mul_zero,
      sub_zero]
    by_cases hzero : x j = 0
    · rw [if_pos hzero, hzero]
      exact (zero_mul _).trans (zero_mul _).symm
    · rw [if_neg hzero]

lemma maskSign_eq (w x : ℕ → Int8) : maskSign w x = signEpi8 w x := by
  funext j
  rw [maskSign, signEpi8, Int8.zero_sub]
  by_cases hzero : x j = 0
  · rw [if_neg (not_not.mpr hzero), if_pos hzero, hzero]
    rfl
  · rw [if_pos hzero, if_neg hzero]

/-- What the sign trick adds for column `k`. -/
def signTerm (a w : Acts) (k : ℕ) : ℤ := (a k).toInt * (w k).toInt - 256 * signLoss (a k) (w k)

lemma abs_signTerm_le (a w : Acts) (k : ℕ) : |signTerm a w k| ≤ 2 ^ 14 := by
  rw [signTerm, ← natAbs_mul_sign w a k, abs_mul, absEpi8, Int.natCast_natAbs, abs_abs, ← abs_mul]
  exact abs_mul_le ..

lemma sum_signTerm (a w : Acts) (n : ℕ) :
    ∑ k ∈ range n, signTerm a w k = int8Dot a w n - 256 * lost a w n := by
  rw [int8Dot, lost, mul_sum, ← sum_sub_distrib]
  rfl

end Terms

/-! ### What the kernels compute -/

section Rows

variable {a w : Acts} {K : ℕ}

/-- The sign trick leaves the positive end of the range free. -/
lemma signTerm_lt (a w : Acts) (k : ℕ) : signTerm a w k < 2 ^ 14 := by
  have hx : (absEpi8 a k : ℤ) ≤ 128 := by
    rw [absEpi8, Int.natCast_natAbs]
    exact abs_toInt_le _
  have hs : (signEpi8 w a k).toInt ≤ 127 := Int.le_of_lt_add_one (signEpi8 w a k).toInt_lt
  calc signTerm a w k = absEpi8 a k * (signEpi8 w a k).toInt := (natAbs_mul_sign w a k).symm
    _ ≤ absEpi8 a k * 127 := mul_le_mul_of_nonneg_left hs (Int.natCast_nonneg _)
    _ ≤ 128 * 127 := mul_le_mul_of_nonneg_right hx (by omega)
    _ < 2 ^ 14 := by omega

/-- A pair of products does not saturate. -/
lemma maddubs_sign (x wv : ℕ → Int8) (l : ℕ) :
    maddubs (absEpi8 x) (ints (signEpi8 wv x)) l =
      lift (signTerm x wv (2 * l) + signTerm x wv (2 * l + 1)) := by
  have hmul : ∀ j, (absEpi8 x j : ℤ) * ints (signEpi8 wv x) j = signTerm x wv j :=
    natAbs_mul_sign wv x
  rw [maddubs, hmul, hmul]
  refine Acc.saturate_of_fits ?_
  have hlow := neg_le_of_abs_le (abs_signTerm_le x wv (2 * l))
  have hlow' := neg_le_of_abs_le (abs_signTerm_le x wv (2 * l + 1))
  have hhigh := signTerm_lt x wv (2 * l)
  have hhigh' := signTerm_lt x wv (2 * l + 1)
  exact ⟨by omega, by omega⟩

lemma maddOnes_sign (x wv : ℕ → Int8) (l : ℕ) :
    (maddOnes (maddubs (absEpi8 x) (ints (signEpi8 wv x))) l).Sums 32
      (∑ i ∈ range 4, signTerm x wv (l * 4 + i)) (4 * 2 ^ 14) := by
  rw [maddOnes, maddubs_sign, maddubs_sign]
  have hpair : ∀ i j, (lift (signTerm x wv i + signTerm x wv j)).Sums 32
      (signTerm x wv i + signTerm x wv j) (2 * 2 ^ 14) := fun i j =>
    Acc.sums_lift ((abs_add_le ..).trans
      ((add_le_add (abs_signTerm_le ..) (abs_signTerm_le ..)).trans (by omega))) (by omega)
  refine ((hpair _ _).add (by omega) (hpair _ _)).congr ?_ (by omega)
  simp only [sum_range_succ, sum_range_zero, zero_add, add_zero]
  rw [show 2 * (2 * l) = l * 4 by omega, show 2 * (2 * l + 1) = l * 4 + 2 by omega]
  exact (add_assoc ..).symm

lemma dpbusd_sign {acc : Reg} {x wv : ℕ → Int8} {l : ℕ} {y Y : ℤ} (h : (acc l).Sums 32 y Y) :
    (dpbusd acc (absEpi8 x) (ints (signEpi8 wv x)) l).Sums 32
      (y + ∑ i ∈ range 4, signTerm x wv (l * 4 + i)) (Y + 4 * 2 ^ 14) := by
  have hsum : ∑ i ∈ range 4, (absEpi8 x (4 * l + i) : ℤ) * ints (signEpi8 wv x) (4 * l + i) =
      ∑ i ∈ range 4, signTerm x wv (l * 4 + i) := by
    rw [Nat.mul_comm 4 l]
    exact sum_congr rfl fun i _ => natAbs_mul_sign wv x _
  rw [dpbusd, hsum]
  exact h.add (by omega) (Acc.sums_lift (abs_sum_range_le fun _ _ => abs_signTerm_le ..) (by omega))

/-- The lanes of a loop whose turns add to each lane. -/
lemma zero_turns_sums {n m : ℕ} {f : ℕ → Reg → Reg} {g : ℕ → ℕ → ℤ} {B : ℤ}
    (hf : ∀ b < n, ∀ l < m, ∀ (acc : Reg) (y Y : ℤ), (acc l).Sums 32 y Y →
      (f b acc l).Sums 32 (y + g b l) (Y + B)) :
    ∀ l < m, (turns n f zero l).Sums 32 (∑ b ∈ range n, g b l) (n * B) := by
  refine turns_induct (fun i (acc : Reg) =>
    ∀ l < m, (acc l).Sums 32 (∑ b ∈ range i, g b l) (i * B)) ?_ ?_
  · intro l _
    refine (Acc.sums_lift (z := 0) (by rw [abs_zero]) (by omega)).congr ?_ ?_
    · rw [sum_range_zero]
    · rw [Nat.cast_zero, zero_mul]
  · intro i hi acc hacc l hl
    refine (hf i hi l hl acc _ _ (hacc l hl)).congr ?_ ?_
    · rw [sum_range_succ]
    · rw [Nat.cast_succ, add_mul, one_mul]

lemma i8Tail_sums {s : Acc} {y Y : ℤ} {k : ℕ} (hk : k ≤ K) (hs : s.Sums 32 (y + int8Dot a w k) Y) :
    (i8Tail a w k K s).Sums 32 (y + int8Dot a w K) (Y + (K - k : ℕ) * 2 ^ 14) := by
  refine (hs.turns (by omega) fun i _ => ⟨_, Acc.sums_lift (abs_mul_le _ _) (by omega),
    fun _ => rfl⟩).congr ?_ rfl
  obtain ⟨n, rfl⟩ := Nat.exists_eq_add_of_le hk
  rw [int8Dot, int8Dot, sum_range_add, Nat.add_sub_cancel_left, add_assoc]

lemma i8RowScalar_sums (a w : Acts) (K : ℕ) :
    (i8RowScalar a w K).Sums 32 (int8Dot a w K) (K * 2 ^ 14) :=
  (i8Tail_sums (y := 0) (Nat.zero_le K)
    (Acc.sums_lift (Z := 0) (by rw [int8Dot, sum_range_zero, add_zero, abs_zero]) (by omega))).congr
    (zero_add _) (by rw [Nat.sub_zero, zero_add])

/-- The vector part of a row, and the rest of it. -/
lemma vector_sums {s : Acc} {n : ℕ} (hn : n ≤ K)
    (hs : s.Sums 32 (∑ k ∈ range n, signTerm a w k) (n * 2 ^ 14)) :
    (i8Tail a w n K s).Sums 32 (int8Dot a w K - 256 * lost a w n) (K * 2 ^ 14) := by
  rw [sum_signTerm, sub_eq_neg_add] at hs
  refine (i8Tail_sums hn hs).congr (neg_add_eq_sub _ _) ?_
  rw [← add_mul, ← Nat.cast_add, Nat.add_sub_cancel' hn]

/-- What the lanes add up to over a row. -/
lemma lanes_sums {f : ℕ → ℤ} {s : Acc} {n m q : ℕ} (hq : m * 4 = q)
    (hs : s.Sums 32 (∑ l ∈ range m, ∑ b ∈ range n, ∑ i ∈ range 4, f (b * q + (l * 4 + i)))
      (m * (n * (4 * 2 ^ 14)))) :
    s.Sums 32 (∑ k ∈ range (n * q), f k) ((n * q : ℕ) * 2 ^ 14) := by
  subst hq
  refine hs.congr (sum_range_lanes f n m 4) ?_
  push_cast
  ring

lemma i8RowAvx2_sums (a w : Acts) (K : ℕ) :
    (i8RowAvx2 a w K).Sums 32 (int8Dot a w K - 256 * lost a w (K / 32 * 32)) (K * 2 ^ 14) := by
  refine vector_sums (Nat.div_mul_le_self K 32) (lanes_sums (m := 8) rfl (hsum_sums ?_))
  exact zero_turns_sums fun b _ l _ acc y Y hacc => hacc.add (by omega) (maddOnes_sign ..)

lemma i8RowAvxvnni_sums (a w : Acts) (K : ℕ) :
    (i8RowAvxvnni a w K).Sums 32 (int8Dot a w K - 256 * lost a w (K / 32 * 32)) (K * 2 ^ 14) := by
  refine vector_sums (Nat.div_mul_le_self K 32) (lanes_sums (m := 8) rfl (hsum_sums ?_))
  exact zero_turns_sums fun b _ l _ acc y Y hacc => dpbusd_sign hacc

/-- The columns behind the first `n`. -/
lemma int8Dot_add (a w : Acts) (n m : ℕ) : int8Dot a w (n + m) =
    int8Dot a w n + int8Dot (fun i => a (n + i)) (fun i => w (n + i)) m := sum_range_add ..

lemma lost_add (a w : Acts) (n m : ℕ) : lost a w (n + m) =
    lost a w n + lost (fun i => a (n + i)) (fun i => w (n + i)) m := sum_range_add ..

lemma i8RowAvx512_sums (a w : Acts) (K : ℕ) :
    (i8RowAvx512 a w K).Sums 32 (int8Dot a w K - 256 * lost a w (K / 32 * 32)) (K * 2 ^ 14) := by
  have hwide : (reduceAdd (turns (K / 64) (fun i acc =>
      dpbusd acc (absEpi8 (loadEpi8 a (i * 64)))
        (ints (maskSign (loadEpi8 w (i * 64)) (loadEpi8 a (i * 64))))) zero)).Sums 32
      (∑ k ∈ range (K / 64 * 64), signTerm a w k) ((K / 64 * 64 : ℕ) * 2 ^ 14) := by
    refine lanes_sums (m := 16) rfl (reduceAdd_sums ?_)
    exact zero_turns_sums fun b _ l _ acc y Y hacc => by
      rw [maskSign_eq]
      exact dpbusd_sign hacc
  rw [sum_signTerm] at hwide
  rw [i8RowAvx512]
  obtain ⟨n, m, hK, hm⟩ : ∃ n m, K = n * 64 + m ∧ m < 64 := ⟨K / 64, K % 64, by omega, by omega⟩
  have hdiv : K / 64 = n := by omega
  rw [hdiv] at hwide ⊢
  by_cases hlt : n * 64 < K
  · have htail := i8RowAvx2_sums (fun i => a (n * 64 + i)) (fun i => w (n * 64 + i)) (K - n * 64)
    dsimp only
    rw [if_pos hlt]
    refine (hwide.add (by omega) htail).congr ?_ ?_
    · rw [show K / 32 * 32 = n * 64 + (K - n * 64) / 32 * 32 by omega, lost_add,
        show int8Dot a w K = int8Dot a w (n * 64 + (K - n * 64)) by
          rw [Nat.add_sub_cancel' hlt.le], int8Dot_add]
      ring
    · rw [← add_mul, ← Nat.cast_add, Nat.add_sub_cancel' hlt.le]
  · dsimp only
    rw [if_neg hlt]
    have hend : K = n * 64 := by omega
    refine (hwide.add (by omega) (Acc.sums_lift (z := 0) (by rw [abs_zero]) (by omega))).congr ?_ ?_
    · rw [add_zero, show K / 32 * 32 = K by omega, ← hend]
    · rw [add_zero, ← hend]

/-- The exact product of a column. -/
def mulTerm (a w : Acts) (k : ℕ) : ℤ := (a k).toInt * (w k).toInt

lemma vdot_mul {acc : Reg} {off l : ℕ} {y Y : ℤ} (h : (acc l).Sums 32 y Y) :
    (vdot acc (ints (loadEpi8 a off)) (ints (loadEpi8 w off)) l).Sums 32
      (y + ∑ i ∈ range 4, mulTerm a w (off + (l * 4 + i))) (Y + 4 * 2 ^ 14) := by
  rw [vdot, Nat.mul_comm 4 l]
  exact h.add (by omega) (Acc.sums_lift (abs_sum_range_le fun _ _ => abs_mul_le ..) (by omega))

/-- One of the two widened halves of a register. -/
lemma vpadal_mul {acc : Reg} {x wv : ℕ → ℤ} {off l : ℕ} {y Y : ℤ}
    (hx : ∀ j, x j * wv j = mulTerm a w (off + j)) (h : (acc l).Sums 32 y Y) :
    (vpadal acc (vmull x wv) l).Sums 32
      (y + (mulTerm a w (off + 2 * l) + mulTerm a w (off + (2 * l + 1)))) (Y + 2 * 2 ^ 14) := by
  have hterm : ∀ j, (vmull x wv j).Sums 32 (mulTerm a w (off + j)) (2 ^ 14) := fun j => by
    rw [vmull, hx]
    exact Acc.sums_lift (abs_mul_le ..) (by omega)
  exact (h.add (by omega) ((hterm _).add (by omega) (hterm _))).congr rfl (by ring)

lemma i8RowNeon_sums (dotprod : Bool) (a w : Acts) (K : ℕ) :
    (i8RowNeon dotprod a w K).Sums 32 (int8Dot a w K) (K * 2 ^ 14) := by
  have hrow : ∀ {s : Acc}, s.Sums 32 (∑ k ∈ range (K / 16 * 16), mulTerm a w k)
      ((K / 16 * 16 : ℕ) * 2 ^ 14) → (i8Tail a w (K / 16 * 16) K s).Sums 32 (int8Dot a w K)
        (K * 2 ^ 14) := fun hs => by
    have hle : K / 16 * 16 ≤ K := Nat.div_mul_le_self K 16
    refine (i8Tail_sums (y := 0) hle (hs.congr (zero_add _).symm rfl)).congr (zero_add _) ?_
    rw [← add_mul, ← Nat.cast_add, Nat.add_sub_cancel' hle]
  cases dotprod with
  | true =>
    refine hrow (lanes_sums (m := 4) rfl (vaddv_sums ?_))
    exact zero_turns_sums fun b _ l _ acc y Y hacc => vdot_mul hacc
  | false =>
    have hhigh : ∀ b j, ints (loadEpi8 a (b * 16)) (8 + j) * ints (loadEpi8 w (b * 16)) (8 + j) =
        mulTerm a w (b * 16 + 8 + j) := fun b j => by
      rw [Nat.add_assoc]
      rfl
    have hlanes := vaddv_sums (zero_turns_sums (n := K / 16) (m := 4)
      (g := fun b l => mulTerm a w (b * 16 + 2 * l) + mulTerm a w (b * 16 + (2 * l + 1)) +
        (mulTerm a w (b * 16 + 8 + 2 * l) + mulTerm a w (b * 16 + 8 + (2 * l + 1))))
      (B := 4 * 2 ^ 14) fun b _ l _ acc y Y hacc =>
        (vpadal_mul (hhigh b) (vpadal_mul (fun _ => rfl) hacc)).congr (add_assoc ..) (by ring))
    refine hrow (hlanes.congr ?_ ?_)
    · rw [sum_comm, sum_range_mul]
      refine sum_congr rfl fun b _ => ?_
      simp only [sum_range_succ, sum_range_zero]
      ring
    · push_cast
      ring

/-- Rows this short do not overflow. -/
lemma small_of_lt (hK : K < 2 ^ 17) : (K : ℤ) * 2 ^ 14 < 2 ^ (32 - 1) := by
  have hcast : (K : ℤ) < 2 ^ 17 := by exact_mod_cast hK
  calc (K : ℤ) * 2 ^ 14 < 2 ^ 17 * 2 ^ 14 := mul_lt_mul_of_pos_right hcast (by omega)
    _ = 2 ^ (32 - 1) := by norm_num

/-- A kernel computes the exact sum, up to overflows and to what the sign trick misses. -/
lemma i8Row_sums (isa : Isa) (a w : Acts) (K : ℕ) :
    (i8Row isa a w K).Sums 32 (int8Dot a w K - 256 * lost a w (signTricked isa K))
      (K * 2 ^ 14) := by
  have hexact : int8Dot a w K - 256 * lost a w 0 = int8Dot a w K := by
    rw [lost, sum_range_zero, mul_zero, sub_zero]
  cases isa with
  | scalar => exact (i8RowScalar_sums a w K).congr hexact.symm rfl
  | avx2 => exact i8RowAvx2_sums a w K
  | avxvnni => exact i8RowAvxvnni_sums a w K
  | avx512vnni => exact i8RowAvx512_sums a w K
  | neon dotprod => exact (i8RowNeon_sums dotprod a w K).congr hexact.symm rfl

end Rows

/-! ### The driver -/

lemma cell_div {m n N : ℕ} (h : n < N) : (m * N + n) / N = m := by
  rw [Nat.mul_comm, Nat.mul_add_div (by omega), Nat.div_eq_of_lt h, Nat.add_zero]

/-- Every group meets every tile in one item. -/
lemma i8Item_surj {N ngroups mtiles g mt : ℕ} (hg : g < ngroups) (hmt : mt < mtiles) :
    ∃ it < ngroups * mtiles, i8Item N ngroups mtiles it = (g, mt) := by
  by_cases hN : N ≤ 512
  · refine ⟨mt * ngroups + g, ?_, ?_⟩
    · rw [Nat.mul_comm ngroups]
      exact cell_lt hmt hg
    · rw [i8Item, if_pos hN, Nat.mul_add_mod_of_lt hg, cell_div hg]
  · refine ⟨g * mtiles + mt, cell_lt hg hmt, ?_⟩
    rw [i8Item, if_neg hN, Nat.mul_add_mod_of_lt hmt, cell_div hmt]

/-- The driver stores every cell. -/
lemma i8Drive_ok {β : Type} (isa : Isa) (a w : Acts) {M N K : ℕ} (emit : ℕ → ℕ → Acc → β)
    (out : ℕ → β) (hM : 0 < M) (hN : 0 < N) (hK : 0 < K) :
    ∃ out', i8Drive isa a w M N K emit out = .ok out' ∧ ∀ m < M, ∀ n < N,
      out' (m * N + n) =
        emit m n (i8Row isa (fun k => a (m * K + k)) (fun k => w (n * K + k)) K) := by
  have htile : ∀ m0 n0 t r, r < 4 →
      i8Tile isa (fun i => a (m0 * K + i)) K (fun i => w (n0 * K + i)) K K (t * 4 + r) =
        i8Row isa (fun k => a ((m0 + t) * K + k)) (fun k => w ((n0 + r) * K + k)) K := by
    intro m0 n0 t r hr
    rw [i8Tile, show (t * 4 + r) / 4 = t by omega, show (t * 4 + r) % 4 = r by omega]
    simp only [Nat.add_mul, Nat.add_assoc]
  rw [i8Drive, if_neg (by omega)]
  refine ⟨_, rfl, fun m hm n hn => stores_eq ?_ fun c hc ho => ?_⟩
  · have hgroup : n / 4 < (N + 3) / 4 := by omega
    have htiles : m / 2 < (M + 1) / 2 := by omega
    obtain ⟨it, hit, hitem⟩ := i8Item_surj (N := N) hgroup htiles
    refine ⟨(m * N + n, emit m n (i8Row isa (fun k => a (m * K + k)) (fun k => w (n * K + k)) K)),
      List.mem_flatMap.mpr ⟨it, List.mem_range.mpr hit, ?_⟩, rfl⟩
    rw [hitem]
    refine List.mem_flatMap.mpr ⟨m % 2, List.mem_range.mpr (by omega), List.mem_map.mpr
      ⟨n % 4, List.mem_range.mpr (by omega), ?_⟩⟩
    rw [htile _ _ _ _ (Nat.mod_lt _ (by omega)), Nat.div_add_mod', Nat.add_assoc, Nat.div_add_mod']
  · obtain ⟨it, -, hc⟩ := List.mem_flatMap.mp hc
    obtain ⟨t, ht, hc⟩ := List.mem_flatMap.mp hc
    obtain ⟨r, hr, rfl⟩ := List.mem_map.mp hc
    rw [List.mem_range] at ht hr
    dsimp only at ho ⊢
    generalize i8Item N ((N + 3) / 4) ((M + 1) / 2) it = item at ht hr ho ⊢
    rw [Nat.add_assoc] at ho
    obtain ⟨hm', hn'⟩ := cell_inj (by omega) hn ho
    rw [htile _ _ _ _ (by omega), hm', hn']

end VibeVoice.Kernels
