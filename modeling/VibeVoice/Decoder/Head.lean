import Mathlib.Analysis.Real.Sqrt
import Mathlib.Data.Real.Basic
import Mathlib.Order.WithBot
import VibeVoice.Lib.Lanes
import VibeVoice.Lib.Scan
import VibeVoice.Status

/-!
The head of the BitNet model and its filter on int8 rows (`bitnet_lm.c`).

Floats are exact, the conversions and the roundings any functions. A thread's share of the rows
that are filtered is any set of them.

* `logit_sub_estimate_le`: how far the estimate of a row is from its logit.
* `filtered_argmax_eq`: the filter finds the token of the full scan.
-/

open Finset

namespace VibeVoice.Head

/-- The operations on floats. -/
structure Exact (R : Type) where
  /-- `vv_half_to_float`. -/
  half : UInt16 → R
  /-- `f16r`. -/
  f16r : R → R
  /-- `nearbyintf`, and the rounding of `nearest_int_mul`. -/
  rint : R → ℤ
  sqrt : R → R

section Model

variable {R : Type} [Field R] [LinearOrder R] (A : Exact R)

/-- The largest `fabsf` of a row. -/
def absMax (x : ℕ → R) (K : ℕ) : R :=
  (List.range K).foldl (fun amax k => if amax < |x k| then |x k| else amax) 0

/-- An integer between two others. -/
def clamp (lo hi z : ℤ) : ℤ := if hi < z then hi else if z < lo then lo else z

/-! ### The full scan -/

/-- `head_row_s`: four accumulators of eight lanes, and their sum. -/
def headRow (wr xh : ℕ → R) (K : ℕ) : R :=
  let acc j l := Lanes.turns (K / 32)
    (fun b a => a + wr (b * 32 + (j * 8 + l)) * xh (b * 32 + (j * 8 + l))) 0
  let x0 l := acc 0 l + acc 2 l + (acc 1 l + acc 3 l)
  let t0 l := x0 l + x0 (l + 4)
  t0 0 + t0 1 + (t0 2 + t0 3)

/-- `BL_HEAD_MAX_K`. -/
def headMaxK : ℕ := 8192

/-- The hidden vector as the scans read it, `xh`. -/
def rounded (x : ℕ → R) (k : ℕ) : R := A.f16r (x k)

/-- A row of the head as floats. -/
def row (w : ℕ → ℕ → UInt16) (r k : ℕ) : R := A.half (w r k)

/-- The logit of a row. -/
def logit (w : ℕ → ℕ → UInt16) (x : ℕ → R) (K r : ℕ) : R := headRow (row A w r) (rounded A x) K

/-- The rows `r0` to `r1` of a thread of the full scan. -/
def threadRows (V n id : ℕ) : List ℕ := List.range' (V * id / n) (V * (id + 1) / n - V * id / n)

/-- `vv_bitnet_head_f16_argmax_cpu` on `n` threads. -/
def headF16ArgmaxCpu (x : ℕ → R) (w : ℕ → ℕ → UInt16) (V K n : ℕ) : Except Status (ℕ × R) :=
  if K % 32 ≠ 0 ∨ headMaxK < K then .error .unsupported
  else
    let results := (List.range n).map fun id => Scan.scan (logit A w x K) (threadRows V n id)
    match Scan.best results with
    | none => .error .invalidArg
    | some best => .ok best

/-! ### The tables of the filter -/

/-- The three entries of `bound` for a row. -/
structure Bounds (R : Type) where
  err : R
  quant : R
  row : R

/-- The tables of the filter. -/
structure Filter (R : Type) where
  q : ℕ → ℕ → ℤ
  scale : ℕ → R
  bound : ℕ → Bounds R

/-- The scale of a row. -/
def rowScale (wr : ℕ → R) (K : ℕ) : R := absMax wr K / 127

/-- A row on the grid of its scale. -/
def rowQuant (wr : ℕ → R) (K k : ℕ) : ℤ :=
  let d := rowScale wr K
  let id := if 0 < d then 1 / d else 0
  clamp (-127) 127 (A.rint (wr k * id))

/-- The norms of a row, rounded up. -/
def rowBounds (wr : ℕ → R) (K : ℕ) : Bounds R :=
  let d := rowScale wr K
  let q := rowQuant A wr K
  { err :=
      A.sqrt (∑ k ∈ range K, (wr k - d * q k) * (wr k - d * q k)) * (1 + 1 / 10 ^ 6) + 1 / 10 ^ 30
    quant := d * A.sqrt (∑ k ∈ range K, (q k : R) * q k) * (1 + 1 / 10 ^ 6)
    row := A.sqrt (∑ k ∈ range K, wr k * wr k) * (1 + 1 / 10 ^ 6) }

/-- `vv_bitnet_head_filter_build`. -/
def headFilterBuild (w : ℕ → ℕ → UInt16) (V K : ℕ) : Except Status (Filter R) :=
  if V = 0 ∨ K = 0 ∨ 16384 < K then .error .invalidArg
  else .ok {
    q := fun r => rowQuant A (row A w r) K
    scale := fun r => rowScale (row A w r) K
    bound := fun r => rowBounds A (row A w r) K }

/-! ### The filtered scan -/

/-- `vv_bitnet_head_filter_scratch`. -/
def headFilterScratch (V K : ℕ) : ℕ := V * 4 + K + 256

/-- The scale of `vv_act_quant_i8_cpu` for one token. -/
def actScale (x : ℕ → R) (K : ℕ) : R :=
  let amax := absMax x K
  127 / if 1 / 10 ^ 5 < amax then amax else 1 / 10 ^ 5

/-- The codes of `vv_act_quant_i8_cpu` for one token. -/
def actQuant (x : ℕ → R) (K k : ℕ) : ℤ := clamp (-128) 127 (A.rint (x k * actScale x K))

/-- `xn`. -/
def xNorm (xh : ℕ → R) (K : ℕ) : R := A.sqrt (∑ k ∈ range K, xh k * xh k) * (1 + 1 / 10 ^ 6)

/-- `en`. -/
def errNorm (xh : ℕ → R) (K : ℕ) : R :=
  A.sqrt (∑ k ∈ range K, (xh k - actQuant A xh K k / actScale xh K) *
    (xh k - actQuant A xh K k / actScale xh K)) * (1 + 1 / 10 ^ 6)

/-- A row of `vv_i8_gemm_i32_cpu`, in the words of its sums. -/
def rowAcc (f : Filter R) (xh : ℕ → R) (K r : ℕ) : ℤ :=
  (∑ k ∈ range K, actQuant A xh K k * f.q r k).bmod (2 ^ 32)

/-- `a`: the estimate of the logit of a row. -/
def estimate (f : Filter R) (xh : ℕ → R) (K r : ℕ) : R :=
  rowAcc A f xh K r * (f.scale r / actScale xh K)

/-- `B`: how far the estimate may be off. -/
def margin (f : Filter R) (xh : ℕ → R) (K r : ℕ) : R :=
  let b := f.bound r
  let fp : R := ((K / 8 + 3 : ℕ) : R) * (1 / 2 ^ 24) * 2
  (b.err * xNorm A xh K + b.quant * errNorm A xh K + fp * b.row * xNorm A xh K +
    |estimate A f xh K r| * (1 / 10 ^ 6)) * (101 / 100) + 1 / 10 ^ 30

/-- The largest of some values, from `-INFINITY` on. -/
def largest (l : List (WithBot R)) : WithBot R :=
  l.foldl (fun lo v => if lo < v then v else lo) ⊥

/-- `lower_t` of a thread. -/
def threadLower (f : Filter R) (xh : ℕ → R) (V K : ℕ) (part : ℕ → ℕ) (id : ℕ) : WithBot R :=
  largest (((List.range V).filter fun r => part r = id).map fun r =>
    ((estimate A f xh K r - margin A f xh K r : R) : WithBot R))

/-- `best_lower`. -/
def bestLower (f : Filter R) (xh : ℕ → R) (V K nt : ℕ) (part : ℕ → ℕ) : WithBot R :=
  largest ((List.range nt).map (threadLower A f xh V K part))

/-- The rows that are scored again. -/
def candidates (f : Filter R) (xh : ℕ → R) (V K nt : ℕ) (part : ℕ → ℕ) : List ℕ :=
  (List.range V).filter fun r =>
    bestLower A f xh V K nt part ≤ ((estimate A f xh K r + margin A f xh K r : R) : WithBot R)

/-- `vv_bitnet_head_filtered_argmax_cpu` on `nt` threads, with the token, its logit and
`n_exact`. The filter's loop runs for the row `r` on the thread `part r`. -/
def headFilteredArgmaxCpu (x : ℕ → R) (w : ℕ → ℕ → UInt16) (f : Filter R) (V K scratchBytes nt : ℕ)
    (part : ℕ → ℕ) : Except Status ((ℕ × R) × ℕ) :=
  if K % 32 ≠ 0 ∨ headMaxK < K then .error .unsupported
  else if scratchBytes < headFilterScratch V K then .error .overflow
  -- the refusals of `vv_act_quant_i8_cpu` and of `vv_i8_gemm_i32_cpu`
  else if K = 0 ∨ V = 0 then .error .invalidArg
  else
    let rows := candidates A f (rounded A x) V K nt part
    match Scan.scan (logit A w x K) rows with
    | none => .error .invalidArg
    | some best => .ok (best, rows.length)

end Model

/-! ### The rows of the threads -/

/-- The threads of the full scan take every row once, in order. -/
lemma flatten_threadRows {V n : ℕ} (hn : 0 < n) :
    ((List.range n).map (threadRows V n)).flatten = List.range V := by
  have hsteps : ∀ m, ((List.range m).map (threadRows V n)).flatten = List.range (V * m / n) := by
    intro m
    induction m with
    | zero => rw [Nat.mul_zero, Nat.zero_div]; rfl
    | succ m ih =>
      have hle : V * m / n ≤ V * (m + 1) / n :=
        Nat.div_le_div_right (Nat.mul_le_mul_left V m.le_succ)
      calc ((List.range (m + 1)).map (threadRows V n)).flatten
          = List.range (V * m / n) ++ threadRows V n m := by
            rw [List.range_succ, List.map_append, List.flatten_append, ih]
            simp
        _ = List.range' 0 (V * m / n) ++
              List.range' (0 + V * m / n) (V * (m + 1) / n - V * m / n) := by
            rw [Nat.zero_add, List.range_eq_range', threadRows]
        _ = List.range (V * (m + 1) / n) := by
            rw [List.range'_append_1, Nat.add_sub_cancel' hle, List.range_eq_range']
  rw [hsteps, Nat.mul_div_cancel _ hn]

section Model

variable {R : Type} [Field R] [LinearOrder R] {A : Exact R}

/-- What the full scan finds. -/
lemma headF16ArgmaxCpu_eq {x : ℕ → R} {w : ℕ → ℕ → UInt16} {V K n : ℕ} (hn : 0 < n) :
    headF16ArgmaxCpu A x w V K n =
      if K % 32 ≠ 0 ∨ headMaxK < K then .error .unsupported
      else match Scan.scan (logit A w x K) (List.range V) with
        | none => .error .invalidArg
        | some best => .ok best := by
  rw [headF16ArgmaxCpu, ← flatten_threadRows (V := V) hn, Scan.scan_flatten, List.map_map]
  rfl

/-! ### The logit -/

omit [LinearOrder R] in
lemma turns_add (g : ℕ → R) (n : ℕ) :
    Lanes.turns n (fun b a => a + g b) 0 = ∑ b ∈ range n, g b := by
  induction n with
  | zero => rfl
  | succ n ih => rw [Lanes.turns, ih, sum_range_succ]

omit [LinearOrder R] in
/-- The lanes of a row add up to its dot product. -/
lemma headRow_eq (wr xh : ℕ → R) {K : ℕ} (hK : K % 32 = 0) :
    headRow wr xh K = ∑ k ∈ range K, wr k * xh k := by
  have hlanes := Lanes.sum_range_lanes (fun k => wr k * xh k) (K / 32) 4 8
  have hdiv : K / 32 * (4 * 8) = K := by omega
  rw [hdiv] at hlanes
  calc headRow wr xh K
      = ∑ j ∈ range 4, ∑ l ∈ range 8, ∑ b ∈ range (K / 32),
          wr (b * 32 + (j * 8 + l)) * xh (b * 32 + (j * 8 + l)) := by
        simp only [headRow, turns_add, sum_range_succ, sum_range_zero]
        ring
    _ = ∑ j ∈ range 4, ∑ b ∈ range (K / 32), ∑ l ∈ range 8,
          wr (b * 32 + (j * 8 + l)) * xh (b * 32 + (j * 8 + l)) :=
        sum_congr rfl fun j _ => sum_comm
    _ = ∑ k ∈ range K, wr k * xh k := hlanes

/-! ### Codes -/

lemma clamp_abs {lo hi z B : ℤ} (hlo : -B ≤ lo) (hhi : hi ≤ B) (h : lo ≤ hi) :
    |clamp lo hi z| ≤ B := by
  rw [clamp, abs_le]
  split_ifs <;> constructor <;> omega

lemma absMax_nonneg [IsStrictOrderedRing R] (x : ℕ → R) (K : ℕ) : 0 ≤ absMax x K := by
  rw [absMax]
  induction K with
  | zero => exact le_rfl
  | succ K ih =>
    rw [List.range_succ, List.foldl_append, List.foldl_cons, List.foldl_nil]
    split_ifs
    · exact abs_nonneg _
    · exact ih

/-- The sums of a row fit into an `int32_t`. -/
lemma rowAcc_eq {f : Filter R} {xh : ℕ → R} {K r : ℕ} (hK : K ≤ headMaxK)
    (hq : ∀ k, |f.q r k| ≤ 127) :
    rowAcc A f xh K r = ∑ k ∈ range K, actQuant A xh K k * f.q r k := by
  have hterm : ∀ k < K, |actQuant A xh K k * f.q r k| ≤ 128 * 127 := by
    intro k _
    rw [abs_mul]
    exact mul_le_mul (clamp_abs le_rfl (by simp) (by simp)) (hq k) (abs_nonneg _) (by simp)
  have hsum : |∑ k ∈ range K, actQuant A xh K k * f.q r k| ≤ K * (128 * 127) :=
    Lanes.abs_sum_range_le hterm
  have hbound : (K : ℤ) ≤ 8192 := by exact_mod_cast hK
  have hfits := abs_le.mp hsum
  rw [rowAcc]
  exact Int.bmod_eq_of_le (by omega) (by omega)

/-! ### Candidates -/

omit [Field R] in
lemma largest_le {l : List (WithBot R)} {c : WithBot R} (h : ∀ v ∈ l, v ≤ c) : largest l ≤ c := by
  rw [largest]
  refine List.foldlRecOn (motive := fun lo => lo ≤ c) l _ bot_le ?_
  intro lo hlo v hv
  split_ifs
  · exact h v hv
  · exact hlo

/-- An upper end that reaches all lower ends reaches the best one. -/
lemma bestLower_le {f : Filter R} {xh : ℕ → R} {V K nt r : ℕ} {part : ℕ → ℕ}
    (h : ∀ r' < V, estimate A f xh K r' - margin A f xh K r' ≤
      estimate A f xh K r + margin A f xh K r) :
    bestLower A f xh V K nt part ≤
      ((estimate A f xh K r + margin A f xh K r : R) : WithBot R) := by
  refine largest_le fun v hv => ?_
  obtain ⟨id, -, rfl⟩ := List.mem_map.mp hv
  refine largest_le fun v hv => ?_
  obtain ⟨r', hr', rfl⟩ := List.mem_map.mp hv
  exact WithBot.coe_le_coe.mpr (h r' (List.mem_range.mp (List.mem_filter.mp hr').1))

/-- Where every estimate is within its margin, the first maximum is a candidate. -/
lemma scan_candidates [IsStrictOrderedRing R] {w : ℕ → ℕ → UInt16} {x : ℕ → R} {f : Filter R}
    {V K nt : ℕ} {part : ℕ → ℕ}
    (h : ∀ r < V, |logit A w x K r - estimate A f (rounded A x) K r| ≤
      margin A f (rounded A x) K r) :
    Scan.scan (logit A w x K) (candidates A f (rounded A x) V K nt part) =
      Scan.scan (logit A w x K) (List.range V) := by
  refine Scan.scan_filter fun r hr hmax => ?_
  refine decide_eq_true (bestLower_le fun r' hr' => ?_)
  have hlower := (abs_le.mp (h r' hr')).1
  have hupper := (abs_le.mp (h r (List.mem_range.mp hr))).2
  have hle := hmax r' (List.mem_range.mpr hr')
  linarith

end Model

/-! ### The error of an estimate -/

/-- The operations on reals. -/
noncomputable def exact (half : UInt16 → ℝ) (f16r : ℝ → ℝ) (rint : ℝ → ℤ) : Exact ℝ where
  half := half
  f16r := f16r
  rint := rint
  sqrt := Real.sqrt

/-- The stored norms of a row are not below the true ones. -/
structure Covers (wr : ℕ → ℝ) (q : ℕ → ℤ) (d : ℝ) (K : ℕ) (b : Bounds ℝ) : Prop where
  err : √(∑ k ∈ range K, (wr k - d * q k) * (wr k - d * q k)) ≤ b.err
  quant : d * √(∑ k ∈ range K, (q k : ℝ) * q k) ≤ b.quant
  row : √(∑ k ∈ range K, wr k * wr k) ≤ b.row

lemma abs_sum_mul_le (f g : ℕ → ℝ) (K : ℕ) :
    |∑ k ∈ range K, f k * g k| ≤
      √(∑ k ∈ range K, f k * f k) * √(∑ k ∈ range K, g k * g k) := by
  have hupper := Real.sum_mul_le_sqrt_mul_sqrt (range K) f g
  have hlower := Real.sum_mul_le_sqrt_mul_sqrt (range K) (fun k => -f k) g
  simp only [neg_mul, mul_neg, neg_neg, sum_neg_distrib, sq] at hupper hlower
  exact abs_le.mpr ⟨by linarith, hupper⟩

section Real

variable {half : UInt16 → ℝ} {f16r : ℝ → ℝ} {rint : ℝ → ℤ}

lemma sqrt_le_grown {y : ℝ} : √y ≤ √y * (1 + 1 / 10 ^ 6) :=
  le_mul_of_one_le_right (Real.sqrt_nonneg y) (by norm_num)

lemma rowScale_nonneg (wr : ℕ → ℝ) (K : ℕ) : 0 ≤ rowScale wr K :=
  div_nonneg (absMax_nonneg wr K) (by norm_num)

/-- The norms of the tables are not below the true ones. -/
theorem rowBounds_covers (wr : ℕ → ℝ) (K : ℕ) :
    Covers wr (rowQuant (exact half f16r rint) wr K) (rowScale wr K) K
      (rowBounds (exact half f16r rint) wr K) where
  err := sqrt_le_grown.trans (le_add_of_nonneg_right (by norm_num))
  quant := by
    rw [rowBounds, mul_assoc]
    exact mul_le_mul_of_nonneg_left sqrt_le_grown (rowScale_nonneg wr K)
  row := sqrt_le_grown

/-- The error of an estimate in two parts: the weights off their grid, and the activations. -/
lemma logit_sub_estimate (wr xh c : ℕ → ℝ) (q : ℕ → ℤ) (d s : ℝ) (K : ℕ) :
    ∑ k ∈ range K, wr k * xh k - (∑ k ∈ range K, c k * q k) * (d / s) =
      ∑ k ∈ range K, (wr k - d * q k) * xh k + d * ∑ k ∈ range K, (q k : ℝ) * (xh k - c k / s) := by
  rw [sum_mul, mul_sum, ← sum_sub_distrib, ← sum_add_distrib]
  refine sum_congr rfl fun k _ => ?_
  ring

/-- The estimate of a row is off by its margin at most. -/
theorem abs_logit_sub_estimate_le {x : ℕ → ℝ} {w : ℕ → ℕ → UInt16} {K r : ℕ} {f : Filter ℝ}
    (hK : K % 32 = 0) (hmax : K ≤ headMaxK) (hq : ∀ k, |f.q r k| ≤ 127) (hd : 0 ≤ f.scale r)
    (hf : Covers (row (exact half f16r rint) w r) (f.q r) (f.scale r) K (f.bound r)) :
    |logit (exact half f16r rint) w x K r -
        estimate (exact half f16r rint) f (rounded (exact half f16r rint) x) K r| ≤
      margin (exact half f16r rint) f (rounded (exact half f16r rint) x) K r := by
  set A := exact half f16r rint
  set xh := rounded A x
  set wr := row A w r
  have hx : √(∑ k ∈ range K, xh k * xh k) ≤ xNorm A xh K := sqrt_le_grown
  have hen := sqrt_le_grown (y := ∑ k ∈ range K, (xh k - actQuant A xh K k / actScale xh K) *
    (xh k - actQuant A xh K k / actScale xh K))
  change _ ≤ errNorm A xh K at hen
  have hx0 : 0 ≤ xNorm A xh K := (Real.sqrt_nonneg _).trans hx
  have hen0 : 0 ≤ errNorm A xh K := (Real.sqrt_nonneg _).trans hen
  have herr0 : 0 ≤ (f.bound r).err := (Real.sqrt_nonneg _).trans hf.err
  have hquant0 : 0 ≤ (f.bound r).quant := (mul_nonneg hd (Real.sqrt_nonneg _)).trans hf.quant
  have hrow0 : 0 ≤ (f.bound r).row := (Real.sqrt_nonneg _).trans hf.row
  have hest : estimate A f xh K r =
      (∑ k ∈ range K, (actQuant A xh K k : ℝ) * f.q r k) * (f.scale r / actScale xh K) := by
    rw [estimate, rowAcc_eq hmax hq]
    push_cast
    rfl
  have hweights : |∑ k ∈ range K, (wr k - f.scale r * f.q r k) * xh k| ≤
      (f.bound r).err * xNorm A xh K :=
    (abs_sum_mul_le _ _ K).trans (mul_le_mul hf.err hx (Real.sqrt_nonneg _) herr0)
  have hacts : |f.scale r * ∑ k ∈ range K, (f.q r k : ℝ) *
      (xh k - actQuant A xh K k / actScale xh K)| ≤ (f.bound r).quant * errNorm A xh K := by
    rw [abs_mul, abs_of_nonneg hd]
    calc f.scale r * |∑ k ∈ range K, (f.q r k : ℝ) * (xh k - actQuant A xh K k / actScale xh K)|
        ≤ f.scale r * (√(∑ k ∈ range K, (f.q r k : ℝ) * f.q r k) *
            √(∑ k ∈ range K, (xh k - actQuant A xh K k / actScale xh K) *
              (xh k - actQuant A xh K k / actScale xh K))) :=
          mul_le_mul_of_nonneg_left (abs_sum_mul_le _ _ K) hd
      _ = f.scale r * √(∑ k ∈ range K, (f.q r k : ℝ) * f.q r k) *
            √(∑ k ∈ range K, (xh k - actQuant A xh K k / actScale xh K) *
              (xh k - actQuant A xh K k / actScale xh K)) := (mul_assoc ..).symm
      _ ≤ (f.bound r).quant * errNorm A xh K :=
          mul_le_mul hf.quant hen (Real.sqrt_nonneg _) hquant0
  have hfp : (0 : ℝ) ≤ ((K / 8 + 3 : ℕ) : ℝ) * (1 / 2 ^ 24) * 2 := by positivity
  have hrest : 0 ≤ ((K / 8 + 3 : ℕ) : ℝ) * (1 / 2 ^ 24) * 2 * (f.bound r).row * xNorm A xh K :=
    mul_nonneg (mul_nonneg hfp hrow0) hx0
  have hestimate := abs_nonneg (estimate A f xh K r)
  have hsum := mul_nonneg herr0 hx0
  have hsum' := mul_nonneg hquant0 hen0
  calc |logit A w x K r - estimate A f xh K r|
      = |∑ k ∈ range K, (wr k - f.scale r * f.q r k) * xh k + f.scale r * ∑ k ∈ range K,
          (f.q r k : ℝ) * (xh k - actQuant A xh K k / actScale xh K)| := by
        rw [logit, headRow_eq _ _ hK, hest, logit_sub_estimate]
    _ ≤ (f.bound r).err * xNorm A xh K + (f.bound r).quant * errNorm A xh K :=
        (abs_add_le _ _).trans (add_le_add hweights hacts)
    _ ≤ margin A f xh K r := by
        simp only [margin]
        linarith

end Real

/-! ### The token -/

section Token

variable {half : UInt16 → ℝ} {f16r : ℝ → ℝ} {rint : ℝ → ℤ}

/-- What a build leaves: rows and columns, codes of a byte and scales that are not negative. -/
lemma of_headFilterBuild {w : ℕ → ℕ → UInt16} {V K : ℕ} {built : Filter ℝ}
    (h : headFilterBuild (exact half f16r rint) w V K = .ok built) :
    ¬(K = 0 ∨ V = 0) ∧ (∀ r k, |built.q r k| ≤ 127) ∧ ∀ r, 0 ≤ built.scale r := by
  rw [headFilterBuild] at h
  split_ifs at h with hsize
  obtain rfl := Except.ok.inj h
  refine ⟨fun hzero => hsize (hzero.elim (fun hK => .inr (.inl hK)) .inl), ?_, ?_⟩
  · exact fun r k => clamp_abs le_rfl le_rfl (by simp)
  · exact fun r => rowScale_nonneg _ K

/-- The norms a build leaves are not below the true ones. -/
lemma covers_of_headFilterBuild {w : ℕ → ℕ → UInt16} {V K : ℕ} {built : Filter ℝ}
    (h : headFilterBuild (exact half f16r rint) w V K = .ok built) (r : ℕ) :
    Covers (row (exact half f16r rint) w r) (built.q r) (built.scale r) K (built.bound r) := by
  rw [headFilterBuild] at h
  split_ifs at h
  obtain rfl := Except.ok.inj h
  exact rowBounds_covers _ K

/-- **The filtered scan.** With norms that are not below the true ones every estimate is within
its margin, and the scan of the candidates ends at the token and the logit of the full scan, on
any number of threads. -/
theorem filtered_argmax_eq {w : ℕ → ℕ → UInt16} {V K : ℕ} {built : Filter ℝ}
    (hbuilt : headFilterBuild (exact half f16r rint) w V K = .ok built) {bound : ℕ → Bounds ℝ}
    (hbound : ∀ r < V,
      Covers (row (exact half f16r rint) w r) (built.q r) (built.scale r) K (bound r))
    (x : ℕ → ℝ) {n scratchBytes : ℕ} (hn : 0 < n) (hscratch : headFilterScratch V K ≤ scratchBytes)
    (nt : ℕ) (part : ℕ → ℕ) :
    (K % 32 = 0 → K ≤ headMaxK → ∀ r < V,
      |logit (exact half f16r rint) w x K r - estimate (exact half f16r rint)
          { built with bound := bound } (rounded (exact half f16r rint) x) K r| ≤
        margin (exact half f16r rint) { built with bound := bound }
          (rounded (exact half f16r rint) x) K r) ∧
      (headFilteredArgmaxCpu (exact half f16r rint) x w { built with bound := bound } V K
        scratchBytes nt part).map Prod.fst =
        headF16ArgmaxCpu (exact half f16r rint) x w V K n := by
  obtain ⟨hsize, hq, hd⟩ := of_headFilterBuild hbuilt
  have hwithin : K % 32 = 0 → K ≤ headMaxK → ∀ r < V,
      |logit (exact half f16r rint) w x K r - estimate (exact half f16r rint)
          { built with bound := bound } (rounded (exact half f16r rint) x) K r| ≤
        margin (exact half f16r rint) { built with bound := bound }
          (rounded (exact half f16r rint) x) K r :=
    fun hK hmax r hr => abs_logit_sub_estimate_le hK hmax (hq r) (hd r) (hbound r hr)
  refine ⟨hwithin, ?_⟩
  rw [headF16ArgmaxCpu_eq hn, headFilteredArgmaxCpu]
  by_cases haccept : K % 32 ≠ 0 ∨ headMaxK < K
  · rw [if_pos haccept, if_pos haccept]
    rfl
  · obtain ⟨hK, hmax⟩ := not_or.mp haccept
    rw [if_neg haccept, if_neg haccept, if_neg hscratch.not_gt, if_neg hsize]
    dsimp only
    rw [scan_candidates (hwithin (not_not.mp hK) (not_lt.mp hmax))]
    cases Scan.scan (logit (exact half f16r rint) w x K) (List.range V) <;> rfl

/-- A row of zeros and one of ones, on two threads. -/
theorem filtered_argmax_eq_two :
    ∃ built, headFilterBuild (exact (fun h => h.toNat) id Int.floor)
        (fun r _ => if r = 1 then 1 else 0) 2 32 = .ok built ∧
      (headFilteredArgmaxCpu (exact (fun h => h.toNat) id Int.floor) (fun _ => 1)
        (fun r _ => if r = 1 then 1 else 0) built 2 32 500 2 id).map Prod.fst = .ok (1, 32) := by
  obtain ⟨built, hbuilt⟩ : ∃ built, headFilterBuild (exact (fun h => h.toNat) id Int.floor)
      (fun r _ => if r = 1 then 1 else 0) 2 32 = .ok built := ⟨_, rfl⟩
  have hscan : headF16ArgmaxCpu (exact (fun h => h.toNat) id Int.floor) (fun _ => 1)
      (fun r _ => if r = 1 then 1 else 0) 2 32 2 = .ok (1, 32) := by
    rw [headF16ArgmaxCpu_eq (by simp), if_neg (by simp [headMaxK])]
    simp [Scan.scan, Scan.best, Scan.better, List.range_succ, logit, headRow_eq, row, rounded,
      exact]
  refine ⟨built, hbuilt, ?_⟩
  exact (filtered_argmax_eq hbuilt (fun r _ => covers_of_headFilterBuild hbuilt r) _ (n := 2)
    (by simp) (by simp [headFilterScratch]) 2 id).2.trans hscan

end Token

end VibeVoice.Head
