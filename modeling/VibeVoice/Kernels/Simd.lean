import Mathlib.Tactic.IntervalCases
import VibeVoice.Lib.Lanes

/-!
The vector instructions of the integer kernels, lane by lane.

A register is a function of its lane; bytes are numbers, and 16-bit and 32-bit lanes are
accumulators.

* `srliEpi16`, `absEpi8`, `signEpi8`, `maskSign`, `maddubs`, `maddOnes`, `dpbusd`, `hsum`,
  `reduceAdd`: x86.
* `vdot`, `vmull`, `vmlal`, `vpadal`, `vaddv`: ARM.
-/

namespace VibeVoice.Kernels

open Finset Lanes
open Lanes.Acc (lift)

/-- A register of accumulators. -/
abbrev Reg := ℕ → Acc

/-- `_mm256_setzero_si256`. -/
def zero : Reg := fun _ => lift 0

/-- `_mm256_add_epi16` and `_mm256_add_epi32`. -/
def addLanes (w : ℕ) (a b : Reg) : Reg := fun l => (a l).add w (b l)

/-- `_mm256_srli_epi16`, seen by its bytes. -/
def srliEpi16 (v : ℕ → ℕ) (s : ℕ) : ℕ → ℕ := fun j =>
  ((v (j / 2 * 2) + 256 * v (j / 2 * 2 + 1)) >>> s) / 256 ^ (j % 2) % 256

/-- `_mm256_abs_epi8` and `_mm512_abs_epi8`, whose result is unsigned. -/
def absEpi8 (x : ℕ → Int8) : ℕ → ℕ := fun j => (x j).toInt.natAbs

/-- `_mm256_sign_epi8`. -/
def signEpi8 (w x : ℕ → Int8) : ℕ → Int8 := fun j =>
  if x j < 0 then -w j else if x j = 0 then 0 else w j

/-- What stands in for it at 512 bits: `w` negated where `x < 0`, zero where `x = 0`. -/
def maskSign (w x : ℕ → Int8) : ℕ → Int8 := fun j =>
  if x j ≠ 0 then if x j < 0 then 0 - w j else w j else 0

/-- `_mm256_maddubs_epi16`: pairs of unsigned and signed bytes, added with saturation. -/
def maddubs (u : ℕ → ℕ) (s : ℕ → ℤ) : Reg := fun l =>
  Acc.saturate 16 (u (2 * l) * s (2 * l) + u (2 * l + 1) * s (2 * l + 1))

/-- `_mm256_madd_epi16` with ones. -/
def maddOnes (a : Reg) : Reg := fun l => (a (2 * l)).add 32 (a (2 * l + 1))

/-- `_mm256_dpbusd_avx_epi32` and `_mm512_dpbusd_epi32`. -/
def dpbusd (a : Reg) (u : ℕ → ℕ) (s : ℕ → ℤ) : Reg := fun l =>
  (a l).add 32 (lift (∑ i ∈ range 4, u (4 * l + i) * s (4 * l + i)))

/-- `hsum_epi32_avx2`. -/
def hsum (v : Reg) : Acc :=
  let s : Reg := fun l => (v l).add 32 (v (l + 4))
  ((s 0).add 32 (s 2)).add 32 ((s 1).add 32 (s 3))

/-- `_mm512_reduce_add_epi32`. -/
def reduceAdd (v : Reg) : Acc := hsum fun l => (v l).add 32 (v (l + 8))

/-- `vdotq_s32`. -/
def vdot (a : Reg) (t x : ℕ → ℤ) : Reg := fun l =>
  (a l).add 32 (lift (∑ i ∈ range 4, t (4 * l + i) * x (4 * l + i)))

/-- `vmull_s8`. -/
def vmull (t x : ℕ → ℤ) : Reg := fun l => lift (t l * x l)

/-- `vmlal_s8`. -/
def vmlal (p : Reg) (t x : ℕ → ℤ) : Reg := fun l => (p l).add 16 (lift (t l * x l))

/-- `vpadalq_s16`. -/
def vpadal (a p : Reg) : Reg := fun l => (a l).add 32 ((p (2 * l)).add 32 (p (2 * l + 1)))

/-- `vaddvq_s32`. -/
def vaddv (v : Reg) : Acc := ((v 0).add 32 (v 1)).add 32 ((v 2).add 32 (v 3))

section

variable {v : Reg} {c : ℕ → Prop} {z : ℕ → ℤ} {B : ℤ}

/-- The sum of eight lanes: only the last addition may overflow, the lanes being that small. -/
lemma hsum_computes (hv : ∀ l < 8, (v l).Within (c l) (z l) B) (hB : 4 * B < 2 ^ 31) :
    (hsum v).Computes ((∀ l < 8, c l) ∧ Fits 32 (∑ l ∈ range 8, z l)) (∑ l ∈ range 8, z l) := by
  have hB0 : 0 ≤ B := (abs_nonneg _).trans (hv 0 (by omega)).bound
  have hpair : ∀ l < 4, ((v l).add 32 (v (l + 4))).Within (c l ∧ c (l + 4))
      (z l + z (l + 4)) (B + B) := fun l hl =>
    (hv l (by omega)).add (by omega) (hv (l + 4) (by omega)) (by omega)
  have hfst := (hpair 0 (by omega)).add (w := 32) (by omega) (hpair 2 (by omega)) (by omega)
  have hsnd := (hpair 1 (by omega)).add (w := 32) (by omega) (hpair 3 (by omega)) (by omega)
  have hsum : z 0 + z (0 + 4) + (z 2 + z (2 + 4)) + (z 1 + z (1 + 4) + (z 3 + z (3 + 4))) =
      ∑ l ∈ range 8, z l := by
    simp only [sum_range_succ, sum_range_zero]
    ring
  refine (hfst.computes.add (w := 32) (by omega) hsnd.computes).congr ?_ hsum
  rw [hsum]
  refine and_congr_left fun _ => ⟨?_, fun h => ?_⟩
  · rintro ⟨⟨⟨h0, h4⟩, h2, h6⟩, ⟨h1, h5⟩, h3, h7⟩ l hl
    interval_cases l <;> assumption
  · exact ⟨⟨⟨h 0 (by omega), h 4 (by omega)⟩, h 2 (by omega), h 6 (by omega)⟩,
      ⟨h 1 (by omega), h 5 (by omega)⟩, h 3 (by omega), h 7 (by omega)⟩

lemma reduceAdd_computes (hv : ∀ l < 16, (v l).Within (c l) (z l) B) (hB : 8 * B < 2 ^ 31) :
    (reduceAdd v).Computes ((∀ l < 16, c l) ∧ Fits 32 (∑ l ∈ range 16, z l))
      (∑ l ∈ range 16, z l) := by
  have hB0 : 0 ≤ B := (abs_nonneg _).trans (hv 0 (by omega)).bound
  have hpair : ∀ l < 8, ((v l).add 32 (v (l + 8))).Within (c l ∧ c (l + 8))
      (z l + z (l + 8)) (B + B) := fun l hl =>
    (hv l (by omega)).add (by omega) (hv (l + 8) (by omega)) (by omega)
  have hsum : ∑ l ∈ range 8, (z l + z (l + 8)) = ∑ l ∈ range 16, z l := by
    rw [sum_add_distrib, sum_range_add z 8 8]
    simp only [Nat.add_comm]
  refine (hsum_computes hpair (by omega)).congr ?_ hsum
  rw [hsum]
  refine and_congr_left fun _ => ⟨fun h l hl => ?_, fun h l hl => ⟨h l (by omega), h _ (by omega)⟩⟩
  rcases Nat.lt_or_ge l 8 with hlow | hhigh
  · exact (h l hlow).1
  · have hsnd := (h (l - 8) (by omega)).2
    rwa [Nat.sub_add_cancel hhigh] at hsnd

/-- The sum of four lanes: only the last addition may overflow. -/
lemma vaddv_computes (hv : ∀ l < 4, (v l).Within (c l) (z l) B) (hB : 2 * B < 2 ^ 31) :
    (vaddv v).Computes ((∀ l < 4, c l) ∧ Fits 32 (∑ l ∈ range 4, z l)) (∑ l ∈ range 4, z l) := by
  have hfst := (hv 0 (by omega)).add (w := 32) (by omega) (hv 1 (by omega)) (by omega)
  have hsnd := (hv 2 (by omega)).add (w := 32) (by omega) (hv 3 (by omega)) (by omega)
  have hsum : z 0 + z 1 + (z 2 + z 3) = ∑ l ∈ range 4, z l := by
    simp only [sum_range_succ, sum_range_zero]
    ring
  refine (hfst.computes.add (w := 32) (by omega) hsnd.computes).congr ?_ hsum
  rw [hsum]
  refine and_congr_left fun _ => ⟨?_, fun h => ?_⟩
  · rintro ⟨⟨h0, h1⟩, h2, h3⟩ l hl
    interval_cases l <;> assumption
  · exact ⟨⟨h 0 (by omega), h 1 (by omega)⟩, h 2 (by omega), h 3 (by omega)⟩

/-- The sums of lanes, whatever overflows. -/
lemma hsum_sums (hv : ∀ l < 8, (v l).Sums 32 (z l) B) :
    (hsum v).Sums 32 (∑ l ∈ range 8, z l) (8 * B) := by
  have hpair : ∀ l < 4, ((v l).add 32 (v (l + 4))).Sums 32 (z l + z (l + 4)) (B + B) :=
    fun l hl => (hv l (by omega)).add (by omega) (hv (l + 4) (by omega))
  have hfst := (hpair 0 (by omega)).add (by omega) (hpair 2 (by omega))
  have hsnd := (hpair 1 (by omega)).add (by omega) (hpair 3 (by omega))
  refine (hfst.add (by omega) hsnd).congr ?_ (by ring)
  simp only [sum_range_succ, sum_range_zero]
  ring

lemma reduceAdd_sums (hv : ∀ l < 16, (v l).Sums 32 (z l) B) :
    (reduceAdd v).Sums 32 (∑ l ∈ range 16, z l) (16 * B) := by
  have hpair : ∀ l < 8, ((v l).add 32 (v (l + 8))).Sums 32 (z l + z (l + 8)) (B + B) :=
    fun l hl => (hv l (by omega)).add (by omega) (hv (l + 8) (by omega))
  refine (hsum_sums hpair).congr ?_ (by ring)
  rw [sum_add_distrib, sum_range_add z 8 8]
  simp only [Nat.add_comm]

lemma vaddv_sums (hv : ∀ l < 4, (v l).Sums 32 (z l) B) :
    (vaddv v).Sums 32 (∑ l ∈ range 4, z l) (4 * B) := by
  have hfst := (hv 0 (by omega)).add (by omega) (hv 1 (by omega))
  have hsnd := (hv 2 (by omega)).add (by omega) (hv 3 (by omega))
  refine (hfst.add (by omega) hsnd).congr ?_ (by ring)
  simp only [sum_range_succ, sum_range_zero]
  ring

end

end VibeVoice.Kernels
