import Mathlib.Algebra.BigOperators.Field
import Mathlib.Algebra.Module.BigOperators
import Mathlib.Algebra.Module.LinearMap.Defs
import Mathlib.Analysis.Complex.Exponential

/-!
Means weighted by the exponentials of scores, in exact arithmetic.

* `Expo`: a positive homomorphism from sums to products. `Expo.real`: the exponential.
* `mean`: the softmax of some scores, applied to some vectors.
* `mean_add`: it does not see what is added to every score. `map_mean`: it commutes with linear
  maps.
-/

namespace Softmax

open Finset

/-- A positive exponential. -/
structure Expo (R : Type*) [Field R] [LinearOrder R] where
  exp : R → R
  exp_add : ∀ a b, exp (a + b) = exp a * exp b
  exp_pos : ∀ a, 0 < exp a

/-- The exponential of the real numbers. -/
noncomputable def Expo.real : Expo ℝ := ⟨Real.exp, Real.exp_add, Real.exp_pos⟩

variable {R ι M N : Type*} [Field R] [LinearOrder R] [AddCommGroup M] [Module R M] [AddCommGroup N]
  [Module R N] (E : Expo R)

/-- The mean of the vectors `v i` of a set, each with the weight `exp (s i)`. -/
def mean (s : ι → R) (v : ι → M) (t : Finset ι) : M :=
  (∑ i ∈ t, E.exp (s i))⁻¹ • ∑ i ∈ t, E.exp (s i) • v i

variable {E} {s s' : ι → R} {v v' : ι → M} {t : Finset ι}

lemma mean_congr (hs : ∀ i ∈ t, s i = s' i) (hv : ∀ i ∈ t, v i = v' i) :
    mean E s v t = mean E s' v' t := by
  rw [mean, mean, sum_congr rfl fun i hi => congrArg E.exp (hs i hi)]
  congr 1
  exact sum_congr rfl fun i hi => by rw [hs i hi, hv i hi]

/-- What is added to every score cancels. -/
theorem mean_add (c : R) (s : ι → R) (v : ι → M) (t : Finset ι) :
    mean E (fun i => c + s i) v t = mean E s v t := by
  have hne : E.exp c ≠ 0 := (E.exp_pos c).ne'
  simp only [mean, E.exp_add, mul_smul, ← mul_sum, ← smul_sum, mul_inv]
  rw [smul_smul, smul_smul, mul_right_comm, inv_mul_cancel₀ hne, one_mul]

theorem map_mean (f : M →ₗ[R] N) (s : ι → R) (v : ι → M) (t : Finset ι) :
    f (mean E s v t) = mean E s (fun i => f (v i)) t := by
  simp only [mean, map_smul, map_sum]

end Softmax
