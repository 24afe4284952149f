import Mathlib.Algebra.BigOperators.Ring.Finset
import Mathlib.Algebra.Module.Equiv.Basic
import Mathlib.Algebra.Module.LinearMap.End
import Mathlib.Algebra.Module.Pi
import Mathlib.Data.Nat.Bitwise
import Mathlib.Tactic.Ring

/-!
The Walsh-Hadamard transform as a run of butterflies, on the values `x i` of the indices `i`.

* `stage k`: the butterfly of the indices that differ in bit `k`.
* `stage_stage`, `stage_comm`, `sum_stage_mul`: it is its own inverse up to `2`, commutes with the
  others and is symmetric.
* `walsh n`: the stages of the first `n` bits. `walsh_walsh`, `sum_walsh_mul_walsh`: it is its own
  inverse and keeps inner products, up to `2 ^ n`.
-/

namespace Hadamard

open Finset

variable {R : Type*} [CommRing R] {n k j : ℕ}

/-! ### One stage -/

/-- The butterfly of bit `k`: the index without the bit gets the sum, the one with it the
difference. -/
def stage (k : ℕ) : (ℕ → R) →ₗ[R] ℕ → R where
  toFun x i := if i.testBit k then x (i ^^^ 2 ^ k) - x i else x i + x (i ^^^ 2 ^ k)
  map_add' x y := by
    funext i
    simp only [Pi.add_apply]
    split <;> ring
  map_smul' c x := by
    funext i
    simp only [Pi.smul_apply, smul_eq_mul, RingHom.id_apply]
    split <;> ring

/-- The sign with which an index meets itself. -/
def sign (R : Type*) [CommRing R] (k i : ℕ) : R := if i.testBit k then -1 else 1

lemma stage_apply (x : ℕ → R) (i : ℕ) : stage k x i = sign R k i * x i + x (i ^^^ 2 ^ k) := by
  simp only [stage, sign, LinearMap.coe_mk, AddHom.coe_mk]
  split <;> ring

@[simp] lemma sign_mul_self (k i : ℕ) : sign R k i * sign R k i = 1 := by
  rw [sign]
  split <;> ring

lemma sign_xor_self (k i : ℕ) : sign R k (i ^^^ 2 ^ k) = -sign R k i := by
  rw [sign, sign, Nat.testBit_xor, Nat.testBit_two_pow_self, Bool.xor_true]
  cases i.testBit k <;> simp

lemma sign_xor (h : j ≠ k) (i : ℕ) : sign R k (i ^^^ 2 ^ j) = sign R k i := by
  rw [sign, sign, Nat.testBit_xor, Nat.testBit_two_pow_of_ne h, Bool.xor_false]

lemma stage_stage (x : ℕ → R) : stage k (stage k x) = (2 : R) • x := by
  funext i
  simp only [stage_apply, sign_xor_self, Nat.xor_xor_cancel_right, Pi.smul_apply, smul_eq_mul]
  calc sign R k i * (sign R k i * x i + x (i ^^^ 2 ^ k)) +
        (-sign R k i * x (i ^^^ 2 ^ k) + x i)
      = sign R k i * sign R k i * x i + x i := by ring
    _ = 2 * x i := by rw [sign_mul_self]; ring

lemma stage_comm (h : j ≠ k) (x : ℕ → R) : stage j (stage k x) = stage k (stage j x) := by
  funext i
  simp only [stage_apply, sign_xor h, sign_xor h.symm, Nat.xor_right_comm i (2 ^ j) (2 ^ k)]
  ring

/-- A stage is symmetric, on the indices of enough bits. -/
lemma sum_stage_mul (h : k < n) (x y : ℕ → R) :
    ∑ i ∈ range (2 ^ n), stage k x i * y i = ∑ i ∈ range (2 ^ n), x i * stage k y i := by
  have hflip : ∀ i ∈ range (2 ^ n), i ^^^ 2 ^ k ∈ range (2 ^ n) := fun i hi =>
    mem_range.mpr (Nat.xor_lt_two_pow (mem_range.mp hi) (Nat.pow_lt_pow_right one_lt_two h))
  have hcross : ∑ i ∈ range (2 ^ n), x (i ^^^ 2 ^ k) * y i =
      ∑ i ∈ range (2 ^ n), x i * y (i ^^^ 2 ^ k) :=
    sum_nbij' (· ^^^ 2 ^ k) (· ^^^ 2 ^ k) hflip hflip (fun i _ => Nat.xor_xor_cancel_right ..)
      (fun i _ => Nat.xor_xor_cancel_right ..) fun i _ => by rw [Nat.xor_xor_cancel_right]
  simp only [stage_apply, add_mul, mul_add, sum_add_distrib, hcross]
  congr 1
  exact sum_congr rfl fun i _ => by ring

/-! ### All stages -/

/-- The stages of the bits below `n`, from bit `0` on. -/
def walsh : ℕ → (ℕ → R) →ₗ[R] ℕ → R
  | 0 => LinearMap.id
  | n + 1 => stage n ∘ₗ walsh n

@[simp] lemma walsh_zero (x : ℕ → R) : walsh 0 x = x := rfl

lemma walsh_succ (x : ℕ → R) : walsh (n + 1) x = stage n (walsh n x) := rfl

lemma walsh_stage (h : n ≤ k) (x : ℕ → R) : walsh n (stage k x) = stage k (walsh n x) := by
  induction n with
  | zero => rfl
  | succ n ih => rw [walsh_succ, walsh_succ, ih (by omega), stage_comm (by omega)]

theorem walsh_walsh (n : ℕ) (x : ℕ → R) : walsh n (walsh n x) = (2 ^ n : R) • x := by
  induction n with
  | zero => rw [walsh_zero, walsh_zero, pow_zero, one_smul]
  | succ n ih =>
    rw [walsh_succ, walsh_succ, walsh_stage le_rfl, ih, stage_stage, smul_smul, pow_succ']

lemma sum_walsh_mul (h : k ≤ n) (x y : ℕ → R) :
    ∑ i ∈ range (2 ^ n), walsh k x i * y i = ∑ i ∈ range (2 ^ n), x i * walsh k y i := by
  induction k generalizing x y with
  | zero => rfl
  | succ k ih =>
    rw [walsh_succ, sum_stage_mul h, ih (Nat.le_of_succ_le h), walsh_stage le_rfl]
    rfl

theorem sum_walsh_mul_walsh (n : ℕ) (x y : ℕ → R) :
    ∑ i ∈ range (2 ^ n), walsh n x i * walsh n y i =
      2 ^ n * ∑ i ∈ range (2 ^ n), x i * y i := by
  rw [sum_walsh_mul le_rfl, walsh_walsh, mul_sum]
  refine sum_congr rfl fun i _ => ?_
  rw [Pi.smul_apply, smul_eq_mul]
  ring

end Hadamard
