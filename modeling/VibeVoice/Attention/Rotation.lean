import VibeVoice.Lib.Hadamard
import VibeVoice.Lib.Softmax
import Mathlib.Analysis.Real.Sqrt
import Mathlib.Tactic.FinCases

/-!
The rotation of a TurboQuant cache (`kv_codec.cuh`, `kv_quant.cu`), in exact arithmetic.

* `kvSign`, `warpWht128`, `kvRotate`: the transform of one head of 128 values over a warp of 32
  lanes.
* `kvRotate_false`, `kvRotate_true`: it is a signed Walsh-Hadamard transform, `rotate` and
  `unrotate`. `unrotate_rotate`, `dot_rotate`: they undo each other and keep inner products.
* `attend`: softmax attention of one query. `attend_rotate`: on rotated vectors it is rotated, and
  a reference taken off every key does not show.
-/

namespace VibeVoice.Attention

open Finset Hadamard Softmax

/-- `head_dim`. -/
def headDim : ℕ := 128

/-- The exact arithmetic of the kernels, where `WHT_NORM` is `1 / sqrt(128)`. -/
structure Arith (R : Type*) [Field R] [LinearOrder R] extends Expo R where
  whtNorm : R
  whtNorm_sq : whtNorm * whtNorm * 2 ^ 7 = 1

lemma real_whtNorm_sq : (√((2 ^ 7 : ℕ) : ℝ))⁻¹ * (√((2 ^ 7 : ℕ) : ℝ))⁻¹ * 2 ^ 7 = 1 := by
  rw [← mul_inv, Real.mul_self_sqrt (Nat.cast_nonneg _), Nat.cast_pow, Nat.cast_ofNat]
  exact inv_mul_cancel₀ (by positivity)

/-- The arithmetic of the real numbers. -/
noncomputable def Arith.real : Arith ℝ where
  toExpo := Expo.real
  whtNorm := (√((2 ^ 7 : ℕ) : ℝ))⁻¹
  whtNorm_sq := real_whtNorm_sq

/-! ### The transform over a warp -/

section Warp

variable {R : Type*} [CommRing R]

/-- The bit of `kv_sign` that makes a sign negative. -/
def kvSignBit (d : ℕ) : Bool :=
  let h := UInt32.ofNat d * 2654435761 + 0x9E3779B9
  let h := (h ^^^ h >>> 15) * 0x85EBCA6B
  (h ^^^ h >>> 13) &&& 1 ≠ 0

/-- `kv_sign`. -/
def kvSign (R : Type*) [CommRing R] (d : ℕ) : R := if kvSignBit d then -1 else 1

/-- `a = v[i] + v[j]; v[j] = v[i] - v[j]; v[i] = a`. -/
def pairUp (i j : Fin 4) (v : Fin 4 → R) : Fin 4 → R := fun s =>
  if s = i then v i + v j else if s = j then v i - v j else v s

/-- The stages inside a lane. -/
def inLane (v : Fin 4 → R) : Fin 4 → R :=
  pairUp 1 3 (pairUp 0 2 (pairUp 2 3 (pairUp 0 1 v)))

/-- One round of `__shfl_xor_sync` with the lanes `lane ^ m`. -/
def xorStep (m : ℕ) (v : ℕ → Fin 4 → R) : ℕ → Fin 4 → R := fun lane s =>
  if lane &&& m ≠ 0 then v (lane ^^^ m) s - v lane s else v lane s + v (lane ^^^ m) s

/-- `warp_wht128`, on the `v[4]` of every lane. -/
def warpWht128 (v : ℕ → Fin 4 → R) : ℕ → Fin 4 → R :=
  (List.range 5).foldl (fun v j => xorStep (1 <<< j) v) fun lane => inLane (v lane)

/-- What a lane loads: the four values from `d0 = 4 * lane` on. -/
def lanes (x : ℕ → R) : ℕ → Fin 4 → R := fun lane s => x (4 * lane + s)

/-- What the lanes store. -/
def ofLanes (v : ℕ → Fin 4 → R) : ℕ → R := fun d => v (d / 4) ⟨d % 4, Nat.mod_lt d four_pos⟩

omit [CommRing R] in
@[simp] lemma ofLanes_lanes (x : ℕ → R) : ofLanes (lanes x) = x :=
  funext fun d => congrArg x (Nat.div_add_mod d 4)

lemma testBit_lane (lane : ℕ) (s : Fin 4) (j : ℕ) :
    (4 * lane + s).testBit j = if j < 2 then s.val.testBit j else lane.testBit (j - 2) :=
  Nat.testBit_two_pow_mul_add (i := 2) lane s.isLt j

/-- Flipping bits of an index flips bits of the lane and bits of the slot. -/
lemma lane_xor (lane m : ℕ) (s r : Fin 4) :
    (4 * lane + s) ^^^ (4 * m + r) = 4 * (lane ^^^ m) + (s ^^^ r : Fin 4) := by
  have hval : (s ^^^ r : Fin 4).val = s.val ^^^ r.val := by
    revert s r
    decide
  refine Nat.eq_of_testBit_eq fun j => ?_
  rw [Nat.testBit_xor, testBit_lane, testBit_lane, testBit_lane, hval, Nat.testBit_xor,
    Nat.testBit_xor]
  split <;> rfl

lemma inLane_lanes (x : ℕ → R) (lane : ℕ) :
    inLane (lanes x lane) = lanes (stage 1 (stage 0 x)) lane := by
  have h1 : ∀ s : Fin 4, (4 * lane + s) ^^^ 1 = 4 * lane + (s ^^^ 1 : Fin 4) := fun s => by
    simpa using lane_xor lane 0 s 1
  have h2 : ∀ s : Fin 4, (4 * lane + s) ^^^ 2 = 4 * lane + (s ^^^ 2 : Fin 4) := fun s => by
    simpa using lane_xor lane 0 s 2
  funext s
  simp only [lanes, stage_apply, Hadamard.sign, pow_zero, pow_one, testBit_lane, h1, h2]
  fin_cases s <;> simp [inLane, pairUp, lanes, Nat.testBit] <;> ring

lemma xorStep_lanes (x : ℕ → R) (j : ℕ) :
    xorStep (1 <<< j) (lanes x) = lanes (stage (j + 2) x) := by
  funext lane s
  have hxor : (4 * lane + s) ^^^ 2 ^ (j + 2) = 4 * (lane ^^^ 2 ^ j) + s := by
    have hzero : ∀ s : Fin 4, s ^^^ 0 = s := by decide
    have h := lane_xor lane (2 ^ j) s 0
    rw [Fin.val_zero, Nat.add_zero, hzero] at h
    rw [← h, Nat.pow_add, Nat.mul_comm (2 ^ j)]
  have hbit : lane &&& 2 ^ j ≠ 0 ↔ (4 * lane + s).testBit (j + 2) = true := by
    rw [testBit_lane, if_neg (by omega), Nat.add_sub_cancel, Nat.and_two_pow]
    cases lane.testBit j <;> simp
  simp only [xorStep, Nat.one_shiftLeft, lanes, stage, LinearMap.coe_mk, AddHom.coe_mk, hxor, hbit]

/-- The warp computes the transform of the first seven bits. -/
lemma warpWht128_lanes (x : ℕ → R) : warpWht128 (lanes x) = lanes (walsh 7 x) := by
  have hin : (fun lane => inLane (lanes x lane)) = lanes (walsh 2 x) :=
    funext fun lane => inLane_lanes x lane
  have hrun : ∀ n, (List.range n).foldl (fun v j => xorStep (1 <<< j) v) (lanes (walsh 2 x)) =
      lanes (walsh (n + 2) x) := fun n => by
    induction n with
    | zero => rfl
    | succ n ih =>
      rw [List.range_succ, List.foldl_append, ih, List.foldl_cons, List.foldl_nil, xorStep_lanes]
      rfl
  rw [warpWht128, hin, hrun]

lemma kvSign_mul_self (d : ℕ) : kvSign R d * kvSign R d = 1 := by
  rw [kvSign]
  split <;> ring

/-- Every value times its sign. -/
def flip (R : Type*) [CommRing R] : (ℕ → R) →ₗ[R] ℕ → R where
  toFun x d := kvSign R d * x d
  map_add' _ _ := funext fun _ => mul_add ..
  map_smul' _ _ := funext fun _ => mul_left_comm ..

lemma flip_flip (x : ℕ → R) : flip R (flip R x) = x := by
  funext d
  simp only [flip, LinearMap.coe_mk, AddHom.coe_mk]
  rw [← mul_assoc, kvSign_mul_self, one_mul]

/-- The inner product of two heads. -/
def dot (x y : ℕ → R) : R := ∑ d ∈ range headDim, x d * y d

lemma dot_flip (x y : ℕ → R) : dot (flip R x) (flip R y) = dot x y := by
  refine sum_congr rfl fun d _ => ?_
  change kvSign R d * x d * (kvSign R d * y d) = x d * y d
  calc kvSign R d * x d * (kvSign R d * y d)
      = kvSign R d * kvSign R d * (x d * y d) := by ring
    _ = x d * y d := by rw [kvSign_mul_self, one_mul]

lemma dot_sub (x y z : ℕ → R) : dot x (y - z) = dot x y - dot x z := by
  simp only [dot, Pi.sub_apply, mul_sub, sum_sub_distrib]

end Warp

/-! ### The rotation -/

section Rotate

variable {R : Type*} [Field R] [LinearOrder R] (A : Arith R)

/-- `kv_rotate_kernel`, on one head. -/
def kvRotate (inverse : Bool) (x : ℕ → R) : ℕ → R :=
  if inverse then
    ofLanes fun lane s =>
      warpWht128 (lanes x) lane s * (A.whtNorm * kvSign R (4 * lane + s))
  else
    ofLanes fun lane s =>
      warpWht128 (fun lane s => lanes x lane s * kvSign R (4 * lane + s)) lane s * A.whtNorm

/-- The rotation of stored vectors and of queries. -/
def rotate : (ℕ → R) →ₗ[R] ℕ → R := A.whtNorm • walsh 7 ∘ₗ flip R

/-- The rotation of outputs. -/
def unrotate : (ℕ → R) →ₗ[R] ℕ → R := A.whtNorm • flip R ∘ₗ walsh 7

theorem kvRotate_false (x : ℕ → R) : kvRotate A false x = rotate A x := by
  have hflip : (fun lane s => lanes x lane s * kvSign R (4 * lane + s)) = lanes (flip R x) :=
    funext fun lane => funext fun s => mul_comm ..
  have hscale : ∀ y : ℕ → R, (ofLanes fun lane s => lanes y lane s * A.whtNorm) =
      A.whtNorm • ofLanes (lanes y) := fun y => funext fun d => mul_comm ..
  rw [kvRotate, if_neg Bool.false_ne_true, hflip, warpWht128_lanes, hscale, ofLanes_lanes]
  rfl

theorem kvRotate_true (x : ℕ → R) : kvRotate A true x = unrotate A x := by
  have hscale : ∀ y : ℕ → R,
      (ofLanes fun lane s => lanes y lane s * (A.whtNorm * kvSign R (4 * lane + s))) =
        A.whtNorm • ofLanes (lanes (flip R y)) := fun y => by
    funext d
    change y (4 * (d / 4) + d % 4) * (A.whtNorm * kvSign R (4 * (d / 4) + d % 4)) =
      A.whtNorm * (kvSign R (4 * (d / 4) + d % 4) * y (4 * (d / 4) + d % 4))
    ring
  rw [kvRotate, if_pos rfl, warpWht128_lanes, hscale, ofLanes_lanes]
  rfl

lemma whtNorm_smul (x : ℕ → R) : A.whtNorm • A.whtNorm • (2 ^ 7 : R) • x = x := by
  rw [smul_smul, smul_smul, A.whtNorm_sq, one_smul]

theorem unrotate_rotate (x : ℕ → R) : unrotate A (rotate A x) = x := by
  simp only [unrotate, rotate, LinearMap.smul_apply, LinearMap.comp_apply, map_smul, walsh_walsh,
    flip_flip, whtNorm_smul]

theorem dot_rotate (x y : ℕ → R) : dot (rotate A x) (rotate A y) = dot x y := by
  have hwalsh := sum_walsh_mul_walsh 7 (flip R x) (flip R y)
  calc dot (rotate A x) (rotate A y)
      = A.whtNorm * A.whtNorm *
          ∑ d ∈ range (2 ^ 7), walsh 7 (flip R x) d * walsh 7 (flip R y) d := by
        rw [dot, headDim, mul_sum]
        exact sum_congr rfl fun d _ => mul_mul_mul_comm ..
    _ = dot (flip R x) (flip R y) := by
        rw [hwalsh, ← mul_assoc, A.whtNorm_sq, one_mul]
        rfl
    _ = dot x y := dot_flip x y

end Rotate

/-! ### Attention -/

section Attend

variable {R : Type*} [Field R] [LinearOrder R] (A : Arith R) (scale : R)

/-- The attention of one query over the first `n` positions of one head. -/
def attend (q : ℕ → R) (k v : ℕ → ℕ → R) (n : ℕ) : ℕ → R :=
  mean A.toExpo (fun t => scale * dot q (k t)) v (range n)

/-- **Attention on a rotated cache.**  The reference adds the same to every score, and the rest is
an isometry. -/
theorem attend_rotate {q ref : ℕ → R} {k v k' v' : ℕ → ℕ → R} {n : ℕ}
    (hk : ∀ t < n, k' t = rotate A (k t - ref)) (hv : ∀ t < n, v' t = rotate A (v t)) :
    unrotate A (attend A scale (rotate A q) k' v' n) = attend A scale q k v n := by
  have hscore : ∀ t ∈ range n,
      scale * dot (rotate A q) (k' t) = -(scale * dot q ref) + scale * dot q (k t) := by
    intro t ht
    rw [hk t (mem_range.mp ht), dot_rotate, dot_sub]
    ring
  calc unrotate A (attend A scale (rotate A q) k' v' n)
      = unrotate A (mean A.toExpo (fun t => -(scale * dot q ref) + scale * dot q (k t))
          (fun t => rotate A (v t)) (range n)) :=
        congrArg _ (mean_congr hscore fun t ht => hv t (mem_range.mp ht))
    _ = mean A.toExpo (fun t => scale * dot q (k t)) (fun t => unrotate A (rotate A (v t)))
          (range n) := by rw [mean_add, map_mean]
    _ = attend A scale q k v n := by simp only [unrotate_rotate]; rfl

end Attend

end VibeVoice.Attention
