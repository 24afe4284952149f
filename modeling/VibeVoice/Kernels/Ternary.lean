import VibeVoice.Kernels.Simd
import VibeVoice.Status

/-!
The ternary kernels (`bitnet_cpu.c`): rows of 2-bit codes against int8 activations.

* `ternRowScalar`, `ternRowAvx2`, `ternRowAvxvnni`, `ternRowAvx512`, `ternRowNeon`: one row of codes
  against one row of activations.
* `ternaryDrive`, `ternaryDriveBlocked`: the drivers.
* `ternaryDot`, `RowFits`: the exact sum, and the rows on which nothing overflows.
* `run`, `sum_lanes`: the lanes of a register tile a block.
-/

namespace VibeVoice.Kernels

open Finset Lanes
open Lanes.Acc (lift)

/-! ### The kernels -/

/-- `VV_TERNARY_BLOCK`. -/
def ternaryBlock : ℕ := 128

/-- The codes of a tensor, from some byte on. -/
abbrev Codes := ℕ → UInt8

/-- The activations, from some element on. -/
abbrev Acts := ℕ → Int8

/-- `vv_ternary_pack`, for values that are not below -1. -/
def ternaryPack (t : Acts) : Codes := fun i =>
  let src k := ((t (i / 32 * ternaryBlock + k)).toInt + 1).toNat
  let j := i % 32
  UInt8.ofNat (src j <<< 6 ||| src (j + 32) <<< 4 ||| src (j + 64) <<< 2 ||| src (j + 96))

/-- `tern_row_scalar`, for one row of activations. -/
def ternRowScalar (codes : Codes) (x : Acts) (K : ℕ) : Acc :=
  turns (K / ternaryBlock) (fun b s =>
    let w j := (codes (b * 32 + j)).toNat
    let xb j := (x (b * ternaryBlock + j)).toInt
    turns 32 (fun j s =>
      let s := s.add 32 (lift (((w j >>> 6 &&& 3 : ℕ) - 1) * xb j))
      let s := s.add 32 (lift (((w j >>> 4 &&& 3 : ℕ) - 1) * xb (j + 32)))
      let s := s.add 32 (lift (((w j >>> 2 &&& 3 : ℕ) - 1) * xb (j + 64)))
      s.add 32 (lift (((w j &&& 3 : ℕ) - 1) * xb (j + 96)))) s) (lift 0)

/-- The bytes of a block of codes. -/
def loadCodes (codes : Codes) (b : ℕ) : ℕ → ℕ := fun j => (codes (b * 32 + j)).toNat

/-- A run of activations. -/
def loadActs (x : Acts) (off : ℕ) : ℕ → ℤ := fun j => (x (off + j)).toInt

/-- `_mm256_and_si256` with the mask. -/
def mask3 (v : ℕ → ℕ) : ℕ → ℕ := fun j => v j &&& 3

/-- `tern_rows_avx2_n`, for one row of activations. -/
def ternRowAvx2 (codes : Codes) (x : Acts) (K : ℕ) (xsum : Acc) : Acc :=
  let nb := K / ternaryBlock
  let r := turns nb (fun b (a : Reg × Reg) =>
    let w := loadCodes codes b
    let c3 := mask3 w
    let c2 := mask3 (srliEpi16 w 2)
    let c1 := mask3 (srliEpi16 w 4)
    let c0 := mask3 (srliEpi16 w 6)
    let p0 := maddubs c0 (loadActs x (b * ternaryBlock))
    let p1 := maddubs c1 (loadActs x (b * ternaryBlock + 32))
    let p2 := maddubs c2 (loadActs x (b * ternaryBlock + 64))
    let p3 := maddubs c3 (loadActs x (b * ternaryBlock + 96))
    let a16 := addLanes 16 a.2 (addLanes 16 (addLanes 16 p0 p1) (addLanes 16 p2 p3))
    if b &&& 15 = 15 ∨ b = nb - 1 then (addLanes 32 a.1 (maddOnes a16), zero) else (a.1, a16))
    (zero, zero)
  (hsum r.1).sub 32 xsum

/-- `tern_row_avxvnni_n`, for one row of activations. -/
def ternRowAvxvnni (codes : Codes) (x : Acts) (K : ℕ) (xsum : Acc) : Acc :=
  let a32 := turns (K / ternaryBlock) (fun b a =>
    let w := loadCodes codes b
    let a := dpbusd a (mask3 (srliEpi16 w 6)) (loadActs x (b * ternaryBlock))
    let a := dpbusd a (mask3 (srliEpi16 w 4)) (loadActs x (b * ternaryBlock + 32))
    let a := dpbusd a (mask3 (srliEpi16 w 2)) (loadActs x (b * ternaryBlock + 64))
    dpbusd a (mask3 w) (loadActs x (b * ternaryBlock + 96))) zero
  (hsum a32).sub 32 xsum

/-- `VV_X2`: runs of two blocks side by side. -/
def loadActs2 (x : Acts) (off : ℕ) : ℕ → ℤ := fun j =>
  if j < 32 then (x (off + j)).toInt else (x (ternaryBlock + off + (j - 32))).toInt

/-- `tern_row_avx512_n`, for one row of activations. -/
def ternRowAvx512 (codes : Codes) (x : Acts) (K : ℕ) (xsum : Acc) : Acc :=
  let nb := K / ternaryBlock
  let a32 := turns (nb / 2) (fun i a =>
    let b := 2 * i
    let w := loadCodes codes b
    let a := dpbusd a (mask3 (srliEpi16 w 6)) (loadActs2 x (b * ternaryBlock))
    let a := dpbusd a (mask3 (srliEpi16 w 4)) (loadActs2 x (b * ternaryBlock + 32))
    let a := dpbusd a (mask3 (srliEpi16 w 2)) (loadActs2 x (b * ternaryBlock + 64))
    dpbusd a (mask3 w) (loadActs2 x (b * ternaryBlock + 96))) zero
  let b := 2 * (nb / 2)
  let tail :=
    if b < nb then
      ternRowAvx2 (fun i => codes (b * 32 + i)) (fun i => x (b * ternaryBlock + i)) ternaryBlock
        (lift 0)
    else lift 0
  ((reduceAdd a32).add 32 tail).sub 32 xsum

/-- The signed ternary values of half a block, shifted by `s`. -/
def ternValues (codes : Codes) (off s : ℕ) : ℕ → ℤ := fun j =>
  ((codes (off + j)).toNat >>> s &&& 3 : ℕ) - 1

/-- One plane of `tern_row_neon_n`, with or without the dot product instruction. -/
def neonPlane (dotprod : Bool) (a : Reg) (t x : ℕ → ℤ) : Reg :=
  if dotprod then vdot a t x
  else vpadal a (vmlal (vmull t x) (fun l => t (8 + l)) (fun l => x (8 + l)))

/-- `tern_row_neon_n`, for one row of activations. -/
def ternRowNeon (dotprod : Bool) (codes : Codes) (x : Acts) (K : ℕ) : Acc :=
  vaddv (turns (K / ternaryBlock) (fun b a => turns 2 (fun h a =>
    let off := b * ternaryBlock + h * 16
    let a := neonPlane dotprod a (ternValues codes (b * 32 + h * 16) 6) (loadActs x off)
    let a := neonPlane dotprod a (ternValues codes (b * 32 + h * 16) 4) (loadActs x (off + 32))
    let a := neonPlane dotprod a (ternValues codes (b * 32 + h * 16) 2) (loadActs x (off + 64))
    neonPlane dotprod a (ternValues codes (b * 32 + h * 16) 0) (loadActs x (off + 96))) a) zero)

/-- The kernel families; ARM has one with the dot product instruction and one without. -/
inductive Isa
  | scalar | avx2 | avxvnni | avx512vnni
  | neon (dotprod : Bool)
  deriving DecidableEq, Repr

/-- `pick_tern`. -/
def ternRow : Isa → Codes → Acts → ℕ → Acc → Acc
  | .scalar, codes, x, K, _ => ternRowScalar codes x K
  | .avx2, codes, x, K, xsum => ternRowAvx2 codes x K xsum
  | .avxvnni, codes, x, K, xsum => ternRowAvxvnni codes x K xsum
  | .avx512vnni, codes, x, K, xsum => ternRowAvx512 codes x K xsum
  | .neon dotprod, codes, x, K, _ => ternRowNeon dotprod codes x K

/-- `tern_needs_xsum`. -/
def ternNeedsXsum : Isa → Bool
  | .avx2 | .avxvnni | .avx512vnni => true
  | .scalar | .neon _ => false

section Drivers

variable {β : Type}

/-- `ternary_drive`. `emit` is what is stored for an activation row and a weight row, `base` where
the outputs start, and `alloc` whether the row sums find room on the heap. -/
def ternaryDrive (isa : Isa) (alloc : Bool) (q : Acts) (codes : Codes) (M N K : ℕ)
    (emit : ℕ → ℕ → Acc → β) (base : ℕ) (out : ℕ → β) : Except Status (ℕ → β) :=
  if M = 0 ∨ N = 0 ∨ K = 0 ∨ K % ternaryBlock ≠ 0 then .error .invalidArg
  else if 1024 < M ∧ alloc = false then .error .outOfMemory
  else
    let xs m :=
      if ternNeedsXsum isa then
        turns K (fun k s => s.add 32 (lift (q (m * K + k)).toInt)) (lift 0)
      else lift 0
    .ok (stores ((List.range N).flatMap fun n => (starts M 4).flatMap fun m0 =>
      (List.range (min 4 (M - m0))).map fun t =>
        (base + ((m0 + t) * N + n), emit (m0 + t) n
          (ternRow isa (fun i => codes (n * (K / 4) + i)) (fun k => q ((m0 + t) * K + k)) K
            (xs (m0 + t))))) out)

/-- `TERN_MBLOCK`. -/
def ternMblock : ℕ := 64

/-- `ternary_drive_blocked`. -/
def ternaryDriveBlocked (isa : Isa) (alloc : Bool) (q : Acts) (codes : Codes) (M N K : ℕ)
    (emit : ℕ → ℕ → Acc → β) (out : ℕ → β) : Except Status (ℕ → β) :=
  if M ≤ ternMblock then ternaryDrive isa alloc q codes M N K emit 0 out
  else (starts M ternMblock).foldlM (fun out m0 =>
    ternaryDrive isa alloc (fun i => q (m0 * K + i)) codes (min ternMblock (M - m0)) N K
      (fun m => emit (m0 + m)) (m0 * N) out) out

/-- `vv_ternary_gemm_i32_cpu`. -/
def ternaryGemmI32 (isa : Isa) (alloc : Bool) (q : Acts) (codes : Codes) (M N K : ℕ)
    (acc : ℕ → Acc) : Except Status (ℕ → Acc) :=
  ternaryDriveBlocked isa alloc q codes M N K (fun _ _ a => a) acc

end Drivers

/-! ### The exact sums -/

section Sums

variable (codes : Codes) (x : Acts)

/-- Code `k` of a row. -/
def codeAt (k : ℕ) : ℕ :=
  (codes (k / ternaryBlock * 32 + k % 32)).toNat >>> (6 - 2 * (k % ternaryBlock / 32)) &&& 3

/-- What a ternary row and an activation row sum to. -/
def ternaryDot (K : ℕ) : ℤ := ∑ k ∈ range K, ((codeAt codes k : ℤ) - 1) * (x k).toInt

/-- The sum of the codes themselves against the activations of `n` blocks. -/
def codeSum (n : ℕ) : ℤ := ∑ k ∈ range (n * ternaryBlock), (codeAt codes k : ℤ) * (x k).toInt

/-- What block `b` adds to the 16-bit lane of byte columns `2 * l` and `2 * l + 1`. -/
def laneTerm (b l : ℕ) : ℤ :=
  ∑ g ∈ range 4, ∑ e ∈ range 2,
    (codeAt codes (b * ternaryBlock + g * 32 + (2 * l + e)) : ℤ) *
      (x (b * ternaryBlock + g * 32 + (2 * l + e))).toInt

/-- The rows on which a kernel overflows nowhere: with AVX2, the 16-bit lanes hold what up to 16
blocks add to them, and with the kernels for unsigned codes, the sum of the codes against the
activations fits as a whole. -/
def RowFits (isa : Isa) (K : ℕ) : Prop :=
  match isa with
  | .scalar | .neon _ => True
  | .avx2 =>
    (∀ b < K / ternaryBlock, ∀ l < 16,
        Fits 16 (∑ i ∈ Ico (b / 16 * 16) (b + 1), laneTerm codes x i l)) ∧
      Fits 32 (codeSum codes x (K / ternaryBlock))
  | .avxvnni => Fits 32 (codeSum codes x (K / ternaryBlock))
  | .avx512vnni =>
    Fits 32 (codeSum codes x (2 * (K / ternaryBlock / 2))) ∧
      Fits 32 (codeSum codes x (K / ternaryBlock))

end Sums

section Layout

variable {codes : Codes} {x : Acts} {f : ℕ → ℤ} {b g j l n : ℕ}

lemma and_three (n : ℕ) : n &&& 3 = n % 4 := Nat.and_two_pow_sub_one_eq_mod n 2

lemma codeAt_eq (hg : g < 4) (hj : j < 32) :
    codeAt codes (b * ternaryBlock + g * 32 + j) =
      (codes (b * 32 + j)).toNat >>> (6 - 2 * g) &&& 3 := by
  rw [codeAt, ternaryBlock, show (b * 128 + g * 32 + j) / 128 = b by omega,
    show (b * 128 + g * 32 + j) % 32 = j by omega,
    show (b * 128 + g * 32 + j) % 128 / 32 = g by omega]

lemma codeAt_lt (codes : Codes) (k : ℕ) : codeAt codes k < 4 := by
  rw [codeAt, and_three]
  exact Nat.mod_lt _ (by omega)

/-- A shift of 16-bit lanes moves no bit of another byte under the mask. -/
lemma mask3_srliEpi16 {v : ℕ → ℕ} (hv : ∀ j, v j < 256) {s : ℕ} (hs : s = 2 ∨ s = 4 ∨ s = 6)
    (j : ℕ) : mask3 (srliEpi16 v s) j = v j >>> s &&& 3 := by
  have hlow := hv (j / 2 * 2)
  have hhigh := hv (j / 2 * 2 + 1)
  rw [mask3, srliEpi16, and_three, and_three, Nat.shiftRight_eq_div_pow, Nat.shiftRight_eq_div_pow]
  rcases Nat.mod_two_eq_zero_or_one j with hmod | hmod
  · rw [hmod, show j = j / 2 * 2 by omega, Nat.mul_div_cancel _ (by omega)]
    generalize v (j / 2 * 2) = lo at hlow ⊢
    generalize v (j / 2 * 2 + 1) = hi at hhigh ⊢
    rcases hs with rfl | rfl | rfl <;> omega
  · rw [hmod, show v j = v (j / 2 * 2 + 1) by rw [show j / 2 * 2 + 1 = j by omega]]
    generalize v (j / 2 * 2) = lo at hlow ⊢
    generalize v (j / 2 * 2 + 1) = hi at hhigh ⊢
    rcases hs with rfl | rfl | rfl <;> omega

lemma loadCodes_lt (codes : Codes) (b j : ℕ) : loadCodes codes b j < 256 := UInt8.toNat_lt _

/-- The registers of codes, plane by plane. -/
def plane (codes : Codes) (b g : ℕ) : ℕ → ℕ :=
  match g with
  | 0 => mask3 (srliEpi16 (loadCodes codes b) 6)
  | 1 => mask3 (srliEpi16 (loadCodes codes b) 4)
  | 2 => mask3 (srliEpi16 (loadCodes codes b) 2)
  | _ => mask3 (loadCodes codes b)

lemma plane_eq (hg : g < 4) (hj : j < 32) :
    plane codes b g j = codeAt codes (b * ternaryBlock + g * 32 + j) := by
  rw [codeAt_eq hg hj]
  interval_cases g
  · exact mask3_srliEpi16 (loadCodes_lt codes b) (.inr (.inr rfl)) j
  · exact mask3_srliEpi16 (loadCodes_lt codes b) (.inr (.inl rfl)) j
  · exact mask3_srliEpi16 (loadCodes_lt codes b) (.inl rfl) j
  · rfl

/-- The bytes of the next block follow in a wider register. -/
lemma plane_succ (b g j : ℕ) : plane codes b g (32 + j) = plane codes (b + 1) g j := by
  have hload : ∀ j, loadCodes codes b (32 + j) = loadCodes codes (b + 1) j := fun j => by
    rw [loadCodes, loadCodes, show b * 32 + (32 + j) = (b + 1) * 32 + j by omega]
  have hsrli : ∀ s, srliEpi16 (loadCodes codes b) s (32 + j) =
      srliEpi16 (loadCodes codes (b + 1)) s j := fun s => by
    rw [srliEpi16, srliEpi16, show (32 + j) / 2 * 2 = 32 + j / 2 * 2 by omega, Nat.add_assoc,
      hload, hload, show (32 + j) % 2 = j % 2 by omega]
  match g with
  | 0 | 1 | 2 => exact congrArg (· &&& 3) (hsrli _)
  | _ + 3 => exact congrArg (· &&& 3) (hload j)

/-- A code against its activation. -/
def term (codes : Codes) (x : Acts) (k : ℕ) : ℤ := (codeAt codes k : ℤ) * (x k).toInt

lemma abs_toInt_le (v : Int8) : |v.toInt| ≤ 128 := by
  have hlow := v.le_toInt
  have hhigh := v.toInt_lt
  rw [abs_le]
  omega

lemma abs_term_le (codes : Codes) (x : Acts) (k : ℕ) : |term codes x k| ≤ 384 := by
  rw [term, abs_mul, Nat.abs_cast]
  have hcode : (codeAt codes k : ℤ) ≤ 3 := by exact_mod_cast Nat.le_of_lt_succ (codeAt_lt codes k)
  calc (codeAt codes k : ℤ) * |(x k).toInt| ≤ 3 * 128 :=
        mul_le_mul hcode (abs_toInt_le _) (abs_nonneg _) (by omega)
    _ = 384 := rfl

/-- What `w` adjacent byte columns of plane `g` of a block add. -/
def run (f : ℕ → ℤ) (b g w l : ℕ) : ℤ :=
  ∑ i ∈ range w, f (b * ternaryBlock + g * 32 + (w * l + i))

lemma abs_run_le {B : ℤ} (hf : ∀ k, |f k| ≤ B) (b g w l : ℕ) : |run f b g w l| ≤ w * B :=
  abs_sum_range_le fun _ _ => hf _

/-- The runs of a block tile it. -/
lemma sum_run {w m : ℕ} (hw : m * w = 32) (f : ℕ → ℤ) (b : ℕ) :
    ∑ l ∈ range m, ∑ g ∈ range 4, run f b g w l =
      ∑ r ∈ range ternaryBlock, f (b * ternaryBlock + r) := by
  have hblock : ternaryBlock = 4 * 32 := rfl
  rw [sum_comm, hblock, sum_range_mul _ 4 32, ← hblock]
  refine sum_congr rfl fun g _ => ?_
  rw [← hw, sum_range_mul _ m w, hw]
  refine sum_congr rfl fun l _ => sum_congr rfl fun i _ => ?_
  rw [Nat.mul_comm w l, Nat.add_assoc]

lemma sum_blocks (f : ℕ → ℤ) (n : ℕ) :
    ∑ b ∈ range n, ∑ r ∈ range ternaryBlock, f (b * ternaryBlock + r) =
      ∑ k ∈ range (n * ternaryBlock), f k := (sum_range_mul f n ternaryBlock).symm

/-- The lanes of a kernel add up to the whole row. -/
lemma sum_lanes {w m : ℕ} (hw : m * w = 32) (f : ℕ → ℤ) (n : ℕ) :
    ∑ l ∈ range m, ∑ b ∈ range n, ∑ g ∈ range 4, run f b g w l =
      ∑ k ∈ range (n * ternaryBlock), f k := by
  rw [sum_comm, ← sum_blocks]
  exact sum_congr rfl fun b _ => sum_run hw f b

end Layout

end VibeVoice.Kernels
