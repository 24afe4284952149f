import Mathlib.Algebra.BigOperators.Group.List.Basic
import Mathlib.Data.Int.ModEq
import VibeVoice.Model.Safetensors

/-!
The tensors of a checkpoint as the loader sees them (`loader.c`).

An entry of the index is what the header says of a tensor and the `data_size` bytes the mapping
holds for it. Dimensions are multiplied modulo `2 ^ 64`, as the code multiplies them; `numel` is
their product.

* `checkBytes_ok_iff`: the check of the byte count is one modulo `2 ^ 64`.
* `exact_of_checkBytes`: it is exact for tensors of fewer than `2 ^ 64` bytes.
-/

namespace VibeVoice.Safetensors

/-- `vv_dtype_size`. -/
def DType.size : DType → ℕ
  | .f32 | .i32 | .u32 => 4
  | .f16 | .bf16 | .i16 | .u16 => 2
  | .u8 | .f8e4m3 | .bool | .i8 | .f8e5m2 => 1
  | .i64 | .f64 => 8
  | .unknown => 0

lemma DType.size_le (dt : DType) : dt.size ≤ 8 := by
  cases dt <;> decide

/-- `is_float_dtype`. -/
def DType.isFloat (dt : DType) : Bool := dt = .f16 || dt = .bf16 || dt = .f32

end VibeVoice.Safetensors

namespace VibeVoice.Loader

open Safetensors

/-- `st_entry_t` with the bytes `data_of` returns; they lie in a file that is mapped, and a mapping
lies in the address space. -/
structure Entry where
  info : TensorInfo
  data : List UInt8
  sized : data.length = info.dataSize.toNat
  fits : data.length < 2 ^ 57

/-- A tensor at the start of the data. -/
def tensor (name : String) (dtype : DType) (shape : List Int64) (data : List UInt8)
    (fits : data.length < 2 ^ 57) : Entry where
  info := ⟨literal name, dtype, shape, 0, UInt64.ofNat data.length⟩
  data := data
  sized := (UInt64.toNat_ofNat_of_lt' (fits.trans (by decide))).symm
  fits := fits

/-- `numel_of`. -/
def numelOf (info : TensorInfo) : Int64 := info.shape.foldl (· * ·) 1

/-- `check_bytes`. -/
def checkBytes (e : Entry) : Except Status Unit :=
  if e.info.dtype.size = 0 ∨
      (numelOf e.info).toUInt64 * UInt64.ofNat e.info.dtype.size ≠ e.info.dataSize then
    .error .modelFormat
  else .ok ()

/-- `check_shape`. -/
def checkShape (e : Entry) (d0 d1 : ℤ) : Except Status Unit :=
  if e.info.shape.map Int64.toInt = if 0 < d1 then [d0, d1] else [d0] then checkBytes e
  else .error .shapeMismatch

/-- The product of the dimensions. -/
def numel (info : TensorInfo) : ℤ := (info.shape.map Int64.toInt).prod

/-- The byte count of a header is its shape in its dtype. -/
def Exact (info : TensorInfo) : Prop := numel info * info.dtype.size = info.dataSize.toNat

/-- The byte count of a header is not its shape in its dtype, but is so modulo `2 ^ 64`. -/
def Wraps (info : TensorInfo) : Prop :=
  ¬Exact info ∧ numel info * info.dtype.size ≡ info.dataSize.toNat [ZMOD 2 ^ 64]

instance (info : TensorInfo) : Decidable (Exact info) := inferInstanceAs (Decidable (_ = _))

/-! ### Elements -/

/-- The number little-endian bytes stand for. -/
def littleEndian (bytes : List UInt8) : ℕ := bytes.foldr (fun b n => b.toNat + 256 * n) 0

/-- Word `i` of the tensor, taken as words of `w` bytes. -/
def Entry.word (e : Entry) (w i : ℕ) : Option ℕ :=
  if (i + 1) * w ≤ e.data.length then some (littleEndian ((e.data.drop (i * w)).take w)) else none

/-- A word of `w` bytes as a signed integer. -/
def signed (w v : ℕ) : ℤ := (v : ℤ).bmod (2 ^ (8 * w))

/-- The blocks of `to_f32` and `to_f16` for `n` elements, counted in an `int`. -/
def convBlocks (n : ℕ) : ℤ := (((n + 65535) % 2 ^ 64 / 65536 : ℕ) : ℤ).bmod (2 ^ 32)

/-- How many of `n` elements the blocks convert. -/
def converted (n : ℕ) : ℕ := min ((convBlocks n).toNat * 65536) n

/-! ### The byte count -/

section Bytes

variable {e : Entry}

lemma foldl_mul_toInt (shape : List Int64) (n : Int64) :
    (shape.foldl (· * ·) n).toInt ≡ n.toInt * (shape.map Int64.toInt).prod [ZMOD 2 ^ 64] := by
  induction shape generalizing n with
  | nil => simp
  | cons d ds ih =>
    rw [List.foldl_cons, List.map_cons, List.prod_cons, ← mul_assoc]
    refine (ih (n * d)).trans (Int.ModEq.mul_right _ ?_)
    rw [Int64.toInt_mul]
    exact Int.bmod_emod

lemma numelOf_modEq (info : TensorInfo) : (numelOf info).toInt ≡ numel info [ZMOD 2 ^ 64] := by
  have h := foldl_mul_toInt info.shape 1
  rwa [show (1 : Int64).toInt = 1 from rfl, one_mul] at h

lemma toUInt64_toNat_modEq (n : Int64) : (n.toUInt64.toNat : ℤ) ≡ n.toInt [ZMOD 2 ^ 64] := by
  have h : n.toInt = (n.toUInt64.toNat : ℤ).bmod (2 ^ 64) := BitVec.toInt_eq_toNat_bmod _
  rw [h]
  exact Int.bmod_emod.symm

/-- Two words of 64 bits are equal when they are so modulo `2 ^ 64`. -/
lemma eq_iff_modEq (a b : UInt64) : a = b ↔ (a.toNat : ℤ) ≡ b.toNat [ZMOD 2 ^ 64] := by
  have ha : (a.toNat : ℤ) < 2 ^ 64 := by exact_mod_cast a.toNat_lt
  have hb : (b.toNat : ℤ) < 2 ^ 64 := by exact_mod_cast b.toNat_lt
  constructor
  · rintro rfl
    exact Int.ModEq.refl _
  · intro h
    rw [Int.ModEq, Int.emod_eq_of_lt (by omega) ha, Int.emod_eq_of_lt (by omega) hb] at h
    exact UInt64.toNat_inj.mp (by exact_mod_cast h)

/-- The product the code compares with `data_size`. -/
lemma byteCount_modEq (info : TensorInfo) :
    (((numelOf info).toUInt64 * UInt64.ofNat info.dtype.size).toNat : ℤ) ≡
      numel info * info.dtype.size [ZMOD 2 ^ 64] := by
  have hsize : (UInt64.ofNat info.dtype.size).toNat = info.dtype.size :=
    Nat.mod_eq_of_lt ((info.dtype.size_le).trans_lt (by norm_num))
  rw [UInt64.toNat_mul, hsize]
  push_cast
  calc ((numelOf info).toUInt64.toNat * info.dtype.size : ℤ) % 2 ^ 64
      ≡ (numelOf info).toUInt64.toNat * info.dtype.size [ZMOD 2 ^ 64] := Int.mod_modEq _ _
    _ ≡ numel info * info.dtype.size [ZMOD 2 ^ 64] :=
        Int.ModEq.mul_right _ ((toUInt64_toNat_modEq _).trans (numelOf_modEq info))

/-- `check_bytes` compares modulo `2 ^ 64`. -/
theorem checkBytes_ok_iff : checkBytes e = .ok () ↔
    e.info.dtype.size ≠ 0 ∧
      numel e.info * e.info.dtype.size ≡ e.info.dataSize.toNat [ZMOD 2 ^ 64] := by
  have hiff := (eq_iff_modEq ((numelOf e.info).toUInt64 * UInt64.ofNat e.info.dtype.size)
    e.info.dataSize)
  rw [checkBytes]
  split_ifs with h
  · refine iff_of_false (by simp) fun ⟨hsize, hmod⟩ => ?_
    rcases h with h | h
    · exact hsize h
    · exact h (hiff.mpr ((byteCount_modEq e.info).trans hmod))
  · rw [not_or, not_not] at h
    exact iff_of_true rfl ⟨h.1, (byteCount_modEq e.info).symm.trans (hiff.mp h.2)⟩

/-- For fewer than `2 ^ 64` bytes it compares exactly. -/
lemma exact_of_checkBytes (h : checkBytes e = .ok ()) (hpos : 0 ≤ numel e.info)
    (hlt : numel e.info * e.info.dtype.size < 2 ^ 64) : Exact e.info := by
  have hdata : (e.info.dataSize.toNat : ℤ) < 2 ^ 64 := by exact_mod_cast e.info.dataSize.toNat_lt
  have hmod := (checkBytes_ok_iff.mp h).2
  rwa [Int.ModEq, Int.emod_eq_of_lt (mul_nonneg hpos (by omega)) hlt,
    Int.emod_eq_of_lt (by omega) hdata] at hmod

/-- The bytes of a tensor whose byte count is exact. -/
lemma Exact.length (h : Exact e.info) :
    (e.data.length : ℤ) = numel e.info * e.info.dtype.size := by
  rw [e.sized]
  exact h.symm

lemma exact_of_not_wraps (h : checkBytes e = .ok ()) (hw : ¬Wraps e.info) : Exact e.info := by
  by_contra hne
  exact hw ⟨hne, (checkBytes_ok_iff.mp h).2⟩

end Bytes

/-! ### Shapes -/

section Shapes

variable {e : Entry} {d0 d1 : ℤ}

lemma checkShape_ok (h : checkShape e d0 d1 = .ok ()) :
    numel e.info = (if 0 < d1 then d0 * d1 else d0) ∧ checkBytes e = .ok () := by
  rw [checkShape] at h
  by_cases hshape : e.info.shape.map Int64.toInt = if 0 < d1 then [d0, d1] else [d0]
  · rw [if_pos hshape] at h
    refine ⟨?_, h⟩
    rw [numel, hshape]
    split_ifs <;> simp
  · rw [if_neg hshape] at h
    cases h

end Shapes

/-! ### Words -/

section Words

variable {e : Entry} {w i : ℕ}

lemma Entry.word_isSome (h : (i + 1) * w ≤ e.data.length) : ∃ v, e.word w i = some v :=
  ⟨_, if_pos h⟩

/-- Cell `(n, g)` of `N` rows of `ng` cells. -/
lemma cell_lt_mul {N ng n g : ℕ} (hn : n < N) (hg : g < ng) : n * ng + g < N * ng :=
  calc n * ng + g < n * ng + ng := Nat.add_lt_add_left hg _
    _ = (n + 1) * ng := (Nat.succ_mul n ng).symm
    _ ≤ N * ng := Nat.mul_le_mul_right ng hn

lemma littleEndian_lt (bytes : List UInt8) : littleEndian bytes < 256 ^ bytes.length := by
  induction bytes with
  | nil => exact Nat.one_pos
  | cons b bs ih =>
    show b.toNat + 256 * littleEndian bs < 256 ^ (bs.length + 1)
    have hb : b.toNat < 256 := b.toNat_lt
    rw [pow_succ]
    omega

end Words

end VibeVoice.Loader
