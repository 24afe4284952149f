import Mathlib.Algebra.BigOperators.Group.Finset.Basic
import Mathlib.Data.List.GetD
import VibeVoice.Lib.InPlace
import VibeVoice.Status

/-!
The nibble layout of the W4A16 kernels (`awq_repack.c`, `w4a16.cu`).

A load of a byte that the rewrite has already overwritten is a fault, and so is an access outside
of a buffer.  The threads take the rows in any order, and `vv_flodstto_half` is a parameter.  The
kernels' arithmetic is exact.

* `int4gToGpuLayout`: the rewrite.
* `w4DequantWord`: what the kernels read out of a word.
* `int4gToGpuLayout_reads`: the kernels find every code where it was, and nothing faults.
-/

namespace VibeVoice.GpuLayout

open InPlace

/-! ### The rewrite -/

/-- The arguments that are accepted: `N` rows of `K` codes in groups. -/
structure Shape where
  N : ℕ
  K : ℕ
  groupSize : ℕ
  N_pos : 0 < N
  K_pos : 0 < K
  K_dvd : 32 ∣ K
  groupSize_le : 32 ≤ groupSize
  groupSize_dvd : groupSize ∣ K
  dvd_groupSize : 32 ∣ groupSize

/-- The checks at the entry. -/
def shape (N K groupSize : ℤ) : Except Status Shape :=
  if h : 0 < N ∧ 0 < K ∧ 32 ∣ K ∧ 32 ≤ groupSize ∧ groupSize ∣ K ∧ 32 ∣ groupSize then
    .ok {
      N := N.toNat
      K := K.toNat
      groupSize := groupSize.toNat
      N_pos := by omega
      K_pos := by omega
      K_dvd := by omega
      groupSize_le := by omega
      groupSize_dvd := Int.natCast_dvd_natCast.mp (by
        rw [Int.toNat_of_nonneg h.2.1.le, Int.toNat_of_nonneg (by omega)]
        exact h.2.2.2.2.1)
      dvd_groupSize := by omega }
  else .error .invalidArg

/-- `n_groups`. -/
def Shape.groups (s : Shape) : ℕ := s.K / s.groupSize

/-- `n_chunks`. -/
def Shape.chunks (s : Shape) : ℕ := s.K / 32

/-- The codes of a chunk, `q`. -/
def codes (m : Memory UInt8) (chunk : ℕ) : Option (List UInt8) :=
  ((List.range 16).mapM fun i => load m (chunk + i)).map
    (·.flatMap fun b : UInt8 => [b >>> 4, b &&& 0xF])

/-- `n` pieces of `e` bits, the lowest first: a loop of `w |= piece << (e * s)`. -/
def assemble (e : ℕ) (piece : ℕ → UInt8) (n : ℕ) : UInt32 :=
  (List.range n).foldl (fun w s => w ||| (piece s).toUInt32 <<< UInt32.ofNat (e * s)) 0

/-- Word `t` of a chunk. -/
def word (q : List UInt8) (t : ℕ) : UInt32 :=
  assemble 4 (fun s => q.getD (2 * (t + 4 * (s % 4)) + s / 4) 0) 8

/-- The four bytes of a word. -/
def storeWord (m : Memory UInt8) (dst : ℕ) (w : UInt32) : Option (Memory UInt8) :=
  (List.range 4).foldlM (fun m i => store m (dst + i) (w >>> UInt32.ofNat (8 * i)).toUInt8) m

/-- One turn of the loop over the chunks. -/
def putChunk (m : Memory UInt8) (chunk : ℕ) : Option (Memory UInt8) :=
  codes m chunk >>= fun q =>
    (List.range 4).foldlM (fun m t => storeWord m (chunk + 4 * t) (word q t)) m

/-- One turn of the loop over the groups. -/
def putGroup (toHalf : UInt8 → UInt16) (srow : Option UInt16) (zrow : Option UInt8)
    (sz : Memory UInt16) (dst : ℕ) : Option (Memory UInt16) :=
  srow >>= fun sc => zrow >>= fun z => store sz dst sc >>= fun sz => store sz (dst + 1) (toHalf z)

/-- Row `n`. -/
def putRow (toHalf : UInt8 → UInt16) (s : Shape) (scales : List UInt16) (zeros : List UInt8)
    (m : Memory UInt8 × Memory UInt16) (n : ℕ) : Option (Memory UInt8 × Memory UInt16) :=
  (List.range s.chunks).foldlM (fun m c => putChunk m (n * (s.K / 2) + c * 16)) m.1 >>=
    fun packed =>
      ((List.range s.groups).foldlM (fun sz g =>
        putGroup toHalf scales[n * s.groups + g]? zeros[n * s.groups + g]? sz
          (n * s.groups * 2 + 2 * g)) m.2).map fun sz => (packed, sz)

/-- `vv_int4g_to_gpu_layout`, the rows in the order in which the threads take them. -/
def int4gToGpuLayout (toHalf : UInt8 → UInt16) (N K groupSize : ℤ) (rows : List ℕ)
    (scales : List UInt16) (zeros : List UInt8) (packed : Memory UInt8) (sz : Memory UInt16) :
    Checked (Memory UInt8 × Memory UInt16) :=
  ExceptT.mk (some (shape N K groupSize)) >>= fun s =>
    ExceptT.lift (rows.foldlM (putRow toHalf s scales zeros) (packed, sz))

/-! ### The kernels -/

/-- `w4_lop3`. -/
def w4Lop3 (a mask magic : UInt32) : UInt32 := a &&& mask ||| magic

/-- The value of FP16 bits that hold a positive normal number. -/
def halfValue (b : UInt16) : ℚ :=
  (1 + (b.toNat % 1024 : ℕ) / 1024) * 2 ^ (b.toNat / 1024 % 32) / 2 ^ 15

/-- `w4_u2h`: the two halves of a word. -/
def w4U2h (v : UInt32) : ℚ × ℚ := (halfValue v.toUInt16, halfValue (v >>> 16).toUInt16)

/-- `c1` and `c16` of `w4_make_group`. -/
def c1 (zero : ℚ) : ℚ := zero + 1024
def c16 (zero : ℚ) : ℚ := -(zero + 64)

/-- `w4_dequant_word`: four pairs of weights. -/
def w4DequantWord (w : UInt32) (scale zero : ℚ) : List (ℚ × ℚ) :=
  let top := w >>> 8
  let magic := 0x64006400
  let h0 := w4U2h (w4Lop3 w 0x000F000F magic)
  let h1 := w4U2h (w4Lop3 w 0x00F000F0 magic)
  let h2 := w4U2h (w4Lop3 top 0x000F000F magic)
  let h3 := w4U2h (w4Lop3 top 0x00F000F0 magic)
  [((h0.1 - c1 zero) * scale, (h0.2 - c1 zero) * scale),
    ((h1.1 * (1 / 16) + c16 zero) * scale, (h1.2 * (1 / 16) + c16 zero) * scale),
    ((h2.1 - c1 zero) * scale, (h2.2 - c1 zero) * scale),
    ((h3.1 * (1 / 16) + c16 zero) * scale, (h3.2 * (1 / 16) + c16 zero) * scale)]

/-- A word as the GPU loads it. -/
def loadWord (m : Memory UInt8) (src : ℕ) : Option UInt32 :=
  ((List.range 4).mapM fun i => m.value (src + i)).map fun bytes =>
    assemble 8 (fun i => bytes.getD i 0) 4

/-- The weight of channel `k` in the row at `row`: pair `t + 4 * j` of its chunk is pair `j` of
word `t`. -/
def kernelWeight (m : Memory UInt8) (row k : ℕ) (scale zero : ℚ) : Option ℚ :=
  let pair := k % 32 / 2
  loadWord m (row + k / 32 * 16 + 4 * (pair % 4)) >>= fun w =>
    (w4DequantWord w scale zero)[pair / 4]?.map fun h => if k % 2 = 0 then h.1 else h.2

/-- The code of channel `k` in the row at `row` before the rewrite. -/
def code (packed : List UInt8) (row k : ℕ) : Option UInt8 :=
  packed[row + k / 2]?.map fun b : UInt8 => if k % 2 = 0 then b >>> 4 else b &&& 0xF

/-! ### Words -/

lemma toNat_assemble {e : ℕ} {piece : ℕ → UInt8} (hpiece : ∀ s, (piece s).toNat < 2 ^ e) {n : ℕ}
    (hn : e * n ≤ 32) :
    (assemble e piece n).toNat = ∑ s ∈ Finset.range n, (piece s).toNat * 2 ^ (e * s) ∧
      (assemble e piece n).toNat < 2 ^ (e * n) := by
  induction n with
  | zero => exact ⟨rfl, by simp [assemble]⟩
  | succ n ih =>
    have hen : e * n + e ≤ 32 := by rwa [Nat.mul_succ] at hn
    obtain ⟨hsum, hlt⟩ := ih (by omega)
    have hpos : 2 ^ (e * n + e) = 2 ^ (e * n) * 2 ^ e := pow_add 2 (e * n) e
    have hle : 2 ^ (e * n + e) ≤ 2 ^ 32 := Nat.pow_le_pow_right (by omega) hen
    have hmul : (piece n).toNat * 2 ^ (e * n) + 2 ^ (e * n) ≤ 2 ^ (e * n + e) := by
      rw [hpos, ← Nat.succ_mul, Nat.mul_comm]
      exact Nat.mul_le_mul_left _ (hpiece n)
    have he : e * n < 32 ∨ (piece n).toNat = 0 := by
      rcases Nat.eq_zero_or_pos e with rfl | hpos
      · exact .inr (by simpa using hpiece n)
      · exact .inl (by omega)
    have hstep : (assemble e piece (n + 1)).toNat =
        (assemble e piece n).toNat ||| (piece n).toNat <<< (e * n) := by
      have hsucc : assemble e piece (n + 1) =
          assemble e piece n ||| (piece n).toUInt32 <<< UInt32.ofNat (e * n) := by
        rw [assemble, List.range_succ, List.foldl_append]
        rfl
      have hshift : ((piece n).toUInt32 <<< UInt32.ofNat (e * n)).toNat =
          (piece n).toNat <<< (e * n) := by
        rw [UInt32.toNat_shiftLeft, UInt8.toNat_toUInt32]
        rcases he with he | hzero
        · have hmod : (UInt32.ofNat (e * n)).toNat % 32 = e * n := by
            rw [UInt32.toNat_ofNat']
            omega
          rw [hmod, Nat.shiftLeft_eq, Nat.mod_eq_of_lt]
          omega
        · rw [hzero, Nat.zero_shiftLeft, Nat.zero_shiftLeft, Nat.zero_mod]
      rw [hsucc, UInt32.toNat_or, hshift]
    have hadd : (assemble e piece (n + 1)).toNat =
        (piece n).toNat * 2 ^ (e * n) + (assemble e piece n).toNat := by
      rw [hstep, Nat.or_comm, ← Nat.shiftLeft_add_eq_or_of_lt hlt, Nat.shiftLeft_eq]
    rw [hadd, Finset.sum_range_succ, hsum.symm, Nat.mul_succ]
    exact ⟨Nat.add_comm _ _, by omega⟩

/-- The nibbles of an FP16 pattern of `0x6400`. -/
lemma low_or_magic (x : ℕ) : x &&& 0x000F ||| 0x6400 = 0x6400 + x % 16 := by
  have hand : x &&& 0x000F = x % 16 := Nat.and_two_pow_sub_one_eq_mod x 4
  have hlt : x % 16 < 2 ^ 10 := by omega
  rw [hand, Nat.or_comm]
  exact (Nat.shiftLeft_add_eq_or_of_lt hlt 25).symm

lemma high_or_magic (x : ℕ) : x &&& 0x00F0 ||| 0x6400 = 0x6400 + x / 16 % 16 * 16 := by
  have hand : x &&& 0x00F0 = x / 16 % 16 * 16 := by
    calc x &&& 0x00F0 = x &&& 15 <<< 4 := rfl
      _ = (x >>> 4 &&& 15) <<< 4 := by
          refine Nat.eq_of_testBit_eq fun i => ?_
          simp only [Nat.testBit_and, Nat.testBit_shiftLeft, Nat.testBit_shiftRight]
          by_cases hi : 4 ≤ i
          · rw [Nat.add_sub_cancel' hi]
            simp [hi]
          · simp [hi]
      _ = (x / 16 &&& 15) * 16 := by norm_num [Nat.shiftRight_eq_div_pow, Nat.shiftLeft_eq]
      _ = x / 16 % 16 * 16 := congrArg (· * 16) (Nat.and_two_pow_sub_one_eq_mod (x / 16) 4)
  have hlt : x / 16 % 16 * 16 < 2 ^ 10 := by omega
  rw [hand, Nat.or_comm]
  exact (Nat.shiftLeft_add_eq_or_of_lt hlt 25).symm

lemma halfValue_magic {b : UInt16} {x : ℕ} (h : b.toNat = 0x6400 + x) (hx : x < 1024) :
    halfValue b = 1024 + x := by
  have hman : b.toNat % 1024 = x := by omega
  have hexp : b.toNat / 1024 % 32 = 25 := by omega
  rw [halfValue, hman, hexp]
  norm_num
  ring

/-- The halves of a word under a mask with two equal halves. -/
lemma w4Lop3_halves (w mask : UInt32) (half : ℕ) (hlow : mask.toNat % 2 ^ 16 = half)
    (hhigh : mask.toNat >>> 16 = half) :
    (w4Lop3 w mask 0x64006400).toUInt16.toNat = w.toNat % 2 ^ 16 &&& half ||| 0x6400 ∧
      (w4Lop3 w mask 0x64006400 >>> 16).toUInt16.toNat =
        (w.toNat / 2 ^ 16 &&& half ||| 0x6400) % 2 ^ 16 := by
  constructor
  · rw [UInt32.toNat_toUInt16, w4Lop3, UInt32.toNat_or, UInt32.toNat_and, Nat.or_mod_two_pow,
      Nat.and_mod_two_pow, hlow]
    rfl
  · rw [UInt32.toNat_toUInt16, UInt32.toNat_shiftRight, w4Lop3, UInt32.toNat_or,
      UInt32.toNat_and]
    show ((w.toNat &&& mask.toNat ||| 0x64006400) >>> 16) % 2 ^ 16 = _
    rw [Nat.shiftRight_or_distrib, Nat.shiftRight_and_distrib, Nat.shiftRight_eq_div_pow, hhigh]
    rfl

/-- The two codes of a word that the low mask picks. -/
lemma w4U2h_low (w : UInt32) :
    w4U2h (w4Lop3 w 0x000F000F 0x64006400) =
      ((1024 + (w.toNat % 16 : ℕ) : ℚ), (1024 + (w.toNat / 2 ^ 16 % 16 : ℕ) : ℚ)) := by
  obtain ⟨hlow, hhigh⟩ := w4Lop3_halves w 0x000F000F 0x000F rfl rfl
  rw [low_or_magic] at hlow hhigh
  rw [w4U2h, halfValue_magic (x := w.toNat % 16) (by omega) (by omega),
    halfValue_magic (x := w.toNat / 2 ^ 16 % 16) (by omega) (by omega)]

/-- The two codes that the high mask picks, each sixteen-fold. -/
lemma w4U2h_high (w : UInt32) :
    w4U2h (w4Lop3 w 0x00F000F0 0x64006400) =
      ((1024 + (w.toNat / 16 % 16 * 16 : ℕ) : ℚ),
        (1024 + (w.toNat / 2 ^ 20 % 16 * 16 : ℕ) : ℚ)) := by
  obtain ⟨hlow, hhigh⟩ := w4Lop3_halves w 0x00F000F0 0x00F0 rfl rfl
  rw [high_or_magic] at hlow hhigh
  rw [w4U2h, halfValue_magic (x := w.toNat / 16 % 16 * 16) (by omega) (by omega),
    halfValue_magic (x := w.toNat / 2 ^ 20 % 16 * 16) (by omega) (by omega)]

/-- Pair `j` of a word is that of the nibbles `j` and `j + 4`. -/
lemma w4DequantWord_getElem? (w : UInt32) (scale zero : ℚ) {j : ℕ} (hj : j < 4) :
    (w4DequantWord w scale zero)[j]? =
      some (((w.toNat / 16 ^ j % 16 : ℕ) - zero) * scale,
        ((w.toNat / 16 ^ (j + 4) % 16 : ℕ) - zero) * scale) := by
  have htop : (w >>> 8).toNat = w.toNat / 256 := by
    rw [UInt32.toNat_shiftRight]
    exact Nat.shiftRight_eq_div_pow _ 8
  have hlow : ∀ x : ℕ, (1024 + x - c1 zero) * scale = (x - zero) * scale := by
    intro x
    rw [c1]
    ring
  have hhigh : ∀ x : ℕ, ((1024 + (x * 16 : ℕ)) * (1 / 16) + c16 zero) * scale =
      (x - zero) * scale := by
    intro x
    rw [c16]
    push_cast
    ring
  rw [w4DequantWord]
  simp only [w4U2h_low, w4U2h_high, hlow, hhigh, htop]
  interval_cases j
  · rw [pow_zero, Nat.div_one]
    rfl
  · rfl
  · rw [Nat.div_div_eq_div_mul, Nat.div_div_eq_div_mul]
    rfl
  · rw [Nat.div_div_eq_div_mul, Nat.div_div_eq_div_mul, Nat.div_div_eq_div_mul]
    rfl

/-! ### Chunks -/

/-- The codes of the chunk that starts at a byte. -/
def chunkCodes (old : ℕ → UInt8) (chunk : ℕ) : List UInt8 :=
  (List.range 16).flatMap fun i => [old (chunk + i) >>> 4, old (chunk + i) &&& 0xF]

/-- What the rewrite leaves in a byte. -/
def new (old : ℕ → UInt8) (i : ℕ) : UInt8 :=
  (word (chunkCodes old (i / 16 * 16)) (i % 16 / 4) >>> UInt32.ofNat (8 * (i % 4))).toUInt8

lemma getD_flatMap_range (f g : ℕ → UInt8) {n k : ℕ} (hk : k < 2 * n) :
    ((List.range n).flatMap fun i => [f i, g i]).getD k 0 =
      if k % 2 = 0 then f (k / 2) else g (k / 2) := by
  induction n with
  | zero => exact absurd hk (by simp)
  | succ n ih =>
    have hlen : ((List.range n).flatMap fun i => [f i, g i]).length = 2 * n := by
      simp [List.length_flatMap, Nat.mul_comm]
    rw [List.range_succ, List.flatMap_append]
    rcases Nat.lt_or_ge k (2 * n) with hlt | hge
    · rw [List.getD_append _ _ _ _ (by rw [hlen]; exact hlt), ih hlt]
    · rw [List.getD_append_right _ _ _ _ (by rw [hlen]; exact hge), hlen]
      obtain rfl | rfl : k = 2 * n ∨ k = 2 * n + 1 := by omega
      · simp
      · have hdiv : (2 * n + 1) / 2 = n := by omega
        simp [hdiv]

lemma getD_chunkCodes (old : ℕ → UInt8) (chunk : ℕ) {k : ℕ} (hk : k < 32) :
    (chunkCodes old chunk).getD k 0 =
      if k % 2 = 0 then old (chunk + k / 2) >>> 4 else old (chunk + k / 2) &&& 0xF :=
  getD_flatMap_range _ _ (by omega)

lemma chunkCodes_lt (old : ℕ → UInt8) (chunk k : ℕ) :
    ((chunkCodes old chunk).getD k 0).toNat < 2 ^ 4 := by
  rcases Nat.lt_or_ge k 32 with hlt | hge
  · rw [getD_chunkCodes old chunk hlt]
    have hbyte := (old (chunk + k / 2)).toNat_lt
    split_ifs
    · rw [UInt8.toNat_shiftRight]
      show (old (chunk + k / 2)).toNat >>> 4 < 2 ^ 4
      rw [Nat.shiftRight_eq_div_pow]
      omega
    · rw [UInt8.toNat_and]
      exact Nat.lt_succ_of_le Nat.and_le_right
  · rw [List.getD_eq_default _ _ (by simpa [chunkCodes, List.length_flatMap] using hge)]
    decide

section Rewrite

variable {m : Memory UInt8} {old : ℕ → UInt8} {S : Set ℕ} [DecidablePred (· ∈ S)] {chunk : ℕ}

/-- A chunk that is not overwritten is read as it was. -/
lemma codes_patch (hm : ∀ i < 16, m (chunk + i) = some (old (chunk + i), false))
    (hS : ∀ i < 16, chunk + i ∉ S) (f : ℕ → UInt8) :
    codes (patch m S f) chunk = some (chunkCodes old chunk) := by
  have hload : (List.range 16).mapM (fun i => load (patch m S f) (chunk + i)) =
      some ((List.range 16).map fun i => old (chunk + i)) := by
    refine Loop.mapM_of_forall₂ (List.forall₂_map_right_iff.mpr (List.forall₂_same.mpr ?_))
    intro i hi
    have hlt := List.mem_range.mp hi
    exact load_patch (hm i hlt) (hS i hlt)
  rw [codes, hload, Option.map_some, List.flatMap_map]
  rfl

/-- A chunk is rewritten from its own bytes alone. -/
lemma putChunk_patch (hm : ∀ i < 16, m (chunk + i) = some (old (chunk + i), false))
    (hS : ∀ i < 16, chunk + i ∉ S) (hchunk : 16 ∣ chunk) :
    putChunk (patch m S (new old)) chunk = some (patch m (upto S chunk 16) (new old)) := by
  rw [putChunk, codes_patch hm hS]
  show (List.range 4).foldlM (fun m t => storeWord m (chunk + 4 * t)
    (word (chunkCodes old chunk) t)) (patch m S (new old)) = _
  refine foldlM_upto (S := S) _ chunk 4 4 fun t ht => ?_
  have hword := store_range (m := m) (S := upto S chunk (4 * t)) (f := new old)
    (fun m i => store m (chunk + 4 * t + i)
      (word (chunkCodes old chunk) t >>> UInt32.ofNat (8 * i)).toUInt8) (chunk + 4 * t) 4
    (fun i hi m => ?_) (fun i hi => ?_)
  · rw [storeWord, hword, upto_upto]
    rfl
  · have hdiv : (chunk + 4 * t + i) / 16 * 16 = chunk := by omega
    have hmod : (chunk + 4 * t + i) % 16 / 4 = t := by omega
    have hbyte : (chunk + 4 * t + i) % 4 = i := by omega
    rw [new, hdiv, hmod, hbyte]
  · rw [Nat.add_assoc, hm _ (by omega)]
    rfl

end Rewrite

/-- The bytes of a word, put together again. -/
lemma loadWord_of_bytes {m : Memory UInt8} {src : ℕ} {w : UInt32}
    (h : ∀ i < 4, m.value (src + i) = some (w >>> UInt32.ofNat (8 * i)).toUInt8) :
    loadWord m src = some w := by
  have hload : (List.range 4).mapM (fun i => m.value (src + i)) =
      some ((List.range 4).map fun i => (w >>> UInt32.ofNat (8 * i)).toUInt8) := by
    refine Loop.mapM_of_forall₂ (List.forall₂_map_right_iff.mpr (List.forall₂_same.mpr ?_))
    exact fun i hi => h i (List.mem_range.mp hi)
  have hbyte : ∀ i < 4, (((List.range 4).map fun i =>
      (w >>> UInt32.ofNat (8 * i)).toUInt8).getD i 0).toNat = w.toNat / 2 ^ (8 * i) % 256 := by
    intro i hi
    have hmod : (UInt32.ofNat (8 * i)).toNat % 32 = 8 * i := by
      rw [UInt32.toNat_ofNat']
      omega
    rw [List.getD_eq_getElem _ _ (by simpa using hi), List.getElem_map, List.getElem_range,
      UInt32.toNat_toUInt8, UInt32.toNat_shiftRight, hmod, Nat.shiftRight_eq_div_pow]
  have hsum := (toNat_assemble (e := 8) (n := 4)
    (fun s => UInt8.toNat_lt (((List.range 4).map fun i =>
      (w >>> UInt32.ofNat (8 * i)).toUInt8).getD s 0)) (le_refl 32)).1
  rw [loadWord, hload, Option.map_some]
  refine congrArg some (UInt32.toNat_inj.mp (hsum.trans ?_))
  rw [Finset.sum_congr rfl fun i hi => by rw [hbyte i (Finset.mem_range.mp hi)]]
  have hlt := w.toNat_lt
  simp only [Finset.sum_range_succ, Finset.sum_range_zero]
  omega

lemma digit_sum {c : ℕ → ℕ} (hc : ∀ s, c s < 2 ^ 4) {j : ℕ} (hj : j < 8) :
    (∑ s ∈ Finset.range 8, c s * 2 ^ (4 * s)) / 16 ^ j % 16 = c j := by
  have h0 := hc 0
  have h1 := hc 1
  have h2 := hc 2
  have h3 := hc 3
  have h4 := hc 4
  have h5 := hc 5
  have h6 := hc 6
  have h7 := hc 7
  simp only [Finset.sum_range_succ, Finset.sum_range_zero]
  interval_cases j <;> omega

/-- The nibbles of a word are the codes it is made of. -/
lemma nibble_word (old : ℕ → UInt8) (chunk t : ℕ) {s : ℕ} (hs : s < 8) :
    (word (chunkCodes old chunk) t).toNat / 16 ^ s % 16 =
      ((chunkCodes old chunk).getD (2 * (t + 4 * (s % 4)) + s / 4) 0).toNat := by
  have hpiece : ∀ s,
      ((chunkCodes old chunk).getD (2 * (t + 4 * (s % 4)) + s / 4) 0).toNat < 2 ^ 4 :=
    fun s => chunkCodes_lt old chunk _
  rw [word, (toNat_assemble hpiece (le_refl 32)).1]
  exact digit_sum hpiece hs

/-- The kernels find the codes of a chunk where they were. -/
lemma kernelWeight_new {m : Memory UInt8} {old : ℕ → UInt8} {row k : ℕ} (hrow : 16 ∣ row)
    (h : ∀ i < 16, m.value (row + k / 32 * 16 + i) = some (new old (row + k / 32 * 16 + i)))
    (scale zero : ℚ) :
    kernelWeight m row k scale zero =
      some (((if k % 2 = 0 then old (row + k / 2) >>> 4 else old (row + k / 2) &&& 0xF).toNat -
        zero) * scale) := by
  obtain ⟨chunk, hchunk⟩ : ∃ chunk, chunk = row + k / 32 * 16 := ⟨_, rfl⟩
  have hdvd : 16 ∣ chunk := hchunk ▸ dvd_add hrow (dvd_mul_left 16 (k / 32))
  have hbyte : row + k / 2 = chunk + k % 32 / 2 := by omega
  obtain ⟨t, ht⟩ : ∃ t, t = k % 32 / 2 % 4 := ⟨_, rfl⟩
  have hload : loadWord m (chunk + 4 * t) = some (word (chunkCodes old chunk) t) := by
    refine loadWord_of_bytes fun i hi => ?_
    have hdiv : (chunk + 4 * t + i) / 16 * 16 = chunk := by omega
    have hmod : (chunk + 4 * t + i) % 16 / 4 = t := by omega
    have hlow : (chunk + 4 * t + i) % 4 = i := by omega
    rw [Nat.add_assoc, hchunk, h _ (by omega), ← hchunk, ← Nat.add_assoc, new, hdiv, hmod, hlow]
  have hpair : k % 32 / 2 / 4 < 4 := by omega
  rw [kernelWeight]
  show loadWord m (row + k / 32 * 16 + 4 * (k % 32 / 2 % 4)) >>= _ = _
  rw [← hchunk, ← ht, hload, hbyte]
  show Option.map _ _ = _
  rw [w4DequantWord_getElem? _ _ _ hpair, Option.map_some, nibble_word old chunk t (by omega),
    nibble_word old chunk t (by omega)]
  refine congrArg some ?_
  have hcode := getD_chunkCodes old chunk (Nat.mod_lt k (by omega : 0 < 32))
  have hparity : k % 32 % 2 = k % 2 := by omega
  rw [hparity] at hcode
  rw [← hcode]
  split_ifs with heven
  · have hplace : 2 * (t + 4 * (k % 32 / 2 / 4 % 4)) + k % 32 / 2 / 4 / 4 = k % 32 := by omega
    rw [hplace]
  · have hplace : 2 * (t + 4 * ((k % 32 / 2 / 4 + 4) % 4)) + (k % 32 / 2 / 4 + 4) / 4 =
        k % 32 := by omega
    rw [hplace]

/-! ### Rows -/

lemma Shape.chunks_mul (s : Shape) : 16 * s.chunks = s.K / 2 ∧ 0 < s.K / 2 := by
  obtain ⟨c, hc⟩ := s.K_dvd
  have hpos := s.K_pos
  rw [Shape.chunks, hc]
  omega

lemma Shape.groups_pos (s : Shape) : 0 < s.groups :=
  Nat.div_pos (Nat.le_of_dvd s.K_pos s.groupSize_dvd) (by have := s.groupSize_le; omega)

/-- What is stored of the scales and zeros. -/
def newSz (toHalf : UInt8 → UInt16) (scales : List UInt16) (zeros : List UInt8) (i : ℕ) : UInt16 :=
  if i % 2 = 0 then scales.getD (i / 2) 0 else toHalf (zeros.getD (i / 2) 0)

section Rows

variable {toHalf : UInt8 → UInt16} {s : Shape} {scales : List UInt16} {zeros : List UInt8}
  {packed : List UInt8} {sz : List UInt16}

/-- The buffers of the caller. -/
structure Sized (s : Shape) (scales : List UInt16) (zeros : List UInt8) (packed : List UInt8)
    (sz : List UInt16) : Prop where
  scales : scales.length = s.N * s.groups
  zeros : zeros.length = s.N * s.groups
  packed : packed.length = s.N * (s.K / 2)
  sz : sz.length = s.N * (s.groups * 2)

/-- The buffers after some rows are rewritten. -/
def after (toHalf : UInt8 → UInt16) (s : Shape) (scales : List UInt16) (zeros packed : List UInt8)
    (sz : List UInt16) (ns : List ℕ) : Memory UInt8 × Memory UInt16 :=
  (patch (ofList packed) (blocks ns (s.K / 2)) (new fun i => packed.getD i 0),
    patch (ofList sz) (blocks ns (s.groups * 2)) (newSz toHalf scales zeros))

/-- A row is rewritten from what no other row overwrites. -/
lemma putRow_after (h : Sized s scales zeros packed sz) {ns : List ℕ} {n : ℕ} (hn : n < s.N)
    (hns : n ∉ ns) :
    putRow toHalf s scales zeros (after toHalf s scales zeros packed sz ns) n =
      some (after toHalf s scales zeros packed sz (n :: ns)) := by
  obtain ⟨hchunks, hrow⟩ := s.chunks_mul
  have hin : ∀ {len j : ℕ}, j < len → n * len + j < s.N * len := by
    intro len j hj
    have hle : (n + 1) * len ≤ s.N * len := Nat.mul_le_mul_right len hn
    rw [Nat.succ_mul] at hle
    omega
  have hpacked : (List.range s.chunks).foldlM (fun m c => putChunk m (n * (s.K / 2) + c * 16))
      (after toHalf s scales zeros packed sz ns).1 =
      some (after toHalf s scales zeros packed sz (n :: ns)).1 := by
    rw [after, after, ← upto_block hrow n, ← hchunks]
    refine foldlM_upto (S := blocks ns (16 * s.chunks)) _ _ 16 s.chunks fun c hc => ?_
    rw [hchunks, Nat.mul_comm c 16]
    have hcell : ∀ i < 16, 16 * c + i < s.K / 2 := fun i hi => by omega
    have hold : ∀ i < 16, ofList packed (n * (s.K / 2) + 16 * c + i) =
        some (packed.getD (n * (s.K / 2) + 16 * c + i) 0, false) := by
      intro i hi
      have hlt := hin (hcell i hi)
      rw [← h.packed, ← Nat.add_assoc] at hlt
      rw [ofList_eq hlt, List.getD_eq_getElem _ _ hlt]
    have hfree : ∀ i < 16, n * (s.K / 2) + 16 * c + i ∉
        upto (blocks ns (s.K / 2)) (n * (s.K / 2)) (16 * c) := by
      intro i hi
      rw [mem_upto, not_or, Nat.add_assoc]
      exact ⟨not_mem_blocks hns (hcell i hi), by omega⟩
    have hdvd : 16 ∣ n * (s.K / 2) + 16 * c :=
      dvd_add ((Dvd.intro _ hchunks).mul_left n) (dvd_mul_right 16 c)
    rw [putChunk_patch hold hfree hdvd, upto_upto]
    rfl
  have hsz : (List.range s.groups).foldlM (fun sz g =>
      putGroup toHalf scales[n * s.groups + g]? zeros[n * s.groups + g]? sz
        (n * s.groups * 2 + 2 * g)) (after toHalf s scales zeros packed sz ns).2 =
      some (after toHalf s scales zeros packed sz (n :: ns)).2 := by
    rw [after, after, ← upto_block (Nat.mul_pos s.groups_pos two_pos) n, Nat.mul_comm s.groups 2]
    refine foldlM_upto (S := blocks ns (2 * s.groups)) _ _ 2 s.groups fun g hg => ?_
    have hbase : n * s.groups * 2 + 2 * g = n * (2 * s.groups) + 2 * g := by ring
    have hhalf : (n * (2 * s.groups) + 2 * g) / 2 = n * s.groups + g := by
      rw [← hbase]
      omega
    have heven : (n * (2 * s.groups) + 2 * g) % 2 = 0 := by
      rw [← hbase]
      omega
    have hgroup := hin hg
    have hcell : ∀ i < 2, (ofList sz (n * (2 * s.groups) + 2 * g + i)).isSome := by
      intro i hi
      have hlt : n * (2 * s.groups) + (2 * g + i) < s.N * (2 * s.groups) := hin (by omega)
      rw [Nat.mul_comm 2, ← h.sz, Nat.mul_comm _ 2, ← Nat.add_assoc] at hlt
      rw [ofList_eq hlt]
      rfl
    have hscale : scales[n * s.groups + g]? =
        some (newSz toHalf scales zeros (n * (2 * s.groups) + 2 * g)) := by
      have hlt : n * s.groups + g < scales.length := by rw [h.scales]; exact hgroup
      rw [newSz, if_pos heven, hhalf, List.getD_eq_getElem _ _ hlt, List.getElem?_eq_getElem hlt]
    have hzero : ∃ z, zeros[n * s.groups + g]? = some z ∧
        toHalf z = newSz toHalf scales zeros (n * (2 * s.groups) + 2 * g + 1) := by
      have hlt : n * s.groups + g < zeros.length := by rw [h.zeros]; exact hgroup
      have hodd : (n * (2 * s.groups) + 2 * g + 1) / 2 = n * s.groups + g := by omega
      refine ⟨_, List.getElem?_eq_getElem hlt, ?_⟩
      rw [newSz, if_neg (by omega), hodd, List.getD_eq_getElem _ _ hlt]
    obtain ⟨z, hz, hhz⟩ := hzero
    have hfirst := store_patch (f := newSz toHalf scales zeros) (hcell 0 two_pos)
      (T := upto (blocks ns (2 * s.groups)) (n * (2 * s.groups)) (2 * g + 1))
      (S := upto (blocks ns (2 * s.groups)) (n * (2 * s.groups)) (2 * g)) fun j => by
        rw [mem_upto, mem_upto, or_left_comm]
        exact or_congr_right (by omega)
    have hsecond := store_patch (f := newSz toHalf scales zeros) (hcell 1 one_lt_two)
      (T := upto (blocks ns (2 * s.groups)) (n * (2 * s.groups)) (2 * (g + 1)))
      (S := upto (blocks ns (2 * s.groups)) (n * (2 * s.groups)) (2 * g + 1)) fun j => by
        rw [mem_upto, mem_upto, or_left_comm]
        exact or_congr_right (by omega)
    rw [putGroup, hbase, hscale, hz, ← hsecond, ← hhz]
    show store _ _ _ >>= _ = _
    rw [← Nat.add_zero (n * (2 * s.groups) + 2 * g), hfirst]
    rfl
  rw [putRow, hpacked]
  show Option.map _ _ = _
  rw [hsz]
  rfl

/-- Rows that are each taken once. -/
lemma foldlM_putRow (h : Sized s scales zeros packed sz) {rows ns : List ℕ}
    (hrows : ∀ n ∈ rows, n < s.N) (hnodup : (rows.reverse ++ ns).Nodup) :
    rows.foldlM (putRow toHalf s scales zeros) (after toHalf s scales zeros packed sz ns) =
      some (after toHalf s scales zeros packed sz (rows.reverse ++ ns)) := by
  induction rows generalizing ns with
  | nil => rfl
  | cons n rows ih =>
    rw [List.reverse_cons, List.append_assoc, List.singleton_append] at hnodup ⊢
    have hns : n ∉ ns := (List.nodup_cons.mp hnodup.of_append_right).1
    rw [List.foldlM_cons, putRow_after h (hrows n List.mem_cons_self) hns]
    exact ih (fun n hn => hrows n (List.mem_cons_of_mem _ hn)) hnodup

end Rows

lemma shape_eq_ok (s : Shape) : shape s.N s.K s.groupSize = .ok s := by
  have h : 0 < (s.N : ℤ) ∧ 0 < (s.K : ℤ) ∧ 32 ∣ (s.K : ℤ) ∧ 32 ≤ (s.groupSize : ℤ) ∧
      (s.groupSize : ℤ) ∣ s.K ∧ 32 ∣ (s.groupSize : ℤ) :=
    ⟨mod_cast s.N_pos, mod_cast s.K_pos, mod_cast s.K_dvd, mod_cast s.groupSize_le,
      mod_cast s.groupSize_dvd, mod_cast s.dvd_groupSize⟩
  rw [shape, dif_pos h]
  rfl

/-- All rows are rewritten, in whatever order they are taken. -/
lemma int4gToGpuLayout_eq (toHalf : UInt8 → UInt16) {s : Shape} {rows : List ℕ}
    {scales : List UInt16} {zeros packed : List UInt8} {sz : List UInt16}
    (hperm : rows.Perm (List.range s.N)) (h : Sized s scales zeros packed sz) :
    int4gToGpuLayout toHalf s.N s.K s.groupSize rows scales zeros (ofList packed) (ofList sz) =
      some (.ok (after toHalf s scales zeros packed sz rows.reverse)) := by
  have hnodup : (rows.reverse ++ []).Nodup := by
    rw [List.append_nil, List.nodup_reverse]
    exact hperm.nodup_iff.mpr List.nodup_range
  have hstart : after toHalf s scales zeros packed sz [] = (ofList packed, ofList sz) := by
    rw [after, patch_nil, patch_nil]
  have hfold : rows.foldlM (putRow toHalf s scales zeros)
      (after toHalf s scales zeros packed sz []) =
      some (after toHalf s scales zeros packed sz (rows.reverse ++ [])) :=
    foldlM_putRow h (fun n hn => List.mem_range.mp (hperm.mem_iff.mp hn)) hnodup
  rw [hstart, List.append_nil] at hfold
  rw [int4gToGpuLayout, shape_eq_ok]
  show (rows.foldlM (putRow toHalf s scales zeros) (ofList packed, ofList sz)).map Except.ok = _
  rw [hfold]
  rfl

/-- What the rewrite leaves in a row. -/
lemma value_after (toHalf : UInt8 → UInt16) {s : Shape} {rows : List ℕ} {scales : List UInt16}
    {zeros packed : List UInt8} {sz : List UInt16} (hperm : rows.Perm (List.range s.N)) {n i : ℕ}
    (hn : n < s.N) :
    (i < s.K / 2 → (after toHalf s scales zeros packed sz rows.reverse).1.value
      (n * (s.K / 2) + i) = some (new (fun i => packed.getD i 0) (n * (s.K / 2) + i))) ∧
    (i < s.groups * 2 → (after toHalf s scales zeros packed sz rows.reverse).2.value
      (n * (s.groups * 2) + i) = some (newSz toHalf scales zeros (n * (s.groups * 2) + i))) := by
  have hmem : ∀ {len : ℕ}, i < len → n * len + i ∈ blocks rows.reverse len := by
    intro len hi
    have hdiv : (n * len + i) / len = n := by
      rw [div_eq_iff_block (by omega)]
      omega
    rw [mem_blocks, hdiv, List.mem_reverse]
    exact hperm.mem_iff.mpr (List.mem_range.mpr hn)
  exact ⟨fun hi => congrArg (Option.map Prod.fst) (patch_of_mem (hmem hi)),
    fun hi => congrArg (Option.map Prod.fst) (patch_of_mem (hmem hi))⟩

/-- The kernels find every code where it was, and the rewrite does not fault; what it refuses it
does not touch. -/
theorem int4gToGpuLayout_reads (toHalf : UInt8 → UInt16) :
    (∀ N K groupSize : ℤ,
      ¬ (0 < N ∧ 0 < K ∧ 32 ∣ K ∧ 32 ≤ groupSize ∧ groupSize ∣ K ∧ 32 ∣ groupSize) →
      ∀ rows scales zeros packed sz,
        int4gToGpuLayout toHalf N K groupSize rows scales zeros packed sz =
          some (.error .invalidArg)) ∧
    ∀ (s : Shape) (rows : List ℕ) (scales : List UInt16) (zeros packed : List UInt8)
      (sz : List UInt16), rows.Perm (List.range s.N) → Sized s scales zeros packed sz →
      ∃ packed' sz', int4gToGpuLayout toHalf s.N s.K s.groupSize rows scales zeros (ofList packed)
          (ofList sz) = some (.ok (packed', sz')) ∧
        ∀ n < s.N, ∀ k < s.K, ∃ q, code packed (n * (s.K / 2)) k = some q ∧
          ∀ scale zero, kernelWeight packed' (n * (s.K / 2)) k scale zero =
            some ((q.toNat - zero) * scale) := by
  constructor
  · intro N K groupSize hbad rows scales zeros packed sz
    rw [int4gToGpuLayout, shape, dif_neg hbad]
    rfl
  intro s rows scales zeros packed sz hperm h
  obtain ⟨hchunks, hrow⟩ := s.chunks_mul
  refine ⟨_, _, int4gToGpuLayout_eq toHalf hperm h, fun n hn k hk => ?_⟩
  have hK : s.K = 32 * s.chunks := (Nat.mul_div_cancel' s.K_dvd).symm
  have hlt : ∀ j < s.K / 2, n * (s.K / 2) + j < packed.length := by
    intro j hj
    have hle : (n + 1) * (s.K / 2) ≤ s.N * (s.K / 2) := Nat.mul_le_mul_right _ hn
    rw [Nat.succ_mul] at hle
    rw [h.packed]
    omega
  have hvalue : ∀ i < 16,
      (after toHalf s scales zeros packed sz rows.reverse).1.value
        (n * (s.K / 2) + k / 32 * 16 + i) =
      some (new (fun i => packed.getD i 0) (n * (s.K / 2) + k / 32 * 16 + i)) := by
    intro i hi
    rw [Nat.add_assoc]
    exact (value_after toHalf hperm hn).1 (by omega)
  have hdvd : 16 ∣ n * (s.K / 2) := (Dvd.intro _ hchunks).mul_left n
  have hbyte := hlt (k / 2) (by omega)
  refine ⟨_, ?_, kernelWeight_new hdvd hvalue⟩
  rw [code, List.getElem?_eq_getElem hbyte, List.getD_eq_getElem _ _ hbyte]
  rfl

/-- A row of 32 codes. -/
theorem int4gToGpuLayout_reads_row :
    ∃ packed' sz', int4gToGpuLayout UInt8.toUInt16 1 32 32 [0] [0x3C00] [0]
        (ofList (List.replicate 16 0x12)) (ofList [0, 0]) = some (.ok (packed', sz')) ∧
      ∀ k < 32, ∃ q, code (List.replicate 16 0x12) 0 k = some q ∧
        ∀ scale zero, kernelWeight packed' 0 k scale zero = some ((q.toNat - zero) * scale) := by
  obtain ⟨packed', sz', hrun, hreads⟩ := (int4gToGpuLayout_reads UInt8.toUInt16).2
    ⟨1, 32, 32, by decide, by decide, by decide, by decide, by decide, by decide⟩ [0] [0x3C00] [0]
    (List.replicate 16 0x12) [0, 0] (List.Perm.refl _) ⟨rfl, rfl, rfl, rfl⟩
  exact ⟨packed', sz', hrun, hreads 0 (by decide)⟩

end VibeVoice.GpuLayout
