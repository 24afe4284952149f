import VibeVoice.Kernels.Int8Linear
import VibeVoice.Lib.Warp
import VibeVoice.Lib.Words
import VibeVoice.Status

/-!
The quantizer of activations on the GPU (`act_quant.cu`), behind its rounding.

* `aqQuantizeRow`: what the threads of a block store.
* `Quantized`: every column of every row is in the place its layout gives it.
* `quantized_actQuantDev`: the quantizer gets there.
-/

namespace VibeVoice.GemmI8

open Finset Lanes Warp Words
open Kernels (Acts Q8Layout q8Pos q8Pos_inj clamp127 cell_inj cell_lt)
open Lanes.Acc (lift)

/-! ### The kernel -/

/-- `aq_pos`. -/
def aqPos (layout : Q8Layout) (j : ℕ) : ℕ :=
  let e := j &&& 1
  let t := j >>> 1 &&& 3
  let s := (j >>> 3) + 4 * e
  match layout with
  | .nibble => if e ≠ 0 then 16 + (j >>> 1) else j >>> 1
  | .w4Gemv => 8 * t + 4 * (s &&& 1) + (s >>> 1)
  | .w4Mma => 16 * e + 4 * t + (s &&& 3)
  | .natural => j

/-- A word stored over four activations. -/
def storeWord (dst : ℕ) (w : UInt32) : List (ℕ × Int8) :=
  (List.range 4).map fun b => (dst + b, (byteAt w b).toInt8)

/-- The chunk `c` of eight columns in `aq_quantize_row`; `v` is `__float2int_rn` of each product. -/
def aqChunk (layout : Q8Layout) (v : ℕ → ℤ) (c : ℕ) : List (ℕ × Int8) :=
  let q := fun j => (Int8.ofInt (clamp127 (v ((c <<< 3) + j)))).toUInt8
  let lo := ofBytes q
  let hi := ofBytes fun j => q (4 + j)
  let run := (c >>> 2) <<< 5
  match layout with
  | .natural => storeWord (c <<< 3) lo ++ storeWord ((c <<< 3) + 4) hi
  | .nibble =>
    storeWord (run + ((c &&& 3) <<< 2)) (prmt lo hi 0x6420) ++
      storeWord (run + ((c &&& 3) <<< 2) + 16) (prmt lo hi 0x7531)
  | .w4Gemv | .w4Mma => (List.range 8).map fun j =>
    (run + aqPos layout (((c &&& 3) <<< 3) + j),
      (byteAt (if j < 4 then lo else hi) (j &&& 3)).toInt8)

/-- The sum that the first of four threads stores, after the exchanges between them. -/
def aqSum (v : ℕ → ℤ) (c : ℕ) : Acc :=
  let s := fun c => turns 8 (fun j s => s.add 32 (lift (clamp127 (v ((c <<< 3) + j))))) (lift 0)
  let pair := fun c => (s c).add 32 (s (c ^^^ 1))
  (pair c).add 32 (pair (c ^^^ 2))

/-- `aq_quantize_row`: the stores to `xq` and those to `xsum`. -/
def aqQuantizeRow (layout : Q8Layout) (v : ℕ → ℤ) (K : ℕ) : List (ℕ × Int8) × List (ℕ × Acc) :=
  let chunks := (List.range 256).flatMap (strided (K >>> 3) 256)
  (chunks.flatMap (aqChunk layout v),
    (chunks.filter fun c => c &&& 3 = 0).map fun c => (c >>> 2, aqSum v c))

/-- `VV_ACT_QUANT_MAX_K`. -/
def actQuantMaxK : ℕ := 22528

/-- `vv_act_quant_dev`. -/
def actQuantDev (layout : Q8Layout) (v : ℕ → ℤ) (M K : ℕ) (xq : Acts) (xsum : Option (ℕ → Acc)) :
    Except Status (Acts × Option (ℕ → Acc)) :=
  if M = 0 ∨ K = 0 then .error .invalidArg
  else if K &&& 31 ≠ 0 ∨ actQuantMaxK < K then .error .unsupported
  else
    let row := fun r => aqQuantizeRow layout (fun k => v (r * K + k)) K
    .ok (stores ((List.range M).flatMap fun r => (row r).1.map fun s => (r * K + s.1, s.2)) xq,
      xsum.map (stores ((List.range M).flatMap fun r =>
        (row r).2.map fun s => (r * (K >>> 5) + s.1, s.2))))

/-! ### What is stored -/

variable {layout : Q8Layout} {v : ℕ → ℤ}

lemma aqPos_eq (layout : Q8Layout) (j : ℕ) : aqPos layout j = q8Pos layout j := by
  cases layout <;> rfl

lemma mem_storeWord {dst o : ℕ} {w : UInt32} {x : Int8} :
    (o, x) ∈ storeWord dst w ↔ ∃ b < 4, o = dst + b ∧ x = (byteAt w b).toInt8 := by
  simp only [storeWord, List.mem_map, List.mem_range, Prod.mk.injEq]
  exact exists_congr fun b => and_congr_right fun _ => and_congr eq_comm eq_comm

lemma and_three (n : ℕ) : n &&& 3 = n % 4 := Nat.and_two_pow_sub_one_eq_mod n 2

/-- Two words that hold the columns `g 0` to `g 3` and `h 0` to `h 3` of a chunk. -/
lemma mem_storeWords {f : ℕ → Int8} {w w' : UInt32} {g h p : ℕ → ℕ} {dst dst' o : ℕ} {x : Int8}
    (hw : ∀ b < 4, byteAt w b = (f (g b)).toUInt8 ∧ dst + b = p (g b))
    (hw' : ∀ b < 4, byteAt w' b = (f (h b)).toUInt8 ∧ dst' + b = p (h b))
    (hall : ∀ j < 8, ∃ b < 4, j = g b ∨ j = h b) (hlt : ∀ b < 4, g b < 8 ∧ h b < 8) :
    (o, x) ∈ storeWord dst w ++ storeWord dst' w' ↔ ∃ j < 8, o = p j ∧ x = f j := by
  rw [List.mem_append, mem_storeWord, mem_storeWord]
  constructor
  · rintro (⟨b, hb, rfl, rfl⟩ | ⟨b, hb, rfl, rfl⟩)
    · exact ⟨g b, (hlt b hb).1, (hw b hb).2, by rw [(hw b hb).1, Int8.toInt8_toUInt8]⟩
    · exact ⟨h b, (hlt b hb).2, (hw' b hb).2, by rw [(hw' b hb).1, Int8.toInt8_toUInt8]⟩
  · rintro ⟨j, hj, rfl, rfl⟩
    obtain ⟨b, hb, rfl | rfl⟩ := hall j hj
    · exact .inl ⟨b, hb, (hw b hb).2.symm, by rw [(hw b hb).1, Int8.toInt8_toUInt8]⟩
    · exact .inr ⟨b, hb, (hw' b hb).2.symm, by rw [(hw' b hb).1, Int8.toInt8_toUInt8]⟩

/-- The even columns of a chunk are neighbours, and so are the odd ones. -/
lemma q8Pos_nibble_chunk : ∀ i < 4, ∀ b < 4, q8Pos .nibble (i * 8 + 2 * b) = i * 4 + b ∧
    q8Pos .nibble (i * 8 + (2 * b + 1)) = 16 + i * 4 + b := by
  decide

/-- The eight columns of a chunk, each where the layout has it. -/
lemma mem_aqChunk {c o : ℕ} {x : Int8} : (o, x) ∈ aqChunk layout v c ↔
    ∃ j < 8, o = c / 4 * 32 + q8Pos layout (c % 4 * 8 + j) ∧
      x = Int8.ofInt (clamp127 (v (c * 8 + j))) := by
  have hdiv : c >>> 2 = c / 4 := Nat.shiftRight_eq_div_pow c 2
  have hquarter : c % 4 < 4 := Nat.mod_lt c (by omega)
  simp only [aqChunk, and_three, hdiv, Nat.shiftLeft_eq, Nat.reducePow, aqPos_eq]
  set q : ℕ → UInt8 := fun j => (Int8.ofInt (clamp127 (v (c * 8 + j)))).toUInt8 with hq
  cases layout with
  | natural =>
    refine mem_storeWords (f := fun j => Int8.ofInt (clamp127 (v (c * 8 + j)))) (g := id)
      (h := (4 + ·)) (p := fun j => c / 4 * 32 + q8Pos .natural (c % 4 * 8 + j))
      (fun b hb => ⟨byteAt_ofBytes _ hb, ?_⟩) (fun b hb => ⟨byteAt_ofBytes _ hb, ?_⟩)
      (by decide) (by decide)
    · simp only [q8Pos, id]
      omega
    · simp only [q8Pos]
      omega
  | nibble =>
    have hpick : ∀ b < 4, 0x6420 / 16 ^ b % 8 = 2 * b ∧ 0x7531 / 16 ^ b % 8 = 2 * b + 1 := by
      decide
    refine mem_storeWords (f := fun j => Int8.ofInt (clamp127 (v (c * 8 + j)))) (g := (2 * ·))
      (h := (2 * · + 1)) (p := fun j => c / 4 * 32 + q8Pos .nibble (c % 4 * 8 + j))
      (fun b hb => ⟨?_, ?_⟩) (fun b hb => ⟨?_, ?_⟩) (by decide) (by decide)
    · rw [byteAt_prmt q _ hb, (hpick b hb).1]
    · rw [(q8Pos_nibble_chunk _ hquarter b hb).1, Nat.add_assoc]
    · rw [byteAt_prmt q _ hb, (hpick b hb).2]
    · rw [(q8Pos_nibble_chunk _ hquarter b hb).2]
      omega
  | w4Gemv | w4Mma =>
    simp only [List.mem_map, List.mem_range, Prod.mk.injEq]
    refine exists_congr fun j => and_congr_right fun hj => and_congr eq_comm ?_
    have hbyte : byteAt (if j < 4 then ofBytes q else ofBytes fun j => q (4 + j)) (j % 4) =
        q j := by
      split_ifs with hlow
      · rw [Nat.mod_eq_of_lt hlow, byteAt_ofBytes _ hlow]
      · rw [byteAt_ofBytes _ (Nat.mod_lt j (by omega)), show 4 + j % 4 = j by omega]
    rw [hbyte, hq, Int8.toInt8_toUInt8, eq_comm]

lemma mem_chunks {K c : ℕ} : c ∈ (List.range 256).flatMap (strided (K >>> 3) 256) ↔ c < K / 8 := by
  rw [(perm_strided (by omega)).mem_iff, List.mem_range, Nat.shiftRight_eq_div_pow]

/-- The columns of a row. -/
lemma mem_aqQuantizeRow {K o : ℕ} {x : Int8} (hK : K % 32 = 0) :
    (o, x) ∈ (aqQuantizeRow layout v K).1 ↔
      ∃ k < K, o = k / 32 * 32 + q8Pos layout (k % 32) ∧ x = Int8.ofInt (clamp127 (v k)) := by
  simp only [aqQuantizeRow, List.mem_flatMap (l := List.flatMap _ _), mem_chunks, mem_aqChunk]
  constructor
  · rintro ⟨c, hc, j, hj, rfl, rfl⟩
    refine ⟨c * 8 + j, by omega, ?_, rfl⟩
    rw [show (c * 8 + j) / 32 = c / 4 by omega, show (c * 8 + j) % 32 = c % 4 * 8 + j by omega]
  · rintro ⟨k, hk, rfl, rfl⟩
    refine ⟨k / 8, by omega, k % 8, by omega, ?_, ?_⟩
    · rw [show k / 8 / 4 = k / 32 by omega, show k / 8 % 4 * 8 + k % 8 = k % 32 by omega]
    · rw [show k / 8 * 8 + k % 8 = k by omega]

/-- Lanes of four threads. -/
lemma xor_of_lt_four (c : ℕ) {r : ℕ} (hr : r < 4) : c ^^^ r = c / 4 * 4 + (c % 4 ^^^ r) := by
  have hdiv : (c ^^^ r) / 2 ^ 2 = c / 2 ^ 2 ^^^ r / 2 ^ 2 := Nat.xor_div_two_pow
  have hmod : (c ^^^ r) % 2 ^ 2 = c % 2 ^ 2 ^^^ r % 2 ^ 2 := Nat.xor_mod_two_pow
  rw [Nat.div_eq_of_lt (show r < 2 ^ 2 from hr), Nat.xor_zero] at hdiv
  rw [Nat.mod_eq_of_lt (show r < 2 ^ 2 from hr)] at hmod
  rw [← Nat.div_add_mod' (c ^^^ r) 4]
  exact congrArg₂ (fun d m => d * 4 + m) hdiv hmod

/-- The four threads of a run have its sum. -/
lemma aqSum_eq (v : ℕ → ℤ) (c : ℕ) :
    aqSum v (c * 4) = lift (∑ j ∈ range 32, clamp127 (v (c * 32 + j))) := by
  obtain ⟨t, ht⟩ : ∃ t : ℕ → ℤ, ∀ i, t i = ∑ j ∈ range 8, clamp127 (v (i * 8 + j)) :=
    ⟨_, fun _ => rfl⟩
  have hchunk : ∀ i, (turns 8 (fun j s => s.add 32 (lift (clamp127 (v (i * 8 + j))))) (lift 0)).Sums
      32 (t i) 1016 := fun i =>
    ((Acc.sums_lift (z := 0) (Z := 0) (by rw [abs_zero]) (by decide)).turns (by omega)
      fun j _ => ⟨_, Acc.sums_lift (Kernels.abs_clamp127_le _) (by decide), fun _ => rfl⟩).congr
      (by rw [zero_add, ht]) (by norm_num)
  have hrun : ∑ j ∈ range 32, clamp127 (v (c * 32 + j)) = ∑ i ∈ range 4, t (c * 4 + i) := by
    rw [sum_range_mul (fun j => clamp127 (v (c * 32 + j))) 4 8]
    refine sum_congr rfl fun i _ => ?_
    rw [ht]
    exact sum_congr rfl fun j _ => by rw [show c * 32 + (i * 8 + j) = (c * 4 + i) * 8 + j by ring]
  have hxor : ∀ i < 4, ∀ r < 4, c * 4 + i ^^^ r = c * 4 + (i ^^^ r) := fun i hi r hr => by
    rw [xor_of_lt_four _ hr, show (c * 4 + i) / 4 = c by omega, show (c * 4 + i) % 4 = i by omega]
  have hone := hxor 0 (by omega) 1 (by omega)
  have htwo := hxor 0 (by omega) 2 (by omega)
  have hthree := hxor 2 (by omega) 1 (by omega)
  simp only [Nat.add_zero, Nat.reduceXor] at hone htwo hthree
  simp only [aqSum, Nat.shiftLeft_eq, Nat.reducePow, hone, htwo, hthree]
  refine ((((hchunk (c * 4)).add (by omega) (hchunk (c * 4 + 1))).add (by omega)
    ((hchunk (c * 4 + 2)).add (by omega) (hchunk (c * 4 + 3)))).congr ?_ rfl).eq_lift (by omega)
    (by decide)
  simp only [hrun, sum_range_succ, sum_range_zero, zero_add, Nat.add_zero]
  ring

/-- Every activation is in the place that the layout gives it. -/
def Quantized (layout : Q8Layout) (x : ℕ → ℕ → ℤ) (M K : ℕ) (xq : Acts) : Prop :=
  ∀ m < M, ∀ k < K, (xq (m * K + (k / 32 * 32 + q8Pos layout (k % 32)))).toInt = x m k

variable {M K : ℕ} {xq xq' : Acts} {xsum xsum' : Option (ℕ → Acc)}

/-- The rows are stored as they are laid out, and the sum of each run. -/
lemma quantized_actQuantDev (h : actQuantDev layout v M K xq xsum = .ok (xq', xsum')) :
    (0 < M ∧ 0 < K ∧ K % 32 = 0 ∧ K ≤ actQuantMaxK) ∧
      Quantized layout (fun m k => clamp127 (v (m * K + k))) M K xq' ∧
      ∀ s ∈ xsum', ∀ m < M, ∀ c < K / 32, s (m * (K / 32) + c) =
        lift (∑ j ∈ range 32, clamp127 (v (m * K + (c * 32 + j)))) := by
  rw [actQuantDev] at h
  split_ifs at h with hpos hwidth
  rw [show K &&& 31 = K % 32 from Nat.and_two_pow_sub_one_eq_mod K 5] at hwidth
  simp only [Except.ok.injEq, Prod.mk.injEq] at h
  obtain ⟨rfl, rfl⟩ := h
  have hK : K % 32 = 0 := by omega
  have hcell : ∀ k < K, k / 32 * 32 + q8Pos layout (k % 32) < K := fun k hk => by
    have hlt := (q8Pos_inj layout (k % 32) (Nat.mod_lt k (by omega))).1
    omega
  refine ⟨by omega, fun m hm k hk => ?_, fun s hs m hm c hc => ?_⟩
  · refine (congrArg Int8.toInt (stores_eq ?_ fun w hw ho => ?_)).trans
      (Kernels.toInt_clamp127 (v (m * K + k)))
    · exact ⟨_, List.mem_flatMap.mpr ⟨m, List.mem_range.mpr hm, List.mem_map.mpr
        ⟨(_, _), (mem_aqQuantizeRow hK).mpr ⟨k, hk, rfl, rfl⟩, rfl⟩⟩, rfl⟩
    · obtain ⟨m', -, hw⟩ := List.mem_flatMap.mp hw
      obtain ⟨⟨o, x⟩, hrow, rfl⟩ := List.mem_map.mp hw
      obtain ⟨k', hk', rfl, rfl⟩ := (mem_aqQuantizeRow hK).mp hrow
      obtain ⟨rfl, hcol⟩ := cell_inj (hcell k' hk') (hcell k hk) ho
      have hlt := Nat.mod_lt k (show 0 < 32 by omega)
      have hlt' := Nat.mod_lt k' (show 0 < 32 by omega)
      obtain ⟨hrun, hpos⟩ := cell_inj (q8Pos_inj layout _ hlt').1 (q8Pos_inj layout _ hlt).1 hcol
      have hmod := (q8Pos_inj layout _ hlt').2 _ hlt hpos
      rw [show k' = k by omega]
  · obtain ⟨s, -, rfl⟩ := Option.mem_map.mp hs
    have hruns : K >>> 5 = K / 32 := Nat.shiftRight_eq_div_pow K 5
    have hcells : ∀ {r o : ℕ} {a : Acc},
        (o, a) ∈ (aqQuantizeRow layout (fun k => v (r * K + k)) K).2 ↔
          ∃ i < K / 32, o = i ∧ a = aqSum (fun k => v (r * K + k)) (i * 4) := by
      intro r o a
      simp only [aqQuantizeRow, List.mem_map, List.mem_filter, mem_chunks, decide_eq_true_eq,
        and_three, Prod.mk.injEq]
      simp only [Nat.shiftRight_eq_div_pow, Nat.reducePow]
      constructor
      · rintro ⟨i, ⟨hi, hquad⟩, rfl, rfl⟩
        exact ⟨i / 4, by omega, rfl, by rw [Nat.div_mul_cancel (Nat.dvd_of_mod_eq_zero hquad)]⟩
      · rintro ⟨i, hi, rfl, rfl⟩
        exact ⟨o * 4, ⟨by omega, Nat.mul_mod_left ..⟩, Nat.mul_div_cancel _ (by omega), rfl⟩
    rw [hruns]
    refine (stores_eq ?_ fun w hw ho => ?_).trans ((aqSum_eq (fun k => v (m * K + k)) c))
    · exact ⟨_, List.mem_flatMap.mpr ⟨m, List.mem_range.mpr hm, List.mem_map.mpr
        ⟨(_, _), hcells.mpr ⟨c, hc, rfl, rfl⟩, rfl⟩⟩, rfl⟩
    · obtain ⟨m', -, hw⟩ := List.mem_flatMap.mp hw
      obtain ⟨⟨o, a⟩, hrow, rfl⟩ := List.mem_map.mp hw
      obtain ⟨i, hi, rfl, rfl⟩ := hcells.mp hrow
      obtain ⟨rfl, rfl⟩ := cell_inj hi hc ho
      rfl

end VibeVoice.GemmI8
