import VibeVoice.Kernels.Int8

/-!
The int8-activation linear layers of the CPU (`cpu_int8.c`): int8 weights and packed 4-bit weights
against quantized activations.

* `quantActQ8`: the quantizer, behind its rounding.
* `w8Dot`, `w4Group`, `groupSum`: one row of weights against one of activations.
* `w8a8Gemm`, `w4a8Gemm`: the drivers; what floats do behind the sums is a parameter.
* `W4Ops.Lawful`: what a run of chunks leaves behind in the pending register.
* `a8_exact_iff`: when the sums are exact.
-/

namespace VibeVoice.Kernels

open Finset Lanes
open Lanes.Acc (lift)

/-! ### The quantizer -/

/-- `vv_q8_layout_t`. -/
inductive Q8Layout
  | natural | nibble | w4Gemv | w4Mma
  deriving DecidableEq

/-- `vv_q8_pos`. -/
def q8Pos (layout : Q8Layout) (j : ℕ) : ℕ :=
  let e := j &&& 1
  let t := j >>> 1 &&& 3
  let s := (j >>> 3) + 4 * e
  match layout with
  | .nibble => if e ≠ 0 then 16 + (j >>> 1) else j >>> 1
  | .w4Gemv => 8 * t + 4 * (s &&& 1) + (s >>> 1)
  | .w4Mma => 16 * e + 4 * t + (s &&& 3)
  | .natural => j

/-- The clamp of `quant_row`. -/
def clamp127 (v : ℤ) : ℤ := if 127 < v then 127 else if v < -127 then -127 else v

/-- `quant_row`, as what it stores; `v` is `rintf(x[k] * inv)`. -/
def quantRow (v : ℕ → ℤ) (K : ℕ) (layout : Q8Layout) : List (ℕ × Int8) × List (ℕ × Acc) :=
  ((List.range (K / 32)).flatMap fun c => (List.range 32).map fun j =>
      (c * 32 + q8Pos layout j, Int8.ofInt (clamp127 (v (c * 32 + j)))),
    (List.range (K / 32)).map fun c =>
      (c, turns 32 (fun j s => s.add 32 (lift (clamp127 (v (c * 32 + j))))) (lift 0)))

/-- `vv_quant_act_q8_cpu`. -/
def quantActQ8 (v : ℕ → ℤ) (M K : ℕ) (layout : Q8Layout) (xq : Acts) (xsum : ℕ → Acc) :
    Except Status (Acts × (ℕ → Acc)) :=
  if M = 0 ∨ K = 0 ∨ K % 32 ≠ 0 then .error .invalidArg
  else
    let row m := quantRow (fun k => v (m * K + k)) K layout
    .ok (stores ((List.range M).flatMap fun m => (row m).1.map fun c => (m * K + c.1, c.2)) xq,
      stores ((List.range M).flatMap fun m => (row m).2.map fun c => (m * (K / 32) + c.1, c.2))
        xsum)

/-! ### The kernels -/

/-- `i8_isa_t`. -/
inductive I8Isa
  | scalar | avx2 | avxvnni | avx512vnni | sdot
  deriving DecidableEq

/-- `pick_w8`. The loops are those of the tiles of `bitnet_cpu.c`, with the weights in the place of
the activations: `sign_epi8` moves the sign of the weight onto the activation. -/
def w8Dot : I8Isa → Acts → Acts → ℕ → Acc
  | .scalar => i8RowScalar
  | .avx2 => i8RowAvx2
  -- the 256-bit form of the instruction, in both
  | .avxvnni | .avx512vnni => i8RowAvxvnni
  | .sdot => i8RowNeon true

/-- The packed bytes of the chunk of columns from `c` on. -/
def loadPacked (wp : Codes) (c : ℕ) : ℕ → ℕ := fun j => (wp (c / 2 + j)).toNat

/-- The chunk of activations from `c` on. -/
def loadChunk (x : Acts) (c : ℕ) : ℕ → ℤ := ints (loadEpi8 x c)

/-- The sum of a group in `w4_dot_scalar`. -/
def w4GroupScalar (wp : Codes) (x : Acts) (G g : ℕ) : Acc :=
  turns ((G + 31) / 32) (fun i dot =>
    let b := loadPacked wp (g * G + i * 32)
    let xv := loadChunk x (g * G + i * 32)
    turns 16 (fun j dot =>
      (dot.add 32 (lift ((b j >>> 4 : ℕ) * xv j))).add 32 (lift ((b j &&& 15 : ℕ) * xv (16 + j))))
      dot) (lift 0)

/-- `ACC`, `FLUSH` and `ACC_RUN` of `DEFINE_I8_KERNELS`. -/
structure W4Ops where
  acc : Reg → (ℕ → ℕ) → (ℕ → ℤ) → Reg
  flush : Reg → Reg → Reg
  run : ℕ

/-- `ACC16_AVX2` and `FLUSH16_AVX2`. -/
def w4Avx2 : W4Ops :=
  ⟨fun h u s => addLanes 16 h (maddubs u s), fun a h => addLanes 32 a (maddOnes h), 8⟩

/-- `DOTU8_AVXVNNI`, `DOTU8_AVX512VNNI` and `FLUSH32`. -/
def w4Vnni : W4Ops := ⟨dpbusd, addLanes 32, 64⟩

/-- The codes of a chunk in `w4_dot_##SUF`: the high nibbles, then the low ones. -/
def w4Nibbles (b : ℕ → ℕ) : ℕ → ℕ := fun j =>
  if j < 16 then srliEpi16 b 4 j &&& 15 else b (j - 16) &&& 15

/-- The group sums `a`, the pending sums `h` and how many chunks are pending. -/
structure W4State where
  a : Reg
  h : Reg
  pend : ℕ

section Group

variable (ops : W4Ops) (wp : Codes) (x : Acts) (G g : ℕ)

/-- The pending sums behind `ACC` in turn `i`. -/
def w4Acc (i : ℕ) (s : W4State) : Reg :=
  ops.acc s.h (w4Nibbles (loadPacked wp (g * G + i * 32))) (loadChunk x (g * G + i * 32))

/-- The state behind `n` chunks of a group in `w4_dot_##SUF`. -/
def w4Chunks (n : ℕ) : W4State :=
  turns n (fun i s =>
    let h := w4Acc ops wp x G g i s
    if s.pend + 1 = ops.run then ⟨ops.flush s.a h, zero, 0⟩ else ⟨s.a, h, s.pend + 1⟩)
    ⟨zero, zero, 0⟩

/-- The group sums of `w4_dot_##SUF`. -/
def w4GroupVec : Reg :=
  let s := w4Chunks ops wp x G g ((G + 31) / 32)
  if s.pend ≠ 0 then ops.flush s.a s.h else s.a

/-- The group sums of `w4_dot_sdot`. -/
def w4GroupSdot : Reg :=
  turns ((G + 31) / 32) (fun i a =>
    let b := loadPacked wp (g * G + i * 32)
    let xv := loadChunk x (g * G + i * 32)
    let a := vdot a (fun j => (b j >>> 4 : ℕ)) xv
    vdot a (fun j => (b j &&& 15 : ℕ)) (fun j => xv (16 + j))) zero

/-- `pick_w4`: the words that are converted to floats, which together are the sum of group `g`. -/
def w4Group : I8Isa → List Acc
  | .scalar => [w4GroupScalar wp x G g]
  | .avx2 => (List.range 8).map (w4GroupVec w4Avx2 wp x G g)
  | .avxvnni | .avx512vnni => (List.range 8).map (w4GroupVec w4Vnni wp x G g)
  | .sdot => [vaddv (w4GroupSdot wp x G g)]

end Group

/-- `gbuf[r][g]`, from the sums of a row of activations. -/
def groupSum (xs : ℕ → Acc) (G g : ℕ) : Acc :=
  turns (G / 32) (fun c t => t.add 32 (xs (g * (G / 32) + c))) (lift 0)

/-! ### The pending sums -/

section Chunks

/-- The code at position `p` of a chunk. -/
def nibbleAt (b : ℕ → ℕ) (p : ℕ) : ℕ := if p < 16 then b p / 16 else b (p - 16) % 16

/-- The product at position `p` of the chunk from column `c` on. -/
def chunkTerm (wp : Codes) (x : Acts) (c p : ℕ) : ℤ :=
  (nibbleAt (loadPacked wp c) p : ℤ) * loadChunk x c p

lemma loadPacked_lt (wp : Codes) (c j : ℕ) : loadPacked wp c j < 256 := UInt8.toNat_lt _

lemma and_fifteen (n : ℕ) : n &&& 15 = n % 16 := Nat.and_two_pow_sub_one_eq_mod n 4

lemma nibbleAt_lt {b : ℕ → ℕ} (hb : ∀ j, b j < 256) (p : ℕ) : nibbleAt b p < 16 := by
  rw [nibbleAt]
  split_ifs
  · have hlt := hb p
    omega
  · exact Nat.mod_lt _ (by omega)

/-- A shift of 16-bit lanes moves no bit of another byte under the mask. -/
lemma w4Nibbles_eq {b : ℕ → ℕ} (hb : ∀ j, b j < 256) (j : ℕ) : w4Nibbles b j = nibbleAt b j := by
  have hlow := hb (j / 2 * 2)
  have hhigh := hb (j / 2 * 2 + 1)
  rw [w4Nibbles, nibbleAt, and_fifteen, and_fifteen, srliEpi16, Nat.shiftRight_eq_div_pow]
  refine if_congr Iff.rfl ?_ rfl
  rcases Nat.mod_two_eq_zero_or_one j with hmod | hmod
  · rw [hmod, show j = j / 2 * 2 by omega, Nat.mul_div_cancel _ (by omega)]
    omega
  · rw [hmod, show b j = b (j / 2 * 2 + 1) by rw [show j / 2 * 2 + 1 = j by omega]]
    omega

variable {ops : W4Ops} {Holds : Reg → (ℕ → ℤ) → ℕ → Prop} {wp : Codes} {x : Acts} {G g n : ℕ}

/-- What a run of chunks leaves behind in the pending register: `Holds h t m` says that `h` holds
the sums `t` of each position over `m` chunks. -/
structure W4Ops.Lawful (ops : W4Ops) (Holds : Reg → (ℕ → ℤ) → ℕ → Prop) : Prop where
  run_pos : 0 < ops.run
  zero : Holds zero (fun _ => 0) 0
  acc : ∀ {h t m q xv}, Holds h t m → m < ops.run → (∀ p < 32, |(q p : ℤ) * xv p| ≤ 1905) →
    Holds (ops.acc h q xv) (fun p => t p + q p * xv p) (m + 1)
  flush : ∀ {a h t m d y Y}, d < 8 → Holds h t m → m ≤ ops.run → (a d).Sums 32 y Y →
    (ops.flush a h d).Sums 32 (y + ∑ e ∈ range 4, t (4 * d + e)) (Y + m * 7620)

/-- The 16-bit lanes of the AVX2 kernel do not overflow within a run. -/
def HoldsPairs (h : Reg) (t : ℕ → ℤ) (m : ℕ) : Prop :=
  ∀ l < 16, (h l).Within True (t (2 * l) + t (2 * l + 1)) (m * 3810)

/-- The 32-bit lanes of the VNNI kernels. -/
def HoldsQuads (h : Reg) (t : ℕ → ℤ) (m : ℕ) : Prop :=
  ∀ d < 8, (h d).Sums 32 (∑ e ∈ range 4, t (4 * d + e)) (m * 7620)

lemma abs_add_le_two_mul {y z B : ℤ} (hy : |y| ≤ B) (hz : |z| ≤ B) : |y + z| ≤ 2 * B :=
  (abs_add_le y z).trans (by omega)

lemma w4Avx2_lawful : w4Avx2.Lawful HoldsPairs where
  run_pos := by decide
  zero l _ := Acc.within_lift (by simp)
  acc {h t m q xv} hh hm hq l hl := by
    have hrun : m < 8 := hm
    have hpair : |(q (2 * l) : ℤ) * xv (2 * l) + q (2 * l + 1) * xv (2 * l + 1)| ≤ 3810 :=
      abs_add_le_two_mul (hq _ (by omega)) (hq _ (by omega))
    have hsmall : (m : ℤ) * 3810 + 3810 < 2 ^ 15 := by omega
    have hadd := (hh l hl).add_lift (w := 16) (by omega) hpair hsmall
    show ((h l).add 16 (maddubs q xv l)).Within _ _ _
    rw [maddubs, Acc.saturate_of_fits (fits_of_abs hpair (by decide)), Nat.cast_succ, add_mul,
      one_mul, add_add_add_comm]
    exact hadd
  flush {a h t m d y Y} hd hh hm ha := by
    have hrun : m ≤ 8 := hm
    have hlane : ∀ l < 16, (h l).Sums 32 (t (2 * l) + t (2 * l + 1)) (m * 3810) := fun l hl =>
      (hh l hl).sums (by
        show _ < (2 : ℤ) ^ 31
        omega)
    refine (ha.add (by omega) ((hlane (2 * d) (by omega)).add (by omega)
      (hlane (2 * d + 1) (by omega)))).congr ?_ (by ring)
    simp only [sum_range_succ, sum_range_zero, zero_add, add_zero]
    rw [show 2 * (2 * d) = 4 * d by omega, show 2 * (2 * d + 1) = 4 * d + 2 by omega]
    ring

lemma w4Vnni_lawful : w4Vnni.Lawful HoldsQuads where
  run_pos := by decide
  zero d _ := (Acc.sums_lift (z := 0) (Z := 0) (by rw [abs_zero]) (by decide)).congr
    (by simp) (by simp)
  acc {h t m q xv} hh _ hq d hd := by
    have hquad : |∑ e ∈ range 4, (q (4 * d + e) : ℤ) * xv (4 * d + e)| ≤ (4 : ℕ) * 1905 :=
      abs_sum_range_le fun e he => hq _ (by omega)
    refine ((hh d hd).add (by omega) (Acc.sums_lift hquad (by decide))).congr ?_ ?_
    · rw [sum_add_distrib]
    · push_cast
      ring
  flush {a h t m d y Y} hd hh _ ha := ha.add (by omega) (hh d hd)

/-- The activations of a group are at most 127 away from zero, all of them. -/
def GroupWithin (x : Acts) (G g : ℕ) : Prop := ∀ k < G, |(x (g * G + k)).toInt| ≤ 127

lemma abs_chunkTerm_le {c p : ℕ} (h : |(x (c + p)).toInt| ≤ 127) : |chunkTerm wp x c p| ≤ 1905 := by
  have hcode := nibbleAt_lt (loadPacked_lt wp c) p
  rw [chunkTerm, abs_mul, Nat.abs_cast]
  calc (nibbleAt (loadPacked wp c) p : ℤ) * |loadChunk x c p|
      ≤ 15 * 127 := mul_le_mul (by omega) h (abs_nonneg _) (by omega)
    _ = 1905 := rfl

/-- The state behind `i` chunks: what is flushed, and what is pending. -/
structure Chunked (ops : W4Ops) (Holds : Reg → (ℕ → ℤ) → ℕ → Prop) (t : ℕ → ℕ → ℤ) (i : ℕ)
    (s : W4State) : Prop where
  pend : s.pend = i % ops.run
  held : Holds s.h (fun p => ∑ j ∈ Ico (i - i % ops.run) i, t j p) (i % ops.run)
  sums : ∀ d < 8, (s.a d).Sums 32 (∑ j ∈ range (i - i % ops.run), ∑ e ∈ range 4, t j (4 * d + e))
    ((i - i % ops.run : ℕ) * 7620)

/-- The chunks of a group. -/
def groupTerm (wp : Codes) (x : Acts) (G g i p : ℕ) : ℤ := chunkTerm wp x (g * G + i * 32) p

lemma abs_groupTerm_le {i p : ℕ} (hx : GroupWithin x (n * 32) g) (hi : i < n) (hp : p < 32) :
    |groupTerm wp x (n * 32) g i p| ≤ 1905 := by
  refine abs_chunkTerm_le ?_
  rw [Nat.add_assoc]
  exact hx _ (by omega)

/-- The pending sums of a turn, before they may be flushed. -/
lemma Chunked.acc {i : ℕ} {s : W4State} (hops : ops.Lawful Holds)
    (hx : GroupWithin x (n * 32) g) (hi : i < n)
    (h : Chunked ops Holds (groupTerm wp x (n * 32) g) i s) :
    Holds (w4Acc ops wp x (n * 32) g i s)
      (fun p => ∑ j ∈ Ico (i - i % ops.run) (i + 1), groupTerm wp x (n * 32) g j p)
      (i % ops.run + 1) := by
  have hterm : ∀ p, (w4Nibbles (loadPacked wp (g * (n * 32) + i * 32)) p : ℤ) *
      loadChunk x (g * (n * 32) + i * 32) p = groupTerm wp x (n * 32) g i p := fun p => by
    rw [w4Nibbles_eq (loadPacked_lt wp _)]
    rfl
  have hacc := hops.acc h.held (Nat.mod_lt _ hops.run_pos) fun p hp => by
    rw [hterm]
    exact abs_groupTerm_le hx hi hp
  simp only [hterm] at hacc
  simp only [sum_Ico_succ_top (Nat.sub_le i _)]
  exact hacc

lemma Chunked.step {i : ℕ} {s : W4State} (hops : ops.Lawful Holds)
    (hx : GroupWithin x (n * 32) g) (hi : i < n)
    (h : Chunked ops Holds (groupTerm wp x (n * 32) g) i s) :
    Chunked ops Holds (groupTerm wp x (n * 32) g) (i + 1)
      (if s.pend + 1 = ops.run then
        ⟨ops.flush s.a (w4Acc ops wp x (n * 32) g i s), zero, 0⟩
      else ⟨s.a, w4Acc ops wp x (n * 32) g i s, s.pend + 1⟩) := by
  have hacc := h.acc hops hx hi
  have hlt := Nat.mod_lt i hops.run_pos
  have hle := Nat.mod_le i ops.run
  have hmod : (i + 1) % ops.run = (i % ops.run + 1) % ops.run := (Nat.mod_add_mod ..).symm
  rw [h.pend]
  split_ifs with hrun
  · -- the run is full: all of it goes into the group sums
    have hzero : (i + 1) % ops.run = 0 := by rw [hmod, hrun, Nat.mod_self]
    constructor
    · exact hzero.symm
    · simp only [hzero, Nat.sub_zero, Ico_self, sum_empty]
      exact hops.zero
    · intro d hd
      rw [hzero, Nat.sub_zero]
      refine (hops.flush hd hacc (by omega) (h.sums d hd)).congr ?_ ?_
      · rw [← sum_range_add_sum_Ico _ (show i - i % ops.run ≤ i + 1 by omega)]
        exact congrArg _ sum_comm
      · rw [← add_mul, ← Nat.cast_add, show i - i % ops.run + (i % ops.run + 1) = i + 1 by omega]
  · have hnext : (i + 1) % ops.run = i % ops.run + 1 := by
      rw [hmod, Nat.mod_eq_of_lt (by omega)]
    have hstart : i + 1 - (i % ops.run + 1) = i - i % ops.run := by omega
    constructor
    · exact hnext.symm
    · rw [hnext, hstart]
      exact hacc
    · rw [hnext, hstart]
      exact h.sums

/-- The run of the chunks of a group. -/
lemma chunked_w4Chunks (wp : Codes) (hops : ops.Lawful Holds) (hx : GroupWithin x (n * 32) g) :
    ∀ i ≤ n, Chunked ops Holds (groupTerm wp x (n * 32) g) i (w4Chunks ops wp x (n * 32) g i) := by
  intro i hi
  refine turns_induct (Chunked ops Holds (groupTerm wp x (n * 32) g)) ?_
    fun j hj s hs => hs.step hops hx (hj.trans_le hi)
  constructor
  · rw [Nat.zero_mod]
  · simp only [Nat.zero_mod, Nat.sub_zero, Ico_self, sum_empty]
    exact hops.zero
  · intro d _
    refine (Acc.sums_lift (z := 0) (Z := 0) (by rw [abs_zero]) (by decide)).congr ?_ ?_
    · rw [Nat.zero_mod, Nat.sub_zero, sum_range_zero]
    · rw [Nat.zero_mod, Nat.sub_zero, Nat.cast_zero, zero_mul]

/-- What lane `d` of the vector kernels sums up. -/
def laneSum (t : ℕ → ℕ → ℤ) (n d : ℕ) : ℤ := ∑ j ∈ range n, ∑ e ∈ range 4, t j (4 * d + e)

lemma w4GroupVec_sums (wp : Codes) (hops : ops.Lawful Holds) (hx : GroupWithin x (n * 32) g) :
    ∀ d < 8, (w4GroupVec ops wp x (n * 32) g d).Sums 32 (laneSum (groupTerm wp x (n * 32) g) n d)
      (n * 7620) := by
  intro d hd
  have hchunks : (n * 32 + 31) / 32 = n := by omega
  have hrun := chunked_w4Chunks wp hops hx n le_rfl
  have hle := Nat.mod_le n ops.run
  rw [w4GroupVec, hchunks]
  generalize w4Chunks ops wp x (n * 32) g n = s at hrun ⊢
  split_ifs with hpend
  · refine (hops.flush hd hrun.held (Nat.mod_lt n hops.run_pos).le (hrun.sums d hd)).congr ?_ ?_
    · rw [laneSum, ← sum_range_add_sum_Ico _ (Nat.sub_le n (n % ops.run))]
      exact congrArg _ sum_comm
    · rw [← add_mul, ← Nat.cast_add, Nat.sub_add_cancel hle]
  · have hzero : n % ops.run = 0 := hrun.pend.symm.trans (not_not.mp hpend)
    have hsums := hrun.sums d hd
    rwa [hzero, Nat.sub_zero] at hsums

end Chunks

/-! ### The sum of a group -/

section Words

variable {wp : Codes} {x : Acts} {g n : ℕ}

/-- The positions of the chunks of a group. -/
def positionSum (t : ℕ → ℕ → ℤ) (n : ℕ) : ℤ := ∑ j ∈ range n, ∑ p ∈ range 32, t j p

lemma sum_fours (f : ℕ → ℤ) (m : ℕ) :
    ∑ d ∈ range m, ∑ e ∈ range 4, f (4 * d + e) = ∑ p ∈ range (m * 4), f p := by
  rw [sum_range_mul]
  exact sum_congr rfl fun d _ => by rw [Nat.mul_comm]

lemma sum_laneSum (t : ℕ → ℕ → ℤ) (n : ℕ) : ∑ d ∈ range 8, laneSum t n d = positionSum t n := by
  simp only [laneSum, positionSum]
  rw [sum_comm]
  exact sum_congr rfl fun j _ => sum_fours (t j) 8

lemma w4GroupScalar_sums (wp : Codes) (hx : GroupWithin x (n * 32) g) :
    (w4GroupScalar wp x (n * 32) g).Sums 32 (positionSum (groupTerm wp x (n * 32) g) n)
      (n * 60960) := by
  have hstart : (lift 0).Sums 32 0 0 := Acc.sums_lift (by rw [abs_zero]) (by decide)
  rw [w4GroupScalar, show (n * 32 + 31) / 32 = n by omega]
  refine (hstart.loop (Z := 60960) fun i hi s y Y hs => ?_).congr (zero_add _) (zero_add _)
  refine (hs.loop (Z := 3810) (z := fun j => groupTerm wp x (n * 32) g i j +
    groupTerm wp x (n * 32) g i (16 + j)) fun j hj s y Y hs => ?_).congr ?_ (by push_cast; ring)
  · have hhigh : ((loadPacked wp (g * (n * 32) + i * 32) j >>> 4 : ℕ) : ℤ) *
        loadChunk x (g * (n * 32) + i * 32) j = groupTerm wp x (n * 32) g i j := by
      rw [groupTerm, chunkTerm, nibbleAt, if_pos hj, Nat.shiftRight_eq_div_pow]
    have hlow : ((loadPacked wp (g * (n * 32) + i * 32) j &&& 15 : ℕ) : ℤ) *
        loadChunk x (g * (n * 32) + i * 32) (16 + j) = groupTerm wp x (n * 32) g i (16 + j) := by
      rw [groupTerm, chunkTerm, nibbleAt, if_neg (by omega), and_fifteen, Nat.add_sub_cancel_left]
    rw [hhigh, hlow]
    have hlift : ∀ p < 32, (lift (groupTerm wp x (n * 32) g i p)).Sums 32
        (groupTerm wp x (n * 32) g i p) 1905 := fun p hp =>
      Acc.sums_lift (abs_groupTerm_le hx hi hp) (by decide)
    exact ((hs.add (by omega) (hlift j (by omega))).add (by omega)
      (hlift (16 + j) (by omega))).congr (add_assoc ..) (by ring)
  · rw [sum_add_distrib, sum_range_add _ 16 16]

lemma w4GroupSdot_sums (wp : Codes) (hx : GroupWithin x (n * 32) g) :
    (vaddv (w4GroupSdot wp x (n * 32) g)).Sums 32 (positionSum (groupTerm wp x (n * 32) g) n)
      (n * 60960) := by
  rw [w4GroupSdot, show (n * 32 + 31) / 32 = n by omega]
  refine (vaddv_sums (zero_turns_sums (m := 4) (B := 15240) (g := fun i l =>
    ∑ e ∈ range 4, groupTerm wp x (n * 32) g i (4 * l + e) +
      ∑ e ∈ range 4, groupTerm wp x (n * 32) g i (16 + (4 * l + e)))
    fun i hi l hl acc y Y hacc => ?_)).congr ?_ (by ring)
  · have hhigh : ∑ e ∈ range 4,
        ((loadPacked wp (g * (n * 32) + i * 32) (4 * l + e) >>> 4 : ℕ) : ℤ) *
        loadChunk x (g * (n * 32) + i * 32) (4 * l + e) =
          ∑ e ∈ range 4, groupTerm wp x (n * 32) g i (4 * l + e) := sum_congr rfl fun e he => by
      have hlt := mem_range.mp he
      rw [groupTerm, chunkTerm, nibbleAt, if_pos (by omega), Nat.shiftRight_eq_div_pow]
    have hlow : ∑ e ∈ range 4,
        ((loadPacked wp (g * (n * 32) + i * 32) (4 * l + e) &&& 15 : ℕ) : ℤ) *
        loadChunk x (g * (n * 32) + i * 32) (16 + (4 * l + e)) =
          ∑ e ∈ range 4, groupTerm wp x (n * 32) g i (16 + (4 * l + e)) := by
      refine sum_congr rfl fun e _ => ?_
      rw [groupTerm, chunkTerm, nibbleAt, if_neg (by omega), and_fifteen, Nat.add_sub_cancel_left]
    rw [vdot, vdot, hhigh, hlow]
    refine ((hacc.add (by omega) (Acc.sums_lift (abs_sum_range_le fun e he =>
      abs_groupTerm_le hx hi (by omega)) (by decide))).add (by omega)
        (Acc.sums_lift (abs_sum_range_le fun e he => abs_groupTerm_le hx hi (by omega))
          (by decide))).congr (add_assoc ..) ?_
    push_cast
    ring
  · rw [sum_comm, positionSum]
    refine sum_congr rfl fun i _ => ?_
    rw [sum_add_distrib, sum_fours _ 4, sum_fours (fun p => groupTerm wp x (n * 32) g i (16 + p)) 4,
      sum_range_add _ 16 16]

/-- What the words of a kernel add up to. -/
def total (words : List Acc) : ℤ := (words.map Acc.val).sum

/-- Whether the overflows of the lanes cancel, in the kernels that convert each lane. -/
def LanesCancel (t : ℕ → ℕ → ℤ) (n : ℕ) : I8Isa → Prop
  | .avx2 | .avxvnni | .avx512vnni => ∑ d ∈ range 8, wraps 32 (laneSum t n d) = 0
  | .scalar | .sdot => True

lemma total_lanes {v : Reg} {t : ℕ → ℕ → ℤ} {B : ℤ}
    (hv : ∀ d < 8, (v d).Sums 32 (laneSum t n d) B) :
    total ((List.range 8).map v) =
      positionSum t n - 2 ^ 32 * ∑ d ∈ range 8, wraps 32 (laneSum t n d) := by
  have hval : ∀ d < 8, (v d).val = laneSum t n d - 2 ^ 32 * wraps 32 (laneSum t n d) := fun d hd =>
    (hv d hd).val_wraps (by omega)
  rw [← sum_laneSum, mul_sum, ← sum_sub_distrib,
    ← sum_congr rfl fun d hd => hval d (mem_range.mp hd)]
  rfl

lemma total_lanes_iff {v : Reg} {t : ℕ → ℕ → ℤ} {B : ℤ}
    (hv : ∀ d < 8, (v d).Sums 32 (laneSum t n d) B) :
    total ((List.range 8).map v) = positionSum t n ↔
      ∑ d ∈ range 8, wraps 32 (laneSum t n d) = 0 := by
  rw [total_lanes hv]
  omega

lemma total_word_iff {s : Acc} {z B : ℤ} (hs : s.Sums 32 z B) : total [s] = z ↔ Fits 32 z := by
  rw [total, List.map_singleton, List.sum_singleton, hs.val_eq_self_iff (by omega)]

/-- The words of a kernel are the exact sum of the group, as the scalar word is, where it is a word
and the overflows of the lanes cancel. -/
lemma total_w4Group_iff (wp : Codes) (isa : I8Isa) (hx : GroupWithin x (n * 32) g) :
    total (w4Group wp x (n * 32) g isa) = positionSum (groupTerm wp x (n * 32) g) n ∧
        total (w4Group wp x (n * 32) g .scalar) = positionSum (groupTerm wp x (n * 32) g) n ↔
      Fits 32 (positionSum (groupTerm wp x (n * 32) g) n) ∧
        LanesCancel (groupTerm wp x (n * 32) g) n isa := by
  have hscalar : total (w4Group wp x (n * 32) g .scalar) = _ ↔ _ :=
    total_word_iff (w4GroupScalar_sums wp hx)
  have hsdot : total (w4Group wp x (n * 32) g .sdot) = _ ↔ _ :=
    total_word_iff (w4GroupSdot_sums wp hx)
  rw [hscalar, and_comm]
  refine and_congr_right fun hfits => ?_
  cases isa with
  | scalar => exact iff_of_true (hscalar.mpr hfits) trivial
  | sdot => exact iff_of_true (hsdot.mpr hfits) trivial
  | avx2 => exact total_lanes_iff (w4GroupVec_sums wp w4Avx2_lawful hx)
  | avxvnni | avx512vnni => exact total_lanes_iff (w4GroupVec_sums wp w4Vnni_lawful hx)

end Words

/-! ### The drivers -/

/-- The loops of the drivers, over blocks of 16 rows of weights and four rows of activations; `cell`
is what is stored for row `n` of weights and the pointer `xr[r]`. -/
def a8Drive {β : Type} (M N : ℕ) (cell : ℕ → ℕ → ℕ → β) (out : ℕ → β) : ℕ → β :=
  stores ((List.range ((N + 15) / 16)).flatMap fun nb => (starts M 4).flatMap fun m0 =>
    let n0 := nb * 16
    let nr := min 4 (M - m0)
    let xr := fun r => m0 + if r < nr then r else 0
    (List.range (min 16 (N - n0))).flatMap fun i => (List.range nr).map fun r =>
      ((m0 + r) * N + (n0 + i), cell (n0 + i) (xr r) (m0 + r))) out

/-- `vv_w8a8_gemm_cpu`; `emit m n t` is the cell of row `m` and channel `n`. -/
def w8a8Gemm {β : Type} (isa : I8Isa) (xq w : Acts) (M N K : ℕ) (emit : ℕ → ℕ → Acc → β)
    (out : ℕ → β) : Except Status (ℕ → β) :=
  if M = 0 ∨ N = 0 ∨ K = 0 then .error .invalidArg
  else .ok (a8Drive M N (fun n xr m =>
    emit m n (w8Dot isa (fun k => w (n * K + k)) (fun k => xq (xr * K + k)) K)) out)

/-- `I8_MAX_GROUPS`. -/
def i8MaxGroups : ℕ := 1024

/-- `vv_w4a8_gemm_cpu`; `emit m n t gs` is the cell of row `m` and channel `n`, from the words of
each group and the sum of its activations. -/
def w4a8Gemm {β : Type} (isa : I8Isa) (xq : Acts) (xsum : ℕ → Acc) (packed : Codes) (G M N K : ℕ)
    (emit : ℕ → ℕ → (ℕ → List Acc) → (ℕ → Acc) → β) (out : ℕ → β) : Except Status (ℕ → β) :=
  if M = 0 ∨ N = 0 ∨ K = 0 then .error .invalidArg
  else if G = 0 ∨ G % 32 ≠ 0 ∨ K % G ≠ 0 then .error .unsupported
  else if i8MaxGroups < K / G then .error .unsupported
  else .ok (a8Drive M N (fun n xr m =>
    emit m n
      (fun g => w4Group (fun i => packed (n * (K / 2) + i)) (fun k => xq (xr * K + k)) G g isa)
      (groupSum (fun c => xsum (xr * (K / 32) + c)) G)) out)

/-! ### What is stored -/

section Stored

variable {β : Type} {M N K : ℕ}

/-- The driver stores every cell. -/
lemma a8Drive_cell (cell : ℕ → ℕ → ℕ → β) (out : ℕ → β) {m n : ℕ} (hm : m < M) (hn : n < N) :
    a8Drive M N cell out (m * N + n) = cell n m m := by
  refine stores_eq ?_ fun c hc ho => ?_
  · refine ⟨(m * N + n, cell n m m), List.mem_flatMap.mpr ⟨n / 16, List.mem_range.mpr (by omega),
      List.mem_flatMap.mpr ⟨m / 4 * 4, (mem_starts (by omega)).mpr ⟨by omega, by omega⟩, ?_⟩⟩, rfl⟩
    have hr : m % 4 < min 4 (M - m / 4 * 4) := by omega
    refine List.mem_flatMap.mpr ⟨n % 16, List.mem_range.mpr (by omega), List.mem_map.mpr
      ⟨m % 4, List.mem_range.mpr hr, ?_⟩⟩
    dsimp only
    rw [if_pos hr, Nat.div_add_mod', Nat.div_add_mod']
  · obtain ⟨nb, -, hc⟩ := List.mem_flatMap.mp hc
    obtain ⟨m0, -, hc⟩ := List.mem_flatMap.mp hc
    obtain ⟨i, hi, hc⟩ := List.mem_flatMap.mp hc
    obtain ⟨r, hr, rfl⟩ := List.mem_map.mp hc
    rw [List.mem_range] at hi hr
    obtain ⟨hm', hn'⟩ := cell_inj (by omega) hn ho
    dsimp only
    rw [if_pos hr, hm', hn']

lemma abs_clamp127_le (v : ℤ) : |clamp127 v| ≤ 127 := by
  rw [clamp127, abs_le]
  split_ifs <;> omega

lemma toInt_clamp127 (v : ℤ) : (Int8.ofInt (clamp127 v)).toInt = clamp127 v := by
  obtain ⟨hlow, hhigh⟩ := abs_le.mp (abs_clamp127_le v)
  exact Int8.toInt_ofInt_of_le (by omega) (by omega)

/-- The columns of a run keep to the run, each in a place of its own. -/
lemma q8Pos_inj (layout : Q8Layout) : ∀ j < 32, q8Pos layout j < 32 ∧
    ∀ j' < 32, q8Pos layout j = q8Pos layout j' → j = j' := by
  cases layout <;> decide +kernel

/-- The quantizer stores every column of every row, and the sum of each run. -/
lemma quantActQ8_ok (v : ℕ → ℤ) (layout : Q8Layout) (xq : Acts) (xsum : ℕ → Acc) (hM : 0 < M)
    (hK : 0 < K) (hdvd : K % 32 = 0) :
    ∃ q s, quantActQ8 v M K layout xq xsum = .ok (q, s) ∧
      (∀ m < M, ∀ c < K / 32, ∀ j < 32, (q (m * K + (c * 32 + q8Pos layout j))).toInt =
        clamp127 (v (m * K + (c * 32 + j)))) ∧
      ∀ m < M, ∀ c < K / 32, (s (m * (K / 32) + c)).Sums 32
        (∑ j ∈ range 32, clamp127 (v (m * K + (c * 32 + j)))) 4064 := by
  rw [quantActQ8, if_neg (by omega)]
  refine ⟨_, _, rfl, fun m hm c hc j hj => ?_, fun m hm c hc => ?_⟩
  · have hwidth : ∀ c < K / 32, ∀ j < 32, c * 32 + q8Pos layout j < K := fun c hc j hj => by
      have hpos := (q8Pos_inj layout j hj).1
      omega
    rw [← toInt_clamp127 (v _)]
    refine congrArg Int8.toInt (stores_eq ?_ fun w hw ho => ?_)
    · have hrun : (c * 32 + q8Pos layout j, Int8.ofInt (clamp127 (v (m * K + (c * 32 + j))))) ∈
          (quantRow (fun k => v (m * K + k)) K layout).1 :=
        List.mem_flatMap.mpr ⟨c, List.mem_range.mpr hc, List.mem_map.mpr
          ⟨j, List.mem_range.mpr hj, rfl⟩⟩
      exact ⟨_, List.mem_flatMap.mpr ⟨m, List.mem_range.mpr hm, List.mem_map.mpr
        ⟨_, hrun, rfl⟩⟩, rfl⟩
    · obtain ⟨m', -, hw⟩ := List.mem_flatMap.mp hw
      obtain ⟨stored, hstored, rfl⟩ := List.mem_map.mp hw
      obtain ⟨c', hc', hrun⟩ := List.mem_flatMap.mp hstored
      obtain ⟨j', hj', rfl⟩ := List.mem_map.mp hrun
      rw [List.mem_range] at hc' hj'
      obtain ⟨rfl, hcol⟩ := cell_inj (hwidth c' hc' j' hj') (hwidth c hc j hj) ho
      obtain ⟨rfl, hpos⟩ := cell_inj (q8Pos_inj layout j' hj').1 (q8Pos_inj layout j hj).1 hcol
      obtain rfl := (q8Pos_inj layout j' hj').2 j hj hpos
      rfl
  · refine stores_induct (P := fun a : Acc => a.Sums 32
      (∑ j ∈ range 32, clamp127 (v (m * K + (c * 32 + j)))) 4064) ?_ fun w hw ho => ?_
    · exact ⟨(m * (K / 32) + c, _), List.mem_flatMap.mpr ⟨m, List.mem_range.mpr hm,
        List.mem_map.mpr ⟨(c, _), List.mem_map.mpr ⟨c, List.mem_range.mpr hc, rfl⟩, rfl⟩⟩, rfl⟩
    · obtain ⟨m', -, hw⟩ := List.mem_flatMap.mp hw
      obtain ⟨stored, hstored, rfl⟩ := List.mem_map.mp hw
      obtain ⟨c', hc', rfl⟩ := List.mem_map.mp hstored
      obtain ⟨rfl, rfl⟩ := cell_inj (List.mem_range.mp hc') hc ho
      have hstart : (lift 0).Sums 32 0 0 := Acc.sums_lift (by rw [abs_zero]) (by decide)
      exact (hstart.turns (by omega) fun j _ => ⟨_, Acc.sums_lift (abs_clamp127_le _) (by decide),
        fun _ => rfl⟩).congr (zero_add _) (by norm_num)

end Stored

/-! ### The columns of a group -/

/-- The column at position `p` of a run in the order of `VV_Q8_NIBBLE`. -/
def nibbleCol (p : ℕ) : ℕ := if p < 16 then 2 * p else 2 * (p - 16) + 1

/-- The code of column `k` of a packed row: the high nibble for even columns. -/
def w4Code (wp : Codes) (k : ℕ) : ℕ :=
  if k % 2 = 0 then (wp (k / 2)).toNat / 16 else (wp (k / 2)).toNat % 16

/-- The code of column `k` against its activation. -/
def w4Term (wp : Codes) (a : ℕ → ℤ) (k : ℕ) : ℤ := w4Code wp k * a k

/-- The columns of a group in the places where the kernels find them. -/
def columnTerm (wp : Codes) (a : ℕ → ℤ) (G g i p : ℕ) : ℤ :=
  w4Term wp a (g * G + i * 32 + nibbleCol p)

section Columns

variable {wp : Codes} {x : Acts} {a : ℕ → ℤ} {g n : ℕ}

lemma q8Pos_nibbleCol : ∀ p < 32, nibbleCol p < 32 ∧ q8Pos .nibble (nibbleCol p) = p := by
  decide +kernel

lemma sum_nibbleCol (f : ℕ → ℤ) : ∑ p ∈ range 32, f (nibbleCol p) = ∑ j ∈ range 32, f j := by
  rw [sum_range_add _ 16 16, sum_range_mul f 16 2, ← sum_add_distrib]
  refine sum_congr rfl fun i hi => ?_
  have hlt := mem_range.mp hi
  rw [sum_range_succ, sum_range_one, nibbleCol, if_pos hlt, nibbleCol, if_neg (by omega),
    Nat.add_sub_cancel_left, Nat.mul_comm 2 i]
  rfl

lemma nibbleAt_eq (wp : Codes) {c : ℕ} (hc : c % 32 = 0) (p : ℕ) :
    nibbleAt (loadPacked wp c) p = w4Code wp (c + nibbleCol p) := by
  rw [nibbleAt, w4Code, nibbleCol, loadPacked, loadPacked]
  split_ifs with hlow
  · rw [show (c + 2 * p) / 2 = c / 2 + p by omega]
  · omega
  · omega
  · rw [show (c + (2 * (p - 16) + 1)) / 2 = c / 2 + (p - 16) by omega]

/-- The row `x` of a group holds the activations `a` in the order of `VV_Q8_NIBBLE`. -/
def NibbleRow (x : Acts) (a : ℕ → ℤ) (n g : ℕ) : Prop := ∀ i < n, ∀ p < 32,
  (x (g * (n * 32) + i * 32 + p)).toInt = a (g * (n * 32) + i * 32 + nibbleCol p)

lemma NibbleRow.groupTerm_eq (h : NibbleRow x a n g) {i p : ℕ} (hi : i < n) (hp : p < 32) :
    groupTerm wp x (n * 32) g i p = columnTerm wp a (n * 32) g i p := by
  rw [groupTerm, chunkTerm, columnTerm, w4Term, ← h i hi p hp, nibbleAt_eq wp ?_ p]
  · rfl
  · rw [← Nat.mul_assoc, ← Nat.add_mul, Nat.mul_mod_left]

lemma NibbleRow.within (h : NibbleRow x a n g) (ha : ∀ k, |a k| ≤ 127) :
    GroupWithin x (n * 32) g := by
  intro k hk
  have hrow := h (k / 32) (by omega) (k % 32) (by omega)
  rw [Nat.add_assoc, Nat.div_add_mod'] at hrow
  rw [hrow]
  exact ha _

lemma NibbleRow.laneSum_eq (h : NibbleRow x a n g) {d : ℕ} (hd : d < 8) :
    laneSum (groupTerm wp x (n * 32) g) n d = laneSum (columnTerm wp a (n * 32) g) n d :=
  sum_congr rfl fun i hi => sum_congr rfl fun e he =>
    h.groupTerm_eq (mem_range.mp hi) (by have hlt := mem_range.mp he; omega)

lemma positionSum_columnTerm : positionSum (columnTerm wp a (n * 32) g) n =
    ∑ k ∈ range (n * 32), w4Term wp a (g * (n * 32) + k) := by
  rw [sum_range_mul]
  refine sum_congr rfl fun i _ => ?_
  simp only [← Nat.add_assoc]
  exact sum_nibbleCol fun j => w4Term wp a (g * (n * 32) + i * 32 + j)

lemma NibbleRow.positionSum_eq (h : NibbleRow x a n g) :
    positionSum (groupTerm wp x (n * 32) g) n =
      ∑ k ∈ range (n * 32), w4Term wp a (g * (n * 32) + k) := by
  rw [← positionSum_columnTerm, ← sum_laneSum, ← sum_laneSum]
  exact sum_congr rfl fun d hd => h.laneSum_eq (mem_range.mp hd)

lemma NibbleRow.lanesCancel_iff (h : NibbleRow x a n g) (isa : I8Isa) :
    LanesCancel (groupTerm wp x (n * 32) g) n isa ↔
      LanesCancel (columnTerm wp a (n * 32) g) n isa := by
  have hlanes : ∑ d ∈ range 8, wraps 32 (laneSum (groupTerm wp x (n * 32) g) n d) =
      ∑ d ∈ range 8, wraps 32 (laneSum (columnTerm wp a (n * 32) g) n d) :=
    sum_congr rfl fun d hd => by rw [h.laneSum_eq (mem_range.mp hd)]
  cases isa with
  | scalar | sdot => exact Iff.rfl
  | avx2 | avxvnni | avx512vnni =>
    show _ = 0 ↔ _ = 0
    rw [hlanes]

lemma abs_w4Term_le (wp : Codes) (ha : ∀ k, |a k| ≤ 127) (k : ℕ) : |w4Term wp a k| ≤ 1905 := by
  have hcode : w4Code wp k < 16 := by
    have hlt := UInt8.toNat_lt (wp (k / 2))
    rw [w4Code]
    split_ifs <;> omega
  rw [w4Term, abs_mul, Nat.abs_cast]
  calc (w4Code wp k : ℤ) * |a k|
      ≤ 15 * 127 := mul_le_mul (by omega) (ha k) (abs_nonneg _) (by omega)
    _ = 1905 := rfl

/-- Groups of up to 2^20 columns overflow nowhere. -/
lemma lanesCancel_of_small (isa : I8Isa) (ha : ∀ k, |a k| ≤ 127) (hn : n * 32 ≤ 2 ^ 20) :
    LanesCancel (columnTerm wp a (n * 32) g) n isa := by
  have hlane : ∀ d, wraps 32 (laneSum (columnTerm wp a (n * 32) g) n d) = 0 := fun d => by
    refine (wraps_eq_zero_iff (by omega)).mpr (fits_of_abs (B := n * ((4 : ℕ) * 1905)) ?_ ?_)
    · exact abs_sum_range_le fun i _ => abs_sum_range_le fun e _ => abs_w4Term_le wp ha _
    · show _ < (2 : ℤ) ^ 31
      omega
  cases isa with
  | scalar | sdot => trivial
  | avx2 | avxvnni | avx512vnni => exact sum_eq_zero fun d _ => hlane d

lemma fits_of_small {f : ℕ → ℤ} (hf : ∀ k, |f k| ≤ 1905) (hn : n ≤ 2 ^ 20) :
    Fits 32 (∑ k ∈ range n, f k) := by
  refine fits_of_abs (abs_sum_range_le fun k _ => hf k) ?_
  show _ < (2 : ℤ) ^ 31
  omega

/-- The sums of the runs of a group are the sum of the group. -/
lemma groupSum_sums {s : ℕ → Acc} (hs : ∀ c < n, (s (g * n + c)).Sums 32
    (∑ j ∈ range 32, a ((g * n + c) * 32 + j)) 4064) :
    (groupSum s (n * 32) g).Sums 32 (∑ k ∈ range (n * 32), a (g * (n * 32) + k)) (n * 4064) := by
  have hstart : (lift 0).Sums 32 0 0 := Acc.sums_lift (by rw [abs_zero]) (by decide)
  rw [groupSum, Nat.mul_div_cancel _ (by omega)]
  refine (hstart.turns (by omega) fun c hc => ⟨_, hs c hc, fun _ => rfl⟩).congr ?_ (zero_add _)
  rw [zero_add, sum_range_mul]
  refine sum_congr rfl fun c _ => sum_congr rfl fun j _ => congrArg a ?_
  ring

end Columns

/-! ### When the sums are exact -/

section Exact

variable {M N K G : ℕ}

/-- The sign trick loses nothing on quantized activations, -128 not being one. -/
lemma w8Dot_sums (isa : I8Isa) {w x : Acts} (hx : ∀ k < K, |(x k).toInt| ≤ 127) :
    (w8Dot isa w x K).Sums 32 (int8Dot w x K) (K * 2 ^ 14) := by
  have hlost : lost w x (K / 32 * 32) = 0 := sum_eq_zero fun k hk => by
    have hk32 := mem_range.mp hk
    refine if_neg fun h => ?_
    have habs := hx k (by omega)
    rw [h.2] at habs
    exact absurd habs (by decide)
  have hexact : int8Dot w x K - 256 * lost w x (K / 32 * 32) = int8Dot w x K := by
    rw [hlost, mul_zero, sub_zero]
  cases isa with
  | scalar => exact i8RowScalar_sums w x K
  | avx2 => exact (i8RowAvx2_sums w x K).congr hexact rfl
  | avxvnni | avx512vnni => exact (i8RowAvxvnni_sums w x K).congr hexact rfl
  | sdot => exact i8RowNeon_sums true w x K

/-- The 16-bit lanes of a group never overflow: in no turn, before it may be flushed. -/
lemma w4Acc_ok {wp : Codes} {x : Acts} {n g i l : ℕ} (hx : GroupWithin x (n * 32) g) (hi : i < n)
    (hl : l < 16) :
    (w4Acc w4Avx2 wp x (n * 32) g i (w4Chunks w4Avx2 wp x (n * 32) g i) l).ok = true :=
  (((chunked_w4Chunks wp w4Avx2_lawful hx i hi.le).acc w4Avx2_lawful hx hi) l hl).computes.ok.mpr
    trivial

/-- What the kernels and the driver make of a group of a quantized row. -/
lemma w4_group_iff (isa : I8Isa) (wp : Codes) {x : Acts} {a : ℕ → ℤ} {s : ℕ → Acc} {n g : ℕ}
    (ha : ∀ k, |a k| ≤ 127) (hx : NibbleRow x a n g)
    (hs : ∀ c < n, (s (g * n + c)).Sums 32 (∑ j ∈ range 32, a ((g * n + c) * 32 + j)) 4064) :
    (total (w4Group wp x (n * 32) g isa) = ∑ k ∈ range (n * 32), w4Term wp a (g * (n * 32) + k) ∧
      total (w4Group wp x (n * 32) g .scalar) =
        ∑ k ∈ range (n * 32), w4Term wp a (g * (n * 32) + k) ∧
      (groupSum s (n * 32) g).val = ∑ k ∈ range (n * 32), a (g * (n * 32) + k)) ↔
    Fits 32 (∑ k ∈ range (n * 32), w4Term wp a (g * (n * 32) + k)) ∧
      Fits 32 (∑ k ∈ range (n * 32), a (g * (n * 32) + k)) ∧
      LanesCancel (columnTerm wp a (n * 32) g) n isa := by
  have hdots := total_w4Group_iff wp isa (hx.within ha)
  rw [hx.positionSum_eq, hx.lanesCancel_iff] at hdots
  have hsum : (groupSum s (n * 32) g).val = ∑ k ∈ range (n * 32), a (g * (n * 32) + k) ↔
      Fits 32 (∑ k ∈ range (n * 32), a (g * (n * 32) + k)) :=
    (groupSum_sums hs).val_eq_self_iff (by omega)
  rw [← and_assoc, hdots, hsum]
  tauto

/-- The int8 and 4-bit kernels return the exact sums, as the scalar ones do, just where these are
32-bit numbers and the overflows of the lanes cancel; the 16-bit lanes never overflow, and nothing
does for rows below 2^17 and groups up to 2^20 columns. -/
theorem a8_exact_iff (isa : I8Isa) (v : ℕ → ℤ) (hM : 0 < M) (hN : 0 < N) (hK : 0 < K)
    (hG : 0 < G) (hchunks : G % 32 = 0) (hgroups : K % G = 0) (xq : Acts) (xsum : ℕ → Acc)
    (w : Acts) (packed : Codes) (out8 : ℕ → Acc) (out4 : ℕ → (ℕ → List Acc) × (ℕ → Acc)) :
    let act := fun m k => clamp127 (v (m * K + k))
    (∃ q s out, quantActQ8 v M K .natural xq xsum = .ok (q, s) ∧
      w8a8Gemm isa q w M N K (fun _ _ t => t) out8 = .ok out ∧ ∀ m < M, ∀ n < N,
        let dot := ∑ k ∈ range K, (w (n * K + k)).toInt * act m k
        let scalar := w8Dot .scalar (fun k => w (n * K + k)) (fun k => q (m * K + k)) K
        (out (m * N + n)).val = scalar.val ∧
          ((out (m * N + n)).val = dot ∧ scalar.val = dot ↔ Fits 32 dot) ∧
          (K < 2 ^ 17 → (out (m * N + n)).ok = true)) ∧
    ∃ q s, quantActQ8 v M K .nibble xq xsum = .ok (q, s) ∧
      (K / G ≤ i8MaxGroups → ∃ out, w4a8Gemm isa q s packed G M N K
          (fun _ _ t gs => (t, gs)) out4 = .ok out ∧ ∀ m < M, ∀ n < N, out (m * N + n) =
        (fun g => w4Group (fun i => packed (n * (K / 2) + i)) (fun k => q (m * K + k)) G g isa,
          groupSum (fun c => s (m * (K / 32) + c)) G)) ∧
      ∀ m < M, ∀ n < N, ∀ g < K / G,
        let wp := fun i => packed (n * (K / 2) + i)
        let x := fun k => q (m * K + k)
        let dot := ∑ k ∈ range G, w4Term wp (act m) (g * G + k)
        let sum := ∑ k ∈ range G, act m (g * G + k)
        (∀ i < G / 32, ∀ l < 16,
          (w4Acc w4Avx2 wp x G g i (w4Chunks w4Avx2 wp x G g i) l).ok = true) ∧
        ((total (w4Group wp x G g isa) = dot ∧ total (w4Group wp x G g .scalar) = dot ∧
            (groupSum (fun c => s (m * (K / 32) + c)) G g).val = sum) ↔
          Fits 32 dot ∧ Fits 32 sum ∧ LanesCancel (columnTerm wp (act m) G g) (G / 32) isa) ∧
        (G ≤ 2 ^ 20 →
          Fits 32 dot ∧ Fits 32 sum ∧ LanesCancel (columnTerm wp (act m) G g) (G / 32) isa) := by
  intro act
  have hact : ∀ m k, |act m k| ≤ 127 := fun m k => abs_clamp127_le _
  obtain ⟨n, rfl⟩ : ∃ n, G = n * 32 := ⟨G / 32, by omega⟩
  obtain ⟨d, hwidth⟩ : ∃ d, K = d * (n * 32) :=
    ⟨K / (n * 32), (Nat.div_mul_cancel (Nat.dvd_of_mod_eq_zero hgroups)).symm⟩
  have hdvd : K % 32 = 0 := by rw [hwidth, ← Nat.mul_assoc, Nat.mul_mod_left]
  have hruns : K / 32 = d * n := by
    rw [hwidth, ← Nat.mul_assoc, Nat.mul_div_cancel _ (by omega)]
  have hd : K / (n * 32) = d := by rw [hwidth, Nat.mul_div_cancel _ hG]
  constructor
  · obtain ⟨q, s, hq, hcells, -⟩ := quantActQ8_ok v .natural xq xsum hM hK hdvd
    have hrow : ∀ m < M, ∀ k < K, (q (m * (K) + k)).toInt = act m k := by
      intro m hm k hk
      have hcell := hcells m hm (k / 32) (by omega) (k % 32) (by omega)
      rwa [q8Pos, Nat.div_add_mod'] at hcell
    refine ⟨q, s, _, hq, if_neg (by omega), fun m hm j hj => ?_⟩
    have hword : ∀ isa, (w8Dot isa (fun k => w (j * (K) + k))
        (fun k => q (m * (K) + k)) (K)).Sums 32
        (∑ k ∈ range (K), (w (j * (K) + k)).toInt * act m k)
          ((K : ℕ) * 2 ^ 14) := fun isa => by
      refine (w8Dot_sums isa fun k hk => ?_).congr (sum_congr rfl fun k hk => ?_) rfl
      · rw [hrow m hm k hk]
        exact hact m k
      · rw [hrow m hm k (mem_range.mp hk)]
    rw [a8Drive_cell _ _ hm hj]
    refine ⟨?_, ?_, fun hsmall => (hword isa).ok (small_of_lt hsmall)⟩
    · rw [(hword isa).val_wraps (by omega), (hword .scalar).val_wraps (by omega)]
    · rw [(hword isa).val_eq_self_iff (by omega), (hword .scalar).val_eq_self_iff (by omega),
        and_self]
  · obtain ⟨q, s, hq, hcells, hsums⟩ := quantActQ8_ok v .nibble xq xsum hM hK hdvd
    refine ⟨q, s, hq, fun hmax => ⟨_, (if_neg (by omega)).trans ((if_neg (by omega)).trans
      (if_neg (Nat.not_lt.mpr hmax))), fun m hm j hj => a8Drive_cell _ _ hm hj⟩,
      fun m hm j hj g hg => ?_⟩
    · rw [hd] at hg
      rw [hruns] at hcells
      have hchunk : ∀ c < n, g * n + c < d * n := fun c hc => cell_lt hg hc
      have hnibble : NibbleRow (fun k => q (m * (K) + k)) (act m) n g := by
        intro i hi p hp
        obtain ⟨hcol, hpos⟩ := q8Pos_nibbleCol p hp
        have hcell := hcells m hm (g * n + i) (hchunk i hi) (nibbleCol p) hcol
        rw [hpos] at hcell
        have hstart : (g * n + i) * 32 = g * (n * 32) + i * 32 := by ring
        rwa [hstart] at hcell
      have hiff := w4_group_iff isa (fun i => packed (j * (K / 2) + i)) (hact m)
        (s := fun c => s (m * (K / 32) + c)) hnibble fun c hc =>
          hsums m hm (g * n + c) (by
            rw [hruns]
            exact hchunk c hc)
      rw [Nat.mul_div_cancel _ (show 0 < 32 by omega)]
      refine ⟨fun i hi l hl => w4Acc_ok (hnibble.within (hact m)) hi hl, hiff, fun hsmall =>
        ⟨fits_of_small (fun k => abs_w4Term_le _ (hact m) _) hsmall,
          fits_of_small (fun k => (hact m _).trans (by omega)) hsmall,
          lanesCancel_of_small isa (hact m) hsmall⟩⟩

/-- Two groups of 32 columns, with the activations 0 to 63. -/
theorem a8_exact_two_groups :
    ∃ q s, quantActQ8 (fun k => k) 1 64 .nibble (fun _ => 0) (fun _ => lift 0) = .ok (q, s) ∧
      ∀ g < 2, total (w4Group (fun _ => 33) (fun k => q (0 * 64 + k)) 32 g .avx2) =
          ∑ k ∈ range 32, w4Term (fun _ => 33) (fun k => clamp127 (0 * 64 + k : ℕ)) (g * 32 + k) ∧
        (groupSum (fun c => s (0 * (64 / 32) + c)) 32 g).val =
          ∑ k ∈ range 32, clamp127 (0 * 64 + (g * 32 + k) : ℕ) := by
  obtain ⟨q, s, hq, -, hgroup⟩ := (a8_exact_iff .avx2 (fun k => k) Nat.one_pos Nat.one_pos
    (K := 64) (G := 32) (by decide) (by decide) (by decide) (by decide) (fun _ => 0)
    (fun _ => lift 0) (fun _ => 0) (fun _ => 33) (fun _ => lift 0)
    fun _ => (fun _ => [], fun _ => lift 0)).2
  refine ⟨q, s, hq, fun g hg => ?_⟩
  obtain ⟨-, hiff, hsmall⟩ := hgroup 0 Nat.one_pos 0 Nat.one_pos g hg
  obtain ⟨hdot, -, hsum⟩ := hiff.mpr (hsmall (by decide))
  exact ⟨hdot, hsum⟩

/-- A group of 1127296 columns, all of code 15 and activation 127: the AVX2 kernel converts its
lanes to the sum, which is no 32-bit number, and the scalar kernel comes out negative. -/
theorem wide_group_overflows :
    ∃ q s, quantActQ8 (fun _ => 127) 1 (35228 * 32) .nibble (fun _ => 0) (fun _ => lift 0) =
        .ok (q, s) ∧
      total (w4Group (fun _ => 255) q (35228 * 32) 0 .avx2) = 2147498880 ∧
      total (w4Group (fun _ => 255) q (35228 * 32) 0 .scalar) = -2147468416 := by
  obtain ⟨q, s, hq, hcells, -⟩ := quantActQ8_ok (fun _ => 127) .nibble (fun _ => 0)
    (fun _ => lift 0) Nat.one_pos (K := 35228 * 32) (by omega) (by omega)
  have hact : ∀ k : ℕ, |(fun _ => 127 : ℕ → ℤ) k| ≤ 127 := fun _ => le_refl _
  have hrow : NibbleRow q (fun _ => 127) 35228 0 := by
    intro i hi p hp
    obtain ⟨hcol, hpos⟩ := q8Pos_nibbleCol p hp
    have hcell := hcells 0 Nat.one_pos i (by omega) (nibbleCol p) hcol
    rw [hpos, Nat.zero_mul, Nat.zero_add] at hcell
    rw [Nat.zero_mul, Nat.zero_add]
    exact hcell
  have hcode : ∀ k, w4Term (fun _ => 255) (fun _ => 127) k = 1905 := fun k => by
    rw [w4Term, w4Code]
    split_ifs <;> rfl
  have hdot : positionSum (groupTerm (fun _ => 255) q (35228 * 32) 0) 35228 = 2147498880 := by
    rw [hrow.positionSum_eq]
    simp only [hcode, sum_const, card_range]
    norm_num
  refine ⟨q, s, hq, ?_, ?_⟩
  · rw [← hdot]
    refine (total_lanes_iff (w4GroupVec_sums _ w4Avx2_lawful (hrow.within hact))).mpr
      (sum_eq_zero fun d hd => ?_)
    have hlane := w4GroupVec_sums (fun _ => 255) w4Avx2_lawful (hrow.within hact) d
      (mem_range.mp hd)
    exact (wraps_eq_zero_iff (by omega)).mpr (fits_of_abs hlane.bound (by norm_num))
  · have hscalar := w4GroupScalar_sums (fun _ => 255) (hrow.within hact)
    rw [hdot] at hscalar
    rw [w4Group, total, List.map_singleton, List.sum_singleton, hscalar.val_wraps (by omega), wraps]
    norm_num

end Exact

end VibeVoice.Kernels
