import VibeVoice.Kernels.Int8

/-!
The int8 kernels of the speech encoder (`vae_i8.c`): packed weights, the panel product behind the
linear layers and convolutions, and one row of the depthwise convolution.

* `packWeights`, `prepLayer`: the panels of a layer.
* `gemm4x16`, `gemmTile`, `opLinear`: the product.
* `dwRow`: the depthwise convolution.
* `packWeights_eq`: every weight where the product reads it, and zeros elsewhere.
* `int8_exact_iff`: when the int8 kernels are exact.
-/

namespace VibeVoice.Kernels

open Finset Lanes
open Lanes.Acc (lift)

/-! ### The panels -/

/-- `packed_bytes`. -/
def packedBytes (N K : ℕ) : ℕ := (N + 7) / 8 * 8 * ((K + 3) / 4) * 4

/-- `pack_weights`. -/
def packWeights (w : Acts) (N K : ℕ) (p : Acts) : Acts :=
  let np := (N + 7) / 8
  let kq := (K + 3) / 4
  stores ((List.range np).flatMap fun pi => (List.range kq).flatMap fun q =>
    (List.range 8).flatMap fun l => (List.range 4).map fun b =>
      let n := pi * 8 + l
      let k := q * 4 + b
      (((pi * kq + q) * 8 + l) * 4 + b, if n < N ∧ k < K then w (n * K + k) else 0)) p

/-- `vv_i8_layer_t`. -/
structure I8Layer where
  w : Acts
  inCh : ℕ
  outCh : ℕ
  k : ℕ
  stride : ℕ
  depthwise : Bool

/-- `prep_layer`: the panels, for layers that have them; `junk` is what is in memory before. -/
def prepLayer (L : I8Layer) (inCh wantOut : ℕ) (junk : Acts) : Except Status (Option Acts) :=
  if L.inCh ≠ inCh ∨ 0 < wantOut ∧ L.outCh ≠ wantOut ∨ L.k < 1 ∨ L.stride < 1 ∨ L.k < L.stride then
    .error .shapeMismatch
  else if L.depthwise ∨ L.k * L.inCh % 4 ≠ 0 then .ok none
  else .ok (some (packWeights L.w L.outCh (L.k * L.inCh) junk))

/-! ### The product -/

/-- Row `r` of a tile of `mr` rows: the first one stands in for those that are missing. -/
def tileRow (a : Acts) (lda mr r : ℕ) : Acts := fun k => a ((if r < mr then r else 0) * lda + k)

/-- `gemm_4x16_scalar`: cell `r * 16 + h * 8 + l` of the tile. -/
def gemm4x16Scalar (a : Acts) (lda mr : ℕ) (p0 p1 : Acts) (kq : ℕ) : ℕ → Acc := fun o =>
  let ar := tileRow a lda mr (o / 16)
  let p := if o % 16 / 8 = 0 then p0 else p1
  let l := o % 8
  turns kq (fun q acc => turns 4 (fun b acc =>
    acc.add 32 (lift ((ar (q * 4 + b)).toInt * (p ((q * 8 + l) * 4 + b)).toInt))) acc) (lift 0)

/-- `gemm_4x16_avx2`. -/
def gemm4x16Avx2 (a : Acts) (lda mr : ℕ) (p0 p1 : Acts) (kq : ℕ) : ℕ → Acc := fun o =>
  let ar := tileRow a lda mr (o / 16)
  let p := if o % 16 / 8 = 0 then p0 else p1
  let c : Reg := turns kq (fun q c =>
    let b := loadEpi8 p (q * 32)
    -- `_mm256_set1_epi32` of four activations
    let av := fun j => ar (q * 4 + j % 4)
    addLanes 32 c (maddOnes (maddubs (absEpi8 av) (ints (signEpi8 b av))))) zero
  c (o % 8)

/-- `pick_gemm`. -/
def gemm4x16 (avx2 : Bool) : Acts → ℕ → ℕ → Acts → Acts → ℕ → ℕ → Acc :=
  if avx2 then gemm4x16Avx2 else gemm4x16Scalar

/-- `gemm_job_t`: `x` reaches into the margin in front of the activations. -/
structure GemmJob where
  outCh : ℕ
  x : ℤ → Int8
  lda : ℕ
  off : ℤ
  K : ℕ

/-- The im2col row `m` of a job. -/
def GemmJob.row (j : GemmJob) (m : ℕ) : Acts := fun k => j.x (j.off + (m * j.lda + k : ℕ))

section Product

variable {β γ : Type} (avx2 : Bool) (packed : Acts) (j : GemmJob)

/-- `gemm_tile`, as what it stores; `emit` is the epilogue of a channel. -/
def gemmTile (m0 mb n0 nb : ℕ) (emit : ℕ → Acc → β) (ldo : ℕ) : List (ℕ × β) :=
  let kq := j.K / 4
  (starts nb 16).flatMap fun dn =>
    let n := n0 + dn
    let p0 : Acts := fun i => packed (n / 8 * kq * 32 + i)
    let p1 : Acts := if n + 8 < j.outCh then fun i => p0 (kq * 32 + i) else p0
    (starts mb 4).flatMap fun m =>
      let mr := min 4 (mb - m)
      let acc := gemm4x16 avx2 (j.row (m0 + m)) j.lda mr p0 p1 kq
      (List.range mr).flatMap fun r => (List.range (min 16 (nb - dn))).map fun c =>
        ((m + r) * ldo + dn + c, emit (n + c) (acc (r * 16 + c)))

/-- The tiles of `gemm_pass1` and `gemm_pass2`: their rows and channels. -/
def gemmTiles (M N : ℕ) : List (ℕ × ℕ) :=
  let tn := (N + 63) / 64
  (List.range ((M + 31) / 32 * tn)).map fun ti => (ti / tn * 32, ti % tn * 64)

/-- `gemm_pass1` and `gemm_pass2`: the results are kept in `ybuf` in between, or the second pass
computes each tile again into `scratch`. -/
def gemmPass (keep : Bool) (M N : ℕ) (emit : ℕ → Acc → β) (quant : β → γ) (ybuf scratch : ℕ → β)
    (q : ℕ → γ) : ℕ → γ :=
  if keep then
    let y := stores ((gemmTiles M N).flatMap fun t =>
      (gemmTile avx2 packed j t.1 (min 32 (M - t.1)) t.2 (min 64 (N - t.2)) emit N).map fun c =>
        (t.1 * N + t.2 + c.1, c.2)) ybuf
    fun i => if i < M * N then quant (y i) else q i
  else
    stores ((gemmTiles M N).flatMap fun t =>
      let mb := min 32 (M - t.1)
      let nb := min 64 (N - t.2)
      let o := stores (gemmTile avx2 packed j t.1 mb t.2 nb emit 64) scratch
      (List.range mb).flatMap fun r => (List.range nb).map fun c =>
        ((t.1 + r) * N + t.2 + c, quant (o (r * 64 + c)))) q

end Product

/-- `conv_out_len`. -/
def convOutLen (T k s : ℕ) : ℕ :=
  let lp := k - s
  if T + lp < k then 0 else (T + lp - k) / s + 1

/-- The im2col rows of a layer over the activations `x`. -/
def linearJob (L : I8Layer) (x : ℤ → Int8) (C : ℕ) : GemmJob :=
  ⟨L.outCh, x, L.stride * C, -((L.k - L.stride) * C : ℕ), L.k * C⟩

/-- `op_linear` on the panels of `prep_layer`: undefined where it reads panels that are not there. -/
def opLinear {β γ : Type} (avx2 keep : Bool) (L : I8Layer) (packed : Option Acts) (x : ℤ → Int8)
    (T C : ℕ) (emit : ℕ → Acc → β) (quant : β → γ) (ybuf scratch : ℕ → β) (q : ℕ → γ) :
    Option (ℕ → γ) :=
  let M := convOutLen T L.k L.stride
  let j := linearJob L x C
  if M = 0 then some q
  else
    match packed with
    | some p => some (gemmPass avx2 p j keep M L.outCh emit quant ybuf scratch q)
    | none =>
      -- without a whole quad of columns, no panel is read
      if 0 < L.outCh ∧ 0 < j.K / 4 then none
      else some (gemmPass avx2 (fun _ => 0) j keep M L.outCh emit quant ybuf scratch q)

/-! ### The depthwise convolution -/

/-- `_mm256_mullo_epi16`. -/
def mulloEpi16 (x y : ℤ) : Acc := lift ((x * y).bmod (2 ^ 16))

/-- `dw_generic` and `dw_row_avx2`, for one channel: the sum in front of the epilogue. -/
def dwRow (avx2 : Bool) (wk : Acts) (k : ℕ) (xr : Acts) (C c : ℕ) : Acc :=
  if avx2 ∧ c < C / 16 * 16 then
    turns ((k + 1) / 2) (fun i acc =>
      let j := 2 * i
      -- `_mm256_add_epi16` wraps, and what it leaves is widened: its value is all that counts
      let p := mulloEpi16 (wk (j * C + c)).toInt (xr (j * C + c)).toInt
      let p :=
        if j + 1 < k then
          p.add 16 (mulloEpi16 (wk ((j + 1) * C + c)).toInt (xr ((j + 1) * C + c)).toInt)
        else p
      acc.add 32 (lift p.val)) (lift 0)
  else
    turns k (fun j acc =>
      acc.add 32 (lift ((wk (j * C + c)).toInt * (xr (j * C + c)).toInt))) (lift 0)

/-! ### What the panels hold -/

section Panels

variable {N K n k : ℕ}

/-- Every weight is where the product reads it, and the places without a weight are zero. -/
lemma packWeights_eq (w : Acts) (p : Acts) (hn : n < (N + 7) / 8 * 8) (hk : k < (K + 3) / 4 * 4) :
    packWeights w N K p (((n / 8 * ((K + 3) / 4) + k / 4) * 8 + n % 8) * 4 + k % 4) =
      if n < N ∧ k < K then w (n * K + k) else 0 := by
  refine stores_eq ?_ fun c hc ho => ?_
  · refine ⟨(_, _), List.mem_flatMap.mpr ⟨n / 8, List.mem_range.mpr (by omega),
      List.mem_flatMap.mpr ⟨k / 4, List.mem_range.mpr (by omega), List.mem_flatMap.mpr
        ⟨n % 8, List.mem_range.mpr (by omega), List.mem_map.mpr
          ⟨k % 4, List.mem_range.mpr (by omega), rfl⟩⟩⟩⟩, rfl⟩
  · obtain ⟨pi, -, hc⟩ := List.mem_flatMap.mp hc
    obtain ⟨q, hq, hc⟩ := List.mem_flatMap.mp hc
    obtain ⟨l, hl, hc⟩ := List.mem_flatMap.mp hc
    obtain ⟨b, hb, rfl⟩ := List.mem_map.mp hc
    rw [List.mem_range] at hq hl hb
    obtain ⟨hrow, hbyte⟩ := cell_inj hb (Nat.mod_lt _ (by omega)) ho
    obtain ⟨hquad, hlane⟩ := cell_inj hl (Nat.mod_lt _ (by omega)) hrow
    obtain ⟨hpanel, hcol⟩ := cell_inj hq (by omega) hquad
    dsimp only
    rw [show pi * 8 + l = n by omega, show q * 4 + b = k by omega]

/-- Those are all the bytes of the panels. -/
lemma packed_index {i : ℕ} (h : i < packedBytes N K) :
    ∃ n < (N + 7) / 8 * 8, ∃ k < (K + 3) / 4 * 4,
      i = ((n / 8 * ((K + 3) / 4) + k / 4) * 8 + n % 8) * 4 + k % 4 := by
  rw [packedBytes] at h
  generalize (N + 7) / 8 = np at h ⊢
  generalize (K + 3) / 4 = kq at h ⊢
  have hquad : i / 32 < np * kq := by
    rw [Nat.div_lt_iff_lt_mul (by omega)]
    calc i < np * 8 * kq * 4 := h
      _ = np * kq * 32 := by ring
  have hkq : 0 < kq := Nat.pos_of_ne_zero fun h0 => by
    rw [h0, Nat.mul_zero] at hquad
    exact absurd hquad (Nat.not_lt_zero _)
  have hpanel : i / 32 / kq < np := (Nat.div_lt_iff_lt_mul hkq).mpr hquad
  have hcol : i / 32 % kq < kq := Nat.mod_lt _ hkq
  refine ⟨i / 32 / kq * 8 + i / 4 % 8, by omega, i / 32 % kq * 4 + i % 4, by omega, ?_⟩
  have hdiv : i / 32 / kq * kq + i / 32 % kq = i / 32 := Nat.div_add_mod' ..
  rw [cell_div (Nat.mod_lt _ (by omega)), cell_div (Nat.mod_lt _ (by omega)), hdiv]
  omega

/-- The weights of channel `n` as the product reads them. -/
def channel (packed : Acts) (kq n : ℕ) : Acts := fun k =>
  packed (((n / 8 * kq + k / 4) * 8 + n % 8) * 4 + k % 4)

lemma int8Dot_congr {a a' w w' : Acts} (h : ∀ k < K, a k = a' k ∧ w k = w' k) :
    int8Dot a w K = int8Dot a' w' K :=
  sum_congr rfl fun k hk => by
    obtain ⟨ha, hw⟩ := h k (mem_range.mp hk)
    rw [ha, hw]

lemma lost_congr {a a' w w' : Acts} (h : ∀ k < K, a k = a' k ∧ w k = w' k) :
    lost a w K = lost a' w' K :=
  sum_congr rfl fun k hk => by
    obtain ⟨ha, hw⟩ := h k (mem_range.mp hk)
    rw [ha, hw]

/-- The products of the speech encoder that use the sign trick. -/
def panelTricked (avx2 : Bool) (K : ℕ) : ℕ := if avx2 then K else 0

/-- What a word of the product holds, up to overflows: activations `a` against weights `w`. -/
def HoldsDot (avx2 : Bool) (a w : Acts) (K : ℕ) (s : Acc) : Prop :=
  s.Sums 32 (int8Dot a w K - 256 * lost a w (panelTricked avx2 K)) (K * 2 ^ 14)

lemma HoldsDot.congr {avx2 : Bool} {a a' w w' : Acts} {s : Acc} (hs : HoldsDot avx2 a w K s)
    (h : ∀ k < K, a k = a' k ∧ w k = w' k) : HoldsDot avx2 a' w' K s := by
  have hlost : lost a w (panelTricked avx2 K) = lost a' w' (panelTricked avx2 K) := by
    cases avx2 with
    | false => rfl
    | true => exact lost_congr h
  rw [HoldsDot, ← int8Dot_congr h, ← hlost]
  exact hs

/-- A cell of a register tile. -/
lemma gemm4x16_holds (avx2 : Bool) (a : Acts) (lda mr : ℕ) (p0 p1 : Acts) (kq : ℕ) {r c : ℕ}
    (hc : c < 16) :
    HoldsDot avx2 (tileRow a lda mr r) (fun k => (if c / 8 = 0 then p0 else p1)
      ((k / 4 * 8 + c % 8) * 4 + k % 4)) (kq * 4)
        (gemm4x16 avx2 a lda mr p0 p1 kq (r * 16 + c)) := by
  have hr : (r * 16 + c) / 16 = r := by omega
  have hh : (r * 16 + c) % 16 / 8 = c / 8 := by omega
  have hl : (r * 16 + c) % 8 = c % 8 := by omega
  have hword : ∀ (p : Acts) (q : ℕ), ∀ b < 4, p (((q * 4 + b) / 4 * 8 + c % 8) * 4 +
      (q * 4 + b) % 4) = p ((q * 8 + c % 8) * 4 + b) := fun p q b hb => by
    rw [cell_div hb, Nat.mul_add_mod_of_lt hb]
  generalize hp : (if c / 8 = 0 then p0 else p1) = p
  cases avx2 with
  | false =>
    rw [gemm4x16, if_neg Bool.false_ne_true, gemm4x16Scalar, hr, hh, hl, hp]
    have hzero : (lift 0).Sums 32 0 0 := Acc.sums_lift (by rw [abs_zero]) (by omega)
    refine (hzero.loop fun q _ s y Y hs => hs.turns (by omega) fun b _ =>
      ⟨_, Acc.sums_lift (abs_mul_le _ _) (by omega), fun _ => rfl⟩).congr ?_ ?_
    · rw [panelTricked, if_neg Bool.false_ne_true, lost, sum_range_zero, mul_zero, sub_zero,
        zero_add, int8Dot, sum_range_mul]
      refine sum_congr rfl fun q _ => sum_congr rfl fun b hb => ?_
      rw [hword p q b (mem_range.mp hb)]
    · push_cast
      ring
  | true =>
    rw [gemm4x16, if_pos rfl, gemm4x16Avx2, hr, hh, hl, hp]
    have hlane : ∀ q, ∑ i ∈ range 4, signTerm (fun j => tileRow a lda mr r (q * 4 + j % 4))
        (loadEpi8 p (q * 32)) (c % 8 * 4 + i) = ∑ i ∈ range 4, signTerm (tileRow a lda mr r)
          (fun k => p ((k / 4 * 8 + c % 8) * 4 + k % 4)) (q * 4 + i) := fun q =>
      sum_congr rfl fun i hi => by
        have hi : i < 4 := mem_range.mp hi
        rw [signTerm, signTerm, hword p q i hi, loadEpi8, Nat.mul_add_mod_of_lt hi,
          show q * 32 + (c % 8 * 4 + i) = (q * 8 + c % 8) * 4 + i by omega]
    have hsums := zero_turns_sums (n := kq) (m := 8) (g := fun q l => ∑ i ∈ range 4,
      signTerm (fun j => tileRow a lda mr r (q * 4 + j % 4)) (loadEpi8 p (q * 32)) (l * 4 + i))
      (fun q _ l _ acc y Y hacc => hacc.add (by omega) (maddOnes_sign ..)) (c % 8) (by omega)
    refine hsums.congr ?_ ?_
    · rw [panelTricked, if_pos rfl, ← sum_signTerm, sum_range_mul]
      exact sum_congr rfl fun q _ => hlane q
    · push_cast
      ring

end Panels

/-! ### The cells of a product -/

section Cells

variable {β γ : Type} {avx2 : Bool} {packed : Acts} {j : GemmJob} {m0 mb n0 nb ldo m n M N : ℕ}
  {emit : ℕ → Acc → β}

/-- What is stored for a cell. -/
def IsCell (avx2 : Bool) (packed : Acts) (j : GemmJob) (emit : ℕ → Acc → β) (m n : ℕ) (v : β) :
    Prop :=
  ∃ s, HoldsDot avx2 (j.row m) (channel packed (j.K / 4) n) (j.K / 4 * 4) s ∧ v = emit n s

/-- A tile stores its cells, -/
lemma isCell_of_mem_gemmTile {c : ℕ × β} (hcell : c ∈ gemmTile avx2 packed j m0 mb n0 nb emit ldo)
    (h8 : n0 % 8 = 0) (hout : n0 + nb ≤ j.outCh) :
    ∃ m < mb, ∃ n < nb, c.1 = m * ldo + n ∧ IsCell avx2 packed j emit (m0 + m) (n0 + n) c.2 := by
  obtain ⟨dn, hdn, hcell⟩ := List.mem_flatMap.mp hcell
  obtain ⟨m, hm, hcell⟩ := List.mem_flatMap.mp hcell
  obtain ⟨r, hr, hcell⟩ := List.mem_flatMap.mp hcell
  obtain ⟨k, hk, rfl⟩ := List.mem_map.mp hcell
  obtain ⟨hdn, hdn16⟩ := (mem_starts (by omega)).mp hdn
  rw [List.mem_range] at hr hk
  refine ⟨m + r, by omega, dn + k, by omega, Nat.add_assoc .., _, ?_,
    congrArg (fun n => emit n _) (Nat.add_assoc n0 dn k)⟩
  refine (gemm4x16_holds avx2 _ _ _ _ _ _ (by omega)).congr fun i hi => ⟨?_, ?_⟩
  · rw [tileRow, if_pos hr, GemmJob.row, GemmJob.row,
      show (m0 + m) * j.lda + (r * j.lda + i) = (m0 + (m + r)) * j.lda + i by ring]
  · -- the second panel follows the first one
    rw [channel, show (n0 + (dn + k)) % 8 = k % 8 by omega]
    by_cases hlow : k / 8 = 0
    · rw [if_pos hlow, show (n0 + (dn + k)) / 8 = (n0 + dn) / 8 by omega]
      exact congrArg packed (by ring)
    · rw [if_neg hlow, if_pos (by omega), show (n0 + (dn + k)) / 8 = (n0 + dn) / 8 + 1 by omega]
      exact congrArg packed (by ring)

/-- and all of them. -/
lemma exists_mem_gemmTile (avx2 : Bool) (packed : Acts) (j : GemmJob) (m0 n0 ldo : ℕ)
    (emit : ℕ → Acc → β) (hm : m < mb) (hn : n < nb) :
    ∃ c ∈ gemmTile avx2 packed j m0 mb n0 nb emit ldo, c.1 = m * ldo + n := by
  refine ⟨(_, _), List.mem_flatMap.mpr ⟨n / 16 * 16, (mem_starts (by omega)).mpr
    ⟨by omega, by omega⟩, List.mem_flatMap.mpr ⟨m / 4 * 4, (mem_starts (by omega)).mpr
      ⟨by omega, by omega⟩, List.mem_flatMap.mpr ⟨m % 4, List.mem_range.mpr (by omega),
        List.mem_map.mpr ⟨n % 16, List.mem_range.mpr (by omega), rfl⟩⟩⟩⟩, ?_⟩
  rw [Nat.div_add_mod', Nat.add_assoc, Nat.div_add_mod']

lemma mem_gemmTiles {t : ℕ × ℕ} : t ∈ gemmTiles M N ↔
    ∃ i < (M + 31) / 32, ∃ k < (N + 63) / 64, t = (i * 32, k * 64) := by
  rw [gemmTiles, List.mem_map]
  constructor
  · rintro ⟨ti, hti, rfl⟩
    rw [List.mem_range] at hti
    have htn : 0 < (N + 63) / 64 := Nat.pos_of_ne_zero fun h0 => by
      rw [h0, Nat.mul_zero] at hti
      exact absurd hti (Nat.not_lt_zero _)
    exact ⟨_, (Nat.div_lt_iff_lt_mul htn).mpr hti, _, Nat.mod_lt _ htn, rfl⟩
  · rintro ⟨i, hi, k, hk, rfl⟩
    exact ⟨_, List.mem_range.mpr (cell_lt hi hk), by rw [cell_div hk, Nat.mul_add_mod_of_lt hk]⟩

/-- The tile of a cell. -/
lemma tile_mem_gemmTiles (hm : m < M) (hn : n < N) : (m / 32 * 32, n / 64 * 64) ∈ gemmTiles M N :=
  mem_gemmTiles.mpr ⟨m / 32, by omega, n / 64, by omega, rfl⟩

/-- Either way of the two passes, every cell goes through the epilogue and the quantizer. -/
lemma gemmPass_cell (avx2 : Bool) (packed : Acts) (j : GemmJob) (emit : ℕ → Acc → β) (keep : Bool)
    (quant : β → γ) (ybuf scratch : ℕ → β) (q : ℕ → γ)
    (hN : N = j.outCh) (hm : m < M) (hn : n < N) :
    ∃ v, IsCell avx2 packed j emit m n v ∧
      gemmPass avx2 packed j keep M N emit quant ybuf scratch q (m * N + n) = quant v := by
  cases keep with
  | true =>
    rw [gemmPass, if_pos rfl, if_pos (cell_lt hm hn)]
    refine ⟨_, ?_, rfl⟩
    refine stores_induct ?_ fun c hc ho => ?_
    · have hrow : m % 32 < min 32 (M - m / 32 * 32) := by omega
      have hcol : n % 64 < min 64 (N - n / 64 * 64) := by omega
      obtain ⟨c, hc, ho⟩ := exists_mem_gemmTile avx2 packed j (m / 32 * 32) (n / 64 * 64) N emit
        hrow hcol
      refine ⟨_, List.mem_flatMap.mpr ⟨_, tile_mem_gemmTiles hm hn,
        List.mem_map.mpr ⟨c, hc, rfl⟩⟩, ?_⟩
      dsimp only
      rw [ho]
      calc m / 32 * 32 * N + n / 64 * 64 + (m % 32 * N + n % 64)
          = (m / 32 * 32 + m % 32) * N + (n / 64 * 64 + n % 64) := by ring
        _ = m * N + n := by rw [Nat.div_add_mod', Nat.div_add_mod']
    · obtain ⟨t, ht, hc⟩ := List.mem_flatMap.mp hc
      obtain ⟨c', hin, rfl⟩ := List.mem_map.mp hc
      obtain ⟨i, hi, k, hk, rfl⟩ := mem_gemmTiles.mp ht
      dsimp only at hin ho ⊢
      obtain ⟨m', hm', n', hn', haddr, hcell⟩ :=
        isCell_of_mem_gemmTile hin (by omega) (by omega)
      rw [haddr, show i * 32 * N + k * 64 + (m' * N + n') =
        (i * 32 + m') * N + (k * 64 + n') by ring] at ho
      obtain ⟨rfl, rfl⟩ := cell_inj (by omega) hn ho
      exact hcell
  | false =>
    rw [gemmPass, if_neg Bool.false_ne_true]
    refine stores_induct (P := fun x => ∃ v, IsCell avx2 packed j emit m n v ∧ x = quant v) ?_
      fun c hc ho => ?_
    · refine ⟨(_, _), List.mem_flatMap.mpr ⟨_, tile_mem_gemmTiles hm hn, List.mem_flatMap.mpr
        ⟨m % 32, List.mem_range.mpr ?_, List.mem_map.mpr
          ⟨n % 64, List.mem_range.mpr ?_, rfl⟩⟩⟩, ?_⟩
      · dsimp only
        omega
      · dsimp only
        omega
      · dsimp only
        rw [Nat.div_add_mod', Nat.add_assoc, Nat.div_add_mod']
    · obtain ⟨t, ht, hc⟩ := List.mem_flatMap.mp hc
      obtain ⟨r, hr, hc⟩ := List.mem_flatMap.mp hc
      obtain ⟨k, hk, rfl⟩ := List.mem_map.mp hc
      obtain ⟨i, hi, i', hi', rfl⟩ := mem_gemmTiles.mp ht
      rw [List.mem_range] at hr hk
      dsimp only at hr hk ho ⊢
      rw [Nat.add_assoc] at ho
      obtain ⟨rfl, rfl⟩ := cell_inj (by omega) hn ho
      refine ⟨_, ?_, rfl⟩
      refine stores_induct (exists_mem_gemmTile _ _ _ _ _ _ _ hr hk) fun c hin ho => ?_
      obtain ⟨m', hm', n', hn', haddr, hcell⟩ := isCell_of_mem_gemmTile hin (by omega) (by omega)
      obtain ⟨rfl, rfl⟩ := cell_inj (by omega) (by omega) (haddr.symm.trans ho)
      exact hcell

end Cells

/-! ### The depthwise sums -/

section Depthwise

variable {C c k : ℕ}

/-- What a pair of taps misses, in units of 65536: the sum of two products `(-128) * (-128)` is no
16-bit number. -/
def pairLoss (w x w' x' : Int8) : ℤ := if (w = -128 ∧ x = -128) ∧ w' = -128 ∧ x' = -128 then 1 else 0

/-- The pairs of taps that do not fit, for a channel whose taps are added in pairs. -/
def dwLost (avx2 : Bool) (wk : Acts) (k : ℕ) (xr : Acts) (C c : ℕ) : ℤ :=
  if avx2 ∧ c < C / 16 * 16 then
    ∑ i ∈ range (k / 2), pairLoss (wk (2 * i * C + c)) (xr (2 * i * C + c))
      (wk ((2 * i + 1) * C + c)) (xr ((2 * i + 1) * C + c))
  else 0

lemma mul_eq_iff (w x : Int8) : w.toInt * x.toInt = 2 ^ 14 ↔ w = -128 ∧ x = -128 := by
  have hneg : ∀ v : Int8, 128 ≤ |v.toInt| → v = -128 := fun v hv => by
    have hlow := v.le_toInt
    have hhigh := v.toInt_lt
    rw [le_abs] at hv
    have hval : v.toInt = -128 := by omega
    exact Int8.toInt_inj.mp hval
  constructor
  · intro h
    have habs : |w.toInt| * |x.toInt| = 2 ^ 14 := by
      rw [← abs_mul, h]
      rfl
    have hw := abs_toInt_le w
    have hx := abs_toInt_le x
    refine ⟨hneg w (le_of_not_gt fun hlt => ?_), hneg x (le_of_not_gt fun hlt => ?_)⟩
    · have hle : |w.toInt| * |x.toInt| ≤ 127 * 128 :=
        mul_le_mul (by omega) hx (abs_nonneg _) (by omega)
      omega
    · have hle : |w.toInt| * |x.toInt| ≤ 128 * 127 :=
        mul_le_mul hw (by omega) (abs_nonneg _) (by omega)
      omega
  · rintro ⟨rfl, rfl⟩
    rfl

lemma mulloEpi16_eq (w x : Int8) : mulloEpi16 w.toInt x.toInt = lift (w.toInt * x.toInt) := by
  rw [mulloEpi16]
  have hfits : Fits 16 (w.toInt * x.toInt) := fits_of_abs (abs_mul_le w x) (by omega)
  exact congrArg lift (bmod_of_fits (by omega) hfits)

/-- A pair of taps, as a 16-bit number. -/
lemma pair_val (w x w' x' : Int8) :
    ((mulloEpi16 w.toInt x.toInt).add 16 (mulloEpi16 w'.toInt x'.toInt)).val =
      w.toInt * x.toInt + w'.toInt * x'.toInt - 2 ^ 16 * pairLoss w x w' x' := by
  rw [mulloEpi16_eq, mulloEpi16_eq, pairLoss]
  have hprod := abs_le.mp (abs_mul_le w x)
  have hprod' := abs_le.mp (abs_mul_le w' x')
  by_cases hall : (w = -128 ∧ x = -128) ∧ w' = -128 ∧ x' = -128
  · obtain ⟨⟨rfl, rfl⟩, rfl, rfl⟩ := hall
    rfl
  · rw [if_neg hall, mul_zero, sub_zero]
    rw [← mul_eq_iff, ← mul_eq_iff] at hall
    have hfits : Fits 16 (w.toInt * x.toInt + w'.toInt * x'.toInt) := ⟨by omega, by omega⟩
    exact bmod_of_fits (by omega) hfits

lemma abs_pair_le (w x w' x' : Int8) :
    |w.toInt * x.toInt + w'.toInt * x'.toInt - 2 ^ 16 * pairLoss w x w' x'| ≤ 2 * 2 ^ 14 := by
  have hprod := abs_le.mp (abs_mul_le w x)
  have hprod' := abs_le.mp (abs_mul_le w' x')
  rw [pairLoss]
  by_cases hall : (w = -128 ∧ x = -128) ∧ w' = -128 ∧ x' = -128
  · obtain ⟨⟨rfl, rfl⟩, rfl, rfl⟩ := hall
    exact le_rfl
  · rw [if_neg hall, abs_le]
    omega

/-- The first `n` pairs of taps. -/
lemma dwPairs_sums (wk xr : Acts) {n : ℕ} (hn : 2 * n ≤ k) :
    (turns n (fun i acc =>
      let j := 2 * i
      let p := mulloEpi16 (wk (j * C + c)).toInt (xr (j * C + c)).toInt
      let p :=
        if j + 1 < k then
          p.add 16 (mulloEpi16 (wk ((j + 1) * C + c)).toInt (xr ((j + 1) * C + c)).toInt)
        else p
      acc.add 32 (lift p.val)) (lift 0)).Sums 32
        (int8Dot (fun j => wk (j * C + c)) (fun j => xr (j * C + c)) (2 * n) -
          2 ^ 16 * ∑ i ∈ range n, pairLoss (wk (2 * i * C + c)) (xr (2 * i * C + c))
            (wk ((2 * i + 1) * C + c)) (xr ((2 * i + 1) * C + c))) ((2 * n : ℕ) * 2 ^ 14) := by
  have hzero : (lift 0).Sums 32 0 0 := Acc.sums_lift (by rw [abs_zero]) (by omega)
  refine (hzero.turns (by omega) fun i hi => ⟨_, Acc.sums_lift (abs_pair_le
    (wk (2 * i * C + c)) (xr (2 * i * C + c)) (wk ((2 * i + 1) * C + c))
      (xr ((2 * i + 1) * C + c))) (by omega), fun s => ?_⟩).congr ?_ ?_
  · dsimp only
    rw [if_pos (by omega), pair_val]
  · rw [zero_add, sum_sub_distrib, ← mul_sum, int8Dot, Nat.mul_comm 2 n, sum_range_mul]
    congr 1
    refine sum_congr rfl fun i _ => ?_
    rw [sum_range_succ, sum_range_one, Nat.mul_comm 2 i, add_zero]
  · push_cast
    ring

/-- What a channel of the depthwise row holds, up to overflows. -/
lemma dwRow_sums (avx2 : Bool) (wk : Acts) (k : ℕ) (xr : Acts) (C c : ℕ) :
    (dwRow avx2 wk k xr C c).Sums 32
      (int8Dot (fun j => wk (j * C + c)) (fun j => xr (j * C + c)) k -
        2 ^ 16 * dwLost avx2 wk k xr C c) (k * 2 ^ 14) := by
  rw [dwRow, dwLost]
  by_cases hvec : avx2 ∧ c < C / 16 * 16
  · rw [if_pos hvec, if_pos hvec]
    have hpairs := dwPairs_sums (C := C) (c := c) (k := k) wk xr (n := k / 2) (by omega)
    rcases Nat.even_or_odd' k with ⟨n, rfl | rfl⟩
    · rw [show (2 * n + 1) / 2 = n by omega]
      rwa [show 2 * n / 2 = n by omega] at hpairs ⊢
    · -- the last tap is alone
      rw [show (2 * n + 1 + 1) / 2 = n + 1 by omega, turns]
      rw [show (2 * n + 1) / 2 = n by omega] at hpairs ⊢
      dsimp only
      rw [if_neg (by omega), mulloEpi16_eq]
      refine (hpairs.add (by omega) (Acc.sums_lift (abs_mul_le _ _) (by omega))).congr ?_ ?_
      · rw [int8Dot, int8Dot, sum_range_succ]
        ring
      · push_cast
        ring
  · rw [if_neg hvec, if_neg hvec, mul_zero, sub_zero]
    have hzero : (lift 0).Sums 32 0 0 := Acc.sums_lift (by rw [abs_zero]) (by omega)
    exact (hzero.turns (by omega) fun j _ => ⟨_, Acc.sums_lift (abs_mul_le _ _) (by omega),
      fun _ => rfl⟩).congr (zero_add _) (zero_add _)

end Depthwise

/-! ### Exactness -/

section Exact

variable {L : I8Layer} {x : ℤ → Int8} {C N K m n : ℕ}

/-- The weights that a product of the layer reads are those of the layer. -/
lemma isCell_holds {avx2 : Bool} {junk : Acts} {s : Acc} (hdvd : L.k * C % 4 = 0)
    (hn : n < L.outCh)
    (hcell : IsCell avx2 (packWeights L.w L.outCh (L.k * C) junk) (linearJob L x C)
      (fun _ s => s) m n s) :
    HoldsDot avx2 ((linearJob L x C).row m) (fun k => L.w (n * (L.k * C) + k)) (L.k * C) s := by
  obtain ⟨_, hs, rfl⟩ := hcell
  have hK : (linearJob L x C).K / 4 * 4 = L.k * C :=
    Nat.div_mul_cancel (Nat.dvd_of_mod_eq_zero hdvd)
  have hquads : (L.k * C + 3) / 4 = L.k * C / 4 := by omega
  rw [hK] at hs
  refine hs.congr fun k hk => ⟨rfl, ?_⟩
  have hpack := packWeights_eq (N := L.outCh) (K := L.k * C) (n := n) (k := k) L.w junk (by omega)
    (by omega)
  rw [hquads, if_pos ⟨hn, hk⟩] at hpack
  exact hpack

/-- What a layer of `prep_layer` returns for a cell. -/
lemma opLinear_cell (avx2 keep : Bool) {wantOut T : ℕ} {junk : Acts} {packed : Option Acts}
    (ybuf scratch q : ℕ → Acc) (hprep : prepLayer L C wantOut junk = .ok packed)
    (hdepth : L.depthwise = false) (hm : m < convOutLen T L.k L.stride) (hn : n < L.outCh) :
    (L.k * C % 4 = 0 ∧ ∃ out, opLinear avx2 keep L packed x T C (fun _ s => s) id ybuf scratch q =
        some out ∧ HoldsDot avx2 ((linearJob L x C).row m) (fun k => L.w (n * (L.k * C) + k))
          (L.k * C) (out (m * L.outCh + n))) ∨
      (L.k * C % 4 ≠ 0 ∧ 4 ≤ L.k * C ∧
        opLinear avx2 keep L packed x T C (fun _ s => s) id ybuf scratch q = none) ∨
      (L.k * C % 4 ≠ 0 ∧ L.k * C < 4 ∧ ∃ out,
        opLinear avx2 keep L packed x T C (fun _ s => s) id ybuf scratch q = some out ∧
          (out (m * L.outCh + n)).val = 0 ∧ (out (m * L.outCh + n)).ok = true) := by
  rw [prepLayer] at hprep
  by_cases hshape : L.inCh ≠ C ∨ 0 < wantOut ∧ L.outCh ≠ wantOut ∨ L.k < 1 ∨ L.stride < 1 ∨
      L.k < L.stride
  · rw [if_pos hshape] at hprep
    cases hprep
  · rw [if_neg hshape] at hprep
    have hin : L.inCh = C := not_not.mp fun h => hshape (.inl h)
    have hrows : convOutLen T L.k L.stride ≠ 0 := by omega
    rw [hin, hdepth] at hprep
    by_cases hdvd : L.k * C % 4 = 0
    · rw [if_neg (by simp [hdvd])] at hprep
      cases hprep
      rw [opLinear, if_neg hrows]
      obtain ⟨s, hcell, hs⟩ := gemmPass_cell avx2
        (packWeights L.w L.outCh (L.k * C) junk) (linearJob L x C) (fun _ s => s) keep id ybuf
        scratch q rfl hm hn
      exact .inl ⟨hdvd, _, rfl, hs ▸ isCell_holds hdvd hn hcell⟩
    · rw [if_pos (.inr hdvd)] at hprep
      cases hprep
      refine .inr ?_
      rw [opLinear, if_neg hrows]
      by_cases hquad : 0 < (linearJob L x C).K / 4
      · have hfour : 4 ≤ L.k * C := (Nat.one_le_div_iff (by omega)).mp hquad
        rw [if_pos ⟨by omega, hquad⟩]
        exact .inl ⟨hdvd, hfour, rfl⟩
      · have hfour : L.k * C < 4 := by
          rcases Nat.lt_or_ge (L.k * C) 4 with h | h
          · exact h
          · exact absurd ((Nat.one_le_div_iff (by omega)).mpr h) hquad
        rw [if_neg fun h => hquad h.2]
        obtain ⟨s, ⟨_, hs, rfl⟩, hout⟩ := gemmPass_cell avx2 (fun _ => 0)
          (linearJob L x C) (N := L.outCh) (fun _ s => s) keep id ybuf scratch q rfl hm hn
        refine .inr ⟨hdvd, hfour, _, rfl, ?_⟩
        have hnone : (linearJob L x C).K / 4 * 4 = 0 := by omega
        have htricked : panelTricked avx2 0 = 0 := ite_self 0
        rw [HoldsDot, hnone, htricked] at hs
        rw [hout]
        exact ⟨hs.val (by omega) (by decide), hs.ok (by decide)⟩

/-- A word is the exact sum when the sum is a number of 32 bits and what the sign trick misses adds
up to whole words. -/
lemma HoldsDot.val_eq_iff {avx2 : Bool} {a w : Acts} {s : Acc} (h : HoldsDot avx2 a w K s) :
    s.val = int8Dot a w K ↔
      Fits 32 (int8Dot a w K) ∧ (2 : ℤ) ^ 24 ∣ lost a w (panelTricked avx2 K) :=
  Acc.Sums.val_eq_iff_dvd (by omega) h rfl

/-- The rows on which a product of the speech encoder is exact. -/
def PanelExact (avx2 : Bool) (a w : Acts) (K : ℕ) : Prop :=
  (K % 4 = 0 ∧ Fits 32 (int8Dot a w K) ∧ (2 : ℤ) ^ 24 ∣ lost a w (panelTricked avx2 K)) ∨
    K % 4 ≠ 0 ∧ K < 4 ∧ int8Dot a w K = 0

/-- The int8 kernels, driven over every cell of a product, over the panels of a layer and over the
channels of a depthwise row, return the exact sum just where it is a 32-bit number and no weight -128
meets a negative activation (or, over long rows, what they miss adds up to whole words); and the
panels hold every weight where it is read. -/
theorem int8_exact_iff (isa : Isa) (a w : Acts) {M N K : ℕ} (hM : 0 < M) (hN : 0 < N) (hK : 0 < K)
    (acc : ℕ → Acc) (avx2 keep : Bool) (L : I8Layer) (wantOut : ℕ) (junk : Acts)
    {packed : Option Acts} (hprep : prepLayer L C wantOut junk = .ok packed) (x : ℤ → Int8)
    (T : ℕ) (ybuf scratch q : ℕ → Acc) :
    (∃ out, i8GemmI32 isa a w M N K acc = .ok out ∧ ∀ m < M, ∀ n < N,
      let row : Acts := fun k => a (m * K + k)
      let col : Acts := fun k => w (n * K + k)
      ((out (m * N + n)).val = int8Dot row col K ↔
        Fits 32 (int8Dot row col K) ∧ (2 : ℤ) ^ 24 ∣ lost row col (signTricked isa K)) ∧
      (K < 2 ^ 17 → (out (m * N + n)).ok = true)) ∧
    (L.depthwise = false → ∀ m < convOutLen T L.k L.stride, ∀ n < L.outCh,
      let row := (linearJob L x C).row m
      let col : Acts := fun k => L.w (n * (L.k * C) + k)
      let y := opLinear avx2 keep L packed x T C (fun _ s => s) id ybuf scratch q
      ((∃ out, y = some out ∧ (out (m * L.outCh + n)).val = int8Dot row col (L.k * C)) ↔
        PanelExact avx2 row col (L.k * C)) ∧
      ∀ out, y = some out → L.k * C < 2 ^ 17 → (out (m * L.outCh + n)).ok = true) ∧
    (∀ (wk xr : Acts) (k Cd c : ℕ),
      let row : Acts := fun j => wk (j * Cd + c)
      let col : Acts := fun j => xr (j * Cd + c)
      ((dwRow avx2 wk k xr Cd c).val = int8Dot row col k ↔
        Fits 32 (int8Dot row col k) ∧ (2 : ℤ) ^ 16 ∣ dwLost avx2 wk k xr Cd c) ∧
      (k < 2 ^ 17 → (dwRow avx2 wk k xr Cd c).ok = true)) ∧
    (∀ n < (N + 7) / 8 * 8, ∀ k < (K + 3) / 4 * 4,
      packWeights w N K junk (((n / 8 * ((K + 3) / 4) + k / 4) * 8 + n % 8) * 4 + k % 4) =
        if n < N ∧ k < K then w (n * K + k) else 0) ∧
    ∀ i < packedBytes N K, ∃ n < (N + 7) / 8 * 8, ∃ k < (K + 3) / 4 * 4,
      i = ((n / 8 * ((K + 3) / 4) + k / 4) * 8 + n % 8) * 4 + k % 4 := by
  refine ⟨?_, fun hdepth m hm n hn => ?_, fun wk xr k Cd c => ?_,
    fun n hn k hk => packWeights_eq w junk hn hk, fun i hi => packed_index hi⟩
  · obtain ⟨out, hok, hall⟩ := i8Drive_ok isa a w (fun _ _ s => s) acc hM hN hK
    refine ⟨out, hok, fun m hm n hn => ?_⟩
    have hsums := i8Row_sums isa (fun k => a (m * K + k)) (fun k => w (n * K + k)) K
    rw [hall m hm n hn]
    exact ⟨hsums.val_eq_iff_dvd (by omega) rfl, fun hsmall => hsums.ok (small_of_lt hsmall)⟩
  · rcases opLinear_cell (x := x) avx2 keep ybuf scratch q hprep hdepth hm hn with
      ⟨hdvd, out, hout, hholds⟩ | ⟨hdvd, hfour, hnone⟩ | ⟨hdvd, hfour, out, hout, hval, hok⟩
    · refine ⟨⟨?_, ?_⟩, ?_⟩
      · rintro ⟨out', hout', hval⟩
        obtain rfl : out = out' := Option.some.inj (hout.symm.trans hout')
        exact .inl ⟨hdvd, hholds.val_eq_iff.mp hval⟩
      · rintro (⟨-, hexact⟩ | ⟨hdvd', -⟩)
        · exact ⟨out, hout, hholds.val_eq_iff.mpr hexact⟩
        · exact absurd hdvd hdvd'
      · intro out' hout' hsmall
        obtain rfl : out = out' := Option.some.inj (hout.symm.trans hout')
        exact hholds.ok (small_of_lt hsmall)
    · refine ⟨⟨?_, ?_⟩, fun out' hout' => ?_⟩
      · rintro ⟨out', hout', -⟩
        cases hnone.symm.trans hout'
      · rintro (⟨hdvd', -⟩ | ⟨-, hlt, -⟩)
        · exact absurd hdvd' hdvd
        · omega
      · cases hnone.symm.trans hout'
    · refine ⟨⟨?_, ?_⟩, ?_⟩
      · rintro ⟨out', hout', hval'⟩
        obtain rfl : out = out' := Option.some.inj (hout.symm.trans hout')
        exact .inr ⟨hdvd, hfour, hval'.symm.trans hval⟩
      · rintro (⟨hdvd', -⟩ | ⟨-, -, hzero⟩)
        · exact absurd hdvd' hdvd
        · exact ⟨out, hout, hval.trans hzero.symm⟩
      · intro out' hout' _
        obtain rfl : out = out' := Option.some.inj (hout.symm.trans hout')
        exact hok
  · have hsums := dwRow_sums avx2 wk k xr Cd c
    exact ⟨hsums.val_eq_iff_dvd (by omega) rfl, fun hsmall => hsums.ok (small_of_lt hsmall)⟩

/-- A layer of one weight quad. -/
def quadLayer (w : Int8) : I8Layer := ⟨fun k => if k = 0 then w else 0, 4, 1, 1, 1, false⟩

/-- One activation -1 against a weight -127. -/
theorem int8_exact_one :
    ∃ out, opLinear true false (quadLayer (-127)) (some (packWeights (quadLayer (-127)).w 1 4
        fun _ => 0)) (fun i => if i = 0 then -1 else 0) 1 4 (fun _ s => s) id
        (fun _ => lift 0) (fun _ => lift 0) (fun _ => lift 0) = some out ∧
      (out 0).val = int8Dot ((linearJob (quadLayer (-127)) (fun i => if i = 0 then -1 else 0) 4).row 0)
        (fun k => (quadLayer (-127)).w (0 * 4 + k)) 4 :=
  ((int8_exact_iff .avx2 (fun _ => -128) (fun _ => 127) Nat.one_pos Nat.one_pos Nat.one_pos
    (fun _ => lift 0) true false (quadLayer (-127)) (C := 4) 1 (fun _ => 0)
    rfl (fun i => if i = 0 then -1 else 0) 1 (fun _ => lift 0) (fun _ => lift 0)
    (fun _ => lift 0)).2.1 rfl 0 (by decide) 0 (by decide)).1.mpr
      (.inl ⟨rfl, by decide +kernel, by decide +kernel⟩)

/-- The weight -128, which a file may hold, against the activation -1: -128 instead of 128. -/
theorem int8_not_exact :
    ∃ packed out, prepLayer (quadLayer (-128)) 4 1 (fun _ => 0) = .ok packed ∧
      opLinear true false (quadLayer (-128)) packed (fun i => if i = 0 then -1 else 0) 1 4
        (fun _ s => s) id (fun _ => lift 0) (fun _ => lift 0) (fun _ => lift 0) = some out ∧
      out 0 = ⟨-128, true⟩ ∧
      int8Dot ((linearJob (quadLayer (-128)) (fun i => if i = 0 then -1 else 0) 4).row 0)
        (fun k => (quadLayer (-128)).w k) 4 = 128 :=
  ⟨_, _, rfl, rfl, by decide +kernel, by decide +kernel⟩

end Exact

end VibeVoice.Kernels
