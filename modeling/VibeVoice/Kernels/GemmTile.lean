import VibeVoice.Kernels.ActQuant

/-!
The tiles of the int8 GEMMs (`gemm_i8.cu`, `i8_common.cuh`): what the threads bring into shared
memory, and what the tensor cores and `dp4a` make of it.

* `I8Args.stepSum`: the products of 32 columns, which both kernels add to an accumulator.
* `loadStage`, `Loaded`: a stage of the tensor-core kernel.
* `i8Mma_eq`: the fragments of a warp are the tiles.
-/

namespace VibeVoice.GemmI8

open Finset Lanes Warp Words
open Kernels (Acts Q8Layout q8Pos cell_inj)
open Lanes.Acc (lift)

/-! ### The operands -/

/-- `vv_i8_args`, without what only the epilogue reads.  A zero point is a small integer. -/
structure I8Args (F : Type) where
  xq : Acts
  w : ℕ → UInt8
  sz : ℕ → F × ℕ
  xLayout : Q8Layout
  M : ℕ
  N : ℕ
  K : ℕ
  G : ℕ

/-- `gemm_layout`. -/
def gemmLayout (w4 : Bool) : Q8Layout := if w4 then .w4Mma else .natural

namespace I8Args

variable {F : Type} (p : I8Args F) (w4 : Bool)

/-- The groups of a row. -/
def ng : ℕ := if w4 then p.K / p.G else 1

/-- Word `t` of the chunk `ks` of 32 columns in row `n` of the packed weights. -/
def word (n ks t : ℕ) : UInt32 := ofBytes fun b => p.w (n * (p.K >>> 1) + (ks * 16 + (t * 4 + b)))

/-- The code of column `k`. -/
def code (n k : ℕ) : ℕ := nibbleAt (p.word n (k / 32) (k % 32 / 2 % 4)) (k % 32 / 8 + 4 * (k % 2))

/-- What an activation of column `k` is multiplied with. -/
def weight (n k : ℕ) : ℤ :=
  if w4 then p.code n k - (p.sz (n * p.ng true + k / p.G)).2 else s8 (p.w (n * p.K + k))

/-- The activation of column `k`, in the layout that the kernels read. -/
def act (m k : ℕ) : ℤ :=
  (p.xq (m * p.K + (k / 32 * 32 + q8Pos (gemmLayout w4) (k % 32)))).toInt

/-- The products of the columns from `32 * ks` on. -/
def stepSum (m n ks : ℕ) : ℤ :=
  ∑ j ∈ range 32, p.weight w4 n (ks * 32 + j) * p.act w4 m (ks * 32 + j)

end I8Args

/-- `i8_unpack4_sub`. -/
def i8Unpack4Sub (h zrep : UInt32) : UInt32 :=
  let a := prmt h 0 0x4140
  vsub4 ((a &&& (0x000F000F : UInt32)) ||| ((a <<< (4 : UInt32)) &&& (0x0F000F00 : UInt32))) zrep

/-! ### The order of the columns -/

/-- The column at position `k` of a run. -/
def column (w4 : Bool) (k : ℕ) : ℕ := if w4 then k / 16 + 2 * (k % 16 / 4) + 8 * (k % 4) else k

lemma column_inverse (w4 : Bool) : (∀ k < 32, column w4 k < 32 ∧
    q8Pos (gemmLayout w4) (column w4 k) = k) ∧ ∀ j < 32, q8Pos (gemmLayout w4) j < 32 ∧
      column w4 (q8Pos (gemmLayout w4) j) = j := by
  cases w4 <;> decide +kernel

lemma sum_column (w4 : Bool) (f : ℕ → ℤ) :
    ∑ k ∈ range 32, f (column w4 k) = ∑ j ∈ range 32, f j := by
  obtain ⟨hcol, hpos⟩ := column_inverse w4
  refine sum_nbij' (column w4) (q8Pos (gemmLayout w4)) ?_ ?_ ?_ ?_ fun k _ => rfl
  · exact fun k hk => mem_range.mpr (hcol k (mem_range.mp hk)).1
  · exact fun j hj => mem_range.mpr (hpos j (mem_range.mp hj)).1
  · exact fun k hk => (hcol k (mem_range.mp hk)).2
  · exact fun j hj => (hpos j (mem_range.mp hj)).2

/-- The masks take the nibbles of two bytes apart. -/
lemma byteAt_i8Unpack4Sub (h zrep : UInt32) {i : ℕ} (hi : i < 4) :
    byteAt (i8Unpack4Sub h zrep) i = UInt8.ofNat (nibbleAt h i) - byteAt zrep i := by
  set b0 := (byteAt h 0).toNat with hb0
  set b1 := (byteAt h 1).toNat with hb1
  have hlt0 : b0 < 256 := UInt8.toNat_lt _
  have hlt1 : b1 < 256 := UInt8.toNat_lt _
  have ha : (prmt h 0 0x4140).toNat = 2 ^ 16 * b1 + b0 := by
    rw [prmt, toNat_ofBytes]
    show b0 + 2 ^ 8 * 0 + 2 ^ 16 * b1 + 2 ^ 24 * 0 = _
    omega
  have hshift : (prmt h 0 0x4140 <<< (4 : UInt32)).toNat = 2 ^ 16 * (b1 * 16) + b0 * 16 := by
    rw [UInt32.toNat_shiftLeft, ha]
    show (2 ^ 16 * b1 + b0) <<< 4 % 2 ^ 32 = _
    rw [Nat.shiftLeft_eq]
    omega
  have hlow : (prmt h 0 0x4140 &&& (0x000F000F : UInt32)).toNat =
      2 ^ 16 * (b1 &&& 0x000F) + (b0 &&& 0x000F) := by
    rw [UInt32.toNat_and, ha]
    exact and_halves (x := b0) (p := 0x000F) (by omega) (by decide) b1 0x000F
  have hhigh : (prmt h 0 0x4140 <<< (4 : UInt32) &&& (0x0F000F00 : UInt32)).toNat =
      2 ^ 16 * (b1 * 16 &&& 0x0F00) + (b0 * 16 &&& 0x0F00) := by
    rw [UInt32.toNat_and, hshift]
    exact and_halves (x := b0 * 16) (p := 0x0F00) (by omega) (by decide) (b1 * 16) 0x0F00
  have hword : (prmt h 0 0x4140 &&& (0x000F000F : UInt32)) |||
      (prmt h 0 0x4140 <<< (4 : UInt32) &&& (0x0F000F00 : UInt32)) =
        ofBytes fun i => UInt8.ofNat (nibbleAt h i) := by
    refine UInt32.toNat_inj.mp ?_
    rw [UInt32.toNat_or, hlow, hhigh, or_halves (Nat.and_lt_two_pow _ (by decide))
      (Nat.and_lt_two_pow _ (by decide)), spread_nibbles _ hlt0, spread_nibbles _ hlt1,
      toNat_ofBytes]
    have hnibble : ∀ i, (UInt8.ofNat (nibbleAt h i)).toNat = h.toNat / 2 ^ (4 * i) % 16 := by
      intro i
      rw [UInt8.toNat_ofNat', Nat.mod_eq_of_lt ((nibbleAt_lt h i).trans (by decide))]
      rfl
    simp only [hnibble, hb0, hb1, toNat_byteAt]
    norm_num
    omega
  rw [i8Unpack4Sub, hword, byteAt_vsub4 _ _ hi, byteAt_ofBytes _ hi]

/-! ### Stages -/

/-- `i8_mma_cfg`: what a block of the tensor-core kernel computes, with how many warps, and how many
stages of 64 columns there are. -/
structure MmaTile where
  bm : ℕ
  bn : ℕ
  warpsM : ℕ
  warpsN : ℕ
  stages : ℕ
  bm_pos : 0 < bm
  bn_pos : 0 < bn
  warpsM_pos : 0 < warpsM
  warpsN_pos : 0 < warpsN
  bm_dvd : warpsM * 16 ∣ bm
  bn_dvd : warpsN * 16 ∣ bn
  stages_le : 2 ≤ stages

namespace MmaTile

variable (t : MmaTile)

def threads : ℕ := t.warpsM * t.warpsN * 32
def wm : ℕ := t.bm / t.warpsM
def wn : ℕ := t.bn / t.warpsN
def mi : ℕ := t.wm / 16
def ni : ℕ := t.wn / 8
def aBytes : ℕ := t.bm * 64

lemma wm_spec : t.bm = t.warpsM * t.wm ∧ t.wm = t.mi * 16 := by
  obtain ⟨d, hd⟩ := t.bm_dvd
  have hwm : t.wm = d * 16 := by
    rw [wm, hd, Nat.mul_assoc, Nat.mul_div_cancel_left _ t.warpsM_pos, Nat.mul_comm]
  rw [mi, hwm, Nat.mul_div_cancel _ (by omega)]
  exact ⟨by rw [hd]; ring, rfl⟩

lemma wn_spec : t.bn = t.warpsN * t.wn ∧ t.wn = t.ni * 8 ∧ t.ni % 2 = 0 := by
  obtain ⟨d, hd⟩ := t.bn_dvd
  have hwn : t.wn = d * 2 * 8 := by
    rw [wn, hd, Nat.mul_assoc, Nat.mul_div_cancel_left _ t.warpsN_pos, Nat.mul_comm, Nat.mul_assoc]
  rw [ni, hwn, Nat.mul_div_cancel _ (by omega)]
  exact ⟨by rw [hd]; ring, rfl, Nat.mul_mod_left ..⟩

lemma threads_pos : 0 < t.threads :=
  Nat.mul_pos (Nat.mul_pos t.warpsM_pos t.warpsN_pos) (by omega)

end MmaTile

/-- `i8_swz`. -/
def i8Swz (r c : ℕ) : ℕ := r * 64 + ((c ^^^ (r >>> 1 &&& 3)) <<< 4)

/-- `i8_cp_async16`. -/
def i8CpAsync16 (dst : ℕ) (src : ℕ → UInt8) (valid : Bool) : List (ℕ × UInt8) :=
  (List.range 16).map fun b => (dst + b, if valid then src b else 0)

/-- A loop of `load_stage`: each row has `2 ^ e` chunks of 16 bytes, and rows from `lim` on are
filled with zeros. -/
def loadRows (threads rows e : ℕ) (dst : ℕ → ℕ → ℕ) (src : ℕ → UInt8) (lim ld r0 k0 tid : ℕ) :
    List (ℕ × UInt8) :=
  (strided (rows * 2 ^ e) threads tid).flatMap fun ch =>
    let r := ch >>> e
    let c := ch &&& (2 ^ e - 1)
    let ok := decide (r0 + r < lim)
    i8CpAsync16 (dst r c) (fun b => src ((if ok then r0 + r else 0) * ld + k0 + c * 16 + b)) ok

section Stage

variable {F : Type} (t : MmaTile) (w4 : Bool) (p : I8Args F) (m0 n0 kt : ℕ)

/-- Where chunk `c` of row `r` of the weights goes. -/
def bDst (r c : ℕ) : ℕ := t.aBytes + if w4 then r * 48 + c * 16 else i8Swz r c

/-- `load_stage`, of one thread. -/
def loadStage (tid : ℕ) : List (ℕ × UInt8) :=
  let k0 := kt * 64
  loadRows t.threads t.bm 2 i8Swz (fun k => (p.xq k).toUInt8) p.M p.K m0 k0 tid ++
    if w4 then loadRows t.threads t.bn 1 (bDst t true) p.w p.N (p.K >>> 1) n0 (k0 >>> 1) tid
    else loadRows t.threads t.bn 2 (bDst t false) p.w p.N p.K n0 k0 tid

end Stage

/-- A byte of a row, zero below the last one. -/
def rowByte (src : ℕ → UInt8) (lim ld r k : ℕ) : UInt8 := if r < lim then src (r * ld + k) else 0

lemma mem_i8CpAsync16 {dst o : ℕ} {src : ℕ → UInt8} {valid : Bool} {x : UInt8} :
    (o, x) ∈ i8CpAsync16 dst src valid ↔
      ∃ b < 16, o = dst + b ∧ x = if valid then src b else 0 := by
  simp only [i8CpAsync16, List.mem_map, List.mem_range, Prod.mk.injEq]
  exact exists_congr fun b => and_congr_right fun _ => and_congr eq_comm eq_comm

/-- The threads share out the bytes of the rows. -/
lemma mem_loadRows {threads rows e : ℕ} {dst : ℕ → ℕ → ℕ} {src : ℕ → UInt8}
    {lim ld r0 k0 tid o : ℕ} {x : UInt8} (htid : tid < threads) :
    (o, x) ∈ loadRows threads rows e dst src lim ld r0 k0 tid ↔
      ∃ r < rows, ∃ c < 2 ^ e, (r * 2 ^ e + c) % threads = tid ∧
        ∃ b < 16, o = dst r c + b ∧ x = rowByte src lim ld (r0 + r) (k0 + (c * 16 + b)) := by
  have hvalue : ∀ r c b : ℕ, (if decide (r0 + r < lim) = true then
      src ((if decide (r0 + r < lim) = true then r0 + r else 0) * ld + k0 + c * 16 + b) else 0) =
        rowByte src lim ld (r0 + r) (k0 + (c * 16 + b)) := fun r c b => by
    rw [rowByte]
    by_cases hr : r0 + r < lim
    · simp only [hr, decide_true, if_true, Nat.add_assoc]
    · simp only [hr, decide_false, Bool.false_eq_true, if_false]
  have hpos := Nat.two_pow_pos e
  simp only [loadRows, List.mem_flatMap, mem_strided (Nat.zero_lt_of_lt htid) htid,
    mem_i8CpAsync16, hvalue, Nat.shiftRight_eq_div_pow, Nat.and_two_pow_sub_one_eq_mod]
  constructor
  · rintro ⟨ch, ⟨hch, hmod⟩, hcell⟩
    exact ⟨ch / 2 ^ e, Nat.div_lt_of_lt_mul (by rwa [Nat.mul_comm]), ch % 2 ^ e,
      Nat.mod_lt ch hpos, by rwa [Nat.div_add_mod'], hcell⟩
  · rintro ⟨r, hr, c, hc, hmod, hcell⟩
    refine ⟨r * 2 ^ e + c, ⟨Kernels.cell_lt hr hc, hmod⟩, ?_⟩
    rwa [Nat.mul_comm r, Nat.mul_add_div hpos, Nat.div_eq_of_lt hc, Nat.add_zero,
      Nat.mul_add_mod, Nat.mod_eq_of_lt hc]

lemma i8Swz_lt {r c : ℕ} (hc : c < 4) : r * 64 ≤ i8Swz r c ∧ i8Swz r c + 16 ≤ r * 64 + 64 := by
  have hx : c ^^^ (r >>> 1 &&& 3) < 4 :=
    Nat.xor_lt_two_pow (n := 2) hc (Nat.and_lt_two_pow _ (by decide))
  rw [i8Swz, Nat.shiftLeft_eq]
  omega

/-- The chunks of a tile do not overlap. -/
lemma i8Swz_inj {r r' c c' b b' : ℕ} (hc : c < 4) (hc' : c' < 4) (hb : b < 16) (hb' : b' < 16)
    (h : i8Swz r c + b = i8Swz r' c' + b') : r = r' ∧ c = c' ∧ b = b' := by
  obtain ⟨hlow, hhigh⟩ := i8Swz_lt (r := r) hc
  obtain ⟨hlow', hhigh'⟩ := i8Swz_lt (r := r') hc'
  obtain rfl : r = r' := by omega
  simp only [i8Swz, Nat.shiftLeft_eq] at h
  have hxor : c ^^^ (r >>> 1 &&& 3) = c' ^^^ (r >>> 1 &&& 3) := by omega
  have hcancel := congrArg (· ^^^ (r >>> 1 &&& 3)) hxor
  simp only [Nat.xor_xor_cancel_right] at hcancel
  exact ⟨rfl, hcancel, by omega⟩

section Loaded

variable {F : Type} {t : MmaTile} {w4 : Bool} {p : I8Args F} {m0 n0 kt : ℕ}

/-- The bytes of a stage that are the rows of the activations and of the weights. -/
structure Loaded (t : MmaTile) (w4 : Bool) (p : I8Args F) (m0 n0 kt : ℕ) (sm : ℕ → UInt8) :
    Prop where
  acts : ∀ r < t.bm, ∀ c < 4, ∀ b < 16, sm (i8Swz r c + b) =
    rowByte (fun k => (p.xq k).toUInt8) p.M p.K (m0 + r) (kt * 64 + (c * 16 + b))
  packed : w4 = true → ∀ r < t.bn, ∀ c < 2, ∀ b < 16, sm (bDst t true r c + b) =
    rowByte p.w p.N (p.K >>> 1) (n0 + r) ((kt * 64) >>> 1 + (c * 16 + b))
  bytes : w4 = false → ∀ r < t.bn, ∀ c < 4, ∀ b < 16, sm (bDst t false r c + b) =
    rowByte p.w p.N p.K (n0 + r) (kt * 64 + (c * 16 + b))

/-- The threads together bring in the stage. -/
lemma loaded_of_cells {sm : ℕ → UInt8}
    (h : ∀ tid < t.threads, ∀ cell ∈ loadStage t w4 p m0 n0 kt tid, sm cell.1 = cell.2) :
    Loaded t w4 p m0 n0 kt sm where
  acts r hr c hc b hb := by
    have htid : (r * 2 ^ 2 + c) % t.threads < t.threads := Nat.mod_lt _ t.threads_pos
    exact h _ htid (_, _) (List.mem_append_left _
      ((mem_loadRows htid).mpr ⟨r, hr, c, hc, rfl, b, hb, rfl, rfl⟩))
  packed hw r hr c hc b hb := by
    have htid : (r * 2 ^ 1 + c) % t.threads < t.threads := Nat.mod_lt _ t.threads_pos
    refine h _ htid (_, _) (List.mem_append_right _ ?_)
    rw [if_pos hw]
    exact (mem_loadRows htid).mpr ⟨r, hr, c, hc, rfl, b, hb, rfl, rfl⟩
  bytes hw r hr c hc b hb := by
    have htid : (r * 2 ^ 2 + c) % t.threads < t.threads := Nat.mod_lt _ t.threads_pos
    refine h _ htid (_, _) (List.mem_append_right _ ?_)
    rw [if_neg (by simp [hw])]
    exact (mem_loadRows htid).mpr ⟨r, hr, c, hc, rfl, b, hb, rfl, rfl⟩

/-- The chunks of the weights do not overlap either, whether they are padded or swizzled. -/
lemma bDst_inj {r r' c c' b b' : ℕ} (hc : c < if w4 then 2 else 4) (hc' : c' < if w4 then 2 else 4)
    (hb : b < 16) (hb' : b' < 16) (h : bDst t w4 r c + b = bDst t w4 r' c' + b') :
    r = r' ∧ c = c' ∧ b = b' := by
  cases w4 with
  | true =>
    simp only [bDst, if_true] at h hc hc'
    omega
  | false =>
    simp only [bDst, Bool.false_eq_true, if_false] at h hc hc'
    exact i8Swz_inj hc hc' hb hb' (by omega)

/-- What a thread brings in is a byte of the activations or one of the weights. -/
lemma mem_loadStage {tid o : ℕ} {x : UInt8} (htid : tid < t.threads)
    (h : (o, x) ∈ loadStage t w4 p m0 n0 kt tid) :
    (∃ r < t.bm, ∃ c < 4, ∃ b < 16, o = i8Swz r c + b ∧
      x = rowByte (fun k => (p.xq k).toUInt8) p.M p.K (m0 + r) (kt * 64 + (c * 16 + b))) ∨
    ∃ r, ∃ c < if w4 then 2 else 4, ∃ b < 16, o = bDst t w4 r c + b ∧
      x = rowByte p.w p.N (if w4 then p.K >>> 1 else p.K) (n0 + r)
        ((if w4 then (kt * 64) >>> 1 else kt * 64) + (c * 16 + b)) := by
  rcases List.mem_append.mp h with h | h
  · obtain ⟨r, hr, c, hc, -, hcell⟩ := (mem_loadRows htid).mp h
    exact .inl ⟨r, hr, c, hc, hcell⟩
  · cases w4 with
    | true =>
      obtain ⟨r, -, c, hc, -, hcell⟩ := (mem_loadRows htid).mp h
      exact .inr ⟨r, c, hc, hcell⟩
    | false =>
      obtain ⟨r, -, c, hc, -, hcell⟩ := (mem_loadRows htid).mp h
      exact .inr ⟨r, c, hc, hcell⟩

/-- No two threads bring different bytes into one cell. -/
lemma loadStage_consistent {tid tid' o : ℕ} {x y : UInt8} (htid : tid < t.threads)
    (htid' : tid' < t.threads) (hx : (o, x) ∈ loadStage t w4 p m0 n0 kt tid)
    (hy : (o, y) ∈ loadStage t w4 p m0 n0 kt tid') : x = y := by
  -- the weights lie behind the activations
  have hapart : ∀ {r c b r' c' b'}, r < t.bm → c < 4 → b < 16 →
      i8Swz r c + b ≠ bDst t w4 r' c' + b' := fun {r c b r' c' b'} hr hc hb heq => by
    have hhigh := (i8Swz_lt (r := r) hc).2
    rw [bDst, MmaTile.aBytes] at heq
    omega
  rcases mem_loadStage htid hx with ⟨r, hr, c, hc, b, hb, rfl, rfl⟩ | ⟨r, c, hc, b, hb, rfl, rfl⟩
  · rcases mem_loadStage htid' hy with ⟨r', -, c', hc', b', hb', ho, rfl⟩ |
      ⟨r', c', -, b', -, ho, -⟩
    · obtain ⟨rfl, rfl, rfl⟩ := i8Swz_inj hc hc' hb hb' ho
      rfl
    · exact absurd ho (hapart hr hc hb)
  · rcases mem_loadStage htid' hy with ⟨r', hr', c', hc', b', hb', ho, -⟩ |
      ⟨r', c', hc', b', hb', ho, rfl⟩
    · exact absurd ho.symm (hapart hr' hc' hb')
    · obtain ⟨rfl, rfl, rfl⟩ := bDst_inj hc hc' hb hb' ho
      rfl

end Loaded

/-! ### Fragments -/

/-- `i8_ldsm_x4`, register `q` of a lane.  Each lane gives the address of a row of 16 bytes, which
is handed out to four lanes. -/
def i8LdsmX4 (sm : ℕ → UInt8) (addr : ℕ → ℕ) (lane q : ℕ) : UInt32 :=
  ofBytes fun b => sm (addr (8 * q + lane / 4) + (lane % 4 * 4 + b))

/-- `af[i]` of a lane. -/
def aFrag (sm : ℕ → UInt8) (wm0 kk i lane q : ℕ) : UInt32 :=
  i8LdsmX4 sm (fun lane =>
    i8Swz (wm0 + i * 16 + (lane &&& 7) + (lane >>> 3 &&& 1) * 8) (kk * 2 + (lane >>> 4))) lane q

/-- `bf[j]` of a lane. -/
def bFrag (t : MmaTile) (w4 : Bool) (sm : ℕ → UInt8) (zrep : UInt32) (wn0 kk j lane q : ℕ) :
    UInt32 :=
  if w4 then
    let r := wn0 + j * 8 + (lane >>> 2)
    let w := ofBytes fun b => sm (t.aBytes + r * 48 + kk * 16 + (lane &&& 3) * 4 + b)
    i8Unpack4Sub (if q = 0 then w else w >>> 16) zrep
  else
    -- two of them come with one instruction
    i8LdsmX4 sm (fun lane => t.aBytes +
      i8Swz (wn0 + j / 2 * 2 * 8 + (lane &&& 7) + (lane >>> 4) * 8)
        (kk * 2 + (lane >>> 3 &&& 1))) lane (j % 2 * 2 + q)

/-- `i8_mma`, cell `c` of a lane: a row and a column are spread over the registers of a warp. -/
def i8Mma (d : Acc) (a b : ℕ → ℕ → UInt32) (lane c : ℕ) : Acc :=
  let row := lane / 4 + c / 2 * 8
  let col := lane % 4 * 2 + c % 2
  d.add 32 (lift (∑ k ∈ range 32,
    s8 (byteAt (a (row % 8 * 4 + k % 16 / 4) (row / 8 + 2 * (k / 16))) (k % 4)) *
      s8 (byteAt (b (col * 4 + k % 16 / 4) (k / 16)) (k % 4))))

section Fragments

variable {F : Type} {t : MmaTile} {w4 : Bool} {p : I8Args F} {m0 n0 kt : ℕ} {sm : ℕ → UInt8}

lemma and_seven (n : ℕ) : n &&& 7 = n % 8 := Nat.and_two_pow_sub_one_eq_mod n 3

lemma and_one (n : ℕ) : n &&& 1 = n % 2 := Nat.and_two_pow_sub_one_eq_mod n 1

/-- The bytes of the activations. -/
lemma byteAt_aFrag (h : Loaded t w4 p m0 n0 kt sm) {wm0 kk i row k : ℕ}
    (hrows : wm0 + i * 16 + 16 ≤ t.bm) (hkk : kk < 2) (hrow : row < 16) (hk : k < 32) :
    byteAt (aFrag sm wm0 kk i (row % 8 * 4 + k % 16 / 4) (row / 8 + 2 * (k / 16))) (k % 4) =
      rowByte (fun k => (p.xq k).toUInt8) p.M p.K (m0 + (wm0 + i * 16 + row))
        ((kt * 2 + kk) * 32 + k) := by
  rw [aFrag, i8LdsmX4, byteAt_ofBytes _ (Nat.mod_lt k (by omega))]
  simp only [and_seven, and_one, Nat.shiftRight_eq_div_pow, Nat.reducePow]
  have hlane : (row % 8 * 4 + k % 16 / 4) / 4 = row % 8 := by omega
  have hfour : (row % 8 * 4 + k % 16 / 4) % 4 = k % 16 / 4 := by omega
  rw [hlane, hfour]
  set l := 8 * (row / 8 + 2 * (k / 16)) + row % 8 with hl
  have hlow : wm0 + i * 16 + l % 8 + l / 8 % 2 * 8 = wm0 + i * 16 + row := by omega
  have hchunk : l / 16 = k / 16 := by omega
  rw [hlow, hchunk, h.acts _ (by omega) _ (by omega) _ (by omega)]
  congr 1
  omega

/-- The bytes of the 8-bit weights. -/
lemma byteAt_bFrag_bytes (h : Loaded t false p m0 n0 kt sm) (zrep : UInt32) {wn0 kk j col k : ℕ}
    (hrows : wn0 + j * 8 + 8 ≤ t.bn) (hkk : kk < 2) (hcol : col < 8) (hk : k < 32) :
    byteAt (bFrag t false sm zrep wn0 kk j (col * 4 + k % 16 / 4) (k / 16)) (k % 4) =
      rowByte p.w p.N p.K (n0 + (wn0 + j * 8 + col)) ((kt * 2 + kk) * 32 + k) := by
  rw [bFrag, if_neg (by simp), i8LdsmX4, byteAt_ofBytes _ (Nat.mod_lt k (by omega))]
  simp only [and_seven, and_one, Nat.shiftRight_eq_div_pow, Nat.reducePow]
  have hlane : (col * 4 + k % 16 / 4) / 4 = col := by omega
  have hfour : (col * 4 + k % 16 / 4) % 4 = k % 16 / 4 := by omega
  rw [hlane, hfour]
  set l := 8 * (j % 2 * 2 + k / 16) + col with hl
  have hlow : wn0 + j / 2 * 2 * 8 + l % 8 + l / 16 * 8 = wn0 + j * 8 + col := by omega
  have hchunk : l / 8 % 2 = k / 16 := by omega
  have hcell := h.bytes rfl (wn0 + j * 8 + col) (by omega) (kk * 2 + k / 16) (by omega)
    (k % 16 / 4 * 4 + k % 4) (by omega)
  rw [bDst, if_neg (by simp)] at hcell
  rw [hlow, hchunk, hcell]
  congr 1
  omega

lemma column_spec : ∀ k < 32, column true k / 2 % 4 = k % 16 / 4 ∧
    column true k / 8 + 4 * (column true k % 2) = k / 16 * 4 + k % 4 := by
  decide

lemma code_column (p : I8Args F) (n ks : ℕ) {k : ℕ} (hk : k < 32) :
    p.code n (ks * 32 + column true k) =
      nibbleAt (p.word n ks (k % 16 / 4)) (k / 16 * 4 + k % 4) := by
  have hlt := ((column_inverse true).1 k hk).1
  obtain ⟨hword, hnibble⟩ := column_spec k hk
  rw [I8Args.code, show (ks * 32 + column true k) / 32 = ks by omega,
    show (ks * 32 + column true k) % 32 = column true k by omega,
    show (ks * 32 + column true k) % 2 = column true k % 2 by omega, hword, hnibble]

/-- The halves of a word of codes, less the zero point. -/
lemma byteAt_halves (p : I8Args F) (n ks : ℕ) (zrep : UInt32) {k : ℕ} (hk : k < 32) :
    byteAt (i8Unpack4Sub (if k / 16 = 0 then p.word n ks (k % 16 / 4)
        else p.word n ks (k % 16 / 4) >>> 16) zrep) (k % 4) =
      UInt8.ofNat (p.code n (ks * 32 + column true k)) - byteAt zrep (k % 4) := by
  rw [byteAt_i8Unpack4Sub _ _ (Nat.mod_lt k (by omega)), code_column p _ _ hk]
  split_ifs with hq
  · rw [hq, Nat.zero_mul, Nat.zero_add]
  · rw [nibbleAt_shiftRight, show k / 16 = 1 by omega, Nat.one_mul]

/-- The bytes of the packed weights are codes less the zero point. -/
lemma byteAt_bFrag_packed (h : Loaded t true p m0 n0 kt sm) (zrep : UInt32) {wn0 kk j col k : ℕ}
    (hrows : wn0 + j * 8 + 8 ≤ t.bn) (hkk : kk < 2) (hcol : col < 8) (hk : k < 32)
    (hn : n0 + (wn0 + j * 8 + col) < p.N) :
    byteAt (bFrag t true sm zrep wn0 kk j (col * 4 + k % 16 / 4) (k / 16)) (k % 4) =
      UInt8.ofNat (p.code (n0 + (wn0 + j * 8 + col)) ((kt * 2 + kk) * 32 + column true k)) -
        byteAt zrep (k % 4) := by
  have hfour : (col * 4 + k % 16 / 4) % 4 = k % 16 / 4 := by omega
  have hword : (ofBytes fun b => sm (t.aBytes + (wn0 + j * 8 + (col * 4 + k % 16 / 4) / 4) * 48 +
      kk * 16 + k % 16 / 4 * 4 + b)) =
        p.word (n0 + (wn0 + j * 8 + col)) (kt * 2 + kk) (k % 16 / 4) := by
    refine ofBytes_congr fun b hb => ?_
    have hcell := h.packed rfl (wn0 + j * 8 + col) (by omega) kk hkk (k % 16 / 4 * 4 + b) (by omega)
    rw [bDst, if_pos rfl, rowByte, if_pos hn, Nat.shiftRight_eq_div_pow (kt * 64)] at hcell
    rw [show (col * 4 + k % 16 / 4) / 4 = col by omega,
      show kt * 64 / 2 ^ 1 + (kk * 16 + (k % 16 / 4 * 4 + b)) =
        (kt * 2 + kk) * 16 + (k % 16 / 4 * 4 + b) by omega] at *
    rw [← hcell]
    congr 1
    omega
  simp only [bFrag, if_true, and_three, Nat.shiftRight_eq_div_pow, Nat.reducePow, hfour]
  rw [hword, byteAt_halves p _ _ _ hk]

/-! ### The products -/

/-- The activation at position `k` of a run. -/
lemma act_column (p : I8Args F) (w4 : Bool) (m ks : ℕ) {k : ℕ} (hk : k < 32) :
    p.act w4 m (ks * 32 + column w4 k) = (p.xq (m * p.K + (ks * 32 + k))).toInt := by
  obtain ⟨hlt, hpos⟩ := (column_inverse w4).1 k hk
  rw [I8Args.act, show (ks * 32 + column w4 k) / 32 = ks by omega,
    show (ks * 32 + column w4 k) % 32 = column w4 k by omega, hpos]

/-- The zero point of the group that a run of 32 columns is part of. -/
def zeroOf (p : I8Args F) (n ks : ℕ) : ℕ := (p.sz (n * p.ng true + ks / (p.G / 32))).2

lemma weight_packed (p : I8Args F) (hG : 32 ∣ p.G) (n ks : ℕ) {j : ℕ} (hj : j < 32) :
    p.weight true n (ks * 32 + j) = p.code n (ks * 32 + j) - (zeroOf p n ks : ℤ) := by
  obtain ⟨g, hg⟩ := hG
  rw [I8Args.weight, if_pos rfl, zeroOf, hg, ← Nat.div_div_eq_div_mul,
    show (ks * 32 + j) / 32 = ks by omega, Nat.mul_div_cancel_left _ (by omega)]

lemma s8_toUInt8 (x : Int8) : s8 x.toUInt8 = x.toInt := by rw [s8, Int8.toInt8_toUInt8]

lemma s8_act (p : I8Args F) {m k : ℕ} (hm : m < p.M) :
    s8 (rowByte (fun k => (p.xq k).toUInt8) p.M p.K m k) = (p.xq (m * p.K + k)).toInt := by
  rw [rowByte, if_pos hm, s8_toUInt8]

lemma code_lt (p : I8Args F) (n k : ℕ) : p.code n k < 16 := nibbleAt_lt ..

/-- Where both operands are bytes of the tiles, the sum over the positions of a run is the one over
its columns. -/
lemma sum_positions {m n ks : ℕ} {x y : ℕ → UInt8}
    (hx : ∀ k < 32, s8 (x k) = (p.xq (m * p.K + (ks * 32 + k))).toInt)
    (hy : ∀ k < 32, s8 (y k) = p.weight w4 n (ks * 32 + column w4 k)) :
    ∑ k ∈ range 32, s8 (x k) * s8 (y k) = p.stepSum w4 m n ks := by
  rw [I8Args.stepSum, ← sum_column w4 fun j =>
    p.weight w4 n (ks * 32 + j) * p.act w4 m (ks * 32 + j)]
  refine sum_congr rfl fun k hk => ?_
  have hlt := mem_range.mp hk
  rw [hx k hlt, hy k hlt, act_column p w4 m ks hlt, mul_comm]

/-- The tensor cores add the products of 32 columns. -/
theorem i8Mma_eq {sm : ℕ → ℕ → UInt8} (h : ∀ lane < 32, Loaded t w4 p m0 n0 kt (sm lane))
    (hG : w4 = true → 32 ∣ p.G) {z : ℕ → UInt32} {wm0 wn0 kk i j lane c : ℕ}
    (hrows : wm0 + i * 16 + 16 ≤ t.bm)
    (hcols : wn0 + j * 8 + 8 ≤ t.bn) (hkk : kk < 2) (hlane : lane < 32) (hc : c < 4)
    (hm : m0 + (wm0 + i * 16 + (lane / 4 + c / 2 * 8)) < p.M)
    (hn : n0 + (wn0 + j * 8 + (lane % 4 * 2 + c % 2)) < p.N)
    (hz : w4 = true →
      zeroOf p (n0 + (wn0 + j * 8 + (lane % 4 * 2 + c % 2))) (kt * 2 + kk) < 16)
    (hzrep : w4 = true → ∀ e < 4, z ((lane % 4 * 2 + c % 2) * 4 + e) = UInt32.ofNat
      (zeroOf p (n0 + (wn0 + j * 8 + (lane % 4 * 2 + c % 2))) (kt * 2 + kk)) * 0x01010101)
    (d : Acc) :
    i8Mma d (fun lane => aFrag (sm lane) wm0 kk i lane)
      (fun lane => bFrag t w4 (sm lane) (z lane) wn0 kk j lane) lane c =
        d.add 32 (lift (p.stepSum w4 (m0 + (wm0 + i * 16 + (lane / 4 + c / 2 * 8)))
          (n0 + (wn0 + j * 8 + (lane % 4 * 2 + c % 2))) (kt * 2 + kk))) := by
  have hcol : lane % 4 * 2 + c % 2 < 8 := by omega
  have hrow : lane / 4 + c / 2 * 8 < 16 := by omega
  rw [i8Mma]
  refine congrArg (fun z => d.add 32 (lift z)) (sum_positions (fun k hk => ?_) fun k hk => ?_)
  · rw [byteAt_aFrag (h _ (by omega)) hrows hkk hrow hk, s8_act p hm]
  · cases w4 with
    | false =>
      rw [byteAt_bFrag_bytes (h _ (by omega)) _ hcols hkk hcol hk, rowByte, if_pos hn,
        I8Args.weight, if_neg (by simp), column, if_neg (by simp)]
    | true =>
      rw [byteAt_bFrag_packed (h _ (by omega)) _ hcols hkk hcol hk hn, hzrep rfl _ (by omega),
        byteAt_replicate ((hz rfl).trans (by decide)) (Nat.mod_lt k (by omega)),
        s8_sub _ (code_lt ..) _ (hz rfl), weight_packed p (hG rfl) _ _
          ((column_inverse true).1 k hk).1]

end Fragments

/-! ### The tiles of `dp4a` -/

/-- `i8_dp4a`. -/
def i8Dp4a (a b : UInt32) (c : Acc) : Acc := c.add 32 (lift (dot4 a b))

/-- `sA[r][w]`, an index of the shared memory of `i8_simt_kernel`. -/
def simtA (r w : ℕ) : ℕ := r * 9 + w

/-- `sB[r][w]`. -/
def simtB (r w : ℕ) : ℕ := 64 * 9 + (r * 9 + w)

/-- Word `q` of a `uint4`. -/
def uint4 (src : ℕ → UInt8) (a q : ℕ) : UInt32 := ofBytes fun b => src (a + (q * 4 + b))

/-- What a thread of `i8_simt_kernel` brings into shared memory. -/
def simtStage {F : Type} (w4 : Bool) (p : I8Args F) (m0 n0 kt tid : ℕ) : List (ℕ × UInt32) :=
  let k0 := kt <<< 5
  if tid < 128 then
    let r := tid >>> 1
    let h := tid &&& 1
    (List.range 4).map fun q => (simtA r (h * 4 + q), if m0 + r < p.M then
      uint4 (fun k => (p.xq k).toUInt8) ((m0 + r) * p.K + k0 + h * 16) q else 0)
  else if !w4 then
    let r := (tid - 128) >>> 1
    let h := (tid - 128) &&& 1
    (List.range 4).map fun q => (simtB r (h * 4 + q), if n0 + r < p.N then
      uint4 p.w ((n0 + r) * p.K + k0 + h * 16) q else 0)
  else if tid < 192 then
    let r := tid - 128
    let gn := n0 + r
    let words := uint4 p.w (gn * (p.K >>> 1) + (k0 >>> 1))
    let zr := UInt32.ofNat (p.sz (gn * p.ng w4 + kt / (p.G >>> 5))).2 * 0x01010101
    (List.range 4).flatMap fun q =>
      [(simtB r q, if gn < p.N then i8Unpack4Sub (words q) zr else 0),
        (simtB r (4 + q), if gn < p.N then i8Unpack4Sub (words q >>> 16) zr else 0)]
  else []

section Simt

variable {F : Type} {w4 : Bool} {p : I8Args F} {m0 n0 kt : ℕ}

/-- The words that are the rows of the activations and of the weights. -/
structure SimtLoaded (w4 : Bool) (p : I8Args F) (m0 n0 kt : ℕ) (sm : ℕ → UInt32) : Prop where
  acts : ∀ r < 64, m0 + r < p.M → ∀ k < 32, s8 (byteAt (sm (simtA r (k / 4))) (k % 4)) =
    (p.xq ((m0 + r) * p.K + (kt * 32 + k))).toInt
  weights : ∀ r < 64, n0 + r < p.N → ∀ k < 32, s8 (byteAt (sm (simtB r (k / 4))) (k % 4)) =
    p.weight w4 (n0 + r) (kt * 32 + column w4 k)

/-- The eight words of a row hold 32 columns. -/
lemma sum_dot4 {m n : ℕ} {a b : ℕ → UInt32}
    (ha : ∀ k < 32, s8 (byteAt (a (k / 4)) (k % 4)) = (p.xq (m * p.K + (kt * 32 + k))).toInt)
    (hb : ∀ k < 32, s8 (byteAt (b (k / 4)) (k % 4)) = p.weight w4 n (kt * 32 + column w4 k)) :
    ∑ w ∈ range 8, dot4 (a w) (b w) = p.stepSum w4 m n kt := by
  rw [← sum_positions ha hb, sum_range_mul _ 8 4]
  refine sum_congr rfl fun w _ => sum_congr rfl fun e he => ?_
  have hlt := mem_range.mp he
  rw [show (w * 4 + e) / 4 = w by omega, show (w * 4 + e) % 4 = e by omega]

lemma byteAt_uint4 (src : ℕ → UInt8) (a q : ℕ) {e : ℕ} (he : e < 4) :
    byteAt (uint4 src a q) e = src (a + (q * 4 + e)) := byteAt_ofBytes _ he

/-- Word `w` of the activations in row `r`. -/
def simtAct (p : I8Args F) (m0 kt r w : ℕ) : UInt32 :=
  if m0 + r < p.M then
    uint4 (fun k => (p.xq k).toUInt8) ((m0 + r) * p.K + kt * 32 + w / 4 * 16) (w % 4)
  else 0

/-- Word `w` of the weights in row `r`. -/
def simtWeight (w4 : Bool) (p : I8Args F) (n0 kt r w : ℕ) : UInt32 :=
  if n0 + r < p.N then
    if w4 then
      i8Unpack4Sub (if w / 4 = 0 then p.word (n0 + r) kt (w % 4)
        else p.word (n0 + r) kt (w % 4) >>> 16) (UInt32.ofNat (zeroOf p (n0 + r) kt) * 0x01010101)
    else uint4 p.w ((n0 + r) * p.K + kt * 32 + w / 4 * 16) (w % 4)
  else 0

/-- The four words of a thread in a row. -/
lemma uint4_words {d : ℕ → ℕ} {val : ℕ → UInt32} {h o : ℕ} {x : UInt32} {f : ℕ → UInt32}
    (hval : ∀ q < 4, f q = val (h * 4 + q)) :
    (o, x) ∈ (List.range 4).map (fun q => (d (h * 4 + q), f q)) ↔
      ∃ w, w / 4 = h ∧ o = d w ∧ x = val w := by
  simp only [List.mem_map, List.mem_range, Prod.mk.injEq]
  constructor
  · rintro ⟨q, hq, rfl, rfl⟩
    exact ⟨h * 4 + q, by omega, rfl, hval q hq⟩
  · rintro ⟨w, rfl, rfl, rfl⟩
    refine ⟨w % 4, Nat.mod_lt w (by omega), ?_, ?_⟩
    · rw [Nat.div_add_mod']
    · rw [hval _ (Nat.mod_lt w (by omega)), Nat.div_add_mod']

/-- The words of the activations, two threads to a row. -/
lemma mem_simtStage_acts {tid o : ℕ} {x : UInt32} (htid : tid < 128) :
    (o, x) ∈ simtStage w4 p m0 n0 kt tid ↔
      ∃ w, w / 4 = tid % 2 ∧ o = simtA (tid / 2) w ∧ x = simtAct p m0 kt (tid / 2) w := by
  simp only [simtStage, if_pos htid, Nat.shiftRight_eq_div_pow, Nat.shiftLeft_eq, Nat.reducePow,
    and_one]
  refine uint4_words (d := simtA (tid / 2)) fun q hq => ?_
  rw [simtAct, show (tid % 2 * 4 + q) / 4 = tid % 2 by omega,
    show (tid % 2 * 4 + q) % 4 = q by omega]

/-- The words of the 8-bit weights, two threads to a row. -/
lemma mem_simtStage_bytes {tid o : ℕ} {x : UInt32} :
    (o, x) ∈ simtStage false p m0 n0 kt (128 + tid) ↔
      ∃ w, w / 4 = tid % 2 ∧ o = simtB (tid / 2) w ∧ x = simtWeight false p n0 kt (tid / 2) w := by
  have htid : ¬128 + tid < 128 := by omega
  simp only [simtStage, if_neg htid, Nat.shiftRight_eq_div_pow, Nat.shiftLeft_eq, Nat.reducePow,
    and_one, Bool.not_false, if_true, Nat.add_sub_cancel_left]
  refine uint4_words (d := simtB (tid / 2)) fun q hq => ?_
  simp only [simtWeight, Bool.false_eq_true, if_false]
  rw [show (tid % 2 * 4 + q) / 4 = tid % 2 by omega, show (tid % 2 * 4 + q) % 4 = q by omega]

/-- The words of the packed weights, one thread to a row. -/
lemma mem_simtStage_packed {r o : ℕ} {x : UInt32} (hr : r < 64) :
    (o, x) ∈ simtStage true p m0 n0 kt (128 + r) ↔
      ∃ w < 8, o = simtB r w ∧ x = simtWeight true p n0 kt r w := by
  have hword : ∀ q, uint4 p.w ((n0 + r) * (p.K / 2) + kt * 32 / 2) q = p.word (n0 + r) kt q :=
    fun q => ofBytes_congr fun b _ => congrArg p.w (by
      rw [Nat.shiftRight_eq_div_pow, pow_one]
      omega)
  have hlow : ∀ q < 4, simtWeight true p n0 kt r q = if n0 + r < p.N then
      i8Unpack4Sub (p.word (n0 + r) kt q) (UInt32.ofNat (zeroOf p (n0 + r) kt) * 0x01010101)
      else 0 := fun q hq => by
    rw [simtWeight, if_pos rfl, Nat.div_eq_of_lt hq, if_pos rfl, Nat.mod_eq_of_lt hq]
  have hhigh : ∀ q < 4, simtWeight true p n0 kt r (4 + q) = if n0 + r < p.N then
      i8Unpack4Sub (p.word (n0 + r) kt q >>> 16)
        (UInt32.ofNat (zeroOf p (n0 + r) kt) * 0x01010101) else 0 := fun q hq => by
    rw [simtWeight, if_pos rfl, if_neg (show ¬(4 + q) / 4 = 0 by omega),
      show (4 + q) % 4 = q by omega]
  simp only [simtStage, if_neg (show ¬128 + r < 128 by omega), if_pos (show 128 + r < 192 by omega),
    Nat.shiftRight_eq_div_pow, Nat.shiftLeft_eq, Nat.reducePow, Nat.add_sub_cancel_left, hword,
    Bool.not_true, Bool.false_eq_true, if_false, List.mem_flatMap, List.mem_range, List.mem_cons,
    List.not_mem_nil, or_false, Prod.mk.injEq]
  constructor
  · rintro ⟨q, hq, ⟨rfl, rfl⟩ | ⟨rfl, rfl⟩⟩
    · exact ⟨q, by omega, rfl, (hlow q hq).symm⟩
    · exact ⟨4 + q, by omega, rfl, (hhigh q hq).symm⟩
  · rintro ⟨w, hw, rfl, rfl⟩
    rcases Nat.lt_or_ge w 4 with hlt | hge
    · exact ⟨w, hlt, .inl ⟨rfl, hlow w hlt⟩⟩
    · have hvalue := hhigh (w - 4) (by omega)
      rw [Nat.add_sub_cancel' hge] at hvalue
      exact ⟨w - 4, by omega, .inr ⟨by rw [Nat.add_sub_cancel' hge], hvalue⟩⟩

/-- A thread brings in words of the activations or of the weights. -/
lemma mem_simtStage {tid o : ℕ} {x : UInt32} (htid : tid < 256)
    (h : (o, x) ∈ simtStage w4 p m0 n0 kt tid) : ∃ r < 64, ∃ w < 8,
      (o = simtA r w ∧ x = simtAct p m0 kt r w) ∨
        (o = simtB r w ∧ x = simtWeight w4 p n0 kt r w) := by
  rcases Nat.lt_or_ge tid 128 with hlt | hge
  · obtain ⟨w, hw, hcell⟩ := (mem_simtStage_acts hlt).mp h
    exact ⟨tid / 2, by omega, w, by omega, .inl hcell⟩
  obtain ⟨r, rfl⟩ : ∃ r, tid = 128 + r := ⟨tid - 128, by omega⟩
  cases w4 with
  | false =>
    obtain ⟨w, hw, hcell⟩ := mem_simtStage_bytes.mp h
    exact ⟨r / 2, by omega, w, by omega, .inr hcell⟩
  | true =>
    rcases Nat.lt_or_ge r 64 with hr | hr
    · obtain ⟨w, hw, hcell⟩ := (mem_simtStage_packed hr).mp h
      exact ⟨r, hr, w, hw, .inr hcell⟩
    · -- the last warps bring in nothing
      simp only [simtStage, if_neg (show ¬128 + r < 128 by omega),
        if_neg (show ¬128 + r < 192 by omega), Bool.not_true, Bool.false_eq_true, if_false,
        List.not_mem_nil] at h

/-- No two threads bring different words into one cell. -/
lemma simtStage_consistent {tid tid' o : ℕ} {x y : UInt32} (htid : tid < 256) (htid' : tid' < 256)
    (hx : (o, x) ∈ simtStage w4 p m0 n0 kt tid) (hy : (o, y) ∈ simtStage w4 p m0 n0 kt tid') :
    x = y := by
  obtain ⟨r, hr, w, hw, hcell⟩ := mem_simtStage htid hx
  obtain ⟨r', hr', w', hw', hcell'⟩ := mem_simtStage htid' hy
  simp only [simtA, simtB] at hcell hcell'
  rcases hcell with ⟨ho, rfl⟩ | ⟨ho, rfl⟩ <;> rcases hcell' with ⟨ho', rfl⟩ | ⟨ho', rfl⟩
  · rw [show r = r' by omega, show w = w' by omega]
  · omega
  · omega
  · rw [show r = r' by omega, show w = w' by omega]

/-- The threads together bring in the tiles. -/
lemma simtLoaded_of_cells (hG : w4 = true → 32 ∣ p.G)
    (hz : w4 = true → ∀ n < p.N, zeroOf p n kt < 16) {sm : ℕ → UInt32}
    (h : ∀ tid < 256, ∀ cell ∈ simtStage w4 p m0 n0 kt tid, sm cell.1 = cell.2) :
    SimtLoaded w4 p m0 n0 kt sm where
  acts r hr hm k hk := by
    have hcell := h (r * 2 + k / 16) (by omega) (simtA r (k / 4), simtAct p m0 kt r (k / 4))
      ((mem_simtStage_acts (by omega)).mpr ⟨k / 4, by omega, by
        rw [show (r * 2 + k / 16) / 2 = r by omega]
        exact ⟨rfl, rfl⟩⟩)
    rw [hcell, simtAct, if_pos hm, byteAt_uint4 _ _ _ (Nat.mod_lt k (by omega)), s8_toUInt8]
    congr 2
    omega
  weights r hr hn k hk := by
    cases w4 with
    | false =>
      have hcell := h (128 + (r * 2 + k / 16)) (by omega)
        (simtB r (k / 4), simtWeight false p n0 kt r (k / 4))
        (mem_simtStage_bytes.mpr ⟨k / 4, by omega, by
          rw [show (r * 2 + k / 16) / 2 = r by omega]
          exact ⟨rfl, rfl⟩⟩)
      simp only [hcell, simtWeight, if_pos hn, Bool.false_eq_true, if_false,
        byteAt_uint4 _ _ _ (Nat.mod_lt k (by omega)), I8Args.weight, column]
      congr 2
      omega
    | true =>
      have hcell := h (128 + r) (by omega) (simtB r (k / 4), simtWeight true p n0 kt r (k / 4))
        ((mem_simtStage_packed hr).mpr ⟨k / 4, by omega, rfl, rfl⟩)
      rw [hcell, simtWeight, if_pos hn, if_pos rfl, show k / 4 / 4 = k / 16 by omega,
        show k / 4 % 4 = k % 16 / 4 by omega, byteAt_halves p _ _ _ hk,
        byteAt_replicate ((hz rfl _ hn).trans (by decide)) (Nat.mod_lt k (by omega)),
        s8_sub _ (code_lt ..) _ (hz rfl _ hn), weight_packed p (hG rfl) _ _
          ((column_inverse true).1 k hk).1]

end Simt

end VibeVoice.GemmI8
