import VibeVoice.Kernels.GemmTile

/-!
The loops of the int8 GEMMs over the columns (`gemm_i8.cu`): accumulators, groups, zero points and
scales.  What is done in floats is a parameter.

* `Grouped`: an accumulator has the sum of the open group, and a float what the closed ones give.
* `mmaRun_grouped`, `simtRun_grouped`: both kernels get there.
-/

namespace VibeVoice.GemmI8

open Finset Lanes Words
open Lanes.Acc (lift)

/-- The float arithmetic: `fmaf((float)acc, s, facc)`, and what `i8_store` writes for the cell of
row `m` and column `n`. -/
structure Floats (F β : Type) where
  zero : F
  fmaf : Acc → F → F → F
  out4 : ℕ → ℕ → F → β
  out8 : ℕ → ℕ → Acc → β

/-! ### Groups -/

section Groups

variable {F β : Type} {fl : Floats F β} {step : ℕ → ℤ} {scale : ℕ → F} {spg n : ℕ} {acc acc' : Acc}
  {facc : F}

/-- The floats of the first `m` groups. -/
def groupFold (fl : Floats F β) (step : ℕ → ℤ) (scale : ℕ → F) (spg m : ℕ) : F :=
  turns m (fun g f => fl.fmaf (lift (∑ i ∈ range spg, step (g * spg + i))) (scale g) f) fl.zero

/-- The accumulators behind `n` steps, where a group has `spg` of them, or no end if that is 0. -/
structure Grouped (fl : Floats F β) (step : ℕ → ℤ) (scale : ℕ → F) (spg n : ℕ) (acc : Acc)
    (facc : F) : Prop where
  acc : acc.Sums 32 (∑ i ∈ range (n % spg), step (n - n % spg + i)) ((n % spg : ℕ) * 520192)
  facc : facc = groupFold fl step scale spg (n / spg)

/-- The step adds its products to an accumulator. -/
def Adds (z : ℤ) (acc acc' : Acc) : Prop :=
  ∀ y Y, acc.Sums 32 y Y → acc'.Sums 32 (y + z) (Y + 520192)

lemma grouped_zero (fl : Floats F β) (step : ℕ → ℤ) (scale : ℕ → F) (spg : ℕ) :
    Grouped fl step scale spg 0 (lift 0) fl.zero where
  acc := by
    rw [Nat.zero_mod, range_zero, sum_empty, Nat.cast_zero, zero_mul]
    exact Acc.sums_lift (by rw [abs_zero]) (by decide)
  facc := by
    rw [Nat.zero_div]
    rfl

/-- A step that ends no group. -/
lemma Grouped.keep (h : Grouped fl step scale spg n acc facc) (hadd : Adds (step n) acc acc')
    (hn : (n + 1) % spg ≠ 0) : Grouped fl step scale spg (n + 1) acc' facc := by
  have hdiv : (n + 1) / spg = n / spg := Nat.succ_div_of_mod_ne_zero hn
  have hmod : (n + 1) % spg = n % spg + 1 := by
    have hnext := Nat.div_add_mod (n + 1) spg
    have hlast := Nat.div_add_mod n spg
    rw [hdiv] at hnext
    omega
  have hle := Nat.mod_le n spg
  constructor
  · refine (hadd _ _ h.acc).congr ?_ ?_
    · rw [hmod, sum_range_succ, Nat.add_sub_add_right, Nat.sub_add_cancel hle]
    · rw [hmod, Nat.cast_succ, add_mul, one_mul]
  · rw [hdiv]
    exact h.facc

/-- The step that ends a group: its sum goes into the floats. -/
lemma Grouped.flush (h : Grouped fl step scale spg n acc facc) (hadd : Adds (step n) acc acc')
    (hn : (n + 1) % spg = 0) (hsmall : spg ≤ 704) :
    Grouped fl step scale spg (n + 1) (lift 0) (fl.fmaf acc' (scale (n / spg)) facc) := by
  have hdiv : (n + 1) / spg = n / spg + 1 := Nat.succ_div_of_mod_eq_zero hn
  have hnext := Nat.div_add_mod (n + 1) spg
  have hlast := Nat.div_add_mod n spg
  rw [hdiv, hn, Nat.mul_succ] at hnext
  have hspg : spg = n % spg + 1 := by omega
  have hstart : n - n % spg = n / spg * spg := by
    rw [Nat.mul_comm]
    omega
  have hsum : ∑ i ∈ range (n % spg), step (n - n % spg + i) + step n =
      ∑ i ∈ range spg, step (n / spg * spg + i) :=
    calc ∑ i ∈ range (n % spg), step (n - n % spg + i) + step n
        = ∑ i ∈ range (n % spg + 1), step (n - n % spg + i) := by
          rw [sum_range_succ, Nat.sub_add_cancel (Nat.mod_le ..)]
      _ = ∑ i ∈ range spg, step (n / spg * spg + i) := by rw [hstart, ← hspg]
  have hacc : acc' = lift (∑ i ∈ range spg, step (n / spg * spg + i)) := by
    refine ((hadd _ _ h.acc).congr hsum rfl).eq_lift (by omega) ?_
    show _ < (2 : ℤ) ^ 31
    have hcast : ((n % spg : ℕ) : ℤ) + 1 ≤ 704 := by omega
    omega
  constructor
  · rw [hn, range_zero, sum_empty, Nat.cast_zero, zero_mul]
    exact Acc.sums_lift (by rw [abs_zero]) (by decide)
  · rw [hdiv, hacc, h.facc]
    rfl

end Groups

/-! ### The tensor-core kernel -/

/-- The registers of a warp: `acc` and `facc` by lane, `i`, `j` and `c`, the scales by lane, `j` and
`e`, and the zero points of this group and of the next one by lane and `j`. -/
structure MmaRegs (F : Type) where
  acc : ℕ → ℕ → ℕ → ℕ → Acc
  facc : ℕ → ℕ → ℕ → ℕ → F
  sc : ℕ → ℕ → ℕ → F
  zrep : ℕ → ℕ → UInt32
  znext : ℕ → ℕ → UInt32

section Mma

variable {F β : Type} (fl : Floats F β) (t : MmaTile) (w4 : Bool) (p : I8Args F) (m0 n0 warp : ℕ)

/-- `wm0`. -/
def wm0 : ℕ := warp / t.warpsN * t.wm

/-- `wn0`. -/
def wn0 : ℕ := warp % t.warpsN * t.wn

/-- `steps_per_group`. -/
def stepsPerGroup : ℕ := if w4 then p.G / 32 else 1

/-- A zero point as it is loaded, with 0 where there is none. -/
def loadZero (n g : ℕ) : UInt32 :=
  if n < p.N ∧ g < p.ng true then UInt32.ofNat (p.sz (n * p.ng true + g)).2 else 0

/-- A scale as it is loaded. -/
def loadScale (n g : ℕ) : F := if n < p.N then (p.sz (n * p.ng true + g)).1 else fl.zero

/-- The registers in front of the loop. -/
def mmaInit : MmaRegs F where
  acc _ _ _ _ := lift 0
  facc _ _ _ _ := fl.zero
  zrep _ _ := 0
  znext lane j := loadZero p (n0 + wn0 t warp + j * 8 + (lane >>> 2)) 0
  sc _ _ _ := fl.zero

/-- Where a group begins. -/
def mmaOpen (ks : ℕ) (s : MmaRegs F) : MmaRegs F :=
  let g := ks / stepsPerGroup w4 p
  { s with
    zrep := fun lane j => s.znext lane j * 0x01010101
    znext := fun lane j => loadZero p (n0 + wn0 t warp + j * 8 + (lane >>> 2)) (g + 1)
    sc := fun lane j e => loadScale fl p (n0 + wn0 t warp + j * 8 + (lane &&& 3) * 2 + e) g }

/-- The instructions of a step; `view` is what each lane finds in the stage. -/
def mmaAdd (view : ℕ → ℕ → UInt8) (kk : ℕ) (s : MmaRegs F) : MmaRegs F :=
  { s with
    acc := fun lane i j c =>
      i8Mma (s.acc lane i j c) (fun l => aFrag (view l) (wm0 t warp) kk i l)
        (fun l => bFrag t w4 (view l) (s.zrep l j) (wn0 t warp) kk j l) lane c }

/-- Where a group ends. -/
def mmaClose (s : MmaRegs F) : MmaRegs F :=
  { s with
    acc := fun _ _ _ _ => lift 0
    facc := fun lane i j c => fl.fmaf (s.acc lane i j c) (s.sc lane j (c % 2)) (s.facc lane i j c) }

/-- A step of 32 columns. -/
def mmaStep (view : ℕ → ℕ → ℕ → UInt8) (kt kk : ℕ) (s : MmaRegs F) : MmaRegs F :=
  let ks := kt * 2 + kk
  let s := if w4 ∧ ks % stepsPerGroup w4 p = 0 then mmaOpen fl t w4 p n0 warp ks s else s
  let s := mmaAdd t w4 warp (view kt) kk s
  if w4 ∧ (ks + 1) % stepsPerGroup w4 p = 0 then mmaClose fl s else s

/-- The loop of `i8_mma_kernel`: `view kt` is what the lanes find in the stage of tile `kt`. -/
def mmaRun (view : ℕ → ℕ → ℕ → UInt8) : MmaRegs F :=
  turns (p.K / 64) (fun kt s => turns 2 (mmaStep fl t w4 p n0 warp view kt) s)
    (mmaInit fl t p n0 warp)

variable {fl t w4 p n0 warp}

@[simp] lemma mmaOpen_acc (ks : ℕ) (s : MmaRegs F) : (mmaOpen fl t w4 p n0 warp ks s).acc = s.acc :=
  rfl

@[simp] lemma mmaOpen_facc (ks : ℕ) (s : MmaRegs F) :
    (mmaOpen fl t w4 p n0 warp ks s).facc = s.facc := rfl

@[simp] lemma mmaAdd_facc (view : ℕ → ℕ → UInt8) (kk : ℕ) (s : MmaRegs F) :
    (mmaAdd t w4 warp view kk s).facc = s.facc := rfl

@[simp] lemma mmaAdd_zrep (view : ℕ → ℕ → UInt8) (kk : ℕ) (s : MmaRegs F) :
    (mmaAdd t w4 warp view kk s).zrep = s.zrep := rfl

@[simp] lemma mmaAdd_znext (view : ℕ → ℕ → UInt8) (kk : ℕ) (s : MmaRegs F) :
    (mmaAdd t w4 warp view kk s).znext = s.znext := rfl

@[simp] lemma mmaAdd_sc (view : ℕ → ℕ → UInt8) (kk : ℕ) (s : MmaRegs F) :
    (mmaAdd t w4 warp view kk s).sc = s.sc := rfl

@[simp] lemma mmaClose_acc (s : MmaRegs F) (lane i j c : ℕ) :
    (mmaClose fl s).acc lane i j c = lift 0 := rfl

@[simp] lemma mmaClose_facc (s : MmaRegs F) (lane i j c : ℕ) : (mmaClose fl s).facc lane i j c =
    fl.fmaf (s.acc lane i j c) (s.sc lane j (c % 2)) (s.facc lane i j c) := rfl

@[simp] lemma mmaClose_znext (s : MmaRegs F) : (mmaClose fl s).znext = s.znext := rfl

end Mma

/-! ### What the callers admit -/

section Admitted

variable {F : Type} {w4 : Bool} {p : I8Args F} {m n k ks : ℕ}

/-- Quantized activations, codes with zero points, and groups that divide the rows. -/
structure Admitted (w4 : Bool) (p : I8Args F) : Prop where
  pos : 0 < p.K
  width : p.K % 32 = 0
  small : p.K ≤ actQuantMaxK
  groups : w4 = true → 0 < p.G ∧ 32 ∣ p.G ∧ p.G ∣ p.K
  acts : ∀ m < p.M, ∀ k < p.K, |p.act w4 m k| ≤ 127
  zeros : w4 = true → ∀ i < p.N * p.ng true, (p.sz i).2 < 16

/-- The steps of a group, and 0 where there are no groups. -/
def period (w4 : Bool) (p : I8Args F) : ℕ := if w4 then p.G / 32 else 0

namespace Admitted

/-- A row is as many groups of steps. -/
lemma steps_eq (h : Admitted w4 p) (hw : w4 = true) :
    p.K / 32 = p.ng true * (p.G / 32) ∧ 0 < p.G / 32 := by
  obtain ⟨hpos, ⟨g, hg⟩, ⟨d, hd⟩⟩ := h.groups hw
  have hgpos : 0 < g := by omega
  have hng : p.ng true = d := by
    rw [I8Args.ng, if_pos rfl, hd, Nat.mul_div_cancel_left _ hpos]
  rw [hng, hd, hg, Nat.mul_assoc, Nat.mul_div_cancel_left _ (by omega),
    Nat.mul_div_cancel_left _ (by omega), Nat.mul_comm]
  exact ⟨rfl, hgpos⟩

lemma period_le (h : Admitted w4 p) : period w4 p ≤ 704 := by
  have hsmall := h.small
  rw [actQuantMaxK] at hsmall
  rw [period]
  split_ifs with hw
  · obtain ⟨-, -, hdvd⟩ := h.groups hw
    have hle := Nat.le_of_dvd h.pos hdvd
    omega
  · omega

/-- The zero point of a group. -/
lemma zeroOf_lt (h : Admitted w4 p) (hw : w4 = true) (hn : n < p.N) (hks : ks < p.K / 32) :
    ks / (p.G / 32) < p.ng true ∧ zeroOf p n ks < 16 := by
  obtain ⟨hsteps, hpos⟩ := h.steps_eq hw
  have hg : ks / (p.G / 32) < p.ng true := by
    rw [Nat.div_lt_iff_lt_mul hpos, ← hsteps]
    exact hks
  exact ⟨hg, h.zeros hw _ (Kernels.cell_lt hn hg)⟩

/-- The products of a step are small. -/
lemma abs_stepSum_le (h : Admitted w4 p) (hm : m < p.M) (hn : n < p.N) (hks : ks < p.K / 32) :
    |p.stepSum w4 m n ks| ≤ 520192 := by
  have hweight : ∀ j < 32, |p.weight w4 n (ks * 32 + j)| ≤ 128 := fun j hj => by
    cases w4 with
    | false =>
      rw [I8Args.weight, if_neg (by simp), s8, abs_le]
      have hlow := Int8.le_toInt (p.w (n * p.K + (ks * 32 + j))).toInt8
      have hhigh := Int8.toInt_lt (p.w (n * p.K + (ks * 32 + j))).toInt8
      omega
    | true =>
      have hcode := code_lt p n (ks * 32 + j)
      have hzero := (h.zeroOf_lt rfl hn hks).2
      rw [weight_packed p (h.groups rfl).2.1 n ks hj, abs_le]
      omega
  calc |p.stepSum w4 m n ks| ≤ (32 : ℕ) * (128 * 127) := abs_sum_range_le fun j hj => by
        rw [abs_mul]
        exact mul_le_mul (hweight j hj) (h.acts m hm _ (by omega)) (abs_nonneg _) (by omega)
    _ = 520192 := rfl

/-- A step adds its sum to the accumulators. -/
lemma adds (h : Admitted w4 p) (hm : m < p.M) (hn : n < p.N) (hks : ks < p.K / 32) (acc : Acc) :
    Adds (p.stepSum w4 m n ks) acc (acc.add 32 (lift (p.stepSum w4 m n ks))) := fun _ _ hacc =>
  hacc.add (by omega) (Acc.sums_lift (h.abs_stepSum_le hm hn hks) (by decide))

end Admitted

end Admitted

/-! ### The run of a warp -/

section Run

variable {F β : Type} {fl : Floats F β} {t : MmaTile} {w4 : Bool} {p : I8Args F}
  {m0 n0 warp n g ks : ℕ} {s : MmaRegs F}

/-- The registers of an open group `g`. -/
structure Opened (fl : Floats F β) (t : MmaTile) (p : I8Args F) (n0 warp g : ℕ) (s : MmaRegs F) :
    Prop where
  zrep : ∀ lane j, s.zrep lane j =
    loadZero p (n0 + wn0 t warp + j * 8 + lane / 4) g * 0x01010101
  znext : ∀ lane j, s.znext lane j = loadZero p (n0 + wn0 t warp + j * 8 + lane / 4) (g + 1)
  sc : ∀ lane j e, s.sc lane j e =
    loadScale fl p (n0 + wn0 t warp + j * 8 + lane % 4 * 2 + e) g

/-- The row of a register. -/
def mmaRow (t : MmaTile) (m0 warp lane i c : ℕ) : ℕ :=
  m0 + (wm0 t warp + i * 16 + (lane / 4 + c / 2 * 8))

/-- The column of a register. -/
def mmaCol (t : MmaTile) (n0 warp lane j c : ℕ) : ℕ :=
  n0 + (wn0 t warp + j * 8 + (lane % 4 * 2 + c % 2))

/-- The accumulator of each cell of the output, and the floats of the groups that are closed. -/
def Accumulated (fl : Floats F β) (t : MmaTile) (w4 : Bool) (p : I8Args F) (m0 n0 warp n : ℕ)
    (s : MmaRegs F) : Prop :=
  ∀ lane < 32, ∀ i < t.mi, ∀ j < t.ni, ∀ c < 4, mmaRow t m0 warp lane i c < p.M →
    mmaCol t n0 warp lane j c < p.N →
      Grouped fl (p.stepSum w4 (mmaRow t m0 warp lane i c) (mmaCol t n0 warp lane j c))
        (fun g => (p.sz (mmaCol t n0 warp lane j c * p.ng true + g)).1) (period w4 p) n
        (s.acc lane i j c) (s.facc lane i j c)

lemma Accumulated.congr {s' : MmaRegs F} (h : Accumulated fl t w4 p m0 n0 warp n s)
    (hacc : s'.acc = s.acc) (hfacc : s'.facc = s.facc) : Accumulated fl t w4 p m0 n0 warp n s' := by
  intro lane hlane i hi j hj c hc hm hn
  rw [hacc, hfacc]
  exact h lane hlane i hi j hj c hc hm hn

/-- The registers behind `n` steps. -/
structure MmaInv (fl : Floats F β) (t : MmaTile) (w4 : Bool) (p : I8Args F) (m0 n0 warp n : ℕ)
    (s : MmaRegs F) : Prop where
  sums : Accumulated fl t w4 p m0 n0 warp n s
  next : w4 = true → n % (p.G / 32) = 0 → ∀ lane j, s.znext lane j =
    loadZero p (n0 + wn0 t warp + j * 8 + lane / 4) (n / (p.G / 32))
  opened : w4 = true → n % (p.G / 32) ≠ 0 → Opened fl t p n0 warp (n / (p.G / 32)) s

lemma mmaInv_zero : MmaInv fl t w4 p m0 n0 warp 0 (mmaInit fl t p n0 warp) where
  sums _ _ _ _ _ _ _ _ _ _ := grouped_zero ..
  next _ _ lane j := by
    simp only [mmaInit, Nat.zero_div, Nat.shiftRight_eq_div_pow, Nat.reducePow]
  opened _ h := absurd (Nat.zero_mod _) h

/-- The first part of a step opens a group, unless one is open. -/
lemma MmaInv.open (h : MmaInv fl t w4 p m0 n0 warp ks s) (hw : w4 = true) :
    Opened fl t p n0 warp (ks / (p.G / 32))
      (if w4 ∧ ks % stepsPerGroup w4 p = 0 then mmaOpen fl t w4 p n0 warp ks s else s) := by
  have hspg : stepsPerGroup w4 p = p.G / 32 := if_pos hw
  rw [hspg]
  split_ifs with hfirst
  · constructor
    · intro lane j
      exact congrArg (· * 0x01010101) (h.next hw hfirst.2 lane j)
    · intro lane j
      simp only [mmaOpen, hspg, Nat.shiftRight_eq_div_pow, Nat.reducePow]
    · intro lane j e
      simp only [mmaOpen, hspg, and_three]
  · exact h.opened hw fun hmod => hfirst ⟨hw, hmod⟩

/-- The registers of the open group, at a cell of the output. -/
lemma Opened.zrep_eq (h : Opened fl t p n0 warp (ks / (p.G / 32)) s) (had : Admitted true p)
    {lane j c : ℕ} (hn : mmaCol t n0 warp lane j c < p.N) (hks : ks < p.K / 32) {e : ℕ}
    (he : e < 4) :
    s.zrep ((lane % 4 * 2 + c % 2) * 4 + e) j =
      UInt32.ofNat (zeroOf p (mmaCol t n0 warp lane j c) ks) * 0x01010101 := by
  have hcol : n0 + wn0 t warp + j * 8 + ((lane % 4 * 2 + c % 2) * 4 + e) / 4 =
      mmaCol t n0 warp lane j c := by
    rw [mmaCol]
    omega
  rw [h.zrep, hcol, loadZero, if_pos ⟨hn, (had.zeroOf_lt rfl hn hks).1⟩]
  rfl

/-- A warp has a part of the tile. -/
lemma wm0_add_le (t : MmaTile) {warp : ℕ} (h : warp < t.warpsM * t.warpsN) :
    wm0 t warp + t.wm ≤ t.bm := by
  rw [wm0, t.wm_spec.1, ← Nat.succ_mul]
  exact Nat.mul_le_mul_right _ (Nat.div_lt_of_lt_mul (by rwa [Nat.mul_comm]))

lemma wn0_add_le (t : MmaTile) (warp : ℕ) : wn0 t warp + t.wn ≤ t.bn := by
  rw [wn0, t.wn_spec.1, ← Nat.succ_mul]
  exact Nat.mul_le_mul_right _ (Nat.mod_lt warp t.warpsN_pos)

/-- The instructions of a step add the products of its columns. -/
lemma mmaAdd_adds (had : Admitted w4 p) {view : ℕ → ℕ → UInt8} {kt kk : ℕ}
    (hview : ∀ lane < 32, Loaded t w4 p m0 n0 kt (view lane)) (hkk : kk < 2)
    (hks : kt * 2 + kk < p.K / 32) (hwarp : warp < t.warpsM * t.warpsN)
    (hopen : w4 = true → Opened fl t p n0 warp ((kt * 2 + kk) / (p.G / 32)) s) {lane i j c : ℕ}
    (hlane : lane < 32) (hi : i < t.mi) (hj : j < t.ni) (hc : c < 4)
    (hm : mmaRow t m0 warp lane i c < p.M) (hn : mmaCol t n0 warp lane j c < p.N) :
    Adds (p.stepSum w4 (mmaRow t m0 warp lane i c) (mmaCol t n0 warp lane j c) (kt * 2 + kk))
      (s.acc lane i j c) ((mmaAdd t w4 warp view kk s).acc lane i j c) := by
  have hrows : wm0 t warp + i * 16 + 16 ≤ t.bm := by
    have hle := wm0_add_le t hwarp
    have hwm := t.wm_spec.2
    omega
  have hcols : wn0 t warp + j * 8 + 8 ≤ t.bn := by
    have hle := wn0_add_le t warp
    have hwn := t.wn_spec.2.1
    omega
  have hsum := i8Mma_eq (z := fun l => s.zrep l j) hview (fun hw => (had.groups hw).2.1) hrows
    hcols hkk hlane hc hm hn (fun hw => (had.zeroOf_lt hw hn hks).2) (fun hw e he => by
      subst hw
      exact (hopen rfl).zrep_eq had hn hks he) (s.acc lane i j c)
  rw [mmaAdd]
  simp only [hsum]
  exact had.adds hm hn hks _

/-- What a step keeps. -/
lemma MmaInv.step (h : MmaInv fl t w4 p m0 n0 warp ks s) (had : Admitted w4 p)
    {view : ℕ → ℕ → ℕ → UInt8} {kt kk : ℕ} (heq : ks = kt * 2 + kk)
    (hview : ∀ lane < 32, Loaded t w4 p m0 n0 kt (view kt lane)) (hkk : kk < 2)
    (hks : ks < p.K / 32) (hwarp : warp < t.warpsM * t.warpsN) :
    MmaInv fl t w4 p m0 n0 warp (ks + 1) (mmaStep fl t w4 p n0 warp view kt kk s) := by
  subst heq
  have hopen : w4 = true → Opened fl t p n0 warp ((kt * 2 + kk) / (p.G / 32)) _ := h.open
  have hsums : Accumulated fl t w4 p m0 n0 warp (kt * 2 + kk)
      (if w4 ∧ (kt * 2 + kk) % stepsPerGroup w4 p = 0 then
        mmaOpen fl t w4 p n0 warp (kt * 2 + kk) s else s) := by
    split_ifs
    · exact h.sums.congr (mmaOpen_acc ..) (mmaOpen_facc ..)
    · exact h.sums
  simp only [mmaStep]
  generalize (if w4 ∧ (kt * 2 + kk) % stepsPerGroup w4 p = 0 then
    mmaOpen fl t w4 p n0 warp (kt * 2 + kk) s else s) = s₁ at hopen hsums ⊢
  -- the float that a lane scales with is that of the column
  have hscale : w4 = true → ∀ {lane j c}, mmaCol t n0 warp lane j c < p.N → s₁.sc lane j (c % 2) =
      (p.sz (mmaCol t n0 warp lane j c * p.ng true + (kt * 2 + kk) / (p.G / 32))).1 := by
    intro hw lane j c hn
    have hcol : n0 + wn0 t warp + j * 8 + lane % 4 * 2 + c % 2 = mmaCol t n0 warp lane j c := by
      rw [mmaCol]
      omega
    rw [(hopen hw).sc, hcol, loadScale, if_pos hn]
  split_ifs with hlast
  · obtain ⟨hw, hmod⟩ := hlast
    rw [show stepsPerGroup w4 p = p.G / 32 from if_pos hw] at hmod
    have hperiod : period w4 p = p.G / 32 := if_pos hw
    constructor
    · intro lane hlane i hi j hj c hc hm hn
      have hadd := mmaAdd_adds had hview hkk hks hwarp hopen hlane hi hj hc hm hn
      have hflush := (hsums lane hlane i hi j hj c hc hm hn).flush hadd (by rwa [hperiod])
        had.period_le
      rw [hperiod] at hflush ⊢
      rw [← hscale hw hn] at hflush
      rw [mmaClose_acc, mmaClose_facc, mmaAdd_facc, mmaAdd_sc]
      exact hflush
    · intro _ _ lane j
      rw [Nat.succ_div_of_mod_eq_zero hmod, mmaClose_znext, mmaAdd_znext]
      exact (hopen hw).znext lane j
    · exact fun _ hne => absurd hmod hne
  · have hne : (kt * 2 + kk + 1) % period w4 p ≠ 0 := by
      rw [period]
      split_ifs with hw
      · exact fun hmod => hlast ⟨hw, by rwa [show stepsPerGroup w4 p = p.G / 32 from if_pos hw]⟩
      · rw [Nat.mod_zero]
        omega
    constructor
    · intro lane hlane i hi j hj c hc hm hn
      rw [mmaAdd_facc]
      exact (hsums lane hlane i hi j hj c hc hm hn).keep
        (mmaAdd_adds had hview hkk hks hwarp hopen hlane hi hj hc hm hn) hne
    · intro hw hmod
      exact absurd (by rwa [period, if_pos hw]) hne
    · intro hw hmod
      rw [Nat.succ_div_of_mod_ne_zero hmod]
      obtain ⟨hzrep, hznext, hsc⟩ := hopen hw
      exact ⟨by rwa [mmaAdd_zrep], by rwa [mmaAdd_znext], by rwa [mmaAdd_sc]⟩

/-- The run of a warp. -/
theorem mmaRun_inv (had : Admitted w4 p) (hwidth : p.K % 64 = 0) {view : ℕ → ℕ → ℕ → UInt8}
    (hview : ∀ kt < p.K / 64, ∀ lane < 32, Loaded t w4 p m0 n0 kt (view kt lane))
    (hwarp : warp < t.warpsM * t.warpsN) :
    MmaInv fl t w4 p m0 n0 warp (p.K / 32) (mmaRun fl t w4 p n0 warp view) := by
  rw [show p.K / 32 = p.K / 64 * 2 by omega]
  refine turns_induct (fun kt s => MmaInv fl t w4 p m0 n0 warp (kt * 2) s)
    ((Nat.zero_mul 2).symm ▸ mmaInv_zero) fun kt hkt s hs => ?_
  refine (Nat.succ_mul kt 2).symm ▸ turns_induct
    (fun kk s => MmaInv fl t w4 p m0 n0 warp (kt * 2 + kk) s) hs fun kk hkk s hs => ?_
  exact hs.step had rfl (hview kt hkt) hkk (by omega) hwarp

end Run

/-! ### The dp4a kernel -/

/-- The accumulators of a thread, by `i` and `j`. -/
structure SimtRegs (F : Type) where
  acc : ℕ → ℕ → Acc
  facc : ℕ → ℕ → F

section SimtRun

variable {F β : Type} (fl : Floats F β) (w4 : Bool) (p : I8Args F) (m0 n0 tid : ℕ)

/-- The rows and columns of a thread: `ty + 16 * i` and `tx + 16 * j`. -/
def simtRow (tid i : ℕ) : ℕ := tid >>> 4 + 16 * i

def simtCol (tid j : ℕ) : ℕ := (tid &&& 15) + 16 * j

/-- The accumulators behind the instructions of a tile; `sm` is what the thread finds in shared
memory. -/
def simtAdd (sm : ℕ → UInt32) (s : SimtRegs F) (i j : ℕ) : Acc :=
  turns 8 (fun w acc =>
    i8Dp4a (sm (simtA (simtRow tid i) w)) (sm (simtB (simtCol tid j) w)) acc) (s.acc i j)

/-- A tile of 32 columns. -/
def simtStep (view : ℕ → ℕ → UInt32) (kt : ℕ) (s : SimtRegs F) : SimtRegs F :=
  let acc := simtAdd tid (view kt) s
  if w4 ∧ (kt + 1) % (p.G >>> 5) = 0 then
    ⟨fun _ _ => lift 0, fun i j => fl.fmaf (acc i j)
      (loadScale fl p (n0 + simtCol tid j) (kt / (p.G >>> 5))) (s.facc i j)⟩
  else ⟨acc, s.facc⟩

/-- The loop of `i8_simt_kernel`. -/
def simtRun (view : ℕ → ℕ → UInt32) : SimtRegs F :=
  turns (p.K >>> 5) (simtStep fl w4 p n0 tid view) ⟨fun _ _ => lift 0, fun _ _ => fl.zero⟩

variable {fl w4 p m0 n0 tid}

/-- The accumulators of the cells of the output behind `n` tiles. -/
def SimtInv (fl : Floats F β) (w4 : Bool) (p : I8Args F) (m0 n0 tid n : ℕ) (s : SimtRegs F) :
    Prop :=
  ∀ i < 4, ∀ j < 4, m0 + simtRow tid i < p.M → n0 + simtCol tid j < p.N →
    Grouped fl (p.stepSum w4 (m0 + simtRow tid i) (n0 + simtCol tid j))
      (fun g => (p.sz ((n0 + simtCol tid j) * p.ng true + g)).1) (period w4 p) n (s.acc i j)
      (s.facc i j)

lemma abs_s8_le (b : UInt8) : |s8 b| ≤ 128 := by
  have hlow := Int8.le_toInt b.toInt8
  have hhigh := Int8.toInt_lt b.toInt8
  rw [s8, abs_le]
  omega

/-- The words of a row add the products of its columns. -/
lemma simt_adds (had : Admitted w4 p) {m n kt : ℕ} (hm : m < p.M) (hkt : kt < p.K / 32)
    {a b : ℕ → UInt32}
    (ha : ∀ k < 32, s8 (byteAt (a (k / 4)) (k % 4)) = (p.xq (m * p.K + (kt * 32 + k))).toInt)
    (hb : ∀ k < 32, s8 (byteAt (b (k / 4)) (k % 4)) = p.weight w4 n (kt * 32 + column w4 k))
    (acc : Acc) :
    Adds (p.stepSum w4 m n kt) acc (turns 8 (fun w acc => i8Dp4a (a w) (b w) acc) acc) := by
  have hbyte : ∀ k < 32, |s8 (byteAt (a (k / 4)) (k % 4))| ≤ 127 := fun k hk => by
    have hlt := ((column_inverse w4).1 k hk).1
    rw [ha k hk, ← act_column p w4 m kt hk]
    exact had.acts m hm _ (by omega)
  have hdot : ∀ w < 8, |dot4 (a w) (b w)| ≤ (4 : ℕ) * (127 * 128) := fun w hw =>
    abs_sum_range_le fun e he => by
      have hword := hbyte (w * 4 + e) (by omega)
      rw [show (w * 4 + e) / 4 = w by omega, show (w * 4 + e) % 4 = e by omega] at hword
      rw [abs_mul]
      exact mul_le_mul hword (abs_s8_le _) (abs_nonneg _) (by omega)
  intro y Y hacc
  rw [← sum_dot4 ha hb]
  refine (hacc.turns (by omega) fun w hw => ⟨_, Acc.sums_lift (hdot w hw) (by norm_num),
    fun _ => rfl⟩).congr rfl ?_
  norm_num

/-- What a tile keeps. -/
lemma SimtInv.step {kt : ℕ} {s : SimtRegs F} (h : SimtInv fl w4 p m0 n0 tid kt s)
    (had : Admitted w4 p) {view : ℕ → ℕ → UInt32} (hview : SimtLoaded w4 p m0 n0 kt (view kt))
    (hkt : kt < p.K / 32) (htid : tid < 256) :
    SimtInv fl w4 p m0 n0 tid (kt + 1) (simtStep fl w4 p n0 tid view kt s) := by
  intro i hi j hj hm hn
  have hrow : simtRow tid i < 64 := by
    rw [simtRow, Nat.shiftRight_eq_div_pow]
    omega
  have hcol : simtCol tid j < 64 := by
    rw [simtCol, show tid &&& 15 = tid % 16 from Nat.and_two_pow_sub_one_eq_mod tid 4]
    omega
  have hadd : Adds (p.stepSum w4 (m0 + simtRow tid i) (n0 + simtCol tid j) kt) (s.acc i j)
      (simtAdd tid (view kt) s i j) :=
    simt_adds had hm hkt (a := fun w => view kt (simtA (simtRow tid i) w))
      (b := fun w => view kt (simtB (simtCol tid j) w)) (hview.acts _ hrow hm)
      (hview.weights _ hcol hn) (s.acc i j)
  have hspg : p.G >>> 5 = p.G / 32 := Nat.shiftRight_eq_div_pow p.G 5
  simp only [simtStep, hspg]
  generalize simtAdd tid (view kt) s = acc at hadd ⊢
  split_ifs with hlast
  · have hperiod : period w4 p = p.G / 32 := if_pos hlast.1
    have hflush := (h i hi j hj hm hn).flush hadd (by rw [hperiod]; exact hlast.2) had.period_le
    have hscale : loadScale fl p (n0 + simtCol tid j) (kt / (p.G / 32)) =
        (p.sz ((n0 + simtCol tid j) * p.ng true + kt / (p.G / 32))).1 := if_pos hn
    rw [hperiod, ← hscale] at hflush
    rw [hperiod]
    exact hflush
  · refine (h i hi j hj hm hn).keep hadd ?_
    rw [period]
    split_ifs with hw
    · exact fun hmod => hlast ⟨hw, hmod⟩
    · rw [Nat.mod_zero]
      omega

/-- The run of a thread. -/
theorem simtRun_inv (had : Admitted w4 p) {view : ℕ → ℕ → UInt32}
    (hview : ∀ kt < p.K / 32, SimtLoaded w4 p m0 n0 kt (view kt)) (htid : tid < 256) :
    SimtInv fl w4 p m0 n0 tid (p.K / 32) (simtRun fl w4 p n0 tid view) := by
  rw [simtRun, show p.K >>> 5 = p.K / 32 from Nat.shiftRight_eq_div_pow p.K 5]
  exact turns_induct (SimtInv fl w4 p m0 n0 tid) (fun _ _ _ _ _ _ => grouped_zero ..)
    fun kt hkt s hs => hs.step had (hview kt hkt) hkt htid

end SimtRun

/-! ### The output -/

section Output

variable {F β : Type} {fl : Floats F β} {w4 : Bool} {p : I8Args F} {m n : ℕ} {acc : Acc} {facc : F}

/-- What the epilogue makes of the registers of a cell. -/
def epilogue (fl : Floats F β) (w4 : Bool) (m n : ℕ) (acc : Acc) (facc : F) : β :=
  if w4 then fl.out4 m n facc else fl.out8 m n acc

/-- The cell of the exact integers: a sum over each group, or one over the row. -/
def exactCell (fl : Floats F β) (w4 : Bool) (p : I8Args F) (x : ℕ → ℕ → ℤ) (m n : ℕ) : β :=
  if w4 then
    fl.out4 m n (turns (p.K / p.G) (fun g f => fl.fmaf
      (lift (∑ k ∈ range p.G, p.weight w4 n (g * p.G + k) * x m (g * p.G + k)))
      (p.sz (n * (p.K / p.G) + g)).1 f) fl.zero)
  else fl.out8 m n (lift (∑ k ∈ range p.K, p.weight w4 n k * x m k))

lemma sum_steps (p : I8Args F) (w4 : Bool) (m n start len : ℕ) :
    ∑ i ∈ range len, p.stepSum w4 m n (start + i) = ∑ k ∈ range (len * 32),
      p.weight w4 n (start * 32 + k) * p.act w4 m (start * 32 + k) := by
  rw [sum_range_mul]
  refine sum_congr rfl fun i _ => sum_congr rfl fun j _ => ?_
  rw [show (start + i) * 32 + j = start * 32 + (i * 32 + j) by ring]

/-- The kernels hand the exact integers to the epilogue. -/
theorem epilogue_eq (had : Admitted w4 p) (h : Grouped fl (p.stepSum w4 m n)
    (fun g => (p.sz (n * p.ng true + g)).1) (period w4 p) (p.K / 32) acc facc) :
    epilogue fl w4 m n acc facc = exactCell fl w4 p (p.act w4) m n := by
  have hwidth := had.width
  cases w4 with
  | false =>
    have hsum := h.acc
    simp only [period, Bool.false_eq_true, if_false, Nat.mod_zero, Nat.sub_self] at hsum
    rw [sum_steps, Nat.zero_mul, Nat.div_mul_cancel (Nat.dvd_of_mod_eq_zero hwidth)] at hsum
    simp only [Nat.zero_add] at hsum
    have hsmall := had.small
    rw [actQuantMaxK] at hsmall
    have hacc := hsum.eq_lift (by omega) (by
      show _ < (2 : ℤ) ^ 31
      omega)
    simp only [epilogue, exactCell, Bool.false_eq_true, if_false]
    rw [hacc]
  | true =>
    obtain ⟨hsteps, hpos⟩ := had.steps_eq rfl
    obtain ⟨-, hdvd, -⟩ := had.groups rfl
    have hfacc := h.facc
    rw [period, if_pos rfl, hsteps, Nat.mul_div_cancel _ hpos, groupFold] at hfacc
    simp only [sum_steps, Nat.mul_assoc, Nat.div_mul_cancel hdvd] at hfacc
    simp only [epilogue, exactCell, if_true]
    rw [hfacc]
    rfl

/-- The cell depends on what is in its rows. -/
lemma exactCell_congr (had : Admitted w4 p) {x y : ℕ → ℕ → ℤ} (h : ∀ k < p.K, x m k = y m k) :
    exactCell fl w4 p x m n = exactCell fl w4 p y m n := by
  cases w4 with
  | false =>
    simp only [exactCell, Bool.false_eq_true, if_false]
    refine congrArg (fun z => fl.out8 m n (lift z)) (sum_congr rfl fun k hk => ?_)
    rw [h k (mem_range.mp hk)]
  | true =>
    simp only [exactCell, if_true]
    refine congrArg (fl.out4 m n) (turns_congr (fun g hg => funext fun f => ?_) _)
    refine congrArg (fun z => fl.fmaf (lift z) _ f) (sum_congr rfl fun k hk => ?_)
    obtain ⟨-, -, hdvd⟩ := had.groups rfl
    have hcol : g * p.G + k < p.K / p.G * p.G := Kernels.cell_lt hg (mem_range.mp hk)
    rw [Nat.div_mul_cancel hdvd] at hcol
    rw [h _ hcol]

end Output

end VibeVoice.GemmI8
