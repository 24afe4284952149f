import Mathlib.Data.List.ProdSigma
import VibeVoice.Kernels.GemmLoop
import VibeVoice.Lib.Pipeline

/-!
The int8 GEMMs of the GPU (`gemm_i8.cu`): the blocks of the two kernels, what they store, and the
dispatcher.

The threads of a block run in any order between the barriers, and a copy is done at any time until a
wait covers it.

* `mmaStores`, `simtStores`: everything that the blocks store.
* `i8Dispatch`, `i8PickTile`: which kernel runs, on which tiles.
* `gemm_i8_exact`: both kernels store every cell of the exact integers once.
-/

namespace VibeVoice.GemmI8

open Barrier Lanes Pipeline
open Kernels (Acts Q8Layout clamp127 cell_inj cell_lt)

/-! ### Stores -/

/-- Every cell of a matrix is stored once, and nothing else. -/
structure WrittenOnce {β : Type} (M N : ℕ) (out : ℕ → ℕ → β) (ws : List (ℕ × β)) : Prop where
  nodup : (ws.map Prod.fst).Nodup
  mem_iff : ∀ o v, (o, v) ∈ ws ↔ ∃ m < M, ∃ n < N, o = m * N + n ∧ v = out m n

section Sites

variable {ι β : Type} {M N : ℕ} {out : ℕ → ℕ → β} {sites : List ι} {row col : ι → ℕ} {val : ι → β}

/-- The stores of a loop that skips what lies outside of the matrix. -/
def storeSites (M N : ℕ) (sites : List ι) (row col : ι → ℕ) (val : ι → β) : List (ℕ × β) :=
  sites.filterMap fun s =>
    if row s < M ∧ col s < N then some (row s * N + col s, val s) else none

/-- Stores that share out the cells. -/
lemma writtenOnce_storeSites (hnodup : sites.Nodup)
    (hinj : ∀ s ∈ sites, ∀ s' ∈ sites, row s = row s' → col s = col s' → s = s')
    (hex : ∀ m < M, ∀ n < N, ∃ s ∈ sites, row s = m ∧ col s = n)
    (hval : ∀ s ∈ sites, row s < M → col s < N → val s = out (row s) (col s)) :
    WrittenOnce M N out (storeSites M N sites row col val) where
  nodup := by
    rw [List.Nodup, List.pairwise_map, storeSites, List.pairwise_filterMap]
    refine hnodup.imp_of_mem fun {s s'} hs hs' hne w hw w' hw' heq => hne ?_
    split_ifs at hw hw' with hin hin'
    simp only [Option.some.injEq] at hw hw'
    subst hw hw'
    obtain ⟨hrow, hcol⟩ := cell_inj hin.2 hin'.2 heq
    exact hinj s hs s' hs' hrow hcol
  mem_iff o v := by
    rw [storeSites, List.mem_filterMap]
    constructor
    · rintro ⟨s, hs, hstore⟩
      split_ifs at hstore with hin
      simp only [Option.some.injEq, Prod.mk.injEq] at hstore
      obtain ⟨rfl, rfl⟩ := hstore
      exact ⟨row s, hin.1, col s, hin.2, rfl, hval s hs hin.1 hin.2⟩
    · rintro ⟨m, hm, n, hn, rfl, rfl⟩
      obtain ⟨s, hs, rfl, rfl⟩ := hex m hm n hn
      exact ⟨s, hs, by rw [if_pos ⟨hm, hn⟩, hval s hs hm hn]⟩

/-- The blocks of a grid cover the matrix. -/
lemma div_lt_grid {m b : ℕ} (hb : 0 < b) (hm : m < M) : m / b < (M + b - 1) / b :=
  calc m / b < m / b + 1 := Nat.lt_succ_self _
    _ = (m + b) / b := (Nat.add_div_right m hb).symm
    _ ≤ (M + b - 1) / b := Nat.div_le_div_right (by omega)

end Sites

/-! ### The tensor-core kernel -/

section Mma

variable {F β : Type} (fl : Floats F β) (t : MmaTile) (w4 : Bool) (p : I8Args F)

/-- How a block of `i8_mma_kernel` shares its memory. -/
def mmaProgram (m0 n0 : ℕ) : Program (Fin t.threads) ℕ UInt8 :=
  ring t.stages (p.K / 64) fun kt tid => loadStage t w4 p m0 n0 kt tid

/-- What the threads may find in the stages: `view bi bj tid kt` is what thread `tid` of block
`(bi, bj)` loads in turn `kt`. -/
def MmaViews (view : ℕ → ℕ → ℕ → ℕ → ℕ → UInt8) : Prop :=
  ∀ bi bj, ∀ kt < p.K / 64, ∀ tid : Fin t.threads,
    Sees (mmaProgram t w4 p (bi * t.bm) (bj * t.bn)) (readPos t.stages kt) (kt % t.stages) tid
      (view bi bj tid kt)

/-- A turn of the loops of the epilogue, in a thread of a block. -/
@[ext]
structure MmaSite where
  bi : ℕ
  bj : ℕ
  tid : ℕ
  i : ℕ
  h : ℕ
  j : ℕ
  e : ℕ

/-- The turns of the epilogue in all threads of the grid. -/
def mmaSites : List MmaSite :=
  (List.range ((p.M + t.bm - 1) / t.bm) ×ˢ List.range ((p.N + t.bn - 1) / t.bn) ×ˢ
    List.range t.threads ×ˢ List.range t.mi ×ˢ List.range 2 ×ˢ List.range t.ni ×ˢ
      List.range 2).map fun (bi, bj, tid, i, h, j, e) => ⟨bi, bj, tid, i, h, j, e⟩

/-- `gm`. -/
def MmaSite.gm (s : MmaSite) : ℕ :=
  s.bi * t.bm + wm0 t (s.tid >>> 5) + s.i * 16 + (s.tid &&& 31) >>> 2 + s.h * 8

/-- `gn + e`. -/
def MmaSite.gn (s : MmaSite) : ℕ :=
  s.bj * t.bn + wn0 t (s.tid >>> 5) + s.j * 8 + (s.tid &&& 31 &&& 3) * 2 + s.e

/-- The stores of all blocks of `i8_mma_kernel`. -/
def mmaStores (view : ℕ → ℕ → ℕ → ℕ → ℕ → UInt8) : List (ℕ × β) :=
  storeSites p.M p.N (mmaSites t p) (MmaSite.gm t) (MmaSite.gn t) fun s =>
    let warp := s.tid >>> 5
    let lane := s.tid &&& 31
    let regs := mmaRun fl t w4 p (s.bj * t.bn) warp fun kt lane =>
      view s.bi s.bj (warp * 32 + lane) kt
    epilogue fl w4 (s.gm t) (s.gn t) (regs.acc lane s.i s.j (s.h * 2 + s.e))
      (regs.facc lane s.i s.j (s.h * 2 + s.e))

variable {fl t w4 p}

lemma mem_mmaSites {s : MmaSite} : s ∈ mmaSites t p ↔
    s.bi < (p.M + t.bm - 1) / t.bm ∧ s.bj < (p.N + t.bn - 1) / t.bn ∧ s.tid < t.threads ∧
      s.i < t.mi ∧ s.h < 2 ∧ s.j < t.ni ∧ s.e < 2 := by
  simp only [mmaSites, List.mem_map, Prod.exists, List.mem_product, List.mem_range]
  constructor
  · rintro ⟨bi, bj, tid, i, h, j, e, hbounds, rfl⟩
    exact hbounds
  · exact fun hbounds => ⟨_, _, _, _, _, _, _, hbounds, rfl⟩

lemma mmaSites_nodup : (mmaSites t p).Nodup := by
  refine List.Nodup.map (fun a b h => ?_) ?_
  · obtain ⟨bi, bj, tid, i, h, j, e⟩ := a
    obtain ⟨bi', bj', tid', i', h', j', e'⟩ := b
    simp only [MmaSite.mk.injEq] at h
    simp only [Prod.mk.injEq]
    exact h
  · exact List.nodup_range.product (List.nodup_range.product (List.nodup_range.product
      (List.nodup_range.product (List.nodup_range.product (List.nodup_range.product
        List.nodup_range)))))

lemma and_thirty_one (n : ℕ) : n &&& 31 = n % 32 := Nat.and_two_pow_sub_one_eq_mod n 5

/-- The row of a store is that of its registers. -/
lemma gm_eq {s : MmaSite} (he : s.e < 2) : s.gm t =
    mmaRow t (s.bi * t.bm) (s.tid / 32) (s.tid % 32) s.i (s.h * 2 + s.e) := by
  simp only [MmaSite.gm, mmaRow, Nat.shiftRight_eq_div_pow, Nat.reducePow, and_thirty_one]
  omega

lemma gn_eq {s : MmaSite} (he : s.e < 2) : s.gn t =
    mmaCol t (s.bj * t.bn) (s.tid / 32) (s.tid % 32) s.j (s.h * 2 + s.e) := by
  simp only [MmaSite.gn, mmaCol, Nat.shiftRight_eq_div_pow, Nat.reducePow, and_thirty_one,
    and_three]
  omega

/-- A warp is one of the grid of warps of its block. -/
lemma warp_lt {tid : ℕ} (h : tid < t.threads) : tid / 32 < t.warpsM * t.warpsN := by
  rw [MmaTile.threads] at h
  omega

/-- A coordinate is a block, a warp, a fragment and a place in it. -/
lemma parts_inj {B A W n w b b' a a' i i' r r' : ℕ} (hB : B = A * W) (hW : W = n * w) (ha : a < A)
    (ha' : a' < A) (hi : i < n) (hi' : i' < n) (hr : r < w) (hr' : r' < w)
    (h : b * B + (a * W + i * w + r) = b' * B + (a' * W + i' * w + r')) :
    b = b' ∧ a = a' ∧ i = i' ∧ r = r' := by
  have hfrag : ∀ {i r}, i < n → r < w → i * w + r < W := fun hi hr => by
    rw [hW]
    exact cell_lt hi hr
  have hpart : ∀ {a i r}, a < A → i < n → r < w → a * W + (i * w + r) < B := fun ha hi hr => by
    rw [hB]
    exact cell_lt ha (hfrag hi hr)
  rw [Nat.add_assoc (a * W), Nat.add_assoc (a' * W)] at h
  obtain ⟨hb, h⟩ := cell_inj (hpart ha hi hr) (hpart ha' hi' hr') h
  obtain ⟨ha, h⟩ := cell_inj (hfrag hi hr) (hfrag hi' hr') h
  obtain ⟨hi, hr⟩ := cell_inj hr hr' h
  exact ⟨hb, ha, hi, hr⟩

lemma mmaSites_inj {s s' : MmaSite} (hs : s ∈ mmaSites t p) (hs' : s' ∈ mmaSites t p)
    (hrow : s.gm t = s'.gm t) (hcol : s.gn t = s'.gn t) : s = s' := by
  obtain ⟨-, -, htid, hi, hh, hj, he⟩ := mem_mmaSites.mp hs
  obtain ⟨-, -, htid', hi', hh', hj', he'⟩ := mem_mmaSites.mp hs'
  have hwarp : ∀ {tid}, tid < t.threads → tid / 32 / t.warpsN < t.warpsM := fun h =>
    Nat.div_lt_of_lt_mul (by
      rw [Nat.mul_comm]
      exact warp_lt h)
  rw [gm_eq he, gm_eq he', mmaRow, mmaRow, wm0, wm0] at hrow
  rw [gn_eq he, gn_eq he', mmaCol, mmaCol, wn0, wn0] at hcol
  obtain ⟨hbi, hwarpM, hi, hr⟩ := parts_inj t.wm_spec.1 t.wm_spec.2 (hwarp htid) (hwarp htid') hi
    hi' (by omega) (by omega) hrow
  obtain ⟨hbj, hwarpN, hj, hq⟩ := parts_inj t.wn_spec.1 t.wn_spec.2.1 (Nat.mod_lt _ t.warpsN_pos)
    (Nat.mod_lt _ t.warpsN_pos) hj hj' (by omega) (by omega) hcol
  have heq : s.tid / 32 = s'.tid / 32 := by
    rw [← Nat.div_add_mod (s.tid / 32) t.warpsN, ← Nat.div_add_mod (s'.tid / 32) t.warpsN, hwarpM,
      hwarpN]
  clear hrow hcol hwarpM hwarpN hwarp
  exact MmaSite.ext hbi hbj (by omega) hi (by omega) hj (by omega)

lemma exists_mmaSite {m n : ℕ} (hm : m < p.M) (hn : n < p.N) :
    ∃ s ∈ mmaSites t p, s.gm t = m ∧ s.gn t = n := by
  obtain ⟨hbm, hwm⟩ := t.wm_spec
  obtain ⟨hbn, hwn, -⟩ := t.wn_spec
  have hwmpos : 0 < t.wm := Nat.pos_of_mul_pos_left (hbm ▸ t.bm_pos)
  have hwnpos : 0 < t.wn := Nat.pos_of_mul_pos_left (hbn ▸ t.bn_pos)
  have ha : m % t.bm / t.wm < t.warpsM := Nat.div_lt_of_lt_mul (by
    rw [Nat.mul_comm, ← hbm]
    exact Nat.mod_lt m t.bm_pos)
  have hb : n % t.bn / t.wn < t.warpsN := Nat.div_lt_of_lt_mul (by
    rw [Nat.mul_comm, ← hbn]
    exact Nat.mod_lt n t.bn_pos)
  have hi : m % t.bm % t.wm < t.mi * 16 := hwm ▸ Nat.mod_lt _ hwmpos
  have hj : n % t.bn % t.wn < t.ni * 8 := hwn ▸ Nat.mod_lt _ hwnpos
  have hwarp := cell_lt ha hb
  set r := m % t.bm % t.wm with hr
  set q := n % t.bn % t.wn with hq
  set warp := m % t.bm / t.wm * t.warpsN + n % t.bn / t.wn with hw
  have hdiv : warp / t.warpsN = m % t.bm / t.wm := by
    rw [hw, Nat.add_comm, Nat.add_mul_div_right _ _ t.warpsN_pos, Nat.div_eq_of_lt hb, Nat.zero_add]
  have hmod : warp % t.warpsN = n % t.bn / t.wn := by
    rw [hw, Nat.mul_add_mod_self_right, Nat.mod_eq_of_lt hb]
  let s : MmaSite := ⟨m / t.bm, n / t.bn, warp * 32 + (r % 8 * 4 + q % 8 / 2), r / 16, r % 16 / 8,
    q / 8, q % 2⟩
  have htid : s.tid / 32 = warp := by
    show (warp * 32 + (r % 8 * 4 + q % 8 / 2)) / 32 = warp
    omega
  have hlane : s.tid % 32 = r % 8 * 4 + q % 8 / 2 := by
    show (warp * 32 + (r % 8 * 4 + q % 8 / 2)) % 32 = _
    omega
  have he : s.e < 2 := Nat.mod_lt q (by omega)
  refine ⟨s, mem_mmaSites.mpr ⟨div_lt_grid t.bm_pos hm, div_lt_grid t.bn_pos hn, ?_, ?_, ?_, ?_,
    he⟩, ?_, ?_⟩
  · show warp * 32 + (r % 8 * 4 + q % 8 / 2) < t.warpsM * t.warpsN * 32
    omega
  · exact Nat.div_lt_of_lt_mul (by rwa [Nat.mul_comm])
  · show r % 16 / 8 < 2
    omega
  · exact Nat.div_lt_of_lt_mul (by rwa [Nat.mul_comm])
  · rw [gm_eq he, mmaRow, wm0, htid, hlane, hdiv]
    show m / t.bm * t.bm + (m % t.bm / t.wm * t.wm + r / 16 * 16 +
      ((r % 8 * 4 + q % 8 / 2) / 4 + (r % 16 / 8 * 2 + q % 2) / 2 * 8)) = m
    rw [Nat.add_assoc (m % t.bm / t.wm * t.wm), show r / 16 * 16 +
      ((r % 8 * 4 + q % 8 / 2) / 4 + (r % 16 / 8 * 2 + q % 2) / 2 * 8) = r by omega, hr,
      Nat.div_add_mod', Nat.div_add_mod']
  · rw [gn_eq he, mmaCol, wn0, htid, hlane, hmod]
    show n / t.bn * t.bn + (n % t.bn / t.wn * t.wn + q / 8 * 8 +
      ((r % 8 * 4 + q % 8 / 2) % 4 * 2 + (r % 16 / 8 * 2 + q % 2) % 2)) = n
    rw [Nat.add_assoc (n % t.bn / t.wn * t.wn), show q / 8 * 8 +
      ((r % 8 * 4 + q % 8 / 2) % 4 * 2 + (r % 16 / 8 * 2 + q % 2) % 2) = q by omega, hq,
      Nat.div_add_mod', Nat.div_add_mod']

/-- The threads of a block put the same bytes into the cells that they share. -/
lemma mma_consistent (m0 n0 kt : ℕ) :
    Consistent fun tid : Fin t.threads => loadStage t w4 p m0 n0 kt tid :=
  fun tid tid' c hc d hd heq =>
    loadStage_consistent tid.isLt tid'.isLt (o := c.1) hc (by rwa [heq])

/-- What the threads find in the stages is the tiles. -/
lemma MmaViews.loaded {view : ℕ → ℕ → ℕ → ℕ → ℕ → UInt8} (h : MmaViews t w4 p view) (bi bj : ℕ)
    {kt : ℕ} (hkt : kt < p.K / 64) {tid : ℕ} (htid : tid < t.threads) :
    Loaded t w4 p (bi * t.bm) (bj * t.bn) kt (view bi bj tid kt) :=
  loaded_of_cells fun u hu => ring_sees t.stages_le hkt (mma_consistent _ _ kt)
    (h bi bj kt hkt ⟨tid, htid⟩) ⟨u, hu⟩

/-- The tensor-core kernel stores the exact integers. -/
theorem mmaStores_writtenOnce (had : Admitted w4 p) (hwidth : p.K % 64 = 0)
    {view : ℕ → ℕ → ℕ → ℕ → ℕ → UInt8} (hview : MmaViews t w4 p view) :
    WrittenOnce p.M p.N (exactCell fl w4 p (p.act w4)) (mmaStores fl t w4 p view) := by
  refine writtenOnce_storeSites mmaSites_nodup (fun s hs s' hs' => mmaSites_inj hs hs')
    (fun m hm n hn => exists_mmaSite hm hn) fun s hs hm hn => ?_
  obtain ⟨-, -, htid, hi, hh, hj, he⟩ := mem_mmaSites.mp hs
  have hwarp := warp_lt htid
  have hlane : s.tid % 32 < 32 := Nat.mod_lt _ (by omega)
  have hloaded : ∀ kt < p.K / 64, ∀ lane < 32, Loaded t w4 p (s.bi * t.bm) (s.bj * t.bn) kt
      (view s.bi s.bj (s.tid / 32 * 32 + lane) kt) := fun kt hkt lane hlane =>
    hview.loaded _ _ hkt (by
      rw [MmaTile.threads]
      omega)
  have hrun : MmaInv fl t w4 p _ _ _ _ _ := mmaRun_inv had hwidth hloaded hwarp
  have hcell := hrun.sums _ hlane _ hi _ hj (s.h * 2 + s.e) (by omega)
  simp only [Nat.shiftRight_eq_div_pow, Nat.reducePow, and_thirty_one]
  rw [gm_eq he] at hm ⊢
  rw [gn_eq he] at hn ⊢
  exact epilogue_eq had (hcell hm hn)

end Mma

/-! ### The dp4a kernel -/

section Simt

variable {F β : Type} (fl : Floats F β) (w4 : Bool) (p : I8Args F)

/-- How a block of `i8_simt_kernel` shares its memory. -/
def simtProgram (m0 n0 : ℕ) : Program (Fin 256) ℕ UInt32 :=
  single (p.K >>> 5) fun kt tid => simtStage w4 p m0 n0 kt tid

/-- What the threads may find in the tiles. -/
def SimtViews (view : ℕ → ℕ → ℕ → ℕ → ℕ → UInt32) : Prop :=
  ∀ bi bj, ∀ kt < p.K >>> 5, ∀ tid : Fin 256,
    Sees (simtProgram w4 p (bi * 64) (bj * 64)) (4 * kt + 2) 0 tid (view bi bj tid kt)

/-- A turn of the loops of the epilogue, in a thread of a block. -/
@[ext]
structure SimtSite where
  bi : ℕ
  bj : ℕ
  tid : ℕ
  i : ℕ
  j : ℕ

/-- The turns of the epilogue in all threads of the grid. -/
def simtSites : List SimtSite :=
  (List.range ((p.M + 64 - 1) / 64) ×ˢ List.range ((p.N + 64 - 1) / 64) ×ˢ List.range 256 ×ˢ
    List.range 4 ×ˢ List.range 4).map fun (bi, bj, tid, i, j) => ⟨bi, bj, tid, i, j⟩

/-- `gm`. -/
def SimtSite.gm (s : SimtSite) : ℕ := s.bi * 64 + simtRow s.tid s.i

/-- `gn`. -/
def SimtSite.gn (s : SimtSite) : ℕ := s.bj * 64 + simtCol s.tid s.j

/-- The stores of all blocks of `i8_simt_kernel`. -/
def simtStores (view : ℕ → ℕ → ℕ → ℕ → ℕ → UInt32) : List (ℕ × β) :=
  storeSites p.M p.N (simtSites p) SimtSite.gm SimtSite.gn fun s =>
    let regs := simtRun fl w4 p (s.bj * 64) s.tid fun kt => view s.bi s.bj s.tid kt
    epilogue fl w4 s.gm s.gn (regs.acc s.i s.j) (regs.facc s.i s.j)

variable {fl w4 p}

lemma mem_simtSites {s : SimtSite} : s ∈ simtSites p ↔
    s.bi < (p.M + 64 - 1) / 64 ∧ s.bj < (p.N + 64 - 1) / 64 ∧ s.tid < 256 ∧ s.i < 4 ∧ s.j < 4 := by
  simp only [simtSites, List.mem_map, Prod.exists, List.mem_product, List.mem_range]
  constructor
  · rintro ⟨bi, bj, tid, i, j, hbounds, rfl⟩
    exact hbounds
  · exact fun hbounds => ⟨_, _, _, _, _, hbounds, rfl⟩

lemma simtSites_nodup : (simtSites p).Nodup := by
  refine List.Nodup.map (fun a b h => ?_) ?_
  · obtain ⟨bi, bj, tid, i, j⟩ := a
    obtain ⟨bi', bj', tid', i', j'⟩ := b
    simp only [SimtSite.mk.injEq] at h
    simp only [Prod.mk.injEq]
    exact h
  · exact List.nodup_range.product (List.nodup_range.product (List.nodup_range.product
      (List.nodup_range.product List.nodup_range)))

lemma simtSite_eq (s : SimtSite) : s.gm = s.bi * 64 + (s.tid / 16 + 16 * s.i) ∧
    s.gn = s.bj * 64 + (s.tid % 16 + 16 * s.j) := by
  rw [SimtSite.gm, SimtSite.gn, simtRow, simtCol, Nat.shiftRight_eq_div_pow,
    show s.tid &&& 15 = s.tid % 16 from Nat.and_two_pow_sub_one_eq_mod s.tid 4]
  exact ⟨rfl, rfl⟩

lemma simt_consistent (m0 n0 kt : ℕ) :
    Consistent fun tid : Fin 256 => simtStage w4 p m0 n0 kt tid :=
  fun tid tid' c hc d hd heq =>
    simtStage_consistent tid.isLt tid'.isLt (o := c.1) hc (by rwa [heq])

/-- What the threads find in the tiles. -/
lemma SimtViews.loaded {view : ℕ → ℕ → ℕ → ℕ → ℕ → UInt32} (h : SimtViews w4 p view)
    (had : Admitted w4 p) (bi bj : ℕ) {kt : ℕ} (hkt : kt < p.K / 32) {tid : ℕ} (htid : tid < 256) :
    SimtLoaded w4 p (bi * 64) (bj * 64) kt (view bi bj tid kt) := by
  have hturn : kt < p.K >>> 5 := by rwa [Nat.shiftRight_eq_div_pow]
  exact simtLoaded_of_cells (fun hw => (had.groups hw).2.1)
    (fun hw n hn => (had.zeroOf_lt hw hn hkt).2) fun u hu =>
      single_sees hturn (simt_consistent _ _ kt) (h bi bj kt hturn ⟨tid, htid⟩) ⟨u, hu⟩

/-- The dp4a kernel stores the exact integers. -/
theorem simtStores_writtenOnce (had : Admitted w4 p) {view : ℕ → ℕ → ℕ → ℕ → ℕ → UInt32}
    (hview : SimtViews w4 p view) :
    WrittenOnce p.M p.N (exactCell fl w4 p (p.act w4)) (simtStores fl w4 p view) := by
  refine writtenOnce_storeSites simtSites_nodup (fun s hs s' hs' hrow hcol => ?_)
    (fun m hm n hn => ?_) fun s hs hm hn => ?_
  · obtain ⟨-, -, htid, hi, hj⟩ := mem_simtSites.mp hs
    obtain ⟨-, -, htid', hi', hj'⟩ := mem_simtSites.mp hs'
    rw [(simtSite_eq s).1, (simtSite_eq s').1] at hrow
    rw [(simtSite_eq s).2, (simtSite_eq s').2] at hcol
    exact SimtSite.ext (by omega) (by omega) (by omega) (by omega) (by omega)
  · refine ⟨⟨m / 64, n / 64, m % 16 * 16 + n % 16, m % 64 / 16, n % 64 / 16⟩, mem_simtSites.mpr
      ⟨div_lt_grid (by omega) hm, div_lt_grid (by omega) hn, ?_, ?_, ?_⟩, ?_, ?_⟩
    · show m % 16 * 16 + n % 16 < 256
      omega
    · show m % 64 / 16 < 4
      omega
    · show n % 64 / 16 < 4
      omega
    · rw [(simtSite_eq _).1]
      dsimp only
      omega
    · rw [(simtSite_eq _).2]
      dsimp only
      omega
  · obtain ⟨-, -, htid, hi, hj⟩ := mem_simtSites.mp hs
    have hrun : SimtInv fl w4 p _ _ _ _ _ :=
      simtRun_inv had (fun kt hkt => hview.loaded had s.bi s.bj hkt htid) htid
    exact epilogue_eq had (hrun _ hi _ hj hm hn)

end Simt

/-! ### The dispatcher -/

/-- `I8_TILE_128x128` and the others. -/
inductive I8Tile
  | tile128x128 | tile64x128 | tile32x64 | tile128x128S3
  deriving DecidableEq

/-- The parameters that `i8_dispatch` gives to `i8_mma_launch`. -/
def I8Tile.shape : I8Tile → MmaTile
  | tile128x128 => ⟨128, 128, 2, 4, 4, by decide, by decide, by decide, by decide, by decide,
      by decide, by decide⟩
  | tile64x128 => ⟨64, 128, 2, 4, 4, by decide, by decide, by decide, by decide, by decide,
      by decide, by decide⟩
  | tile32x64 => ⟨32, 64, 2, 2, 4, by decide, by decide, by decide, by decide, by decide,
      by decide, by decide⟩
  | tile128x128S3 => ⟨128, 128, 2, 4, 3, by decide, by decide, by decide, by decide, by decide,
      by decide, by decide⟩

/-- `i8_pick_tile`; `forced` is what `VV_I8_TILE` names. -/
def i8PickTile (forced : Option I8Tile) (M N sms : ℕ) (w4 : Bool) : I8Tile :=
  match forced with
  | some tile => tile
  | none =>
    let nsm := if 0 < sms then sms else 80
    let t128 := (M + 127) / 128 * ((N + 127) / 128)
    let t64 := (M + 63) / 64 * ((N + 127) / 128)
    if w4 then if nsm ≤ 2 * t128 then .tile128x128 else .tile32x64
    else if nsm ≤ t128 then .tile128x128S3
    else if nsm ≤ t64 then .tile64x128
    else .tile32x64

/-- `vv_i8_path_t`, and any other number. -/
inductive I8Path
  | auto | gemv | mma | simt | other
  deriving DecidableEq

/-- The kernel that is launched. -/
inductive Launch
  | gemv
  | mma (tile : I8Tile)
  | simt

section Dispatch

variable {F : Type} (forced : Option I8Tile) (usable : Bool) (sms : ℕ)

/-- The path that `VV_I8_PATH_AUTO` stands for. -/
def i8AutoPath (p : I8Args F) (w4 : Bool) (path : I8Path) : I8Path :=
  if path = .auto then
    if (if w4 then p.xLayout = .w4Gemv else p.M ≤ 8) then .gemv
    else if usable ∧ p.K % 64 = 0 then .mma
    else .simt
  else path

/-- `i8_dispatch`; `usable` and `sms` are what `i8_mma_usable` says about the device. -/
def i8Dispatch (p : I8Args F) (w4 : Bool) (path : I8Path) : Except Status Launch :=
  if p.M = 0 ∨ p.N = 0 ∨ p.K = 0 then .error .invalidArg
  else if p.K &&& 31 ≠ 0 then .error .unsupported
  else if w4 ∧ (p.G = 0 ∨ p.G &&& 31 ≠ 0 ∨ p.K % p.G ≠ 0) then .error .unsupported
  else
    match i8AutoPath usable p w4 path with
    | .gemv => .ok .gemv
    | .mma =>
      if p.xLayout ≠ gemmLayout w4 then .error .unsupported
      else if !usable ∨ p.K % 64 ≠ 0 then .error .unsupported
      else .ok (.mma (i8PickTile forced p.M p.N sms w4))
    | .simt => if p.xLayout ≠ gemmLayout w4 then .error .unsupported else .ok .simt
    | .auto | .other => .error .invalidArg

variable {forced usable sms} {p : I8Args F} {w4 : Bool} {path : I8Path}

/-- A GEMM runs only on the layout that it reads, and the tensor cores on whole stages. -/
lemma i8Dispatch_ok {l : Launch} (h : i8Dispatch forced usable sms p w4 path = .ok l) :
    (p.xLayout ≠ gemmLayout w4 → l = .gemv) ∧ ∀ tile, l = .mma tile → p.K % 64 = 0 := by
  rw [i8Dispatch] at h
  generalize i8AutoPath usable p w4 path = path at h
  cases path with
  | auto | other =>
    dsimp only at h
    split_ifs at h
  | gemv =>
    dsimp only at h
    split_ifs at h
    obtain rfl := Except.ok.inj h
    exact ⟨fun _ => rfl, fun tile h => by simp at h⟩
  | mma =>
    dsimp only at h
    split_ifs at h with _ _ _ hlayout hwidth
    obtain rfl := Except.ok.inj h
    exact ⟨fun hne => absurd hne hlayout, fun _ _ => by
      push Not at hwidth
      exact hwidth.2⟩
  | simt =>
    dsimp only at h
    split_ifs at h with _ _ _ hlayout
    obtain rfl := Except.ok.inj h
    exact ⟨fun hne => absurd hne hlayout, fun tile h => by simp at h⟩

/-- And a layout that it does not read is refused. -/
lemma i8Dispatch_refuses (hpos : 0 < p.M ∧ 0 < p.N ∧ 0 < p.K) (hwidth : p.K % 32 = 0)
    (hG : w4 = true → 0 < p.G ∧ 32 ∣ p.G ∧ p.G ∣ p.K) (hlayout : p.xLayout ≠ gemmLayout w4)
    (hpath : path = .mma ∨ path = .simt) :
    i8Dispatch forced usable sms p w4 path = .error .unsupported := by
  rw [i8Dispatch, if_neg (by omega), and_thirty_one, if_neg (by omega), if_neg]
  · rcases hpath with rfl | rfl <;> simp [i8AutoPath, hlayout]
  · rintro ⟨hw, hbad⟩
    obtain ⟨hGpos, hG32, hGK⟩ := hG hw
    rw [and_thirty_one] at hbad
    have hmod := Nat.mod_eq_zero_of_dvd hGK
    omega

end Dispatch

/-! ### Both kernels -/

section Exact

variable {F β : Type} {w4 : Bool} {p : I8Args F}

/-- No stage is read before the copies into it are done, nor overwritten before every thread has
read it. -/
def StagesKept (t : MmaTile) (w4 : Bool) (p : I8Args F) : Prop :=
  ∀ m0 n0 s, Reachable (mmaProgram t w4 p m0 n0) s → ∀ kt < p.K / 64,
    (∀ tid, s.pos tid = readPos t.stages kt →
      (∀ u q, s.flying u q → ¬IsWrite (mmaProgram t w4 p m0 n0) q (kt % t.stages)) ∧
        ∀ u : Fin t.threads, ∀ c ∈ loadStage t w4 p m0 n0 kt u, s.mem (kt % t.stages) c.1 = c.2) ∧
    ∀ next, kt < next → next < t.stages - 1 + p.K / 64 → next % t.stages = kt % t.stages →
      ∀ u, fetchPos t.stages next ≤ s.pos u → ∀ tid, readPos t.stages kt < s.pos tid

/-- The same of the tiles of `i8_simt_kernel`. -/
def TilesKept (w4 : Bool) (p : I8Args F) : Prop :=
  ∀ m0 n0 s, Reachable (simtProgram w4 p m0 n0) s → ∀ kt < p.K >>> 5,
    (∀ tid, s.pos tid = 4 * kt + 2 →
      ∀ u : Fin 256, ∀ c ∈ simtStage w4 p m0 n0 kt u, s.mem 0 c.1 = c.2) ∧
    ∀ next, kt < next → next < p.K >>> 5 → ∀ u, 4 * next ≤ s.pos u →
      ∀ tid, 4 * kt + 2 < s.pos tid

lemma stagesKept (t : MmaTile) (w4 : Bool) (p : I8Args F) : StagesKept t w4 p :=
  fun m0 n0 _ hs kt hkt => ⟨fun _ ht => ring_read t.stages_le hkt (mma_consistent m0 n0 kt) hs ht,
    fun _ hlt hnext hslot _ hu => ring_write_waits t.stages_le hkt hnext hlt hslot hs hu⟩

lemma tilesKept (w4 : Bool) (p : I8Args F) : TilesKept w4 p :=
  fun m0 n0 _ hs kt hkt => ⟨fun _ ht => single_read hkt (simt_consistent m0 n0 kt) hs ht,
    fun _ hlt hnext _ hu => single_write_waits hkt hnext hlt hs hu⟩

/-- Rows as the quantizer leaves them are admitted. -/
lemma admitted_of_quantized {v : ℕ → ℤ} {xq₀ : Acts} {xsum xsum' : Option (ℕ → Acc)}
    (hq : actQuantDev (gemmLayout w4) v p.M p.K xq₀ xsum = .ok (p.xq, xsum'))
    (hG : w4 = true → 0 < p.G ∧ 32 ∣ p.G ∧ p.G ∣ p.K)
    (hz : w4 = true → ∀ i < p.N * p.ng true, (p.sz i).2 < 16) :
    Admitted w4 p ∧ ∀ m < p.M, ∀ k < p.K, p.act w4 m k = clamp127 (v (m * p.K + k)) := by
  obtain ⟨⟨-, hK, hwidth, hsmall⟩, hcells, -⟩ := quantized_actQuantDev hq
  refine ⟨⟨hK, hwidth, hsmall, hG, fun m hm k hk => ?_, hz⟩, hcells⟩
  rw [show p.act w4 m k = clamp127 (v (m * p.K + k)) from hcells m hm k hk]
  exact Kernels.abs_clamp127_le _

lemma WrittenOnce.congr {M N : ℕ} {out out' : ℕ → ℕ → β} {ws : List (ℕ × β)}
    (h : WrittenOnce M N out ws) (heq : ∀ m < M, ∀ n, out m n = out' m n) :
    WrittenOnce M N out' ws where
  nodup := h.nodup
  mem_iff o v := by
    rw [h.mem_iff]
    exact exists_congr fun m => and_congr_right fun hm => by simp only [heq m hm]

/-- On activations of the layout that they read, both kernels keep their stages and store every cell
of the exact integers once, whatever the tiles and the order of the threads; another layout is
refused. -/
theorem gemm_i8_exact (fl : Floats F β) (w4 : Bool) (p : I8Args F) (v : ℕ → ℤ) {xq₀ : Acts}
    {xsum xsum' : Option (ℕ → Acc)}
    (hq : actQuantDev p.xLayout v p.M p.K xq₀ xsum = .ok (p.xq, xsum')) (hN : 0 < p.N)
    (hG : w4 = true → 0 < p.G ∧ 32 ∣ p.G ∧ p.G ∣ p.K)
    (hz : w4 = true → ∀ i < p.N * p.ng true, (p.sz i).2 < 16) :
    let x := fun m k => clamp127 (v (m * p.K + k))
    (p.xLayout = gemmLayout w4 →
      (∀ tile : I8Tile, p.K % 64 = 0 → StagesKept tile.shape w4 p ∧
        ∀ view, MmaViews tile.shape w4 p view →
          WrittenOnce p.M p.N (exactCell fl w4 p x) (mmaStores fl tile.shape w4 p view)) ∧
      TilesKept w4 p ∧ ∀ view, SimtViews w4 p view →
        WrittenOnce p.M p.N (exactCell fl w4 p x) (simtStores fl w4 p view)) ∧
    ∀ forced usable sms path,
      (p.xLayout ≠ gemmLayout w4 → path = .mma ∨ path = .simt →
        i8Dispatch forced usable sms p w4 path = .error .unsupported) ∧
      ∀ l, i8Dispatch forced usable sms p w4 path = .ok l →
        (p.xLayout ≠ gemmLayout w4 → l = .gemv) ∧ ∀ tile, l = .mma tile → p.K % 64 = 0 := by
  intro x
  refine ⟨fun hlayout => ?_, fun forced usable sms path => ⟨fun hne hpath => ?_, fun l h => ?_⟩⟩
  · obtain ⟨had, hact⟩ := admitted_of_quantized (hlayout ▸ hq) hG hz
    have hcell : ∀ m < p.M, ∀ n, exactCell fl w4 p (p.act w4) m n = exactCell fl w4 p x m n :=
      fun m hm n => exactCell_congr had (hact m hm)
    exact ⟨fun tile hwidth => ⟨stagesKept _ w4 p, fun view hview =>
        (mmaStores_writtenOnce had hwidth hview).congr hcell⟩, tilesKept w4 p,
      fun view hview => (simtStores_writtenOnce had hview).congr hcell⟩
  · obtain ⟨⟨hM, hK, hwidth, -⟩, -⟩ := quantized_actQuantDev hq
    exact i8Dispatch_refuses ⟨hM, hN, hK⟩ hwidth hG hne hpath
  · exact i8Dispatch_ok h

/-- There are runs in which the threads find the tiles. -/
lemma exists_mmaViews (t : MmaTile) (w4 : Bool) (p : I8Args F) : ∃ view, MmaViews t w4 p view := by
  have hview : ∀ bi bj kt, ∃ f : ℕ → UInt8, kt < p.K / 64 → ∀ tid : Fin t.threads,
      Sees (mmaProgram t w4 p (bi * t.bm) (bj * t.bn)) (readPos t.stages kt) (kt % t.stages) tid
        f := by
    intro bi bj kt
    by_cases hkt : kt < p.K / 64
    · obtain ⟨f, hf⟩ : ∃ f, ∀ tid, Sees (mmaProgram t w4 p (bi * t.bm) (bj * t.bn))
          (readPos t.stages kt) (kt % t.stages) tid f := exists_ring_sees (fun _ _ => 0) hkt
      exact ⟨f, fun _ => hf⟩
    · exact ⟨fun _ => 0, fun h => absurd h hkt⟩
  choose f hf using hview
  exact ⟨fun bi bj _ kt => f bi bj kt, fun bi bj kt hkt tid => hf bi bj kt hkt tid⟩

lemma exists_simtViews (w4 : Bool) (p : I8Args F) : ∃ view, SimtViews w4 p view := by
  have hview : ∀ bi bj kt, ∃ f : ℕ → UInt32, kt < p.K >>> 5 → ∀ tid : Fin 256,
      Sees (simtProgram w4 p (bi * 64) (bj * 64)) (4 * kt + 2) 0 tid f := by
    intro bi bj kt
    by_cases hkt : kt < p.K >>> 5
    · obtain ⟨f, hf⟩ : ∃ f, ∀ tid, Sees (simtProgram w4 p (bi * 64) (bj * 64)) (4 * kt + 2) 0 tid
          f := exists_single_sees (fun _ _ => 0) hkt
      exact ⟨f, fun _ => hf⟩
    · exact ⟨fun _ => 0, fun h => absurd h hkt⟩
  choose f hf using hview
  exact ⟨fun bi bj _ kt => f bi bj kt, fun bi bj kt hkt tid => hf bi bj kt hkt tid⟩

/-- Sums of integers in the place of floats. -/
def sumFloats : Floats ℤ ℤ where
  zero := 0
  fmaf acc s f := acc.val * s + f
  out4 _ _ f := f
  out8 _ _ acc := acc.val

/-- Two groups of 32 columns, of codes 1 and 2 with the zero point 1; the activations are 0 to 63. -/
theorem gemm_i8_exact_two_groups : ∃ p : I8Args ℤ, p.M = 1 ∧ p.N = 1 ∧ p.K = 64 ∧
    (∃ view, MmaViews I8Tile.tile32x64.shape true p view ∧
      (0, 1136) ∈ mmaStores sumFloats I8Tile.tile32x64.shape true p view) ∧
    ∃ view, SimtViews true p view ∧ (0, 1136) ∈ simtStores sumFloats true p view := by
  obtain ⟨⟨xq, xsum⟩, hq⟩ : ∃ r, actQuantDev .w4Mma (fun k => k) 1 64 (fun _ => 0) none = .ok r :=
    ⟨_, rfl⟩
  let p : I8Args ℤ := ⟨xq, fun _ => 0x21, fun _ => (1, 1), .w4Mma, 1, 1, 64, 32⟩
  have hcell : exactCell sumFloats true
      ⟨fun _ => 0, fun _ => 0x21, fun _ => (1, 1), .w4Mma, 1, 1, 64, 32⟩
      (fun m k => clamp127 (m * 64 + k : ℕ)) 0 0 = 1136 := by
    decide +kernel
  obtain ⟨hmma, -, hsimt⟩ := (gemm_i8_exact sumFloats true p (fun k => k) hq Nat.one_pos
    (fun _ => ⟨by show 0 < 32; omega, ⟨1, rfl⟩, ⟨2, rfl⟩⟩) fun _ i _ => by show 1 < 16; omega).1 rfl
  obtain ⟨view, hview⟩ := exists_mmaViews I8Tile.tile32x64.shape true p
  obtain ⟨view', hview'⟩ := exists_simtViews true p
  refine ⟨p, rfl, rfl, rfl, ⟨view, hview, ?_⟩, view', hview', ?_⟩
  · exact (((hmma .tile32x64 (Nat.mod_self 64)).2 view hview).mem_iff 0 1136).mpr
      ⟨0, Nat.one_pos, 0, Nat.one_pos, rfl, hcell.symm⟩
  · exact ((hsimt view' hview').mem_iff 0 1136).mpr
      ⟨0, Nat.one_pos, 0, Nat.one_pos, rfl, hcell.symm⟩

end Exact

end VibeVoice.GemmI8
