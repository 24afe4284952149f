import VibeVoice.Model.CompressedBounds
import VibeVoice.Model.LoadRoutines

/-!
The safetensors loader stays inside of the tensors it reads and the buffers it writes, where no
byte count wraps.

* `safe_loadF16`, `safe_loadF32`, `safe_loadRaw`: whole tensors.
* `safe_loadProjection`: the projections, whatever form the file holds them in.
* `safe_i8LayerSt`: the layers of the int8 encoder.
* `load_iff`: a load of any model stays inside, and `check_bytes` is exact, exactly where no tensor
  of the header wraps.
-/

namespace VibeVoice.Loader

open Safetensors Fault

/-! ### Buffers and whole tensors -/

section Whole

variable {W : World} {L : Loading} {e : Entry} {n : ℕ}

lemma safe_readSpan {lo hi : ℕ} (h : hi ≤ e.data.length) :
    Safe (readSpan e lo hi) fun _ => True :=
  Safe.within fun _ => h

lemma safe_writeSpan {cap lo hi : ℕ} (h : hi ≤ cap) :
    Safe (writeSpan cap lo hi) fun _ => True :=
  Safe.within fun _ => h

lemma allocates_ne {heap : Heap} {size : ℤ} (h : heap.allocates size) : size % 2 ^ 64 ≠ 0 := by
  rw [Heap.allocates, Bool.and_eq_true, decide_eq_true_eq] at h
  exact h.1

lemma blockSize_natCast (h : n + 8 < 2 ^ 64) : blockSize n = n := by
  have hmod : ((n : ℤ) % 2 ^ 64).toNat = n := by omega
  rw [blockSize, hmod, Nat.mod_eq_of_lt h]
  omega

/-- A block is as large as has been asked for. -/
lemma safe_alloc {size : ℤ} (hsize : size = n) (h : n + 8 < 2 ^ 64) :
    Safe (alloc W size) fun cap => cap = n := by
  subst hsize
  exact Safe.check.bind fun _ _ => Safe.pure (blockSize_natCast h)

lemma safe_allocIf {wanted : Bool} {size : ℤ} (hsize : size = n) (h : n + 8 < 2 ^ 64) :
    Safe (allocIf W wanted size) fun cap => cap = if wanted then n else 0 := by
  cases wanted with
  | false => exact Safe.pure rfl
  | true => exact safe_alloc hsize h

lemma Entry.Holds.count (h : e.Holds n) : Loader.count e = n := by
  have hmod := toUInt64_toNat_modEq (Loader.numelOf e.info)
  have hlt := (Loader.numelOf e.info).toUInt64.toNat_lt
  have hn := h.lt
  rw [h.numelOf, Int.ModEq] at hmod
  rw [Loader.count]
  omega

/-- The blocks of a conversion are inside of what they convert. -/
lemma safe_convert (h : e.Holds n) {m size cap : ℕ} (hm : m ≤ n) (hcap : cap = m * size) :
    Safe (convert e m size cap) fun _ => True := by
  have hle : converted m ≤ m := min_le_right _ _
  refine (safe_readSpan ?_).bind fun _ _ => safe_writeSpan ?_
  · rw [h.length]
    exact Nat.mul_le_mul_right _ (hle.trans hm)
  · rw [hcap]
    exact Nat.mul_le_mul_right _ hle

lemma safe_loadF16 (h : e.Holds n) : Safe (loadF16 W e) fun _ => True := by
  have hlt := h.lt
  refine Safe.check.bind fun _ _ => ?_
  rw [h.count]
  exact (safe_alloc (n := n * 2) (by push_cast; rfl) (by omega)).bind fun _ hcap =>
    safe_convert h le_rfl hcap

lemma safe_loadF32 (hw : ¬Wraps e.info) : Safe (loadF32 W e) fun _ => True := by
  refine Safe.check.bind fun _ _ => (Safe.settled fun _ h => h).bind fun _ hbytes => ?_
  obtain ⟨n, h⟩ := holds_of_checkBytes hbytes hw
  have hlt := h.lt
  rw [h.count]
  exact (safe_alloc (n := n * 4) (by push_cast; rfl) (by omega)).bind fun _ hcap =>
    safe_convert h le_rfl hcap

lemma safe_loadRaw (hw : ¬Wraps e.info) :
    Safe (loadRaw W e) fun bytes => bytes = e.data.length ∧ ∃ n, e.Holds n := by
  have hlt := e.fits
  have hsized := e.sized
  refine (Safe.settled fun _ h => h).bind fun _ hbytes =>
    (safe_alloc (n := max e.info.dataSize.toNat 1) (by push_cast; rfl) (by omega)).bind
      fun cap hcap => (safe_readSpan hsized.ge).bind fun _ _ =>
        (safe_writeSpan (hcap ▸ le_max_left _ _)).bind fun _ _ => Safe.pure ?_
  exact ⟨hsized.symm, holds_of_checkBytes hbytes hw⟩

lemma safe_need {name : List UInt8} {st : Status} :
    Safe (need L name st) fun e => L.find name = some e := by
  rw [need]
  cases hfind : L.find name with
  | none => exact Safe.throw
  | some e => exact Safe.pure rfl

variable {name : List UInt8} {d0 d1 : ℤ} (hL : L.NoWrap)

include hL

lemma safe_needF16 : Safe (needF16 W L name d0 d1) fun _ =>
    ∃ e, L.find name = some e ∧ checkShape e d0 d1 = .ok () := by
  refine safe_need.bind fun e hfind => (Safe.settled fun _ h => h).bind fun _ hshape => ?_
  obtain ⟨n, h⟩ := holds_of_checkBytes (checkShape_ok hshape).2 (hL.find hfind)
  exact (safe_loadF16 h).mono fun _ _ => ⟨e, hfind, hshape⟩

lemma safe_needNorm : Safe (needNorm W L name d0) fun _ => True := by
  refine Safe.ite (fun _ => ?_) fun _ => (safe_needF16 hL).mono fun _ _ => trivial
  exact safe_need.bind fun e hfind => (Safe.settled fun _ _ => trivial).bind fun _ _ =>
    safe_loadF32 (hL.find hfind)

end Whole

/-! ### NF4 -/

section Nf4

variable {W : World} {L : Loading} {e : Entry} {nBlocks : ℕ}

/-- A number of codes a scale of a scale stands for. -/
structure NestedSize (nBlocks size : ℕ) : Prop where
  le : size ≤ max 256 nBlocks
  pos : 0 < nBlocks → 0 < size

lemma nestedSize_default : NestedSize nBlocks 256 := ⟨le_max_left _ _, fun _ => by decide⟩

lemma safe_readQuantState : Safe (readQuantState W e nBlocks) (NestedSize nBlocks) := by
  refine Safe.ite (fun _ => ?_) fun _ => Safe.pure nestedSize_default
  have hlt := e.fits
  have hcap : blockSize ((e.data.length : ℤ) + 1) = e.data.length + 1 := by
    rw [← Nat.cast_succ]
    exact blockSize_natCast (by omega)
  refine (safe_readSpan le_rfl).bind fun _ _ => (safe_writeSpan hcap.ge).bind fun _ _ =>
    (safe_writeSpan (by split_ifs <;> decide)).bind fun _ _ => Safe.pure ?_
  cases hblock : (W.quantState e).bind QuantState.nestedBlock with
  | none => exact nestedSize_default
  | some v =>
    obtain ⟨state, -, hv⟩ := Option.bind_eq_some_iff.mp hblock
    exact ⟨(min_le_right _ _).trans (le_max_right _ _),
      fun hpos => Nat.lt_min.mpr ⟨state.nestedBlock_pos v hv, hpos⟩⟩

lemma safe_nestedBlock {wname : List UInt8} :
    Safe (nestedBlock W L wname nBlocks) (NestedSize nBlocks) := by
  rw [nestedBlock]
  cases L.find (wname ++ literal ".quant_state.bitsandbytes__nf4") with
  | none => exact Safe.pure nestedSize_default
  | some e => exact safe_readQuantState

variable (hL : L.NoWrap)

include hL

/-- Codes of one byte, with a scale for every so many of them. -/
lemma safe_doubleQuant {wname : List UInt8} (h : e.data.length = nBlocks)
    (hn : nBlocks < 2 ^ 60) {cap : ℕ} (hcap : cap = nBlocks * 2) :
    Safe (doubleQuant W L wname e nBlocks cap) fun _ => True := by
  refine safe_need.bind fun en hfind => Safe.check.bind fun _ hcheck =>
    Safe.check.bind fun _ hcount => ?_
  obtain ⟨m, hm⟩ := holds_of_checkBytes (bytesOk_iff.mp hcheck.2) (hL.find hfind)
  have hlen : en.data.length = m * 4 := by
    rw [hm.length, hcheck.1]
    rfl
  simp only [hm.numelOf, Int.toNat_natCast] at hcount ⊢
  refine safe_nestedBlock.bind fun size hsize => ?_
  have hpos := hsize.pos (by omega)
  have hle := hsize.le
  refine (Safe.within hpos.ne').bind fun _ _ => Safe.check.bind fun _ hscales =>
    Safe.forM fun i hi => ?_
  have hi := List.mem_range.mp hi
  rw [Nat.mod_eq_of_lt (by omega)] at hscales
  have hscale : i / size + 1 ≤ m :=
    calc i / size + 1 = (i + size) / size := (Nat.add_div_right i hpos).symm
      _ ≤ (nBlocks + size - 1) / size := Nat.div_le_div_right (by omega)
      _ ≤ m := hscales
  exact (safe_readSpan (by omega)).bind fun _ _ => (safe_readSpan (by omega)).bind fun _ _ =>
    safe_writeSpan (by omega)

lemma safe_loadNf4Scales {wname : List UInt8} (hn : nBlocks < 2 ^ 60) :
    Safe (loadNf4Scales W L wname nBlocks) fun _ => True := by
  refine safe_need.bind fun ea hfind => (Safe.settled fun _ h => h).bind fun _ hbytes => ?_
  obtain ⟨n, h⟩ := holds_of_checkBytes hbytes (hL.find hfind)
  rw [h.count]
  refine Safe.check.bind fun _ hcount => (safe_alloc (n := nBlocks * 2) (by push_cast; rfl)
    (by omega)).bind fun cap hcap => Safe.ite (fun hdt => ?_) fun _ => ?_
  · refine safe_doubleQuant hL ?_ hn hcap
    rw [h.length, hdt, hcount]
    exact mul_one _
  · exact Safe.check.bind fun _ _ => safe_convert h hcount.ge hcap

/-- Codes of a tensor in a file stand for a positive number of rows. -/
lemma safe_loadNf4 {name : List UInt8} {N K : ℤ} (hw : ¬Wraps e.info)
    (hN : N ≠ 0 ∧ -2 ^ 31 ≤ N ∧ N < 2 ^ 31) (hK : 0 < K ∧ K < 2 ^ 31) :
    Safe (loadNf4 W L name e N K) fun _ => 0 < N := by
  refine Safe.check.bind fun _ _ => Safe.check.bind fun _ hcount =>
    (safe_loadRaw hw).bind fun _ hraw => ?_
  obtain ⟨n, h⟩ := hraw.2
  have hlt := h.lt
  rw [h.count] at hcount
  have hbound : N * K % 2 ^ 64 < 2 ^ 58 := by omega
  refine (safe_loadNf4Scales hL (by omega)).mono fun _ _ => ?_
  by_contra hneg
  have hlow : -2 ^ 62 ≤ N * K := by nlinarith
  have hhigh : N * K < 0 := mul_neg_of_neg_of_pos (by omega) hK.1
  omega

end Nf4

/-! ### AWQ and GPTQ -/

section Awq

variable {W : World} {L : Loading}

lemma safe_loadRaw2 (hL : L.NoWrap) {name : List UInt8} {dt : DType} {st : Status} :
    Safe (loadRaw2 W L name dt st) fun r => r.2.2 < 2 ^ 57 := by
  refine safe_need.bind fun e hfind => Safe.check.bind fun _ _ =>
    (safe_loadRaw (hL.find hfind)).bind fun _ hraw => Safe.pure ?_
  rw [hraw.1]
  exact e.fits

lemma safe_loadGroupIndex (hL : L.NoWrap) {base : List UInt8} :
    Safe (loadGroupIndex W L base) fun _ => True := by
  rw [loadGroupIndex]
  cases hfind : L.find (base ++ literal ".g_idx") with
  | none => exact Safe.pure trivial
  | some e => exact (safe_loadRaw (hL.find hfind)).bind fun _ _ => Safe.pure trivial

/-- The rows of a repacked weight are inside of its buffers. -/
lemma safe_repackRows {N half ng packed sc mn zr : ℕ} (hpacked : packed = N * half)
    (hsc : sc = N * ng * 2) (hmn : mn = N * ng * 2) (hzr : zr = N * ng) :
    Safe (repackRows N half ng packed sc mn zr) fun _ => True := by
  refine Safe.forM fun n hn => ?_
  have hn := List.mem_range.mp hn
  have hhalf : (n + 1) * half ≤ N * half := Nat.mul_le_mul_right half hn
  have hgroups : (n + 1) * ng ≤ N * ng := Nat.mul_le_mul_right ng hn
  exact (safe_writeSpan (by omega)).bind fun _ _ => (safe_writeSpan (by omega)).bind fun _ _ =>
    (safe_writeSpan (by omega)).bind fun _ _ => safe_writeSpan (by omega)

lemma mul_lt_of_lt {a b : ℕ} (ha : a < 2 ^ 31) (hb : b < 2 ^ 31) : a * b < 2 ^ 62 :=
  calc a * b ≤ 2 ^ 31 * b := Nat.mul_le_mul_right b ha.le
    _ < 2 ^ 31 * 2 ^ 31 := Nat.mul_lt_mul_of_pos_left hb (by decide)
    _ = 2 ^ 62 := by norm_num

lemma safe_loadAwqWeight (hL : L.NoWrap) {base : List UInt8} {N K : ℤ}
    (hN : N ≠ 0 ∧ -2 ^ 31 ≤ N ∧ N < 2 ^ 31) (hK : 0 < K ∧ K < 2 ^ 31) :
    Safe (loadAwqWeight W L base N K) fun _ => 0 < N := by
  refine (safe_loadRaw2 hL).bind fun w hw => (safe_loadRaw2 hL).bind fun z _ =>
    (safe_loadRaw2 hL).bind fun s _ => (safe_loadGroupIndex hL).bind fun gidx _ =>
      Safe.check.bind fun _ hshape => Safe.check.bind fun _ hbytes =>
        Safe.check.bind fun _ _ => ?_
  obtain ⟨hKw, hNw, hng, -⟩ := hshape
  have hcodes : (w.2.2 : ℤ) = K * N % 2 ^ 64 / 2 := by
    rw [← hKw, ← hNw]
    exact hbytes.1
  have hg : toInt32 s.1 < 2 ^ 31 := (bmod_range s.1).2
  have hpos : 0 < N := by
    by_contra hneg
    have hlow : -2 ^ 62 ≤ K * N := by nlinarith
    have hhigh : K * N < 0 := mul_neg_of_pos_of_neg hK.1 (by omega)
    clear hKw hNw hbytes
    omega
  rw [hKw, hNw]
  obtain ⟨n, rfl⟩ := Int.eq_ofNat_of_zero_le hpos.le
  obtain ⟨k, rfl⟩ := Int.eq_ofNat_of_zero_le hK.1.le
  obtain ⟨g, hgroups⟩ := Int.eq_ofNat_of_zero_le hng.le
  rw [hgroups] at hg ⊢
  have hn : n < 2 ^ 31 := by exact_mod_cast hN.2.2
  have hk : k < 2 ^ 31 := by exact_mod_cast hK.2
  have hg : g < 2 ^ 31 := by exact_mod_cast hg
  have hhalf : (k : ℤ).tdiv 2 = (k / 2 : ℕ) := by
    rw [Int.tdiv_eq_ediv_of_nonneg (by omega)]
    rfl
  have hrows := mul_lt_of_lt hn (show k / 2 < 2 ^ 31 by omega)
  have hcells := mul_lt_of_lt hn hg
  rw [hhalf]
  refine (safe_alloc (n := n * (k / 2)) (by push_cast; rfl) (by omega)).bind fun packed hpacked =>
    (safe_alloc (n := n * g * 2) (by push_cast; rfl) (by omega)).bind fun sc hsc =>
    (safe_alloc (n := n * g * 2) (by push_cast; rfl) (by omega)).bind fun mn hmn =>
    (safe_alloc (n := n * g) (by push_cast; rfl) (by omega)).bind fun zr hzr =>
    (safe_allocIf (n := k * 4) (by push_cast; rfl) (by omega)).bind fun perm hperm =>
    (safe_repackRows hpacked hsc hmn hzr).bind fun _ _ =>
    (safe_writeSpan ?_).bind fun _ _ => Safe.settled fun _ _ => hpos
  rw [hperm]
  split_ifs
  · exact (Nat.mul_comm 4 k).le
  · exact le_rfl

end Awq

/-! ### Dense projections -/

section Dense

variable {W : World} {L : Loading} {e : Entry} {n k b per : ℕ}

/-- A tensor of the shape the config says holds the rows and channels of it. -/
lemma holds_of_checkShape {N : ℤ} (hw : ¬Wraps e.info) (hk : 0 < k)
    (h : checkShape e N k = .ok ()) : ∃ n : ℕ, N = n ∧ e.Holds (n * k) := by
  obtain ⟨hnumel, hbytes⟩ := checkShape_ok h
  obtain ⟨m, hm⟩ := holds_of_checkBytes hbytes hw
  have hcount := hm.eq_of_numel hnumel
  have hk' : (0 : ℤ) < k := by exact_mod_cast hk
  rw [if_pos hk'] at hcount
  obtain ⟨n, rfl⟩ := Int.eq_ofNat_of_zero_le
    (nonneg_of_mul_nonneg_left (hcount ▸ Int.natCast_nonneg m) hk')
  refine ⟨n, rfl, ?_⟩
  obtain rfl : m = n * k := by exact_mod_cast hcount
  exact hm

/-- A block of rows begins inside of them. -/
lemma mul_lt_of_lt_rowBlocks (hper : 0 < per ∧ per ≤ 2 ^ 31) (hn : n < 2 ^ 31)
    (hb : b < rowBlocks per n) : b * per < n := by
  have hle : toInt32 (n + per - 1) ≤ n + per - 1 := by
    rw [toInt32, Int.bmod_def]
    split_ifs <;> omega
  have hper' : (0 : ℤ) < per := by exact_mod_cast hper.1
  rw [rowBlocks, Int.lt_toNat] at hb
  have hpos : 0 ≤ toInt32 (n + per - 1) := by
    by_contra hneg
    have hdiv := Int.tdiv_le_tdiv hper' (le_of_not_ge hneg)
    rw [Int.zero_tdiv] at hdiv
    omega
  have hsucc : (b + 1 : ℤ) * per ≤ toInt32 (n + per - 1) :=
    calc (b + 1 : ℤ) * per ≤ (toInt32 (n + per - 1)).tdiv per * per :=
          mul_le_mul_of_nonneg_right hb hper'.le
      _ ≤ toInt32 (n + per - 1) := by
          rw [Int.tdiv_eq_ediv_of_nonneg hpos]
          exact Int.ediv_mul_le _ hper'.ne'
  have hlt : (b * per : ℤ) < n := by linarith
  exact_mod_cast hlt

lemma add_blockRows_le (hper : 0 < per ∧ per ≤ 2 ^ 31) (hn : n < 2 ^ 31)
    (hb : b < rowBlocks per n) : b * per + blockRows per n b ≤ n := by
  have hlt := mul_lt_of_lt_rowBlocks hper hn hb
  rw [blockRows, Int.toNat_natCast]
  omega

/-- Rows inside of a tensor are read into the part of a buffer that is a thread's own. -/
lemma safe_readRows (h : e.Holds (n * k)) {r0 rows thread threads tmp : ℕ} (hrows : r0 + rows ≤ n)
    (hle : rows ≤ 8) (hthread : thread < threads) (htmp : tmp = threads * 8 * k * 4) :
    Safe (readRows e k r0 rows thread tmp) fun _ => True := by
  refine (safe_readSpan ?_).bind fun _ _ => safe_writeSpan ?_
  · rw [h.length]
    exact Nat.mul_le_mul_right _ (Nat.mul_le_mul_right k hrows)
  · calc 4 * (thread * 8 * k + rows * k) = (thread * 8 + rows) * k * 4 := by ring
      _ ≤ threads * 8 * k * 4 :=
          Nat.mul_le_mul_right 4 (Nat.mul_le_mul_right k (by omega))
      _ = tmp := htmp.symm

lemma blockRows_le (N : ℤ) : blockRows per N b ≤ per := min_le_left _ _

/-- The buffers of the threads. -/
lemma threads_mul_lt (hk : k < 2 ^ 31) : W.threads * 8 * k * 4 < 2 ^ 58 := by
  have hmul : W.threads * k ≤ 2 ^ 22 * k := Nat.mul_le_mul_right k W.threads_le
  calc W.threads * 8 * k * 4 = W.threads * k * 32 := by ring
    _ ≤ 2 ^ 22 * k * 32 := Nat.mul_le_mul_right 32 hmul
    _ < 2 ^ 58 := by omega

lemma safe_denseColAbsmax (hL : L.NoWrap) {layer : ℕ} {which : String} {N : ℤ} {accBytes : ℕ}
    (hN : N < 2 ^ 31) (hk : 0 < k ∧ k < 2 ^ 31) (hacc : 4 * k ≤ accBytes) :
    Safe (denseColAbsmax W L layer which N k accBytes) fun _ => True := by
  refine safe_need.bind fun e hfind => Safe.check.bind fun _ _ =>
    (Safe.settled fun _ h => h).bind fun _ hshape => ?_
  obtain ⟨n, rfl, h⟩ := holds_of_checkShape (hL.find hfind) hk.1 hshape
  have hn : n < 2 ^ 31 := by exact_mod_cast hN
  have hthreads := threads_mul_lt (W := W) hk.2
  have hpart : W.threads * k * 4 < 2 ^ 58 := by nlinarith
  refine (safe_alloc (n := W.threads * k * 4) (by push_cast; rfl) (by omega)).bind
    fun part hpart => (safe_alloc (n := W.threads * 8 * k * 4) (by push_cast; rfl) (by omega)).bind
    fun tmp htmp => (safe_writeSpan hpart.ge).bind fun _ _ => Safe.bind (P := fun _ => True)
    (Safe.forM fun b hb => ?_) fun _ _ => safe_writeSpan hacc
  have hrows := add_blockRows_le (by decide : 0 < 8 ∧ 8 ≤ 2 ^ 31) hn (List.mem_range.mp hb)
  refine (safe_readRows h hrows (blockRows_le _) (W.thread_lt b) htmp).bind fun _ _ =>
    safe_writeSpan ?_
  calc 4 * ((W.thread b + 1) * k) ≤ 4 * (W.threads * k) :=
        Nat.mul_le_mul_left 4 (Nat.mul_le_mul_right k (W.thread_lt b))
    _ = W.threads * k * 4 := Nat.mul_comm 4 _
    _ = part := hpart.symm

/-- The bytes of a row of codes, and of its scales. -/
lemma codeBytes_natCast (kind : Kind) (k : ℕ) : ∃ cb ≤ k, kind.codeBytes k = (cb : ℕ) := by
  rw [Kind.codeBytes]
  split_ifs
  · exact ⟨k, le_rfl, rfl⟩
  · refine ⟨k / 2, Nat.div_le_self k 2, ?_⟩
    rw [Int.tdiv_eq_ediv_of_nonneg (by omega)]
    rfl

lemma scaleBytes_natCast (kind : Kind) (g : ℕ) :
    ∃ sb ≤ 2 * g + 4, kind.scaleBytes g = (sb : ℕ) := by
  rw [Kind.scaleBytes]
  split_ifs
  · exact ⟨4, by omega, rfl⟩
  · exact ⟨g * 2, by omega, rfl⟩

lemma groups_natCast (kind : Kind) (k : ℕ) : ∃ g ≤ k, (k : ℤ).tdiv (kind.group k) = (g : ℕ) := by
  cases kind with
  | nf4 => exact ⟨k / 64, Nat.div_le_self k 64, by
      rw [Int.tdiv_eq_ediv_of_nonneg (by omega)]
      rfl⟩
  | int8 => exact ⟨k / k, Nat.div_le_self k k, by
      rw [Int.tdiv_eq_ediv_of_nonneg (by omega)]
      rfl⟩
  | int4g => exact ⟨k / 128, Nat.div_le_self k 128, by
      rw [Int.tdiv_eq_ediv_of_nonneg (by omega)]
      rfl⟩

lemma safe_quantizeRows {kind : Kind} {g cb sb r0 rows codes sc mn zr : ℕ}
    (hcb : kind.codeBytes k = (cb : ℕ)) (hsb : kind.scaleBytes g = (sb : ℕ))
    (hrows : r0 + rows ≤ n) (hcodes : codes = n * cb) (hsc : sc = n * sb)
    (hmn : mn = if decide (kind = .int4g) then n * sb else 0)
    (hzr : zr = if decide (kind = .int4g) then n * g else 0) :
    Safe (quantizeRows kind k g r0 rows codes sc mn zr) fun _ => True := by
  have hle (w : ℕ) : (r0 + rows) * w ≤ n * w := Nat.mul_le_mul_right w hrows
  rw [quantizeRows, hcb, hsb, Int.toNat_natCast, Int.toNat_natCast]
  refine (safe_writeSpan (hcodes ▸ hle cb)).bind fun _ _ =>
    (safe_writeSpan (hsc ▸ hle sb)).bind fun _ _ => Safe.ite (fun hkind => ?_) fun _ =>
      Safe.pure trivial
  rw [decide_eq_true hkind, if_pos rfl] at hmn hzr
  exact (safe_writeSpan (hmn ▸ hle sb)).bind fun _ _ => safe_writeSpan (hzr ▸ hle g)

lemma safe_quantizeDense (h : e.Holds (n * k)) (kind : Kind) (hn : n < 2 ^ 31)
    (hk : 0 < k ∧ k < 2 ^ 31) : Safe (quantizeDense W e kind n k) fun _ => True := by
  have hgroup : kind.group k ≠ 0 := by
    cases kind <;> rw [Kind.group] <;> omega
  obtain ⟨cb, hcble, hcb⟩ := codeBytes_natCast kind k
  obtain ⟨g, hgle, hg⟩ := groups_natCast kind k
  obtain ⟨sb, hsble, hsb⟩ := scaleBytes_natCast kind g
  have hcodes := mul_lt_of_lt hn (hcble.trans_lt hk.2)
  have hzeros := mul_lt_of_lt hn (hgle.trans_lt hk.2)
  have hscales : n * sb < 2 ^ 63 + 2 ^ 33 :=
    calc n * sb ≤ n * (2 * g + 4) := Nat.mul_le_mul_left n hsble
      _ = 2 * (n * g) + 4 * n := by ring
      _ < 2 ^ 63 + 2 ^ 33 := by omega
  have hthreads := threads_mul_lt (W := W) hk.2
  refine (Safe.within hgroup).bind fun _ _ => Safe.check.bind fun _ _ => ?_
  simp only [hcb, hg, hsb, Int.toNat_natCast]
  refine (safe_alloc (n := n * cb) (by push_cast; rfl) (by omega)).bind fun codes hcodes =>
    (safe_alloc (n := n * sb) (by push_cast; rfl) (by omega)).bind fun sc hsc =>
    (safe_allocIf (n := n * sb) (by push_cast; rfl) (by omega)).bind fun mn hmn =>
    (safe_allocIf (n := n * g) (by push_cast; rfl) (by omega)).bind fun zr hzr =>
    (safe_alloc (n := W.threads * 8 * k * 4) (by push_cast; rfl) (by omega)).bind fun tmp htmp =>
    Safe.forM fun b hb => ?_
  have hrows := add_blockRows_le (by decide : 0 < 8 ∧ 8 ≤ 2 ^ 31) hn (List.mem_range.mp hb)
  exact (safe_readRows h hrows (blockRows_le _) (W.thread_lt b) htmp).bind fun _ _ =>
    safe_quantizeRows hcb hsb hrows hcodes hsc hmn hzr

lemma safe_loadDenseWeight (hw : ¬Wraps e.info) {N : ℤ} (hN : N ≠ 0 ∧ N < 2 ^ 31)
    (hk : 0 < k ∧ k < 2 ^ 31) : Safe (loadDenseWeight W L e N k) fun _ => 0 < N := by
  refine (Safe.settled fun _ h => h).bind fun _ hshape => ?_
  obtain ⟨n, rfl, h⟩ := holds_of_checkShape hw hk.1 hshape
  have hpos : (0 : ℤ) < n := by omega
  have hn : n < 2 ^ 31 := by exact_mod_cast hN.2
  exact Safe.ite (fun _ => (safe_loadF16 h).mono fun _ _ => hpos) fun _ =>
    (safe_quantizeDense h (kindOf L.quant) hn hk).mono fun _ _ => hpos

end Dense

/-! ### Projections -/

section Projections

variable {W : World} {L : Loading} {base : List UInt8} {N K : ℤ} (hL : L.NoWrap)
  (hN : N ≠ 0 ∧ -2 ^ 31 ≤ N ∧ N < 2 ^ 31) (hK : 0 < K ∧ K < 2 ^ 31)

include hL

lemma safe_loadBias {wantBias f32 : Bool} :
    Safe (loadBias W L base N wantBias f32) fun _ => True := by
  rw [loadBias]
  cases hfind : L.find (base ++ literal ".bias") with
  | none => exact Safe.check.mono fun _ _ => trivial
  | some e =>
    refine (Safe.settled fun _ h => h).bind fun _ hshape => Safe.ite
      (fun _ => safe_loadF32 (hL.find hfind)) fun _ => ?_
    obtain ⟨n, h⟩ := holds_of_checkBytes (checkShape_ok hshape).2 (hL.find hfind)
    exact safe_loadF16 h

include hN hK

lemma safe_loadTernary {name : List UInt8} :
    Safe (loadTernary W L name N K) fun _ => 0 < N := by
  obtain ⟨k, rfl⟩ := Int.eq_ofNat_of_zero_le hK.1.le
  refine safe_need.bind fun e hfind => Safe.check.bind fun _ hdt =>
    (Safe.settled fun _ h => h).bind fun _ hshape => Safe.check.bind fun _ h128 => ?_
  obtain ⟨n, rfl, h⟩ := holds_of_checkShape (hL.find hfind) (by exact_mod_cast hK.1) hshape
  have hmul := mul_lt_of_lt (a := n) (b := k) (by exact_mod_cast hN.2.2) (by exact_mod_cast hK.2)
  have hlen : e.data.length = n * k * 4 := by
    rw [h.length, hdt]
    rfl
  have hsize : (n * k : ℤ) % 2 ^ 64 / 4 = (n * k / 4 : ℕ) := by
    rw [Int.emod_eq_of_lt (by positivity) (by exact_mod_cast hmul.trans (by norm_num))]
    rfl
  refine (safe_alloc hsize (by omega)).bind fun codes hcodes => Safe.check.bind fun _ hpos =>
    (safe_readSpan hlen.ge).bind fun _ _ => (safe_writeSpan ?_).mono fun _ _ => hpos.1
  rw [hcodes, Int.toNat_natCast, Int.toNat_natCast]
  omega

lemma safe_loadCt {c : Container} (hc : ¬Wraps c.entry.info) :
    Safe (loadCt W L base c N K) fun _ => 0 < N :=
  (safe_loadCtWeight hL hc hN hK).bind fun _ hpos => Safe.pure hpos

lemma safe_loadPacked : Safe (loadPacked W L base N K) fun _ => 0 < N :=
  safe_need.bind fun _ _ => Safe.check.bind fun _ _ => safe_loadAwqWeight hL hN hK

lemma safe_loadWeight : Safe (loadWeight W L base N K) fun _ => 0 < N := by
  rw [loadWeight]
  split
  · next e hfind =>
      have hw := hL.find hfind
      split_ifs with hu8 hfloat hi8
      · exact safe_loadNf4 hL hw hN hK
      · obtain ⟨k, rfl⟩ := Int.eq_ofNat_of_zero_le hK.1.le
        exact safe_loadDenseWeight hw ⟨hN.1, hN.2.2⟩ (by exact_mod_cast hK)
      · exact safe_loadCt hL hN hK hw
      · exact Safe.throw
  · split
    · next e hfind => exact safe_loadCt hL hN hK (hL.find hfind)
    · exact safe_loadPacked hL hN hK

/-- A projection that is loaded has a positive number of rows. -/
lemma safe_loadProjection {layer : ℕ} {which : String} {wantBias : Bool} :
    Safe (loadProjection W L layer which N K wantBias) fun _ => 0 < N := by
  refine Safe.ite (fun _ => ?_) fun _ => ?_
  · exact (safe_loadTernary hL hN hK).bind fun _ hpos => (safe_loadBias hL).mono fun _ _ => hpos
  · exact (safe_loadWeight hL hN hK).bind fun _ hpos => (safe_loadBias hL).mono fun _ _ => hpos

end Projections

/-! ### The language model -/

section Model

variable {W : World} {L : Loading} {cfg : Config}

lemma Config.qDim_ne : cfg.qDim ≠ 0 := mul_ne_zero cfg.heads_pos.ne' cfg.headDim_ne

lemma Config.kvDim_ne : cfg.kvDim ≠ 0 := mul_ne_zero cfg.kvHeads_pos.ne' cfg.headDim_ne

/-- The heads of the queries share those of the keys. -/
lemma Config.qDim_eq : ∃ m : ℤ, 0 < m ∧ cfg.qDim = m * cfg.kvDim := by
  obtain ⟨m, hm⟩ := cfg.kvHeads_dvd
  have hpos : 0 < m := (mul_pos_iff_of_pos_left cfg.kvHeads_pos).mp (hm ▸ cfg.heads_pos)
  refine ⟨m, hpos, ?_⟩
  rw [Config.qDim, Config.kvDim, hm]
  ring

lemma Config.kvDim_range : -2 ^ 31 ≤ cfg.kvDim ∧ cfg.kvDim < 2 ^ 31 := by
  obtain ⟨m, hm, heq⟩ := cfg.qDim_eq
  have hrange : -2 ^ 31 ≤ cfg.qDim ∧ cfg.qDim < 2 ^ 31 := cfg.qDim_range
  rw [heq] at hrange
  rcases le_total 0 cfg.kvDim with h | h
  · have hle : cfg.kvDim ≤ m * cfg.kvDim := le_mul_of_one_le_left h hm
    omega
  · have hle : m * cfg.kvDim ≤ cfg.kvDim := by nlinarith
    omega

lemma Config.kvDim_pos (h : 0 < cfg.qDim) : 0 < cfg.kvDim := by
  obtain ⟨m, hm, heq⟩ := cfg.qDim_eq
  rw [heq] at h
  exact (mul_pos_iff_of_pos_left hm).mp h

variable (hL : L.NoWrap)

include hL

/-- The column ranges of projections of `K` channels. -/
lemma safe_columnRanges {layer : ℕ} {ws : List (String × ℤ)} {K : ℤ} {wmax : ℕ}
    (hws : ∀ w ∈ ws, w.2 < 2 ^ 31) (hK : 0 < K ∧ K < 2 ^ 31) (hwmax : 4 * K.toNat ≤ wmax) :
    Safe (columnRanges W L layer ws K wmax) fun _ => True := by
  obtain ⟨k, rfl⟩ := Int.eq_ofNat_of_zero_le hK.1.le
  exact (safe_writeSpan hwmax).bind fun _ _ => Safe.forM fun w hw =>
    safe_denseColAbsmax hL (hws w hw) (by exact_mod_cast hK) hwmax

/-- The factors of one layer, the last of which end where the scratch does. -/
lemma safe_smoothLayer (maps : SmoothMaps) {scratch wmax layer : ℕ} (hq : 0 < cfg.qDim)
    (hscratch : scratch = (2 * cfg.hiddenSize.toNat + cfg.kvDim.toNat + cfg.qDim.toNat +
      cfg.intermediateSize.toNat) * 4)
    (hwmax : wmax = max (max cfg.hiddenSize.toNat cfg.qDim.toNat) cfg.intermediateSize.toNat * 4) :
    Safe (smoothLayer W L cfg maps scratch wmax layer) fun _ => True := by
  have hhs := cfg.hidden_range
  have hinter := cfg.intermediate_range
  have hqd : cfg.qDim < 2 ^ 31 := cfg.qDim_range.2
  have hkvd := cfg.kvDim_range.2
  refine Safe.bind (P := fun _ => True) (Safe.ite (fun _ => ?_) fun _ => Safe.pure trivial)
    fun _ _ => Safe.bind (P := fun _ => True) (Safe.ite (fun _ => ?_) fun _ => Safe.pure trivial)
    fun _ _ => Safe.bind (P := fun _ => True) (Safe.ite (fun _ => ?_) fun _ => Safe.pure trivial)
    fun _ _ => Safe.ite (fun _ => ?_) fun _ => Safe.pure trivial
  · refine (safe_columnRanges hL ?_ hhs (by omega)).bind fun _ _ => safe_writeSpan (by omega)
    simp only [List.forall_mem_cons]
    exact ⟨hqd, hkvd, hkvd, nofun⟩
  · refine (safe_columnRanges hL ?_ hhs (by omega)).bind fun _ _ => safe_writeSpan (by omega)
    simp only [List.forall_mem_cons]
    exact ⟨hinter.2, hinter.2, nofun⟩
  · refine (safe_columnRanges hL ?_ ⟨hq, hqd⟩ (by omega)).bind fun _ _ =>
      (safe_writeSpan (by omega)).bind fun _ _ => safe_writeSpan (by omega)
    simp only [List.forall_mem_cons]
    exact ⟨hhs.2, nofun⟩
  · refine (safe_columnRanges hL ?_ hinter (by omega)).bind fun _ _ => safe_writeSpan (by omega)
    simp only [List.forall_mem_cons]
    exact ⟨hhs.2, nofun⟩

/-- The projections of a layer: those of the queries say whether there are heads at all. -/
lemma safe_projections {layer : ℕ} : Safe ((projections cfg).forM fun p =>
    loadProjection W L layer p.1 p.2.1 p.2.2.1 p.2.2.2) fun _ => True := by
  have hhs := cfg.hidden_range
  have hinter := cfg.intermediate_range
  have hqd : -2 ^ 31 ≤ cfg.qDim ∧ cfg.qDim < 2 ^ 31 := cfg.qDim_range
  have hkvd := cfg.kvDim_range
  refine Safe.bind (safe_loadProjection hL ⟨cfg.qDim_ne, hqd⟩ hhs) fun _ hq =>
    Safe.forM fun p hp => ?_
  suffices h : (p.2.1 ≠ 0 ∧ -2 ^ 31 ≤ p.2.1 ∧ p.2.1 < 2 ^ 31) ∧ 0 < p.2.2.1 ∧ p.2.2.1 < 2 ^ 31 from
    (safe_loadProjection hL h.1 h.2).mono fun _ _ => trivial
  revert p
  simp only [List.forall_mem_cons]
  have hkv : cfg.kvDim ≠ 0 ∧ -2 ^ 31 ≤ cfg.kvDim ∧ cfg.kvDim < 2 ^ 31 := ⟨cfg.kvDim_ne, hkvd⟩
  have hh : cfg.hiddenSize ≠ 0 ∧ -2 ^ 31 ≤ cfg.hiddenSize ∧ cfg.hiddenSize < 2 ^ 31 := by omega
  have hi : cfg.intermediateSize ≠ 0 ∧ -2 ^ 31 ≤ cfg.intermediateSize ∧
      cfg.intermediateSize < 2 ^ 31 := by omega
  exact ⟨⟨hkv, hhs⟩, ⟨hkv, hhs⟩, ⟨hh, hq, hqd.2⟩, ⟨hi, hhs⟩, ⟨hi, hhs⟩, ⟨hh, hinter⟩, nofun⟩

lemma safe_loadLayer {smooth : Checked Unit} (hsmooth : Safe smooth fun _ => True) {layer : ℕ} :
    Safe (loadLayer W L cfg smooth layer) fun _ => True :=
  hsmooth.bind fun _ _ => (safe_needNorm hL).bind fun _ _ => (safe_needNorm hL).bind fun _ _ =>
    safe_projections hL

lemma safe_loadAllLayers (hq : L.smooth ≠ none → 0 < cfg.qDim) :
    Safe (loadAllLayers W L cfg) fun _ => True := by
  rw [loadAllLayers]
  cases hsmooth : L.smooth with
  | none => exact Safe.forM fun layer _ => safe_loadLayer hL (Safe.pure trivial)
  | some p =>
    have hq := hq (by rw [hsmooth]; nofun)
    have hkv := cfg.kvDim_pos hq
    have hhs := cfg.hidden_range
    have hinter := cfg.intermediate_range
    have hqd : cfg.qDim < 2 ^ 31 := cfg.qDim_range.2
    have hkvd := cfg.kvDim_range.2
    refine (safe_alloc (n := (2 * cfg.hiddenSize.toNat + cfg.kvDim.toNat + cfg.qDim.toNat +
      cfg.intermediateSize.toNat) * 4) (by omega) (by omega)).bind fun scratch hscratch =>
      (safe_alloc (n := max (max cfg.hiddenSize.toNat cfg.qDim.toNat)
        cfg.intermediateSize.toNat * 4) (by omega) (by omega)).bind fun wmax hwmax =>
      Safe.forM fun layer _ => safe_loadLayer hL (safe_smoothLayer hL p.2 hq hscratch hwmax)

lemma safe_loadLayers (hq : L.smooth ≠ none → 0 < cfg.qDim) :
    Safe (loadLayers W L cfg) fun _ => True :=
  Safe.check.bind fun _ _ => safe_loadAllLayers hL hq

omit hL in
/-- The rows of a table of `n` words of `k` floats, quantized 256 at a time. -/
lemma safe_bitnetHeadI8 {e : Entry} {n k : ℕ} (h : e.Holds (n * k)) (hdt : e.info.dtype = .f32)
    (hn : n < 2 ^ 31) (hk : k < 2 ^ 31) : Safe (bitnetHeadI8 W e n k) fun _ => True := by
  have hmul := mul_lt_of_lt hn hk
  have hlen : e.data.length = n * k * 4 := by
    rw [h.length, hdt]
    rfl
  refine (safe_alloc (n := n * k) (by push_cast; rfl) (by omega)).bind fun q hqcap =>
    (safe_alloc (n := n * 4) (by push_cast; rfl) (by omega)).bind fun sc hsc =>
    Safe.bind (P := fun _ => True) (Safe.forM fun b hb => ?_) fun _ _ =>
    Safe.check.mono fun _ _ => trivial
  have hrows := add_blockRows_le (by decide : 0 < 256 ∧ 256 ≤ 2 ^ 31) hn (List.mem_range.mp hb)
  have hcells : (b * 256 + blockRows 256 n b) * k ≤ n * k := Nat.mul_le_mul_right k hrows
  have htmp : blockRows 256 n b * k ≤ 256 * k := Nat.mul_le_mul_right k (blockRows_le _)
  have hcap : blockSize ((blockRows 256 n b : ℤ) * k * 4) = blockRows 256 n b * k * 4 :=
    blockSize_natCast (n := blockRows 256 n b * k * 4) (by omega)
  refine Safe.ite (fun _ => ?_) fun _ => Safe.pure trivial
  rw [Int.toNat_natCast]
  exact (safe_readSpan (by omega)).bind fun _ _ => (safe_writeSpan (by omega)).bind fun _ _ =>
    (safe_writeSpan (by omega)).bind fun _ _ => safe_writeSpan (by omega)

lemma safe_tiedHead (htable : ∃ e, L.find (L.lmRoot ++ literal "embed_tokens.weight") = some e ∧
    checkShape e cfg.vocabSize cfg.hiddenSize = .ok ()) :
    Safe (tiedHead W L cfg) fun _ => True := by
  refine Safe.ite (fun _ => ?_) fun _ => Safe.pure trivial
  refine safe_need.bind fun e hfind => Safe.check.bind fun _ hdt => ?_
  obtain ⟨e', hfind', hshape⟩ := htable
  obtain rfl := Option.some.inj (hfind'.symm.trans hfind)
  have hk := cfg.hidden_range
  obtain ⟨k, hkeq⟩ := Int.eq_ofNat_of_zero_le hk.1.le
  rw [hkeq] at hshape hk ⊢
  obtain ⟨n, hneq, h⟩ := holds_of_checkShape (hL.find hfind) (by exact_mod_cast hk.1) hshape
  have hn := cfg.vocab_range.2
  rw [hneq] at hn ⊢
  exact safe_bitnetHeadI8 h hdt (by exact_mod_cast hn) (by exact_mod_cast hk.2)

lemma State.NoWrap.findSuffix {tail : List UInt8} {e : Entry}
    (hfind : Loader.findSuffix L tail = some e) : ¬Wraps e.info :=
  hL e (List.mem_of_find?_eq_some hfind)

lemma safe_ownHead : Safe (ownHead W L cfg) fun _ => True := by
  rw [ownHead]
  split
  · exact Safe.throw
  · next e hfind =>
      have hw : ¬Wraps e.info := by
        cases h : L.find (literal "lm_head.weight") with
        | some e' =>
          rw [h] at hfind
          exact Option.some.inj hfind ▸ hL.find h
        | none =>
          rw [h] at hfind
          exact State.NoWrap.findSuffix hL hfind
      refine (Safe.settled fun _ h => h).bind fun _ hshape => ?_
      obtain ⟨n, h⟩ := holds_of_checkBytes (checkShape_ok hshape).2 hw
      exact safe_loadF16 h

lemma safe_loadLmGlobals : Safe (loadLmGlobals W L cfg) fun _ => True :=
  (safe_needF16 hL).bind fun _ htable => (safe_needNorm hL).bind fun _ _ =>
    Safe.ite (fun _ => safe_tiedHead hL htable) fun _ => safe_ownHead hL

/-! ### The speech front end -/

lemma safe_loadConnector {which : String} {vaeDim : ℤ} :
    Safe (loadConnector W L cfg which vaeDim) fun _ => True := by
  refine Safe.forM fun p _ => ?_
  rw [connectorPart]
  split
  · exact Safe.check.mono fun _ _ => trivial
  · next e hfind =>
      exact (Safe.settled fun _ _ => trivial).bind fun _ _ =>
        safe_loadF32 (State.NoWrap.findSuffix hL hfind)

lemma safe_loadEncoder {which : String} : Safe (loadEncoder W L which) fun _ => True :=
  Safe.check.bind fun _ _ => Safe.forM fun e he => safe_loadF32 (hL e (List.mem_filter.mp he).1)

lemma safe_loadFrontEnd : Safe (loadFrontEnd W L cfg) fun _ => True :=
  (safe_loadConnector hL).bind fun _ _ => (safe_loadConnector hL).bind fun _ _ =>
    (safe_loadEncoder hL).bind fun _ _ => safe_loadEncoder hL

end Model

/-! ### BitNet's int8 encoder -/

section Encoder

variable {W : World} {L : Loading} {cfg : Config}

/-- A block is no smaller than has been asked for. -/
lemma safe_alloc_le {size : ℤ} (h : size < 2 ^ 63) :
    Safe (alloc W size) fun cap => size % 2 ^ 64 ≠ 0 ∧ size.toNat ≤ cap := by
  refine Safe.check.bind fun _ hall => Safe.pure ⟨allocates_ne hall, ?_⟩
  rcases le_total 0 size with hpos | hneg
  · obtain ⟨n, rfl⟩ := Int.eq_ofNat_of_zero_le hpos
    exact (blockSize_natCast (by omega)).ge
  · rw [Int.toNat_of_nonpos hneg]
    exact Nat.zero_le _

lemma safe_own {size : ℤ} (h : size < 2 ^ 63) : Safe (own W size) fun cap => size.toNat ≤ cap := by
  rw [own]
  split_ifs with hzero
  · refine (safe_alloc_le (by decide)).mono fun cap _ => ?_
    have : size.toNat = 0 := by omega
    omega
  · exact (safe_alloc_le h).mono fun _ hcap => hcap.2

/-- A dimension does not grow when it is narrowed. -/
lemma natAbs_toInt32_le (d : ℤ) : (toInt32 d).natAbs ≤ d.natAbs := by
  rw [toInt32, Int.bmod_def]
  split_ifs <;> omega

/-- The dimensions of a kernel, narrowed, are those of no more elements. -/
lemma safe_i8Dims {e : Entry} : Safe (i8Dims e) fun d =>
    (d.1 * d.2.1 * d.2.2).natAbs ≤ (numel e.info).natAbs := by
  have hle (o i k : ℤ) :
      (toInt32 o * toInt32 i * toInt32 k).natAbs ≤ (o * (i * k)).natAbs := by
    rw [← mul_assoc, Int.natAbs_mul, Int.natAbs_mul, Int.natAbs_mul, Int.natAbs_mul]
    exact Nat.mul_le_mul (Nat.mul_le_mul (natAbs_toInt32_le o) (natAbs_toInt32_le i))
      (natAbs_toInt32_le k)
  rw [i8Dims, numel]
  split
  · next o i k hshape =>
      rw [hshape]
      refine Safe.pure ?_
      simpa using hle o.toInt i.toInt k.toInt
  · next o i hshape =>
      rw [hshape]
      refine Safe.pure ?_
      simpa [show toInt32 1 = 1 from rfl] using hle o.toInt i.toInt 1
  · exact Safe.throw

lemma safe_layerFromQ {eb : Entry} {o i k : ℤ} {m : ℕ} (h : eb.Holds m)
    (hdt : eb.info.dtype = .f32) (ho : o = m) (hsize : o * k * i < 2 ^ 63) :
    Safe (layerFromQ W eb o i k) fun _ => True := by
  subst ho
  have hlen : eb.data.length = m * 4 := by
    rw [h.length, hdt]
    rfl
  have hm := h.lt
  refine Safe.check.bind fun _ hk => (safe_own hsize).bind fun w hw =>
    (safe_own (by omega)).bind fun b hb => (safe_readSpan ?_).bind fun _ _ =>
      (safe_writeSpan ?_).bind fun _ _ => safe_writeSpan (le_trans ?_ hw)
  · rw [Int.toNat_natCast]
    omega
  · rw [Int.toNat_natCast]
    omega
  · rw [Int.toNat_natCast]
    obtain ⟨k, rfl⟩ := Int.eq_ofNat_of_zero_le (by omega : 0 ≤ k)
    rcases le_total 0 i with hi | hi
    · obtain ⟨i, rfl⟩ := Int.eq_ofNat_of_zero_le hi
      exact le_rfl
    · rw [Int.toNat_of_nonpos hi, Nat.mul_zero]
      exact Nat.zero_le _

variable (hL : L.NoWrap)

include hL

lemma safe_i8LayerSt {wname bname : List UInt8} {depthwise : Bool} :
    Safe (i8LayerSt W L wname bname depthwise) fun o => 0 ≤ o := by
  refine safe_need.bind fun ew hfindw => safe_need.bind fun eb hfindb =>
    Safe.check.bind fun _ hdt => (Safe.settled fun _ h => h).bind fun _ hbytesw =>
    (Safe.settled fun _ h => h).bind fun _ hbytesb => safe_i8Dims.bind fun d hd => ?_
  obtain ⟨o, i, k⟩ := d
  obtain ⟨nw, hw⟩ := holds_of_checkBytes hbytesw (hL.find hfindw)
  obtain ⟨nb, hb⟩ := holds_of_checkBytes hbytesb (hL.find hfindb)
  have hlen : ew.data.length = nw * 4 := by
    rw [hw.length, hdt.1]
    rfl
  have hlt := hw.lt
  rw [hw.numel, Int.natAbs_natCast] at hd
  have hd : (o * i * k).natAbs ≤ nw := hd
  have hn : (o * i * k).bmod (2 ^ 64) = o * i * k := by
    rw [Int.bmod_def]
    split_ifs <;> omega
  simp only [hb.numelOf, hn]
  refine Safe.check.bind fun _ ho => (safe_alloc_le (by omega)).bind fun q hq =>
    (safe_readSpan (by omega)).bind fun _ _ => (safe_writeSpan hq.2).bind fun _ _ =>
    (safe_layerFromQ hb hdt.2 ho.symm ?_).bind fun _ _ => Safe.pure (by omega)
  cases depthwise with
  | false =>
    have heq : o * k * i = o * i * k := by ring
    rw [if_neg (by decide), heq]
    omega
  | true =>
    have hi : 1 ≤ i.natAbs := by
      refine Nat.one_le_iff_ne_zero.mpr fun hzero => hq.1 ?_
      rw [Int.natAbs_eq_zero.mp hzero]
      simp
    have hle : (o * k).natAbs ≤ (o * i * k).natAbs := by
      rw [mul_right_comm, Int.natAbs_mul (o * k)]
      exact Nat.le_mul_of_pos_right _ hi
    rw [if_pos rfl, mul_one]
    omega

lemma safe_copyF32St {name : List UInt8} {n : ℤ} :
    Safe (copyF32St W L name n) fun _ => True := by
  refine safe_need.bind fun e hfind => Safe.check.bind fun _ hcheck => ?_
  obtain ⟨hdt, hcount, hbytes⟩ := hcheck
  obtain ⟨m, h⟩ := holds_of_checkBytes (bytesOk_iff.mp hbytes) (hL.find hfind)
  rw [h.numelOf] at hcount
  subst hcount
  have hlen : e.data.length = m * 4 := by
    rw [h.length, hdt]
    rfl
  have hm := h.lt
  rw [Int.toNat_natCast]
  exact (safe_own (by omega)).bind fun cap hcap => (safe_readSpan (by omega)).bind fun _ _ =>
    safe_writeSpan (by omega)

lemma safe_i8Block {C : ℤ} {pre : List UInt8} : Safe (i8Block W L C pre) fun _ => True :=
  (safe_i8LayerSt hL).bind fun _ _ => (safe_i8LayerSt hL).bind fun _ _ =>
    (safe_i8LayerSt hL).bind fun _ _ => Safe.forM fun _ _ => safe_copyF32St hL

lemma safe_i8Tower {p : String} {depths : List ℤ} : Safe (i8Tower W L p depths) fun _ => True :=
  Safe.check.bind fun _ _ => Safe.bind (P := fun _ => True)
    (Safe.forM fun _ _ => (safe_i8LayerSt hL).bind fun _ _ => Safe.forM fun _ _ =>
      safe_i8Block hL)
    fun _ _ => (safe_i8LayerSt hL).bind fun _ _ => (safe_i8LayerSt hL).bind fun _ _ =>
      (safe_i8LayerSt hL).bind fun _ _ => safe_copyF32St hL

lemma safe_loadI8vaeSt : Safe (loadI8vaeSt W L cfg) fun _ => True :=
  (safe_i8Tower hL).bind fun _ _ => safe_i8Tower hL

end Encoder

/-! ### The whole load -/

section Whole

variable {W : World} {L : Loading} {cfg : Config}

/-- Statistics that are accepted have a positive number of heads. -/
lemma safe_checkSmooth : Safe (checkSmooth L cfg) fun _ => L.smooth ≠ none → 0 < cfg.qDim := by
  rw [checkSmooth]
  cases L.smooth with
  | none => exact Safe.pure fun h => absurd rfl h
  | some p =>
    exact Safe.check.bind fun _ _ => Safe.check.mono fun _ h _ => h.2.2.1 ▸ p.1.qDim_pos

/-- A load of tensors that do not wrap stays inside of them and of its buffers. -/
lemma safe_loadModel (hL : L.NoWrap) : Safe (loadModel W L cfg) fun _ => True :=
  safe_checkSmooth.bind fun _ hq => (safe_loadLmGlobals hL).bind fun _ _ =>
    (safe_loadLayers hL hq).bind fun _ _ => Safe.ite (fun _ => safe_loadI8vaeSt hL)
      fun _ => safe_loadFrontEnd hL

/-- A tensor that wraps passes the check of the byte count. -/
lemma checkBytes_of_wraps {e : Entry} (h : Wraps e.info) : checkBytes e = .ok () := by
  refine checkBytes_ok_iff.mpr ⟨fun hsize => h.1 ?_, h.2⟩
  have hmod := h.2
  have hlt := e.info.dataSize.toNat_lt
  rw [hsize, Nat.cast_zero, mul_zero, Int.ModEq] at hmod
  rw [Exact, hsize, Nat.cast_zero, mul_zero]
  omega

end Whole

/-- Every load of the tensors of a header stays inside of them and of its buffers, and the check of
the byte count is exact for them, exactly where none of them wraps. -/
theorem load_iff (entries : List Entry) :
    (∀ (W : World) (L : Loading) (cfg : Config), L.entries = entries →
      loadModel W L cfg ≠ ExceptT.mk none) ∧
      (∀ e ∈ entries, checkBytes e = .ok () → Exact e.info) ↔
    ∀ e ∈ entries, ¬Wraps e.info := by
  constructor
  · exact fun ⟨_, hexact⟩ e he hw => hw.1 (hexact e he (checkBytes_of_wraps hw))
  · intro h
    refine ⟨fun W L cfg hentries => ?_, fun e he hbytes => exact_of_not_wraps hbytes (h e he)⟩
    exact (safe_loadModel fun e he => h e (hentries ▸ he)).runs

/-- A heap of 1000 bytes and one thread. -/
def smallWorld : World where
  heap := smallHeap
  fl := plainFloats
  threads := 1
  thread _ := 0
  thread_lt _ := Nat.one_pos
  threads_le := by decide
  quantState _ := none
  repacks _ := .ok ()

/-- One layer of one head, all sizes being 1. -/
def smallConfig : Config where
  hiddenSize := 1
  vocabSize := 1
  intermediateSize := 1
  numHiddenLayers := 1
  numAttentionHeads := 1
  numKeyValueHeads := 1
  headDim := 1
  attentionBias := false
  tieWordEmbeddings := true
  acousticVaeDim := 1
  semanticVaeDim := 1
  acousticDepths := []
  semanticDepths := []
  hidden_range := by decide
  vocab_range := by decide
  intermediate_range := by decide
  heads_pos := by decide
  kvHeads_pos := by decide
  kvHeads_dvd := by decide
  headDim_ne := by decide
  qDim_range := by decide

/-- An F32 tensor of `2 ^ 62 + 4` elements in 16 bytes. -/
def wrapped : Entry :=
  tensor "model.acoustic_tokenizer.encoder.head.weight" .f32 [1010828228, 4562284561]
    (List.replicate 16 0) (by decide)

/-- A model of one layer, an encoder weight of which wraps. -/
def wrappedModel : Loading where
  entries :=
    (["embed_tokens", "layers.0.self_attn.q_proj", "layers.0.self_attn.k_proj",
      "layers.0.self_attn.v_proj", "layers.0.self_attn.o_proj", "layers.0.mlp.gate_proj",
      "layers.0.mlp.up_proj", "layers.0.mlp.down_proj"].map fun name =>
        tensor ("model.language_model." ++ name ++ ".weight") .f16 [1, 1] [0, 60] (by decide)) ++
    (["norm", "layers.0.input_layernorm", "layers.0.post_attention_layernorm"].map fun name =>
        tensor ("model.language_model." ++ name ++ ".weight") .f16 [1] [0, 60] (by decide)) ++
    (["acoustic", "semantic"].flatMap fun name =>
      [tensor ("model." ++ name ++ "_connector.fc1.weight") .f32 [1, 1] [0, 0, 0, 0] (by decide),
        tensor ("model." ++ name ++ "_connector.fc2.weight") .f32 [1, 1] [0, 0, 0, 0] (by decide),
        tensor ("model." ++ name ++ "_connector.norm.weight") .f32 [1] [0, 0, 0, 0]
          (by decide)]) ++ [wrapped]
  quant := .auto
  ctBits := 0
  ctActInt8 := false
  lmRoot := literal "model.language_model."
  bitnet := false
  headInt8 := false
  vaeInt8 := false
  smooth := none

/-- Its byte count is accepted, and its load reads and writes outside of it. -/
theorem wrappedModel_faults : wrapped ∈ wrappedModel.entries ∧ checkBytes wrapped = .ok () ∧
    ¬Exact wrapped.info ∧ loadModel smallWorld wrappedModel smallConfig = ExceptT.mk none := by
  refine ⟨List.mem_append_right _ (List.mem_singleton_self _), by decide +kernel,
    by decide +kernel, ?_⟩
  exact Option.isNone_iff_eq_none.mp (by decide +kernel)

end VibeVoice.Loader
