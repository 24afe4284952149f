import VibeVoice.Model.CompressedRead

/-!
Compressed-tensors projections are read inside of their tensors.

* `Entry.Holds`: a tensor of a number of elements, however they are counted.
* `holds_of_checkBytes`: a tensor whose byte count is accepted and does not wrap is one.
* `ctRow_isSome`: a row of such tensors is read.
* `safe_loadCtWeight`: a projection of such tensors does not fault.
-/

namespace VibeVoice.Loader

open Safetensors Fault Quant

/-! ### Elements -/

/-- A tensor of `n` elements, however they are counted. -/
structure Entry.Holds (e : Entry) (n : ℕ) : Prop where
  size_pos : 0 < e.info.dtype.size
  length : e.data.length = n * e.info.dtype.size
  numel : numel e.info = n
  numelOf : (numelOf e.info).toInt = n

/-- No tensor of the index wraps. -/
def State.NoWrap (L : State) : Prop := ∀ e ∈ L.entries, ¬Wraps e.info

section Holds

variable {L : State} {e : Entry} {n : ℕ}

lemma State.NoWrap.find (h : L.NoWrap) {name : List UInt8} (hfind : L.find name = some e) :
    ¬Wraps e.info :=
  h e (List.mem_of_find?_eq_some hfind)

/-- A tensor has its elements where its byte count is accepted and does not wrap. -/
lemma holds_of_checkBytes (h : checkBytes e = .ok ()) (hw : ¬Wraps e.info) :
    ∃ n, e.Holds n := by
  have hsize := Nat.pos_of_ne_zero (checkBytes_ok_iff.mp h).1
  have hsize' : (0 : ℤ) < e.info.dtype.size := by exact_mod_cast hsize
  have hlen := (exact_of_not_wraps h hw).length
  have hpos : 0 ≤ numel e.info :=
    nonneg_of_mul_nonneg_left (hlen ▸ Int.natCast_nonneg _) hsize'
  obtain ⟨n, hn⟩ := Int.eq_ofNat_of_zero_le hpos
  have hlength : e.data.length = n * e.info.dtype.size := by
    rw [hn] at hlen
    exact_mod_cast hlen
  refine ⟨n, hsize, hlength, hn, ?_⟩
  have hlt : n < 2 ^ 57 :=
    calc n ≤ n * e.info.dtype.size := Nat.le_mul_of_pos_right n hsize
      _ = e.data.length := hlength.symm
      _ < 2 ^ 57 := e.fits
  have hmod := numelOf_modEq e.info
  have hlow := (Loader.numelOf e.info).le_toInt
  have hhigh := (Loader.numelOf e.info).toInt_lt
  rw [hn, Int.ModEq] at hmod
  omega

namespace Entry.Holds

lemma lt (h : e.Holds n) : n < 2 ^ 57 :=
  calc n ≤ n * e.info.dtype.size := Nat.le_mul_of_pos_right n h.size_pos
    _ = e.data.length := h.length.symm
    _ < 2 ^ 57 := e.fits

lemma eq_of_numel (h : e.Holds n) {m : ℤ} (hm : Loader.numel e.info = m) : (n : ℤ) = m :=
  h.numel.symm.trans hm

lemma word_isSome (h : e.Holds n) {i : ℕ} (hi : i < n) :
    (e.word e.info.dtype.size i).isSome := by
  obtain ⟨v, hv⟩ := Entry.word_isSome (e := e) (w := e.info.dtype.size) (i := i)
    (h.length ▸ Nat.mul_le_mul_right _ hi)
  rw [hv]
  rfl

lemma storedInt_isSome (h : e.Holds n) (hint : isCtInt e.info.dtype) {i : ℕ} (hi : i < n) :
    (storedInt e i).isSome := by
  have hword := h.word_isSome hi
  rw [isCtInt, Bool.or_eq_true, Bool.or_eq_true, decide_eq_true_eq, decide_eq_true_eq,
    decide_eq_true_eq] at hint
  rcases hint with (hdt | hdt) | hdt <;> rw [hdt] at hword <;> rw [storedInt, hdt] <;>
    exact Option.isSome_map.trans hword

end Entry.Holds

end Holds

/-! ### The parts of a projection -/

section Parts

variable {heap : Heap} {fl : Floats} {L : State} {c : Container} {e : Entry}
  {base : List UInt8} {N K bits ng : ℤ} {n : ℕ}

lemma safe_heap_alloc (size : ℤ) : Safe (heap.alloc size) fun _ => True :=
  Safe.check.mono fun _ _ => trivial

lemma safe_toF32 (h : e.Holds n) :
    Safe (toF32 fl e n ((n * 4 : ℤ) % 2 ^ 64).toNat) fun _ => True := by
  have hlt := h.lt
  have hle : converted n ≤ n := min_le_right _ _
  refine (Safe.within (by omega)).bind fun _ _ =>
    (Safe.mapM fun i hi => ?_).mono fun _ _ => trivial
  split_ifs
  · exact Option.isSome_map.trans (h.word_isSome (List.mem_range.mp hi))
  · rfl

/-- The first elements of an integer tensor. -/
lemma safe_ctInts (h : e.Holds n) {m room : ℕ} (hm : m ≤ n) (hroom : m ≤ room) :
    Safe (ctInts e m room) fun _ => True := by
  refine Safe.ite (fun hint => ?_) fun _ => Safe.pure trivial
  refine (Safe.within hroom).bind fun _ _ => (Safe.mapM fun i hi => ?_).map fun _ _ => trivial
  exact Option.isSome_map.trans
    (h.storedInt_isSome hint ((List.mem_range.mp hi).trans_le hm))

lemma safe_checkWeightShape (hL : L.NoWrap) :
    Safe (checkWeightShape L base N K) fun _ => True := by
  rw [checkWeightShape]
  cases hfind : L.find (base ++ literal ".weight_shape") with
  | none => exact Safe.pure trivial
  | some sh =>
    refine Safe.ite (fun hok => ?_) fun _ => Safe.pure trivial
    obtain ⟨htwo, hbytes⟩ := hok
    obtain ⟨n, hn⟩ := holds_of_checkBytes (bytesOk_iff.mp hbytes) (hL.find hfind)
    have hcount := hn.numelOf
    rw [htwo] at hcount
    refine (safe_ctInts hn ?_ le_rfl).bind fun _ _ => Safe.check.mono fun _ _ => trivial
    exact (Int.ofNat_inj.mp hcount).le

lemma safe_storedBits (hL : L.NoWrap) : Safe (storedBits L base c N K) fun _ => True := by
  cases c with
  | int e i8 => exact (Safe.settled fun _ _ => trivial).bind fun _ _ => Safe.pure trivial
  | packed e =>
    exact Safe.check.bind fun _ _ => (safe_checkWeightShape hL).bind fun _ _ =>
      Safe.pure trivial

lemma safe_loadCtScale (hL : L.NoWrap) (hN : N ≠ 0) :
    Safe (loadCtScale heap fl L base bits N K) fun _ => True := by
  rw [loadCtScale]
  cases hfind : L.find (base ++ literal ".weight_scale") with
  | none => exact Safe.throw
  | some se =>
    refine Safe.check.bind fun _ hcheck => ?_
    obtain ⟨n, hn⟩ := holds_of_checkBytes (bytesOk_iff.mp hcheck.2) (hL.find hfind)
    simp only [hn.numelOf, Int.toNat_natCast]
    have hgroups : Safe (groupsPerRow n N) fun _ => True :=
      Safe.ite (fun _ => (Safe.within hN).bind fun _ _ => Safe.pure trivial)
        fun _ => Safe.pure trivial
    exact hgroups.bind fun _ _ => Safe.check.bind fun _ _ => Safe.check.bind fun _ _ =>
      Safe.check.bind fun _ _ => (safe_heap_alloc _).bind fun _ _ =>
        (safe_toF32 hn).bind fun _ _ => Safe.pure trivial

/-- A zero point packed along `N`. -/
lemma packedZero_isSome {n ng : ℕ} (h : e.Holds n) (hshape : hasPackedShape e N ng)
    (hN : 0 ≤ N ∧ N < 2 ^ 31) (hng : 0 < ng) {r g : ℕ} (hr : (r : ℤ) < N) (hg : g < ng) :
    (packedZero e ng r g).isSome := by
  rw [hasPackedShape, Bool.decide_and, Bool.and_eq_true, decide_eq_true_eq,
    decide_eq_true_eq] at hshape
  obtain ⟨hdt, hshape⟩ := hshape
  set rows := ((N + 7).bmod (2 ^ 32)).tdiv 8 with hrows
  have hnumel : (n : ℤ) = rows * ng := by
    refine h.eq_of_numel ?_
    rw [numel, hshape]
    simp
  have hpos : 0 ≤ rows :=
    nonneg_of_mul_nonneg_left (hnumel ▸ Int.natCast_nonneg _) (by exact_mod_cast hng)
  obtain ⟨m, hm⟩ := Int.eq_ofNat_of_zero_le hpos
  rw [hm] at hnumel hrows
  have hmul : n = m * ng := by exact_mod_cast hnumel
  have hr8 : r / 8 < m := by
    rw [Int.bmod_def] at hrows
    split_ifs at hrows with hsmall
    · rw [Int.tdiv_eq_ediv_of_nonneg (by omega)] at hrows
      omega
    · have hneg : ((N + 7) % (2 ^ 32 : ℕ) - (2 ^ 32 : ℕ)).tdiv 8 ≤ (-8 : ℤ).tdiv 8 :=
        Int.tdiv_le_tdiv (by decide) (by omega)
      rw [← hrows, show (-8 : ℤ).tdiv 8 = -1 from rfl] at hneg
      exact absurd hneg (by omega)
  have hword := h.word_isSome (hmul ▸ cell_lt_mul hr8 hg)
  rw [hdt] at hword
  exact Option.isSome_map.trans hword

lemma safe_readZeros {n g : ℕ} (hw : ¬Wraps e.info) (hn : n < 2 ^ 31) (hg : 0 < g) :
    Safe (readZeros e bits n g) fun _ => True := by
  refine Safe.ite (fun hbytes => ?_) fun _ => Safe.pure trivial
  obtain ⟨m, hm⟩ := holds_of_checkBytes (bytesOk_iff.mp hbytes) hw
  have htoNat : ((n : ℤ) * g).toNat = n * g := rfl
  refine Safe.ite (fun hcount => ?_) fun _ => Safe.ite (fun ⟨_, hshape⟩ => ?_) fun _ =>
    Safe.pure trivial
  · rw [hm.numelOf] at hcount
    refine safe_ctInts hm ?_ le_rfl
    rw [htoNat]
    exact_mod_cast hcount.ge
  · refine (Safe.mapM fun i hi => ?_).map fun _ _ => trivial
    rw [htoNat, List.mem_range] at hi
    have hrow : i / g < n := Nat.div_lt_of_lt_mul (by rwa [Nat.mul_comm g n])
    exact packedZero_isSome hm hshape ⟨by omega, by omega⟩ hg (by exact_mod_cast hrow)
      (Nat.mod_lt i hg)

lemma safe_loadCtZeros {n g : ℕ} (hL : L.NoWrap) (hn : n < 2 ^ 31) (hg : 0 < g) :
    Safe (loadCtZeros heap L base bits n g) fun _ => True := by
  rw [loadCtZeros]
  cases hfind : L.find (base ++ literal ".weight_zero_point") with
  | none => exact Safe.pure trivial
  | some ze =>
    exact (safe_heap_alloc _).bind fun _ _ =>
      (safe_readZeros (hL.find hfind) hn hg).bind fun _ _ => Safe.check.bind fun _ _ =>
        Safe.pure trivial

lemma safe_checkGroupIndex (hL : L.NoWrap) {G : ℤ} :
    Safe (checkGroupIndex heap L base K G) fun _ => True := by
  rw [checkGroupIndex]
  cases hfind : L.find (base ++ literal ".weight_g_idx") with
  | none => exact Safe.pure trivial
  | some gi =>
    have hread : Safe (readPlain heap gi K G) fun _ => True := by
      refine Safe.ite (fun hok => ?_) fun _ => Safe.pure trivial
      obtain ⟨hcount, hbytes, -⟩ := hok
      obtain ⟨n, hn⟩ := holds_of_checkBytes (bytesOk_iff.mp hbytes) (hL.find hfind)
      rw [hn.numelOf] at hcount
      refine (safe_ctInts hn ?_ le_rfl).bind fun _ _ => Safe.pure trivial
      omega
    exact hread.bind fun _ _ => Safe.check.mono fun _ _ => trivial

/-! ### Rows -/

/-- A container holds `N` rows of `K` channels. -/
def Container.HoldsRows (c : Container) (N K : ℕ) : Prop :=
  match c with
  | .int e _ => e.Holds (N * K)
  | .packed e => e.info.dtype = .i32 ∧ e.Holds (N * (K / 8))

variable {k ng : ℕ} {scale : List (Option UInt32)} {zp : Option (List ℤ)}

lemma storedCode_isSome {N K : ℕ} (h : c.HoldsRows N K) (hK : 8 ∣ K ∨ c.isPacked = false)
    (hn : n < N) (hk : k < K) : (storedCode c K n k).isSome := by
  cases c with
  | int e i8 =>
    exact Entry.Holds.storedInt_isSome h (by rw [i8]; rfl) (cell_lt_mul hn hk)
  | packed e =>
    obtain ⟨m, rfl⟩ := hK.resolve_right (by simp [Container.isPacked])
    have hword := h.2.word_isSome (cell_lt_mul hn
      (show k / 8 < 8 * m / 8 by omega))
    rw [h.1] at hword
    exact Option.isSome_map.trans hword

/-- A row is read where there are its codes, scales and zero points. -/
lemma ctRow_isSome {K : ℕ} (heven : 2 ∣ K) (hcode : ∀ k < K, (storedCode c K n k).isSome)
    (hscale : ∀ g < ng, n * ng + g < scale.length)
    (hzero : ∀ zs, zp = some zs → ∀ g < ng, n * ng + g < zs.length) :
    (ctRow fl c scale zp K ng n).isSome := by
  have hhalf : (K + 1) / 2 = K / 2 := by omega
  have hcodes : Codes (fun k => (ctCode c K n k).map hold) K := by
    intro k hk
    obtain ⟨q, hq⟩ := Option.isSome_iff_exists.mp (hcode k hk)
    refine ⟨hold (q + 8), ?_, hold_lt _⟩
    show (ctCode c K n k).map hold = some (hold (q + 8))
    rw [ctCode_eq, hq]
    rfl
  have hempty : Filled (fun k => (ctCode c K n k).map hold) K 0 (List.replicate (K / 2) 0) :=
    ⟨List.length_replicate, fun k hk => absurd hk k.not_lt_zero⟩
  obtain ⟨packed, hpacked, -⟩ := putPairs_filled hcodes (dvd_zero 2) (K / 2) (by omega) hempty
  have hpairs : ((List.range' 0 (K / 2) 2).mapM (badPair c K n)).isSome := by
    refine Loop.mapM_isSome_iff.mpr fun k hk => ?_
    obtain ⟨q0, h0⟩ := Option.isSome_iff_exists.mp (hcode k (Nat.lt_of_succ_lt (mem_pairs hk)))
    obtain ⟨q1, h1⟩ := Option.isSome_iff_exists.mp (hcode (k + 1) (mem_pairs hk))
    rw [badPair_eq h0 h1]
    rfl
  have hgroups : ((List.range ng).mapM (ctGroup fl scale zp ng n)).isSome := by
    refine Loop.mapM_isSome_iff.mpr fun g hg => ?_
    have hg := List.mem_range.mp hg
    rw [ctGroup, List.getElem?_eq_getElem (hscale g hg)]
    cases zp with
    | none => rfl
    | some zs =>
      rw [zeroOf, List.getElem?_eq_getElem (hzero zs rfl g hg)]
      rfl
  obtain ⟨pairs, hpairs⟩ := Option.isSome_iff_exists.mp hpairs
  obtain ⟨groups, hgroups⟩ := Option.isSome_iff_exists.mp hgroups
  rw [ctRow, hhalf, hpacked, Option.bind_eq_bind, Option.bind_some, hpairs, Option.bind_eq_bind,
    Option.bind_some, hgroups]
  rfl

/-! ### A projection -/

/-- Groups of a narrowed count are no more than there are scales. -/
lemma groups_le {ns N ng : ℤ} (hN : 0 < N) (hns : 0 < ns) (hdvd : ns.tmod N = 0)
    (hng : ng = (ns.tdiv N).bmod (2 ^ 32)) : N * ng ≤ ns := by
  obtain ⟨q, rfl⟩ := Int.dvd_of_tmod_eq_zero hdvd
  rw [Int.mul_tdiv_cancel_left q hN.ne'] at hng
  have hq : 0 < q := (mul_pos_iff_of_pos_left hN).mp hns
  refine mul_le_mul_of_nonneg_left ?_ hN.le
  rw [hng, Int.bmod_def]
  split_ifs <;> omega

/-- The rows of a container that is of the shape the config says. -/
lemma holdsRows_of_storedBits {N K : ℕ} (hc : ¬Wraps c.entry.info) (hK : 0 < K)
    (hK8 : c.isPacked → 8 ≤ K) (h : storedBits L base c N K = pure bits) : c.HoldsRows N K := by
  have hshape := (storedBits_eq_pure h).2
  cases c with
  | int e i8 =>
    obtain ⟨hnumel, hbytes⟩ := checkShape_ok hshape
    obtain ⟨m, hm⟩ := holds_of_checkBytes hbytes hc
    have hcount := hm.eq_of_numel hnumel
    rw [if_pos (by exact_mod_cast hK)] at hcount
    obtain rfl : m = N * K := by exact_mod_cast hcount
    exact hm
  | packed e =>
    obtain ⟨hdt, hshape, -⟩ := hshape
    have hwords : (K : ℤ).tdiv 8 = (K / 8 : ℕ) := by
      rw [Int.tdiv_eq_ediv_of_nonneg (by omega)]
      rfl
    have hpos : (0 : ℤ) < (K / 8 : ℕ) := by
      have := hK8 rfl
      omega
    obtain ⟨hnumel, hbytes⟩ := checkShape_ok hshape
    obtain ⟨m, hm⟩ := holds_of_checkBytes hbytes hc
    have hcount := hm.eq_of_numel hnumel
    rw [hwords, if_pos hpos] at hcount
    obtain rfl : m = N * (K / 8) := by exact_mod_cast hcount
    exact ⟨hdt, hm⟩

/-- The channels of codes of 4 bits. -/
lemma ScalesRead.channels_dvd {N K : ℕ} {se : Entry}
    (h : ScalesRead fl se bits N K ng scale) (h4 : bits = 4) : 32 ∣ K := by
  have hfour : (32 : ℤ) ∣ (K : ℤ).tdiv ng := Int.dvd_of_tmod_eq_zero (h.four h4)
  have hK : (32 : ℤ) ∣ K := by
    rw [← Int.tdiv_mul_cancel (Int.dvd_of_tmod_eq_zero h.K_dvd)]
    exact hfour.mul_right ng
  exact_mod_cast hK

lemma safe_loadInt8 {N K : ℕ} (hK : K < 2 ^ 31) (hN : N < 2 ^ 31) (h : e.data.length = N * K) :
    Safe (loadInt8 heap e N K scale zp) fun _ => True := by
  have hmul : N * K < 2 ^ 62 :=
    calc N * K ≤ 2 ^ 31 * K := Nat.mul_le_mul_right K hN.le
      _ < 2 ^ 31 * 2 ^ 31 := Nat.mul_lt_mul_of_pos_left hK (by decide)
      _ = 2 ^ 62 := by norm_num
  have hmod : ((N * K : ℤ) % 2 ^ 64).toNat = N * K := by
    rw [Int.emod_eq_of_lt (by positivity) (by exact_mod_cast hmul.trans (by norm_num))]
    rfl
  exact Safe.check.bind fun _ _ => (safe_heap_alloc _).bind fun _ _ =>
    (Safe.within (by rw [hmod, h])).bind fun _ _ => Safe.pure trivial

lemma safe_loadInt4g {N K : ℕ} (h : c.HoldsRows N K) (hK : 32 ∣ K) (hscale : N * ng ≤ scale.length)
    (hzero : ∀ zs, zp = some zs → zs.length = N * ng) :
    Safe (loadInt4g heap fl c N K ng scale zp) fun _ => True := by
  refine (safe_heap_alloc _).bind fun _ _ => (safe_heap_alloc _).bind fun _ _ =>
    (safe_heap_alloc _).bind fun _ _ => (safe_heap_alloc _).bind fun _ _ =>
      (Safe.mapM fun n hn => ?_).bind fun _ _ => Safe.check.bind fun _ _ => Safe.pure trivial
  have hn : n < N := List.mem_range.mp hn
  have h8 : 8 ∣ K := (by decide : 8 ∣ 32).trans hK
  have h2 : 2 ∣ K := (by decide : 2 ∣ 32).trans hK
  exact ctRow_isSome h2 (fun k hk => storedCode_isSome h (.inl h8) hn hk)
    (fun g hg => (cell_lt_mul hn hg).trans_le hscale)
    fun zs hzs g hg => (cell_lt_mul hn hg).trans_eq (hzero zs hzs).symm

lemma safe_loadBody {N K : ℕ} (hK : 0 < K ∧ K < 2 ^ 31) (hN : 0 < N ∧ N < 2 ^ 31)
    (hw : ¬Wraps c.entry.info) (hbits : storedBits L base c N K = pure bits)
    (hkind : bits = 8 ∨ bits = 4)
    (hscale : loadCtScale heap fl L base bits N K = pure ((ng : ℤ), scale))
    (hzeros : loadCtZeros heap L base bits N ng = pure zp) :
    Safe (loadBody heap fl c bits N K ng scale zp) fun _ => True := by
  obtain ⟨se, -, hs⟩ := loadCtScale_eq_pure hscale
  have hpacked : c.isPacked → bits = 4 := by
    intro hpacked
    rw [(storedBits_eq_pure hbits).1, State.bitsOf, if_pos hpacked]
  have hrows := holdsRows_of_storedBits hw hK.1
    (fun h => (by decide : 8 ≤ 32).trans (Nat.le_of_dvd hK.1 (hs.channels_dvd (hpacked h)))) hbits
  refine Safe.ite (fun h8 => ?_) fun h8 => ?_
  · cases c with
    | int e i8 =>
      refine safe_loadInt8 hK.2 hN.2 ?_
      have hlen := Entry.Holds.length hrows
      rw [i8] at hlen
      exact hlen.trans (mul_one _)
    | packed e => exact absurd (hpacked rfl) (by rw [h8]; decide)
  · refine safe_loadInt4g hrows (hs.channels_dvd (hkind.resolve_left h8)) ?_ fun zs hzs => ?_
    · have hle := groups_le (by exact_mod_cast hN.1) hs.ns_pos hs.dvd hs.ng_eq
      rw [hs.length]
      omega
    · rcases loadCtZeros_eq_pure hzeros with ⟨-, hnone⟩ | ⟨ze, zs', -, hsome, hread⟩
      · rw [hnone] at hzs
        cases hzs
      · obtain rfl := Option.some.inj (hsome.symm.trans hzs)
        cases hread with
        | plain _ _ _ hentries => exact hentries.length
        | packed _ _ _ _ hentries => exact hentries.length

end Parts

/-- A projection of tensors that do not wrap is read inside of them. -/
theorem safe_loadCtWeight {heap : Heap} {fl : Floats} {L : State} {base : List UInt8}
    {c : Container} {N K : ℤ} (hL : L.NoWrap) (hc : ¬Wraps c.entry.info)
    (hN : N ≠ 0 ∧ -2 ^ 31 ≤ N ∧ N < 2 ^ 31) (hK : 0 < K ∧ K < 2 ^ 31) :
    Safe (loadCtWeight heap fl L base c N K) fun _ => 0 < N := by
  refine (safe_storedBits hL).then fun bits hbits _ => Safe.check.bind fun _ hkind =>
    Safe.check.bind fun _ _ => (safe_loadCtScale hL hN.1).then fun p hscale _ => ?_
  obtain ⟨ng, scale⟩ := p
  obtain ⟨se, -, hs⟩ := loadCtScale_eq_pure hscale
  have hpos := rows_pos hN.2.1 hK.2 hbits hs
  obtain ⟨n, rfl⟩ := Int.eq_ofNat_of_zero_le hpos.le
  obtain ⟨k, rfl⟩ := Int.eq_ofNat_of_zero_le hK.1.le
  obtain ⟨g, rfl⟩ := Int.eq_ofNat_of_zero_le hs.ng_pos.le
  have hn : n < 2 ^ 31 := by exact_mod_cast hN.2.2
  have hg : 0 < g := by exact_mod_cast hs.ng_pos
  have hk : 0 < k ∧ k < 2 ^ 31 := by exact_mod_cast hK
  exact (safe_loadCtZeros hL hn hg).then fun zp hzeros _ => (safe_checkGroupIndex hL).bind
    fun _ _ => (safe_loadBody hk ⟨by exact_mod_cast hpos, hn⟩ hc hbits hkind hscale hzeros).bind
      fun _ _ => Safe.pure hpos

end VibeVoice.Loader
