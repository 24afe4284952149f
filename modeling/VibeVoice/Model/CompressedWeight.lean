import VibeVoice.Model.CompressedRead

/-!
Compressed-tensors projections against their tensors.

* `Loaded.faithful`: a weight whose tensors fit is what they say.
* `Loaded.fits`: the tensors of a weight that is what they say fit.
* `ct_weight_iff`: an accepted weight is what its tensors say exactly when they fit.
* `asymmetric_loads`: an asymmetric INT8 weight that loads as a symmetric one.
-/

namespace VibeVoice.Loader

open Safetensors Fault Quant

/-! ### From the tensors to the weight -/

section Element

variable {heap : Heap} {fl : Floats} {L : State} {base : List UInt8} {c : Container}
  {N K ng n k g : ℕ} {se : Entry} {scale : List (Option UInt32)} {zp : Option (List ℤ)} {b : Body}

lemma numelOf_toInt {info : TensorInfo} (h : -2 ^ 63 ≤ numel info ∧ numel info < 2 ^ 63) :
    (numelOf info).toInt = numel info := by
  have hlow := (numelOf info).le_toInt
  have hhigh := (numelOf info).toInt_lt
  have hmod := numelOf_modEq info
  rw [Int.ModEq] at hmod
  omega

/-- A count that is the same packed along `N` and element by element is that of one row. -/
lemma packedShape_count {ze : Entry} (h : hasPackedShape ze N ng = true) (hN : 0 < N ∧ N < 2 ^ 31)
    (hng : 0 < ng ∧ ng < 2 ^ 26) : (numelOf ze.info).toInt = N * ng ↔ N = 1 := by
  rw [hasPackedShape, decide_eq_true_eq] at h
  set r : ℤ := ((N + 7 : ℤ).bmod (2 ^ 32)).tdiv 8 with hr
  have hnumel : numel ze.info = r * ng := by
    rw [numel, h.2, List.prod_cons, List.prod_singleton]
  have hrange : -2 ^ 28 ≤ r ∧ r ≤ 2 ^ 28 ∧ (r = N ↔ N = 1) := by
    rcases lt_or_ge (N + 7 : ℤ) (2 ^ 31) with hlt | hge
    · rw [bmod_eq_self ⟨by omega, hlt⟩, Int.tdiv_eq_ediv_of_nonneg (by omega)] at hr
      omega
    · have hneg : (N + 7 : ℤ).bmod (2 ^ 32) = N + 7 - 2 ^ 32 := by
        rw [Int.bmod_def]
        split_ifs <;> omega
      have hsplit : (N + 7 - 2 ^ 32 : ℤ) = -(2 ^ 32 - N - 7) := by ring
      rw [hneg, hsplit, Int.neg_tdiv, Int.tdiv_eq_ediv_of_nonneg (by omega)] at hr
      omega
  have hbound : -2 ^ 63 ≤ numel ze.info ∧ numel ze.info < 2 ^ 63 := by
    rw [hnumel]
    constructor <;> nlinarith
  rw [numelOf_toInt hbound, hnumel, ← hrange.2.2]
  exact mul_left_inj' (by omega)

lemma Loaded.ng_pos (hl : Loaded heap fl L base c N K ng se scale zp b) : 0 < ng := by
  exact_mod_cast hl.scales.ng_pos

lemma Loaded.ng_lt (hl : Loaded heap fl L base c N K ng se scale zp b) : ng < 2 ^ 26 := by
  rcases hl.bits with h8 | h4
  · have hone : ng = 1 := by exact_mod_cast hl.scales.eight h8
    rw [hone]
    decide
  · have hfour := Int.dvd_of_tmod_eq_zero (hl.scales.four h4)
    rw [← Int.ofNat_tdiv] at hfour
    have hgroup : 0 < K / ng := Nat.div_pos (Nat.le_of_dvd hl.K_pos hl.dvd) hl.ng_pos
    have hge : 32 ≤ K / ng := Nat.le_of_dvd hgroup (by exact_mod_cast hfour)
    have hK := hl.K_lt
    have hmul : ng * 32 ≤ K := (Nat.mul_le_mul_left ng hge).trans (Nat.mul_div_le K ng)
    omega

/-- The group of a channel is one of the row's. -/
lemma Loaded.group_lt (hl : Loaded heap fl L base c N K ng se scale zp b) (hk : k < K) :
    k / (K / ng) < ng := by
  obtain ⟨m, rfl⟩ := hl.dvd
  rw [Nat.mul_div_cancel_left m hl.ng_pos]
  exact Nat.div_lt_of_lt_mul (by rwa [Nat.mul_comm m ng])

/-- Where the scales are not too many, there is one a group. -/
lemma Loaded.numel_eq (hl : Loaded heap fl L base c N K ng se scale zp b)
    (h : 0 ≤ numel se.info ∧ numel se.info < 2 ^ 31 * N) : numel se.info = N * ng := by
  have hlt : numel se.info < 2 ^ 62 :=
    h.2.trans_le (by have := hl.N_lt; push_cast; nlinarith)
  have hns : (numelOf se.info).toInt = numel se.info := numelOf_toInt ⟨by omega, by omega⟩
  have hdvd := Int.dvd_of_tmod_eq_zero hl.scales.dvd
  have hng := hl.scales.ng_eq
  rw [hns] at hdvd hng
  obtain ⟨m, hm⟩ := hdvd
  have hN : (0 : ℤ) < N := by exact_mod_cast hl.N_pos
  have hm_nonneg : 0 ≤ m := nonneg_of_mul_nonneg_right (hm ▸ h.1) hN
  have hm_lt : m < 2 ^ 31 := by
    have := h.2
    rw [hm, mul_comm] at this
    exact lt_of_mul_lt_mul_right this hN.le
  rw [hm, Int.mul_tdiv_cancel_left m hN.ne', bmod_eq_self ⟨by omega, hm_lt⟩] at hng
  rw [hm, hng]

lemma Loaded.numelOf_eq (hl : Loaded heap fl L base c N K ng se scale zp b)
    (h : numel se.info = N * ng) : (numelOf se.info).toInt.toNat = N * ng := by
  have hprod : (N * ng : ℤ) < 2 ^ 63 := by
    have hN := hl.N_lt
    have hng := hl.ng_lt
    nlinarith
  have hpos : (0 : ℤ) ≤ N * ng := by positivity
  rw [numelOf_toInt ⟨by omega, h ▸ hprod⟩, h]
  exact_mod_cast Int.toNat_natCast (N * ng)

/-- The zero point the loader has read of a group is the one the file holds. -/
lemma Loaded.zero_eq (hl : Loaded heap fl L base c N K ng se scale zp b)
    (hfits : Fits L c base N K) (hn : n < N) (hg : g < ng) :
    ∃ z, storedZero c (L.find (base ++ literal ".weight_zero_point")) N ng n g = some z ∧
      zeroOf zp (n * ng + g) = some z ∧ -2 ^ 31 ≤ z ∧ z < 2 ^ 31 := by
  have hcell : n * ng + g < (N * ng : ℤ).toNat := by
    have := cell_lt_mul hn hg
    omega
  rcases hl.zeros with ⟨hfind, rfl⟩ | ⟨ze, zs, hfind, rfl, hread⟩
  · rw [hfind]
    exact ⟨0, rfl, rfl, by decide, by decide⟩
  · rw [hfind]
    cases hread with
    | plain bytes count int entries =>
      have hplain : zerosPacked c ze N ng = false := by
        by_contra hpacked
        rw [Bool.not_eq_false, zerosPacked, Bool.and_eq_true] at hpacked
        obtain ⟨hshape, hlay⟩ := hpacked
        have hone := (packedShape_count hshape ⟨hl.N_pos, hl.N_lt⟩ ⟨hl.ng_pos, hl.ng_lt⟩).mp count
        subst hone
        have hno := hfits.layout (by simpa using hlay) rfl se ze hl.find_scale hfind
        have hnumel := hl.numel_eq ⟨(hfits.scales se hl.find_scale).1,
          (hfits.scales se hl.find_scale).2.1⟩
        rw [hnumel, Nat.cast_one, one_mul, ← Nat.cast_one (R := ℤ), hshape] at hno
        cases hno
      have hget := entries.entry _ hcell
      rw [List.getElem?_eq_getElem (entries.length ▸ hcell)] at hget
      obtain ⟨v, hv, hcut⟩ := Option.map_eq_some_iff.mp hget.symm
      have hrange := hfits.zeros ze hfind _ _ hv
      rw [bmod_eq_self hrange] at hcut
      refine ⟨v, ?_, ?_, hrange⟩
      · rw [storedZero_of_plain n g hplain]
        exact hv
      · rw [zeroOf, List.getElem?_eq_getElem (entries.length ▸ hcell), hcut]
    | packed bytes count four shape entries =>
      have hpacked : zerosPacked c ze N ng = true := by
        rw [zerosPacked, shape, Bool.true_and, Bool.or_eq_true]
        refine .inr (decide_eq_true fun hone => count ?_)
        exact (packedShape_count shape ⟨hl.N_pos, hl.N_lt⟩ ⟨hl.ng_pos, hl.ng_lt⟩).mpr
          (by exact_mod_cast hone)
      have hget := entries.entry _ hcell
      have hdiv : (n * ng + g) / ng = n := by
        rw [mul_comm, Nat.mul_add_div hl.ng_pos, Nat.div_eq_of_lt hg, add_zero]
      have hmod : (n * ng + g) % ng = g := by
        rw [mul_comm, Nat.mul_add_mod, Nat.mod_eq_of_lt hg]
      rw [Int.toNat_natCast, hdiv, hmod,
        List.getElem?_eq_getElem (entries.length ▸ hcell)] at hget
      obtain ⟨w, hw, hz⟩ := Option.map_eq_some_iff.mp hget.symm
      have hlt := nibble_lt (UInt32.ofNat w) (n % 8)
      refine ⟨(nibble (UInt32.ofNat w) (n % 8)).toNat - 8, ?_, ?_, by omega, by omega⟩
      · rw [storedZero, hpacked, if_pos rfl, packedZero, hw]
        rfl
      · rw [zeroOf, List.getElem?_eq_getElem (entries.length ▸ hcell), hz]

lemma word_one (e : Entry) (i : ℕ) : e.word 1 i = e.data[i]?.map fun (x : UInt8) => x.toNat := by
  rw [Entry.word, Nat.mul_one, Nat.mul_one]
  split_ifs with h
  · have hget : e.data[i]? = some e.data[i] := List.getElem?_eq_getElem h
    rw [List.drop_eq_getElem_cons h, hget]
    rfl
  · rw [List.getElem?_eq_none (by omega)]
    rfl

/-- The scale the loader has read of a group. -/
lemma Loaded.scale_eq (hl : Loaded heap fl L base c N K ng se scale zp b)
    (hnumel : numel se.info = N * ng) (hn : n < N) (hg : g < ng) :
    scale[n * ng + g]? = if n * ng + g < converted (N * ng) then
      (storedScale fl se (n * ng + g)).map some else some none := by
  have hentry := hl.scales.entry
  rw [hl.numelOf_eq hnumel] at hentry
  exact hentry _ (cell_lt_mul hn hg)

/-- Where all scales are converted, each is that of the file. -/
lemma Loaded.scale_of_fits (hl : Loaded heap fl L base c N K ng se scale zp b)
    (hfits : Fits L c base N K) (hn : n < N) (hg : g < ng) :
    ∃ s, storedScale fl se (n * ng + g) = some s ∧ scale[n * ng + g]? = some (some s) := by
  obtain ⟨hpos, hlt, hlimit⟩ := hfits.scales se hl.find_scale
  have hnumel := hl.numel_eq ⟨hpos, hlt⟩
  have hcell := cell_lt_mul hn hg
  have hconv : converted (N * ng) = N * ng := by
    refine converted_eq ?_
    rw [hnumel] at hlimit
    exact_mod_cast hlimit
  have hget := hl.scale_eq hnumel hn hg
  have hlen : n * ng + g < scale.length := by
    rw [hl.scales.length, hl.numelOf_eq hnumel]
    exact hcell
  rw [hconv, if_pos hcell, List.getElem?_eq_getElem hlen] at hget
  obtain ⟨s, hs, hcut⟩ := Option.map_eq_some_iff.mp hget.symm
  exact ⟨s, hs, by rw [List.getElem?_eq_getElem hlen, hcut]⟩

/-- The tensors of an accepted INT8 weight. -/
lemma Loaded.int8 (hl : Loaded heap fl L base c N K ng se scale zp b) (h8 : L.bitsOf c = 8) :
    ng = 1 ∧ b = .int8 (c.entry.data.take (N * K)) scale ∧
      ∀ n < N, ∀ z, zeroOf zp n = some z → z = 0 := by
  have hbody := hl.body
  rw [loadBody, if_pos h8] at hbody
  obtain ⟨_, hzeros, hbody⟩ := bind_eq_pure.mp hbody
  obtain ⟨_, -, hbody⟩ := bind_eq_pure.mp hbody
  obtain ⟨_, -, hbody⟩ := bind_eq_pure.mp hbody
  have hmod : ((N : ℤ) * K % 2 ^ 64).toNat = N * K := by
    have hN := hl.N_lt
    have hK := hl.K_lt
    rw [Int.emod_eq_of_lt (by positivity) (by nlinarith)]
    exact_mod_cast Int.toNat_natCast (N * K)
  refine ⟨by exact_mod_cast hl.scales.eight h8, ?_, fun n hn z hz => ?_⟩
  · rw [← pure_inj.mp hbody, hmod]
  · have hall := check_eq_pure.mp hzeros
    cases zp with
    | none => exact (Option.some.inj hz).symm
    | some zs =>
      rw [zeroOf, List.getElem?_eq_some_iff] at hz
      obtain ⟨hlt, hz⟩ := hz
      rw [List.all_eq_true] at hall
      refine of_decide_eq_true (hall z ?_)
      rw [Option.getD_some, ← hz, Int.toNat_natCast]
      exact List.mem_take_iff_getElem.mpr ⟨n, by omega, rfl⟩

lemma isPacked_of_eight (h8 : L.bitsOf c = 8) : c.isPacked = false := by
  by_contra hpacked
  rw [Bool.not_eq_false] at hpacked
  rw [State.bitsOf, if_pos hpacked] at h8
  exact absurd h8 (by decide)

/-- An INT8 weight whose tensors fit is what they say. -/
lemma Loaded.element_int8 (hl : Loaded heap fl L base c N K ng se scale zp b)
    (hfits : Fits L c base N K) (h8 : L.bitsOf c = 8) (hn : n < N) (hk : k < K) :
    ∃ q z s, storedCode c K n k = some q ∧
      storedZero c (L.find (base ++ literal ".weight_zero_point")) N ng n (k / (K / ng)) = some z ∧
      storedScale fl se (n * ng + k / (K / ng)) = some s ∧
      b.Element fl K n k (k / (K / ng)) q z s := by
  have hg := hl.group_lt hk
  obtain ⟨rfl, rfl, hsym⟩ := hl.int8 h8
  obtain ⟨z, hz, hread, -⟩ := hl.zero_eq hfits hn hg
  obtain ⟨s, hs, hscale⟩ := hl.scale_of_fits hfits hn hg
  have hg0 : k / (K / 1) = 0 := Nat.lt_one_iff.mp hg
  rw [hg0, mul_one, add_zero] at hread hscale
  obtain rfl := hsym n hn z hread
  cases c with
  | packed e => cases isPacked_of_eight (L := L) (c := .packed e) h8
  | int e i8 =>
    have hcell := cell_lt_mul hn hk
    have hlen : n * K + k < e.data.length := by
      rw [hl.int e i8 rfl]
      exact hcell
    have hq : storedCode (.int e i8) K n k = some (signed 1 (e.data[n * K + k]).toNat) := by
      rw [storedCode, storedInt, i8]
      show (e.word 1 (n * K + k)).map (signed 1) = _
      rw [word_one, List.getElem?_eq_getElem hlen]
      rfl
    refine ⟨_, 0, s, hq, hz, hs, signed 1 (e.data[n * K + k]).toNat, 0, ?_, rfl, by rfl, ?_, rfl,
      rfl⟩
    · show ((e.data.take (N * K))[n * K + k]?.map fun (x : UInt8) => signed 1 x.toNat) = _
      rw [List.getElem?_take_of_lt hcell, List.getElem?_eq_getElem hlen]
      rfl
    · show scale[n]?.join.map ScaleBits.f32 = _
      rw [hscale]
      rfl

/-- The rows of an accepted INT4G weight. -/
lemma Loaded.int4g (hl : Loaded heap fl L base c N K ng se scale zp b) (h4 : L.bitsOf c = 4) :
    2 ∣ K ∧ ∃ rows : List (Int4gRow × ℕ), b = .int4g (rows.map Prod.fst) (K / ng : ℕ) ∧
      rows.length = N ∧ (rows.map Prod.snd).sum % 2 ^ 32 = 0 ∧
      ∀ n < N, ∃ r, rows[n]? = some r ∧ IsCtRow fl c scale zp K ng n r.1 r.2 := by
  have hbody := hl.body
  rw [loadBody, if_neg (by rw [h4]; decide)] at hbody
  obtain ⟨_, -, hbody⟩ := bind_eq_pure.mp hbody
  obtain ⟨_, -, hbody⟩ := bind_eq_pure.mp hbody
  obtain ⟨_, -, hbody⟩ := bind_eq_pure.mp hbody
  obtain ⟨_, -, hbody⟩ := bind_eq_pure.mp hbody
  obtain ⟨rows, hrows, hbody⟩ := bind_eq_pure.mp hbody
  obtain ⟨_, hsum, hbody⟩ := bind_eq_pure.mp hbody
  obtain ⟨hlen, hall⟩ := Loop.getElem?_of_mapM_range (lift_eq_pure.mp hrows)
  have heven : 2 ∣ K := by
    have hfour : (32 : ℤ) ∣ (K : ℤ).tdiv ng := Int.dvd_of_tmod_eq_zero (hl.scales.four h4)
    have hK : (32 : ℤ) ∣ K := by
      rw [← Int.tdiv_mul_cancel (Int.dvd_of_tmod_eq_zero hl.scales.K_dvd)]
      exact hfour.mul_right _
    omega
  refine ⟨heven, rows, (pure_inj.mp hbody).symm, hlen, check_eq_pure.mp hsum, fun n hn => ?_⟩
  have hget : rows[n]? = some rows[n] := List.getElem?_eq_getElem (hlen ▸ hn)
  exact ⟨rows[n], hget, ctRow_eq_some heven ((hall n hn).symm.trans hget)⟩

/-- What row `n` counts as bad. -/
lemma Loaded.bad_eq (hl : Loaded heap fl L base c N K ng se scale zp b)
    (hfits : Fits L c base N K) (hn : n < N) {row : Int4gRow} {bad : ℕ}
    (h : IsCtRow fl c scale zp K ng n row bad) :
    bad = outInRow c (L.find (base ++ literal ".weight_zero_point")) N K ng n := by
  rw [h.bad_eq, outInRow]
  congr 1
  refine List.countP_congr fun g hg => ?_
  obtain ⟨z, hz, hread, hrange⟩ := hl.zero_eq hfits hn (List.mem_range.mp hg)
  rw [hz, hread, Option.any_some, outside, outOfNibble, Option.any_some, Int.bmod_def]
  simp only [Bool.or_eq_true, decide_eq_true_eq]
  split_ifs <;> omega

/-- Where fewer than `2 ^ 32` are bad, none of an accepted INT4G weight is. -/
lemma Loaded.outInRow_eq_zero (hl : Loaded heap fl L base c N K ng se scale zp b)
    (hfits : Fits L c base N K) (h4 : L.bitsOf c = 4) (hn : n < N) :
    outInRow c (L.find (base ++ literal ".weight_zero_point")) N K ng n = 0 := by
  obtain ⟨-, rows, -, hlen, hsum, hall⟩ := hl.int4g h4
  have hbad : rows.map Prod.snd = (List.range N).map
      (outInRow c (L.find (base ++ literal ".weight_zero_point")) N K ng) := by
    refine List.ext_getElem? fun i => ?_
    rw [List.getElem?_map, List.getElem?_map]
    rcases Nat.lt_or_ge i N with hi | hi
    · obtain ⟨r, hr, hrow⟩ := hall i hi
      rw [hr, List.getElem?_range hi, Option.map_some, Option.map_some, hl.bad_eq hfits hi hrow]
    · rw [List.getElem?_eq_none (hlen.le.trans hi),
        List.getElem?_eq_none (List.length_range.le.trans hi)]
      rfl
  have hnumel := hl.numel_eq ⟨(hfits.scales se hl.find_scale).1,
    (hfits.scales se hl.find_scale).2.1⟩
  have hgroups : (numel se.info / N).toNat = ng := by
    rw [hnumel, Int.mul_ediv_cancel_left _ (by exact_mod_cast hl.N_pos.ne'), Int.toNat_natCast]
  have hlt := hfits.count h4 se hl.find_scale
  rw [hgroups, ← hbad] at hlt
  rw [Nat.mod_eq_of_lt hlt, hbad] at hsum
  exact List.sum_eq_zero_iff.mp hsum _ (List.mem_map_of_mem (List.mem_range.mpr hn))

/-- An INT4G weight whose tensors fit is what they say. -/
lemma Loaded.element_int4g (hl : Loaded heap fl L base c N K ng se scale zp b)
    (hfits : Fits L c base N K) (h4 : L.bitsOf c = 4) (hn : n < N) (hk : k < K) :
    ∃ q z s, storedCode c K n k = some q ∧
      storedZero c (L.find (base ++ literal ".weight_zero_point")) N ng n (k / (K / ng)) = some z ∧
      storedScale fl se (n * ng + k / (K / ng)) = some s ∧
      b.Element fl K n k (k / (K / ng)) q z s := by
  have hg := hl.group_lt hk
  have hzero := hl.outInRow_eq_zero hfits h4 hn
  obtain ⟨heven, rows, rfl, -, -, hall⟩ := hl.int4g h4
  obtain ⟨r, hr, hrow⟩ := hall n hn
  obtain ⟨q, hq, hcode⟩ := hrow.stored k hk
  obtain ⟨z, hz, hread, -⟩ := hl.zero_eq hfits hn hg
  obtain ⟨s, hs, hscale⟩ := hl.scale_of_fits hfits hn hg
  obtain ⟨s', z', hs', hz', hsc, hzr, hmn⟩ := hrow.group _ hg
  obtain rfl := Option.some.inj (hread.symm.trans hz')
  obtain rfl := Option.some.inj (hscale.symm.trans hs')
  rw [outInRow, Nat.add_eq_zero_iff, List.countP_eq_zero, List.countP_eq_zero] at hzero
  have hqrange : -8 ≤ q ∧ q ≤ 7 := by
    have hpair := hzero.1 (2 * (k / 2)) (List.mem_range'.mpr ⟨k / 2, by omega, by omega⟩)
    rw [Bool.not_eq_true, Bool.or_eq_false_iff] at hpair
    refine outOfNibble_eq_false.mp ?_
    rw [← hq]
    rcases Nat.mod_two_eq_zero_or_one k with hmod | hmod
    · rw [show k = 2 * (k / 2) by omega]
      exact hpair.1
    · rw [show k = 2 * (k / 2) + 1 by omega]
      exact hpair.2
  have hzrange : -8 ≤ z ∧ z ≤ 7 := by
    have hgroup := hzero.2 _ (List.mem_range.mpr hg)
    rw [hz, Bool.not_eq_true] at hgroup
    exact outOfNibble_eq_false.mp hgroup
  have hcut : (8 + z).bmod (2 ^ 32) = z + 8 := by
    rw [bmod_eq_self ⟨by omega, by omega⟩, add_comm]
  rw [hcut] at hzr hmn
  have hget : (rows.map Prod.fst)[n]? = some r.1 := by
    rw [List.getElem?_map, hr]
    rfl
  have hhold : ((hold (z + 8)).toNat : ℤ) = z + 8 := hold_eq (by omega)
  refine ⟨q, z, s, hq, hz, hs, q + 8, z + 8, ?_, ?_, by ring, ?_, ?_, hqrange, hzrange, by omega,
    by omega⟩
  · show ((rows.map Prod.fst)[n]?.bind fun row =>
      (rowCode row.packed k).map fun (q : UInt8) => (q.toNat : ℤ)) = some (q + 8)
    rw [hget, Option.bind_some, hcode]
    exact congrArg some (hold_eq (by omega))
  · show ((rows.map Prod.fst)[n]?.bind fun row =>
      row.zeros[k / (K / ng)]?.map fun (z : UInt8) => (z.toNat : ℤ)) = some (z + 8)
    rw [hget, Option.bind_some, hzr]
    exact congrArg some hhold
  · show ((rows.map Prod.fst)[n]?.bind fun row => row.scales[k / (K / ng)]?.join).map
      ScaleBits.f16 = _
    rw [hget, Option.bind_some, hsc]
    rfl
  · show ((rows.map Prod.fst)[n]?.bind fun row => row.mins[k / (K / ng)]?.join) = _
    rw [hget, Option.bind_some, hmn, hhold]
    rfl

/-- A projection whose tensors fit is what they say. -/
lemma Loaded.faithful (hl : Loaded heap fl L base c N K ng se scale zp b)
    (hfits : Fits L c base N K) : Faithful fl L c base N K b := by
  refine ⟨se, ng, hl.find_scale, ⟨hl.ng_pos, hl.dvd, hl.numel_eq ⟨(hfits.scales se
    hl.find_scale).1, (hfits.scales se hl.find_scale).2.1⟩, fun n hn k hk => ?_⟩,
    fun gi hfind k hk => ?_, fun hpacked sh hfind => ?_⟩
  · rcases hl.bits with h8 | h4
    · exact hl.element_int8 hfits h8 hn hk
    · exact hl.element_int4g hfits h4 hn hk
  · obtain ⟨v, hv, hcut⟩ := Option.map_eq_some_iff.mp ((hl.groups gi hfind).2.2.2 k hk)
    rw [hv, ← hcut, bmod_eq_self (hfits.groups gi hfind _ _ hv)]
  · obtain ⟨htwo, hbytes, hint, hall⟩ := hfits.shape hpacked sh hfind
    obtain ⟨hrows, hcolumns⟩ := hl.shape hpacked sh hfind htwo hbytes hint
    obtain ⟨v, hv, hcut⟩ := Option.map_eq_some_iff.mp hrows
    obtain ⟨v', hv', hcut'⟩ := Option.map_eq_some_iff.mp hcolumns
    rw [bmod_eq_self (hall _ _ hv)] at hcut
    rw [bmod_eq_self (hall _ _ hv')] at hcut'
    exact ⟨htwo, hbytes, hcut ▸ hv, hcut' ▸ hv'⟩

end Element

/-! ### From the weight to the tensors -/

section Converse

variable {heap : Heap} {fl : Floats} {L : State} {base : List UInt8} {c : Container}
  {N K ng n k g : ℕ} {se : Entry} {scale : List (Option UInt32)} {zp : Option (List ℤ)} {b : Body}

/-- The integers that are read of a tensor of `m` elements are those of its first `m` words. -/
lemma allInt32_of_count {e : Entry} {m : ℕ} (hbytes : bytesOk e = true)
    (hcount : (numelOf e.info).toInt = m) (hm : m < 2 ^ 60)
    (h : ∀ i < m, ∀ v, storedInt e i = some v → -2 ^ 31 ≤ v ∧ v < 2 ^ 31) : AllInt32 e := by
  intro i v hv
  have hsize := e.info.dtype.size_le
  have hlen := length_eq hbytes hcount (by positivity) (by
    have : (m : ℤ) * e.info.dtype.size ≤ m * 8 := by exact_mod_cast Nat.mul_le_mul_left m hsize
    omega)
  exact h i (lt_of_storedInt hv (by exact_mod_cast hlen)) v hv

/-- The groups of the file are those of the loader. -/
lemma Loaded.groups_eq (hl : Loaded heap fl L base c N K ng se scale zp b) {m : ℕ}
    (hnumel : numel se.info = N * m) (hdvd : m ∣ K) : m = ng := by
  have hm : m < 2 ^ 31 := (Nat.le_of_dvd hl.K_pos hdvd).trans_lt hl.K_lt
  have hN := hl.N_lt
  have hng := hl.scales.ng_eq
  have hprod : (N * m : ℤ) < 2 ^ 63 := by nlinarith
  have hpos : (0 : ℤ) ≤ N * m := by positivity
  rw [numelOf_toInt ⟨by omega, by omega⟩, hnumel,
    Int.mul_tdiv_cancel_left _ (by exact_mod_cast hl.N_pos.ne'),
    bmod_eq_self ⟨by omega, by omega⟩] at hng
  exact_mod_cast hng.symm

/-- What is read of a group is read of a channel of it. -/
lemma Loaded.exists_channel (hl : Loaded heap fl L base c N K ng se scale zp b) (hg : g < ng) :
    ∃ k < K, k / (K / ng) = g := by
  obtain ⟨m, rfl⟩ := hl.dvd
  have hm : 0 < m := Nat.pos_of_mul_pos_left hl.K_pos
  refine ⟨m * g, ?_, ?_⟩
  · rw [Nat.mul_comm ng m]
    exact Nat.mul_lt_mul_of_pos_left hg hm
  · rw [Nat.mul_div_cancel_left m hl.ng_pos, Nat.mul_div_cancel_left g hm]

/-- A word is of its number of bytes. -/
lemma word_lt {e : Entry} {w i v : ℕ} (h : e.word w i = some v) : v < 256 ^ w := by
  rw [Entry.word] at h
  split_ifs at h
  rw [← Option.some.inj h]
  exact (littleEndian_lt _).trans_le (Nat.pow_le_pow_right (by decide) (List.length_take_le _ _))

lemma nibble_zero {w : ℕ} (h : w < 2 ^ 32) : (nibble (UInt32.ofNat w) 0).toNat = w % 16 := by
  have hw : (UInt32.ofNat w).toNat = w := Nat.mod_eq_of_lt h
  have hshift : UInt32.ofNat w >>> UInt32.ofNat (4 * 0) = UInt32.ofNat w := UInt32.shiftRight_zero
  have hand : (UInt32.ofNat w &&& 0xF).toNat = w % 16 := by
    rw [UInt32.toNat_and, hw]
    exact Nat.and_two_pow_sub_one_eq_mod w 4
  rw [nibble, hshift, UInt32.toNat_toUInt8, hand]
  omega

section Fits

variable (hl : Loaded heap fl L base c N K ng se scale zp b)
  (hd : Dequantizes fl c se (L.find (base ++ literal ".weight_zero_point")) N K ng b)

include hl hd

/-- The zero point of a group is in the format of the weight. -/
lemma zero_inFormat (hn : n < N) (hg : g < ng) :
    ∃ z, storedZero c (L.find (base ++ literal ".weight_zero_point")) N ng n g = some z ∧
      -8 ≤ z ∧ z ≤ 7 := by
  obtain ⟨k, hk, rfl⟩ := hl.exists_channel hg
  obtain ⟨q, z, s, -, hz, -, code, zero, -, -, -, -, -, hformat⟩ := hd.element n hn k hk
  refine ⟨z, hz, ?_⟩
  cases b with
  | int8 codes scales =>
    obtain rfl : z = 0 := hformat
    exact ⟨by decide, by decide⟩
  | int4g rows G => exact hformat.2.1

/-- The scale of a group has been converted. -/
lemma scale_converted (hn : n < N) (hg : g < ng) : ∃ s, scale[n * ng + g]? = some (some s) := by
  obtain ⟨k, hk, hkg⟩ := hl.exists_channel hg
  obtain ⟨q, z, s, -, -, -, code, zero, -, -, -, hscale, -, -⟩ := hd.element n hn k hk
  rw [hkg] at hscale
  rcases hl.bits with h8 | h4
  · obtain ⟨rfl, rfl, -⟩ := hl.int8 h8
    obtain rfl := Nat.lt_one_iff.mp hg
    obtain ⟨r, hr, -⟩ := Option.map_eq_some_iff.mp hscale
    exact ⟨r, by rw [mul_one, add_zero]; exact Option.join_eq_some_iff.mp hr⟩
  · obtain ⟨-, rows, rfl, -, -, hall⟩ := hl.int4g h4
    obtain ⟨r, hr, hrow⟩ := hall n hn
    obtain ⟨s', z', hs', -, hsc, -, -⟩ := hrow.group g hg
    have hget : (rows.map Prod.fst)[n]? = some r.1 := by
      rw [List.getElem?_map, hr]
      rfl
    obtain ⟨h, hh, -⟩ := Option.map_eq_some_iff.mp hscale
    rw [hget, Option.bind_some, hsc] at hh
    have hmap : s'.map fl.toHalf = some h := Option.some.inj (Option.join_eq_some_iff.mp hh)
    obtain ⟨s'', rfl, -⟩ := Option.map_eq_some_iff.mp hmap
    exact ⟨s'', hs'⟩

lemma scales_fit : 0 ≤ numel se.info ∧ numel se.info < 2 ^ 31 * N ∧ numel se.info ≤ convLimit := by
  have hng := hl.ng_lt
  have hN := hl.N_pos
  refine ⟨by rw [hd.scales]; positivity, by rw [hd.scales]; nlinarith, ?_⟩
  rw [hd.scales]
  by_contra hgt
  rw [not_le] at hgt
  have hcell : convLimit < N * ng := by exact_mod_cast hgt
  have hn : convLimit / ng < N := Nat.div_lt_of_lt_mul (by rwa [Nat.mul_comm ng N])
  have hg : convLimit % ng < ng := Nat.mod_lt _ hl.ng_pos
  obtain ⟨s, hs⟩ := scale_converted hl hd hn hg
  have hindex : convLimit / ng * ng + convLimit % ng = convLimit := Nat.div_add_mod' _ _
  rw [hl.scale_eq hd.scales hn hg, hindex, if_neg (converted_le _).not_gt] at hs
  cases hs

lemma zeros_fit {ze : Entry}
    (hfind : L.find (base ++ literal ".weight_zero_point") = some ze) : AllInt32 ze := by
  rcases hl.zeros with ⟨hnone, -⟩ | ⟨ze', zs, hfind', -, hread⟩
  · rw [hnone] at hfind
    cases hfind
  obtain rfl := Option.some.inj (hfind'.symm.trans hfind)
  cases hread with
  | packed bytes count four shape entries =>
    rw [hasPackedShape, decide_eq_true_eq] at shape
    exact allInt32_of_i32 shape.1
  | plain bytes count int entries =>
    by_cases hpacked : zerosPacked c ze' N ng = true
    · rw [zerosPacked, Bool.and_eq_true, hasPackedShape, decide_eq_true_eq] at hpacked
      exact allInt32_of_i32 hpacked.1.1
    · have hN := hl.N_lt
      have hng := hl.ng_lt
      refine @allInt32_of_count _ (N * ng) bytes (by exact_mod_cast count) (by nlinarith)
        fun i hi v hv => ?_
      have hn : i / ng < N := Nat.div_lt_of_lt_mul (by rwa [Nat.mul_comm ng N])
      obtain ⟨z, hz, hrange⟩ := zero_inFormat hl hd hn (Nat.mod_lt i hl.ng_pos)
      rw [hfind', storedZero, if_neg hpacked, Nat.div_add_mod', hv] at hz
      obtain rfl := Option.some.inj hz
      omega

/-- A packed container of one row has its zero points read as integers that are not those of the
file. -/
lemma layout_fits (hpacked : c.isPacked = true) (hone : N = 1) {ze : Entry}
    (hfind : L.find (base ++ literal ".weight_zero_point") = some ze) :
    hasPackedShape ze N (numel se.info) = false := by
  subst hone
  by_contra hshape
  rw [Bool.not_eq_false, hd.scales, Nat.cast_one, one_mul, ← Nat.cast_one (R := ℤ)] at hshape
  have hcount := (packedShape_count hshape ⟨hl.N_pos, hl.N_lt⟩
    ⟨hl.ng_pos, hl.ng_lt⟩).mpr rfl
  have h4 : L.bitsOf c = 4 := by rw [State.bitsOf, if_pos hpacked]
  obtain ⟨-, rows, rfl, hlen, hsum, hall⟩ := hl.int4g h4
  obtain ⟨r, hr, hrow⟩ := hall 0 Nat.one_pos
  -- one row is too short for its bad values to come to 0 modulo `2 ^ 32`
  have hbad : r.2 = 0 := by
    obtain rfl : rows = [r] := by
      obtain ⟨a, rfl⟩ := List.length_eq_one_iff.mp hlen
      exact congrArg (fun x => [x]) (Option.some.inj hr)
    have hsmall : r.2 ≤ K / 2 + ng := by
      rw [hrow.bad_eq]
      refine Nat.add_le_add (List.countP_le_length.trans ?_) (List.countP_le_length.trans ?_)
      · rw [List.length_range']
      · rw [List.length_range]
    have hK := hl.K_lt
    have hng := hl.ng_lt
    rw [List.map_singleton, List.sum_singleton, Nat.mod_eq_of_lt (by omega)] at hsum
    exact hsum
  obtain ⟨s, z, -, hz, -, hzr, -⟩ := hrow.group 0 hl.ng_pos
  rcases hl.zeros with ⟨hnone, -⟩ | ⟨ze', zs, hfind', rfl, hread⟩
  · rw [hnone] at hfind
    cases hfind
  obtain rfl := Option.some.inj (hfind'.symm.trans hfind)
  cases hread with
  | packed bytes count => exact count hcount
  | plain bytes count int entries =>
    have hi32 := hshape
    rw [hasPackedShape, decide_eq_true_eq] at hi32
    -- the word of the first group, read as an integer and as a nibble
    obtain ⟨v, hv, hcut⟩ := Option.map_eq_some_iff.mp
      ((entries.entry 0 (by have := hl.ng_pos; omega)).symm.trans (by simpa [zeroOf] using hz))
    obtain ⟨w, hw, rfl⟩ := word_of_storedInt hv
    rw [hi32.1] at hw hcut
    change ze'.word 4 0 = some w at hw
    obtain ⟨k, hk, hkg⟩ := hl.exists_channel hl.ng_pos
    obtain ⟨q, z', s', hq, hz', -, code, zero, hcode, hzero, hsub, -, -, hformat⟩ :=
      hd.element 0 Nat.one_pos k hk
    rw [hkg] at hz' hzero
    have hlay : zerosPacked c ze' (1 : ℕ) ng = true := by
      rw [zerosPacked, hshape, hpacked]
      rfl
    rw [hfind', storedZero, hlay, if_pos rfl, packedZero] at hz'
    obtain ⟨w', hw', rfl⟩ := Option.map_eq_some_iff.mp hz'
    obtain rfl : w = w' := Option.some.inj (hw.symm.trans (by simpa using hw'))
    have hnibble := nibble_zero (word_lt hw)
    change code - zero = q - ((nibble (UInt32.ofNat w) 0).toNat - 8) at hsub
    obtain ⟨q', hq', hrc⟩ := hrow.stored k hk
    obtain rfl := Option.some.inj (hq.symm.trans hq')
    have hget : (rows.map Prod.fst)[0]? = some r.1 := by
      rw [List.getElem?_map, hr]
      rfl
    have hcode_eq : code = q + 8 := by
      change ((rows.map Prod.fst)[0]?.bind fun row =>
        (rowCode row.packed k).map fun (q : UInt8) => (q.toNat : ℤ)) = some code at hcode
      rw [hget, Option.bind_some, hrc] at hcode
      rw [← Option.some.inj hcode]
      exact hold_eq (by have := hformat.1; omega)
    have hin : 0 ≤ (8 + z).bmod (2 ^ 32) ∧ (8 + z).bmod (2 ^ 32) ≤ 15 := by
      have hcount := hrow.bad_eq
      rw [hbad, eq_comm, Nat.add_eq_zero_iff, List.countP_eq_zero, List.countP_eq_zero] at hcount
      have hout := hcount.2 0 (List.mem_range.mpr hl.ng_pos)
      rw [hz, Option.any_some, outside, Bool.or_eq_true, decide_eq_true_eq,
        decide_eq_true_eq] at hout
      omega
    have hzero_eq : zero = (8 + z).bmod (2 ^ 32) := by
      change ((rows.map Prod.fst)[0]?.bind fun row =>
        row.zeros[0]?.map fun (z : UInt8) => (z.toNat : ℤ)) = some zero at hzero
      rw [hget, Option.bind_some, hzr] at hzero
      rw [← Option.some.inj hzero]
      exact hold_eq hin
    have hword := word_lt hw
    have hv : z = (w : ℤ).bmod (2 ^ 32) := by
      rw [← hcut]
      exact bmod_eq_self (bmod_range _)
    rw [Int.bmod_def] at hv hzero_eq hin
    split_ifs at hv hzero_eq hin <;> omega

/-- The tensors of a weight that is what they say fit. -/
lemma Loaded.fits (hplain : PlainGroups (L.find (base ++ literal ".weight_g_idx")) K ng)
    (hshape : c.isPacked → ∀ sh, L.find (base ++ literal ".weight_shape") = some sh →
      SaysShape sh N K) : Fits L c base N K where
  scales se' hfind := by
    obtain rfl := Option.some.inj (hl.find_scale.symm.trans hfind)
    exact scales_fit hl hd
  zeros ze hfind := zeros_fit hl hd hfind
  groups gi hfind := by
    obtain ⟨hcount, hbytes, -, -⟩ := hl.groups gi hfind
    have hK := hl.K_lt
    refine allInt32_of_count hbytes hcount (by omega) fun k hk v hv => ?_
    have hle : k / (K / ng) ≤ k := Nat.div_le_self _ _
    rw [hplain gi hfind k hk] at hv
    obtain rfl := Option.some.inj hv
    generalize k / (K / ng) = g at hle
    omega
  shape hpacked sh hfind := by
    obtain ⟨htwo, hbytes, hrows, hcolumns⟩ := hshape hpacked sh hfind
    have hN := hl.N_lt
    have hK := hl.K_lt
    refine ⟨htwo, hbytes, isCtInt_of_storedInt hrows, @allInt32_of_count _ 2 hbytes
      (by rw [htwo]; rfl) (by decide) fun i hi v hv => ?_⟩
    obtain rfl | rfl : i = 0 ∨ i = 1 := by omega
    · obtain rfl := Option.some.inj (hrows.symm.trans hv)
      omega
    · obtain rfl := Option.some.inj (hcolumns.symm.trans hv)
      omega
  layout hpacked hone se' ze hfind hfindz := by
    obtain rfl := Option.some.inj (hl.find_scale.symm.trans hfind)
    exact layout_fits hl hd hpacked hone hfindz
  count h4 se' hfind := by
    obtain rfl := Option.some.inj (hl.find_scale.symm.trans hfind)
    rw [hd.scales, Int.mul_ediv_cancel_left _ (by exact_mod_cast hl.N_pos.ne'), Int.toNat_natCast]
    have hzero : ∀ n ∈ List.range N,
        outInRow c (L.find (base ++ literal ".weight_zero_point")) N K ng n = 0 := by
      intro n hn
      have hn := List.mem_range.mp hn
      rw [outInRow, Nat.add_eq_zero_iff, List.countP_eq_zero, List.countP_eq_zero]
      have hcode : ∀ k < K, outOfNibble (storedCode c K n k) = false := by
        intro k hk
        obtain ⟨q, z, s, hq, -, -, code, zero, -, -, -, -, -, hformat⟩ := hd.element n hn k hk
        obtain ⟨-, rows, rfl, -⟩ := hl.int4g h4
        rw [hq, outOfNibble_eq_false]
        exact hformat.1
      refine ⟨fun k hk => ?_, fun g hg => ?_⟩
      · rw [hcode k (Nat.lt_of_succ_lt (mem_pairs hk)), hcode (k + 1) (mem_pairs hk)]
        decide
      · obtain ⟨z, hz, hrange⟩ := zero_inFormat hl hd hn (List.mem_range.mp hg)
        rw [hz, outOfNibble_eq_false.mpr hrange]
        decide
    rw [List.sum_eq_zero_iff.mpr fun x hx => ?_]
    · decide
    · obtain ⟨n, hn, rfl⟩ := List.mem_map.mp hx
      exact hzero n hn

end Fits

end Converse

/-! ### The whole function -/

section Main

variable {heap : Heap} {fl : Floats} {L : State} {base : List UInt8} {c : Container}

/-- A projection that `load_ct_weight` accepts is what its tensors say exactly when nothing of them
is cut off on the way. -/
theorem ct_weight_iff {N K : Int32} {w : Weight}
    (h : loadCtWeight heap fl L base c N.toInt K.toInt = pure w) :
    Faithful fl L c base N.toInt.toNat K.toInt.toNat w.body ↔
      Fits L c base N.toInt.toNat K.toInt.toNat := by
  obtain ⟨-, -, ng, se, scale, zp, hl⟩ :=
    loaded_of_pure ⟨N.le_toInt, N.toInt_lt⟩ ⟨K.le_toInt, K.toInt_lt⟩ h
  refine ⟨?_, hl.faithful⟩
  rintro ⟨se', ng', hfind, hd, hplain, hshape⟩
  obtain rfl := Option.some.inj (hl.find_scale.symm.trans hfind)
  obtain rfl := hl.groups_eq hd.scales hd.dvd
  exact hl.fits hd hplain hshape

/-- One row of 32 channels in a packed container, the codes `-8` and `7` in turns. -/
theorem ct_weight_iff_sample :
    Faithful plainFloats
        ⟨[tensor "w.weight_scale" .f16 [1, 1] [0, 60] (by decide)], .auto, 0, false⟩
        (.packed (tensor "w.weight_packed" .i32 [1, 4] (List.replicate 16 0xF0) (by decide)))
        (literal "w") 1 32
        (.int4g [⟨List.replicate 16 0x0F, [some 0x3C00], [some 0x3C00], [8]⟩] 32) ↔
      Fits ⟨[tensor "w.weight_scale" .f16 [1, 1] [0, 60] (by decide)], .auto, 0, false⟩
        (.packed (tensor "w.weight_packed" .i32 [1, 4] (List.replicate 16 0xF0) (by decide)))
        (literal "w") 1 32 :=
  @ct_weight_iff smallHeap _ _ _ _ 1 32 ⟨false, _⟩ rfl

/-- An INT8 weight of one channel, its zero point `2 ^ 32` in an I64 tensor. -/
def asymmetric : State where
  entries := [tensor "w.weight_scale" .f32 [1, 1] [0, 0, 128, 63] (by decide),
    tensor "w.weight_zero_point" .i64 [1, 1] [0, 0, 0, 0, 1, 0, 0, 0] (by decide)]
  quant := .auto
  ctBits := 8
  ctActInt8 := true

/-- The zero point is cut to 0, and the weight loads as a symmetric one. -/
theorem asymmetric_loads :
    ∃ w, loadCtWeight smallHeap plainFloats asymmetric (literal "w")
        (.int (tensor "w.weight" .i8 [1, 1] [5] (by decide)) rfl) 1 1 = pure w ∧
      ¬Faithful plainFloats asymmetric (.int (tensor "w.weight" .i8 [1, 1] [5] (by decide)) rfl)
        (literal "w") 1 1 w.body := by
  refine ⟨⟨true, .int8 [5] [some 0x3F800000]⟩, rfl, ?_⟩
  rintro ⟨se, ng, -, hd, -⟩
  obtain ⟨q, z, s, -, hz, -, code, zero, -, -, -, -, -, hsym⟩ :=
    hd.element 0 Nat.one_pos 0 Nat.one_pos
  obtain rfl : z = 0 := hsym
  have hlay : zerosPacked (.int (tensor "w.weight" .i8 [1, 1] [5] (by decide)) rfl)
      (tensor "w.weight_zero_point" .i64 [1, 1] [0, 0, 0, 0, 1, 0, 0, 0] (by decide)) (1 : ℕ)
      ng = false := rfl
  have hread : storedInt (tensor "w.weight_zero_point" .i64 [1, 1] [0, 0, 0, 0, 1, 0, 0, 0]
    (by decide)) 0 = some 4294967296 := by decide +kernel
  have hstored : storedZero (.int (tensor "w.weight" .i8 [1, 1] [5] (by decide)) rfl)
      (asymmetric.find (literal "w" ++ literal ".weight_zero_point")) 1 ng 0 0 =
        some 4294967296 := by
    rw [show asymmetric.find (literal "w" ++ literal ".weight_zero_point") = some (tensor
      "w.weight_zero_point" .i64 [1, 1] [0, 0, 0, 0, 1, 0, 0, 0] (by decide)) from rfl,
      storedZero_of_plain 0 0 hlay, Nat.zero_mul]
    exact hread
  rw [Nat.zero_div, hstored] at hz
  cases hz

end Main

end VibeVoice.Loader
