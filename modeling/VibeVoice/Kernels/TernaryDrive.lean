import VibeVoice.Kernels.TernaryRows

/-!
The ternary drivers, and when a product is exact.

* `ternaryDriveBlocked_ok`: every cell is stored, in blocks of rows.
* `rowFits_of_le_two`, `rowFits_pack`: rows without the field 3 fit.
* `ternary_exact_iff`: a kernel is exact just on the rows that fit.
-/

namespace VibeVoice.Kernels

open Finset Lanes
open Lanes.Acc (lift)

/-! ### The drivers -/

section Drive

variable {isa : Isa} {codes : Codes} {x : Acts} {M N K m n : ℕ} {β : Type}

/-- The sum of a row of activations, as the driver computes it. -/
lemma xsum_computes (q : Acts) (m : ℕ) (hK : K ≤ 2 ^ 23) :
    (turns K (fun k s => s.add 32 (lift (q (m * K + k)).toInt)) (lift 0)).Computes True
      (∑ k ∈ range K, (q (m * K + k)).toInt) := by
  have hterm : ∀ k, |(q (m * K + k)).toInt| ≤ 128 := fun k => abs_toInt_le _
  have h := (Acc.lift_computes 0).turns (w := 32) (n := K) (by omega)
    (fun k _ => ⟨lift (q (m * K + k)).toInt, Acc.lift_computes _, fun _ => rfl⟩) fun k hk => by
      rw [zero_add]
      refine fits_of_abs (B := 2 ^ 30) ((abs_sum_range_le fun i _ => hterm i).trans ?_) (by decide)
      have hcast : ((k + 1 : ℕ) : ℤ) ≤ 2 ^ 23 := by exact_mod_cast (Nat.succ_le_of_lt hk).trans hK
      omega
  rw [zero_add] at h
  exact h.congr (iff_true_intro ⟨trivial, fun _ _ => trivial⟩) rfl

/-- What a kernel computes of a row of codes and a row of activations. -/
lemma ternRow_computes {xsum : Acc} (hdvd : K % ternaryBlock = 0) (hK : K ≤ 2 ^ 23)
    (hx : ternNeedsXsum isa = true → xsum.Computes True (∑ k ∈ range K, (x k).toInt)) :
    (ternRow isa codes x K xsum).Computes (RowFits codes x isa K) (ternaryDot codes x K) := by
  obtain ⟨nb, rfl⟩ : ∃ nb, K = nb * ternaryBlock :=
    ⟨K / ternaryBlock, (Nat.div_mul_cancel (Nat.dvd_of_mod_eq_zero hdvd)).symm⟩
  cases isa with
  | scalar => exact ternRowScalar_computes hK
  | avx2 => exact ternRowAvx2_computes hK (hx rfl)
  | avxvnni => exact ternRowAvxvnni_computes hK (hx rfl)
  | avx512vnni => exact ternRowAvx512_computes hK (hx rfl)
  | neon dotprod => exact ternRowNeon_computes dotprod hK

/-- What the driver computes for an activation row and a weight row. -/
def rowAcc (isa : Isa) (q : Acts) (codes : Codes) (K m n : ℕ) : Acc :=
  ternRow isa (fun i => codes (n * (K / 4) + i)) (fun k => q (m * K + k)) K
    (if ternNeedsXsum isa then
      turns K (fun k s => s.add 32 (lift (q (m * K + k)).toInt)) (lift 0)
    else lift 0)

lemma rowAcc_computes (isa : Isa) (q : Acts) (codes : Codes) (m n : ℕ)
    (hdvd : K % ternaryBlock = 0) (hK : K ≤ 2 ^ 23) :
    (rowAcc isa q codes K m n).Computes
      (RowFits (fun i => codes (n * (K / 4) + i)) (fun k => q (m * K + k)) isa K)
      (ternaryDot (fun i => codes (n * (K / 4) + i)) (fun k => q (m * K + k)) K) := by
  refine ternRow_computes hdvd hK fun hneeds => ?_
  rw [if_pos hneeds]
  exact xsum_computes q m hK

/-- Two cells of a matrix are one only if they are in the same row and column. -/
lemma cell_inj {m m' n' : ℕ} (hn : n < N) (hn' : n' < N) (h : m * N + n = m' * N + n') :
    m = m' ∧ n = n' := by
  have hcol : n = n' := by
    have hmod := congrArg (· % N) h
    simpa only [Nat.mul_add_mod_self_right, Nat.mod_eq_of_lt hn, Nat.mod_eq_of_lt hn'] using hmod
  subst hcol
  exact ⟨Nat.eq_of_mul_eq_mul_right (by omega) (Nat.add_right_cancel h), rfl⟩

lemma cell_lt (hm : m < M) (hn : n < N) : m * N + n < M * N :=
  calc m * N + n < m * N + N := Nat.add_lt_add_left hn _
    _ = (m + 1) * N := (Nat.succ_mul ..).symm
    _ ≤ M * N := Nat.mul_le_mul_right _ hm

/-- The driver stores every cell of its block, and nothing else. -/
lemma ternaryDrive_ok (isa : Isa) (alloc : Bool) (q : Acts) (codes : Codes)
    (emit : ℕ → ℕ → Acc → β) (base : ℕ) (out : ℕ → β) (hM : 0 < M) (hN : 0 < N) (hK : 0 < K)
    (hdvd : K % ternaryBlock = 0) (hsmall : M ≤ 1024) :
    ∃ out', ternaryDrive isa alloc q codes M N K emit base out = .ok out' ∧
      (∀ m < M, ∀ n < N, out' (base + (m * N + n)) = emit m n (rowAcc isa q codes K m n)) ∧
      ∀ o, o < base ∨ base + M * N ≤ o → out' o = out o := by
  rw [ternaryDrive, if_neg (by simp [hM.ne', hN.ne', hK.ne', hdvd]), if_neg (by omega)]
  have hmem : ∀ w : ℕ × β, w ∈ ((List.range N).flatMap fun n => (starts M 4).flatMap fun m0 =>
      (List.range (min 4 (M - m0))).map fun t =>
        (base + ((m0 + t) * N + n), emit (m0 + t) n (rowAcc isa q codes K (m0 + t) n))) ↔
      ∃ m < M, ∃ n < N, w = (base + (m * N + n), emit m n (rowAcc isa q codes K m n)) := by
    intro w
    constructor
    · intro hw
      obtain ⟨n, hn, hw⟩ := List.mem_flatMap.mp hw
      obtain ⟨m0, hm0, hw⟩ := List.mem_flatMap.mp hw
      obtain ⟨t, ht, rfl⟩ := List.mem_map.mp hw
      rw [List.mem_range] at hn ht
      exact ⟨m0 + t, by omega, n, hn, rfl⟩
    · rintro ⟨m, hm, n, hn, rfl⟩
      refine List.mem_flatMap.mpr ⟨n, List.mem_range.mpr hn, List.mem_flatMap.mpr
        ⟨m / 4 * 4, (mem_starts (by omega)).mpr ⟨by omega, by omega⟩, List.mem_map.mpr
          ⟨m % 4, List.mem_range.mpr (by omega), ?_⟩⟩⟩
      rw [Nat.div_add_mod' m 4]
  refine ⟨_, rfl, fun m hm n hn => stores_eq ?_ fun w hw ho => ?_, fun o ho =>
    stores_of_not_mem fun w hw => ?_⟩
  · exact ⟨_, (hmem _).mpr ⟨m, hm, n, hn, rfl⟩, rfl⟩
  · obtain ⟨m', -, n', hn', rfl⟩ := (hmem w).mp hw
    obtain ⟨rfl, rfl⟩ := cell_inj hn' hn (Nat.add_left_cancel ho)
    rfl
  · obtain ⟨m', hm', n', hn', rfl⟩ := (hmem w).mp hw
    have hlt := cell_lt hm' hn'
    dsimp only
    omega

/-- The blocked driver stores every cell. -/
lemma ternaryDriveBlocked_ok (isa : Isa) (alloc : Bool) (q : Acts) (codes : Codes)
    (emit : ℕ → ℕ → Acc → β) (out : ℕ → β) (hM : 0 < M) (hN : 0 < N) (hK : 0 < K)
    (hdvd : K % ternaryBlock = 0) :
    ∃ out', ternaryDriveBlocked isa alloc q codes M N K emit out = .ok out' ∧
      ∀ m < M, ∀ n < N, out' (m * N + n) = emit m n (rowAcc isa q codes K m n) := by
  rw [ternaryDriveBlocked, ternMblock]
  by_cases hsmall : M ≤ 64
  · rw [if_pos hsmall]
    obtain ⟨out', hok, hall, -⟩ :=
      ternaryDrive_ok isa alloc q codes emit 0 out hM hN hK hdvd (hsmall.trans (by decide))
    exact ⟨out', hok, fun m hm n hn => by rw [← hall m hm n hn, Nat.zero_add]⟩
  · rw [if_neg hsmall, starts]
    -- the blocks one after the other: those before a block stay as they are
    have hblocks : ∀ i ≤ (M + 64 - 1) / 64, ∃ out',
        ((List.range i).map (· * 64)).foldlM (fun out m0 =>
          ternaryDrive isa alloc (fun i => q (m0 * K + i)) codes (min 64 (M - m0)) N K
            (fun m => emit (m0 + m)) (m0 * N) out) out = .ok out' ∧
        ∀ m < M, m < i * 64 → ∀ n < N, out' (m * N + n) = emit m n (rowAcc isa q codes K m n) := by
      intro i
      induction i with
      | zero => exact fun _ => ⟨out, rfl, fun m _ hm => absurd hm (by omega)⟩
      | succ i ih =>
        intro hi
        obtain ⟨out₁, hrun, hold⟩ := ih (by omega)
        obtain ⟨out₂, hok, hnew, hframe⟩ := ternaryDrive_ok isa alloc
          (fun k => q (i * 64 * K + k)) codes (M := min 64 (M - i * 64))
          (fun m => emit (i * 64 + m)) (i * 64 * N) out₁ (by omega) hN hK hdvd (by omega)
        refine ⟨out₂, ?_, fun m hm hlt n hn => ?_⟩
        · rw [List.range_succ, List.map_append, List.foldlM_append, hrun]
          simp only [List.map_cons, List.map_nil, List.foldlM_cons, List.foldlM_nil, bind_pure]
          exact hok
        · rcases Nat.lt_or_ge m (i * 64) with hbefore | hin
          · rw [hframe _ (.inl (cell_lt hbefore hn)), hold m hm hbefore n hn]
          · obtain ⟨t, rfl⟩ := Nat.exists_eq_add_of_le hin
            have hcell := hnew t (by omega) n hn
            rw [show i * 64 * N + (t * N + n) = (i * 64 + t) * N + n by
              rw [Nat.add_mul, Nat.add_assoc]] at hcell
            rw [hcell, rowAcc, rowAcc]
            simp only [Nat.add_mul, Nat.add_assoc]
    obtain ⟨out', hrun, hall⟩ := hblocks _ le_rfl
    exact ⟨out', hrun, fun m hm n hn => hall m hm (by omega) n hn⟩

end Drive

/-! ### Exactness -/

section Exact

variable {codes : Codes} {x : Acts} {nb K : ℕ}

lemma pack_fields : ∀ a < 4, ∀ b < 4, ∀ c < 4, ∀ d < 4, ∀ g < 4,
    (UInt8.ofNat (a <<< 6 ||| b <<< 4 ||| c <<< 2 ||| d)).toNat >>> (6 - 2 * g) &&& 3 =
      if g = 0 then a else if g = 1 then b else if g = 2 then c else d := by
  decide +kernel

/-- The codes of packed ternary values. -/
lemma codeAt_ternaryPack {t : Acts} (ht : ∀ k, -1 ≤ (t k).toInt ∧ (t k).toInt ≤ 1) (k : ℕ) :
    (codeAt (ternaryPack t) k : ℤ) = (t k).toInt + 1 := by
  have hsmall : ∀ k, ((t k).toInt + 1).toNat < 4 := fun k => by
    obtain ⟨hlow, hhigh⟩ := ht k
    omega
  have hfields := pack_fields _ (hsmall (k / 128 * 128 + k % 32)) _
    (hsmall (k / 128 * 128 + (k % 32 + 32))) _ (hsmall (k / 128 * 128 + (k % 32 + 64))) _
    (hsmall (k / 128 * 128 + (k % 32 + 96))) (k % 128 / 32) (by omega)
  have hcode : codeAt (ternaryPack t) k = ((t k).toInt + 1).toNat := by
    rw [codeAt, ternaryPack, ternaryBlock, show (k / 128 * 32 + k % 32) / 32 = k / 128 by omega,
      show (k / 128 * 32 + k % 32) % 32 = k % 32 by omega]
    refine hfields.trans ?_
    have hplane : k % 128 / 32 < 4 := by omega
    generalize hg : k % 128 / 32 = g at hplane
    interval_cases g
    · rw [if_pos rfl, show k / 128 * 128 + k % 32 = k by omega]
    · rw [if_neg (by omega), if_pos rfl, show k / 128 * 128 + (k % 32 + 32) = k by omega]
    · rw [if_neg (by omega), if_neg (by omega), if_pos rfl,
        show k / 128 * 128 + (k % 32 + 64) = k by omega]
    · rw [if_neg (by omega), if_neg (by omega), if_neg (by omega),
        show k / 128 * 128 + (k % 32 + 96) = k by omega]
  have hlow := (ht k).1
  rw [hcode]
  omega

/-- A row of packed values is the pack of the row. -/
lemma ternaryPack_row (t : Acts) (n : ℕ) (hdvd : K % ternaryBlock = 0) :
    (fun i => ternaryPack t (n * (K / 4) + i)) = ternaryPack fun k => t (n * K + k) := by
  obtain ⟨nb, rfl⟩ : ∃ nb, K = nb * 128 :=
    ⟨K / 128, (Nat.div_mul_cancel (Nat.dvd_of_mod_eq_zero hdvd)).symm⟩
  funext i
  rw [show nb * 128 / 4 = nb * 32 by omega, ← Nat.mul_assoc n nb 32, ← Nat.mul_assoc n nb 128,
    ternaryPack, ternaryPack, ternaryBlock, show (n * nb * 32 + i) / 32 = n * nb + i / 32 by omega,
    show (n * nb * 32 + i) % 32 = i % 32 by omega, Nat.add_mul]
  simp only [Nat.add_assoc]

/-- Packed values sum to what the values themselves sum to. -/
lemma ternaryDot_pack {t : Acts} (ht : ∀ k, -1 ≤ (t k).toInt ∧ (t k).toInt ≤ 1) (x : Acts) :
    ternaryDot (ternaryPack t) x K = ∑ k ∈ range K, (t k).toInt * (x k).toInt :=
  sum_congr rfl fun k _ => by rw [codeAt_ternaryPack ht, add_sub_cancel_right]

lemma term_bounds {k : ℕ} (h : codeAt codes k ≤ 2) :
    -256 ≤ term codes x k ∧ term codes x k ≤ 254 := by
  have hlow := (x k).le_toInt
  have hhigh := (x k).toInt_lt
  rw [term]
  generalize codeAt codes k = v at h ⊢
  interval_cases v <;> omega

lemma sum_between {f : ℕ → ℤ} {s : Finset ℕ} {low high : ℤ}
    (h : ∀ k ∈ s, low ≤ f k ∧ f k ≤ high) :
    s.card * low ≤ ∑ k ∈ s, f k ∧ ∑ k ∈ s, f k ≤ s.card * high := by
  have hlow := s.card_nsmul_le_sum f low fun k hk => (h k hk).1
  have hhigh := s.sum_le_card_nsmul f high fun k hk => (h k hk).2
  rw [nsmul_eq_mul] at hlow hhigh
  exact ⟨hlow, hhigh⟩

lemma laneTerm_bounds (hcodes : ∀ k, codeAt codes k ≤ 2) (i l : ℕ) :
    -2048 ≤ laneTerm codes x i l ∧ laneTerm codes x i l ≤ 2032 := by
  have hpair : ∀ g, -512 ≤ run (term codes x) i g 2 l ∧ run (term codes x) i g 2 l ≤ 508 := by
    intro g
    have hcol := sum_between (s := range 2) (f := fun e =>
      term codes x (i * ternaryBlock + g * 32 + (2 * l + e))) fun e _ => term_bounds (hcodes _)
    rw [card_range] at hcol
    exact hcol
  have hplanes := sum_between (s := range 4) fun g _ => hpair g
  rw [card_range] at hplanes
  exact hplanes

/-- Without the field 3, nothing overflows. -/
theorem rowFits_of_le_two (isa : Isa) (hcodes : ∀ k, codeAt codes k ≤ 2) (hK : K ≤ 2 ^ 23) :
    RowFits codes x isa K := by
  have hsum : ∀ n ≤ K / ternaryBlock, Fits 32 (codeSum codes x n) := by
    intro n hn
    obtain ⟨hlow, hhigh⟩ := sum_between (s := range (n * ternaryBlock)) fun k _ =>
      term_bounds (x := x) (hcodes k)
    rw [card_range] at hlow hhigh
    have hcast : ((n * ternaryBlock : ℕ) : ℤ) ≤ 2 ^ 23 := by
      exact_mod_cast (Nat.mul_le_of_le_div _ _ _ hn).trans hK
    change _ ≤ codeSum codes x n at hlow
    change codeSum codes x n ≤ _ at hhigh
    constructor
    · show -2 ^ 31 ≤ _
      omega
    · show _ < 2 ^ 31
      omega
  cases isa with
  | scalar | neon _ => trivial
  | avxvnni => exact hsum _ le_rfl
  | avx512vnni => exact ⟨hsum _ (Nat.mul_div_le _ 2), hsum _ le_rfl⟩
  | avx2 =>
    refine ⟨fun b _ l _ => ?_, hsum _ le_rfl⟩
    obtain ⟨hlow, hhigh⟩ := sum_between (s := Ico (b / 16 * 16) (b + 1)) fun i _ =>
      laneTerm_bounds (x := x) hcodes i l
    have hcard : ((Ico (b / 16 * 16) (b + 1)).card : ℤ) ≤ 16 := by
      rw [Nat.card_Ico]
      omega
    constructor
    · show -2 ^ 15 ≤ _
      omega
    · show _ < 2 ^ 15
      omega

/-- Rows of packed values fit. -/
theorem rowFits_pack (isa : Isa) {t : Acts} (ht : ∀ k, -1 ≤ (t k).toInt ∧ (t k).toInt ≤ 1)
    (hK : K ≤ 2 ^ 23) : RowFits (ternaryPack t) x isa K := by
  refine rowFits_of_le_two isa (fun k => ?_) hK
  have hcode := codeAt_ternaryPack ht k
  have hle := (ht k).2
  omega

/-- A kernel computes the exact sum with no overflow just on the rows that fit; and of packed
values, the exact sum is that of the values. -/
theorem ternary_exact_iff (isa : Isa) (alloc : Bool) (q : Acts) (codes : Codes) {M N K : ℕ}
    (hM : 0 < M) (hN : 0 < N) (hK : 0 < K) (hdvd : K % ternaryBlock = 0) (hmax : K ≤ 2 ^ 23)
    (acc : ℕ → Acc) :
    ∃ out, ternaryGemmI32 isa alloc q codes M N K acc = .ok out ∧
      (∀ m < M, ∀ n < N,
        ((out (m * N + n)).ok = true ∧ (out (m * N + n)).val =
            ternaryDot (fun i => codes (n * (K / 4) + i)) (fun k => q (m * K + k)) K) ↔
          RowFits (fun i => codes (n * (K / 4) + i)) (fun k => q (m * K + k)) isa K) ∧
      ∀ t, codes = ternaryPack t → (∀ k, -1 ≤ (t k).toInt ∧ (t k).toInt ≤ 1) → ∀ m n : ℕ,
        ternaryDot (fun i => codes (n * (K / 4) + i)) (fun k => q (m * K + k)) K =
          ∑ k ∈ range K, (t (n * K + k)).toInt * (q (m * K + k)).toInt := by
  obtain ⟨out, hok, hall⟩ := ternaryDriveBlocked_ok isa alloc q codes (fun _ _ a => a) acc hM hN hK
    hdvd
  refine ⟨out, hok, fun m hm n hn => ?_, ?_⟩
  · have hcomputes := rowAcc_computes isa q codes m n hdvd hmax
    rw [hall m hm n hn, hcomputes.ok]
    exact and_iff_left_of_imp hcomputes.val
  · rintro t rfl ht m n
    rw [ternaryPack_row t n hdvd]
    exact ternaryDot_pack (fun k => ht _) _

/-- One row of 256 packed values. -/
theorem ternary_exact_one :
    ∃ out, ternaryGemmI32 .avx512vnni true (fun _ => -128) (ternaryPack fun _ => 1) 1 1 256
        (fun _ => lift 0) = .ok out ∧
      (∀ m < 1, ∀ n < 1, ((out (m * 1 + n)).ok = true ∧ (out (m * 1 + n)).val = ternaryDot
          (fun i => ternaryPack (fun _ => 1) (n * (256 / 4) + i)) (fun _ => -128) 256) ↔
        RowFits (fun i => ternaryPack (fun _ => 1) (n * (256 / 4) + i)) (fun _ => -128)
          .avx512vnni 256) ∧
      ∀ t, (ternaryPack fun _ => 1) = ternaryPack t →
        (∀ k, -1 ≤ (t k).toInt ∧ (t k).toInt ≤ 1) → ∀ _ n : ℕ,
        ternaryDot (fun i => ternaryPack (fun _ => 1) (n * (256 / 4) + i)) (fun _ => -128) 256 =
          ∑ k ∈ range 256, (t (n * 256 + k)).toInt * (-128 : Int8).toInt :=
  ternary_exact_iff .avx512vnni true (fun _ => -128) (ternaryPack fun _ => 1) Nat.one_pos
    Nat.one_pos (by decide) (by decide) (by decide) fun _ => lift 0

/-- A row of 2048 fields 3 against activations -128 overflows the 16-bit lanes of the AVX2 kernel,
which returns the sum with the wrong sign. -/
theorem ternary_wraps :
    ∃ out, ternaryGemmI32 .avx2 true (fun _ => -128) (fun _ => 255) 1 1 2048
        (fun _ => lift 0) = .ok out ∧ out 0 = ⟨524288, false⟩ ∧
      ternaryDot (fun _ => 255) (fun _ => -128) 2048 = -524288 := by
  obtain ⟨out, hok, hall⟩ := ternaryDriveBlocked_ok .avx2 true (fun _ => -128) (fun _ => 255)
    (fun _ _ a => a) (fun _ => lift 0) Nat.one_pos Nat.one_pos (K := 2048) (by decide) (by decide)
  have hxsum : turns 2048 (fun k s => s.add 32 (lift (-128 : Int8).toInt)) (lift 0) =
      ⟨-262144, true⟩ := by
    have hsum := xsum_computes (K := 2048) (fun _ => -128) 0 (by decide)
    have hval := hsum.val trivial
    rw [sum_const, card_range] at hval
    exact Acc.ext hval (hsum.ok.mpr trivial)
  have hrow : ternRowAvx2 (fun _ => 255) (fun _ => -128) 2048 ⟨-262144, true⟩ =
      ⟨524288, false⟩ := by decide +kernel
  refine ⟨out, hok, (hall 0 Nat.one_pos 0 Nat.one_pos).trans ?_, ?_⟩
  · rw [← hxsum] at hrow
    exact hrow
  · have hcode : ∀ k, codeAt (fun _ => 255) k = 3 := fun k => by
      rw [codeAt]
      have hplane : k % ternaryBlock / 32 < 4 :=
        Nat.div_lt_of_lt_mul (Nat.mod_lt _ (by decide))
      generalize k % ternaryBlock / 32 = g at hplane
      interval_cases g <;> rfl
    have hsum : ternaryDot (fun _ => 255) (fun _ => -128) 2048 = ∑ _k ∈ range 2048, (-256 : ℤ) :=
      sum_congr rfl fun k _ => by
        rw [hcode]
        rfl
    rw [hsum, sum_const, card_range]
    rfl

end Exact

end VibeVoice.Kernels
