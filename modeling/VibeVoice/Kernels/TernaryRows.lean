import VibeVoice.Kernels.Ternary

/-!
The ternary kernels, row by row: each computes the exact sum on the rows that fit.

* `ternRowAvx2_codeSum`: 16-bit lanes, widened every 16 blocks.
* `ternRowAvxvnni_computes`, `ternRowAvx512_computes`: lanes of 32 bits.
* `ternRowScalar_computes`, `ternRowNeon_computes`: signed values, which never overflow.
-/

namespace VibeVoice.Kernels

open Finset Lanes
open Lanes.Acc (lift)

/-! ### The unsigned kernels -/

section Unsigned

variable {codes : Codes} {x : Acts} {b g l n nb : ℕ} {a : Reg} {c : Prop} {z B : ℤ}

lemma maddubs_within (hg : g < 4) (hl : l < 16) :
    (maddubs (plane codes b g) (loadActs x (b * ternaryBlock + g * 32)) l).Within True
      (run (term codes x) b g 2 l) 768 := by
  have hrun : (plane codes b g (2 * l) : ℤ) * loadActs x (b * ternaryBlock + g * 32) (2 * l) +
      plane codes b g (2 * l + 1) * loadActs x (b * ternaryBlock + g * 32) (2 * l + 1) =
        run (term codes x) b g 2 l := by
    rw [run, sum_range_succ, sum_range_one, term, term, plane_eq hg (by omega),
      plane_eq hg (by omega)]
    rfl
  have hbound : |run (term codes x) b g 2 l| ≤ 768 := abs_run_le (abs_term_le codes x) b g 2 l
  refine ⟨?_, hbound⟩
  rw [maddubs, hrun]
  exact (Acc.saturate_computes 16 _).congr (iff_true_intro (fits_of_abs hbound (by decide))) rfl

/-- What a block adds to the 16-bit lanes. -/
lemma block_within (hl : l < 16) :
    (addLanes 16
      (addLanes 16 (maddubs (plane codes b 0) (loadActs x (b * ternaryBlock)))
        (maddubs (plane codes b 1) (loadActs x (b * ternaryBlock + 32))))
      (addLanes 16 (maddubs (plane codes b 2) (loadActs x (b * ternaryBlock + 64)))
        (maddubs (plane codes b 3) (loadActs x (b * ternaryBlock + 96)))) l).Within True
      (laneTerm codes x b l) 3072 := by
  have hp : ∀ g < 4, (maddubs (plane codes b g) (loadActs x (b * ternaryBlock + g * 32)) l).Within
      True (run (term codes x) b g 2 l) 768 := fun g hg => maddubs_within hg hl
  have hsum : run (term codes x) b 0 2 l + run (term codes x) b 1 2 l +
      (run (term codes x) b 2 2 l + run (term codes x) b 3 2 l) = laneTerm codes x b l := by
    rw [laneTerm]
    simp only [sum_range_succ _ 3, sum_range_succ _ 2, sum_range_succ _ 1, sum_range_one]
    simp only [run, term, sum_range_succ, sum_range_zero]
    ring
  exact ((((hp 0 (by omega)).add (by omega) (hp 1 (by omega)) (by decide)).add (by omega)
    ((hp 2 (by omega)).add (by omega) (hp 3 (by omega)) (by decide)) (by decide)).congr
      (by simp) hsum)

lemma abs_laneTerm_le (codes : Codes) (x : Acts) (b l : ℕ) : |laneTerm codes x b l| ≤ 3072 := by
  have hpair : ∀ g < 4, |run (term codes x) b g 2 l| ≤ 768 := fun g _ =>
    abs_run_le (abs_term_le codes x) b g 2 l
  exact abs_sum_range_le hpair

/-- One turn over the blocks: a dot product with each plane. -/
lemma dpbusd_within {u : ℕ → ℕ} {v : ℕ → ℤ} {y : ℤ} (ha : (a l).Within c z B)
    (hu : ∑ i ∈ range 4, (u (4 * l + i) : ℤ) * v (4 * l + i) = y) (hy : |y| ≤ 1536)
    (hB : B + 1536 < 2 ^ 31) : (dpbusd a u v l).Within c (z + y) (B + 1536) := by
  rw [dpbusd, hu]
  exact ha.add_lift (by omega) hy hB

lemma sum_plane (hg : g < 4) (hl : l < 8) :
    ∑ i ∈ range 4, (plane codes b g (4 * l + i) : ℤ) *
      loadActs x (b * ternaryBlock + g * 32) (4 * l + i) = run (term codes x) b g 4 l := by
  refine sum_congr rfl fun i hi => ?_
  have hi4 := mem_range.mp hi
  rw [plane_eq hg (by omega)]
  rfl

lemma abs_quad_le (codes : Codes) (x : Acts) (b g l : ℕ) :
    |run (term codes x) b g 4 l| ≤ 1536 := abs_run_le (abs_term_le codes x) b g 4 l

/-- The four planes of a block, added to a lane of 32 bits. -/
lemma quads_within {u : ℕ → ℕ → ℕ} {v : ℕ → ℕ → ℤ} {y : ℕ → ℤ} (ha : (a l).Within c z B)
    (hu : ∀ g < 4, ∑ i ∈ range 4, (u g (4 * l + i) : ℤ) * v g (4 * l + i) = y g)
    (hy : ∀ g < 4, |y g| ≤ 1536) (hB : B + 6144 < 2 ^ 31) :
    (dpbusd (dpbusd (dpbusd (dpbusd a (u 0) (v 0)) (u 1) (v 1)) (u 2) (v 2)) (u 3) (v 3) l).Within c
      (z + ∑ g ∈ range 4, y g) (B + 6144) := by
  have h0 := dpbusd_within ha (hu 0 (by omega)) (hy 0 (by omega)) (by omega)
  have h1 := dpbusd_within h0 (hu 1 (by omega)) (hy 1 (by omega)) (by omega)
  have h2 := dpbusd_within h1 (hu 2 (by omega)) (hy 2 (by omega)) (by omega)
  have h3 := dpbusd_within h2 (hu 3 (by omega)) (hy 3 (by omega)) (by omega)
  refine ⟨h3.computes.congr Iff.rfl ?_, ?_⟩
  · simp only [sum_range_succ, sum_range_zero]
    ring
  · have hb := h3.bound
    have hsum : z + ∑ g ∈ range 4, y g = z + y 0 + y 1 + y 2 + y 3 := by
      simp only [sum_range_succ, sum_range_zero]
      ring
    rw [hsum]
    omega

lemma div_block (nb : ℕ) : nb * ternaryBlock / ternaryBlock = nb :=
  Nat.mul_div_cancel _ (by decide)

lemma ternaryDot_eq (codes : Codes) (x : Acts) (n : ℕ) :
    codeSum codes x n - ∑ k ∈ range (n * ternaryBlock), (x k).toInt =
      ternaryDot codes x (n * ternaryBlock) := by
  rw [codeSum, ternaryDot, ← sum_sub_distrib]
  exact sum_congr rfl fun k _ => by ring

/-- A code less one against its activation. -/
def signedTerm (codes : Codes) (x : Acts) (k : ℕ) : ℤ := ((codeAt codes k : ℤ) - 1) * (x k).toInt

lemma signedTerm_bounds (codes : Codes) (x : Acts) (k : ℕ) :
    -256 ≤ signedTerm codes x k ∧ signedTerm codes x k ≤ 254 := by
  have hcode := codeAt_lt codes k
  have hlow := (x k).le_toInt
  have hhigh := (x k).toInt_lt
  rw [signedTerm]
  generalize codeAt codes k = v at hcode ⊢
  interval_cases v <;> omega

/-- The exact sum of up to 2^23 elements fits, down to the last activation. -/
lemma fits_sum_signedTerm (codes : Codes) (x : Acts) {n : ℕ} (hn : n ≤ 2 ^ 23) (s : Finset ℕ)
    (hs : s.card = n) : Fits 32 (∑ k ∈ s, signedTerm codes x k) := by
  have hlow : (n : ℤ) * -256 ≤ ∑ k ∈ s, signedTerm codes x k :=
    calc (n : ℤ) * -256 = ∑ _k ∈ s, (-256 : ℤ) := by rw [sum_const, hs, nsmul_eq_mul]
      _ ≤ _ := sum_le_sum fun k _ => (signedTerm_bounds codes x k).1
  have hhigh : ∑ k ∈ s, signedTerm codes x k ≤ n * 254 :=
    calc ∑ k ∈ s, signedTerm codes x k ≤ ∑ _k ∈ s, (254 : ℤ) :=
          sum_le_sum fun k _ => (signedTerm_bounds codes x k).2
      _ = n * 254 := by rw [sum_const, hs, nsmul_eq_mul]
  have hcast : (n : ℤ) ≤ 2 ^ 23 := by exact_mod_cast hn
  constructor
  · show -2 ^ 31 ≤ _
    omega
  · show _ < 2 ^ 31
    omega

lemma fits_ternaryDot (codes : Codes) (x : Acts) {K : ℕ} (hK : K ≤ 2 ^ 23) :
    Fits 32 (ternaryDot codes x K) :=
  fits_sum_signedTerm codes x hK _ (card_range K)

lemma sum_quads (codes : Codes) (x : Acts) (n : ℕ) :
    ∑ l ∈ range 8, ∑ b ∈ range n, ∑ g ∈ range 4, run (term codes x) b g 4 l = codeSum codes x n :=
  sum_lanes (m := 8) rfl (term codes x) n

/-- What a kernel for unsigned codes does at its end: the activation sum is taken off. -/
lemma sub_xsum {s xsum : Acc} (hs : s.Computes c (codeSum codes x nb))
    (hx : xsum.Computes True (∑ k ∈ range (nb * ternaryBlock), (x k).toInt))
    (hK : nb * ternaryBlock ≤ 2 ^ 23) :
    (s.sub 32 xsum).Computes c (ternaryDot codes x (nb * ternaryBlock)) := by
  refine (hs.sub_fits (by omega) hx ?_).congr (and_iff_left trivial) (ternaryDot_eq codes x nb)
  rw [ternaryDot_eq]
  exact fits_ternaryDot codes x hK

lemma ternRowAvxvnni_computes {xsum : Acc} (hK : nb * ternaryBlock ≤ 2 ^ 23)
    (hx : xsum.Computes True (∑ k ∈ range (nb * ternaryBlock), (x k).toInt)) :
    (ternRowAvxvnni codes x (nb * ternaryBlock) xsum).Computes
      (RowFits codes x .avxvnni (nb * ternaryBlock)) (ternaryDot codes x (nb * ternaryBlock)) := by
  have hnb : nb * 128 ≤ 2 ^ 23 := hK
  rw [ternRowAvxvnni, RowFits, div_block]
  refine sub_xsum ?_ hx hK
  have hlanes := turns_induct (n := nb) (f := fun b a =>
      dpbusd (dpbusd (dpbusd (dpbusd a (plane codes b 0) (loadActs x (b * ternaryBlock)))
        (plane codes b 1) (loadActs x (b * ternaryBlock + 32)))
        (plane codes b 2) (loadActs x (b * ternaryBlock + 64)))
        (plane codes b 3) (loadActs x (b * ternaryBlock + 96))) (s := zero)
    (fun b a => ∀ l < 8, (a l).Within True
      (∑ i ∈ range b, ∑ g ∈ range 4, run (term codes x) i g 4 l) (b * 6144))
    (fun l _ => Acc.within_lift (by simp)) fun b hb a ha l hl => by
      have hquads := quads_within (ha l hl) (u := fun g => plane codes b g)
        (v := fun g => loadActs x (b * ternaryBlock + g * 32))
        (fun g hg => sum_plane hg hl) (fun g _ => abs_quad_le codes x b g l) (by omega)
      rw [sum_range_succ]
      exact ⟨hquads.computes, hquads.bound.trans (by push_cast; omega)⟩
  refine (hsum_computes hlanes (by omega)).congr ?_ (sum_quads codes x nb)
  rw [sum_quads]
  exact and_iff_right fun _ _ => trivial

/-- How many of `b` blocks are widened already, out of `nb`. -/
def flushed (nb b : ℕ) : ℕ := if b = nb then nb else b / 16 * 16

/-- The 16-bit lane fits behind block `m`. -/
def LaneFits (codes : Codes) (x : Acts) (m l : ℕ) : Prop :=
  Fits 16 (∑ i ∈ Ico (m / 16 * 16) (m + 1), laneTerm codes x i l)

/-- The lanes behind `b` of `nb` blocks: those of 32 bits hold what is widened, those of 16 bits the
rest. -/
structure Widening (codes : Codes) (x : Acts) (nb b : ℕ) (a : Reg × Reg) : Prop where
  wide : ∀ d < 8, (a.1 d).Within
    (∀ m < flushed nb b, LaneFits codes x m (2 * d) ∧ LaneFits codes x m (2 * d + 1))
    (∑ i ∈ range (flushed nb b), ∑ e ∈ range 2, laneTerm codes x i (2 * d + e))
    (flushed nb b * 6144)
  narrow : ∀ l < 16, (a.2 l).Computes
    (∀ m, flushed nb b ≤ m → m < b → LaneFits codes x m l)
    (∑ i ∈ Ico (flushed nb b) b, laneTerm codes x i l)

lemma abs_sum_laneTerm_le (codes : Codes) (x : Acts) {m n : ℕ} (h : n ≤ m + 16) (l : ℕ) :
    |∑ i ∈ Ico m n, laneTerm codes x i l| ≤ 49152 := by
  have hcard : ((Ico m n).card : ℤ) ≤ 16 := by
    rw [Nat.card_Ico]
    omega
  calc |∑ i ∈ Ico m n, laneTerm codes x i l|
      ≤ ∑ i ∈ Ico m n, |laneTerm codes x i l| := abs_sum_le_sum_abs ..
    _ ≤ ∑ _i ∈ Ico m n, (3072 : ℤ) := sum_le_sum fun i _ => abs_laneTerm_le codes x i l
    _ = (Ico m n).card * 3072 := by rw [sum_const, nsmul_eq_mul]
    _ ≤ 16 * 3072 := mul_le_mul_of_nonneg_right hcard (by omega)
    _ = 49152 := rfl

/-- A lane of 16 bits takes one block more. -/
lemma narrow_step {blk : Reg} {a16 : Reg} (hblk : (blk l).Within True (laneTerm codes x b l) 3072)
    (ha : (a16 l).Computes (∀ m, b / 16 * 16 ≤ m → m < b → LaneFits codes x m l)
      (∑ i ∈ Ico (b / 16 * 16) b, laneTerm codes x i l)) :
    (addLanes 16 a16 blk l).Computes (∀ m, b / 16 * 16 ≤ m → m < b + 1 → LaneFits codes x m l)
      (∑ i ∈ Ico (b / 16 * 16) (b + 1), laneTerm codes x i l) := by
  have hsum : ∑ i ∈ Ico (b / 16 * 16) b, laneTerm codes x i l + laneTerm codes x b l =
      ∑ i ∈ Ico (b / 16 * 16) (b + 1), laneTerm codes x i l :=
    (sum_Ico_succ_top (by omega) _).symm
  refine (ha.add (by omega) hblk.computes).congr ?_ hsum
  rw [hsum]
  constructor
  · rintro ⟨⟨hold, -⟩, hnew⟩ m hlow hm
    rcases Nat.lt_succ_iff_lt_or_eq.mp hm with hlt | rfl
    · exact hold m hlow hlt
    · exact hnew
  · intro h
    exact ⟨⟨fun m hlow hm => h m hlow (hm.trans b.lt_succ_self), trivial⟩,
      h b (by omega) b.lt_succ_self⟩

/-- The lanes of 16 bits are widened. -/
lemma wide_step {d g : ℕ} {a32 a16 : Reg} (hd : d < 8) (hg : g ≤ b) (hb : b < g + 16)
    (hsmall : b * 6144 + 6144 < 2 ^ 30)
    (ha : (a32 d).Within
      (∀ m < g, LaneFits codes x m (2 * d) ∧ LaneFits codes x m (2 * d + 1))
      (∑ i ∈ range g, ∑ e ∈ range 2, laneTerm codes x i (2 * d + e)) (g * 6144))
    (hn : ∀ l < 16, (a16 l).Computes (∀ m, g ≤ m → m < b + 1 → LaneFits codes x m l)
      (∑ i ∈ Ico g (b + 1), laneTerm codes x i l)) :
    (addLanes 32 a32 (maddOnes a16) d).Within
      (∀ m < b + 1, LaneFits codes x m (2 * d) ∧ LaneFits codes x m (2 * d + 1))
      (∑ i ∈ range (b + 1), ∑ e ∈ range 2, laneTerm codes x i (2 * d + e)) ((b + 1) * 6144) := by
  have hlow : (a16 (2 * d)).Within _ _ 49152 :=
    ⟨hn (2 * d) (by omega), abs_sum_laneTerm_le codes x (by omega) _⟩
  have hhigh : (a16 (2 * d + 1)).Within _ _ 49152 :=
    ⟨hn (2 * d + 1) (by omega), abs_sum_laneTerm_le codes x (by omega) _⟩
  have hmadd := hlow.add (w := 32) (by omega) hhigh (by decide)
  have hall := (ha.add (w := 32) (by omega) hmadd (by omega)).computes
  have hsum : ∑ i ∈ range g, ∑ e ∈ range 2, laneTerm codes x i (2 * d + e) +
      (∑ i ∈ Ico g (b + 1), laneTerm codes x i (2 * d) +
        ∑ i ∈ Ico g (b + 1), laneTerm codes x i (2 * d + 1)) =
      ∑ i ∈ range (b + 1), ∑ e ∈ range 2, laneTerm codes x i (2 * d + e) := by
    rw [← sum_add_distrib, ← sum_range_add_sum_Ico _ (show g ≤ b + 1 by omega)]
    refine congrArg _ (sum_congr rfl fun i _ => ?_)
    rw [sum_range_succ, sum_range_one]
    rfl
  refine ⟨hall.congr ?_ hsum, ?_⟩
  · constructor
    · rintro ⟨hold, hfst, hsnd⟩ m hm
      rcases Nat.lt_or_ge m g with hlt | hge
      · exact hold m hlt
      · exact ⟨hfst m hge hm, hsnd m hge hm⟩
    · intro h
      exact ⟨fun m hm => h m (by omega), fun m _ hm => (h m hm).1, fun m _ hm => (h m hm).2⟩
  · have hpair : ∀ i < b + 1, |∑ e ∈ range 2, laneTerm codes x i (2 * d + e)| ≤ 6144 := fun i _ =>
      (abs_sum_range_le fun e _ => abs_laneTerm_le codes x i (2 * d + e))
    have hbound := abs_sum_range_le hpair
    push_cast at hbound
    exact hbound

lemma widening_zero (codes : Codes) (x : Acts) (nb : ℕ) :
    Widening codes x nb 0 (zero, zero) := by
  have hflushed : flushed nb 0 = 0 := by
    rw [flushed]
    split_ifs with h
    · exact h.symm
    · rfl
  constructor
  · intro d _
    rw [hflushed]
    exact (Acc.within_lift (by simp)).congr (by simp) (by simp)
  · intro l _
    rw [hflushed]
    exact (Acc.lift_computes 0).congr (by simp) (by simp)

/-- One turn of the AVX2 kernel. -/
lemma widening_step {a : Reg × Reg} {blk : Reg} (hb : b < nb) (hsmall : b * 6144 + 6144 < 2 ^ 30)
    (ha : Widening codes x nb b a)
    (hblk : ∀ l < 16, (blk l).Within True (laneTerm codes x b l) 3072) :
    Widening codes x nb (b + 1)
      (if b &&& 15 = 15 ∨ b = nb - 1 then
        (addLanes 32 a.1 (maddOnes (addLanes 16 a.2 blk)), zero)
      else (a.1, addLanes 16 a.2 blk)) := by
  have hbefore : flushed nb b = b / 16 * 16 := if_neg hb.ne
  have hmod : b &&& 15 = b % 16 := Nat.and_two_pow_sub_one_eq_mod b 4
  obtain ⟨hwide, hnarrow⟩ := ha
  rw [hbefore] at hwide hnarrow
  have hnext : ∀ l < 16, (addLanes 16 a.2 blk l).Computes _ _ := fun l hl =>
    narrow_step (hblk l hl) (hnarrow l hl)
  rw [hmod]
  split_ifs with hflush
  · have hafter : flushed nb (b + 1) = b + 1 := by
      rw [flushed]
      split_ifs with hend
      · exact hend.symm
      · omega
    constructor
    · intro d hd
      rw [hafter]
      have hstep := wide_step hd (by omega) (by omega) hsmall (by exact_mod_cast hwide d hd) hnext
      exact_mod_cast hstep
    · intro l _
      rw [hafter]
      refine (Acc.lift_computes 0).congr ?_ ?_
      · exact iff_of_true trivial fun m hlow hm => absurd hm (Nat.not_lt.mpr hlow)
      · rw [Ico_self, sum_empty]
  · have hafter : flushed nb (b + 1) = b / 16 * 16 := by
      rw [flushed, if_neg (by omega)]
      omega
    constructor
    · intro d hd
      rw [hafter]
      exact hwide d hd
    · intro l hl
      rw [hafter]
      exact hnext l hl

lemma sum_pairs (codes : Codes) (x : Acts) (n : ℕ) :
    ∑ d ∈ range 8, ∑ i ∈ range n, ∑ e ∈ range 2, laneTerm codes x i (2 * d + e) =
      codeSum codes x n := by
  rw [sum_comm]
  refine Eq.trans (sum_congr rfl fun i _ => ?_) (sum_blocks (term codes x) n)
  rw [← sum_run (m := 16) (w := 2) rfl, show (16 : ℕ) = 8 * 2 from rfl, sum_range_mul _ 8 2]
  refine sum_congr rfl fun d _ => sum_congr rfl fun e _ => ?_
  rw [Nat.mul_comm 2 d]
  rfl

/-- The AVX2 kernel with whatever is taken off at its end. -/
lemma ternRowAvx2_codeSum (codes : Codes) (x : Acts) (nb : ℕ) {xsum : Acc} {y : ℤ}
    (hK : nb * ternaryBlock ≤ 2 ^ 23) (hx : xsum.Computes True y) (hy : Fits 32 (codeSum codes x nb - y)) :
    (ternRowAvx2 codes x (nb * ternaryBlock) xsum).Computes
      (RowFits codes x .avx2 (nb * ternaryBlock)) (codeSum codes x nb - y) := by
  have hnb : nb * 128 ≤ 2 ^ 23 := hK
  rw [ternRowAvx2, RowFits, div_block]
  refine (Acc.Computes.sub_fits (by omega) ?_ hx hy).congr (and_iff_left trivial) rfl
  have hlanes := turns_induct (n := nb) (f := fun b (a : Reg × Reg) =>
      let a16 := addLanes 16 a.2
        (addLanes 16
          (addLanes 16 (maddubs (plane codes b 0) (loadActs x (b * ternaryBlock)))
            (maddubs (plane codes b 1) (loadActs x (b * ternaryBlock + 32))))
          (addLanes 16 (maddubs (plane codes b 2) (loadActs x (b * ternaryBlock + 64)))
            (maddubs (plane codes b 3) (loadActs x (b * ternaryBlock + 96)))))
      if b &&& 15 = 15 ∨ b = nb - 1 then (addLanes 32 a.1 (maddOnes a16), zero) else (a.1, a16))
    (s := (zero, zero)) (Widening codes x nb) (widening_zero codes x nb) fun b hb a ha =>
      widening_step hb (by omega) ha fun _ hl => block_within hl
  have hwide := hlanes.wide
  rw [show flushed nb nb = nb from if_pos rfl] at hwide
  refine (hsum_computes hwide (by omega)).congr (and_congr ?_ ?_) (sum_pairs codes x nb)
  · constructor
    · intro h b hb l hl
      rcases Nat.mod_two_eq_zero_or_one l with heven | hodd
      · have hfst := (h (l / 2) (by omega) b hb).1
        rwa [show 2 * (l / 2) = l by omega] at hfst
      · have hsnd := (h (l / 2) (by omega) b hb).2
        rwa [show 2 * (l / 2) + 1 = l by omega] at hsnd
    · exact fun h d hd m hm => ⟨h m hm (2 * d) (by omega), h m hm (2 * d + 1) (by omega)⟩
  · rw [sum_pairs]

lemma ternRowAvx2_computes {xsum : Acc} (hK : nb * ternaryBlock ≤ 2 ^ 23)
    (hx : xsum.Computes True (∑ k ∈ range (nb * ternaryBlock), (x k).toInt)) :
    (ternRowAvx2 codes x (nb * ternaryBlock) xsum).Computes
      (RowFits codes x .avx2 (nb * ternaryBlock)) (ternaryDot codes x (nb * ternaryBlock)) := by
  refine (ternRowAvx2_codeSum codes x nb hK hx ?_).congr Iff.rfl (ternaryDot_eq codes x nb)
  rw [ternaryDot_eq]
  exact fits_ternaryDot codes x hK

lemma sum_plane2 (hg : g < 4) (hl : l < 16) :
    ∑ i ∈ range 4, (plane codes b g (4 * l + i) : ℤ) *
      loadActs2 x (b * ternaryBlock + g * 32) (4 * l + i) =
        run (term codes x) (b + l / 8) g 4 (l % 8) := by
  have hmod : l % 8 < 8 := Nat.mod_lt _ (by omega)
  rw [← sum_plane hg hmod]
  refine sum_congr rfl fun i hi => ?_
  have hi4 := mem_range.mp hi
  rcases Nat.lt_or_ge l 8 with hlow | hhigh
  · rw [show l / 8 = 0 by omega, show l % 8 = l by omega, loadActs2, if_pos (by omega)]
    rfl
  · rw [show l / 8 = 1 by omega, loadActs2, if_neg (by omega),
      show 4 * l + i = 32 + (4 * (l % 8) + i) by omega, plane_succ, Nat.add_sub_cancel_left,
      loadActs, Nat.add_mul, Nat.one_mul]
    rw [show ternaryBlock + (b * ternaryBlock + g * 32) = b * ternaryBlock + ternaryBlock + g * 32
      by omega]

lemma sum_quads2 (codes : Codes) (x : Acts) (n : ℕ) :
    ∑ l ∈ range 16, ∑ i ∈ range n, ∑ g ∈ range 4, run (term codes x) (2 * i + l / 8) g 4 (l % 8) =
      codeSum codes x (2 * n) := by
  rw [sum_comm, codeSum, Nat.mul_comm 2 n]
  change _ = ∑ k ∈ range (n * 2 * ternaryBlock), term codes x k
  rw [← sum_blocks, sum_range_mul _ n 2]
  refine sum_congr rfl fun i _ => ?_
  rw [show (16 : ℕ) = 2 * 8 from rfl, sum_range_mul _ 2 8]
  refine sum_congr rfl fun h hh => ?_
  rw [← sum_run (m := 8) (w := 4) rfl, Nat.mul_comm 2 i]
  refine sum_congr rfl fun l hl => ?_
  have hh2 := mem_range.mp hh
  have hl8 := mem_range.mp hl
  rw [show (h * 8 + l) / 8 = h by omega, show (h * 8 + l) % 8 = l by omega]

/-- The codes and activations from some block on. -/
lemma codeSum_add (codes : Codes) (x : Acts) (b n : ℕ) :
    codeSum codes x (b + n) = codeSum codes x b +
      codeSum (fun i => codes (b * 32 + i)) (fun i => x (b * ternaryBlock + i)) n := by
  rw [codeSum, Nat.add_mul, sum_range_add, codeSum, codeSum]
  refine congrArg _ (sum_congr rfl fun k _ => ?_)
  have hcode : codeAt (fun i => codes (b * 32 + i)) k = codeAt codes (b * ternaryBlock + k) := by
    rw [codeAt, codeAt, ternaryBlock, show (b * 128 + k) / 128 = b + k / 128 by omega,
      show (b * 128 + k) % 32 = k % 32 by omega, show (b * 128 + k) % 128 = k % 128 by omega,
      Nat.add_mul, Nat.add_assoc]
  rw [hcode]

/-- One block alone never overflows. -/
lemma rowFits_one (codes : Codes) (x : Acts) : RowFits codes x .avx2 ternaryBlock := by
  have hone : ternaryBlock / ternaryBlock = 1 := rfl
  constructor
  · intro b hb l _
    obtain rfl : b = 0 := by omega
    rw [show Ico (0 / 16 * 16) (0 + 1) = {0} from rfl, sum_singleton]
    exact fits_of_abs (abs_laneTerm_le codes x 0 l) (by decide)
  · rw [hone, codeSum]
    refine fits_of_abs (B := 49152) ?_ (by decide)
    have hterm : ∀ k < 1 * ternaryBlock, |term codes x k| ≤ 384 := fun k _ =>
      abs_term_le codes x k
    exact abs_sum_range_le hterm

lemma ternRowAvx512_computes {xsum : Acc} (hK : nb * ternaryBlock ≤ 2 ^ 23)
    (hx : xsum.Computes True (∑ k ∈ range (nb * ternaryBlock), (x k).toInt)) :
    (ternRowAvx512 codes x (nb * ternaryBlock) xsum).Computes
      (RowFits codes x .avx512vnni (nb * ternaryBlock))
      (ternaryDot codes x (nb * ternaryBlock)) := by
  have hnb : nb * 128 ≤ 2 ^ 23 := hK
  rw [ternRowAvx512, RowFits, div_block]
  refine sub_xsum ?_ hx hK
  have hlanes := turns_induct (n := nb / 2) (f := fun i a =>
      dpbusd (dpbusd (dpbusd (dpbusd a
        (plane codes (2 * i) 0) (loadActs2 x (2 * i * ternaryBlock)))
        (plane codes (2 * i) 1) (loadActs2 x (2 * i * ternaryBlock + 32)))
        (plane codes (2 * i) 2) (loadActs2 x (2 * i * ternaryBlock + 64)))
        (plane codes (2 * i) 3) (loadActs2 x (2 * i * ternaryBlock + 96))) (s := zero)
    (fun n a => ∀ l < 16, (a l).Within True
      (∑ i ∈ range n, ∑ g ∈ range 4, run (term codes x) (2 * i + l / 8) g 4 (l % 8)) (n * 6144))
    (fun l _ => Acc.within_lift (by simp)) fun i hi a ha l hl => by
      have hquads := quads_within (ha l hl) (u := fun g => plane codes (2 * i) g)
        (v := fun g => loadActs2 x (2 * i * ternaryBlock + g * 32))
        (fun g hg => sum_plane2 hg hl) (fun g _ => abs_quad_le codes x _ g _) (by omega)
      rw [sum_range_succ]
      exact ⟨hquads.computes, hquads.bound.trans (by push_cast; omega)⟩
  have hmain := (reduceAdd_computes hlanes (by omega)).congr (and_iff_right fun _ _ => trivial) rfl
  rw [sum_quads2] at hmain
  by_cases hodd : 2 * (nb / 2) < nb
  · rw [if_pos hodd]
    have hsucc : 2 * (nb / 2) + 1 = nb := by omega
    have htail := ternRowAvx2_codeSum (fun i => codes (2 * (nb / 2) * 32 + i))
      (fun i => x (2 * (nb / 2) * ternaryBlock + i)) 1 (by decide) (Acc.lift_computes 0)
      (by rw [sub_zero]; exact (rowFits_one _ _).2)
    rw [sub_zero] at htail
    have hadd := codeSum_add codes x (2 * (nb / 2)) 1
    rw [hsucc] at hadd
    refine (hmain.add (w := 32) (by omega) htail).congr ?_ hadd.symm
    rw [← hadd]
    exact and_congr_left fun _ => and_iff_left (rowFits_one _ _)
  · rw [if_neg hodd]
    have heven : 2 * (nb / 2) = nb := by omega
    rw [heven] at hmain ⊢
    refine (hmain.add (w := 32) (by omega) (Acc.lift_computes 0)).congr ?_ (add_zero _)
    rw [add_zero]
    exact and_congr_left fun _ => and_iff_left trivial

end Unsigned

/-! ### The signed kernels -/

section Signed

variable {codes : Codes} {x : Acts} {b g h j l nb : ℕ} {z : ℤ}

/-- An exact sum of `m` signed terms. -/
structure Between (a : Acc) (z : ℤ) (m : ℕ) : Prop where
  computes : a.Computes True z
  low : -256 * m ≤ z
  high : z ≤ 254 * m

lemma Between.add {a : Acc} {m k : ℕ} {y : ℤ} (ha : Between a z m) (hy : y = signedTerm codes x k)
    (hm : m < 2 ^ 23) : Between (a.add 32 (lift y)) (z + y) (m + 1) := by
  obtain ⟨hlow, hhigh⟩ := signedTerm_bounds codes x k
  obtain ⟨ha, hza, hzb⟩ := ha
  rw [← hy] at hlow hhigh
  refine ⟨(ha.add_fits (by omega) (Acc.lift_computes y) ?_).congr (and_iff_left trivial) rfl, ?_,
    ?_⟩
  · constructor
    · show -2 ^ 31 ≤ _
      omega
    · show _ < 2 ^ 31
      omega
  · push_cast
    omega
  · push_cast
    omega

/-- The product of plane `g` that the scalar loop adds at byte `j` of a block. -/
def product (codes : Codes) (x : Acts) (b g j : ℕ) : ℤ :=
  (((codes (b * 32 + j)).toNat >>> (6 - 2 * g) &&& 3 : ℕ) - 1) *
    (x (b * ternaryBlock + (j + g * 32))).toInt

lemma product_eq (codes : Codes) (x : Acts) (b : ℕ) (hg : g < 4) (hj : j < 32) :
    product codes x b g j = signedTerm codes x (b * ternaryBlock + g * 32 + j) := by
  rw [product, signedTerm, codeAt_eq hg hj, Nat.add_comm j, Nat.add_assoc]

/-- What a byte adds. -/
def byteSum (codes : Codes) (x : Acts) (b j : ℕ) : ℤ := ∑ g ∈ range 4, product codes x b g j

lemma byte_step {a : Acc} {m : ℕ} (hj : j < 32) (ha : Between a z m) (hm : m + 4 ≤ 2 ^ 23) :
    Between ((((a.add 32 (lift (product codes x b 0 j))).add 32
      (lift (product codes x b 1 j))).add 32 (lift (product codes x b 2 j))).add 32
        (lift (product codes x b 3 j))) (z + byteSum codes x b j) (m + 4) := by
  have h0 := ha.add (product_eq codes x b (g := 0) (by omega) hj) (by omega)
  have h1 := h0.add (product_eq codes x b (g := 1) (by omega) hj) (by omega)
  have h2 := h1.add (product_eq codes x b (g := 2) (by omega) hj) (by omega)
  have h3 := h2.add (product_eq codes x b (g := 3) (by omega) hj) (by omega)
  have hsum : z + byteSum codes x b j = z + product codes x b 0 j + product codes x b 1 j +
      product codes x b 2 j + product codes x b 3 j := by
    rw [byteSum]
    simp only [sum_range_succ, sum_range_zero]
    ring
  rw [hsum]
  exact h3

lemma sum_byteSum (codes : Codes) (x : Acts) (nb : ℕ) :
    ∑ b ∈ range nb, ∑ j ∈ range 32, byteSum codes x b j =
      ternaryDot codes x (nb * ternaryBlock) := by
  refine Eq.trans (sum_congr rfl fun b _ => ?_) (sum_blocks (signedTerm codes x) nb)
  rw [← sum_run (m := 32) (w := 1) rfl]
  refine sum_congr rfl fun j hj => sum_congr rfl fun g hg => ?_
  rw [product_eq codes x b (mem_range.mp hg) (mem_range.mp hj), run, sum_range_one, Nat.one_mul,
    Nat.add_zero]

lemma ternRowScalar_computes (hK : nb * ternaryBlock ≤ 2 ^ 23) :
    (ternRowScalar codes x (nb * ternaryBlock)).Computes True
      (ternaryDot codes x (nb * ternaryBlock)) := by
  have hnb : nb * 128 ≤ 2 ^ 23 := hK
  rw [ternRowScalar, div_block, ← sum_byteSum]
  refine (turns_induct (n := nb)
    (fun b s => Between s (∑ b' ∈ range b, ∑ j ∈ range 32, byteSum codes x b' j) (b * 128))
    ⟨Acc.lift_computes 0, by simp, by simp⟩ fun b hb s hs => ?_).computes
  have hblock := turns_induct (n := 32) (s := s) (f := fun j s =>
      (((s.add 32 (lift (product codes x b 0 j))).add 32
        (lift (product codes x b 1 j))).add 32 (lift (product codes x b 2 j))).add 32
          (lift (product codes x b 3 j)))
    (fun j s => Between s (∑ b' ∈ range b, ∑ j ∈ range 32, byteSum codes x b' j +
      ∑ j' ∈ range j, byteSum codes x b j') (b * 128 + j * 4))
    (by rwa [sum_range_zero, add_zero, Nat.zero_mul, Nat.add_zero]) fun j hj s hs => by
      rw [sum_range_succ, ← add_assoc, Nat.succ_mul, ← Nat.add_assoc]
      exact byte_step hj hs (by omega)
  rw [sum_range_succ, Nat.succ_mul]
  exact hblock

/-- What plane `g` of half a block adds to a lane. -/
def neonRun (dotprod : Bool) (f : ℕ → ℤ) (base l : ℕ) : ℤ :=
  if dotprod then ∑ i ∈ range 4, f (base + (4 * l + i))
  else f (base + 2 * l) + f (base + (8 + 2 * l)) +
    (f (base + (2 * l + 1)) + f (base + (8 + (2 * l + 1))))

lemma sum_neonRun (dotprod : Bool) (f : ℕ → ℤ) (base : ℕ) :
    ∑ l ∈ range 4, neonRun dotprod f base l = ∑ j ∈ range 16, f (base + j) := by
  cases dotprod with
  | true =>
    rw [show (16 : ℕ) = 4 * 4 from rfl, sum_range_mul _ 4 4]
    refine sum_congr rfl fun l _ => ?_
    rw [neonRun, if_pos rfl, Nat.mul_comm 4 l]
  | false =>
    simp only [neonRun, Bool.false_eq_true, if_false, sum_range_succ, sum_range_zero]
    ring

lemma abs_signedTerm_le (codes : Codes) (x : Acts) (k : ℕ) : |signedTerm codes x k| ≤ 256 := by
  obtain ⟨hlow, hhigh⟩ := signedTerm_bounds codes x k
  rw [abs_le]
  omega

lemma ternValues_mul (codes : Codes) (x : Acts) (b : ℕ) {h : ℕ} (hg : g < 4) (hh : h < 2)
    (hj : j < 16) :
    ternValues codes (b * 32 + h * 16) (6 - 2 * g) j *
      loadActs x (b * ternaryBlock + h * 16 + g * 32) j =
        signedTerm codes x (b * ternaryBlock + h * 16 + g * 32 + j) := by
  rw [ternValues, loadActs, signedTerm, Nat.add_assoc (b * 32),
    show b * ternaryBlock + h * 16 + g * 32 + j = b * ternaryBlock + g * 32 + (h * 16 + j) by omega,
    codeAt_eq hg (by omega)]

lemma neonPlane_within (dotprod : Bool) (codes : Codes) (x : Acts) (b : ℕ) {a : Reg} {h : ℕ}
    {B : ℤ} (hg : g < 4) (hh : h < 2) (hl : l < 4) (ha : (a l).Within True z B)
    (hB : B + 1024 < 2 ^ 31) :
    (neonPlane dotprod a (ternValues codes (b * 32 + h * 16) (6 - 2 * g))
      (loadActs x (b * ternaryBlock + h * 16 + g * 32)) l).Within True
        (z + neonRun dotprod (signedTerm codes x) (b * ternaryBlock + h * 16 + g * 32) l)
        (B + 1024) := by
  have hmul : ∀ j < 16, _ := fun j hj => ternValues_mul codes x b hg hh hj
  have hterm : ∀ j, |signedTerm codes x (b * ternaryBlock + h * 16 + g * 32 + j)| ≤ 256 :=
    fun j => abs_signedTerm_le codes x _
  cases dotprod with
  | true =>
    have hrun : |neonRun true (signedTerm codes x) (b * ternaryBlock + h * 16 + g * 32) l| ≤
        1024 := by
      rw [neonRun, if_pos rfl]
      exact abs_sum_range_le fun i _ => hterm (4 * l + i)
    have hsum : ∑ i ∈ range 4, ternValues codes (b * 32 + h * 16) (6 - 2 * g) (4 * l + i) *
        loadActs x (b * ternaryBlock + h * 16 + g * 32) (4 * l + i) =
          neonRun true (signedTerm codes x) (b * ternaryBlock + h * 16 + g * 32) l := by
      rw [neonRun, if_pos rfl]
      refine sum_congr rfl fun i hi => hmul _ ?_
      have hi4 := mem_range.mp hi
      omega
    rw [neonPlane, if_pos rfl, vdot, hsum]
    exact ha.add_lift (by omega) hrun hB
  | false =>
    have hpair : ∀ j < 8, (vmlal (vmull (ternValues codes (b * 32 + h * 16) (6 - 2 * g))
        (loadActs x (b * ternaryBlock + h * 16 + g * 32)))
        (fun l => ternValues codes (b * 32 + h * 16) (6 - 2 * g) (8 + l))
        (fun l => loadActs x (b * ternaryBlock + h * 16 + g * 32) (8 + l)) j).Within True
        (signedTerm codes x (b * ternaryBlock + h * 16 + g * 32 + j) +
          signedTerm codes x (b * ternaryBlock + h * 16 + g * 32 + (8 + j))) (256 + 256) :=
      fun j hj => by
        rw [vmlal, vmull, hmul j (by omega), hmul (8 + j) (by omega)]
        exact (Acc.within_lift (hterm j)).add_lift (by omega) (hterm _) (by decide)
    have hadal := (hpair (2 * l) (by omega)).add (w := 32) (by omega)
      (hpair (2 * l + 1) (by omega)) (by decide)
    rw [neonPlane, if_neg Bool.false_ne_true, vpadal, neonRun, if_neg Bool.false_ne_true]
    exact (ha.add (by omega) hadal (by omega)).congr (by simp) rfl

/-- What half a block adds to a lane. -/
def halfSum (dotprod : Bool) (f : ℕ → ℤ) (b h l : ℕ) : ℤ :=
  ∑ g ∈ range 4, neonRun dotprod f (b * ternaryBlock + h * 16 + g * 32) l

lemma half_within (dotprod : Bool) (codes : Codes) (x : Acts) (b : ℕ) {a : Reg} {h : ℕ} {B : ℤ}
    (hh : h < 2) (hl : l < 4) (ha : (a l).Within True z B) (hB : B + 4096 < 2 ^ 31) :
    (neonPlane dotprod (neonPlane dotprod (neonPlane dotprod (neonPlane dotprod a
      (ternValues codes (b * 32 + h * 16) 6) (loadActs x (b * ternaryBlock + h * 16)))
      (ternValues codes (b * 32 + h * 16) 4) (loadActs x (b * ternaryBlock + h * 16 + 32)))
      (ternValues codes (b * 32 + h * 16) 2) (loadActs x (b * ternaryBlock + h * 16 + 64)))
      (ternValues codes (b * 32 + h * 16) 0) (loadActs x (b * ternaryBlock + h * 16 + 96))
        l).Within True (z + halfSum dotprod (signedTerm codes x) b h l) (B + 4096) := by
  have hstep : ∀ g < 4, ∀ {a : Reg} {z B : ℤ}, (a l).Within True z B → B + 1024 < 2 ^ 31 → _ :=
    fun g hg a z B => neonPlane_within dotprod codes x b hg hh hl
  have h0 := hstep 0 (by omega) ha (by omega)
  have h1 := hstep 1 (by omega) h0 (by omega)
  have h2 := hstep 2 (by omega) h1 (by omega)
  have h3 := hstep 3 (by omega) h2 (by omega)
  have hsum : z + neonRun dotprod (signedTerm codes x) (b * ternaryBlock + h * 16 + 0 * 32) l +
      neonRun dotprod (signedTerm codes x) (b * ternaryBlock + h * 16 + 1 * 32) l +
      neonRun dotprod (signedTerm codes x) (b * ternaryBlock + h * 16 + 2 * 32) l +
      neonRun dotprod (signedTerm codes x) (b * ternaryBlock + h * 16 + 3 * 32) l =
        z + halfSum dotprod (signedTerm codes x) b h l := by
    rw [halfSum]
    simp only [sum_range_succ, sum_range_zero]
    ring
  exact ⟨h3.computes.congr Iff.rfl hsum, hsum ▸ h3.bound.trans (by omega)⟩

lemma sum_halves (dotprod : Bool) (codes : Codes) (x : Acts) (nb : ℕ) :
    ∑ l ∈ range 4, ∑ b ∈ range nb, ∑ h ∈ range 2, halfSum dotprod (signedTerm codes x) b h l =
      ternaryDot codes x (nb * ternaryBlock) := by
  rw [sum_comm]
  refine Eq.trans (sum_congr rfl fun b _ => ?_) (sum_blocks (signedTerm codes x) nb)
  rw [sum_comm, ← sum_run (m := 2) (w := 16) rfl]
  refine sum_congr rfl fun h _ => ?_
  simp only [halfSum]
  rw [sum_comm]
  refine sum_congr rfl fun g _ => ?_
  rw [sum_neonRun, run]
  refine sum_congr rfl fun i _ => ?_
  rw [show b * ternaryBlock + h * 16 + g * 32 + i = b * ternaryBlock + g * 32 + (16 * h + i) by
    omega]

lemma ternRowNeon_computes (dotprod : Bool) (hK : nb * ternaryBlock ≤ 2 ^ 23) :
    (ternRowNeon dotprod codes x (nb * ternaryBlock)).Computes True
      (ternaryDot codes x (nb * ternaryBlock)) := by
  have hnb : nb * 128 ≤ 2 ^ 23 := hK
  rw [ternRowNeon, div_block]
  have hlanes := turns_induct (n := nb) (s := zero) (f := fun b a => turns 2 (fun h a =>
      neonPlane dotprod (neonPlane dotprod (neonPlane dotprod (neonPlane dotprod a
        (ternValues codes (b * 32 + h * 16) 6) (loadActs x (b * ternaryBlock + h * 16)))
        (ternValues codes (b * 32 + h * 16) 4) (loadActs x (b * ternaryBlock + h * 16 + 32)))
        (ternValues codes (b * 32 + h * 16) 2) (loadActs x (b * ternaryBlock + h * 16 + 64)))
        (ternValues codes (b * 32 + h * 16) 0) (loadActs x (b * ternaryBlock + h * 16 + 96))) a)
    (fun n a => ∀ l < 4, (a l).Within True
      (∑ b ∈ range n, ∑ h ∈ range 2, halfSum dotprod (signedTerm codes x) b h l) (n * 8192))
    (fun l _ => Acc.within_lift (by simp)) fun b hb a ha => by
      have hhalves := turns_induct (n := 2) (s := a)
        (fun h a => ∀ l < 4, (a l).Within True
          (∑ b ∈ range b, ∑ h ∈ range 2, halfSum dotprod (signedTerm codes x) b h l +
            ∑ h ∈ range h, halfSum dotprod (signedTerm codes x) b h l) (b * 8192 + h * 4096))
        (fun l hl => by simpa using ha l hl) fun h hh a ha l hl => by
          have hhalf := half_within dotprod codes x b hh hl (ha l hl) (by omega)
          rw [sum_range_succ, ← add_assoc]
          exact ⟨hhalf.computes, hhalf.bound.trans (by push_cast; omega)⟩
      intro l hl
      rw [sum_range_succ]
      exact ⟨(hhalves l hl).computes, (hhalves l hl).bound.trans (by push_cast; omega)⟩
  refine (vaddv_computes hlanes (by omega)).congr ?_ (sum_halves dotprod codes x nb)
  rw [sum_halves]
  exact iff_true_intro ⟨fun _ _ => trivial, fits_ternaryDot codes x hK⟩

end Signed

end VibeVoice.Kernels
