import Mathlib.Data.Real.Basic
import VibeVoice.Decoder.Greedy
import VibeVoice.Lib.Warp

/-!
The LM head on the GPU (`lm_head.cu`): a warp for each row, and the greedy token in two stages.
Arithmetic is exact and logits are any ordered values. Sizes are natural numbers, as an `int` has
them where the vocabulary stays `65536` below `2 ^ 31`.

* `lmHeadGemvKernel_eq`: what a row of the head adds up.
* `argmaxDev_scan`: the two stages scan all logits, in the order of the threads' reversed bits.
* `lmHead_iff`: the sizes for which each column counts once, and the logits whose first maximum is
  found.
-/

namespace VibeVoice.LmHead

open Lanes Warp Greedy

/-! ### The head -/

section Gemv

variable {α : Type} [Semiring α]

/-- The columns of a lane in the loop over vectors of 8. -/
def vecCols (K lane : ℕ) : List ℕ :=
  (starts (K - 7 - lane * 8) 256).flatMap fun s => (List.range 8).map (lane * 8 + s + ·)

/-- The columns of a lane in the tail, from `K & ~255` on. -/
def tailCols (K lane : ℕ) : List ℕ := strided K 32 (K / 256 * 256 + lane)

/-- `acc` of a lane. -/
def laneAcc (W x : ℕ → α) (K row lane : ℕ) : α :=
  (vecCols K lane ++ tailCols K lane).foldl (fun acc k => acc + W (row * K + k) * x k) 0

/-- `lm_head_gemv_kernel`, over its blocks and their warps. -/
def lmHeadGemvKernel (W x : ℕ → α) (V K : ℕ) (logits : ℕ → α) : ℕ → α :=
  stores ((List.range ((V + 7) / 8)).flatMap fun block => (List.range 8).flatMap fun y =>
    let row := block * 8 + y
    if row < V then [(row, butterfly 5 (laneAcc W x K row) 0)] else []) logits

end Gemv

/-! ### The greedy token -/

section Argmax

variable {α : Type} [LinearOrder α]

/-- The best of a thread's values, behind `low`, which is `-FLT_MAX`. -/
def threadBest (low : α) (f : ℕ → ℕ × α) (is : List ℕ) : ℕ × α :=
  is.foldl (fun best i => pick best (f i)) (0, low)

/-- `argmax_partial_kernel`: the candidate of a block. -/
def argmaxPartial (low : α) (logits : ℕ → α) (V block : ℕ) : ℕ × α :=
  rounds pick 8 (fun tid => threadBest low (fun i => (i, logits i))
    (strided V (256 * 256) (block * 256 + tid))) 0

/-- `argmax_final_kernel`. -/
def argmaxFinal (low : α) (partials : ℕ → ℕ × α) (n : ℕ) : ℕ × α :=
  rounds pick 8 (fun tid => threadBest low partials (strided n 256 tid)) 0

/-- `vv_argmax_dev`. -/
def argmaxDev (low : α) (logits : ℕ → α) (V : ℕ) : ℕ :=
  (argmaxFinal low (argmaxPartial low logits V) 256).1

/-- The place of a row's thread in the order in which the candidates are compared. -/
def rank (i : ℕ) : ℕ := bitRev 8 (i / 256 % 256) * 256 + bitRev 8 (i % 256)

end Argmax

/-! ### Columns -/

lemma starts_eight (m l : ℕ) :
    starts (8 * m - 7 - l * 8) 256 = (starts (m - l) 32).map (8 * ·) := by
  have hlen : (8 * m - 7 - l * 8 + 256 - 1) / 256 = (m - l + 32 - 1) / 32 := by omega
  rw [starts, starts, hlen, List.map_map]
  exact List.map_congr_left fun s _ => by
    change s * 256 = 8 * (s * 32)
    ring

/-- The vectors cover every column. -/
lemma perm_vecCols {K : ℕ} (hK : K % 8 = 0) :
    ((List.range 32).flatMap (vecCols K)).Perm (List.range K) := by
  obtain ⟨m, rfl⟩ := Nat.dvd_of_mod_eq_zero hK
  have hlane : ∀ l, vecCols (8 * m) l =
      (strided m 32 l).flatMap fun g => (List.range 8).map (g * 8 + ·) := fun l => by
    rw [vecCols, starts_eight, strided, List.flatMap_map, List.flatMap_map]
    refine List.flatMap_congr fun s _ => List.map_congr_left fun b _ => ?_
    ring
  rw [List.flatMap_congr fun l _ => hlane l, ← List.flatMap_assoc, Nat.mul_comm, ← range_mul]
  exact (perm_strided (by omega)).flatMap_right _

/-- The tail covers the columns behind the last 256. -/
lemma perm_tailCols (K : ℕ) : ((List.range 32).flatMap (tailCols K)).Perm
    ((List.range (K % 256)).map (K / 256 * 256 + ·)) := by
  have hlane : ∀ l, tailCols K l = (strided (K % 256) 32 l).map (K / 256 * 256 + ·) := fun l => by
    rw [tailCols, strided, strided, List.map_map,
      show K - (K / 256 * 256 + l) = K % 256 - l by omega]
    exact List.map_congr_left fun s _ => Nat.add_assoc ..
  rw [List.flatMap_congr fun l _ => hlane l, ← List.map_flatMap]
  exact (perm_strided (by omega)).map _

section Rows

variable {α : Type} [Semiring α]

lemma foldl_add_eq {ι : Type} (f : ι → α) (l : List ι) (a : α) :
    l.foldl (fun acc k => acc + f k) a = a + (l.map f).sum := by
  induction l generalizing a with
  | nil => simp
  | cons k l ih => rw [List.foldl_cons, ih, List.map_cons, List.sum_cons, add_assoc]

/-- A row of the head: every column, and those of the tail once more. -/
lemma warpSum_eq {K : ℕ} (hK : K % 8 = 0) (W x : ℕ → α) (row : ℕ) :
    butterfly 5 (laneAcc W x K row) 0 =
      ∑ k ∈ Finset.range K, W (row * K + k) * x k +
        ∑ j ∈ Finset.range (K % 256),
          W (row * K + (K / 256 * 256 + j)) * x (K / 256 * 256 + j) := by
  have hlists : ((List.range 32).flatMap fun l => vecCols K l ++ tailCols K l).Perm
      (List.range K ++ (List.range (K % 256)).map (K / 256 * 256 + ·)) :=
    (List.flatMap_append_perm ..).symm.trans ((perm_vecCols hK).append (perm_tailCols K))
  have hacc : ∀ l, laneAcc W x K row l =
      ((vecCols K l ++ tailCols K l).map fun k => W (row * K + k) * x k).sum := fun l => by
    rw [laneAcc, foldl_add_eq, zero_add]
  have hsum := (hlists.map fun k => W (row * K + k) * x k).sum_eq
  rw [List.map_append, List.sum_append, List.map_map, sum_map_range, sum_map_range,
    List.map_flatMap] at hsum
  calc butterfly 5 (laneAcc W x K row) 0
      = ∑ l ∈ Finset.range 32, laneAcc W x K row l := by
        rw [butterfly_eq_sum]
        exact Finset.sum_congr rfl fun l _ => by rw [Nat.zero_xor]
    _ = _ := by
        refine Eq.trans ?_ hsum
        rw [List.flatMap_def, List.sum_flatten, List.map_map, ← sum_map_range]
        exact congrArg List.sum (List.map_congr_left fun l _ => hacc l)

/-- Every row is written by one warp. -/
lemma lmHeadGemvKernel_eq (W x : ℕ → α) (V K : ℕ) (logits : ℕ → α) (n : ℕ) :
    lmHeadGemvKernel W x V K logits n =
      if n < V then butterfly 5 (laneAcc W x K n) 0 else logits n := by
  have hcell : ∀ {c : ℕ × α}, c ∈ ((List.range ((V + 7) / 8)).flatMap fun block =>
      (List.range 8).flatMap fun y => if block * 8 + y < V then
        [(block * 8 + y, butterfly 5 (laneAcc W x K (block * 8 + y)) 0)] else []) ↔
      c.1 < V ∧ c.2 = butterfly 5 (laneAcc W x K c.1) 0 := by
    intro c
    simp only [List.mem_flatMap, List.mem_range]
    constructor
    · rintro ⟨block, -, y, -, hc⟩
      split at hc
      · obtain rfl := List.mem_singleton.mp hc
        exact ⟨‹_›, rfl⟩
      · exact absurd hc List.not_mem_nil
    · rintro ⟨hlt, hval⟩
      have hrow : c.1 / 8 * 8 + c.1 % 8 = c.1 := Nat.div_add_mod' ..
      refine ⟨c.1 / 8, by omega, c.1 % 8, by omega, ?_⟩
      rw [hrow, if_pos hlt, List.mem_singleton]
      exact Prod.ext rfl hval
  rw [lmHeadGemvKernel]
  by_cases hn : n < V
  · rw [if_pos hn]
    refine stores_eq ⟨(n, butterfly 5 (laneAcc W x K n) 0), hcell.mpr ⟨hn, rfl⟩, rfl⟩ fun c hc ho => ?_
    rw [(hcell.mp hc).2, ho]
  · rw [if_neg hn]
    exact stores_of_not_mem fun c hc ho => hn (ho ▸ (hcell.mp hc).1)

end Rows

/-! ### Candidates -/

section Candidates

variable {α : Type} [LinearOrder α] {low : α} {logits : ℕ → α} {V : ℕ}

/-- Rounds of picks are rounds of the better result. -/
lemma some_rounds (n : ℕ) (sv : ℕ → ℕ × α) (t : ℕ) :
    some (rounds pick n sv t) = rounds Scan.better n (fun t => some (sv t)) t := by
  induction n generalizing sv with
  | zero => rfl
  | succ n ih =>
    rw [rounds, rounds, ih]
    refine congrArg (rounds Scan.better n · t) (funext fun t => ?_)
    rw [apply_ite some, some_pick]

/-- A reduction ends with the best candidate, in the order of the reversed bits. -/
lemma some_reduce (n : ℕ) (sv : ℕ → ℕ × α) :
    some (rounds pick n sv 0) =
      Scan.best ((List.range (2 ^ n)).map fun q => some (sv (bitRev n q))) := by
  rw [some_rounds, rounds_zero Scan.better_assoc Scan.better_none]
  generalize List.range (2 ^ n) = l
  induction l with
  | nil => rfl
  | cons q l ih => rw [List.map_cons, List.foldr_cons, ih, Scan.best_cons]

lemma some_threadBest (low : α) (f : ℕ → ℕ × α) (is : List ℕ) :
    some (threadBest low f is) =
      Scan.better (some (0, low)) (Scan.best (is.map fun i => some (f i))) := by
  rw [threadBest]
  generalize ((0, low) : ℕ × α) = p
  induction is generalizing p with
  | nil => rfl
  | cons i is ih =>
    rw [List.foldl_cons, ih, some_pick, List.map_cons, Scan.best_cons, Scan.better_assoc]

/-- The rows in the order in which the two stages compare them. -/
def visit (V : ℕ) : List ℕ :=
  (List.range (2 ^ 8)).flatMap fun q => (List.range (2 ^ 8)).flatMap fun q' =>
    strided V (256 * 256) (bitRev 8 q * 256 + bitRev 8 q')

lemma mem_visit {i : ℕ} : i ∈ visit V ↔ i < V := by
  have hlt := bitRev_lt 8
  simp only [visit, List.mem_flatMap, List.mem_range]
  constructor
  · rintro ⟨q, -, q', -, hi⟩
    exact ((mem_strided (by omega) (by have := hlt q; have := hlt q'; omega)).mp hi).1
  · intro hi
    refine ⟨bitRev 8 (i / 256 % 256), hlt _, bitRev 8 (i % 256), hlt _, ?_⟩
    rw [bitRev_bitRev (by omega), bitRev_bitRev (by omega)]
    exact (mem_strided (by omega) (by omega)).mpr ⟨hi, by omega⟩

lemma rank_of_mem {q q' i : ℕ} (hq : q < 2 ^ 8) (hq' : q' < 2 ^ 8)
    (hi : i ∈ strided V (256 * 256) (bitRev 8 q * 256 + bitRev 8 q')) : rank i = q * 256 + q' := by
  have hlt := bitRev_lt 8 q
  have hlt' := bitRev_lt 8 q'
  have hmod := ((mem_strided (by omega) (by omega)).mp hi).2
  have hblock : i / 256 % 256 = bitRev 8 q := by omega
  have htid : i % 256 = bitRev 8 q' := by omega
  rw [rank, hblock, htid, bitRev_bitRev hq, bitRev_bitRev hq']

/-- They come in the order of their rank. -/
lemma visit_pairwise (V : ℕ) :
    (visit V).Pairwise fun i j => rank i < rank j ∨ rank i = rank j ∧ i < j := by
  have hmem : ∀ {q : ℕ}, q ∈ List.range (2 ^ 8) → q < 2 ^ 8 := List.mem_range.mp
  refine List.pairwise_flatMap.mpr ⟨fun q hq => List.pairwise_flatMap.mpr ⟨fun q' hq' => ?_, ?_⟩, ?_⟩
  · refine (strided_pairwise (by omega)).imp_of_mem fun hi hj hlt => .inr ⟨?_, hlt⟩
    rw [rank_of_mem (hmem hq) (hmem hq') hi, rank_of_mem (hmem hq) (hmem hq') hj]
  · refine List.pairwise_lt_range.imp_of_mem fun h₁ h₂ hlt i hi j hj => .inl ?_
    rw [rank_of_mem (hmem hq) (hmem h₁) hi, rank_of_mem (hmem hq) (hmem h₂) hj]
    omega
  · refine List.pairwise_lt_range.imp_of_mem fun h₁ h₂ hlt i hi j hj => .inl ?_
    obtain ⟨q₁, hq₁, hi⟩ := List.mem_flatMap.mp hi
    obtain ⟨q₂, hq₂, hj⟩ := List.mem_flatMap.mp hj
    rw [rank_of_mem (hmem h₁) (hmem hq₁) hi, rank_of_mem (hmem h₂) (hmem hq₂) hj]
    have := hmem hq₁
    omega

/-- A block's candidate. -/
lemma some_argmaxPartial (low : α) (logits : ℕ → α) (V block : ℕ) :
    some (argmaxPartial low logits V block) = Scan.better (some (0, low))
      (Scan.scan logits ((List.range (2 ^ 8)).flatMap fun q =>
        strided V (256 * 256) (block * 256 + bitRev 8 q))) := by
  have hthread : (fun q => some (threadBest low (fun i => (i, logits i))
      (strided V (256 * 256) (block * 256 + bitRev 8 q)))) = fun q =>
        Scan.better (some (0, low)) (Scan.scan logits
          (strided V (256 * 256) (block * 256 + bitRev 8 q))) := funext fun q => some_threadBest ..
  rw [argmaxPartial, some_reduce, hthread, Scan.scan_flatMap,
    ← Scan.best_map_better _ (by simp), List.map_map]
  rfl

/-- The two stages scan all logits. -/
lemma some_argmaxFinal (low : α) (logits : ℕ → α) (V : ℕ) :
    some (argmaxFinal low (argmaxPartial low logits V) 256) =
      Scan.better (some (0, low)) (Scan.scan logits (visit V)) := by
  have hone : ∀ q, strided 256 256 (bitRev 8 q) = [bitRev 8 q] := fun q => by
    have hlt := bitRev_lt 8 q
    rw [strided, starts, show (256 - bitRev 8 q + 256 - 1) / 256 = 1 by omega]
    rfl
  have hblock : (fun q => some (threadBest low (argmaxPartial low logits V)
      (strided 256 256 (bitRev 8 q)))) = fun q => Scan.better (some (0, low))
        (Scan.scan logits ((List.range (2 ^ 8)).flatMap fun q' =>
          strided V (256 * 256) (bitRev 8 q * 256 + bitRev 8 q'))) := funext fun q => by
    rw [some_threadBest, hone, List.map_singleton, Scan.best_cons, Scan.best_nil,
      Scan.better_none, some_argmaxPartial, ← Scan.better_assoc, Scan.better_self]
  rw [argmaxFinal, some_reduce, hblock, visit, Scan.scan_flatMap,
    ← Scan.best_map_better _ (by simp), List.map_map]
  rfl

/-- The token comes behind smaller values, and in front of no larger ones. -/
lemma argmaxDev_scan (hlow : ∃ i < V, low < logits i) :
    ∃ a b, visit V = a ++ argmaxDev low logits V :: b ∧
      (∀ j ∈ a, logits j < logits (argmaxDev low logits V)) ∧
      ∀ j ∈ b, logits j ≤ logits (argmaxDev low logits V) := by
  obtain ⟨i, hi, hvalue⟩ := hlow
  have hvisit := mem_visit.mpr hi
  cases hscan : Scan.scan logits (visit V) with
  | none =>
    rw [Scan.scan_eq_none_iff.mp hscan] at hvisit
    exact absurd hvisit List.not_mem_nil
  | some p =>
    obtain ⟨a, b, hsplit, hp, ha, hb⟩ := Scan.scan_eq_some_iff.mp hscan
    have hle : logits i ≤ p.2 := by
      rw [hsplit] at hvisit
      rcases List.mem_append.mp hvisit with h | h
      · exact (ha i h).le
      · rcases List.mem_cons.mp h with rfl | h
        · exact hp.ge
        · exact hb i h
    have hfinal := some_argmaxFinal low logits V
    rw [hscan, Scan.better_of_lt (p := (0, low)) (hvalue.trans_le hle)] at hfinal
    have htoken : argmaxDev low logits V = p.1 := congrArg Prod.fst (Option.some.inj hfinal)
    rw [htoken, ← hp]
    exact ⟨a, b, hsplit, ha, hb⟩

/-- The first maximum is found just where no other one has a thread that comes earlier. -/
lemma argmaxDev_eq_iff {g : ℕ} (hg : g < V) (hfirst : ∀ i < g, logits i < logits g)
    (hmax : ∀ i < V, logits i ≤ logits g) (hlow : low < logits g) :
    argmaxDev low logits V = g ↔ ∀ i < V, logits i = logits g → rank g ≤ rank i := by
  obtain ⟨a, b, hsplit, ha, hb⟩ := argmaxDev_scan ⟨g, hg, hlow⟩
  generalize argmaxDev low logits V = m at hsplit ha hb
  have hmem : ∀ i, i < V ↔ i ∈ a ∨ i = m ∨ i ∈ b := fun i => by
    rw [← mem_visit (V := V), hsplit, List.mem_append, List.mem_cons]
  have hm : m < V := (hmem m).mpr (.inr (.inl rfl))
  have hpairs := visit_pairwise V
  rw [hsplit] at hpairs
  have hbehind := (List.pairwise_cons.mp (List.pairwise_append.mp hpairs).2.1).1
  constructor
  · rintro rfl i hi heq
    rcases (hmem i).mp hi with hi | rfl | hi
    · exact absurd heq (ha i hi).ne
    · exact le_rfl
    · rcases hbehind i hi with hlt | ⟨hrank, -⟩
      · exact hlt.le
      · exact hrank.le
  · intro h
    have hle : logits g ≤ logits m := by
      rcases (hmem g).mp hg with hi | rfl | hi
      · exact (ha g hi).le
      · exact le_rfl
      · exact hb g hi
    have heq : logits m = logits g := le_antisymm (hmax m hm) hle
    have hrank := h m hm heq
    rcases (hmem g).mp hg with hi | rfl | hi
    · exact absurd heq.symm (ha g hi).ne
    · rfl
    · rcases hbehind g hi with hlt | ⟨-, hlt⟩
      · exact absurd hrank hlt.not_ge
      · exact absurd heq (hfirst m hlt).ne

end Candidates

/-! ### Both -/

/-- The head adds each product once just where its rows are whole vectors of 256; and the first
maximum is the token of both devices just where no other maximum has a thread that comes earlier. -/
theorem lmHead_iff {V K : ℕ} (hV : 0 < V) (hK : K % 8 = 0) :
    ((∀ (W x logits : ℕ → ℝ) (n : ℕ), lmHeadGemvKernel W x V K logits n =
      if n < V then ∑ k ∈ Finset.range K, W (n * K + k) * x k else logits n) ↔ K % 256 = 0) ∧
    ∀ {α : Type} [LinearOrder α] (low : α) (logits : ℕ → α) (g : ℕ), g < V →
      (∀ i < g, logits i < logits g) → (∀ i < V, logits i ≤ logits g) → low < logits g →
      sampleGreedyCpu logits V = g ∧ (argmaxDev low logits V = g ↔
        ∀ i < V, logits i = logits g → rank g ≤ rank i) := by
  refine ⟨⟨fun h => ?_, fun h W x logits n => ?_⟩, fun low logits g hg hfirst hmax hlow =>
    ⟨?_, argmaxDev_eq_iff hg hfirst hmax hlow⟩⟩
  · by_contra htail
    -- one weight, in the first column of the tail
    have hrow := h (fun k => if k = K / 256 * 256 then 1 else 0) (fun _ => 1) (fun _ => 0) 0
    rw [lmHeadGemvKernel_eq, if_pos hV, if_pos hV, warpSum_eq hK, add_eq_left,
      Finset.sum_eq_single_of_mem 0 (Finset.mem_range.mpr (Nat.pos_of_ne_zero htail))] at hrow
    · simp at hrow
    · intro j _ hj
      rw [if_neg (by omega), zero_mul]
  · rw [lmHeadGemvKernel_eq, warpSum_eq hK, h, Finset.sum_range_zero, add_zero]
  · obtain ⟨hlt, hfirst', hmax'⟩ := @sampleGreedyCpu_first _ _ logits V hV
    rcases Nat.lt_trichotomy (sampleGreedyCpu logits V) g with hc | hc | hc
    · exact absurd (hmax' g hg) (hfirst _ hc).not_ge
    · exact hc
    · exact absurd (hmax _ hlt) (hfirst' g hc).not_ge

/-- One row of 256 columns, and a single maximum. -/
theorem lmHead_whole :
    lmHeadGemvKernel (fun _ => 1) (fun _ => 1) 3 256 (fun _ => (0 : ℝ)) 0 =
        ∑ _k ∈ Finset.range 256, 1 * 1 ∧
      argmaxDev 0 (fun i => if i = 1 then 2 else 1) 3 = 1 := by
  have h := lmHead_iff (V := 3) (K := 256) (by decide) (by decide)
  refine ⟨(h.1.mpr (by decide) (fun _ => 1) (fun _ => 1) (fun _ => 0) 0).trans (if_pos (by decide)),
    ((h.2 0 (fun i => if i = 1 then 2 else 1) 1 (by decide) (by decide) (by decide)
      (by decide)).2).mpr (by decide)⟩

/-- A row of 8 columns counts them twice; and of two maxima at 64 and 128 the token is not the
first. -/
theorem lmHead_twice :
    lmHeadGemvKernel (fun _ => 1) (fun _ => 1) 1 8 (fun _ => (0 : ℤ)) 0 = 16 ∧
      argmaxDev 0 (fun i => if i = 64 ∨ i = 128 then 2 else 1) 129 ≠ 64 ∧
      sampleGreedyCpu (fun i => if i = 64 ∨ i = 128 then 2 else 1) 129 = 64 := by
  refine ⟨?_, ?_, by decide +kernel⟩
  · rw [lmHeadGemvKernel_eq, if_pos (by decide), warpSum_eq (by decide)]
    decide
  · rw [Ne, argmaxDev_eq_iff (by decide) (by decide) (by decide +kernel) (by decide)]
    intro h
    exact absurd (h 128 (by decide) rfl) (by decide)

end VibeVoice.LmHead
