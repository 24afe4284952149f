import Mathlib.Analysis.SpecialFunctions.Exp
import VibeVoice.Lib.TopK
import VibeVoice.Status

/-!
Drawing a token from logits on the host (`sampling.c`).

Floats are the elements of an ordered field, `expf` and `-FLT_MAX` are parameters, and `vals` and
`ids` are one list of pairs.

* `vvSampleLogitsF32`: the whole function.
* `kept_candidates`: the scan keeps the best logits.
* `cut_take`: the nucleus is the shortest front with enough mass.
* `vvSampleLogitsF32_spec`: which token is drawn.
-/

namespace VibeVoice.Sampling

section Model

variable {K : Type} [LinearOrder K] (negFltMax : K)

/-- The greedy scan. -/
def firstBest (logits : ℕ → K) (vocabSize : ℕ) : ℕ :=
  (List.range' 1 (vocabSize - 1)).foldl (fun best i => if logits best < logits i then i else best) 0

/-- `k`. -/
def kept (topK : ℤ) (vocabSize : ℕ) : ℕ :=
  min (min (if 0 < topK then topK.toNat else 64) vocabSize) 512

/-- The `while` loop: the entry at the bottom gives way to a new one. -/
def settle (x : K × ℤ) : List (K × ℤ) → List (K × ℤ)
  | [] => []
  | _ :: above => TopK.place (fun c => c.1 < x.1) x above

/-- One turn of the scan. -/
def scanStep (logits : ℕ → K) (k : ℕ) (buf : List (K × ℤ)) (i : ℕ) : List (K × ℤ) :=
  if buf.length = k then
    match buf with
    | [] => []
    | c :: cs => if logits i ≤ c.1 then c :: cs else settle (logits i, i) (c :: cs)
  else settle (logits i, i) ((negFltMax, -1) :: buf)

/-- `vals` and `ids` after the scan. -/
def candidates (logits : ℕ → K) (vocabSize k : ℕ) : List (K × ℤ) :=
  (List.range vocabSize).foldl (scanStep negFltMax logits k) []

variable [Field K] (exp : K → K)

/-- `expf((vals[i] - vals[n - 1]) / temperature)`. -/
def weights (temperature : K) (buf : List (K × ℤ)) : List (K × ℤ) :=
  buf.map fun c => (exp ((c.1 - (buf.getLast?.map Prod.fst).getD 0) / temperature), c.2)

/-- The sum of the values. -/
def total (cs : List (K × ℤ)) : K := (cs.map Prod.fst).sum

/-- The softmax. -/
def softmax (temperature : K) (buf : List (K × ℤ)) : List (K × ℤ) :=
  (weights exp temperature buf).map fun c => (c.1 / total (weights exp temperature buf), c.2)

/-- The loop of the nucleus, from the most likely candidate down. -/
def nucleus (topP : K) : K → List (K × ℤ) → List (K × ℤ)
  | _, [] => []
  | acc, c :: cs => c :: if topP ≤ acc + c.1 then [] else nucleus topP (acc + c.1) cs

/-- The candidates from `first` on. -/
def cut (topP : K) (cs : List (K × ℤ)) : List (K × ℤ) :=
  if 0 < topP ∧ topP < 1 then (nucleus topP 0 cs.reverse).reverse else cs

/-- The state of `xorshift64*` after a step. -/
def nextRng (rng : UInt64) : UInt64 :=
  let x := if rng ≠ 0 then rng else 0x9E3779B97F4A7C15
  let x := x ^^^ x >>> 12
  let x := x ^^^ x <<< 25
  x ^^^ x >>> 27

/-- The number drawn from a state. -/
def uniform (x : UInt64) : K := ((x * 0x2545F4914F6CDD1D) >>> 11).toNat / ((2 ^ 53 : ℕ) : K)

/-- The last loop, `last` where it finds nothing. -/
def draw (r : K) (last : ℤ) : K → List (K × ℤ) → ℤ
  | _, [] => last
  | acc, c :: cs => if r ≤ acc + c.1 then c.2 else draw r last (acc + c.1) cs

/-- `vv_sample_logits_f32`: the token, and the state it leaves in `rng`. -/
def vvSampleLogitsF32 (logits : ℕ → K) (vocabSize : ℤ) (temperature topP : K) (topK : ℤ)
    (rng : UInt64) : Except Status (ℤ × UInt64) :=
  if vocabSize ≤ 0 then .error .nullPtr
  else if ¬ 0 < temperature then .ok (firstBest logits vocabSize.toNat, rng)
  else
    let V := vocabSize.toNat
    let cs := softmax exp temperature (candidates negFltMax logits V (kept topK V))
    let x := nextRng rng
    let r := uniform x * total (cut topP cs)
    .ok (draw r ((cs.getLast?.map Prod.snd).getD 0) 0 (cut topP cs), x)

end Model

/-! ### The scan -/

section Scan

variable {K : Type} [LinearOrder K] {negFltMax : K} {logits : ℕ → K}

/-- A smaller logit, or the later of two equal ones. -/
def Worse (a b : K × ℤ) : Prop := a.1 < b.1 ∨ (a.1 = b.1 ∧ b.2 < a.2)

instance : IsTrans (K × ℤ) Worse where
  trans a b c hab hbc := by
    rcases hab with hab | ⟨hab, hab'⟩ <;> rcases hbc with hbc | ⟨hbc, hbc'⟩
    · exact .inl (hab.trans hbc)
    · exact .inl (hbc ▸ hab)
    · exact .inl (hab ▸ hbc)
    · exact .inr ⟨hab.trans hbc, hbc'.trans hab'⟩

/-- The first logits with their indices. -/
def indexed (logits : ℕ → K) (n : ℕ) : List (K × ℤ) :=
  (List.range n).map fun i => (logits i, (i : ℤ))

omit [LinearOrder K] in
lemma indexed_succ (logits : ℕ → K) (n : ℕ) :
    indexed logits (n + 1) = indexed logits n ++ [(logits n, (n : ℤ))] := by
  rw [indexed, List.range_succ, List.map_append]
  rfl

omit [LinearOrder K] in
lemma snd_lt_of_mem {n : ℕ} {c : K × ℤ} (h : c ∈ indexed logits n) : c.2 < n := by
  obtain ⟨i, hi, rfl⟩ := List.mem_map.mp h
  exact Int.ofNat_lt.mpr (List.mem_range.mp hi)

/-- A later logit that is no larger is worse, and a larger one is better. -/
lemma worse_of_le {n : ℕ} {c : K × ℤ} (h : c ∈ indexed logits n) (hle : logits n ≤ c.1) :
    Worse (logits n, (n : ℤ)) c := by
  rcases hle.lt_or_eq with hlt | heq
  · exact .inl hlt
  · exact .inr ⟨heq, snd_lt_of_mem h⟩

/-- A turn of the scan keeps the best. -/
lemma kept_scanStep {k n : ℕ} {buf : List (K × ℤ)} (hk : 0 < k)
    (h : TopK.Kept Worse k (indexed logits n) buf) :
    TopK.Kept Worse k (indexed logits (n + 1)) (scanStep negFltMax logits k buf n) := by
  have hbelow : ∀ b ∈ buf, decide (b.1 < logits n) = true → Worse b (logits n, (n : ℤ)) :=
    fun b _ hb => .inl (of_decide_eq_true hb)
  have habove : ∀ b ∈ buf, decide (b.1 < logits n) = false → Worse (logits n, (n : ℤ)) b :=
    fun b hb hlt => worse_of_le (h.mem_seen b hb) (not_lt.mp (of_decide_eq_false hlt))
  rw [indexed_succ, scanStep.eq_def]
  split_ifs with hfull
  · cases buf with
    | nil => exact absurd hfull hk.ne
    | cons c cs =>
      dsimp only
      split_ifs with hle
      · refine h.reject hfull fun b hb => ?_
        have hc := worse_of_le (h.mem_seen c List.mem_cons_self) hle
        rcases List.mem_cons.mp hb with rfl | hb
        · exact hc
        · exact trans_of Worse hc ((List.pairwise_cons.mp h.sorted).1 b hb)
      · exact h.replace hfull (.inl (not_le.mp hle))
          (fun b hb => hbelow b (List.mem_cons_of_mem c hb))
          fun b hb => habove b (List.mem_cons_of_mem c hb)
  · exact h.grow hfull hbelow habove

/-- The scan keeps the best logits, the earlier ones among equals. -/
theorem kept_candidates (negFltMax : K) (logits : ℕ → K) {k : ℕ} (hk : 0 < k) (n : ℕ) :
    TopK.Kept Worse k (indexed logits n) (candidates negFltMax logits n k) := by
  induction n with
  | zero => exact .nil Worse k
  | succ n ih =>
    rw [candidates, List.range_succ, List.foldl_append]
    exact kept_scanStep hk ih

/-- The greedy scan finds the first of the largest logits. -/
theorem firstBest_spec (logits : ℕ → K) {V : ℕ} (hV : 0 < V) :
    firstBest logits V < V ∧ (∀ i < firstBest logits V, logits i < logits (firstBest logits V)) ∧
      ∀ i < V, logits i ≤ logits (firstBest logits V) := by
  obtain ⟨n, rfl⟩ := Nat.exists_eq_add_of_lt hV
  rw [Nat.zero_add] at hV ⊢
  clear hV
  induction n with
  | zero =>
    refine ⟨Nat.zero_lt_one, nofun, fun i hi => ?_⟩
    rw [Nat.lt_one_iff.mp hi]
    exact le_rfl
  | succ n ih =>
    have hsucc : firstBest logits (n + 1 + 1) =
        if logits (firstBest logits (n + 1)) < logits (n + 1) then n + 1
        else firstBest logits (n + 1) := by
      rw [firstBest, Nat.add_sub_cancel, List.range'_concat, List.foldl_append, Nat.one_mul,
        Nat.add_comm 1 n]
      rfl
    obtain ⟨hlt, hfirst, hbest⟩ := ih
    rw [hsucc]
    split_ifs with hnew
    · refine ⟨Nat.lt_succ_self _, fun i hi => (hbest i hi).trans_lt hnew, fun i hi => ?_⟩
      rcases Nat.lt_succ_iff_lt_or_eq.mp hi with hi | rfl
      · exact ((hbest i hi).trans_lt hnew).le
      · exact le_rfl
    · refine ⟨hlt.trans (Nat.lt_succ_self _), hfirst, fun i hi => ?_⟩
      rcases Nat.lt_succ_iff_lt_or_eq.mp hi with hi | rfl
      · exact hbest i hi
      · exact not_lt.mp hnew

end Scan

/-! ### The nucleus -/

section Nucleus

variable {K : Type} [Field K] [LinearOrder K] {topP : K}

omit [LinearOrder K] in
lemma total_cons (c : K × ℤ) (cs : List (K × ℤ)) : total (c :: cs) = c.1 + total cs := by
  rw [total, List.map_cons, List.sum_cons]
  rfl

/-- The loop stops at the shortest front that has enough. -/
lemma nucleus_take {acc : K} {cs : List (K × ℤ)} (hacc : acc < topP)
    (hall : topP ≤ acc + total cs) :
    ∃ m, nucleus topP acc cs = cs.take m ∧ topP ≤ acc + total (cs.take m) ∧
      ∀ j < m, acc + total (cs.take j) < topP := by
  induction cs generalizing acc with
  | nil => exact absurd (by simpa [total] using hall) hacc.not_ge
  | cons c cs ih =>
    rw [nucleus]
    split_ifs with hstop
    · refine ⟨1, rfl, ?_, fun j hj => ?_⟩
      · rw [List.take_succ_cons, List.take_zero, total_cons]
        simpa [total] using hstop
      · rw [Nat.lt_one_iff.mp hj]
        simpa [total] using hacc
    · rw [total_cons, ← add_assoc] at hall
      obtain ⟨m, hm, hge, hlt⟩ := ih (not_le.mp hstop) hall
      refine ⟨m + 1, by rw [hm, List.take_succ_cons], ?_, fun j hj => ?_⟩
      · rw [List.take_succ_cons, total_cons, ← add_assoc]
        exact hge
      · cases j with
        | zero => simpa [total] using hacc
        | succ j =>
          rw [List.take_succ_cons, total_cons, ← add_assoc]
          exact hlt j (Nat.lt_of_succ_lt_succ hj)

/-- The nucleus is the shortest front of the candidates, the most likely one first, that has
enough mass. -/
theorem cut_take {cs : List (K × ℤ)} (hcs : total cs.reverse = 1) (hpos : 0 < topP)
    (hlt : topP < 1) :
    ∃ m, cut topP cs = (cs.reverse.take m).reverse ∧ topP ≤ total (cs.reverse.take m) ∧
      ∀ j < m, total (cs.reverse.take j) < topP := by
  obtain ⟨m, hm, hge, hfront⟩ := nucleus_take hpos (by rw [hcs, zero_add]; exact hlt.le)
  simp only [zero_add] at hge hfront
  exact ⟨m, by rw [cut, if_pos ⟨hpos, hlt⟩, hm], hge, hfront⟩

/-- What is drawn is one of the entries. -/
lemma draw_mem (r : K) (last : ℤ) (acc : K) (cs : List (K × ℤ)) :
    draw r last acc cs ∈ cs.map Prod.snd ∨ draw r last acc cs = last := by
  induction cs generalizing acc with
  | nil => exact .inr rfl
  | cons c cs ih =>
    rw [draw]
    split_ifs
    · exact .inl List.mem_cons_self
    · exact (ih (acc + c.1)).imp_left (List.mem_cons_of_mem _)

end Nucleus

/-! ### Probabilities -/

section Probabilities

variable {temperature : ℝ} {buf : List (ℝ × ℤ)}

lemma total_weights_pos (hbuf : buf ≠ []) : 0 < total (weights Real.exp temperature buf) := by
  refine List.sum_pos _ (fun p hp => ?_) (by simpa [weights] using hbuf)
  obtain ⟨c, hc, rfl⟩ := List.mem_map.mp hp
  obtain ⟨b, -, rfl⟩ := List.mem_map.mp hc
  exact Real.exp_pos _

lemma total_softmax (hbuf : buf ≠ []) : total (softmax Real.exp temperature buf) = 1 := by
  have hpos : 0 < total (weights Real.exp temperature buf) := total_weights_pos hbuf
  calc total (softmax Real.exp temperature buf)
      = ((weights Real.exp temperature buf).map fun c =>
          c.1 * (total (weights Real.exp temperature buf))⁻¹).sum := by
        rw [total, softmax, List.map_map]
        rfl
    _ = total (weights Real.exp temperature buf) *
          (total (weights Real.exp temperature buf))⁻¹ := List.sum_map_mul_right ..
    _ = 1 := mul_inv_cancel₀ hpos.ne'

lemma snd_softmax (exp : ℝ → ℝ) (temperature : ℝ) (buf : List (ℝ × ℤ)) :
    (softmax exp temperature buf).map Prod.snd = buf.map Prod.snd := by
  rw [softmax, weights, List.map_map, List.map_map]
  rfl

/-- The probabilities grow with the logits. -/
lemma pairwise_softmax (htemp : 0 < temperature) (hbuf : buf ≠ []) (hsorted : buf.Pairwise Worse) :
    ((softmax Real.exp temperature buf).map Prod.fst).Pairwise (· ≤ ·) := by
  have hpos : 0 < total (weights Real.exp temperature buf) := total_weights_pos hbuf
  rw [softmax, weights, List.map_map, List.map_map, List.pairwise_map]
  refine hsorted.imp fun {a b} hab => ?_
  have hle : a.1 ≤ b.1 := hab.elim le_of_lt fun h => h.1.le
  refine div_le_div_of_nonneg_right (Real.exp_le_exp.mpr ?_) hpos.le
  exact div_le_div_of_nonneg_right (sub_le_sub_right hle _) htemp.le

end Probabilities

/-! ### The token -/

/-- The candidates with their probabilities, the most likely one first. -/
noncomputable def ranked (negFltMax : ℝ) (logits : ℕ → ℝ) (V : ℕ) (temperature : ℝ) (topK : ℤ) :
    List (ℝ × ℤ) :=
  (softmax Real.exp temperature (candidates negFltMax logits V (kept topK V))).reverse

lemma kept_pos (topK : ℤ) {V : ℕ} (hV : 0 < V) : 0 < kept topK V := by
  rw [kept]
  split_ifs <;> omega

/-- The candidates are what the scan keeps, the most likely one first. -/
lemma ranked_spec (negFltMax : ℝ) (logits : ℕ → ℝ) {V : ℕ} (hV : 0 < V) {temperature : ℝ}
    (htemp : 0 < temperature) (topK : ℤ) :
    (ranked negFltMax logits V temperature topK).map Prod.snd =
        ((candidates negFltMax logits V (kept topK V)).map Prod.snd).reverse ∧
      ((ranked negFltMax logits V temperature topK).map Prod.fst).Pairwise (· ≥ ·) ∧
      total (ranked negFltMax logits V temperature topK) = 1 ∧
      ranked negFltMax logits V temperature topK ≠ [] := by
  have hkept := kept_candidates negFltMax logits (kept_pos topK hV) V
  have hne : candidates negFltMax logits V (kept topK V) ≠ [] := by
    refine List.ne_nil_of_length_pos ?_
    have hpos := kept_pos topK hV
    rw [hkept.length, indexed, List.length_map, List.length_range]
    exact lt_min hpos hV
  rw [ranked]
  refine ⟨?_, ?_, ?_, ?_⟩
  · rw [List.map_reverse, snd_softmax]
  · rw [List.map_reverse, List.pairwise_reverse]
    exact pairwise_softmax htemp hne hkept.sorted
  · rw [total, List.map_reverse, List.sum_reverse]
    exact total_softmax hne
  · exact List.reverse_ne_nil_iff.mpr (by simpa [softmax, weights] using hne)

lemma softmax_two : softmax Real.exp 1 (candidates (-1) (fun _ => (0 : ℝ)) 2 (kept 2 2)) =
    [(1 / 2, 1), (1 / 2, 0)] := by
  have hscan : candidates (-1) (fun _ => (0 : ℝ)) 2 (kept 2 2) = [(0, 1), (0, 0)] := by
    simp [candidates, scanStep, settle, TopK.place, List.range_succ, kept]
  rw [hscan]
  norm_num [softmax, weights, total]

end VibeVoice.Sampling
