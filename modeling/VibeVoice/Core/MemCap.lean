import Mathlib.Algebra.Order.Floor.Ring
import Mathlib.Data.Rat.Floor
import VibeVoice.Core.GpuSelect

/-!
What a cap of `--gpu-memory` leaves of a device (`gpu_select.c`).

Numbers are exact: a `double` is a rational, an infinity or no number.  A conversion to `size_t`
that C leaves undefined gives whatever `wild` says.

* `Exact`, `exactDoubles`: the numbers, and the flags read with them.
* `vvMemCapBytes`, `vvGpuReserved`, `vvGpuBudget`, `vvGpuBudgetReclaim`: from a cap to a budget.
* `Reads`: a text is a number and a suffix.
* `Capped`: a text that is taken caps the device.
* `capped_iff`: exactly when it does.
-/

namespace VibeVoice.GpuSelect

open Strtol

/-! ### Exact numbers -/

/-- A `double`. -/
inductive Exact
  | nan
  | inf (neg : Bool)
  | real (x : ℚ)

namespace Exact

/-- `v < 0.0`. -/
def neg : Exact → Bool
  | nan => false
  | inf neg => neg
  | real x => x < 0

/-- `v > 100.0`. -/
def overHundred : Exact → Bool
  | nan => false
  | inf neg => !neg
  | real x => 100 < x

/-- `v > 0.0`. -/
def pos : Exact → Bool
  | nan => false
  | inf neg => !neg
  | real x => 0 < x

/-- The product with a number that is not negative. -/
def times : Exact → ℚ → Exact
  | nan, _ => nan
  | inf neg, k => if k = 0 then nan else inf neg
  | real x, k => real (x * k)

/-- `(size_t)v`. -/
def toSize (wild : Exact → UInt64) (v : Exact) : ℕ :=
  match v with
  | real x => if -1 < x ∧ x < 2 ^ 64 then ⌊x⌋₊ else (wild v).toNat
  | _ => (wild v).toNat

end Exact

/-- The flags, read with exact numbers. -/
def exactDoubles (strtod : List UInt8 → Option (Exact × List UInt8)) (wild : Exact → UInt64) :
    Doubles Exact Exact where
  strtod := strtod
  neg v := v.neg
  overHundred v := v.overHundred
  percent v := v.times (1 / 100)
  bytes v mul := (v.times mul).toSize wild
  zero := .real 0

/-! ### Budgets -/

/-- What `vv_dev_get_device_info` says of a device. -/
structure Memory where
  total : ℕ
  free : ℕ
  total_lt : total < 2 ^ 64
  free_lt : free < 2 ^ 64

variable (wild : Exact → UInt64)

/-- `vv_mem_cap_bytes`. -/
def vvMemCapBytes (cap : Cap Exact) (total : ℕ) : ℕ :=
  if cap.bytes ≠ 0 then cap.bytes
  else if cap.frac.pos then (cap.frac.times total).toSize wild
  else 0

/-- The device at an index of the set, and its memory. -/
def GpuSet.device (set : GpuSet Exact) (info : ℤ → Option Memory) (index : Fin maxGpus) :
    Option Memory :=
  set.ids[index.val]? >>= info

/-- `vv_gpu_reserved`. -/
def vvGpuReserved (info : ℤ → Option Memory) (set : GpuSet Exact) (index : Fin maxGpus) : ℕ :=
  match set.device info index with
  | none => 0
  | some mem =>
    if vvMemCapBytes wild (set.cap index) mem.total = 0 then 0
    else if mem.free < mem.total then mem.total - mem.free else 0

/-- `if (cap && cap < budget) budget = cap`. -/
def underCap (cap budget : ℕ) : ℕ := if cap ≠ 0 ∧ cap < budget then cap else budget

/-- `(size_t)((double)bytes * (double)vram_budget)`. -/
def share (vramBudget : ℚ) (bytes : ℕ) : ℕ := (Exact.real (bytes * vramBudget)).toSize wild

/-- `vv_gpu_budget`. -/
def vvGpuBudget (info : ℤ → Option Memory) (set : GpuSet Exact) (index : Fin maxGpus)
    (vramBudget : ℚ) : ℕ :=
  match set.device info index with
  | none => 0
  | some mem =>
    underCap (vvMemCapBytes wild (set.cap index) mem.total) (share wild vramBudget mem.free)

/-- `vv_gpu_budget_reclaim`, whose sums and differences wrap. -/
def vvGpuBudgetReclaim (info : ℤ → Option Memory) (set : GpuSet Exact) (index : Fin maxGpus)
    (vramBudget : ℚ) (reclaimable : UInt64) : ℕ :=
  match set.device info index with
  | none => 0
  | some mem =>
    let budget := share wild vramBudget mem.free
    let ceiling := share wild vramBudget mem.total
    underCap (vvMemCapBytes wild (set.cap index) mem.total)
      (if (ceiling + 2 ^ 64 - budget) % 2 ^ 64 < reclaimable.toNat then ceiling
        else (budget + reclaimable.toNat) % 2 ^ 64)

/-! ### Texts -/

/-- What an amount is counted in. -/
inductive Measure
  | bytes (mul : ℕ)
  | percent

/-- A suffix and what it stands for: `%`, nothing, `B`, or one of the letters `K`, `M`, `G` and `T`
with nothing, `I`, `B` or `IB` behind it. -/
inductive Suffixed : List UInt8 → Measure → Prop
  | percent : Suffixed [0x25] .percent
  | plain : Suffixed [] (.bytes 1)
  | byte {c : UInt8} (hc : toupper c = 0x42) : Suffixed [c] (.bytes 1)
  | binary {c : UInt8} {k : ℕ} {w : List UInt8}
      (hc : (toupper c, k) ∈ [(0x4B, 10), (0x4D, 20), (0x47, 30), (0x54, 40)])
      (hw : w.map toupper ∈ [[], [0x49], [0x42], [0x49, 0x42]]) :
      Suffixed (c :: w) (.bytes (2 ^ k))

/-- The text is a number and a suffix, with blanks around them. -/
def Reads (strtod : List UInt8 → Option (Exact × List UInt8)) (text : List UInt8) (v : Exact)
    (m : Measure) : Prop :=
  ∃ w u s, strtod (text.dropWhile isspace) = some (v, w ++ (u ++ s)) ∧
    (∀ c ∈ w, isspace c) ∧ Suffixed u m ∧ ∀ c ∈ s, isspace c

/-- The bytes of an amount on a device. -/
def Measure.amount (total : ℕ) (x : ℚ) : Measure → ℚ
  | .bytes mul => x * mul
  | .percent => total * (x / 100)

/-- The cap of an amount that is not negative. -/
def Measure.cap (v : Exact) : Measure → Option (Cap Exact)
  | .bytes mul =>
    if (v.times mul).toSize wild = 0 then none
    else some ⟨(v.times mul).toSize wild, .real 0⟩
  | .percent => if v.overHundred then none else some ⟨0, v.times (1 / 100)⟩

lemma toupper_blank {c : UInt8} (h : isspace c) : toupper c = c := by
  rw [toupper, if_neg]
  rintro ⟨hlo, -⟩
  simp only [isspace, Bool.or_eq_true, beq_iff_eq, Bool.and_eq_true, decide_eq_true_eq] at h
  rcases h with rfl | ⟨-, hhi⟩
  · exact absurd hlo (by decide)
  · exact absurd (UInt8.le_trans hlo hhi) (by decide)

/-- A blank is no letter. -/
lemma toupper_blank_ne {c b : UInt8} (h : isspace c) (hb : isspace b = false) : toupper c ≠ b := by
  rw [toupper_blank h]
  rintro rfl
  rw [h] at hb
  exact absurd hb (by simp)

lemma swallow_blanks {b : UInt8} (hb : isspace b = false) {s : List UInt8}
    (hs : ∀ c ∈ s, isspace c) : swallow b s = s := by
  cases s with
  | nil => rfl
  | cons c s => exact if_neg (toupper_blank_ne (hs c List.mem_cons_self) hb)

/-- At most one letter is swallowed. -/
lemma swallow_split (b : UInt8) (p : List UInt8) :
    ∃ u, p = u ++ swallow b p ∧ (u = [] ∨ u.map toupper = [b]) := by
  cases p with
  | nil => exact ⟨[], rfl, .inl rfl⟩
  | cons c p =>
    by_cases hc : toupper c = b
    · exact ⟨[c], by simp [swallow, hc], .inr (by simp [hc])⟩
    · exact ⟨[], by simp [swallow, hc], .inl rfl⟩

lemma closed_eq_ok_iff {c c' : Cap Exact} {p : List UInt8} :
    closed c p = .ok c' ↔ (∀ b ∈ p, isspace b) ∧ c = c' := by
  rw [closed, ← List.dropWhile_eq_nil_iff]
  split_ifs with h <;> simp [h]

/-- Whether a percent sign closes the text. -/
lemma suffixed_percent_iff {p : List UInt8} :
    (∃ w u s, p = w ++ (u ++ s) ∧ (∀ c ∈ w, isspace c) ∧ Suffixed u .percent ∧
      ∀ c ∈ s, isspace c) ↔
    (p.dropWhile isspace).head? = some 0x25 ∧
      ∀ c ∈ (p.dropWhile isspace).tail, isspace c := by
  constructor
  · rintro ⟨w, u, s, rfl, hw, hu, hs⟩
    cases hu
    rw [List.dropWhile_append_of_pos hw]
    exact ⟨rfl, hs⟩
  · rintro ⟨hhead, hs⟩
    obtain ⟨s, hp⟩ : ∃ s, p.dropWhile isspace = 0x25 :: s := by
      cases h : p.dropWhile isspace with
      | nil => rw [h] at hhead; exact absurd hhead (by simp)
      | cons c s => exact ⟨s, by rw [h] at hhead; rw [Option.some.inj hhead]⟩
    rw [hp] at hs
    refine ⟨p.takeWhile isspace, [0x25], s, ?_, fun c hc => List.mem_takeWhile_imp hc, .percent, hs⟩
    rw [List.singleton_append, ← hp, List.takeWhile_append_dropWhile]

lemma suffix_binary {c : UInt8} {k : ℕ}
    (hc : (toupper c, k) ∈ [(0x4B, 10), (0x4D, 20), (0x47, 30), (0x54, 40)]) (q : List UInt8) :
    suffix (c :: q) = some (2 ^ k, q) := by
  simp only [List.mem_cons, Prod.mk.injEq, List.not_mem_nil, or_false] at hc
  rcases hc with ⟨hc, rfl⟩ | ⟨hc, rfl⟩ | ⟨hc, rfl⟩ | ⟨hc, rfl⟩ <;> simp [suffix, hc]

lemma suffix_eq_some {c : UInt8} {p q : List UInt8} {mul : ℕ}
    (h : suffix (c :: p) = some (mul, q)) :
    (mul = 1 ∧ q = c :: p ∧ toupper c = 0x42) ∨
      ∃ k, mul = 2 ^ k ∧ q = p ∧
        (toupper c, k) ∈ [(0x4B, 10), (0x4D, 20), (0x47, 30), (0x54, 40)] := by
  rw [suffix] at h
  split_ifs at h with h1 h2 h3 h4 h5 <;>
    simp only [Option.some.injEq, Prod.mk.injEq] at h <;> obtain ⟨rfl, rfl⟩ := h
  · exact .inr ⟨10, rfl, rfl, by simp [h1]⟩
  · exact .inr ⟨20, rfl, rfl, by simp [h2]⟩
  · exact .inr ⟨30, rfl, rfl, by simp [h3]⟩
  · exact .inr ⟨40, rfl, rfl, by simp [h4]⟩
  · exact .inl ⟨rfl, rfl, h5⟩

/-- A letter is no blank. -/
lemma not_blank {c b : UInt8} (h : toupper c = b) (hb : isspace b = false) : isspace c = false := by
  by_contra hc
  exact toupper_blank_ne (Bool.not_eq_false _ ▸ hc) hb h

/-- What stands behind a letter is swallowed where it is one of the three tails. -/
lemma swallow_tail {w s : List UInt8} (hw : w.map toupper ∈ [[], [0x49], [0x42], [0x49, 0x42]])
    (hs : ∀ c ∈ s, isspace c) : swallow 0x42 (swallow 0x49 (w ++ s)) = s := by
  have hi : swallow 0x49 s = s := swallow_blanks (by decide) hs
  have hb : swallow 0x42 s = s := swallow_blanks (by decide) hs
  match w, hw with
  | [], _ => rw [List.nil_append, hi, hb]
  | [a], hw =>
    have ha : toupper a = 0x49 ∨ toupper a = 0x42 := by simpa using hw
    rcases ha with ha | ha
    · simpa [swallow, ha] using hb
    · simp [swallow, ha]
  | [a, b], hw =>
    have hab : toupper a = 0x49 ∧ toupper b = 0x42 := by simpa using hw
    simp [swallow, hab]
  | _ :: _ :: _ :: _, hw => simp at hw

/-- Whether a size closes the text. -/
lemma suffixed_bytes_iff {p : List UInt8} {mul : ℕ} :
    (∃ w u s, p = w ++ (u ++ s) ∧ (∀ c ∈ w, isspace c) ∧ Suffixed u (.bytes mul) ∧
      ∀ c ∈ s, isspace c) ↔
    (p.dropWhile isspace).head? ≠ some 0x25 ∧ ∃ q, suffix (p.dropWhile isspace) = some (mul, q) ∧
      ∀ c ∈ swallow 0x42 (swallow 0x49 q), isspace c := by
  constructor
  · rintro ⟨w, u, s, rfl, hw, hu, hs⟩
    rw [List.dropWhile_append_of_pos hw]
    cases hu with
    | plain =>
      rw [List.nil_append, List.dropWhile_eq_nil_iff.mpr hs]
      exact ⟨by simp, [], rfl, by simp [swallow]⟩
    | @byte c hc =>
      have hblank : isspace c = false := not_blank hc (by decide)
      rw [List.singleton_append, List.dropWhile_cons_of_neg (by simp [hblank])]
      refine ⟨?_, c :: s, by simp [suffix, hc], by simpa [swallow, hc] using hs⟩
      rintro heq
      rw [Option.some.inj heq] at hc
      exact absurd hc (by decide)
    | @binary c k w' hc hw' =>
      have hblank : isspace c = false := by
        simp only [List.mem_cons, Prod.mk.injEq, List.not_mem_nil, or_false] at hc
        rcases hc with ⟨hc, -⟩ | ⟨hc, -⟩ | ⟨hc, -⟩ | ⟨hc, -⟩ <;> exact not_blank hc (by decide)
      rw [List.cons_append, List.dropWhile_cons_of_neg (by simp [hblank])]
      refine ⟨?_, w' ++ s, suffix_binary hc _, by rwa [swallow_tail hw' hs]⟩
      rintro heq
      rw [Option.some.inj heq] at hc
      exact absurd hc (by simp [toupper])
  · rintro ⟨-, q, hq, hs⟩
    have hp : p = p.takeWhile isspace ++ p.dropWhile isspace :=
      List.takeWhile_append_dropWhile.symm
    have hw : ∀ c ∈ p.takeWhile isspace, isspace c := fun c hc => List.mem_takeWhile_imp hc
    cases hdrop : p.dropWhile isspace with
    | nil =>
      rw [hdrop, suffix, Option.some.injEq, Prod.mk.injEq] at hq
      obtain ⟨rfl, rfl⟩ := hq
      exact ⟨p, [], [], by simp, List.dropWhile_eq_nil_iff.mp hdrop, .plain, by simp⟩
    | cons c r =>
      rw [hdrop] at hq hp
      obtain ⟨u, hu, hu'⟩ := swallow_split 0x49 q
      obtain ⟨u', hr, hr'⟩ := swallow_split 0x42 (swallow 0x49 q)
      rcases suffix_eq_some hq with ⟨rfl, rfl, hc⟩ | ⟨k, rfl, rfl, hc⟩
      · refine ⟨_, [c], r, hp, hw, .byte hc, ?_⟩
        simpa [swallow, hc] using hs
      · refine ⟨_, c :: (u ++ u'), swallow 0x42 (swallow 0x49 q), ?_, hw, .binary hc ?_, hs⟩
        · calc p = p.takeWhile isspace ++ c :: q := hp
            _ = p.takeWhile isspace ++ c :: (u ++ swallow 0x49 q) := by rw [← hu]
            _ = p.takeWhile isspace ++
                  (c :: (u ++ u') ++ swallow 0x42 (swallow 0x49 q)) := by
                rw [List.cons_append, List.append_assoc, ← hr]
        · rcases hu' with rfl | hu' <;> rcases hr' with rfl | hr' <;> simp [*]

variable {strtod : List UInt8 → Option (Exact × List UInt8)} {text : List UInt8}

lemma reads_iff {v v' : Exact} {rest : List UInt8} {m : Measure}
    (h : strtod (text.dropWhile isspace) = some (v, rest)) :
    Reads strtod text v' m ↔ v' = v ∧ ∃ w u s, rest = w ++ (u ++ s) ∧ (∀ c ∈ w, isspace c) ∧
      Suffixed u m ∧ ∀ c ∈ s, isspace c := by
  constructor
  · rintro ⟨w, u, s, hread, hparts⟩
    obtain ⟨rfl, rfl⟩ := Prod.mk.inj (Option.some.inj (h.symm.trans hread))
    exact ⟨rfl, w, u, s, rfl, hparts⟩
  · rintro ⟨rfl, w, u, s, rfl, hparts⟩
    exact ⟨w, u, s, h, hparts⟩

/-- A text is read in one way. -/
lemma Reads.unique {v v' : Exact} {m m' : Measure} (h : Reads strtod text v m)
    (h' : Reads strtod text v' m') : v = v' ∧ m = m' := by
  obtain ⟨w, u, s, hread, hw, hu, hs⟩ := h
  have hparts : ∃ w' u' s', w ++ (u ++ s) = w' ++ (u' ++ s') ∧ (∀ c ∈ w', isspace c) ∧
      Suffixed u' m ∧ ∀ c ∈ s', isspace c := ⟨w, u, s, rfl, hw, hu, hs⟩
  obtain ⟨rfl, hparts'⟩ := (reads_iff hread).mp h'
  refine ⟨rfl, ?_⟩
  cases m with
  | percent =>
    cases m' with
    | percent => rfl
    | bytes k => exact absurd (suffixed_percent_iff.mp hparts).1 (suffixed_bytes_iff.mp hparts').1
  | bytes k =>
    obtain ⟨hhead, q, hq, -⟩ := suffixed_bytes_iff.mp hparts
    cases m' with
    | percent => exact absurd (suffixed_percent_iff.mp hparts').1 hhead
    | bytes k' =>
      obtain ⟨-, q', hq', -⟩ := suffixed_bytes_iff.mp hparts'
      rw [(Prod.mk.inj (Option.some.inj (hq.symm.trans hq'))).1]

/-- What is done with the number that is read. -/
lemma vvParseMemCap_exact {v : Exact} {rest : List UInt8}
    (h : strtod (text.dropWhile isspace) = some (v, rest)) :
    vvParseMemCap (exactDoubles strtod wild) text =
      if v.neg then .error .invalidArg
      else if (rest.dropWhile isspace).head? = some 0x25 then
        if v.overHundred then .error .invalidArg
        else closed ⟨0, v.times (1 / 100)⟩ (rest.dropWhile isspace).tail
      else
        match suffix (rest.dropWhile isspace) with
        | none => .error .invalidArg
        | some (mul, p) =>
          if (v.times mul).toSize wild = 0 then .error .invalidArg
          else closed ⟨(v.times mul).toSize wild, .real 0⟩ (swallow 0x42 (swallow 0x49 p)) := by
  have hread : (exactDoubles strtod wild).strtod (text.dropWhile isspace) = some (v, rest) := h
  rw [vvParseMemCap, hread]
  rfl

/-- Which texts are taken, and the cap they give. -/
theorem vvParseMemCap_eq_iff {c : Cap Exact} :
    vvParseMemCap (exactDoubles strtod wild) text = .ok c ↔
      ∃ v m, Reads strtod text v m ∧ v.neg = false ∧ m.cap wild v = some c := by
  cases hread : strtod (text.dropWhile isspace) with
  | none =>
    have hno : ∀ v m, ¬ Reads strtod text v m := by
      rintro v m ⟨w, u, s, hsome, -⟩
      rw [hread] at hsome
      exact absurd hsome (by simp)
    simp [vvParseMemCap, exactDoubles, hread, hno]
  | some r =>
    obtain ⟨v, rest⟩ := r
    have hreads : ∀ v' m, Reads strtod text v' m ↔ _ := fun v' m => reads_iff hread
    simp only [hreads]
    rw [vvParseMemCap_exact wild hread]
    by_cases hneg : v.neg = true
    · simp [hneg]
    rw [if_neg hneg]
    by_cases hpercent : (rest.dropWhile isspace).head? = some 0x25
    · rw [if_pos hpercent]
      constructor
      · intro h
        split_ifs at h with hover
        obtain ⟨hs, rfl⟩ := closed_eq_ok_iff.mp h
        exact ⟨v, .percent, ⟨rfl, suffixed_percent_iff.mpr ⟨hpercent, hs⟩⟩, by simpa using hneg,
          by rw [Measure.cap, if_neg hover]⟩
      · rintro ⟨v', m, ⟨rfl, hparts⟩, -, hcap⟩
        cases m with
        | bytes mul => exact absurd hpercent (suffixed_bytes_iff.mp hparts).1
        | percent =>
          rw [Measure.cap] at hcap
          split_ifs at hcap with hover
          rw [if_neg hover, closed_eq_ok_iff]
          exact ⟨(suffixed_percent_iff.mp hparts).2, Option.some.inj hcap⟩
    · rw [if_neg hpercent]
      constructor
      · intro h
        cases hsuffix : suffix (rest.dropWhile isspace) with
        | none => rw [hsuffix] at h; exact absurd h (by simp)
        | some r =>
          obtain ⟨mul, q⟩ := r
          rw [hsuffix] at h
          dsimp only at h
          split_ifs at h with hzero
          obtain ⟨hs, rfl⟩ := closed_eq_ok_iff.mp h
          exact ⟨v, .bytes mul, ⟨rfl, suffixed_bytes_iff.mpr ⟨hpercent, q, hsuffix, hs⟩⟩,
            by simpa using hneg, by rw [Measure.cap, if_neg hzero]⟩
      · rintro ⟨v', m, ⟨rfl, hparts⟩, -, hcap⟩
        cases m with
        | percent => exact absurd (suffixed_percent_iff.mp hparts).1 hpercent
        | bytes mul =>
          obtain ⟨-, q, hsuffix, hs⟩ := suffixed_bytes_iff.mp hparts
          rw [Measure.cap] at hcap
          split_ifs at hcap with hzero
          rw [hsuffix]
          dsimp only
          rw [if_neg hzero, closed_eq_ok_iff]
          exact ⟨hs, Option.some.inj hcap⟩

/-- The factor of a size is not zero. -/
lemma Reads.mul_pos {v : Exact} {mul : ℕ} (h : Reads strtod text v (.bytes mul)) : 0 < mul := by
  obtain ⟨w, u, s, -, -, hu, -⟩ := h
  cases hu with
  | plain => exact Nat.one_pos
  | byte => exact Nat.one_pos
  | binary => exact Nat.two_pow_pos _

/-! ### Bounds of the budgets -/

lemma toSize_real {x : ℚ} (hx : 0 ≤ x) (hlt : x < 2 ^ 64) :
    (Exact.real x).toSize wild = ⌊x⌋₊ :=
  if_pos ⟨by linarith, hlt⟩

lemma underCap_le_cap {cap budget : ℕ} (h : cap ≠ 0) : underCap cap budget ≤ cap := by
  rw [underCap]
  split_ifs with hlt
  · exact le_rfl
  · exact not_lt.mp fun hlt' => hlt ⟨h, hlt'⟩

lemma underCap_le_budget (cap budget : ℕ) : underCap cap budget ≤ budget := by
  rw [underCap]
  split_ifs with hlt
  · exact hlt.2.le
  · exact le_rfl

section
variable {vram : ℚ} {n k : ℕ}

lemma share_eq (h0 : 0 ≤ vram) (h1 : vram ≤ 1) (hn : n < 2 ^ 64) :
    share wild vram n = ⌊(n : ℚ) * vram⌋₊ := by
  refine toSize_real wild (by positivity) ?_
  have hn' : (n : ℚ) < 2 ^ 64 := by exact_mod_cast hn
  have hle : (n : ℚ) * vram ≤ n := mul_le_of_le_one_right (by positivity) h1
  linarith

lemma share_le (h0 : 0 ≤ vram) (h1 : vram ≤ 1) (hn : n < 2 ^ 64) : share wild vram n ≤ n := by
  rw [share_eq wild h0 h1 hn]
  exact Nat.floor_le_of_le (mul_le_of_le_one_right (by positivity) h1)

lemma share_mono (h0 : 0 ≤ vram) (h1 : vram ≤ 1) (hle : n ≤ k) (hk : k < 2 ^ 64) :
    share wild vram n ≤ share wild vram k := by
  rw [share_eq wild h0 h1 (hle.trans_lt hk), share_eq wild h0 h1 hk]
  have hle' : (n : ℚ) ≤ k := by exact_mod_cast hle
  exact Nat.floor_mono (by gcongr)

end

section
variable {info : ℤ → Option Memory} {set : GpuSet Exact} {index : Fin maxGpus} {mem : Memory}
  {vram : ℚ}

/-- Neither budget exceeds the cap. -/
lemma budgets_le_cap (hdev : set.device info index = some mem)
    (hcap : vvMemCapBytes wild (set.cap index) mem.total ≠ 0) (reclaimable : UInt64) :
    vvGpuBudget wild info set index vram ≤ vvMemCapBytes wild (set.cap index) mem.total ∧
      vvGpuBudgetReclaim wild info set index vram reclaimable ≤
        vvMemCapBytes wild (set.cap index) mem.total := by
  rw [vvGpuBudget, vvGpuBudgetReclaim, hdev]
  exact ⟨underCap_le_cap hcap, underCap_le_cap hcap⟩

/-- Under a cap, what the device already holds is counted. -/
lemma vvGpuReserved_of_cap (hdev : set.device info index = some mem)
    (hcap : vvMemCapBytes wild (set.cap index) mem.total ≠ 0) :
    vvGpuReserved wild info set index = mem.total - mem.free := by
  rw [vvGpuReserved, hdev]
  dsimp only
  rw [if_neg hcap]
  split_ifs with hlt
  · rfl
  · exact (Nat.sub_eq_zero_of_le (not_lt.mp hlt)).symm

/-- Neither budget exceeds the device. -/
lemma budgets_le_memory (hdev : set.device info index = some mem) (h0 : 0 ≤ vram) (h1 : vram ≤ 1)
    (reclaimable : UInt64) :
    vvGpuBudget wild info set index vram ≤ mem.free ∧
      (mem.free ≤ mem.total →
        vvGpuBudgetReclaim wild info set index vram reclaimable ≤ mem.total) := by
  rw [vvGpuBudget, vvGpuBudgetReclaim, hdev]
  refine ⟨(underCap_le_budget _ _).trans (share_le wild h0 h1 mem.free_lt), fun hfree => ?_⟩
  have hceiling : share wild vram mem.total ≤ mem.total := share_le wild h0 h1 mem.total_lt
  have hbudget : share wild vram mem.free ≤ share wild vram mem.total :=
    share_mono wild h0 h1 hfree mem.total_lt
  have htotal : mem.total < 2 ^ 64 := mem.total_lt
  refine (underCap_le_budget _ _).trans ?_
  -- the difference does not wrap, so the sum stays below the ceiling
  have hdiff : (share wild vram mem.total + 2 ^ 64 - share wild vram mem.free) % 2 ^ 64 =
      share wild vram mem.total - share wild vram mem.free := by omega
  rw [hdiff]
  split_ifs with hlt
  · exact hceiling
  · exact (Nat.mod_le _ _).trans (by omega)

end

/-! ### When a text caps -/

/-- A text caps a device with this memory: where it is taken it is a positive amount, which is not
the mark of no cap and bounds both budgets, and an amount that is no number, not positive or too
large is refused. -/
structure Capped (strtod : List UInt8 → Option (Exact × List UInt8)) (text : List UInt8)
    (mem : Memory) : Prop where
  taken : ∀ wild c, vvParseMemCap (exactDoubles strtod wild) text = .ok c →
    ∃ x m, Reads strtod text (.real x) m ∧ 0 < x ∧ vvMemCapBytes wild c mem.total ≠ 0 ∧
      ∀ (info : ℤ → Option Memory) (set : GpuSet Exact) (index : Fin maxGpus), set.cap index = c →
        set.device info index = some mem →
          vvGpuReserved wild info set index = mem.total - mem.free ∧
          ∀ vram : ℚ, 0 ≤ vram → vram ≤ 1 → ∀ reclaimable,
            vvGpuBudget wild info set index vram ≤ min ⌊m.amount mem.total x⌋₊ mem.free ∧
            vvGpuBudgetReclaim wild info set index vram reclaimable ≤ ⌊m.amount mem.total x⌋₊ ∧
            (mem.free ≤ mem.total →
              vvGpuBudgetReclaim wild info set index vram reclaimable ≤ mem.total)
  refused : ∀ v m, Reads strtod text v m →
    (∀ x, v = .real x → 0 < x → 2 ^ 64 ≤ m.amount mem.total x) →
      ∀ wild c, vvParseMemCap (exactDoubles strtod wild) text ≠ .ok c

/-- A number of bytes that fits, or a percentage that leaves a byte of the device; and numbers that
are refused. -/
def Caps (total : ℕ) : Exact → Measure → Prop
  | .real x, .bytes mul => x < 0 ∨ x * mul < 2 ^ 64
  | .real x, .percent => x < 0 ∨ 100 < x ∨ 1 ≤ total * (x / 100)
  | .inf neg, .bytes _ => neg
  | .inf _, .percent => True
  | .nan, _ => False

/-- The conversion gives one wherever it is undefined. -/
def wildOne : Exact → UInt64 := fun _ => 1

/-- The cap of a number of bytes that fits. -/
lemma cap_bytes {x : ℚ} {mul : ℕ} {c : Cap Exact} (h0 : 0 ≤ x) (hlt : x * mul < 2 ^ 64)
    (h : (Measure.bytes mul).cap wild (.real x) = some c) :
    c = ⟨⌊x * mul⌋₊, .real 0⟩ ∧ ⌊x * mul⌋₊ ≠ 0 := by
  rw [Measure.cap, Exact.times, toSize_real wild (by positivity) hlt] at h
  split_ifs at h with hzero
  exact ⟨(Option.some.inj h).symm, hzero⟩

/-- The cap of a percentage. -/
lemma cap_percent {x : ℚ} {c : Cap Exact} (h : Measure.percent.cap wild (.real x) = some c) :
    c = ⟨0, .real (x * (1 / 100))⟩ ∧ x ≤ 100 := by
  rw [Measure.cap, Exact.times] at h
  split_ifs at h with hover
  exact ⟨(Option.some.inj h).symm, by simpa [Exact.overHundred] using hover⟩

/-- What a percentage leaves of a device. -/
lemma vvMemCapBytes_percent {x : ℚ} {total : ℕ} (h0 : 0 ≤ x) (h1 : x ≤ 100)
    (htotal : total < 2 ^ 64) :
    vvMemCapBytes wild ⟨0, .real (x * (1 / 100))⟩ total = ⌊(total : ℚ) * (x / 100)⌋₊ := by
  have hprod : x * (1 / 100) * total = (total : ℚ) * (x / 100) := by ring
  have hlt : (total : ℚ) * (x / 100) < 2 ^ 64 := by
    have htotal' : (total : ℚ) < 2 ^ 64 := by exact_mod_cast htotal
    have hle : (total : ℚ) * (x / 100) ≤ total :=
      mul_le_of_le_one_right (by positivity) (by linarith)
    linarith
  rw [vvMemCapBytes, if_neg (by simp), Exact.times, hprod]
  split_ifs with hpos
  · exact toSize_real wild (by positivity) hlt
  · have hx : x = 0 := by
      simp only [Exact.pos, decide_eq_true_eq, not_lt] at hpos
      linarith
    simp [hx]

/-- What a number leaves that caps. -/
lemma amount_of_caps {v : Exact} {m : Measure} {c : Cap Exact} {total : ℕ}
    (htotal : total < 2 ^ 64) (hneg : v.neg = false) (hcaps : Caps total v m)
    (h : m.cap wild v = some c) :
    ∃ x, v = .real x ∧ 0 < x ∧ m.amount total x < 2 ^ 64 ∧
      vvMemCapBytes wild c total = ⌊m.amount total x⌋₊ ∧ vvMemCapBytes wild c total ≠ 0 := by
  cases v with
  | nan => exact absurd hcaps id
  | inf neg =>
    rw [Exact.neg] at hneg
    subst hneg
    cases m with
    | bytes mul => exact absurd hcaps (by simp [Caps])
    | percent => exact absurd h (by simp [Measure.cap, Exact.overHundred])
  | real x =>
    have h0 : 0 ≤ x := by simpa [Exact.neg] using hneg
    cases m with
    | bytes mul =>
      have hlt : x * mul < 2 ^ 64 := hcaps.resolve_left (not_lt.mpr h0)
      obtain ⟨rfl, hne⟩ := cap_bytes wild h0 hlt h
      have hbytes : vvMemCapBytes wild ⟨⌊x * mul⌋₊, .real 0⟩ total = ⌊x * mul⌋₊ := if_pos hne
      have hpos : x ≠ 0 := by
        rintro rfl
        exact hne (by simp)
      exact ⟨x, rfl, lt_of_le_of_ne h0 hpos.symm, hlt, hbytes, by rwa [hbytes]⟩
    | percent =>
      obtain ⟨rfl, h1⟩ := cap_percent wild h
      have hone : 1 ≤ (total : ℚ) * (x / 100) :=
        (hcaps.resolve_left (not_lt.mpr h0)).resolve_left (not_lt.mpr h1)
      have htotal' : (total : ℚ) < 2 ^ 64 := by exact_mod_cast htotal
      have hle : (total : ℚ) * (x / 100) ≤ total :=
        mul_le_of_le_one_right (by positivity) (by linarith)
      have hpos : x ≠ 0 := by
        rintro rfl
        norm_num at hone
      have hbytes := vvMemCapBytes_percent wild h0 h1 htotal
      refine ⟨x, rfl, lt_of_le_of_ne h0 hpos.symm, by rw [Measure.amount]; linarith, hbytes, ?_⟩
      rw [hbytes]
      exact (Nat.floor_pos.mpr hone).ne'

/-- A number that does not cap is taken, and is then no positive amount that fits or the mark of no
cap. -/
lemma cap_of_not_caps {v : Exact} {m : Measure} {total : ℕ} (hmul : ∀ k, m = .bytes k → 0 < k)
    (htotal : total < 2 ^ 64) (hcaps : ¬ Caps total v m) :
    v.neg = false ∧ ∃ c, m.cap wildOne v = some c ∧
      ((∀ x, v = .real x → 0 < x → 2 ^ 64 ≤ m.amount total x) ∨
        vvMemCapBytes wildOne c total = 0) := by
  cases v with
  | nan =>
    refine ⟨rfl, ?_⟩
    cases m with
    | bytes mul => exact ⟨⟨1, .real 0⟩, rfl, .inl fun x hx => absurd hx (by simp)⟩
    | percent => exact ⟨⟨0, .nan⟩, rfl, .inl fun x hx => absurd hx (by simp)⟩
  | inf neg =>
    cases m with
    | percent => exact absurd trivial hcaps
    | bytes mul =>
      have hne : (mul : ℚ) ≠ 0 := by exact_mod_cast (hmul mul rfl).ne'
      refine ⟨by simpa [Caps, Exact.neg] using hcaps, ⟨1, .real 0⟩, ?_, .inl fun x hx =>
        absurd hx (by simp)⟩
      simp [Measure.cap, Exact.times, hne, Exact.toSize, wildOne]
  | real x =>
    cases m with
    | bytes mul =>
      simp only [Caps, not_or, not_lt] at hcaps
      have hsize : (Exact.real (x * mul)).toSize wildOne = 1 :=
        if_neg fun hrange => absurd hrange.2 (not_lt.mpr hcaps.2)
      refine ⟨by simpa [Exact.neg] using hcaps.1, ⟨1, .real 0⟩, ?_, .inl ?_⟩
      · rw [Measure.cap, Exact.times, hsize, if_neg one_ne_zero]
      · intro x' hx' hpos
        rw [← Exact.real.inj hx']
        exact hcaps.2
    | percent =>
      simp only [Caps, not_or, not_lt, not_le] at hcaps
      obtain ⟨h0, h1, hless⟩ := hcaps
      refine ⟨by simpa [Exact.neg] using h0, ⟨0, .real (x * (1 / 100))⟩, ?_, .inr ?_⟩
      · rw [Measure.cap, if_neg (by simpa [Exact.overHundred] using h1), Exact.times]
      · rw [vvMemCapBytes_percent wildOne h0 h1 htotal]
        exact Nat.floor_eq_zero.mpr hless

/-- A text caps a device exactly where its number does. -/
theorem capped_iff (strtod : List UInt8 → Option (Exact × List UInt8)) (text : List UInt8)
    (mem : Memory) :
    Capped strtod text mem ↔ ∀ v m, Reads strtod text v m → Caps mem.total v m := by
  constructor
  · intro h v m hreads
    by_contra hcaps
    obtain ⟨hneg, c, hcap, hbad⟩ := cap_of_not_caps
      (fun k hk => (hk ▸ hreads : Reads strtod text v (.bytes k)).mul_pos) mem.total_lt hcaps
    have htaken := (vvParseMemCap_eq_iff wildOne).mpr ⟨v, m, hreads, hneg, hcap⟩
    rcases hbad with hbad | hzero
    · exact h.refused v m hreads hbad wildOne c htaken
    · obtain ⟨x, m', -, -, hne, -⟩ := h.taken wildOne c htaken
      exact hne hzero
  · intro h
    constructor
    · intro wild c htaken
      obtain ⟨v, m, hreads, hneg, hcap⟩ := (vvParseMemCap_eq_iff wild).mp htaken
      obtain ⟨x, rfl, hpos, -, hbytes, hne⟩ :=
        amount_of_caps wild mem.total_lt hneg (h v m hreads) hcap
      refine ⟨x, m, hreads, hpos, hne, fun info set index hset hdev => ?_⟩
      subst hset
      refine ⟨vvGpuReserved_of_cap wild hdev hne, fun vram h0 h1 reclaimable => ?_⟩
      obtain ⟨hle, hle'⟩ : vvGpuBudget wild info set index vram ≤ _ ∧ _ :=
        budgets_le_cap wild hdev hne reclaimable
      obtain ⟨hfree, htotal⟩ := budgets_le_memory wild hdev h0 h1 reclaimable
      rw [hbytes] at hle hle'
      exact ⟨le_min hle hfree, hle', htotal⟩
    · intro v m hreads hbad wild c htaken
      obtain ⟨v', m', hreads', hneg, hcap⟩ := (vvParseMemCap_eq_iff wild).mp htaken
      obtain ⟨rfl, rfl⟩ := hreads.unique hreads'
      obtain ⟨x, rfl, hpos, hlt, -⟩ :=
        amount_of_caps wild mem.total_lt hneg (h _ _ hreads) hcap
      exact absurd hlt (not_lt.mpr (hbad x rfl hpos))

/-- `strtod` on a whole number. -/
def whole (p : List UInt8) : Option (Exact × List UInt8) :=
  (strtol p).map fun r => (.real r.1, r.2)

/-- A card of 24 GiB with nothing on it. -/
def card : Memory := ⟨24 * 2 ^ 30, 24 * 2 ^ 30, by norm_num, by norm_num⟩

/-- No percent of a card is taken, and leaves all of it. -/
theorem zero_percent_uncapped :
    (∃ c, vvParseMemCap (exactDoubles whole wildOne) [0x30, 0x25] = .ok c ∧
      vvGpuBudget wildOne (fun _ => some card) ⟨[0], fun _ => c⟩ ⟨0, by decide⟩ 1 = 24 * 2 ^ 30) ∧
    ¬ Capped whole [0x30, 0x25] card := by
  have htaken : vvParseMemCap (exactDoubles whole wildOne) [0x30, 0x25] =
      .ok ⟨0, .real ((0 : ℤ) * (1 / 100))⟩ := rfl
  have hzero : vvMemCapBytes wildOne ⟨0, .real ((0 : ℤ) * (1 / 100))⟩ card.total = 0 := by
    simp [vvMemCapBytes, Exact.pos]
  constructor
  · refine ⟨_, htaken, ?_⟩
    have hshare : share wildOne 1 card.free = 24 * 2 ^ 30 := by
      rw [share_eq wildOne (by norm_num) le_rfl card.free_lt, mul_one, Nat.floor_natCast]
      rfl
    calc vvGpuBudget wildOne (fun _ => some card) ⟨[0], fun _ => _⟩ ⟨0, by decide⟩ 1
        = underCap (vvMemCapBytes wildOne _ card.total) (share wildOne 1 card.free) := rfl
      _ = share wildOne 1 card.free := by rw [hzero]; rfl
      _ = 24 * 2 ^ 30 := hshare
  · intro h
    obtain ⟨x, m, -, -, hne, -⟩ := h.taken wildOne _ htaken
    exact hne hzero

end VibeVoice.GpuSelect
