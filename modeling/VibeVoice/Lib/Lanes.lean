import Mathlib.Algebra.BigOperators.Intervals
import Mathlib.Algebra.Order.BigOperators.Group.Finset
import Mathlib.Algebra.Order.Group.Unbundled.Abs
import Mathlib.Algebra.Order.Ring.Abs
import Mathlib.Data.Int.Notation
import Mathlib.Tactic.Ring

/-!
Accumulators of fixed width.

A number that a kernel computes is a word that wraps around, and kernels are judged by the exact
sum: an `Acc` carries the word, and whether nothing on the way to it overflowed.

* `Acc.Computes`: what a word is, unless something overflowed, and when nothing did.
* `Acc.Computes.add`, `Acc.Computes.sub`, `Acc.Computes.turns`: the operations.
* `Acc.Sums`: the word itself, whatever overflows; `Acc.Sums.val_eq_iff`: which number it is.
* `turns`: a counting loop, with its invariant rule `turns_induct`.
* `stores_induct`, `stores_eq`: what a cell holds after the stores of a loop, in whatever order
  they are made. `Stored.cells`: stores with one value for each cell.
-/

namespace Lanes

open Finset

/-- The number is one of a signed word of `w` bits. -/
def Fits (w : ℕ) (z : ℤ) : Prop := -2 ^ (w - 1) ≤ z ∧ z < 2 ^ (w - 1)

instance (w : ℕ) (z : ℤ) : Decidable (Fits w z) := inferInstanceAs (Decidable (_ ∧ _))

lemma fits_of_abs {w : ℕ} {z B : ℤ} (h : |z| ≤ B) (hB : B < 2 ^ (w - 1)) : Fits w z := by
  obtain ⟨hlow, hhigh⟩ := abs_le.mp h
  exact ⟨by omega, by omega⟩

lemma bmod_of_fits {w : ℕ} {z : ℤ} (hw : 0 < w) (h : Fits w z) : z.bmod (2 ^ w) = z := by
  obtain ⟨n, rfl⟩ : ∃ n, w = n + 1 := ⟨w - 1, by omega⟩
  obtain ⟨hlow, hhigh⟩ := h
  rw [Nat.add_sub_cancel] at hlow hhigh
  have hcast : ((2 ^ (n + 1) : ℕ) : ℤ) = 2 ^ n * 2 := by
    rw [Nat.cast_pow, pow_succ]
    rfl
  exact Int.bmod_eq_of_le_mul_two (by rw [hcast]; omega) (by rw [hcast]; omega)

/-- How often a number passes the ends of a word of `w` bits. -/
def wraps (w : ℕ) (z : ℤ) : ℤ := (z + 2 ^ (w - 1)) / 2 ^ w

lemma wraps_eq_iff {w : ℕ} {z n : ℤ} (hw : 0 < w) : wraps w z = n ↔ Fits w (z - 2 ^ w * n) := by
  obtain ⟨m, rfl⟩ : ∃ m, w = m + 1 := ⟨w - 1, by omega⟩
  rw [wraps, Fits, Nat.add_sub_cancel, Int.ediv_eq_iff_of_pos (pow_pos two_pos _), Int.mul_comm n,
    pow_succ]
  generalize (2 : ℤ) ^ m * 2 * n = units
  omega

lemma wraps_eq_zero_iff {w : ℕ} {z : ℤ} (hw : 0 < w) : wraps w z = 0 ↔ Fits w z := by
  rw [wraps_eq_iff hw, mul_zero, sub_zero]

/-- A word, and whether neither it nor anything it was computed from overflowed. -/
@[ext]
structure Acc where
  val : ℤ
  ok : Bool
  deriving DecidableEq, Repr

namespace Acc

/-- An exact number. -/
def lift (z : ℤ) : Acc := ⟨z, true⟩

/-- The sum of two words of `w` bits, which wraps around. -/
def add (w : ℕ) (a b : Acc) : Acc :=
  ⟨(a.val + b.val).bmod (2 ^ w), a.ok && b.ok && decide (Fits w (a.val + b.val))⟩

/-- The difference of two words of `w` bits, which wraps around. -/
def sub (w : ℕ) (a b : Acc) : Acc :=
  ⟨(a.val - b.val).bmod (2 ^ w), a.ok && b.ok && decide (Fits w (a.val - b.val))⟩

/-- A sum of exact numbers that saturates at `w` bits. -/
def saturate (w : ℕ) (z : ℤ) : Acc :=
  ⟨max (-2 ^ (w - 1)) (min (2 ^ (w - 1) - 1) z), decide (Fits w z)⟩

/-- Nothing overflowed on the way to the word just when `c`, and then it is `z`. -/
structure Computes (a : Acc) (c : Prop) (z : ℤ) : Prop where
  ok : a.ok = true ↔ c
  val : c → a.val = z

variable {w : ℕ} {a b : Acc} {c d : Prop} {y z : ℤ}

lemma Computes.congr (h : a.Computes c z) (hc : c ↔ d) (hz : z = y) : a.Computes d y :=
  hz ▸ ⟨h.ok.trans hc, fun hd => h.val (hc.mpr hd)⟩

lemma lift_computes (z : ℤ) : (lift z).Computes True z := ⟨iff_of_true rfl trivial, fun _ => rfl⟩

lemma Computes.add (hw : 0 < w) (ha : a.Computes c y) (hb : b.Computes d z) :
    (a.add w b).Computes ((c ∧ d) ∧ Fits w (y + z)) (y + z) where
  ok := by
    rw [Acc.add, Bool.and_eq_true, Bool.and_eq_true, ha.ok, hb.ok, decide_eq_true_iff]
    exact and_congr_right fun ⟨hc, hd⟩ => by rw [ha.val hc, hb.val hd]
  val h := by
    rw [Acc.add, ha.val h.1.1, hb.val h.1.2]
    exact bmod_of_fits hw h.2

lemma Computes.sub (hw : 0 < w) (ha : a.Computes c y) (hb : b.Computes d z) :
    (a.sub w b).Computes ((c ∧ d) ∧ Fits w (y - z)) (y - z) where
  ok := by
    rw [Acc.sub, Bool.and_eq_true, Bool.and_eq_true, ha.ok, hb.ok, decide_eq_true_iff]
    exact and_congr_right fun ⟨hc, hd⟩ => by rw [ha.val hc, hb.val hd]
  val h := by
    rw [Acc.sub, ha.val h.1.1, hb.val h.1.2]
    exact bmod_of_fits hw h.2

/-- A sum that is known to fit. -/
lemma Computes.add_fits (hw : 0 < w) (ha : a.Computes c y) (hb : b.Computes d z)
    (h : Fits w (y + z)) : (a.add w b).Computes (c ∧ d) (y + z) :=
  (ha.add hw hb).congr (and_iff_left h) rfl

lemma Computes.sub_fits (hw : 0 < w) (ha : a.Computes c y) (hb : b.Computes d z)
    (h : Fits w (y - z)) : (a.sub w b).Computes (c ∧ d) (y - z) :=
  (ha.sub hw hb).congr (and_iff_left h) rfl

lemma saturate_computes (w : ℕ) (z : ℤ) : (saturate w z).Computes (Fits w z) z where
  ok := by rw [saturate, decide_eq_true_iff]
  val h := by
    obtain ⟨hlow, hhigh⟩ := h
    show max _ (min _ z) = z
    omega

lemma saturate_of_fits (h : Fits w z) : saturate w z = lift z :=
  Acc.ext ((saturate_computes w z).val h) ((saturate_computes w z).ok.mpr h)

/-- A word that is at most `B` away from zero, whatever overflowed on the way to it. -/
structure Within (a : Acc) (c : Prop) (z B : ℤ) : Prop where
  computes : a.Computes c z
  bound : |z| ≤ B

variable {Y Z : ℤ}

lemma within_lift (h : |z| ≤ Z) : (lift z).Within True z Z := ⟨lift_computes z, h⟩

lemma Within.congr (h : a.Within c z Z) (hc : c ↔ d) (hz : z = y) : a.Within d y Z :=
  ⟨h.computes.congr hc hz, hz ▸ h.bound⟩

/-- Small words do not overflow when they are added. -/
lemma Within.add (hw : 0 < w) (ha : a.Within c y Y) (hb : b.Within d z Z)
    (h : Y + Z < 2 ^ (w - 1)) : (a.add w b).Within (c ∧ d) (y + z) (Y + Z) := by
  have hbound : |y + z| ≤ Y + Z := (abs_add_le y z).trans (add_le_add ha.bound hb.bound)
  exact ⟨ha.computes.add_fits hw hb.computes (fits_of_abs hbound h), hbound⟩

/-- A small exact number is added. -/
lemma Within.add_lift (hw : 0 < w) (ha : a.Within c y Y) (hz : |z| ≤ Z)
    (h : Y + Z < 2 ^ (w - 1)) : (a.add w (lift z)).Within c (y + z) (Y + Z) :=
  (ha.add hw (within_lift hz) h).congr (and_iff_left trivial) rfl

/-- A word that is `z` up to overflows, and `z` itself where the bound on it fits. -/
structure Sums (w : ℕ) (a : Acc) (z B : ℤ) : Prop where
  fits : Fits w a.val
  dvd : (2 : ℤ) ^ w ∣ z - a.val
  bound : |z| ≤ B
  ok : B < 2 ^ (w - 1) → a.ok = true

lemma sums_lift (hz : |z| ≤ Z) (h : Z < 2 ^ (w - 1)) : (lift z).Sums w z Z where
  fits := fits_of_abs hz h
  dvd := by
    rw [lift, sub_self]
    exact dvd_zero _
  bound := hz
  ok _ := rfl

lemma Sums.congr (h : a.Sums w z Z) (hz : z = y) (hB : Z = Y) : a.Sums w y Y := hz ▸ hB ▸ h

/-- The only number of the width that a word is, up to overflows, is its value. -/
lemma Sums.val_eq_iff (hw : 0 < w) (h : a.Sums w z Z) :
    a.val = y ↔ Fits w y ∧ (2 : ℤ) ^ w ∣ z - y := by
  constructor
  · rintro rfl
    exact ⟨h.fits, h.dvd⟩
  · rintro ⟨hy, hdvd⟩
    have hdiff : (2 : ℤ) ^ w ∣ a.val - y := by
      have hsub := dvd_sub hdvd h.dvd
      rwa [sub_sub_sub_cancel_left] at hsub
    obtain ⟨n, rfl⟩ : ∃ n, w = n + 1 := ⟨w - 1, by omega⟩
    obtain ⟨hlow, hhigh⟩ := h.fits
    obtain ⟨hylow, hyhigh⟩ := hy
    rw [Nat.add_sub_cancel] at hlow hhigh hylow hyhigh
    have hsmall : |a.val - y| < 2 ^ (n + 1) := by
      rw [pow_succ, abs_lt]
      omega
    exact sub_eq_zero.mp (Int.eq_zero_of_abs_lt_dvd hdiff hsmall)

/-- A word that misses `n` units of `f` is right when they add up to whole words. -/
lemma Sums.val_eq_iff_dvd {f g n : ℤ} (hw : 0 < w) (h : a.Sums w (z - f * n) Z)
    (hfg : f * g = 2 ^ w) : a.val = z ↔ Fits w z ∧ g ∣ n := by
  have hf : f ≠ 0 := fun h0 => by
    rw [h0, zero_mul] at hfg
    exact absurd hfg (pow_ne_zero w two_ne_zero).symm
  rw [h.val_eq_iff hw, sub_sub_cancel_left, dvd_neg, ← hfg, mul_dvd_mul_iff_left hf]

lemma Sums.val (hw : 0 < w) (h : a.Sums w z Z) (hZ : Z < 2 ^ (w - 1)) : a.val = z := by
  rw [h.val_eq_iff hw, sub_self]
  exact ⟨fits_of_abs h.bound hZ, dvd_zero _⟩

/-- A word on the way to which nothing overflowed. -/
lemma Sums.eq_lift (hw : 0 < w) (h : a.Sums w z Z) (hZ : Z < 2 ^ (w - 1)) : a = lift z :=
  Acc.ext (h.val hw hZ) (h.ok hZ)

lemma fits_bmod (hw : 0 < w) (z : ℤ) : Fits w (z.bmod (2 ^ w)) := by
  obtain ⟨n, rfl⟩ : ∃ n, w = n + 1 := ⟨w - 1, by omega⟩
  have hcast : ((2 ^ (n + 1) : ℕ) : ℤ) = 2 ^ n * 2 := by
    rw [Nat.cast_pow, pow_succ]
    rfl
  have hpos : 0 < 2 ^ (n + 1) := Nat.two_pow_pos _
  have hlow := Int.le_bmod (x := z) hpos
  have hhigh := Int.bmod_lt (x := z) hpos
  rw [hcast] at hlow hhigh
  rw [Fits, Nat.add_sub_cancel]
  omega

/-- In particular, it is the number it stands for when that is one of the width. -/
lemma Sums.val_eq_self_iff (hw : 0 < w) (h : a.Sums w z Z) : a.val = z ↔ Fits w z := by
  rw [h.val_eq_iff hw, sub_self]
  exact and_iff_left (dvd_zero _)

/-- What a word is, whatever overflowed on the way to it. -/
lemma Sums.val_wraps (hw : 0 < w) (h : a.Sums w z Z) : a.val = z - 2 ^ w * wraps w z := by
  rw [h.val_eq_iff hw, sub_sub_cancel]
  exact ⟨(wraps_eq_iff hw).mp rfl, dvd_mul_right ..⟩

lemma Within.sums (h : a.Within True z Z) (hZ : Z < 2 ^ (w - 1)) : a.Sums w z Z where
  fits := by
    rw [h.computes.val trivial]
    exact fits_of_abs h.bound hZ
  dvd := by
    rw [h.computes.val trivial, sub_self]
    exact dvd_zero _
  bound := h.bound
  ok _ := h.computes.ok.mpr trivial

/-- Overflows cancel in the end. -/
lemma Sums.add (hw : 0 < w) (ha : a.Sums w y Y) (hb : b.Sums w z Z) :
    (a.add w b).Sums w (y + z) (Y + Z) where
  fits := fits_bmod hw _
  dvd := by
    have hbmod : ((2 ^ w : ℕ) : ℤ) ∣ (a.val + b.val) - (a.val + b.val).bmod (2 ^ w) :=
      Int.dvd_self_sub_bmod
    rw [Nat.cast_pow] at hbmod
    have hsum := dvd_add (dvd_add ha.dvd hb.dvd) hbmod
    rwa [show y - a.val + (z - b.val) + (a.val + b.val - (a.val + b.val).bmod (2 ^ w)) =
      y + z - (a.val + b.val).bmod (2 ^ w) by ring] at hsum
  bound := (abs_add_le y z).trans (add_le_add ha.bound hb.bound)
  ok h := by
    have hY : 0 ≤ Y := (abs_nonneg y).trans ha.bound
    have hZ : 0 ≤ Z := (abs_nonneg z).trans hb.bound
    have hfits : Fits w (a.val + b.val) := by
      rw [ha.val hw (by omega), hb.val hw (by omega)]
      exact fits_of_abs ((abs_add_le y z).trans (add_le_add ha.bound hb.bound)) h
    rw [Acc.add, ha.ok (by omega), hb.ok (by omega), decide_eq_true hfits]
    rfl

end Acc

/-! ### Loops -/

/-- The turns of a counting loop. -/
def turns {α : Type} : ℕ → (ℕ → α → α) → α → α
  | 0, _, s => s
  | n + 1, f, s => f n (turns n f s)

/-- What each turn keeps holds behind the loop. -/
lemma turns_induct {α : Type} {f : ℕ → α → α} {s : α} (P : ℕ → α → Prop) {n : ℕ} (h : P 0 s)
    (hstep : ∀ i < n, ∀ s, P i s → P (i + 1) (f i s)) : P n (turns n f s) := by
  induction n with
  | zero => exact h
  | succ n ih =>
    exact hstep n n.lt_succ_self _ (ih fun i hi => hstep i (hi.trans n.lt_succ_self))

lemma turns_congr {α : Type} {f g : ℕ → α → α} {n : ℕ} (h : ∀ i < n, f i = g i) (s : α) :
    turns n f s = turns n g s := by
  induction n with
  | zero => rfl
  | succ n ih => rw [turns, turns, h n n.lt_succ_self, ih fun i hi => h i (hi.trans n.lt_succ_self)]

/-- Exact numbers added one after the other. -/
lemma Acc.Computes.turns {w n : ℕ} (hw : 0 < w) {a : Acc} {c : Prop} {y : ℤ} {f : ℕ → Acc → Acc}
    {d : ℕ → Prop} {z : ℕ → ℤ} (ha : a.Computes c y)
    (hf : ∀ i < n, ∃ b : Acc, b.Computes (d i) (z i) ∧ ∀ s, f i s = s.add w b)
    (hfits : ∀ m < n, Fits w (y + ∑ i ∈ range (m + 1), z i)) :
    (Lanes.turns n f a).Computes (c ∧ ∀ i < n, d i) (y + ∑ i ∈ range n, z i) := by
  refine turns_induct (fun m (s : Acc) => s.Computes (c ∧ ∀ i < m, d i) (y + ∑ i ∈ range m, z i)) ?_ ?_
  · refine ha.congr (by simp) ?_
    rw [sum_range_zero, add_zero]
  · intro m hm s hs
    obtain ⟨b, hb, hadd⟩ := hf m hm
    rw [hadd]
    have hsum : y + ∑ i ∈ range m, z i + z m = y + ∑ i ∈ range (m + 1), z i := by
      rw [sum_range_succ, add_assoc]
    refine (hs.add_fits hw hb (hsum ▸ hfits m hm)).congr ?_ hsum
    rw [and_assoc, Nat.forall_lt_succ_right]

/-- A loop whose turns add something, whatever overflows. -/
lemma Acc.Sums.loop {w n : ℕ} {a : Acc} {y Y Z : ℤ} {f : ℕ → Acc → Acc} {z : ℕ → ℤ}
    (ha : a.Sums w y Y)
    (hf : ∀ i < n, ∀ (s : Acc) (y Y : ℤ), s.Sums w y Y → (f i s).Sums w (y + z i) (Y + Z)) :
    (Lanes.turns n f a).Sums w (y + ∑ i ∈ range n, z i) (Y + n * Z) := by
  refine turns_induct (fun m (s : Acc) => s.Sums w (y + ∑ i ∈ range m, z i) (Y + m * Z)) ?_ ?_
  · refine ha.congr ?_ ?_
    · rw [sum_range_zero, add_zero]
    · rw [Nat.cast_zero, zero_mul, add_zero]
  · intro m hm s hs
    refine (hf m hm s _ _ hs).congr ?_ ?_
    · rw [sum_range_succ, add_assoc]
    · rw [Nat.cast_succ, add_mul, one_mul, add_assoc]

/-- Words added one after the other. -/
lemma Acc.Sums.turns {w n : ℕ} (hw : 0 < w) {a : Acc} {y Y Z : ℤ} {f : ℕ → Acc → Acc}
    {z : ℕ → ℤ} (ha : a.Sums w y Y)
    (hf : ∀ i < n, ∃ b : Acc, b.Sums w (z i) Z ∧ ∀ s, f i s = s.add w b) :
    (Lanes.turns n f a).Sums w (y + ∑ i ∈ range n, z i) (Y + n * Z) :=
  ha.loop fun i hi s _ _ hs => by
    obtain ⟨b, hb, hadd⟩ := hf i hi
    rw [hadd]
    exact hs.add hw hb

/-! ### Sums -/

lemma sum_range_mul {M : Type} [AddCommMonoid M] (f : ℕ → M) (m n : ℕ) :
    ∑ k ∈ range (m * n), f k = ∑ i ∈ range m, ∑ j ∈ range n, f (i * n + j) := by
  induction m with
  | zero => rw [Nat.zero_mul, sum_range_zero, sum_range_zero]
  | succ m ih => rw [Nat.succ_mul, sum_range_add, ih, sum_range_succ]

/-- The lanes of a register, tile by tile. -/
lemma sum_range_lanes {M : Type} [AddCommMonoid M] (f : ℕ → M) (n m w : ℕ) :
    ∑ l ∈ range m, ∑ b ∈ range n, ∑ i ∈ range w, f (b * (m * w) + (l * w + i)) =
      ∑ k ∈ range (n * (m * w)), f k := by
  rw [sum_comm, sum_range_mul]
  exact sum_congr rfl fun b _ => (sum_range_mul (fun j => f (b * (m * w) + j)) m w).symm

lemma abs_sum_range_le {f : ℕ → ℤ} {B : ℤ} {n : ℕ} (h : ∀ i < n, |f i| ≤ B) :
    |∑ i ∈ range n, f i| ≤ n * B :=
  calc |∑ i ∈ range n, f i| ≤ ∑ i ∈ range n, |f i| := abs_sum_le_sum_abs ..
    _ ≤ ∑ _i ∈ range n, B := sum_le_sum fun i hi => h i (mem_range.mp hi)
    _ = n * B := by rw [sum_const, card_range, nsmul_eq_mul]

/-! ### Stores -/

/-- The memory after some stores. -/
def stores {α : Type} (ws : List (ℕ × α)) (mem : ℕ → α) : ℕ → α :=
  ws.foldl (fun mem w => Function.update mem w.1 w.2) mem

/-- A cell that is stored to holds what all that is stored there has in common. -/
lemma stores_induct {α : Type} {ws : List (ℕ × α)} {mem : ℕ → α} {o : ℕ} {P : α → Prop}
    (hex : ∃ w ∈ ws, w.1 = o) (hall : ∀ w ∈ ws, w.1 = o → P w.2) : P (stores ws mem o) := by
  induction ws using List.reverseRecOn with
  | nil => exact absurd hex (by simp)
  | append_singleton ws w ih =>
    rw [stores, List.foldl_append, List.foldl_cons, List.foldl_nil]
    by_cases ho : w.1 = o
    · subst ho
      rw [Function.update_self]
      exact hall w (List.mem_append_right _ List.mem_cons_self) rfl
    · rw [Function.update_of_ne (Ne.symm ho)]
      refine ih ?_ fun w' hw' => hall w' (List.mem_append_left _ hw')
      obtain ⟨w', hw', ho'⟩ := hex
      rcases List.mem_append.mp hw' with hin | hlast
      · exact ⟨w', hin, ho'⟩
      · obtain rfl := List.mem_singleton.mp hlast
        exact absurd ho' ho

/-- In particular, the one value that is stored there. -/
lemma stores_eq {α : Type} {ws : List (ℕ × α)} {mem : ℕ → α} {o : ℕ} {v : α}
    (hex : ∃ w ∈ ws, w.1 = o) (hall : ∀ w ∈ ws, w.1 = o → w.2 = v) : stores ws mem o = v :=
  stores_induct (P := (· = v)) hex hall

lemma stores_of_not_mem {α : Type} {ws : List (ℕ × α)} {mem : ℕ → α} {o : ℕ}
    (h : ∀ w ∈ ws, w.1 ≠ o) : stores ws mem o = mem o := by
  induction ws using List.reverseRecOn with
  | nil => rfl
  | append_singleton ws w ih =>
    rw [stores, List.foldl_append, List.foldl_cons, List.foldl_nil,
      Function.update_of_ne (h w (List.mem_append_right _ List.mem_cons_self)).symm]
    exact ih fun w' hw' => h w' (List.mem_append_left _ hw')

/-- The memory after some stores, in some order. -/
def Stored {α : Type} (ws : List (ℕ × α)) (mem mem' : ℕ → α) : Prop :=
  ∃ ws', ws'.Perm ws ∧ mem' = stores ws' mem

lemma stored {α : Type} (ws : List (ℕ × α)) (mem : ℕ → α) : Stored ws mem (stores ws mem) :=
  ⟨ws, List.Perm.refl ws, rfl⟩

/-- Stores that have one value for each of some cells. -/
lemma Stored.cells {α ι : Type} {ws : List (ℕ × α)} {mem mem' : ℕ → α} {I : Set ι} {addr : ι → ℕ}
    {val : ι → α} (hst : Stored ws mem mem') (haddr : Set.InjOn addr I)
    (hws : ∀ x, x ∈ ws ↔ ∃ i ∈ I, x = (addr i, val i)) :
    (∀ i ∈ I, mem' (addr i) = val i) ∧ ∀ o, (∀ i ∈ I, addr i ≠ o) → mem' o = mem o := by
  obtain ⟨ws', hperm, rfl⟩ := hst
  refine ⟨fun i hi => ?_, fun o ho => ?_⟩
  · refine stores_eq ⟨_, hperm.mem_iff.mpr ((hws _).mpr ⟨i, hi, rfl⟩), rfl⟩ fun w hw hx => ?_
    obtain ⟨j, hj, rfl⟩ := (hws w).mp (hperm.mem_iff.mp hw)
    exact congrArg val (haddr hj hi hx)
  · refine stores_of_not_mem fun w hw hx => ?_
    obtain ⟨i, hi, rfl⟩ := (hws w).mp (hperm.mem_iff.mp hw)
    exact ho i hi hx

/-- The starts of a loop that goes up to `n` in steps. -/
def starts (n step : ℕ) : List ℕ := (List.range ((n + step - 1) / step)).map (· * step)

lemma mem_starts {n step s : ℕ} (hstep : 0 < step) :
    s ∈ starts n step ↔ s < n ∧ s % step = 0 := by
  rw [starts, List.mem_map]
  constructor
  · rintro ⟨i, hi, rfl⟩
    rw [List.mem_range, Nat.lt_div_iff_mul_lt hstep] at hi
    exact ⟨by omega, Nat.mul_mod_left ..⟩
  · rintro ⟨hlt, hmod⟩
    refine ⟨s / step, ?_, Nat.div_mul_cancel (Nat.dvd_of_mod_eq_zero hmod)⟩
    rw [List.mem_range, Nat.lt_div_iff_mul_lt hstep,
      Nat.div_mul_cancel (Nat.dvd_of_mod_eq_zero hmod)]
    omega

end Lanes
