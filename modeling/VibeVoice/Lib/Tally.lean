import Mathlib.Tactic
import Mathlib.Algebra.BigOperators.Group.Finset.Basic
import Mathlib.Data.Fintype.Card

/-!
Sums and counts over a finite family of components when one component is replaced.

A system of finitely many parts is a function `g : ι → κ`, a step replaces one part by
`Function.update g a x`, and a ledger over the system is a sum or a count over all parts.
`sum_update` and `tally_update` say how one replacement moves them.  Where the parts are lists
and their sum has no duplicates, the parts are pairwise disjoint.
-/

namespace Tally

variable {ι κ : Type*} [Fintype ι]

/-- Replacing the part `a` exchanges its contribution to a sum. -/
lemma sum_update [DecidableEq ι] {M : Type*} [AddCommMonoid M] (f : κ → M) (g : ι → κ) (a : ι)
    (x : κ) :
    (∑ c, f (Function.update g a x c)) + f (g a) = (∑ c, f (g c)) + f x := by
  have h₁ := Finset.add_sum_erase Finset.univ (fun c => f (Function.update g a x c))
    (Finset.mem_univ a)
  have h₂ := Finset.add_sum_erase Finset.univ (fun c => f (g c)) (Finset.mem_univ a)
  have hrest : ∑ c ∈ Finset.univ.erase a, f (Function.update g a x c)
      = ∑ c ∈ Finset.univ.erase a, f (g c) := by
    refine Finset.sum_congr rfl fun c hc => ?_
    rw [Function.update_of_ne (Finset.ne_of_mem_erase hc)]
  simp only [Function.update_self] at h₁
  rw [← h₁, ← h₂, hrest]
  abel

/-- How many parts have the property `p`. -/
def tally (p : κ → Bool) (g : ι → κ) : ℤ := ∑ c, if p (g c) then 1 else 0

lemma tally_eq_card (p : κ → Bool) (g : ι → κ) :
    tally p g = ((Finset.univ.filter fun c => p (g c) = true).card : ℤ) := by
  simp [tally, Finset.sum_boole]

lemma tally_nonneg (p : κ → Bool) (g : ι → κ) : 0 ≤ tally p g := by
  rw [tally_eq_card]; positivity

/-- Replacing the part `a` moves a count by what `a` counted before and counts now. -/
lemma tally_update [DecidableEq ι] (p : κ → Bool) (g : ι → κ) (a : ι) (x : κ) :
    tally p (Function.update g a x)
      = tally p g - (if p (g a) then 1 else 0) + if p x then 1 else 0 := by
  have h := sum_update (fun k => if p k then (1 : ℤ) else 0) g a x
  simp only [tally] at h ⊢
  omega

lemma tally_congr {p q : κ → Bool} {g h : ι → κ} (hpq : ∀ c, p (g c) = q (h c)) :
    tally p g = tally q h := by
  simp [tally, hpq]

/-- A count is monotone in the property. -/
lemma tally_mono {p q : κ → Bool} {g : ι → κ} (hpq : ∀ c, p (g c) = true → q (g c) = true) :
    tally p g ≤ tally q g := by
  rw [tally_eq_card, tally_eq_card]
  exact_mod_cast Finset.card_le_card fun c hc => by
    simp only [Finset.mem_filter, Finset.mem_univ, true_and] at hc ⊢
    exact hpq c hc

lemma tally_eq_zero {p : κ → Bool} {g : ι → κ} (hp : ∀ c, p (g c) = false) :
    tally p g = 0 := by
  simp [tally, hp]

lemma tally_pos {p : κ → Bool} {g : ι → κ} {a : ι} (ha : p (g a) = true) : 0 < tally p g := by
  rw [tally_eq_card]
  exact_mod_cast Finset.card_pos.mpr ⟨a, by simpa using ha⟩

/-- A property counted as often as a weaker one is equivalent to it. -/
lemma eq_of_tally_le {p q : κ → Bool} {g : ι → κ} (hpq : ∀ c, p (g c) = true → q (g c) = true)
    (hle : tally q g ≤ tally p g) (c : ι) (hc : q (g c) = true) : p (g c) = true := by
  rw [tally_eq_card, tally_eq_card] at hle
  have hsub : (Finset.univ.filter fun c => p (g c) = true)
      ⊆ Finset.univ.filter fun c => q (g c) = true := by
    intro c hc
    simp only [Finset.mem_filter, Finset.mem_univ, true_and] at hc ⊢
    exact hpq c hc
  have heq := Finset.eq_of_subset_of_card_le hsub (by exact_mod_cast hle)
  have hmem : c ∈ Finset.univ.filter fun c => q (g c) = true := by simpa using hc
  rw [← heq] at hmem
  simpa using hmem

/-! ### Parts of a duplicate-free whole -/

/-- In a duplicate-free union of parts no element lies in two of them. -/
lemma disjoint_of_sum_nodup [DecidableEq ι] {α : Type*} [DecidableEq α] {f : ι → List α}
    (h : (∑ c, (f c : Multiset α)).Nodup) {c d : ι} (hcd : c ≠ d) : (f c).Disjoint (f d) := by
  intro x hc hd
  have hcount := Multiset.nodup_iff_count_le_one.mp h x
  rw [Multiset.count_sum'] at hcount
  have hpair : ∑ e ∈ {c, d}, Multiset.count x (f e : Multiset α)
      ≤ ∑ e, Multiset.count x (f e : Multiset α) :=
    Finset.sum_le_sum_of_subset (Finset.subset_univ _)
  rw [Finset.sum_pair hcd] at hpair
  have h₁ : 0 < Multiset.count x (f c : Multiset α) := Multiset.count_pos.mpr hc
  have h₂ : 0 < Multiset.count x (f d : Multiset α) := Multiset.count_pos.mpr hd
  omega

lemma nodup_of_sum_nodup [DecidableEq ι] {α : Type*} {f : ι → List α}
    (h : (∑ c, (f c : Multiset α)).Nodup) (c : ι) : (f c).Nodup := by
  have hle : (f c : Multiset α) ≤ ∑ e, (f e : Multiset α) :=
    Finset.single_le_sum (f := fun e => (f e : Multiset α)) (fun _ _ => Multiset.zero_le _)
      (Finset.mem_univ c)
  exact Multiset.nodup_of_le hle h

lemma mem_sum_iff {α : Type*} {f : ι → List α} {x : α} :
    x ∈ (∑ c, (f c : Multiset α)) ↔ ∃ c, x ∈ f c := by
  simp [Multiset.mem_sum]

end Tally
