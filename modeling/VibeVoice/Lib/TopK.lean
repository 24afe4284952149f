import Mathlib.Data.List.Nodup
import Mathlib.Order.Defs.Unbundled
import Mathlib.Tactic

/-!
The best `k` of a stream, kept in a sorted list.

`r a b` says that `a` is worse than `b`.

* `place`: a new element among the kept ones, the worst of them first.
* `Kept`: a list holds the `k` best of what was seen.
* `Kept.reject`, `Kept.replace`, `Kept.grow`: what a new element can do to it.
-/

namespace TopK

variable {β : Type*}

/-- `x` behind the elements of a list that are below it. -/
def place (below : β → Bool) (x : β) : List β → List β
  | [] => [x]
  | c :: cs => if below c then c :: place below x cs else x :: c :: cs

variable {r : β → β → Prop} {below : β → Bool} {x : β} {l : List β}

lemma perm_place (below : β → Bool) (x : β) (l : List β) : (place below x l).Perm (x :: l) := by
  induction l with
  | nil => exact .refl _
  | cons c cs ih =>
    rw [place]
    split_ifs
    · exact (ih.cons c).trans (.swap x c cs)
    · exact .refl _

lemma mem_place {a : β} : a ∈ place below x l ↔ a = x ∨ a ∈ l :=
  (perm_place below x l).mem_iff.trans List.mem_cons

lemma length_place : (place below x l).length = l.length + 1 := (perm_place below x l).length_eq

/-- An element is placed where the order wants it. -/
lemma sorted_place [IsTrans β r] (hl : l.Pairwise r) (hbelow : ∀ c ∈ l, below c = true → r c x)
    (habove : ∀ c ∈ l, below c = false → r x c) : (place below x l).Pairwise r := by
  induction l with
  | nil => exact List.pairwise_singleton r x
  | cons c cs ih =>
    obtain ⟨hc, hcs⟩ := List.pairwise_cons.mp hl
    rw [place]
    split_ifs with hb
    · refine .cons (fun a ha => ?_) (ih hcs (fun a ha => hbelow a (List.mem_cons_of_mem c ha))
        fun a ha => habove a (List.mem_cons_of_mem c ha))
      rcases mem_place.mp ha with rfl | ha
      · exact hbelow c List.mem_cons_self hb
      · exact hc a ha
    · have hxc : r x c := habove c List.mem_cons_self (Bool.not_eq_true _ ▸ hb)
      refine .cons (fun a ha => ?_) hl
      rcases List.mem_cons.mp ha with rfl | ha
      · exact hxc
      · exact trans_of r hxc (hc a ha)

/-- The list holds the `k` best of what was seen, the worst of them first. -/
structure Kept (r : β → β → Prop) (k : ℕ) (seen buf : List β) : Prop where
  mem_seen : ∀ a ∈ buf, a ∈ seen
  sorted : buf.Pairwise r
  length : buf.length = min k seen.length
  worse : ∀ a ∈ seen, a ∉ buf → ∀ b ∈ buf, r a b
  full : ∀ a ∈ seen, a ∉ buf → buf.length = k

variable {k : ℕ} {seen buf : List β} {c : β} {cs : List β}

lemma Kept.nil (r : β → β → Prop) (k : ℕ) : Kept r k [] [] :=
  ⟨nofun, .nil, (Nat.min_zero k).symm, nofun, nofun⟩

/-- An element worse than all that are kept. -/
lemma Kept.reject (h : Kept r k seen buf) (hfull : buf.length = k) (hx : ∀ b ∈ buf, r x b) :
    Kept r k (seen ++ [x]) buf where
  mem_seen a ha := List.mem_append_left _ (h.mem_seen a ha)
  sorted := h.sorted
  length := by
    have hlen := h.length
    rw [List.length_append]
    omega
  worse a ha hnot b hb := by
    rcases List.mem_append.mp ha with ha | ha
    · exact h.worse a ha hnot b hb
    · rw [List.mem_singleton.mp ha]
      exact hx b hb
  full _ _ _ := hfull

/-- An element better than the worst that is kept. -/
lemma Kept.replace [IsTrans β r] (h : Kept r k seen (c :: cs)) (hfull : (c :: cs).length = k)
    (hc : r c x) (hbelow : ∀ b ∈ cs, below b = true → r b x)
    (habove : ∀ b ∈ cs, below b = false → r x b) :
    Kept r k (seen ++ [x]) (place below x cs) where
  mem_seen a ha := by
    rcases mem_place.mp ha with rfl | ha
    · exact List.mem_append_right _ List.mem_cons_self
    · exact List.mem_append_left _ (h.mem_seen a (List.mem_cons_of_mem c ha))
  sorted := sorted_place (List.pairwise_cons.mp h.sorted).2 hbelow habove
  length := by
    have hlen := h.length
    rw [List.length_cons] at hlen hfull
    rw [length_place, List.length_append]
    omega
  worse a ha hnot b hb := by
    obtain ⟨hax, hacs⟩ := not_or.mp (mem_place.not.mp hnot)
    have ha : a ∈ seen :=
      (List.mem_append.mp ha).resolve_right fun ha => hax (List.mem_singleton.mp ha)
    have hac : a = c ∨ r a c := by
      rw [or_iff_not_imp_left]
      intro hne
      exact h.worse a ha (fun hmem => (List.mem_cons.mp hmem).elim hne hacs) c List.mem_cons_self
    rcases mem_place.mp hb with rfl | hb
    · rcases hac with rfl | hac
      · exact hc
      · exact trans_of r hac hc
    · have hcb : r c b := (List.pairwise_cons.mp h.sorted).1 b hb
      rcases hac with rfl | hac
      · exact hcb
      · exact trans_of r hac hcb
  full _ _ _ := by
    rw [List.length_cons] at hfull
    rw [length_place, hfull]

/-- An element while there is room. -/
lemma Kept.grow [IsTrans β r] (h : Kept r k seen buf) (hroom : buf.length ≠ k)
    (hbelow : ∀ b ∈ buf, below b = true → r b x) (habove : ∀ b ∈ buf, below b = false → r x b) :
    Kept r k (seen ++ [x]) (place below x buf) := by
  have hall : ∀ a ∈ seen ++ [x], a ∈ place below x buf := by
    intro a ha
    rcases List.mem_append.mp ha with ha | ha
    · by_contra hnot
      exact hroom (h.full a ha fun hmem => hnot (mem_place.mpr (.inr hmem)))
    · exact mem_place.mpr (.inl (List.mem_singleton.mp ha))
  refine ⟨fun a ha => ?_, sorted_place h.sorted hbelow habove, ?_,
    fun a ha hnot => absurd (hall a ha) hnot, fun a ha hnot => absurd (hall a ha) hnot⟩
  · rcases mem_place.mp ha with rfl | ha
    · exact List.mem_append_right _ List.mem_cons_self
    · exact List.mem_append_left _ (h.mem_seen a ha)
  · have hlen := h.length
    rw [length_place, List.length_append, List.length_singleton]
    omega

end TopK
