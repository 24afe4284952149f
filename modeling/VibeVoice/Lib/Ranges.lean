import Mathlib.Data.List.DropRight
import Mathlib.Data.List.Pairwise
import Mathlib.Tactic

/-!
A table of disjoint ranges in ascending order.

* `Apart`: every range ends before the next one begins.
* `find`: binary search. `find_eq_some_iff`: it finds the range a point is in, and no other.
* `insert_apart`: insertion from the right keeps the order.
-/

namespace Ranges

variable {α : Type} (lo hi : α → ℕ)

/-- Every range is proper and ends before those behind it begin. -/
structure Apart (l : List α) : Prop where
  proper : ∀ a ∈ l, lo a < hi a
  pairwise : l.Pairwise fun a b => hi a ≤ lo b

/-- The loop of a binary search for the last range that begins at `p` or before: `i` and `j` bound
the ranges that are left, `found` is the last one that does. -/
def findLoop (l : List α) (p : ℕ) : ℕ → ℕ → ℕ → Option ℕ → Option ℕ
  | 0, _, _, found => found
  | n + 1, i, j, found =>
    if i < j then
      let mid := (i + (j - 1)) / 2
      match l[mid]? with
      | none => found
      | some a => if lo a ≤ p then findLoop l p n (mid + 1) j (some mid)
          else findLoop l p n i mid found
    else found

/-- The index of the range that `p` is in. -/
def find (l : List α) (p : ℕ) : Option ℕ :=
  match findLoop lo l p l.length 0 l.length none with
  | none => none
  | some i => match l[i]? with
    | none => none
    | some a => if p < hi a then some i else none

/-- Insertion from the right, behind the ranges that do not begin later. -/
def insert (a : α) (l : List α) : List α :=
  (l.rdropWhile fun b => lo a < lo b) ++ a :: l.rtakeWhile fun b => lo a < lo b

variable {lo hi} {l : List α} {p : ℕ}

lemma Apart.nil : Apart lo hi ([] : List α) := ⟨nofun, List.Pairwise.nil⟩

lemma Apart.sublist {l' : List α} (h : Apart lo hi l) (hl : l'.Sublist l) : Apart lo hi l' :=
  ⟨fun a ha => h.proper a (hl.subset ha), h.pairwise.sublist hl⟩

/-- Ranges at two places do not meet. -/
lemma Apart.getElem {i j : ℕ} {a b : α} (h : Apart lo hi l) (ha : l[i]? = some a)
    (hb : l[j]? = some b) (hij : i < j) : hi a ≤ lo b := by
  obtain ⟨hil, rfl⟩ := List.getElem?_eq_some_iff.mp ha
  obtain ⟨hjl, rfl⟩ := List.getElem?_eq_some_iff.mp hb
  exact List.pairwise_iff_getElem.mp h.pairwise i j hil hjl hij

/-- Two ranges do not meet. -/
lemma Apart.disjoint {a b : α} (h : Apart lo hi l) (ha : a ∈ l) (hb : b ∈ l) (hab : a ≠ b) :
    hi a ≤ lo b ∨ hi b ≤ lo a := by
  obtain ⟨i, hia⟩ := List.mem_iff_getElem?.mp ha
  obtain ⟨j, hjb⟩ := List.mem_iff_getElem?.mp hb
  rcases Nat.lt_trichotomy i j with hij | hij | hij
  · exact .inl (h.getElem hia hjb hij)
  · rw [hij, hjb, Option.some.injEq] at hia
    exact absurd hia.symm hab
  · exact .inr (h.getElem hjb hia hij)

/-- Only where the ranges are matters. -/
lemma apart_map {f : α → α} (hlo : ∀ a, lo (f a) = lo a) (hhi : ∀ a, hi (f a) = hi a) :
    Apart lo hi (l.map f) ↔ Apart lo hi l := by
  constructor
  · rintro ⟨hproper, hpairwise⟩
    refine ⟨fun a ha => ?_, (List.pairwise_map.mp hpairwise).imp fun {a b} hab => ?_⟩
    · have := hproper (f a) (List.mem_map_of_mem ha)
      rwa [hlo, hhi] at this
    · rwa [hhi, hlo] at hab
  · rintro ⟨hproper, hpairwise⟩
    refine ⟨fun b hb => ?_, List.pairwise_map.mpr (hpairwise.imp fun {a b} hab => ?_)⟩
    · obtain ⟨a, ha, rfl⟩ := List.mem_map.mp hb
      rw [hlo, hhi]
      exact hproper a ha
    · rwa [hhi, hlo]

/-- Ranges may be cut at their ends. -/
lemma Apart.shorten {hi' : α → ℕ} (h : Apart lo hi l) (hproper : ∀ a ∈ l, lo a < hi' a)
    (hle : ∀ a ∈ l, hi' a ≤ hi a) : Apart lo hi' l :=
  ⟨hproper, h.pairwise.imp_of_mem fun ha _ hab => (hle _ ha).trans hab⟩

/-- Where the loop ends: at the last range that begins at `p` or before. -/
lemma findLoop_spec (h : Apart lo hi l) (n i j : ℕ) (found : Option ℕ) (hn : j - i ≤ n)
    (hj : j ≤ l.length) (hij : i ≤ j) (hbelow : ∀ k < i, ∀ a, l[k]? = some a → lo a ≤ p)
    (habove : ∀ k, j ≤ k → ∀ a, l[k]? = some a → p < lo a)
    (hfound : found = if i = 0 then none else some (i - 1)) :
    ∃ m ≤ l.length, (∀ k < m, ∀ a, l[k]? = some a → lo a ≤ p) ∧
      (∀ k, m ≤ k → ∀ a, l[k]? = some a → p < lo a) ∧
      findLoop lo l p n i j found = if m = 0 then none else some (m - 1) := by
  induction n generalizing i j found with
  | zero =>
    obtain rfl : i = j := by omega
    exact ⟨i, hj, hbelow, habove, hfound⟩
  | succ n ih =>
    rw [findLoop]
    by_cases hlt : i < j
    · rw [if_pos hlt]
      dsimp only
      generalize hmid : (i + (j - 1)) / 2 = mid
      have hmidlt : mid < l.length := by omega
      rw [List.getElem?_eq_getElem hmidlt]
      dsimp only
      have hget : l[mid]? = some l[mid] := List.getElem?_eq_getElem hmidlt
      by_cases hle : lo l[mid] ≤ p
      · rw [if_pos hle]
        refine ih _ _ _ (by omega) hj (by omega) (fun k hk a ha => ?_) habove
          (if_neg (Nat.succ_ne_zero mid)).symm
        rcases Nat.lt_or_eq_of_le (Nat.le_of_lt_succ hk) with hk | rfl
        · have hapart := h.getElem ha hget hk
          have hproper := h.proper a (List.mem_of_getElem? ha)
          omega
        · rw [hget] at ha
          cases ha
          exact hle
      · rw [if_neg hle]
        refine ih _ _ _ (by omega) (by omega) (by omega) hbelow (fun k hk a ha => ?_) hfound
        rcases Nat.lt_or_eq_of_le hk with hk | rfl
        · have hapart := h.getElem hget ha hk
          have hproper := h.proper l[mid] (List.getElem_mem hmidlt)
          omega
        · rw [hget] at ha
          cases ha
          omega
    · rw [if_neg hlt]
      obtain rfl : i = j := by omega
      exact ⟨i, hj, hbelow, habove, hfound⟩

/-- The search finds the range a point is in, and no other. -/
theorem find_eq_some_iff (h : Apart lo hi l) {i : ℕ} :
    find lo hi l p = some i ↔ ∃ a, l[i]? = some a ∧ lo a ≤ p ∧ p < hi a := by
  obtain ⟨m, hm, hbelow, habove, hloop⟩ := findLoop_spec (p := p) h l.length 0 l.length none
    (by omega) le_rfl (Nat.zero_le _) (fun k hk => absurd hk (Nat.not_lt_zero k))
    (fun k hk a ha => absurd (List.getElem?_eq_some_iff.mp ha).1 (by omega)) rfl
  have hbefore : ∀ {k : ℕ} {a : α}, l[k]? = some a → lo a ≤ p → k < m := fun {k a} ha hle =>
    not_le.mp fun hmk => absurd (habove k hmk a ha) (by omega)
  rw [find, hloop]
  by_cases hm0 : m = 0
  · rw [if_pos hm0]
    constructor
    · exact nofun
    · rintro ⟨a, ha, hle, -⟩
      exact absurd (hbefore ha hle) (by omega)
  · rw [if_neg hm0]
    have hlt : m - 1 < l.length := by omega
    have hget : l[m - 1]? = some l[m - 1] := List.getElem?_eq_getElem hlt
    have hle := hbelow (m - 1) (by omega) _ hget
    dsimp only
    rw [hget]
    dsimp only
    constructor
    · intro hfind
      split at hfind
      · cases hfind
        exact ⟨_, hget, hle, ‹_›⟩
      · cases hfind
    · rintro ⟨a, ha, hlea, hlta⟩
      have him : i = m - 1 := by
        rcases Nat.lt_or_ge i (m - 1) with hi | hi
        · have hapart := h.getElem ha hget hi
          omega
        · have := hbefore ha hlea
          omega
      subst him
      rw [hget] at ha
      cases ha
      rw [if_pos hlta]

/-- What stays in front of an insertion begins no later. -/
lemma lo_le_of_mem_rdropWhile {a b : α} (h : Apart lo hi l)
    (hb : b ∈ l.rdropWhile fun b => lo a < lo b) : lo b ≤ lo a := by
  have hne : (l.rdropWhile fun b => lo a < lo b) ≠ [] := List.ne_nil_of_mem hb
  have hlast : ¬decide (lo a < lo ((l.rdropWhile fun b => lo a < lo b).getLast hne)) = true :=
    List.rdropWhile_last_not (fun b => decide (lo a < lo b)) l hne
  rw [decide_eq_true_iff] at hlast
  have hfront := h.sublist (List.rdropWhile_prefix (p := fun b => lo a < lo b) (l := l)).sublist
  generalize (l.rdropWhile fun b => lo a < lo b) = front at hb hne hlast hfront
  obtain ⟨front, c, rfl⟩ := List.eq_nil_or_concat front |>.resolve_left hne
  rw [List.concat_eq_append] at hb hfront
  simp only [List.concat_eq_append, List.getLast_append_singleton] at hlast
  rcases List.mem_append.mp hb with hb | hb
  · have hbefore := (List.pairwise_append.mp hfront.pairwise).2.2 b hb c (List.mem_singleton_self c)
    have hproper := hfront.proper b (List.mem_append_left _ hb)
    omega
  · rw [List.mem_singleton] at hb
    rw [hb]
    exact not_lt.mp hlast

lemma insert_perm (a : α) (l : List α) : (insert lo a l).Perm (a :: l) := by
  have hl : (l.rdropWhile fun b => lo a < lo b) ++ (l.rtakeWhile fun b => lo a < lo b) = l :=
    List.rdropWhile_append_rtakeWhile ..
  rw [insert]
  refine List.perm_middle.trans ?_
  rw [hl]

/-- Insertion from the right keeps the order. -/
theorem insert_apart {a : α} (h : Apart lo hi l) (ha : lo a < hi a)
    (hapart : ∀ b ∈ l, hi b ≤ lo a ∨ hi a ≤ lo b) : Apart lo hi (insert lo a l) := by
  have hl : (l.rdropWhile fun b => lo a < lo b) ++ (l.rtakeWhile fun b => lo a < lo b) = l :=
    List.rdropWhile_append_rtakeWhile ..
  have hfront : ∀ b ∈ l.rdropWhile fun b => lo a < lo b, hi b ≤ lo a := by
    intro b hb
    have hle := lo_le_of_mem_rdropWhile h hb
    have hmem : b ∈ l := hl ▸ List.mem_append_left _ hb
    rcases hapart b hmem with hbefore | hbehind
    · exact hbefore
    · omega
  have hback : ∀ b ∈ l.rtakeWhile fun b => lo a < lo b, hi a ≤ lo b := by
    intro b hb
    have hlt : lo a < lo b :=
      of_decide_eq_true (List.mem_rtakeWhile_imp (p := fun b => lo a < lo b) hb)
    have hmem : b ∈ l := hl ▸ List.mem_append_right _ hb
    have hproper := h.proper b hmem
    rcases hapart b hmem with hbefore | hbehind
    · omega
    · exact hbehind
  constructor
  · intro b hb
    rcases List.mem_cons.mp ((insert_perm a l).mem_iff.mp hb) with rfl | hb
    · exact ha
    · exact h.proper b hb
  · have hpair := h.pairwise
    rw [← hl, List.pairwise_append] at hpair
    obtain ⟨hpfront, hpback, hcross⟩ := hpair
    rw [insert, List.pairwise_append, List.pairwise_cons]
    refine ⟨hpfront, ⟨hback, hpback⟩, fun b hb c hc => ?_⟩
    rcases List.mem_cons.mp hc with rfl | hc
    · exact hfront b hb
    · exact hcross b hb c hc

end Ranges
