import Mathlib.Tactic

/-!
The first place where one list stands in another.

* `find`: the search from the front.
* `find_eq_some_iff`, `find_eq_none_iff`: what it finds.
* `find_append`, `find_take`: a list read further keeps what was found in it, and a shorter front
  has it as soon as it fits.
* `find_marked`: a key that ends with a mark is found only in front of a mark.
* `takeWhile_mark`, `dropWhile_mark`: a list up to the first mark, and from it on.
-/

namespace Search

variable {α : Type*} [DecidableEq α]

/-- Where `needle` first stands in a list. -/
def find (needle : List α) : List α → Option ℕ
  | [] => if needle = [] then some 0 else none
  | c :: s => if needle <+: c :: s then some 0 else (find needle s).map (· + 1)

variable {n s t : List α} {i : ℕ}

/-- `needle` stands at a place. -/
def At (n s : List α) (i : ℕ) : Prop := n <+: s.drop i

instance (n s : List α) (i : ℕ) : Decidable (At n s i) :=
  inferInstanceAs (Decidable (n <+: s.drop i))

omit [DecidableEq α] in
lemma At.le_length (h : At n s i) (hn : n ≠ []) : i + n.length ≤ s.length := by
  have hlen := h.length_le
  have hpos := List.length_pos_iff.mpr hn
  rw [List.length_drop] at hlen
  omega

omit [DecidableEq α] in
/-- Element by element. -/
lemma At.getElem? (h : At n s i) {j : ℕ} (hj : j < n.length) : s[i + j]? = n[j]? := by
  obtain ⟨t, ht⟩ := h
  rw [← List.getElem?_drop, ← ht, List.getElem?_append_left hj]

omit [DecidableEq α] in
lemma At.append (h : At n s i) (hn : n ≠ []) (t : List α) : At n (s ++ t) i := by
  have hle := h.le_length hn
  rw [At, List.drop_append_of_le_length (by omega)]
  exact h.trans (List.prefix_append _ _)

omit [DecidableEq α] in
/-- A place that does not reach into what is new was there before. -/
lemma At.of_append (h : At n (s ++ t) i) (hle : i + n.length ≤ s.length) : At n s i := by
  rw [At, List.drop_append_of_le_length (by omega)] at h
  exact List.prefix_of_prefix_length_le h (List.prefix_append _ _)
    (by rw [List.length_drop]; omega)

theorem find_eq_some_iff : find n s = some i ↔ At n s i ∧ ∀ j < i, ¬ At n s j := by
  induction s generalizing i with
  | nil =>
    have hat : ∀ j, At n ([] : List α) j ↔ n = [] := fun j => by
      rw [At, List.drop_nil, List.prefix_nil]
    simp only [find, hat]
    split_ifs with hn
    · simp only [Option.some.injEq, hn, not_true, true_and]
      refine ⟨fun h => h ▸ fun j hj => absurd hj (Nat.not_lt_zero j), fun h => ?_⟩
      by_contra hi
      exact h 0 (Nat.pos_of_ne_zero (Ne.symm hi))
    · simp [hn]
  | cons c s ih =>
    rw [find]
    split_ifs with hfront
    · have hzero : At n (c :: s) 0 := hfront
      constructor
      · intro h
        obtain rfl := Option.some.inj h
        exact ⟨hzero, fun j hj => absurd hj (Nat.not_lt_zero j)⟩
      · intro h
        by_contra hi
        exact h.2 0 (Nat.pos_of_ne_zero fun h0 => hi (by rw [h0])) hzero
    · cases i with
      | zero =>
        refine iff_of_false (by simp) fun h => hfront ?_
        exact h.1
      | succ i =>
        rw [Option.map_eq_some_iff]
        constructor
        · rintro ⟨j, hj, hji⟩
          obtain rfl : j = i := by omega
          obtain ⟨hat, hbefore⟩ := ih.mp hj
          refine ⟨hat, fun k hk => ?_⟩
          cases k with
          | zero => exact hfront
          | succ k => exact hbefore k (by omega)
        · rintro ⟨hat, hbefore⟩
          exact ⟨i, ih.mpr ⟨hat, fun k hk => hbefore (k + 1) (by omega)⟩, rfl⟩

theorem find_eq_none_iff : find n s = none ↔ ∀ i, ¬ At n s i := by
  constructor
  · intro h i hi
    obtain ⟨j, hj, hmin⟩ : ∃ j, At n s j ∧ ∀ k < j, ¬ At n s k :=
      ⟨Nat.find ⟨i, hi⟩, Nat.find_spec ⟨i, hi⟩, fun k hk => Nat.find_min ⟨i, hi⟩ hk⟩
    rw [find_eq_some_iff.mpr ⟨hj, hmin⟩] at h
    cases h
  · intro h
    cases hf : find n s with
    | none => rfl
    | some i => exact absurd (find_eq_some_iff.mp hf).1 (h i)

lemma find_le_length (hn : n ≠ []) (h : find n s = some i) : i + n.length ≤ s.length :=
  (find_eq_some_iff.mp h).1.le_length hn

/-- What was found stays the first place. -/
theorem find_append (hn : n ≠ []) (h : find n s = some i) (t : List α) :
    find n (s ++ t) = some i := by
  obtain ⟨hat, hbefore⟩ := find_eq_some_iff.mp h
  have hle := hat.le_length hn
  exact find_eq_some_iff.mpr ⟨hat.append hn t, fun j hj h' =>
    hbefore j hj (h'.of_append (by omega))⟩

/-- A shorter front in which the place does not fit has none. -/
theorem find_take (hn : n ≠ []) (h : find n s = some i) (k : ℕ) :
    find n (s.take k) = if i + n.length ≤ k then some i else none := by
  obtain ⟨hat, hbefore⟩ := find_eq_some_iff.mp h
  have hle := hat.le_length hn
  have hback : ∀ j, At n (s.take k) j → At n s j := fun j hj => by
    have hj' := hj.append hn (s.drop k)
    rwa [List.take_append_drop] at hj'
  split_ifs with hk
  · refine find_eq_some_iff.mpr ⟨?_, fun j hj h' => hbefore j hj (hback j h')⟩
    rw [← List.take_append_drop k s] at hat
    exact hat.of_append (by rw [List.length_take]; omega)
  · refine find_eq_none_iff.mpr fun j hj => ?_
    have hj' := hj.le_length hn
    rw [List.length_take] at hj'
    exact hbefore j (by omega) (hback j hj)

/-- In front of the place nothing of it is lost. -/
theorem find_skip (u : List α) (hu : ∀ j < u.length, ¬ At n (u ++ s) j) :
    find n (u ++ s) = (find n s).map (u.length + ·) := by
  induction u with
  | nil => simp
  | cons c u ih =>
    have hfront : ¬ n <+: c :: (u ++ s) := hu 0 (by simp)
    rw [List.cons_append, find, if_neg hfront, ih fun j hj h => hu (j + 1) (by simpa using hj) h,
      Option.map_map]
    congr 1
    funext j
    simp only [Function.comp_apply, List.length_cons]
    omega

/-- Where the first element of `needle` is missing it does not start. -/
theorem find_skip_of_not_mem {a : α} (u : List α) (ha : a ∉ u) :
    find (a :: n) (u ++ s) = (find (a :: n) s).map (u.length + ·) := by
  refine find_skip u fun j hj h => ha ?_
  rw [At, List.drop_append_of_le_length (by omega), List.drop_eq_getElem_cons hj,
    List.cons_append, List.cons_prefix_cons] at h
  exact h.1 ▸ List.getElem_mem hj

/-- What stands in front is found there. -/
theorem find_self (hn : n ≠ []) (t : List α) : find n (n ++ t) = some 0 := by
  obtain ⟨a, n, rfl⟩ := List.exists_cons_of_ne_nil hn
  rw [List.cons_append, find, if_pos (by rw [← List.cons_append]; exact List.prefix_append _ _)]

/-- A key that ends with a mark it does not contain is found only in front of a mark. -/
theorem find_marked {k u : List α} {q : α} (hk : q ∉ k) (hu : q ∉ u) (s : List α) :
    find (k ++ [q]) (u ++ q :: s) =
      if k <:+ u then some (u.length - k.length)
      else (find (k ++ [q]) s).map ((u.length + 1) + ·) := by
  have hlen : (k ++ [q]).length = k.length + 1 := by simp
  have hmark : (k ++ [q])[k.length]? = some q := by simp
  -- the mark of a place is not in `u`, and the mark behind `u` is not in the key
  have hat : ∀ {j}, At (k ++ [q]) (u ++ q :: s) j → j ≤ u.length → j + k.length = u.length := by
    intro j h hj
    rcases lt_trichotomy (j + k.length) u.length with hlt | heq | hgt
    · have hq := (h.getElem? (j := k.length) (by omega)).trans hmark
      rw [List.getElem?_append_left hlt] at hq
      exact absurd (List.mem_of_getElem? hq) hu
    · exact heq
    · have hq := h.getElem? (j := u.length - j) (by omega)
      rw [Nat.add_sub_cancel' hj, List.getElem?_append_right le_rfl, Nat.sub_self,
        List.getElem?_cons_zero, List.getElem?_append_left (by omega)] at hq
      exact absurd (List.mem_of_getElem? hq.symm) hk
  split_ifs with hsuffix
  · obtain ⟨v, rfl⟩ := hsuffix
    refine find_eq_some_iff.mpr ⟨?_, fun j hj h => ?_⟩
    · rw [At, List.length_append, Nat.add_sub_cancel, List.append_assoc, List.drop_left]
      exact ⟨s, by rw [List.append_assoc]; rfl⟩
    · have := hat h (by rw [List.length_append] at hj ⊢; omega)
      omega
  · have hskip : u ++ q :: s = (u ++ [q]) ++ s := by rw [List.append_assoc]; rfl
    have hlen' : (u ++ [q]).length = u.length + 1 := by simp
    rw [hskip, find_skip, hlen']
    intro j hj h
    rw [← hskip] at h
    have heq := hat h (by omega)
    refine hsuffix ?_
    obtain ⟨t, ht⟩ := h
    have hdrop : (u ++ q :: s).drop j = u.drop j ++ q :: s :=
      List.drop_append_of_le_length (by omega)
    rw [hdrop, List.append_assoc] at ht
    have hk' : k = u.drop j := (List.append_inj ht (by rw [List.length_drop]; omega)).1
    rw [hk']
    exact List.drop_suffix _ _

/-! ### Up to a mark -/

lemma takeWhile_mark {q : α} {u : List α} (hu : q ∉ u) (s : List α) :
    (u ++ q :: s).takeWhile (· ≠ q) = u := by
  rw [List.takeWhile_append_of_pos fun a ha => by simpa using fun h : a = q => hu (h ▸ ha),
    List.takeWhile_cons_of_neg (by simp), List.append_nil]

lemma dropWhile_mark {q : α} {u : List α} (hu : q ∉ u) (s : List α) :
    (u ++ q :: s).dropWhile (· ≠ q) = q :: s := by
  rw [List.dropWhile_append_of_pos fun a ha => by simpa using fun h : a = q => hu (h ▸ ha),
    List.dropWhile_cons_of_neg (by simp)]

end Search
