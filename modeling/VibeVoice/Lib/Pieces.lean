import Mathlib.Tactic

/-!
A list cut into pieces of one length, with what is left over at the end.

* `pieces`, `leftover`: the two parts.
* `piece_induct`: a list is shorter than a piece, or has one in front.
* `pieces_append`, `leftover_append`: more elements complete what was left over.
-/

namespace Pieces

variable {α β : Type*}

/-- The pieces of `k` elements that a list has in front. -/
def pieces (k : ℕ) (s : List α) : List (List α) :=
  (List.range (s.length / k)).map fun i => (s.drop (k * i)).take k

/-- What is behind the complete pieces. -/
def leftover (k : ℕ) (s : List α) : List α := s.drop (k * (s.length / k))

lemma length_leftover {k : ℕ} (hk : 0 < k) (s : List α) :
    (leftover k s).length < k := by
  rw [leftover, List.length_drop]
  calc s.length - k * (s.length / k) = s.length % k := by
        have := Nat.div_add_mod s.length k
        omega
    _ < k := Nat.mod_lt _ hk

lemma pieces_short {k : ℕ} {s : List α} (h : s.length < k) : pieces k s = [] := by
  rw [pieces, Nat.div_eq_of_lt h]
  rfl

lemma length_of_mem_pieces {k : ℕ} {s b : List α} (hb : b ∈ pieces k s) : b.length = k := by
  obtain ⟨i, hi, rfl⟩ := List.mem_map.mp hb
  have hle := Nat.mul_le_of_le_div k (i + 1) s.length (List.mem_range.mp hi)
  rw [List.length_take, List.length_drop, min_eq_left]
  rw [Nat.add_mul, Nat.one_mul, Nat.mul_comm] at hle
  omega

lemma leftover_short {k : ℕ} {s : List α} (h : s.length < k) :
    leftover k s = s := by
  rw [leftover, Nat.div_eq_of_lt h]
  rfl

/-- The first piece, and the pieces behind it. -/
lemma pieces_eq_cons {k : ℕ} (hk : 0 < k) {s : List α} (hle : k ≤ s.length) :
    pieces k s = s.take k :: pieces k (s.drop k) := by
  have hdiv : s.length / k = (s.drop k).length / k + 1 := by
    rw [List.length_drop, Nat.div_eq_sub_div hk hle]
  rw [pieces, hdiv, List.range_succ_eq_map, List.map_cons, List.map_map, pieces]
  congr 1
  refine List.map_congr_left fun i _ => ?_
  rw [Function.comp_apply, List.drop_drop, Nat.succ_eq_add_one, Nat.mul_add, Nat.mul_one,
    Nat.add_comm]

lemma leftover_drop {k : ℕ} (hk : 0 < k) {s : List α} (hle : k ≤ s.length) :
    leftover k s = leftover k (s.drop k) := by
  rw [leftover, leftover, List.drop_drop, List.length_drop, Nat.div_eq_sub_div hk hle]
  congr 1
  ring

/-- Less than a piece, or one in front of the rest. -/
lemma piece_induct {k : ℕ} (hk : 0 < k) {P : List α → Prop}
    (short : ∀ a, a.length < k → P a) (long : ∀ a, k ≤ a.length → P (a.drop k) → P a)
    (a : List α) : P a := by
  induction hn : a.length using Nat.strong_induction_on generalizing a with
  | _ n ih =>
    by_cases hle : k ≤ a.length
    · exact long a hle (ih _ (by rw [List.length_drop]; omega) _ rfl)
    · exact short a (by omega)

/-- More s complete what was left over. -/
lemma pieces_append {k : ℕ} (hk : 0 < k) (a b : List α) :
    pieces k (a ++ b) = pieces k a ++ pieces k (leftover k a ++ b) := by
  induction a using piece_induct hk with
  | short a hlt => rw [pieces_short hlt, leftover_short hlt, List.nil_append]
  | long a hle ih =>
    have hab : k ≤ (a ++ b).length := by rw [List.length_append]; omega
    rw [pieces_eq_cons hk hab, pieces_eq_cons hk hle, leftover_drop hk hle,
      List.take_append_of_le_length hle, List.drop_append_of_le_length hle, ih,
      List.cons_append]

lemma leftover_append {k : ℕ} (hk : 0 < k) (a b : List α) :
    leftover k (a ++ b) = leftover k (leftover k a ++ b) := by
  induction a using piece_induct hk with
  | short a hlt => rw [leftover_short hlt]
  | long a hle ih =>
    have hab : k ≤ (a ++ b).length := by rw [List.length_append]; omega
    rw [leftover_drop hk hab, leftover_drop hk hle, List.drop_append_of_le_length hle, ih]

end Pieces
