import Mathlib.Logic.Function.Basic
import Mathlib.Tactic

/-!
Cells on a circle, between a tail and a head that both move forward.

* `fill`, `contents`: how many cells lie between them, and what is in them.
* `contents_pop`, `contents_push`: the two moves.
* `contents_update`: a store at the head is not seen.
-/

namespace Circle

variable {α : Type*} {cap tail head : ℕ}

/-- How many cells lie from the tail up to the head. -/
def fill (cap tail head : ℕ) : ℕ := if tail ≤ head then head - tail else head + cap - tail

/-- What is in them, the oldest first. -/
def contents (cap : ℕ) (ring : ℕ → α) (tail head : ℕ) : List α :=
  (List.range (fill cap tail head)).map fun i => ring ((tail + i) % cap)

lemma fill_lt (htail : tail < cap) (hhead : head < cap) : fill cap tail head < cap := by
  rw [fill]
  split_ifs <;> omega

lemma fill_self (cap tail : ℕ) : fill cap tail tail = 0 := by
  rw [fill, if_pos le_rfl, Nat.sub_self]

lemma contents_self (cap : ℕ) (ring : ℕ → α) (tail : ℕ) : contents cap ring tail tail = [] := by
  rw [contents, fill_self]
  rfl

/-- The next cell. -/
lemma succ_mod (h : tail < cap) : (tail + 1) % cap = if tail + 1 = cap then 0 else tail + 1 := by
  split_ifs with heq
  · rw [heq, Nat.mod_self]
  · exact Nat.mod_eq_of_lt (by omega)

/-- A cell behind the tail. -/
lemma add_mod (htail : tail < cap) {i : ℕ} (hi : i < cap) :
    (tail + i) % cap = if tail + i < cap then tail + i else tail + i - cap := by
  split_ifs with hlt
  · exact Nat.mod_eq_of_lt hlt
  · rw [Nat.mod_eq_sub_mod (not_lt.mp hlt), Nat.mod_eq_of_lt (by omega)]

/-- The tail moves over the oldest cell. -/
lemma contents_pop (htail : tail < cap) (hhead : head < cap) (hne : tail ≠ head) (ring : ℕ → α) :
    contents cap ring tail head = ring tail :: contents cap ring ((tail + 1) % cap) head := by
  have hfill : fill cap tail head = fill cap ((tail + 1) % cap) head + 1 := by
    rw [succ_mod htail, fill, fill]
    split_ifs <;> omega
  rw [contents, contents, hfill, List.range_succ_eq_map, List.map_cons, List.map_map,
    Nat.add_zero, Nat.mod_eq_of_lt htail]
  refine congrArg _ (List.map_congr_left fun i _ => congrArg ring ?_)
  show (tail + (i + 1)) % cap = ((tail + 1) % cap + i) % cap
  rw [Nat.mod_add_mod, Nat.add_assoc, Nat.add_comm 1 i]

/-- The head moves over one more cell. -/
lemma contents_push (htail : tail < cap) (hhead : head < cap) (hne : (head + 1) % cap ≠ tail)
    (ring : ℕ → α) :
    contents cap ring tail ((head + 1) % cap) = contents cap ring tail head ++ [ring head] := by
  have hlt := fill_lt htail hhead
  have hfill : fill cap tail ((head + 1) % cap) = fill cap tail head + 1 := by
    rw [succ_mod hhead] at hne ⊢
    rw [fill, fill]
    split_ifs at hne ⊢ <;> omega
  have hlast : (tail + fill cap tail head) % cap = head := by
    rw [add_mod htail hlt, fill]
    split_ifs <;> omega
  rw [contents, contents, hfill, List.range_succ, List.map_append, List.map_singleton, hlast]

/-- A store at the head is not between the two. -/
lemma contents_update (htail : tail < cap) (hhead : head < cap) (ring : ℕ → α) (x : α) :
    contents cap (Function.update ring head x) tail head = contents cap ring tail head := by
  refine List.map_congr_left fun i hi => Function.update_of_ne ?_ _ _
  have hlt := fill_lt htail hhead
  have hi : i < fill cap tail head := List.mem_range.mp hi
  rw [add_mod htail (hi.trans hlt)]
  rw [fill] at hi hlt
  split_ifs at hi hlt ⊢ <;> omega

end Circle
