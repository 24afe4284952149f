import Mathlib.Data.List.Basic
import Mathlib.Data.List.OfFn

/-!
Ring buffers that overwrite their oldest element.

* `Ring.toList`: the elements of a ring, oldest first.
* `toList_push`, `toList_pushAll`: a ring holds the last elements of what was put into it.
-/

namespace VibeVoice

/-- A ring: its cells, where the next element goes, and how many it holds.  The cells may hold
anything before they are written. -/
structure Ring (α : Type*) where
  slots : List α
  head : ℕ
  len : ℕ
  head_lt : head < slots.length
  len_le : len ≤ slots.length

namespace Ring

variable {α : Type*}

/-- How many elements a ring can hold. -/
def cap (r : Ring α) : ℕ := r.slots.length

lemma cap_pos (r : Ring α) : 0 < r.cap := Nat.zero_lt_of_lt r.head_lt

/-- The cell of element `i`, oldest first. -/
def place (r : Ring α) (i : ℕ) : ℕ := ((r.head + r.cap - r.len) % r.cap + i) % r.cap

lemma place_lt (r : Ring α) (i : ℕ) : r.place i < r.slots.length := Nat.mod_lt _ r.cap_pos

/-- The elements, oldest first. -/
def toList (r : Ring α) : List α :=
  List.ofFn fun i : Fin r.len => r.slots.get ⟨r.place i, r.place_lt i⟩

/-- No element. -/
def clear (r : Ring α) : Ring α := { r with len := 0, len_le := Nat.zero_le _ }

/-- One more element; a full ring loses its oldest one. -/
def push (r : Ring α) (x : α) : Ring α where
  slots := r.slots.set r.head x
  head := (r.head + 1) % r.cap
  len := min (r.len + 1) r.cap
  head_lt := by
    rw [List.length_set]
    exact Nat.mod_lt _ r.cap_pos
  len_le := by
    rw [List.length_set]
    exact Nat.min_le_right _ _

/-- Elements one after the other. -/
def pushAll (r : Ring α) (xs : List α) : Ring α := xs.foldl push r

@[simp]
lemma length_toList (r : Ring α) : r.toList.length = r.len := List.length_ofFn

@[simp]
lemma cap_push (r : Ring α) (x : α) : (r.push x).cap = r.cap := List.length_set

lemma getElem?_toList {r : Ring α} {i : ℕ} (hi : i < r.len) :
    r.toList[i]? = r.slots[r.place i]? := by
  rw [List.getElem?_eq_getElem (by rwa [length_toList]), List.getElem?_eq_getElem (r.place_lt i)]
  exact congrArg some (List.getElem_ofFn _)

/-- A remainder below twice the divisor. -/
lemma mod_eq_ite {n c : ℕ} (h : n < 2 * c) : n % c = if n < c then n else n - c := by
  split_ifs with hlt
  · exact Nat.mod_eq_of_lt hlt
  · rw [Nat.mod_eq_sub_mod (not_lt.mp hlt), Nat.mod_eq_of_lt (by omega)]

lemma place_eq {r : Ring α} {i : ℕ} (hi : i < r.len) :
    r.place i = if r.len ≤ r.head + i then r.head + i - r.len
      else r.head + i + r.cap - r.len := by
  have hhead : r.head < r.cap := r.head_lt
  have hlen : r.len ≤ r.cap := r.len_le
  rw [place, mod_eq_ite (n := r.head + r.cap - r.len) (by omega)]
  rw [mod_eq_ite (by split_ifs <;> omega)]
  split_ifs <;> omega

/-- A ring holds the last elements of what it held and the new one. -/
theorem toList_push (r : Ring α) (x : α) :
    (r.push x).toList = (r.toList ++ [x]).drop (r.len + 1 - r.cap) := by
  have hhead : r.head < r.cap := r.head_lt
  have hlen : r.len ≤ r.cap := r.len_le
  have hpush : (r.push x).len = min (r.len + 1) r.cap := rfl
  have hnext : (r.push x).head = if r.head + 1 < r.cap then r.head + 1 else r.head + 1 - r.cap :=
    mod_eq_ite (by omega)
  refine List.ext_getElem? fun i => ?_
  rw [List.getElem?_drop]
  rcases Nat.lt_or_ge i (r.push x).len with hi | hi
  · have hplace := place_eq hi
    rw [cap_push, hnext, hpush] at hplace
    rw [getElem?_toList hi]
    rcases Nat.lt_or_ge (i + 1) (r.push x).len with hlast | hlast
    · -- an element that was there
      have hold : r.len + 1 - r.cap + i < r.len := by omega
      have hplace' := place_eq hold
      have hsame : (r.push x).place i = r.place (r.len + 1 - r.cap + i) := by
        rw [hplace, hplace']
        split_ifs <;> omega
      have hne : r.head ≠ r.place (r.len + 1 - r.cap + i) := by
        rw [hplace']
        split_ifs <;> omega
      rw [List.getElem?_append_left (by rwa [length_toList]), getElem?_toList hold, hsame]
      exact List.getElem?_set_ne hne
    · -- the new element
      have hat : (r.push x).place i = r.head := by
        rw [hplace]
        split_ifs <;> omega
      have hindex : r.len + 1 - r.cap + i = r.toList.length := by
        rw [length_toList]
        omega
      rw [hat, hindex, List.getElem?_concat_length]
      exact List.getElem?_set_self r.head_lt
  · rw [List.getElem?_eq_none (by rwa [length_toList]), List.getElem?_eq_none]
    rw [List.length_append, length_toList, List.length_singleton]
    omega

/-- A ring holds the last elements of what it held and what was put into it. -/
theorem toList_pushAll (r : Ring α) (xs : List α) :
    (r.pushAll xs).toList = (r.toList ++ xs).drop (r.len + xs.length - r.cap) := by
  induction xs generalizing r with
  | nil =>
    have hlen : r.len - r.cap = 0 := Nat.sub_eq_zero_of_le r.len_le
    rw [List.length_nil, Nat.add_zero, hlen, List.drop_zero, List.append_nil, pushAll,
      List.foldl_nil]
  | cons x xs ih =>
    have hlen : r.len ≤ r.cap := r.len_le
    have hpush : (r.push x).len = min (r.len + 1) r.cap := rfl
    calc (r.pushAll (x :: xs)).toList = ((r.push x).pushAll xs).toList := rfl
      _ = ((r.toList ++ [x]).drop (r.len + 1 - r.cap) ++ xs).drop
            ((r.push x).len + xs.length - r.cap) := by rw [ih, toList_push, cap_push]
      _ = ((r.toList ++ [x] ++ xs).drop (r.len + 1 - r.cap)).drop
            ((r.push x).len + xs.length - r.cap) := by
          have hle : r.len + 1 - r.cap ≤ (r.toList ++ [x]).length := by
            rw [List.length_append, length_toList, List.length_singleton]
            omega
          rw [List.drop_append_of_le_length hle]
      _ = (r.toList ++ x :: xs).drop (r.len + (x :: xs).length - r.cap) := by
          rw [List.drop_drop, List.append_assoc, List.singleton_append, List.length_cons, hpush]
          congr 1
          omega

/-- What is put in last is held. -/
lemma mem_pushAll {r : Ring α} {xs : List α} {x : α} (h : xs.getLast? = some x) :
    x ∈ (r.pushAll xs).toList := by
  obtain ⟨ys, rfl⟩ := List.getLast?_eq_some_iff.mp h
  have hcap := r.cap_pos
  have hlen : r.len ≤ r.cap := r.len_le
  rw [toList_pushAll, ← List.append_assoc, List.drop_append_of_le_length]
  · exact List.mem_append_right _ (List.mem_singleton_self x)
  · simp only [List.length_append, length_toList, List.length_singleton]
    omega

end Ring

end VibeVoice
