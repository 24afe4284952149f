import Mathlib.Data.List.Basic
import Mathlib.Tactic.Linarith

/-!
The part of a stream that is still at hand: its end, from an absolute place on.

* `History.Of`: a history is the end of what has arrived.
* `Of.push`, `Of.drop`: more arrives behind it, and its front is given up.
* `Of.read`: a place that has not been given up is read as in the whole stream.
-/

namespace VibeVoice

variable {α β : Type*}

/-- The elements from place `base` on. -/
structure History (α : Type*) where
  base : ℕ
  buf : List α

namespace History

/-- How much has arrived. -/
def arrived (h : History α) : ℕ := h.base + h.buf.length

/-- More arrives. -/
def push (h : History α) (xs : List α) : History α := { h with buf := h.buf ++ xs }

/-- The first `n` elements are given up, or all there are. -/
def drop (h : History α) (n : ℕ) : History α :=
  ⟨h.base + min n h.buf.length, h.buf.drop (min n h.buf.length)⟩

/-- The element at an absolute place. -/
def read (h : History α) (i : ℤ) : Option α :=
  if (h.base : ℤ) ≤ i then h.buf[(i - h.base).toNat]? else none

/-- The history is the end of `xs`. -/
structure Of (h : History α) (xs : List α) : Prop where
  base_le : h.base ≤ xs.length
  buf_eq : h.buf = xs.drop h.base

namespace Of

variable {h : History α} {xs : List α}

lemma all (xs : List α) : Of ⟨0, xs⟩ xs := ⟨Nat.zero_le _, rfl⟩

lemma arrived_eq (hh : h.Of xs) : h.arrived = xs.length := by
  have hle := hh.base_le
  rw [arrived, hh.buf_eq, List.length_drop]
  omega

lemma push (hh : h.Of xs) (ys : List α) : (h.push ys).Of (xs ++ ys) where
  base_le := by
    rw [List.length_append]
    exact hh.base_le.trans (Nat.le_add_right _ _)
  buf_eq := by
    rw [History.push, hh.buf_eq, List.drop_append_of_le_length hh.base_le]

lemma drop (hh : h.Of xs) (n : ℕ) : (h.drop n).Of xs where
  base_le := by
    have harrived := hh.arrived_eq
    rw [arrived] at harrived
    change h.base + min n h.buf.length ≤ xs.length
    omega
  buf_eq := by rw [History.drop, hh.buf_eq, List.drop_drop]

/-- What is at hand is read as in the whole stream. -/
lemma read (hh : h.Of xs) {i : ℕ} (hi : h.base ≤ i) : h.read i = xs[i]? := by
  rw [History.read, if_pos (Int.ofNat_le.mpr hi), hh.buf_eq, List.getElem?_drop]
  congr 1
  omega

end Of

end History

end VibeVoice
