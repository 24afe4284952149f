import Mathlib.Data.List.Basic
import Mathlib.Tactic

/-!
Form-encoded queries: parameters `name=text` with `'&'` between them, their texts escaped.

* `Encodes`: a text escapes some bytes as `"%XX"` and stands for the others itself.
* `decode`, `decode_of_encodes`: what a text stands for, `'+'` for a blank.
* `Carries`: the first parameter of a name in a query, and its text.
-/

namespace Query

/-- `'&'`, `'+'` and `'%'`. -/
abbrev amp : UInt8 := 0x26
abbrev plus : UInt8 := 0x2B
abbrev percent : UInt8 := 0x25

/-! ### Escapes -/

/-- A digit of an escape. -/
def isHex (b : UInt8) : Bool :=
  (0x30 ≤ b && b ≤ 0x39) || (0x41 ≤ b && b ≤ 0x46) || (0x61 ≤ b && b ≤ 0x66)

/-- The value of a digit. -/
def hexValue (b : UInt8) : ℕ :=
  if b ≤ 0x39 then b.toNat - 0x30 else if b ≤ 0x46 then b.toNat - 0x37 else b.toNat - 0x57

/-- The byte that an escape stands for. -/
def escaped (x y : UInt8) : UInt8 := UInt8.ofNat (hexValue x * 16 + hexValue y)

/-- What a text stands for; a `'%'` without two digits behind it for itself. -/
def decode : List UInt8 → List UInt8
  | [] => []
  | b :: s =>
    if b = plus then 0x20 :: decode s
    else
      match s with
      | x :: y :: t =>
        if b = percent ∧ isHex x ∧ isHex y then escaped x y :: decode t
        else b :: decode (x :: y :: t)
      | s => b :: decode s

/-- The text is a percent-encoding of the bytes. -/
inductive Encodes : List UInt8 → List UInt8 → Prop
  | nil : Encodes [] []
  | escape {x y b : UInt8} {s v : List UInt8} (hx : isHex x) (hy : isHex y)
      (hb : escaped x y = b) (h : Encodes s v) : Encodes (percent :: x :: y :: s) (b :: v)
  | literal {b : UInt8} {s v : List UInt8} (hpercent : b ≠ percent) (hplus : b ≠ plus)
      (hamp : b ≠ amp) (h : Encodes s v) : Encodes (b :: s) (b :: v)

lemma decode_plus (s : List UInt8) : decode (plus :: s) = 0x20 :: decode s := by
  rw [decode.eq_def]
  rfl

lemma decode_escape {x y : UInt8} (hx : isHex x) (hy : isHex y) (s : List UInt8) :
    decode (percent :: x :: y :: s) = escaped x y :: decode s := by
  rw [decode.eq_def]
  dsimp only
  rw [if_neg (by decide), if_pos ⟨rfl, hx, hy⟩]

/-- Two digits stand in front. -/
def Digits (s : List UInt8) : Prop := ∃ x y t, s = x :: y :: t ∧ isHex x ∧ isHex y

lemma decode_cons {b : UInt8} {s : List UInt8} (hplus : b ≠ plus)
    (h : ¬ (b = percent ∧ Digits s)) : decode (b :: s) = b :: decode s := by
  rw [decode.eq_def]
  dsimp only
  rw [if_neg hplus]
  split
  · rw [if_neg fun hdig => h ⟨hdig.1, _, _, _, rfl, hdig.2⟩]
  · rfl

/-- The three ways in which a text goes on. -/
theorem decode_induction {motive : List UInt8 → Prop} (nil : motive [])
    (plus : ∀ s, motive s → motive (plus :: s))
    (escape : ∀ x y s, isHex x → isHex y → motive s → motive (percent :: x :: y :: s))
    (other : ∀ b s, b ≠ Query.plus → ¬ (b = percent ∧ Digits s) → motive s → motive (b :: s))
    (s : List UInt8) : motive s := by
  induction hn : s.length using Nat.strong_induction_on generalizing s with
  | _ n ih =>
    cases s with
    | nil => exact nil
    | cons b s =>
      have hshort : ∀ t, t.length ≤ s.length → motive t := fun t ht =>
        ih t.length (by rw [← hn, List.length_cons]; omega) t rfl
      by_cases hplus : b = Query.plus
      · rw [hplus]
        exact plus s (hshort s le_rfl)
      · by_cases hdig : b = percent ∧ Digits s
        · obtain ⟨rfl, x, y, t, rfl, hx, hy⟩ := hdig
          exact escape x y t hx hy (hshort t (by simp only [List.length_cons]; omega))
        · exact other b s hplus hdig (hshort s le_rfl)

/-- An encoded text stands for the bytes that it encodes. -/
theorem decode_of_encodes {s v : List UInt8} (h : Encodes s v) : decode s = v := by
  induction h with
  | nil => rfl
  | escape hx hy hb _ ih => rw [decode_escape hx hy, hb, ih]
  | literal hpercent hplus _ _ ih => rw [decode_cons hplus fun h => hpercent h.1, ih]

/-! ### Parameters -/

/-- The front of a parameter of that name. -/
def front (name : List UInt8) : List UInt8 := name ++ [0x3D]

/-- The first parameter of that name in a query has that text. -/
inductive Carries (name : List UInt8) : List UInt8 → List UInt8 → Prop
  | last {text : List UInt8} (h : amp ∉ text) : Carries name (front name ++ text) text
  | here {text rest : List UInt8} (h : amp ∉ text) :
      Carries name (front name ++ text ++ amp :: rest) text
  | there {param rest text : List UInt8} (hamp : amp ∉ param) (hother : ¬ front name <+: param)
      (h : Carries name rest text) : Carries name (param ++ amp :: rest) text

end Query
