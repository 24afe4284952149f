import Mathlib.Tactic

/-!
Base64 as RFC 4648 defines it: the decoder.

* `digit`: the value of a character.
* `decode`: groups of four characters, the last with padding.
-/

namespace Base64

/-- The value of a character of the alphabet. -/
def digit (c : UInt8) : Option ℕ :=
  if 0x41 ≤ c ∧ c ≤ 0x5A then some (c.toNat - 0x41)
  else if 0x61 ≤ c ∧ c ≤ 0x7A then some (c.toNat - 0x61 + 26)
  else if 0x30 ≤ c ∧ c ≤ 0x39 then some (c.toNat - 0x30 + 52)
  else if c = 0x2B then some 62
  else if c = 0x2F then some 63
  else none

/-- `'='` -/
def padding : UInt8 := 0x3D

/-- The value of a group of digits, most significant first. -/
def value (ds : List ℕ) : ℕ := ds.foldl (fun v d => v * 64 + d) 0

/-- The `n` highest bytes of a group of 24 bits. -/
def group (n v : ℕ) : List UInt8 :=
  ([v >>> 16, v >>> 8, v].take n).map UInt8.ofNat

/-- A group of four characters of which the last ones may be padding: its bytes. -/
def decodeGroup (last : Bool) (a b c d : UInt8) : Option (List UInt8) :=
  if last ∧ c = padding ∧ d = padding then
    match digit a, digit b with
    | some a, some b => some (group 1 (value [a, b, 0, 0]))
    | _, _ => none
  else if last ∧ d = padding then
    match digit a, digit b, digit c with
    | some a, some b, some c => some (group 2 (value [a, b, c, 0]))
    | _, _, _ => none
  else
    match digit a, digit b, digit c, digit d with
    | some a, some b, some c, some d => some (group 3 (value [a, b, c, d]))
    | _, _, _, _ => none

/-- The bytes of a text, `none` for one that is not in base64. -/
def decode : List UInt8 → Option (List UInt8)
  | [] => some []
  | a :: b :: c :: d :: s =>
    match decodeGroup s.isEmpty a b c d, decode s with
    | some front, some rest => some (front ++ rest)
    | _, _ => none
  | _ => none

end Base64
