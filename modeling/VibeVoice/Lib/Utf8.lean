import Mathlib.Tactic

/-!
Decoding UTF-8 with replacement.

`String.utf8EncodeChar` is the encoding of one character.  Decoding is specified against it: a
byte string decodes character by character, and where no encoded character starts, the longest
initial part of one (or a single byte) becomes `U+FFFD`.

* `DecodesReplace bs cs`: the bytes `bs` decode to the characters `cs`.
* `DecodesReplace.unique`: they decode in at most one way.
* `row`: the ranges of the bytes that may follow a lead byte, in the table of the well-formed
  byte sequences.
* `encode_prefix_iff`: the encoding is a prefix code; `prefix_encode` cuts an encoded text anywhere.
-/

namespace Utf8

open String

/-- The bytes of a list of characters. -/
def encode (cs : List Char) : List UInt8 := cs.flatMap utf8EncodeChar

@[simp] lemma encode_nil : encode [] = [] := rfl

@[simp] lemma encode_cons (c : Char) (cs : List Char) :
    encode (c :: cs) = utf8EncodeChar c ++ encode cs := rfl

@[simp] lemma encode_append (cs ds : List Char) : encode (cs ++ ds) = encode cs ++ encode ds :=
  List.flatMap_append

lemma encode_flatten (css : List (List Char)) :
    encode css.flatten = (css.map encode).flatten := by
  induction css with
  | nil => rfl
  | cons cs css ih => rw [List.flatten_cons, encode_append, ih, List.map_cons, List.flatten_cons]

lemma utf8EncodeChar_length_pos (c : Char) : 0 < (utf8EncodeChar c).length :=
  List.length_pos_iff.mpr utf8EncodeChar_ne_nil

/-- The bytes are the start of an encoded character. -/
def Initial (p : List UInt8) : Prop := ∃ c, p <+: utf8EncodeChar c

/-- No encoded character stands at the start of the bytes. -/
def NoChar (bs : List UInt8) : Prop := ∀ c, ¬ utf8EncodeChar c <+: bs

/-- `sub` is the maximal subpart at the start of `sub ++ rest`: one byte, or the start of an
encoded character, and no longer prefix is the start of one. -/
structure MaximalSubpart (sub rest : List UInt8) : Prop where
  nonempty : sub ≠ []
  small : sub.length = 1 ∨ Initial sub
  maximal : ∀ p, p <+: sub ++ rest → sub.length < p.length → ¬ Initial p

/-- The bytes decode to the characters, a maximal subpart that no character continues becoming
one `U+FFFD`. -/
inductive DecodesReplace : List UInt8 → List Char → Prop
  | nil : DecodesReplace [] []
  | char {c : Char} {bs : List UInt8} {cs : List Char} (h : DecodesReplace bs cs) :
      DecodesReplace (utf8EncodeChar c ++ bs) (c :: cs)
  | replace {sub rest : List UInt8} {cs : List Char} (hno : NoChar (sub ++ rest))
      (hsub : MaximalSubpart sub rest) (h : DecodesReplace rest cs) :
      DecodesReplace (sub ++ rest) ('\uFFFD' :: cs)

/-- What is encoded decodes to itself. -/
lemma decodesReplace_encode (cs : List Char) : DecodesReplace (encode cs) cs := by
  induction cs with
  | nil => exact .nil
  | cons c cs ih => exact .char ih

/-! ### The table -/

/-- The ranges of the bytes that follow a lead byte, `none` for a byte that leads nothing: the
second byte leaves out the overlong forms, the surrogates and what lies past `U+10FFFF`. -/
def row (b : ℕ) : Option (List (ℕ × ℕ)) :=
  if b < 0x80 then some []
  else if b < 0xC2 then none
  else if b < 0xE0 then some [(0x80, 0xBF)]
  else if b < 0xF0 then
    some [(if b = 0xE0 then 0xA0 else 0x80, if b = 0xED then 0x9F else 0xBF), (0x80, 0xBF)]
  else if b < 0xF5 then
    some [(if b = 0xF0 then 0x90 else 0x80, if b = 0xF4 then 0x8F else 0xBF), (0x80, 0xBF),
      (0x80, 0xBF)]
  else none

section Rows

variable {b : ℕ}

lemma row_one (h : b < 0x80) : row b = some [] := if_pos h

lemma row_two (h : 0xC2 ≤ b) (h' : b < 0xE0) : row b = some [(0x80, 0xBF)] := by
  rw [row, if_neg (by omega), if_neg (by omega), if_pos h']

lemma row_three (h : 0xE0 ≤ b) (h' : b < 0xF0) : row b =
    some [(if b = 0xE0 then 0xA0 else 0x80, if b = 0xED then 0x9F else 0xBF), (0x80, 0xBF)] := by
  rw [row, if_neg (by omega), if_neg (by omega), if_neg (by omega), if_pos h']

lemma row_four (h : 0xF0 ≤ b) (h' : b < 0xF5) : row b =
    some [(if b = 0xF0 then 0x90 else 0x80, if b = 0xF4 then 0x8F else 0xBF), (0x80, 0xBF),
      (0x80, 0xBF)] := by
  rw [row, if_neg (by omega), if_neg (by omega), if_neg (by omega), if_neg (by omega), if_pos h']

/-- A byte that leads something leads one to four bytes. -/
lemma row_cases {rs : List (ℕ × ℕ)} (h : row b = some rs) :
    b < 0x80 ∨ (0xC2 ≤ b ∧ b < 0xE0) ∨ (0xE0 ≤ b ∧ b < 0xF0) ∨ (0xF0 ≤ b ∧ b < 0xF5) := by
  simp only [row] at h
  split_ifs at h <;> omega

end Rows

/-- The bytes lie in the first of the ranges, one after another. -/
def Fits : List UInt8 → List (ℕ × ℕ) → Prop
  | [], _ => True
  | _ :: _, [] => False
  | x :: xs, r :: rs => (r.1 ≤ x.toNat ∧ x.toNat ≤ r.2) ∧ Fits xs rs

lemma Fits.of_append {xs ys : List UInt8} {rs : List (ℕ × ℕ)} (h : Fits (xs ++ ys) rs) :
    Fits xs rs := by
  induction xs generalizing rs with
  | nil => trivial
  | cons x xs ih =>
    cases rs with
    | nil => exact h.elim
    | cons r rs => exact ⟨h.1, ih h.2⟩

/-- The byte that stands behind a part that fits is in the next range. -/
lemma Fits.next {xs ys : List UInt8} {z : UInt8} {rs : List (ℕ × ℕ)}
    (h : Fits (xs ++ z :: ys) rs) :
    ∃ r, rs[xs.length]? = some r ∧ r.1 ≤ z.toNat ∧ z.toNat ≤ r.2 := by
  induction xs generalizing rs with
  | nil =>
    cases rs with
    | nil => exact h.elim
    | cons r rs => exact ⟨r, rfl, h.1⟩
  | cons x xs ih =>
    cases rs with
    | nil => exact h.elim
    | cons r rs => exact ih h.2

/-- A part that fits can be completed when no range is empty. -/
lemma Fits.complete {xs : List UInt8} {rs : List (ℕ × ℕ)} (h : Fits xs rs)
    (hrs : ∀ r ∈ rs, r.1 ≤ r.2 ∧ r.2 < 256) :
    ∃ ys, Fits (xs ++ ys) rs ∧ (xs ++ ys).length = rs.length := by
  induction rs generalizing xs with
  | nil =>
    cases xs with
    | nil => exact ⟨[], trivial, rfl⟩
    | cons x xs => exact h.elim
  | cons r rs ih =>
    have hr := hrs r List.mem_cons_self
    have hrest : ∀ r ∈ rs, r.1 ≤ r.2 ∧ r.2 < 256 := fun r' h' =>
      hrs r' (List.mem_cons_of_mem _ h')
    cases xs with
    | nil =>
      obtain ⟨ys, hfit, hlen⟩ := @ih [] trivial hrest
      have hbyte : (UInt8.ofNat r.1).toNat = r.1 := by
        rw [UInt8.toNat_ofNat']; omega
      refine ⟨UInt8.ofNat r.1 :: ys, ⟨by omega, hfit⟩, ?_⟩
      simpa using hlen
    | cons x xs =>
      obtain ⟨ys, hfit, hlen⟩ := ih h.2 hrest
      exact ⟨ys, ⟨h.1, hfit⟩, by simpa using hlen⟩

lemma row_ranges {b : ℕ} {rs : List (ℕ × ℕ)} (h : row b = some rs) :
    ∀ r ∈ rs, r.1 ≤ r.2 ∧ r.2 < 256 := by
  simp only [row] at h
  split_ifs at h <;> cases h <;> simp
  all_goals omega

lemma row_length_le {b : ℕ} {rs : List (ℕ × ℕ)} (h : row b = some rs) : rs.length ≤ 3 := by
  simp only [row] at h
  split_ifs at h <;> cases h <;> simp

/-- The bytes of a character are in the table. -/
lemma row_of_encode {c : Char} {b : UInt8} {bs : List UInt8} (h : utf8EncodeChar c = b :: bs) :
    ∃ rs, row b.toNat = some rs ∧ bs.length = rs.length ∧ Fits bs rs := by
  have hv : c.val.toNat < 0xd800 ∨ (0xdfff < c.val.toNat ∧ c.val.toNat < 0x110000) := c.valid
  generalize hn : c.val.toNat = v at hv
  simp only [utf8EncodeChar, hn] at h
  split_ifs at h with h₁ h₂ h₃
  · obtain ⟨rfl, rfl⟩ := List.cons.inj h
    have hb : (UInt8.ofNat v).toNat = v := by rw [UInt8.toNat_ofNat']; omega
    rw [hb]
    exact ⟨_, row_one (by omega), rfl, trivial⟩
  · obtain ⟨rfl, rfl⟩ := List.cons.inj h
    have hb : (UInt8.ofNat (v / 64 % 0x20 + 0xc0)).toNat = v / 64 + 0xc0 := by
      rw [UInt8.toNat_ofNat']; omega
    rw [hb]
    refine ⟨_, row_two (by omega) (by omega), rfl, ?_⟩
    simp only [Fits, UInt8.toNat_ofNat', and_true]
    omega
  · obtain ⟨rfl, rfl⟩ := List.cons.inj h
    have hb : (UInt8.ofNat (v / 4096 % 0x10 + 0xe0)).toNat = v / 4096 + 0xe0 := by
      rw [UInt8.toNat_ofNat']; omega
    rw [hb]
    refine ⟨_, row_three (by omega) (by omega), rfl, ?_⟩
    simp only [Fits, UInt8.toNat_ofNat', and_true]
    refine ⟨⟨?_, ?_⟩, ?_⟩
    · split_ifs <;> omega
    · split_ifs <;> omega
    · omega
  · obtain ⟨rfl, rfl⟩ := List.cons.inj h
    have hb : (UInt8.ofNat (v / 262144 % 0x08 + 0xf0)).toNat = v / 262144 + 0xf0 := by
      rw [UInt8.toNat_ofNat']; omega
    rw [hb]
    refine ⟨_, row_four (by omega) (by omega), rfl, ?_⟩
    simp only [Fits, UInt8.toNat_ofNat', and_true]
    refine ⟨⟨?_, ?_⟩, ?_, ?_⟩
    · split_ifs <;> omega
    · split_ifs <;> omega
    · omega
    · omega

/-- A scalar value is the value of a character. -/
lemma exists_char {v : ℕ} (hv : v < 0xd800 ∨ (0xdfff < v ∧ v < 0x110000)) :
    ∃ c : Char, c.val.toNat = v := by
  refine ⟨⟨UInt32.ofNat v, ?_⟩, ?_⟩ <;>
    simp only [UInt32.isValidChar, Nat.isValidChar, UInt32.toNat_ofNat'] <;> omega

/-- What is in the table encodes a character. -/
lemma encode_of_row {b : UInt8} {bs : List UInt8} {rs : List (ℕ × ℕ)}
    (h : row b.toNat = some rs) (hlen : bs.length = rs.length) (hfit : Fits bs rs) :
    ∃ c, utf8EncodeChar c = b :: bs := by
  have hbyte : ∀ (x : UInt8) n, n % 256 = x.toNat → UInt8.ofNat n = x := fun x n hn =>
    UInt8.toNat_inj.mp (by rw [UInt8.toNat_ofNat']; exact hn)
  rcases row_cases h with hb | ⟨hb, hb'⟩ | ⟨hb, hb'⟩ | ⟨hb, hb'⟩
  · obtain rfl := Option.some.inj (h.symm.trans (row_one hb))
    obtain rfl := List.length_eq_zero_iff.mp hlen
    obtain ⟨c, hc⟩ := exists_char (v := b.toNat) (by omega)
    refine ⟨c, ?_⟩
    rw [utf8EncodeChar, hc, if_pos (by omega)]
    exact congrArg (fun x => [x]) (hbyte b _ (by omega))
  · obtain rfl := Option.some.inj (h.symm.trans (row_two hb hb'))
    obtain ⟨x, rfl⟩ := List.length_eq_one_iff.mp hlen
    simp only [Fits, and_true] at hfit
    obtain ⟨c, hc⟩ := exists_char (v := (b.toNat - 0xC0) * 64 + (x.toNat - 0x80)) (by omega)
    refine ⟨c, ?_⟩
    rw [utf8EncodeChar, hc, if_neg (by omega), if_pos (by omega)]
    rw [hbyte b _ (by omega), hbyte x _ (by omega)]
  · obtain rfl := Option.some.inj (h.symm.trans (row_three hb hb'))
    obtain ⟨x, y, rfl⟩ := List.length_eq_two.mp hlen
    simp only [Fits, and_true] at hfit
    obtain ⟨⟨hx, hx'⟩, hy, hy'⟩ := hfit
    have hlow : b.toNat = 0xE0 → 0xA0 ≤ x.toNat := fun he => by simpa [he] using hx
    have hhigh : b.toNat = 0xED → x.toNat ≤ 0x9F := fun he => by simpa [he] using hx'
    have hx₀ : 0x80 ≤ x.toNat := le_trans (by split_ifs <;> omega) hx
    have hx₁ : x.toNat ≤ 0xBF := le_trans hx' (by split_ifs <;> omega)
    obtain ⟨c, hc⟩ := exists_char
      (v := (b.toNat - 0xE0) * 4096 + (x.toNat - 0x80) * 64 + (y.toNat - 0x80)) (by omega)
    refine ⟨c, ?_⟩
    rw [utf8EncodeChar, hc, if_neg (by omega), if_neg (by omega), if_pos (by omega)]
    rw [hbyte b _ (by omega), hbyte x _ (by omega), hbyte y _ (by omega)]
  · obtain rfl := Option.some.inj (h.symm.trans (row_four hb hb'))
    obtain ⟨x, y, z, rfl⟩ := List.length_eq_three.mp hlen
    simp only [Fits, and_true] at hfit
    obtain ⟨⟨hx, hx'⟩, ⟨hy, hy'⟩, hz, hz'⟩ := hfit
    have hlow : b.toNat = 0xF0 → 0x90 ≤ x.toNat := fun he => by simpa [he] using hx
    have hhigh : b.toNat = 0xF4 → x.toNat ≤ 0x8F := fun he => by simpa [he] using hx'
    have hx₀ : 0x80 ≤ x.toNat := le_trans (by split_ifs <;> omega) hx
    have hx₁ : x.toNat ≤ 0xBF := le_trans hx' (by split_ifs <;> omega)
    obtain ⟨c, hc⟩ := exists_char (v := (b.toNat - 0xF0) * 262144 + (x.toNat - 0x80) * 4096 +
      (y.toNat - 0x80) * 64 + (z.toNat - 0x80)) (by omega)
    refine ⟨c, ?_⟩
    rw [utf8EncodeChar, hc, if_neg (by omega), if_neg (by omega), if_neg (by omega)]
    rw [hbyte b _ (by omega), hbyte x _ (by omega), hbyte y _ (by omega), hbyte z _ (by omega)]

/-- The start of a character is a lead byte and bytes in the first ranges of its row. -/
lemma initial_cons {b : UInt8} {xs : List UInt8} :
    Initial (b :: xs) ↔ ∃ rs, row b.toNat = some rs ∧ Fits xs rs := by
  constructor
  · rintro ⟨c, tail, hc⟩
    obtain ⟨rs, hrow, _, hfit⟩ := row_of_encode hc.symm
    exact ⟨rs, hrow, hfit.of_append⟩
  · rintro ⟨rs, hrow, hfit⟩
    obtain ⟨ys, hfull, hlen⟩ := hfit.complete (row_ranges hrow)
    obtain ⟨c, hc⟩ := encode_of_row hrow hlen hfull
    exact ⟨c, ys, hc.symm⟩

/-- A character at the start of some bytes takes as many as its row has. -/
lemma row_of_encode_prefix {c : Char} {b : UInt8} {s : List UInt8}
    (h : utf8EncodeChar c <+: b :: s) : ∃ rs xs tail, row b.toNat = some rs ∧ Fits xs rs ∧
      xs.length = rs.length ∧ s = xs ++ tail ∧ utf8EncodeChar c = b :: xs := by
  obtain ⟨tail, htail⟩ := h
  cases hc : utf8EncodeChar c with
  | nil => exact absurd hc utf8EncodeChar_ne_nil
  | cons b' xs =>
    rw [hc, List.cons_append] at htail
    obtain ⟨rfl, rfl⟩ := List.cons.inj htail
    obtain ⟨rs, hrow, hlen, hfit⟩ := row_of_encode hc
    exact ⟨rs, xs, tail, hrow, hfit, hlen, rfl, rfl⟩

/-- **A prefix code**: at most one character stands at the start of some bytes. -/
theorem encode_prefix_inj {c d : Char} {s : List UInt8} (hc : utf8EncodeChar c <+: s)
    (hd : utf8EncodeChar d <+: s) : c = d := by
  cases s with
  | nil => exact absurd (List.prefix_nil.mp hc) utf8EncodeChar_ne_nil
  | cons b s =>
    obtain ⟨rs, xs, t, hrow, _, hlen, rfl, hxs⟩ := row_of_encode_prefix hc
    obtain ⟨rs', ys, u, hrow', _, hlen', hs, hys⟩ := row_of_encode_prefix hd
    obtain rfl := Option.some.inj (hrow.symm.trans hrow')
    obtain ⟨rfl, _⟩ := List.append_inj hs (hlen.trans hlen'.symm)
    have heq : [c].utf8Encode = [d].utf8Encode := by
      rw [List.utf8Encode_singleton, List.utf8Encode_singleton, hxs, hys]
    have hpre := List.isPrefix_of_utf8Encode_append_eq_utf8Encode (l := [c]) (m := [d])
      ByteArray.empty (by simpa using heq)
    simpa using hpre

/-- Encoded text starts with an encoded text exactly when the characters do. -/
lemma encode_prefix_iff {ks cs : List Char} : encode ks <+: encode cs ↔ ks <+: cs := by
  constructor
  · intro h
    induction ks generalizing cs with
    | nil => exact List.nil_prefix
    | cons k ks ih =>
      cases cs with
      | nil =>
        rw [encode_nil, List.prefix_nil, encode_cons, List.append_eq_nil_iff] at h
        exact absurd h.1 utf8EncodeChar_ne_nil
      | cons c cs =>
        rw [encode_cons, encode_cons] at h
        have hk := (List.prefix_append (utf8EncodeChar k) (encode ks)).trans h
        obtain rfl := encode_prefix_inj hk (List.prefix_append _ _)
        rw [List.prefix_append_right_inj] at h
        exact List.cons_prefix_cons.mpr ⟨rfl, ih h⟩
  · rintro ⟨rest, rfl⟩
    rw [encode_append]
    exact List.prefix_append _ _

/-- The front of a text is whole characters, and perhaps the start of one more. -/
lemma prefix_encode {w : List UInt8} {cs : List Char} (h : w <+: encode cs) :
    ∃ ds q, w = encode ds ++ q ∧ (q = [] ∨ ∃ c x, q ≠ [] ∧ x ≠ [] ∧ utf8EncodeChar c = q ++ x ∧
      encode ds ++ (q ++ x) <+: encode cs) := by
  induction cs generalizing w with
  | nil => exact ⟨[], [], List.prefix_nil.mp h, .inl rfl⟩
  | cons c cs ih =>
    rw [encode_cons] at h
    rcases List.prefix_or_prefix_of_prefix h (List.prefix_append _ _) with hin | ⟨t, rfl⟩
    · obtain ⟨x, hx⟩ := hin
      cases w with
      | nil => exact ⟨[], [], rfl, .inl rfl⟩
      | cons b w =>
        cases x with
        | nil =>
          refine ⟨[c], [], ?_, .inl rfl⟩
          rw [encode_cons, encode_nil, List.append_nil, List.append_nil, ← hx, List.append_nil]
        | cons z x =>
          refine ⟨[], b :: w, rfl, .inr ⟨c, z :: x, List.cons_ne_nil _ _,
            List.cons_ne_nil _ _, hx.symm, ?_⟩⟩
          rw [hx, encode_cons]
          exact List.prefix_append _ _
    · rw [List.prefix_append_right_inj] at h
      obtain ⟨ds, q, rfl, hq⟩ := ih h
      refine ⟨c :: ds, q, by rw [encode_cons, List.append_assoc], hq.imp id ?_⟩
      rintro ⟨d, x, hq, hx, hd, hpre⟩
      refine ⟨d, x, hq, hx, hd, ?_⟩
      rw [encode_cons, encode_cons, List.append_assoc, List.prefix_append_right_inj]
      exact hpre

/-- A byte below `0x80` is a character of its own, wherever it stands. -/
lemma ascii_of_mem {c : Char} {b : UInt8} (hb : b.toNat < 0x80) (h : b ∈ utf8EncodeChar c) :
    utf8EncodeChar c = [b] := by
  simp only [utf8EncodeChar] at h ⊢
  generalize c.val.toNat = v at h ⊢
  split_ifs at h ⊢ with h₁ h₂ h₃
  · rw [List.mem_singleton.mp h]
  -- every byte of a longer character is `0x80` or more
  all_goals
    exfalso
    simp only [List.mem_cons, List.not_mem_nil, or_false, ← UInt8.toNat_inj,
      UInt8.toNat_ofNat'] at h
    omega

lemma encode_ascii {n : ℕ} (hn : n < 0x80) : utf8EncodeChar (.ofNat n) = [UInt8.ofNat n] := by
  revert n
  decide

lemma encode_injective : Function.Injective encode := by
  intro cs ds h
  have h₁ := encode_prefix_iff.mp (h ▸ List.prefix_rfl : encode cs <+: encode ds)
  have h₂ := encode_prefix_iff.mp (h ▸ List.prefix_rfl : encode ds <+: encode cs)
  exact h₁.eq_of_length (le_antisymm h₁.length_le h₂.length_le)

/-! ### Maximal subparts -/

section Subparts

variable {b : UInt8} {xs : List UInt8} {rs : List (ℕ × ℕ)}

/-- A byte that leads nothing is a subpart of its own. -/
lemma maximalSubpart_lead (h : row b.toNat = none) (s : List UInt8) :
    NoChar (b :: s) ∧ MaximalSubpart [b] s := by
  refine ⟨fun c hc => ?_, by simp, .inl rfl, fun p hp hlen hinit => ?_⟩
  · obtain ⟨rs, _, _, hrow, _⟩ := row_of_encode_prefix hc
    rw [h] at hrow
    cases hrow
  · cases p with
    | nil => simp at hlen
    | cons b' p =>
      obtain ⟨rfl, _⟩ := List.cons_prefix_cons.mp hp
      obtain ⟨rs, hrow, _⟩ := initial_cons.mp hinit
      rw [h] at hrow
      cases hrow

/-- A part of a row that does not fill it is the start of a character and contains none. -/
lemma initial_of_short (hrow : row b.toNat = some rs) (hfit : Fits xs rs)
    (hlen : xs.length < rs.length) : Initial (b :: xs) ∧ NoChar (b :: xs) := by
  refine ⟨initial_cons.mpr ⟨rs, hrow, hfit⟩, fun c hc => ?_⟩
  obtain ⟨rs', ys, tail, hrow', _, hlen', rfl, _⟩ := row_of_encode_prefix hc
  obtain rfl := Option.some.inj (hrow.symm.trans hrow')
  rw [List.length_append] at hlen
  omega

/-- Nothing can follow the start of a character when the bytes end there. -/
lemma Initial.maximalSubpart {sub : List UInt8} (h : Initial sub) (hne : sub ≠ []) :
    MaximalSubpart sub [] := by
  refine ⟨hne, .inr h, fun p hp hlen => ?_⟩
  rw [List.append_nil] at hp
  have := hp.length_le
  omega

/-- A byte outside the next range of the row ends the subpart before it. -/
lemma maximalSubpart_break (hrow : row b.toNat = some rs) (hfit : Fits xs rs) {r : ℕ × ℕ}
    (hr : rs[xs.length]? = some r) {z : UInt8} (hz : ¬ (r.1 ≤ z.toNat ∧ z.toNat ≤ r.2))
    (s : List UInt8) : NoChar (b :: xs ++ z :: s) ∧ MaximalSubpart (b :: xs) (z :: s) := by
  -- bytes of the row that go past `xs` would have `z` in its range
  have hpast : ∀ ys, Fits ys rs → ys <+: xs ++ z :: s → ys.length ≤ xs.length := by
    intro ys hys hpre
    by_contra hlen
    have hxz : xs ++ [z] <+: ys := by
      refine List.prefix_of_prefix_length_le ⟨s, by simp⟩ hpre ?_
      rw [List.length_append, List.length_singleton]
      omega
    obtain ⟨tail, rfl⟩ := hxz
    rw [List.append_assoc, List.singleton_append] at hys
    obtain ⟨r', hr', hin⟩ := hys.next
    obtain rfl := Option.some.inj (hr.symm.trans hr')
    exact hz hin
  have hlt : xs.length < rs.length := (List.getElem?_eq_some_iff.mp hr).1
  refine ⟨fun c hc => ?_, by simp, .inr (initial_cons.mpr ⟨rs, hrow, hfit⟩),
    fun p hp hlen hinit => ?_⟩
  · rw [List.cons_append] at hc
    obtain ⟨rs', ys, tail, hrow', hys, hlen', heq, _⟩ := row_of_encode_prefix hc
    obtain rfl := Option.some.inj (hrow.symm.trans hrow')
    have := hpast ys hys ⟨tail, heq.symm⟩
    omega
  · cases p with
    | nil => simp at hlen
    | cons b' p =>
      rw [List.cons_append] at hp
      obtain ⟨rfl, hpre⟩ := List.cons_prefix_cons.mp hp
      obtain ⟨rs', hrow', hfits⟩ := initial_cons.mp hinit
      obtain rfl := Option.some.inj (hrow.symm.trans hrow')
      have := hpast p hfits hpre
      simp only [List.length_cons] at hlen
      omega

end Subparts

/-- A maximal subpart is determined by the bytes. -/
lemma MaximalSubpart.length_le {sub rest sub' rest' : List UInt8} (h : MaximalSubpart sub rest)
    (h' : MaximalSubpart sub' rest') (heq : sub ++ rest = sub' ++ rest') :
    sub'.length ≤ sub.length := by
  by_contra hlt
  have hpre : sub' <+: sub ++ rest := heq ▸ List.prefix_append sub' rest'
  have hpos := List.length_pos_iff.mpr h.nonempty
  rcases h'.small with hone | hinit
  · omega
  · exact h.maximal sub' hpre (by omega) hinit

/-- **Bytes decode in at most one way.** -/
theorem DecodesReplace.unique {bs : List UInt8} {cs ds : List Char} (h : DecodesReplace bs cs)
    (h' : DecodesReplace bs ds) : cs = ds := by
  induction h generalizing ds with
  | nil =>
    generalize hbs : ([] : List UInt8) = bs at h'
    cases h' with
    | nil => rfl
    | char h => exact absurd (List.append_eq_nil_iff.mp hbs.symm).1 utf8EncodeChar_ne_nil
    | replace hno hsub h => exact absurd (List.append_eq_nil_iff.mp hbs.symm).1 hsub.nonempty
  | @char c bs cs h ih =>
    generalize hbs : utf8EncodeChar c ++ bs = bs' at h'
    cases h' with
    | nil => exact absurd (List.append_eq_nil_iff.mp hbs).1 utf8EncodeChar_ne_nil
    | @char d bs₂ ds h₂ =>
      obtain rfl := encode_prefix_inj (List.prefix_append (utf8EncodeChar c) bs)
        (hbs ▸ List.prefix_append (utf8EncodeChar d) bs₂)
      obtain rfl := List.append_cancel_left hbs
      rw [ih h₂]
    | replace hno hsub h₂ => exact absurd (hbs ▸ List.prefix_append _ _) (hno c)
  | @replace sub rest cs hno hsub h ih =>
    generalize hbs : sub ++ rest = bs at h'
    cases h' with
    | nil => exact absurd (List.append_eq_nil_iff.mp hbs).1 hsub.nonempty
    | @char d bs₂ ds h₂ => exact absurd (hbs ▸ List.prefix_append _ _) (hno d)
    | @replace sub₂ rest₂ ds hno₂ hsub₂ h₂ =>
      have hlen : sub.length = sub₂.length :=
        le_antisymm (hsub₂.length_le hsub hbs.symm) (hsub.length_le hsub₂ hbs)
      obtain ⟨rfl, rfl⟩ := List.append_inj hbs hlen
      rw [ih h₂]

end Utf8
