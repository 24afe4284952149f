import VibeVoice.Lib.Utf8

/-!
The pre-tokenizer of `bpe.c`: `next_piece` over bytes, and the loop of `encode_text_run` that cuts
a text with it.

`utf8_get` reads whatever bytes it is given, and the classes are ranges of codepoints.  On the
bytes of characters both are what they are on the characters.

* `nextPiece_bounds`: a piece takes something, and no more than there is.
* `splitPieces_flatten`: the pieces are the text, whatever its bytes.
* `utf8Get_encode`, `runLength_encode`, `scanSpaces_append`: the readings of a text of characters.
-/

namespace VibeVoice.Tokenizer

open Utf8

/-! ### Reading codepoints -/

/-- `(unsigned char)s[i] & 0x3F`. -/
def contBits (s : List UInt8) (i : ℕ) : ℕ := (s.getD i 0 &&& 0x3F).toNat

/-- `utf8_get`: a codepoint and the bytes it takes; the lead byte itself where no sequence
follows it. -/
def utf8Get : List UInt8 → ℕ × ℕ
  | [] => (0, 1)
  | c :: s =>
    let len := s.length + 1
    if c < 0x80 then (c.toNat, 1)
    else if c &&& 0xE0 = 0xC0 ∧ 2 ≤ len then
      ((c &&& 0x1F).toNat <<< 6 ||| contBits s 0, 2)
    else if c &&& 0xF0 = 0xE0 ∧ 3 ≤ len then
      ((c &&& 0x0F).toNat <<< 12 ||| contBits s 0 <<< 6 ||| contBits s 1, 3)
    else if c &&& 0xF8 = 0xF0 ∧ 4 ≤ len then
      ((c &&& 0x07).toNat <<< 18 ||| contBits s 0 <<< 12 ||| contBits s 1 <<< 6 |||
        contBits s 2, 4)
    else (c.toNat, 1)

/-- `cp_is_space`. -/
def cpIsSpace (c : ℕ) : Bool :=
  c = 0x20 || c = 0x09 || c = 0x0A || c = 0x0D || c = 0x0B || c = 0x0C || c = 0x85 ||
    c = 0xA0 || c = 0x1680 || (0x2000 ≤ c && c ≤ 0x200A) || c = 0x2028 || c = 0x2029 ||
    c = 0x202F || c = 0x205F || c = 0x3000

/-- `cp_is_digit`. -/
def cpIsDigit (c : ℕ) : Bool :=
  (0x30 ≤ c && c ≤ 0x39) || (0x0660 ≤ c && c ≤ 0x0669) || (0x06F0 ≤ c && c ≤ 0x06F9) ||
    (0x0966 ≤ c && c ≤ 0x096F) || (0x09E6 ≤ c && c ≤ 0x09EF) || (0x0E50 ≤ c && c ≤ 0x0E59) ||
    (0xFF10 ≤ c && c ≤ 0xFF19) || c = 0xB2 || c = 0xB3 || c = 0xB9 || (0xBC ≤ c && c ≤ 0xBE)

/-- `cp_is_sym`. -/
def cpIsSym (c : ℕ) : Bool :=
  if c < 0x80 then !((0x61 ≤ c && c ≤ 0x7A) || (0x41 ≤ c && c ≤ 0x5A))
  else
    (0xA0 ≤ c && c ≤ 0xBF) || c = 0xD7 || c = 0xF7 || (0x2000 ≤ c && c ≤ 0x2BFF) ||
      (0x3000 ≤ c && c ≤ 0x303F) || (0xFE00 ≤ c && c ≤ 0xFE6F) || (0xFF00 ≤ c && c ≤ 0xFF0F) ||
      (0xFF1A ≤ c && c ≤ 0xFF20) || (0xFF3B ≤ c && c ≤ 0xFF40) || (0xFF5B ≤ c && c ≤ 0xFF65) ||
      0xFFF0 ≤ c || (0x1F000 ≤ c && c ≤ 0x1FAFF)

/-- `cp_is_letter`. -/
def cpIsLetter (c : ℕ) : Bool :=
  if cpIsSpace c || cpIsDigit c then false else !cpIsSym c

/-- `c == '\r' || c == '\n'`. -/
def cpIsNewline (c : ℕ) : Bool := c = 0x0D || c = 0x0A

/-- Neither space nor letter nor digit. -/
def cpIsOther (c : ℕ) : Bool := !(cpIsSpace c || cpIsLetter c || cpIsDigit c)

lemma utf8Get_adv_pos (s : List UInt8) : 1 ≤ (utf8Get s).2 := by
  unfold utf8Get
  split
  · exact le_rfl
  · dsimp only
    split_ifs <;> simp

lemma utf8Get_adv_le {s : List UInt8} (hs : s ≠ []) : (utf8Get s).2 ≤ s.length := by
  obtain ⟨c, t, rfl⟩ := List.exists_cons_of_ne_nil hs
  unfold utf8Get
  dsimp only
  split_ifs with h₁ h₂ h₃ h₄ <;> simp only [List.length_cons] <;> omega

/-! ### The loops -/

/-- `while (q < len)`: the bytes of the run of a class at the front. -/
def runLength (p : ℕ → Bool) (s : List UInt8) : ℕ :=
  if _hs : s = [] then 0
  else
    let r := utf8Get s
    if p r.1 then r.2 + runLength p (s.drop r.2) else 0
termination_by s.length
decreasing_by
  have hpos := utf8Get_adv_pos s
  have hlen := List.length_pos_iff.mpr _hs
  rw [List.length_drop]
  omega

/-- The loop over a run of white space, from its `end`: where the run ends, and where its last
CR or LF stands. -/
def scanSpaces (s : List UInt8) (stop : ℕ) (lastNl : Option ℕ) : ℕ × Option ℕ :=
  if _hs : s = [] then (stop, lastNl)
  else
    let r := utf8Get s
    if cpIsSpace r.1 then
      scanSpaces (s.drop r.2) (stop + r.2) (if cpIsNewline r.1 then some stop else lastNl)
    else (stop, lastNl)
termination_by s.length
decreasing_by
  have hpos := utf8Get_adv_pos s
  have hlen := List.length_pos_iff.mpr _hs
  rw [List.length_drop]
  omega

/-- `s[i] | 0x20`. -/
def lowerByte (s : List UInt8) (i : ℕ) : UInt8 := s.getD i 0 ||| 0x20

/-- `(?i:'s|'t|'re|'ve|'m|'ll|'d)`: the length of the contraction at the front. -/
def contraction (s : List UInt8) : Option ℕ :=
  if (utf8Get s).1 = 0x27 ∧ 2 ≤ s.length then
    let c₁ := lowerByte s 1
    if c₁ = 0x73 ∨ c₁ = 0x74 ∨ c₁ = 0x6D ∨ c₁ = 0x64 then some 2
    else if 3 ≤ s.length then
      let c₂ := lowerByte s 2
      if c₁ = 0x72 ∧ c₂ = 0x65 ∨ c₁ = 0x76 ∧ c₂ = 0x65 ∨ c₁ = 0x6C ∧ c₂ = 0x6C then some 3
      else none
    else none
  else none

/-- `[^\r\n\p{L}\p{N}]?\p{L}+`. -/
def prefixedLetters (s : List UInt8) : Option ℕ :=
  let (cp, adv) := utf8Get s
  let p := if !cpIsNewline cp && !cpIsLetter cp && !cpIsDigit cp then adv else 0
  let run := runLength cpIsLetter (s.drop p)
  if 0 < run then some (p + run) else none

/-- ` ?[^\s\p{L}\p{N}]+[\r\n]*`. -/
def prefixedSymbols (s : List UInt8) : Option ℕ :=
  let p := if (utf8Get s).1 = 0x20 then 1 else 0
  let run := runLength cpIsOther (s.drop p)
  if 0 < run then
    some (p + run + ((s.drop (p + run)).takeWhile fun b => b = 0x0D || b = 0x0A).length)
  else none

/-- `\s*[\r\n]+|\s+(?!\S)|\s+`. -/
def spacePiece (s : List UInt8) : ℕ :=
  let (stop, lastNl) := scanSpaces s 0 none
  match lastNl with
  | some n => n + 1
  | none =>
    if s.length ≤ stop then stop
    else if 2 ≤ stop then stop - 1
    else stop

/-- `next_piece`. -/
def nextPiece (s : List UInt8) : ℕ :=
  let (cp, adv) := utf8Get s
  match contraction s with
  | some n => n
  | none =>
    match prefixedLetters s with
    | some n => n
    | none =>
      if cpIsDigit cp then adv
      else
        match prefixedSymbols s with
        | some n => n
        | none => if cpIsSpace cp then spacePiece s else adv

/-- The pieces `encode_text_run` cuts a text into. -/
def splitPieces (text : List UInt8) : List (List UInt8) :=
  if ht : text = [] then []
  else
    let plen := if nextPiece text = 0 then 1 else nextPiece text
    text.take plen :: splitPieces (text.drop plen)
termination_by text.length
decreasing_by
  have hlen := List.length_pos_iff.mpr ht
  rw [List.length_drop]
  split_ifs <;> omega

lemma runLength_le (p : ℕ → Bool) (s : List UInt8) : runLength p s ≤ s.length := by
  induction s using runLength.induct p with
  | case1 => rw [runLength]; exact Nat.zero_le _
  | case2 s hs r hp ih =>
    have hadv : r.2 ≤ s.length := utf8Get_adv_le hs
    rw [List.length_drop] at ih
    rw [runLength, dif_neg hs, if_pos hp]
    change r.2 + runLength p (s.drop r.2) ≤ s.length
    omega
  | case3 s hs r hp =>
    rw [runLength, dif_neg hs, if_neg hp]
    exact Nat.zero_le _

/-- The run ends inside the text, and a line break stands before its end. -/
lemma scanSpaces_le (s : List UInt8) (stop : ℕ) (lastNl : Option ℕ)
    (hnl : ∀ n, lastNl = some n → n < stop) :
    stop ≤ (scanSpaces s stop lastNl).1 ∧ (scanSpaces s stop lastNl).1 ≤ stop + s.length ∧
      ∀ n, (scanSpaces s stop lastNl).2 = some n → n < (scanSpaces s stop lastNl).1 := by
  induction s, stop, lastNl using scanSpaces.induct with
  | case1 stop lastNl =>
    rw [scanSpaces]
    exact ⟨le_rfl, Nat.le_add_right _ _, hnl⟩
  | case2 s stop lastNl hs r hp ih =>
    have hpos : 1 ≤ r.2 := utf8Get_adv_pos s
    have hadv : r.2 ≤ s.length := utf8Get_adv_le hs
    obtain ⟨hlow, hhigh, hlast⟩ := ih fun n hn => by
      split_ifs at hn
      · obtain rfl := Option.some.inj hn
        omega
      · exact (hnl n hn).trans (by omega)
    rw [List.length_drop] at hhigh
    rw [scanSpaces, dif_neg hs, if_pos hp]
    exact ⟨(Nat.le_add_right _ _).trans hlow, hhigh.trans (by omega), hlast⟩
  | case3 s stop lastNl hs r hp =>
    rw [scanSpaces, dif_neg hs, if_neg hp]
    exact ⟨le_rfl, Nat.le_add_right _ _, hnl⟩

lemma contraction_bounds {s : List UInt8} {n : ℕ} (h : contraction s = some n) :
    0 < n ∧ n ≤ s.length := by
  simp only [contraction] at h
  split_ifs at h <;> (cases h; omega)

lemma prefixedLetters_bounds {s : List UInt8} (hs : s ≠ []) {n : ℕ}
    (h : prefixedLetters s = some n) : 0 < n ∧ n ≤ s.length := by
  have hadv := utf8Get_adv_le hs
  simp only [prefixedLetters] at h
  split_ifs at h with h₁ h₂ h₂ <;> cases h
  · have hrun := runLength_le cpIsLetter (s.drop (utf8Get s).2)
    rw [List.length_drop] at hrun
    omega
  · have hrun := runLength_le cpIsLetter (s.drop 0)
    rw [List.length_drop] at hrun
    omega

lemma prefixedSymbols_bounds {s : List UInt8} (hs : s ≠ []) {n : ℕ}
    (h : prefixedSymbols s = some n) : 0 < n ∧ n ≤ s.length := by
  have hlen := List.length_pos_iff.mpr hs
  obtain ⟨p, hp⟩ : ∃ p, p = if (utf8Get s).1 = 0x20 then 1 else 0 := ⟨_, rfl⟩
  have hple : p ≤ 1 := by rw [hp]; split_ifs <;> decide
  simp only [prefixedSymbols, ← hp] at h
  split_ifs at h with hrun
  cases h
  have hle := runLength_le cpIsOther (s.drop p)
  have hnls := ((s.drop (p + runLength cpIsOther (s.drop p))).takeWhile_sublist
    (fun b => b = 0x0D || b = 0x0A)).length_le
  simp only [List.length_drop] at hle hnls
  omega

lemma spacePiece_bounds {s : List UInt8} (hs : s ≠ []) (hsp : cpIsSpace (utf8Get s).1) :
    0 < spacePiece s ∧ spacePiece s ≤ s.length := by
  obtain ⟨hlow, hhigh, hlast⟩ := scanSpaces_le s 0 none (by simp)
  have hpos : 0 < (scanSpaces s 0 none).1 := by
    have hadv := utf8Get_adv_pos s
    rw [scanSpaces, dif_neg hs, if_pos hsp]
    have := (scanSpaces_le (s.drop (utf8Get s).2) (0 + (utf8Get s).2)
      (if cpIsNewline (utf8Get s).1 then some 0 else none) (by
        intro n hn
        split_ifs at hn
        cases hn
        omega)).1
    omega
  simp only [spacePiece]
  split
  · rename_i n hn
    have := hlast n hn
    omega
  · split_ifs <;> omega

/-- A piece takes something, and no more than there is. -/
theorem nextPiece_bounds {s : List UInt8} (hs : s ≠ []) :
    0 < nextPiece s ∧ nextPiece s ≤ s.length := by
  have hpos := utf8Get_adv_pos s
  have hadv := utf8Get_adv_le hs
  simp only [nextPiece]
  split
  · exact contraction_bounds ‹_›
  · split
    · exact prefixedLetters_bounds hs ‹_›
    · by_cases hd : cpIsDigit (utf8Get s).1 = true
      · rw [if_pos hd]
        exact ⟨hpos, hadv⟩
      · rw [if_neg hd]
        split
        · exact prefixedSymbols_bounds hs ‹_›
        · split_ifs with hsp
          · exact spacePiece_bounds hs hsp
          · exact ⟨hpos, hadv⟩

/-- The first piece is what `next_piece` says. -/
lemma splitPieces_cons {s : List UInt8} (hs : s ≠ []) :
    splitPieces s = s.take (nextPiece s) :: splitPieces (s.drop (nextPiece s)) := by
  have hpos := (nextPiece_bounds hs).1
  rw [splitPieces, dif_neg hs, if_neg (by omega)]

@[simp] lemma splitPieces_nil : splitPieces [] = [] := by
  rw [splitPieces, dif_pos rfl]

/-- The pieces are the text, whatever its bytes. -/
theorem splitPieces_flatten (s : List UInt8) : (splitPieces s).flatten = s := by
  induction s using splitPieces.induct with
  | case1 => rw [splitPieces_nil]; rfl
  | case2 s hs plen ih =>
    have hplen : plen = nextPiece s := if_neg (nextPiece_bounds hs).1.ne'
    rw [hplen] at ih
    rw [splitPieces_cons hs, List.flatten_cons, ih, List.take_append_drop]

/-! ### Characters -/

/-- The low six bits of a continuation byte. -/
lemma contBits_ofNat (x : ℕ) (s : List UInt8) (i : ℕ)
    (h : s[i]? = some (UInt8.ofNat (x % 0x40 + 0x80))) : contBits s i = x % 0x40 := by
  have hmask : ∀ y : ℕ, y < 0x40 → (UInt8.ofNat (y + 0x80) &&& 0x3F).toNat = y := by decide
  rw [contBits, List.getD_eq_getElem?_getD, h]
  exact hmask _ (Nat.mod_lt _ (by decide))

/-- On the bytes of a character `utf8_get` reads its value, whatever stands behind them. -/
lemma utf8Get_char (c : Char) (s : List UInt8) :
    utf8Get (String.utf8EncodeChar c ++ s) =
      (c.toNat, (String.utf8EncodeChar c).length) := by
  have hv : c.val.toNat < 0xd800 ∨ (0xdfff < c.val.toNat ∧ c.val.toNat < 0x110000) := c.valid
  change _ = (c.val.toNat, _)
  generalize hn : c.val.toNat = v at hv
  simp only [String.utf8EncodeChar, hn]
  split_ifs with h₁ h₂ h₃
  · have hb : (UInt8.ofNat v).toNat = v := by rw [UInt8.toNat_ofNat']; omega
    have hlt : UInt8.ofNat v < 0x80 := by
      rw [UInt8.lt_iff_toNat_lt, hb]
      exact Nat.lt_succ_of_le h₁
    rw [List.singleton_append, utf8Get, if_pos hlt, hb]
    rfl
  · have hlead : ∀ y : ℕ, y < 0x20 → ¬ UInt8.ofNat (y + 0xc0) < 0x80 ∧
        UInt8.ofNat (y + 0xc0) &&& 0xE0 = 0xC0 ∧ (UInt8.ofNat (y + 0xc0) &&& 0x1F).toNat = y := by
      decide
    obtain ⟨hlt, hmask, hbits⟩ := hlead (v / 64 % 0x20) (Nat.mod_lt _ (by decide))
    rw [List.cons_append, utf8Get, if_neg hlt, if_pos ⟨hmask, by simp⟩, hbits,
      contBits_ofNat v _ 0 rfl, ← Nat.shiftLeft_add_eq_or_of_lt (by omega), Nat.shiftLeft_eq]
    exact Prod.ext (by dsimp only; omega) rfl
  · have hlead : ∀ y : ℕ, y < 0x10 → ¬ UInt8.ofNat (y + 0xe0) < 0x80 ∧
        UInt8.ofNat (y + 0xe0) &&& 0xE0 ≠ 0xC0 ∧ UInt8.ofNat (y + 0xe0) &&& 0xF0 = 0xE0 ∧
        (UInt8.ofNat (y + 0xe0) &&& 0x0F).toNat = y := by
      decide
    obtain ⟨hlt, hmask₂, hmask, hbits⟩ := hlead (v / 4096 % 0x10) (Nat.mod_lt _ (by decide))
    rw [List.cons_append, utf8Get, if_neg hlt, if_neg fun h => hmask₂ h.1,
      if_pos ⟨hmask, by simp⟩, hbits, contBits_ofNat (v / 64) _ 0 rfl, contBits_ofNat v _ 1 rfl,
      ← Nat.shiftLeft_add_eq_or_of_lt (i := 12) (by rw [Nat.shiftLeft_eq]; omega),
      show (v / 4096 % 0x10) <<< 12 + (v / 64 % 0x40) <<< 6 =
        (v / 4096 % 0x10 * 64 + v / 64 % 0x40) <<< 6 by simp only [Nat.shiftLeft_eq]; omega,
      ← Nat.shiftLeft_add_eq_or_of_lt (by omega), Nat.shiftLeft_eq]
    exact Prod.ext (by dsimp only; omega) rfl
  · have hlead : ∀ y : ℕ, y < 0x08 → ¬ UInt8.ofNat (y + 0xf0) < 0x80 ∧
        UInt8.ofNat (y + 0xf0) &&& 0xE0 ≠ 0xC0 ∧ UInt8.ofNat (y + 0xf0) &&& 0xF0 ≠ 0xE0 ∧
        UInt8.ofNat (y + 0xf0) &&& 0xF8 = 0xF0 ∧ (UInt8.ofNat (y + 0xf0) &&& 0x07).toNat = y := by
      decide
    obtain ⟨hlt, hmask₂, hmask₃, hmask, hbits⟩ :=
      hlead (v / 262144 % 0x08) (Nat.mod_lt _ (by decide))
    rw [List.cons_append, utf8Get, if_neg hlt, if_neg fun h => hmask₂ h.1,
      if_neg fun h => hmask₃ h.1, if_pos ⟨hmask, by simp⟩, hbits,
      contBits_ofNat (v / 4096) _ 0 rfl, contBits_ofNat (v / 64) _ 1 rfl,
      contBits_ofNat v _ 2 rfl,
      ← Nat.shiftLeft_add_eq_or_of_lt (i := 18) (by rw [Nat.shiftLeft_eq]; omega),
      show (v / 262144 % 0x08) <<< 18 + (v / 4096 % 0x40) <<< 12 =
        (v / 262144 % 0x08 * 64 + v / 4096 % 0x40) <<< 12 by simp only [Nat.shiftLeft_eq]; omega,
      ← Nat.shiftLeft_add_eq_or_of_lt (i := 12) (by rw [Nat.shiftLeft_eq]; omega),
      show (v / 262144 % 0x08 * 64 + v / 4096 % 0x40) <<< 12 + (v / 64 % 0x40) <<< 6 =
        ((v / 262144 % 0x08 * 64 + v / 4096 % 0x40) * 64 + v / 64 % 0x40) <<< 6 by
          simp only [Nat.shiftLeft_eq]; omega,
      ← Nat.shiftLeft_add_eq_or_of_lt (by omega), Nat.shiftLeft_eq]
    exact Prod.ext (by dsimp only; omega) rfl

lemma utf8Get_encode (c : Char) (cs : List Char) :
    utf8Get (encode (c :: cs)) = (c.toNat, (String.utf8EncodeChar c).length) :=
  utf8Get_char c _

lemma encode_ne_nil (c : Char) (cs : List Char) : encode (c :: cs) ≠ [] := by
  rw [encode_cons]
  exact List.append_ne_nil_of_left_ne_nil String.utf8EncodeChar_ne_nil _

/-- Past the first character. -/
lemma drop_encode (c : Char) (cs : List Char) :
    (encode (c :: cs)).drop (String.utf8EncodeChar c).length = encode cs := by
  rw [encode_cons, List.drop_left]

/-- The bytes of the characters of a class at the front. -/
lemma runLength_encode (p : ℕ → Bool) (cs : List Char) :
    runLength p (encode cs) = (encode (cs.takeWhile fun c => p c.toNat)).length := by
  induction cs with
  | nil => rw [runLength]; rfl
  | cons c cs ih =>
    rw [runLength, dif_neg (encode_ne_nil c cs), utf8Get_encode]
    simp only [drop_encode, ih, List.takeWhile_cons]
    split_ifs
    · rw [encode_cons, List.length_append]
    · rfl

/-- An ASCII character is its own only byte, and no other character has an ASCII byte in
front. -/
lemma lead_ascii {c : Char} {b : UInt8} {bs : List UInt8} (h : String.utf8EncodeChar c = b :: bs)
    (hlt : b.toNat < 0x80 ∨ c.toNat < 0x80) : b.toNat = c.toNat ∧ bs = [] := by
  change (_ ∨ c.val.toNat < 0x80) at hlt
  change (_ = c.val.toNat ∧ _)
  simp only [String.utf8EncodeChar] at h
  generalize c.val.toNat = v at h hlt ⊢
  split_ifs at h with h₁ h₂ h₃ <;> obtain ⟨rfl, rfl⟩ := List.cons.inj h
  · exact ⟨by rw [UInt8.toNat_ofNat']; omega, rfl⟩
  all_goals
    rw [UInt8.toNat_ofNat'] at hlt
    omega

/-- The line breaks at the front, counted in bytes. -/
lemma takeWhile_newline_encode (cs : List Char) :
    ((encode cs).takeWhile fun b => b = 0x0D || b = 0x0A).length =
      (encode (cs.takeWhile fun c => cpIsNewline c.toNat)).length := by
  induction cs with
  | nil => rfl
  | cons c cs ih =>
    rw [List.takeWhile_cons]
    split_ifs with hc
    · have hc' : c = '\r' ∨ c = '\n' := by
        simpa [cpIsNewline, ← Char.toNat_inj] using hc
      obtain rfl | rfl := hc' <;> simpa [encode_cons, String.utf8EncodeChar] using ih
    · obtain ⟨b, bs, hb⟩ := List.exists_cons_of_ne_nil (@String.utf8EncodeChar_ne_nil c)
      have hnot : ¬ (decide (b = 0x0D) || decide (b = 0x0A)) = true := fun h => hc <| by
        have hb' : b = 0x0D ∨ b = 0x0A := by simpa using h
        have hcb := (lead_ascii hb (.inl (by obtain rfl | rfl := hb' <;> decide))).1
        obtain rfl | rfl := hb' <;> simp [cpIsNewline, ← hcb]
      rw [encode_cons, hb, List.cons_append, List.takeWhile_cons, if_neg hnot]
      rfl

/-- White space is passed, its line breaks remembered. -/
lemma scanSpaces_append {run : List Char} (hrun : ∀ c ∈ run, cpIsSpace c.toNat)
    (rest : List Char) (stop : ℕ) (lastNl : Option ℕ) :
    ∃ lastNl', scanSpaces (encode (run ++ rest)) stop lastNl =
        scanSpaces (encode rest) (stop + (encode run).length) lastNl' ∧
      ((∀ c ∈ run, ¬ cpIsNewline c.toNat) → lastNl' = lastNl) := by
  induction run generalizing stop lastNl with
  | nil => exact ⟨lastNl, rfl, fun _ => rfl⟩
  | cons c run ih =>
    have hc : cpIsSpace c.toNat = true := hrun c List.mem_cons_self
    obtain ⟨lastNl', heq, hkeep⟩ := ih (fun d hd => hrun d (List.mem_cons_of_mem _ hd))
      (stop + (String.utf8EncodeChar c).length)
      (if cpIsNewline c.toNat then some stop else lastNl)
    refine ⟨lastNl', ?_, fun hno => ?_⟩
    · rw [List.cons_append, scanSpaces, dif_neg (encode_ne_nil c _), utf8Get_encode, if_pos hc,
        drop_encode, heq, encode_cons, List.length_append, Nat.add_assoc]
    · rw [hkeep fun d hd => hno d (List.mem_cons_of_mem _ hd),
        if_neg (hno c List.mem_cons_self)]

/-- Behind the run the scan ends. -/
lemma scanSpaces_stop {rest : List Char} (hrest : ∀ c ∈ rest.head?, ¬ cpIsSpace c.toNat)
    (stop : ℕ) (lastNl : Option ℕ) :
    scanSpaces (encode rest) stop lastNl = (stop, lastNl) := by
  cases rest with
  | nil => rw [scanSpaces]; rfl
  | cons c rest =>
    rw [scanSpaces, dif_neg (encode_ne_nil c rest), utf8Get_encode, if_neg (hrest c rfl)]

end VibeVoice.Tokenizer
