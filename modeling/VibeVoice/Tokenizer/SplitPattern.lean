import Mathlib.Data.List.TakeWhile
import VibeVoice.Lib.Regex
import VibeVoice.Tokenizer.Pretokenize

/-!
The pieces of `next_piece` against the Qwen2 split pattern.

The pattern is read over characters, with the classes of `bpe.c`; the code walks the bytes of the
same text.  The two part only where a run of white space is followed by something else: the
pattern gives the last character of the run back, the code its last byte.

* `Step`: one piece against one match, with the exact condition under which they are the same.
* `splits_as_pattern_iff`: the pieces of a text are the matches exactly when no character of
  more than one byte stands at the end of such a run.
-/

namespace VibeVoice.Tokenizer

open Utf8 Regex Regex.Pattern

/-! ### The pattern -/

/-- `\s`. -/
def isSpace (c : Char) : Bool := cpIsSpace c.toNat

/-- `\p{N}`. -/
def isDigit (c : Char) : Bool := cpIsDigit c.toNat

/-- `\p{L}`. -/
def isLetter (c : Char) : Bool := cpIsLetter c.toNat

/-- `[\r\n]`. -/
def isNewline (c : Char) : Bool := cpIsNewline c.toNat

/-- `[^\s\p{L}\p{N}]`. -/
def isOther (c : Char) : Bool := cpIsOther c.toNat

/-- `[^\r\n\p{L}\p{N}]`. -/
def isLead (c : Char) : Bool := !isNewline c && !isLetter c && !isDigit c

/-- A character of ASCII in either case. -/
def anyCase (l c : Char) : Bool := c = l || c = l.toUpper

/-- A word of ASCII in either case. -/
def word : List Char → Pattern Char
  | [] => .empty
  | l :: ls => .seq (.one (anyCase l)) (word ls)

/-- `(?i:'s|'t|'re|'ve|'m|'ll|'d)`. -/
def contractions : Pattern Char :=
  .anyOf [word ['\'', 's'], word ['\'', 't'], word ['\'', 'r', 'e'], word ['\'', 'v', 'e'],
    word ['\'', 'm'], word ['\'', 'l', 'l'], word ['\'', 'd']]

/-- `[^\r\n\p{L}\p{N}]?\p{L}+`. -/
def letters : Pattern Char := .seq (.opt (.one isLead)) (.plus (.one isLetter))

/-- ` ?[^\s\p{L}\p{N}]+[\r\n]*`. -/
def symbols : Pattern Char :=
  .seq (.opt (.one fun c => c = ' ')) (.seq (.plus (.one isOther)) (.star (.one isNewline)))

/-- `\s*[\r\n]+`. -/
def lines : Pattern Char := .seq (.star (.one isSpace)) (.plus (.one isNewline))

/-- `\s+(?!\S)`. -/
def spaces : Pattern Char := .seq (.plus (.one isSpace)) (.notAhead (.one fun c => !isSpace c))

/-- The Qwen2 split pattern. -/
def qwen2 : Pattern Char :=
  .anyOf [contractions, letters, .one isDigit, symbols, lines, spaces, .plus (.one isSpace)]

/-! ### Where the two part -/

/-- White space of more than one byte. -/
def isWide (c : Char) : Bool := isSpace c && 1 < (String.utf8EncodeChar c).length

/-- White space other than a line break. -/
def isBlank (c : Char) : Bool := isSpace c && !isNewline c

/-- No white space of more than one byte is followed by anything but white space; a letter may
follow it where no blank stands before it, since it is then the lead of the letters. -/
def clear (afterBlank : Bool) : List Char → Bool
  | [] => true
  | [_] => true
  | x :: y :: cs =>
    (!(isWide x && !isSpace y) || (isLetter y && !afterBlank)) && clear (isBlank x) (y :: cs)

lemma not_wide_of_not_blank {c : Char} (h : isBlank c = false) : isWide c = false := by
  by_contra hw
  have hsp : isSpace c = true ∧ 1 < (String.utf8EncodeChar c).length := by
    simpa [isWide] using hw
  have hnl : isNewline c = true := by
    simpa [isBlank, hsp.1] using h
  have hc : c = '\r' ∨ c = '\n' := by
    simpa [isNewline, cpIsNewline, ← Char.toNat_inj] using hnl
  obtain rfl | rfl := hc <;> exact absurd hsp.2 (by decide)

/-- What is not blank asks nothing of what follows. -/
lemma clear_cons_of_not_blank {x : Char} (hx : isBlank x = false) (b : Bool) (cs : List Char) :
    clear b (x :: cs) = clear false cs := by
  cases cs with
  | nil => rfl
  | cons y cs => simp [clear, hx, not_wide_of_not_blank hx]

lemma clear_append_of_not_blank {v : List Char} (hv : ∀ c ∈ v, isBlank c = false)
    (hne : v ≠ []) (b : Bool) (cs : List Char) : clear b (v ++ cs) = clear false cs := by
  induction v generalizing b with
  | nil => exact absurd rfl hne
  | cons x v ih =>
    rw [List.cons_append, clear_cons_of_not_blank (hv x List.mem_cons_self)]
    cases v with
    | nil => rfl
    | cons y v => exact ih (fun d hd => hv d (List.mem_cons_of_mem _ hd)) (by simp) false

/-- White space followed by white space asks nothing of it. -/
lemma clear_cons_space {x y : Char} (hy : isSpace y) (b : Bool) (cs : List Char) :
    clear b (x :: y :: cs) = clear (isBlank x) (y :: cs) := by
  simp [clear, hy]

/-- Behind anything but white space it does not matter what came before. -/
lemma clear_of_not_space {x : Char} (hx : isSpace x = false) (b : Bool) (cs : List Char) :
    clear b (x :: cs) = clear false (x :: cs) := by
  have hb : isBlank x = false := by simp [isBlank, hx]
  rw [clear_cons_of_not_blank hb, clear_cons_of_not_blank hb]

/-! ### One alternative at a time -/

/-- What the code takes at the front of a text, against what the pattern leaves of it. -/
inductive Takes (cs : List Char) : Option ℕ → Option (List Char) → Prop
  | nothing : Takes cs none none
  | piece {w r : List Char} (hcs : cs = w ++ r) (hw : w ≠ [])
      (hclear : clear false cs = clear false r) : Takes cs (some (encode w).length) (some r)

/-- The letters of the contractions. -/
def contractionLetters : List Char := ['s', 't', 'm', 'd', 'r', 'v', 'l', 'e']

/-- A check of every letter. -/
lemma forall_letters {p : Char → Prop} [DecidablePred p]
    (h : contractionLetters.all (fun l => decide (p l)) = true) : ∀ l ∈ contractionLetters, p l :=
  fun l hl => of_decide_eq_true (List.all_eq_true.mp h l hl)

/-- A byte of the text as the code compares it: in lower case. -/
lemma lowerByte_iff {l : Char} (hl : l ∈ contractionLetters)
    (pre : List Char) (c : Char) (cs : List Char) (n : ℕ) (hn : n = (encode pre).length) :
    lowerByte (encode (pre ++ c :: cs)) n = UInt8.ofNat l.toNat ↔ anyCase l c = true := by
  obtain ⟨b, bs, hb⟩ := List.exists_cons_of_ne_nil (@String.utf8EncodeChar_ne_nil c)
  have hget : (encode (pre ++ c :: cs)).getD n 0 = b := by
    rw [hn, encode_append, encode_cons, hb, List.getD_eq_getElem?_getD,
      List.getElem?_append_right le_rfl, Nat.sub_self]
    rfl
  rw [lowerByte, hget]
  by_cases hlt : b.toNat < 0x80
  · have hbc := (lead_ascii hb (.inl hlt)).1
    have hc : c = Char.ofNat b.toNat := by rw [hbc, Char.ofNat_toNat]
    have hall : ∀ l ∈ contractionLetters, ∀ v : ℕ, v < 0x80 →
        (UInt8.ofNat v ||| 0x20 = UInt8.ofNat l.toNat ↔ anyCase l (Char.ofNat v) = true) :=
      forall_letters (by decide +kernel)
    rw [hc, ← hall l hl _ hlt, UInt8.ofNat_toNat]
  · have hge : ¬ c.toNat < 0x80 := fun h => hlt (by rw [(lead_ascii hb (.inr h)).1]; exact h)
    have hall : ∀ l ∈ contractionLetters, ∀ v : ℕ, v < 0x100 →
        UInt8.ofNat v ||| 0x20 = UInt8.ofNat l.toNat → v < 0x80 :=
      forall_letters (by decide +kernel)
    have hcase : ∀ l ∈ contractionLetters, l.toNat < 0x80 ∧ l.toUpper.toNat < 0x80 :=
      forall_letters (by decide +kernel)
    refine iff_of_false (fun h => hlt ?_) (fun h => hge ?_)
    · exact hall l hl _ b.toNat_lt (by rw [UInt8.ofNat_toNat]; exact h)
    · rcases (by simpa [anyCase] using h : c = l ∨ c = l.toUpper) with rfl | rfl
      · exact (hcase _ hl).1
      · exact (hcase _ hl).2

lemma first_word_cons (l : Char) (ls : List Char) (c : Char) (cs : List Char) :
    (word (l :: ls)).first (c :: cs) = if anyCase l c then (word ls).first cs else none :=
  first_one_seq_cons _ _ c cs

lemma first_word_nil (l : Char) (ls : List Char) : (word (l :: ls)).first [] = none := rfl

lemma first_empty (cs : List Char) : (word []).first cs = some cs := rfl

/-- A character is one letter at most, in either case. -/
lemma anyCase_inj {l l' c : Char} (hl : l ∈ contractionLetters) (hl' : l' ∈ contractionLetters)
    (h : anyCase l c = true) (h' : anyCase l' c = true) : l = l' := by
  have hall : ∀ l ∈ contractionLetters, contractionLetters.all (fun l' =>
      decide ((anyCase l' l = true → l = l') ∧ (anyCase l' l.toUpper = true → l = l'))) = true :=
    forall_letters (by decide +kernel)
  have hpair := forall_letters (hall l hl) l' hl'
  rcases (by simpa [anyCase] using h : c = l ∨ c = l.toUpper) with rfl | rfl
  · exact hpair.1 h'
  · exact hpair.2 h'

lemma anyCase_not_blank {l c : Char} (hl : l ∈ contractionLetters) (h : anyCase l c = true) :
    isBlank c = false := by
  have hall : ∀ l ∈ contractionLetters, isBlank l = false ∧ isBlank l.toUpper = false :=
    forall_letters (by decide +kernel)
  rcases (by simpa [anyCase] using h : c = l ∨ c = l.toUpper) with rfl | rfl
  · exact (hall _ hl).1
  · exact (hall _ hl).2

lemma anyCase_ascii {l c : Char} (hl : l ∈ contractionLetters) (h : anyCase l c = true) :
    (String.utf8EncodeChar c).length = 1 := by
  have hall : ∀ l ∈ contractionLetters, (String.utf8EncodeChar l).length = 1 ∧
      (String.utf8EncodeChar l.toUpper).length = 1 :=
    forall_letters (by decide +kernel)
  rcases (by simpa [anyCase] using h : c = l ∨ c = l.toUpper) with rfl | rfl
  · exact (hall _ hl).1
  · exact (hall _ hl).2

/-- The letter is one of the short contractions. -/
def isShort (c : Char) : Bool := anyCase 's' c || anyCase 't' c || anyCase 'm' c || anyCase 'd' c

/-- The letters are one of the long contractions. -/
def isLong (c d : Char) : Bool :=
  anyCase 'r' c && anyCase 'e' d || anyCase 'v' c && anyCase 'e' d || anyCase 'l' c && anyCase 'l' d

/-- No word is both. -/
lemma not_long_of_short {c : Char} (h : isShort c = true) :
    anyCase 'r' c = false ∧ anyCase 'v' c = false ∧ anyCase 'l' c = false := by
  have hne : ∀ l' ∈ contractionLetters, l' ∉ ['s', 't', 'm', 'd'] → anyCase l' c = false := by
    intro l' hl' hnot
    by_contra hc
    simp only [isShort, Bool.or_eq_true] at h
    rcases h with ((h | h) | h) | h <;>
      exact hnot (anyCase_inj (by decide) hl' h (by simpa using hc) ▸ by decide)
  exact ⟨hne 'r' (by decide) (by decide), hne 'v' (by decide) (by decide),
    hne 'l' (by decide) (by decide)⟩

/-- The contractions of the pattern. -/
lemma first_contractions (c : Char) (cs : List Char) :
    contractions.first ('\'' :: c :: cs) =
      if isShort c then some cs
      else match cs with
        | d :: ds => if isLong c d then some ds else none
        | [] => none := by
  have hq : anyCase '\'' '\'' = true := by decide
  simp only [contractions, anyOf, first_alt, first_word_cons, hq, if_pos, first_empty]
  by_cases hs : isShort c = true
  · obtain ⟨hr, hv, hl⟩ := not_long_of_short hs
    rw [if_pos hs]
    by_cases hs₁ : anyCase 's' c = true <;> by_cases hs₂ : anyCase 't' c = true <;>
      by_cases hs₃ : anyCase 'm' c = true <;> by_cases hs₄ : anyCase 'd' c = true <;>
        simp [isShort, hs₁, hs₂, hs₃, hs₄, hr, hv, hl] at hs ⊢
  · rw [if_neg hs]
    simp only [isShort, Bool.or_eq_true, not_or, Bool.not_eq_true] at hs
    obtain ⟨⟨⟨hs, ht⟩, hm⟩, hd⟩ := hs
    cases cs with
    | nil => simp [hs, ht, hm, hd, first_word_nil]
    | cons d ds =>
      simp only [hs, ht, hm, hd, first_word_cons, first_empty, isLong]
      by_cases hr : anyCase 'r' c = true <;> by_cases hv : anyCase 'v' c = true <;>
        by_cases hl : anyCase 'l' c = true <;> by_cases he : anyCase 'e' d = true <;>
          simp [hr, hv, hl, he]

lemma first_contractions_other {c : Char} (hc : c ≠ '\'') (cs : List Char) :
    contractions.first (c :: cs) = none := by
  have hq : anyCase '\'' c = false := by
    have hu : '\''.toUpper = '\'' := by decide
    simp [anyCase, hu, hc]
  simp [contractions, anyOf, first_alt, first_word_cons, hq]

/-- The byte behind the apostrophe. -/
lemma lowerByte_first {l : Char} (hl : l ∈ contractionLetters) (c : Char) (cs : List Char) :
    lowerByte (encode ('\'' :: c :: cs)) 1 = UInt8.ofNat l.toNat ↔ anyCase l c = true :=
  lowerByte_iff hl ['\''] c cs 1 rfl

/-- The two bytes behind it: the first is a letter, so the second is where the next character
stands. -/
lemma lowerByte_pair {l l' : Char} (hl : l ∈ contractionLetters) (hl' : l' ∈ contractionLetters)
    (c d : Char) (cs : List Char) :
    (lowerByte (encode ('\'' :: c :: d :: cs)) 1 = UInt8.ofNat l.toNat ∧
      lowerByte (encode ('\'' :: c :: d :: cs)) 2 = UInt8.ofNat l'.toNat) ↔
        anyCase l c = true ∧ anyCase l' d = true := by
  rw [lowerByte_first hl]
  refine and_congr_right fun hc => lowerByte_iff hl' ['\'', c] d cs 2 ?_
  rw [encode_cons, encode_cons, List.length_append, List.length_append, anyCase_ascii hl hc]
  rfl

lemma short_bytes_iff (c : Char) (cs : List Char) :
    (lowerByte (encode ('\'' :: c :: cs)) 1 = 0x73 ∨ lowerByte (encode ('\'' :: c :: cs)) 1 = 0x74 ∨
      lowerByte (encode ('\'' :: c :: cs)) 1 = 0x6D ∨
      lowerByte (encode ('\'' :: c :: cs)) 1 = 0x64) ↔ isShort c = true := by
  have hfirst : ∀ l ∈ contractionLetters,
      (lowerByte (encode ('\'' :: c :: cs)) 1 = UInt8.ofNat l.toNat ↔ anyCase l c = true) :=
    fun l hl => lowerByte_first hl c cs
  rw [isShort, Bool.or_eq_true, Bool.or_eq_true, Bool.or_eq_true, or_assoc, or_assoc]
  exact or_congr (hfirst 's' (by decide)) (or_congr (hfirst 't' (by decide))
    (or_congr (hfirst 'm' (by decide)) (hfirst 'd' (by decide))))

lemma long_bytes_iff (c d : Char) (cs : List Char) :
    (lowerByte (encode ('\'' :: c :: d :: cs)) 1 = 0x72 ∧
        lowerByte (encode ('\'' :: c :: d :: cs)) 2 = 0x65 ∨
      lowerByte (encode ('\'' :: c :: d :: cs)) 1 = 0x76 ∧
        lowerByte (encode ('\'' :: c :: d :: cs)) 2 = 0x65 ∨
      lowerByte (encode ('\'' :: c :: d :: cs)) 1 = 0x6C ∧
        lowerByte (encode ('\'' :: c :: d :: cs)) 2 = 0x6C) ↔ isLong c d = true := by
  have hpair : ∀ l ∈ contractionLetters, ∀ l' ∈ contractionLetters,
      (lowerByte (encode ('\'' :: c :: d :: cs)) 1 = UInt8.ofNat l.toNat ∧
        lowerByte (encode ('\'' :: c :: d :: cs)) 2 = UInt8.ofNat l'.toNat ↔
          anyCase l c = true ∧ anyCase l' d = true) :=
    fun l hl l' hl' => lowerByte_pair hl hl' c d cs
  simp only [isLong, Bool.or_eq_true, Bool.and_eq_true, or_assoc]
  exact or_congr (hpair 'r' (by decide) 'e' (by decide))
    (or_congr (hpair 'v' (by decide) 'e' (by decide)) (hpair 'l' (by decide) 'l' (by decide)))

/-- The contractions of the code. -/
lemma contraction_encode (c : Char) (cs : List Char) :
    contraction (encode ('\'' :: c :: cs)) =
      if isShort c then some 2
      else match cs with
        | d :: _ => if isLong c d then some 3 else none
        | [] => none := by
  have hlen := utf8EncodeChar_length_pos c
  rw [contraction, utf8Get_encode, if_pos ⟨rfl, by
    simp only [encode_cons, List.length_append]; change 2 ≤ 1 + _; omega⟩]
  dsimp only
  by_cases hs : isShort c = true
  · rw [if_pos ((short_bytes_iff c cs).mpr hs), if_pos hs]
  rw [if_neg (fun h => hs ((short_bytes_iff c cs).mp h)), if_neg hs]
  cases cs with
  | nil =>
    -- a word of two letters needs three bytes, and each of its letters is one
    split_ifs with hthree hword
    · have hone : (String.utf8EncodeChar c).length = 1 := by
        rcases hword with h | h | h
        · exact anyCase_ascii (l := 'r') (by decide) ((lowerByte_first (by decide) c []).mp h.1)
        · exact anyCase_ascii (l := 'v') (by decide) ((lowerByte_first (by decide) c []).mp h.1)
        · exact anyCase_ascii (l := 'l') (by decide) ((lowerByte_first (by decide) c []).mp h.1)
      simp only [encode_cons, encode_nil, List.length_append, List.length_nil, hone] at hthree
      exact absurd hthree (by decide)
    · rfl
    · rfl
  | cons d ds =>
    have hthree : 3 ≤ (encode ('\'' :: c :: d :: ds)).length := by
      have hd := utf8EncodeChar_length_pos d
      simp only [encode_cons, List.length_append]
      change 3 ≤ 1 + _
      omega
    rw [if_pos hthree]
    simp only [long_bytes_iff]

/-- A piece without blanks asks nothing of what follows. -/
lemma Takes.of_not_blank {w cs : List Char} (hw : w ≠ [])
    (hblank : ∀ c ∈ w, isBlank c = false) {n : ℕ} (hn : n = (encode w).length) :
    Takes (w ++ cs) (some n) (some cs) :=
  hn ▸ .piece rfl hw (clear_append_of_not_blank hblank hw false cs)

lemma contraction_takes (cs : List Char) :
    Takes cs (contraction (encode cs)) (contractions.first cs) := by
  match cs with
  | [] => exact .nothing
  | c :: cs =>
  by_cases hc : c = '\''
  · subst hc
    have hquote : isBlank '\'' = false := by decide
    cases cs with
    | nil => exact .nothing
    | cons c cs =>
      rw [contraction_encode, first_contractions]
      by_cases hs : isShort c = true
      · rw [if_pos hs, if_pos hs]
        have hc : isBlank c = false ∧ (String.utf8EncodeChar c).length = 1 := by
          simp only [isShort, Bool.or_eq_true] at hs
          rcases hs with ((h | h) | h) | h <;>
            exact ⟨anyCase_not_blank (by decide) h, anyCase_ascii (by decide) h⟩
        refine Takes.of_not_blank (w := ['\'', c]) (by simp) (by simp [hquote, hc.1]) ?_
        rw [encode_cons, encode_cons, List.length_append, List.length_append, hc.2]
        rfl
      · rw [if_neg hs, if_neg hs]
        cases cs with
        | nil => exact .nothing
        | cons d cs =>
          by_cases hl : isLong c d = true
          · simp only [hl, if_true]
            have hcd : (isBlank c = false ∧ (String.utf8EncodeChar c).length = 1) ∧
                isBlank d = false ∧ (String.utf8EncodeChar d).length = 1 := by
              simp only [isLong, Bool.or_eq_true, Bool.and_eq_true] at hl
              rcases hl with (h | h) | h <;>
                exact ⟨⟨anyCase_not_blank (by decide) h.1, anyCase_ascii (by decide) h.1⟩,
                  anyCase_not_blank (by decide) h.2, anyCase_ascii (by decide) h.2⟩
            refine Takes.of_not_blank (w := ['\'', c, d]) (by simp)
              (by simp [hquote, hcd.1.1, hcd.2.1]) ?_
            simp only [encode_cons, encode_nil, List.length_append, hcd.1.2, hcd.2.2]
            rfl
          · simp only [hl]
            exact .nothing
  · rw [first_contractions_other hc, contraction, utf8Get_encode, if_neg]
    · exact .nothing
    · exact fun h => hc (Char.toNat_inj.mp h.1)

/-- A run over a class, in characters and in bytes. -/
lemma runLength_pos_iff (p : ℕ → Bool) (cs : List Char) :
    0 < runLength p (encode cs) ↔ cs.takeWhile (fun c => p c.toNat) ≠ [] := by
  rw [runLength_encode]
  cases cs.takeWhile (fun c => p c.toNat) with
  | nil => simp
  | cons c w =>
    have hlen := utf8EncodeChar_length_pos c
    rw [encode_cons, List.length_append]
    exact iff_of_true (by omega) (by simp)

lemma not_blank_of_letter {c : Char} (h : isLetter c = true) : isBlank c = false := by
  have hsp : isSpace c = false := by
    by_contra hsp
    simp only [isSpace, Bool.not_eq_false] at hsp
    simp [isLetter, cpIsLetter, hsp] at h
  simp [isBlank, hsp]

lemma not_blank_of_other {c : Char} (h : isOther c = true) : isBlank c = false := by
  have hsp : isSpace c = false := by
    by_contra hsp
    simp only [isSpace, Bool.not_eq_false] at hsp
    simp [isOther, cpIsOther, hsp] at h
  simp [isBlank, hsp]

lemma not_blank_of_newline {c : Char} (h : isNewline c = true) : isBlank c = false := by
  simp [isBlank, h]

/-- A character in front of a run that it does not block. -/
lemma clear_lead {x : Char} {v : List Char} (hv : ∀ c ∈ v, isBlank c = false) (hne : v ≠ [])
    (hx : isWide x = false ∨ ∀ c ∈ v, isLetter c) (cs : List Char) :
    clear false (x :: v ++ cs) = clear false cs := by
  obtain ⟨y, v, rfl⟩ := List.exists_cons_of_ne_nil hne
  have hfront : (!(isWide x && !isSpace y) || (isLetter y && !false)) = true := by
    rcases hx with hx | hx
    · simp [hx]
    · simp [hx y List.mem_cons_self]
  calc clear false (x :: y :: v ++ cs) = clear (isBlank x) ((y :: v) ++ cs) := by
        rw [List.cons_append, List.cons_append, clear, hfront, Bool.true_and]
    _ = clear false cs := clear_append_of_not_blank hv hne _ cs

/-- Letters behind a lead. -/
lemma prefixedLetters_lead {c : Char} (hc : isLead c = true) (cs : List Char) :
    prefixedLetters (encode (c :: cs)) =
      if cs.takeWhile isLetter = [] then none
      else some (encode (c :: cs.takeWhile isLetter)).length := by
  have hc' : (!cpIsNewline c.toNat && !cpIsLetter c.toNat && !cpIsDigit c.toNat) = true := hc
  simp only [prefixedLetters, utf8Get_encode, hc', if_true, drop_encode]
  by_cases hrun : cs.takeWhile isLetter = []
  · rw [if_pos hrun, if_neg fun h => (runLength_pos_iff _ _).mp h hrun]
  · rw [if_neg hrun, if_pos ((runLength_pos_iff _ _).mpr hrun), runLength_encode, encode_cons,
      List.length_append]
    rfl

/-- Letters from the start. -/
lemma prefixedLetters_run {c : Char} (hc : isLead c = false) (cs : List Char) :
    prefixedLetters (encode (c :: cs)) =
      if (c :: cs).takeWhile isLetter = [] then none
      else some (encode ((c :: cs).takeWhile isLetter)).length := by
  have hc' : (!cpIsNewline c.toNat && !cpIsLetter c.toNat && !cpIsDigit c.toNat) = false := hc
  simp only [prefixedLetters, utf8Get_encode, hc', Bool.false_eq_true, if_false, List.drop_zero,
    Nat.zero_add]
  by_cases hrun : (c :: cs).takeWhile isLetter = []
  · rw [if_pos hrun, if_neg fun h => (runLength_pos_iff _ _).mp h hrun]
  · rw [if_neg hrun, if_pos ((runLength_pos_iff _ _).mpr hrun), runLength_encode]
    rfl

lemma letters_takes (c : Char) (cs : List Char) :
    Takes (c :: cs) (prefixedLetters (encode (c :: cs))) (letters.first (c :: cs)) := by
  rw [letters, first_opt_seq, first_one_seq_cons]
  by_cases hlead : isLead c = true
  · have hc : isLetter c = false := by
      simp only [isLead, Bool.and_eq_true, Bool.not_eq_true'] at hlead
      exact hlead.1.2
    rw [prefixedLetters_lead hlead, if_pos hlead, first_plus, first_plus_cons, hc]
    by_cases hrun : cs.takeWhile isLetter = []
    · rw [if_pos hrun, if_pos hrun]
      exact .nothing
    · rw [if_neg hrun, if_neg hrun, Option.some_or]
      have hcs : c :: cs = (c :: cs.takeWhile isLetter) ++ cs.dropWhile isLetter := by
        rw [List.cons_append, List.takeWhile_append_dropWhile]
      have hall : ∀ d ∈ cs.takeWhile isLetter, isLetter d := fun d => List.mem_takeWhile_imp
      refine .piece hcs (by simp) ?_
      rw [hcs]
      exact clear_lead (fun d hd => not_blank_of_letter (hall d hd)) hrun (.inr hall) _
  · rw [prefixedLetters_run (by simpa using hlead), if_neg hlead, Option.none_or, first_plus]
    by_cases hrun : (c :: cs).takeWhile isLetter = []
    · rw [if_pos hrun, if_pos hrun]
      exact .nothing
    · rw [if_neg hrun, if_neg hrun]
      have hcs : c :: cs = (c :: cs).takeWhile isLetter ++ (c :: cs).dropWhile isLetter :=
        List.takeWhile_append_dropWhile.symm
      refine .piece hcs hrun ?_
      conv_lhs => rw [hcs]
      exact clear_append_of_not_blank
        (fun d hd => not_blank_of_letter (List.mem_takeWhile_imp hd)) hrun false _

lemma digit_takes (c : Char) (cs : List Char) :
    Takes (c :: cs) (if isDigit c then some (String.utf8EncodeChar c).length else none)
      ((Pattern.one isDigit).first (c :: cs)) := by
  rw [first_one_cons]
  split_ifs with hd
  · have hsp : isBlank c = false := by
      simp only [isDigit, cpIsDigit, Bool.or_eq_true, Bool.and_eq_true, decide_eq_true_eq] at hd
      simp only [isBlank, isSpace, cpIsSpace, Bool.and_eq_false_iff, Bool.or_eq_false_iff,
        decide_eq_false_iff_not]
      omega
    exact Takes.of_not_blank (w := [c]) (by simp) (by simpa using hsp) (by simp)
  · exact .nothing

/-- A run of symbols and the line breaks behind it. -/
def symbolRun (cs : List Char) : List Char :=
  cs.takeWhile isOther ++ (cs.dropWhile isOther).takeWhile isNewline

lemma symbolRun_append (cs : List Char) :
    symbolRun cs ++ (cs.dropWhile isOther).dropWhile isNewline = cs := by
  rw [symbolRun, List.append_assoc, List.takeWhile_append_dropWhile,
    List.takeWhile_append_dropWhile]

lemma not_blank_of_symbolRun {cs : List Char} {c : Char} (hc : c ∈ symbolRun cs) :
    isBlank c = false := by
  rcases List.mem_append.mp hc with h | h
  · exact not_blank_of_other (List.mem_takeWhile_imp h)
  · exact not_blank_of_newline (List.mem_takeWhile_imp h)

/-- The symbols of the code, behind a space or not. -/
lemma prefixedSymbols_encode (s : List UInt8) (cs : List Char)
    (hdrop : s.drop (if (utf8Get s).1 = 0x20 then 1 else 0) = encode cs) :
    prefixedSymbols s =
      if cs.takeWhile isOther = [] then none
      else some ((if (utf8Get s).1 = 0x20 then 1 else 0) + (encode (symbolRun cs)).length) := by
  simp only [prefixedSymbols, ← List.drop_drop, hdrop]
  by_cases hrun : cs.takeWhile isOther = []
  · rw [if_pos hrun, if_neg fun h => (runLength_pos_iff _ _).mp h hrun]
  · rw [if_neg hrun, if_pos ((runLength_pos_iff _ _).mpr hrun), runLength_encode]
    have hsplit : encode cs = encode (cs.takeWhile isOther) ++ encode (cs.dropWhile isOther) := by
      rw [← encode_append, List.takeWhile_append_dropWhile]
    have hrest : (encode cs).drop (encode (cs.takeWhile fun c => cpIsOther c.toNat)).length =
        encode (cs.dropWhile isOther) := by
      rw [hsplit]
      exact List.drop_left
    rw [hrest, takeWhile_newline_encode, symbolRun, encode_append, List.length_append,
      Nat.add_assoc]
    rfl

lemma first_symbolRun (cs : List Char) :
    (Pattern.seq (.plus (.one isOther)) (.star (.one isNewline))).first cs =
      if cs.takeWhile isOther = [] then none
      else some ((cs.dropWhile isOther).dropWhile isNewline) := by
  rw [first_plus_seq_of_isSome _ _ fun t => by rw [first_star]; rfl, first_star]

lemma symbols_takes (c : Char) (cs : List Char) :
    Takes (c :: cs) (prefixedSymbols (encode (c :: cs))) (symbols.first (c :: cs)) := by
  rw [symbols, first_opt_seq, first_one_seq_cons]
  by_cases hc : c = ' '
  · subst hc
    have hsp : (decide (' ' = ' ')) = true := by decide
    have hother : isOther ' ' = false := by decide
    have hpos : (utf8Get (encode (' ' :: cs))).1 = 0x20 := by rw [utf8Get_encode]; rfl
    rw [prefixedSymbols_encode _ cs (by rw [hpos, if_pos rfl]; exact drop_encode ' ' cs),
      if_pos hpos, hsp, if_pos rfl, first_symbolRun, first_symbolRun, List.takeWhile_cons, hother]
    by_cases hrun : cs.takeWhile isOther = []
    · rw [if_pos hrun, if_pos hrun]
      exact .nothing
    · rw [if_neg hrun, if_neg hrun, Option.some_or]
      have hne : symbolRun cs ≠ [] := List.append_ne_nil_of_left_ne_nil hrun _
      have hcs : ' ' :: cs =
          (' ' :: symbolRun cs) ++ (cs.dropWhile isOther).dropWhile isNewline := by
        rw [List.cons_append, symbolRun_append]
      rw [show 1 + (encode (symbolRun cs)).length = (encode (' ' :: symbolRun cs)).length by
        rw [encode_cons, List.length_append]; rfl]
      refine .piece hcs (by simp) ?_
      conv_lhs => rw [hcs]
      exact clear_lead (fun d hd => not_blank_of_symbolRun hd) hne (.inl (by decide)) _
  · have hpos : ¬ (utf8Get (encode (c :: cs))).1 = 0x20 := by
      rw [utf8Get_encode]
      exact fun h => hc (Char.toNat_inj.mp h)
    have hc' : decide (c = ' ') = false := by simpa using hc
    rw [prefixedSymbols_encode _ (c :: cs) (by rw [if_neg hpos, List.drop_zero]), if_neg hpos,
      hc', if_neg Bool.false_ne_true, Option.none_or, first_symbolRun, Nat.zero_add]
    by_cases hrun : (c :: cs).takeWhile isOther = []
    · rw [if_pos hrun, if_pos hrun]
      exact .nothing
    · rw [if_neg hrun, if_neg hrun]
      have hne : symbolRun (c :: cs) ≠ [] := List.append_ne_nil_of_left_ne_nil hrun _
      refine .piece (symbolRun_append (c :: cs)).symm hne ?_
      conv_lhs => rw [← symbolRun_append (c :: cs)]
      exact clear_append_of_not_blank (fun d hd => not_blank_of_symbolRun hd) hne false _

lemma Takes.or {cs : List Char} {n n' : Option ℕ} {m m' : Option (List Char)}
    (h : Takes cs n m) (h' : Takes cs n' m') : Takes cs (n.or n') (m.or m') := by
  cases h with
  | nothing => exact h'
  | piece hcs hw hclear => exact .piece hcs hw hclear

/-- The alternatives before the white space, in the code. -/
def frontPiece (s : List UInt8) : Option ℕ :=
  (contraction s).or ((prefixedLetters s).or
    ((if cpIsDigit (utf8Get s).1 then some (utf8Get s).2 else none).or (prefixedSymbols s)))

lemma nextPiece_eq (s : List UInt8) : nextPiece s =
    (frontPiece s).getD (if cpIsSpace (utf8Get s).1 then spacePiece s else (utf8Get s).2) := by
  simp only [nextPiece, frontPiece]
  cases contraction s with
  | some n => rfl
  | none =>
    cases prefixedLetters s with
    | some n => rfl
    | none =>
      by_cases hd : cpIsDigit (utf8Get s).1 = true
      · simp [hd]
      · cases prefixedSymbols s <;> simp [hd]

/-- The alternatives before the white space, in the pattern. -/
def frontMatch (cs : List Char) : Option (List Char) :=
  (contractions.first cs).or ((letters.first cs).or
    (((Pattern.one isDigit).first cs).or (symbols.first cs)))

lemma first_qwen2 (cs : List Char) : qwen2.first cs =
    (frontMatch cs).or ((lines.first cs).or
      ((spaces.first cs).or ((Pattern.plus (.one isSpace)).first cs))) := by
  simp only [qwen2, anyOf, first_alt, frontMatch, Option.or_assoc]

lemma front_takes (c : Char) (cs : List Char) :
    Takes (c :: cs) (frontPiece (encode (c :: cs))) (frontMatch (c :: cs)) := by
  have hdigit := digit_takes c cs
  rw [frontPiece, utf8Get_encode]
  exact (contraction_takes _).or ((letters_takes c cs).or (hdigit.or (symbols_takes c cs)))

/-- Where none of them matches there is white space, and what follows a single one that is no
line break is no letter. -/
lemma space_of_no_front {c : Char} {cs : List Char} (h : frontMatch (c :: cs) = none) :
    isSpace c = true ∧ (isNewline c = false → ∀ d ∈ cs.head?, isLetter d = false) := by
  simp only [frontMatch, Option.or_eq_none_iff] at h
  obtain ⟨-, hletters, hdigit, hsymbols⟩ := h
  have hl : isLetter c = false := by
    by_contra hl
    simp only [Bool.not_eq_false] at hl
    have hlead : isLead c = false := by simp [isLead, hl]
    rw [letters, first_opt_seq, first_one_seq_cons, hlead, first_plus_cons, hl] at hletters
    cases hletters
  have hd : isDigit c = false := by
    by_contra hd
    simp only [Bool.not_eq_false] at hd
    rw [first_one_cons, hd] at hdigit
    cases hdigit
  have ho : isOther c = false := by
    by_contra ho
    simp only [Bool.not_eq_false] at ho
    rw [symbols, first_opt_seq, Option.or_eq_none_iff, first_symbolRun,
      List.takeWhile_cons, ho] at hsymbols
    cases hsymbols.2
  have hsp : isSpace c = true := by
    by_contra hsp
    exact absurd ho (by
      simp only [isSpace, isLetter, isDigit, isOther, cpIsOther] at hsp hl hd ⊢
      simp [hsp, hl, hd])
  refine ⟨hsp, fun hnl d hd' => ?_⟩
  cases cs with
  | nil => cases hd'
  | cons e cs =>
    obtain rfl := Option.some.inj hd'
    by_contra he
    have hlead : isLead c = true := by simp [isLead, hnl, hl, hd]
    rw [letters, first_opt_seq, first_one_seq_cons, hlead, if_pos rfl, first_plus_cons,
      if_pos (by simpa using he)] at hletters
    cases hletters

/-! ### White space -/

lemma not_newline_of_not_space {c : Char} (hc : isSpace c = false) : isNewline c = false := by
  by_contra h
  simp only [isNewline, cpIsNewline, Bool.not_eq_false, Bool.or_eq_true, decide_eq_true_eq] at h
  simp only [isSpace, cpIsSpace, Bool.or_eq_false_iff, decide_eq_false_iff_not] at hc
  omega

/-- A list with a line break in it has a last one. -/
lemma exists_last_newline {v : List Char} (h : ∃ c ∈ v, isNewline c = true) :
    ∃ a c b, v = a ++ c :: b ∧ isNewline c = true ∧ ∀ d ∈ b, isNewline d = false := by
  induction v with
  | nil => obtain ⟨c, hc, -⟩ := h; cases hc
  | cons x v ih =>
    by_cases htail : ∃ c ∈ v, isNewline c = true
    · obtain ⟨a, c, b, rfl, hc, hb⟩ := ih htail
      exact ⟨x :: a, c, b, rfl, hc, hb⟩
    · obtain ⟨c, hc, hnl⟩ := h
      rcases List.mem_cons.mp hc with rfl | hc
      · refine ⟨[], c, v, rfl, hnl, fun d hd => ?_⟩
        by_contra hd'
        exact htail ⟨d, hd, by simpa using hd'⟩
      · exact absurd ⟨c, hc, hnl⟩ htail

section Run

variable {v r : List Char} (hv : ∀ c ∈ v, isSpace c = true) (hr : ∀ c ∈ r.head?, isSpace c = false)

include hv hr

/-- A run without line breaks. -/
lemma scanSpaces_run (hnl : ∀ c ∈ v, isNewline c = false) (stop : ℕ) (lastNl : Option ℕ) :
    scanSpaces (encode (v ++ r)) stop lastNl = (stop + (encode v).length, lastNl) := by
  obtain ⟨lastNl', heq, hkeep⟩ := scanSpaces_append hv r stop lastNl
  have hlast : lastNl' = lastNl := hkeep fun c hc => by simpa [isNewline] using hnl c hc
  rw [heq, hlast, scanSpaces_stop fun c hc => by simpa [isSpace] using hr c hc]

lemma spacePiece_run (hnl : ∀ c ∈ v, isNewline c = false) :
    spacePiece (encode (v ++ r)) =
      if r = [] then (encode v).length
      else if 2 ≤ (encode v).length then (encode v).length - 1
      else (encode v).length := by
  have hend : (encode (v ++ r)).length ≤ (encode v).length ↔ r = [] := by
    rw [encode_append, List.length_append]
    cases r with
    | nil => exact iff_of_true (Nat.le_refl _) rfl
    | cons c r =>
      have hlen := utf8EncodeChar_length_pos c
      rw [encode_cons, List.length_append]
      exact iff_of_false (by omega) (by simp)
  simp only [spacePiece, scanSpaces_run hv hr hnl, Nat.zero_add, hend]

omit hv in
/-- A run without line breaks is no line. -/
lemma first_lines_run (hnl : ∀ c ∈ v, isNewline c = false) : lines.first (v ++ r) = none := by
  have hplus : ∀ {c : Char} {s : List Char}, isNewline c = false →
      (Pattern.plus (.one isNewline)).first (c :: s) = none := by
    intro c s hc
    rw [first_plus_cons, hc]
    rfl
  rw [lines]
  induction v with
  | nil =>
    cases r with
    | nil => rfl
    | cons c r =>
      have hc : isSpace c = false := hr c rfl
      rw [List.nil_append, first_star_seq_cons, hc, if_neg Bool.false_ne_true,
        hplus (not_newline_of_not_space hc)]
  | cons c v ih =>
    rw [List.cons_append, first_star_seq_cons,
      ih fun d hd => hnl d (List.mem_cons_of_mem _ hd), hplus (hnl c List.mem_cons_self)]
    split_ifs <;> rfl

end Run

/-- A run that is the rest of the text is taken whole. -/
lemma first_spaces_end {v : List Char} (hv : ∀ c ∈ v, isSpace c = true) (hne : v ≠ []) :
    spaces.first v = some [] := by
  obtain ⟨c, v, rfl⟩ := List.exists_cons_of_ne_nil hne
  rw [spaces, first_plus_seq_cons, if_pos (hv c List.mem_cons_self)]
  refine v.append_nil ▸ first_star_seq_append (fun d hd => hv d (List.mem_cons_of_mem _ hd)) ?_
  rw [first_star_seq_nil]
  rfl

lemma ways_not_space (c : Char) (cs : List Char) :
    ((Pattern.one fun c => !isSpace c).ways (c :: cs)).isEmpty = isSpace c := by
  cases h : isSpace c <;> simp [ways, h]

/-- Of a run that something follows the last character is given back. -/
lemma first_spaces_run {u : List Char} {y z : Char} {r : List Char}
    (hu : ∀ c ∈ u, isSpace c = true) (hne : u ≠ []) (hy : isSpace y = true)
    (hz : isSpace z = false) : spaces.first (u ++ y :: z :: r) = some (y :: z :: r) := by
  obtain ⟨c, u, rfl⟩ := List.exists_cons_of_ne_nil hne
  rw [List.cons_append, spaces, first_plus_seq_cons, if_pos (hu c List.mem_cons_self)]
  refine first_star_seq_append (fun d hd => hu d (List.mem_cons_of_mem _ hd)) ?_
  rw [first_star_seq_cons, first_star_seq_cons, first_notAhead, first_notAhead, ways_not_space,
    ways_not_space, hy, hz]
  rfl

/-- A single space that something follows is not given back. -/
lemma first_spaces_single {y z : Char} {r : List Char} (hz : isSpace z = false) :
    spaces.first (y :: z :: r) = none := by
  rw [spaces, first_plus_seq_cons, first_star_seq_cons, first_notAhead, ways_not_space, hz]
  exact ite_self none

/-- A run with line breaks ends behind the last one, in the code and in the pattern. -/
lemma lines_takes {a b r : List Char} {c : Char} (ha : ∀ d ∈ a, isSpace d = true)
    (hc : isNewline c = true) (hb : ∀ d ∈ b, isSpace d = true ∧ isNewline d = false)
    (hr : ∀ d ∈ r.head?, isSpace d = false) :
    spacePiece (encode (a ++ c :: (b ++ r))) = (encode (a ++ [c])).length ∧
      lines.first (a ++ c :: (b ++ r)) = some (b ++ r) := by
  have hcr : c = '\r' ∨ c = '\n' := by
    simpa [isNewline, cpIsNewline, ← Char.toNat_inj] using hc
  have hcsp : isSpace c = true := by obtain rfl | rfl := hcr <;> decide
  have hone : (String.utf8EncodeChar c).length = 1 := by obtain rfl | rfl := hcr <;> rfl
  have hbsp : ∀ d ∈ b, isSpace d = true := fun d hd => (hb d hd).1
  have hbnl : ∀ d ∈ b, isNewline d = false := fun d hd => (hb d hd).2
  constructor
  · obtain ⟨lastNl, heq, -⟩ := scanSpaces_append ha (c :: (b ++ r)) 0 none
    have hstep : scanSpaces (encode (c :: (b ++ r))) (0 + (encode a).length) lastNl =
        scanSpaces (encode (b ++ r)) ((encode a).length + 1) (some (encode a).length) := by
      rw [scanSpaces, dif_neg (encode_ne_nil c _), utf8Get_encode]
      dsimp only
      rw [if_pos (show cpIsSpace c.toNat = true from hcsp),
        if_pos (show cpIsNewline c.toNat = true from hc), drop_encode, hone, Nat.zero_add]
    simp only [spacePiece, heq, hstep, scanSpaces_run hbsp hr hbnl]
    rw [encode_append, List.length_append, encode_cons, encode_nil, List.append_nil, hone]
  · refine first_star_seq_append ha ?_
    have hrest : (b ++ r).dropWhile isNewline = b ++ r := by
      cases b with
      | nil =>
        cases r with
        | nil => rfl
        | cons d r => simp [not_newline_of_not_space (hr d rfl)]
      | cons d b => simp [hbnl d List.mem_cons_self]
    have hnone : lines.first (b ++ r) = none := first_lines_run hr hbnl
    rw [lines] at hnone
    rw [first_star_seq_cons, hcsp, if_pos rfl, hnone, Option.none_or, first_plus_cons, hc,
      if_pos rfl, hrest]

/-- White space in front of white space asks nothing of what follows the run. -/
lemma clear_spaces_append {a : List Char} (ha : ∀ d ∈ a, isSpace d = true) {y : Char}
    (hy : isSpace y = true) (b : Bool) (cs : List Char) :
    clear b (a ++ y :: cs) = clear (a.getLast?.elim b isBlank) (y :: cs) := by
  induction a generalizing b with
  | nil => rfl
  | cons x a ih =>
    cases a with
    | nil => exact clear_cons_space hy b cs
    | cons z a =>
      rw [List.cons_append, List.cons_append,
        clear_cons_space (ha z (List.mem_cons_of_mem _ List.mem_cons_self)),
        ← List.cons_append, ih fun d hd => ha d (List.mem_cons_of_mem _ hd),
        List.getLast?_cons_cons]
      rfl

/-! ### One piece against one match -/

/-- The pattern takes `w` off the text; the code does so too exactly under a condition, which is
what the text asks in addition to what is left of it. -/
structure Step (cs w r : List Char) (good : Prop) : Prop where
  text : cs = w ++ r
  nonempty : w ≠ []
  first : qwen2.first cs = some r
  piece : nextPiece (encode cs) = (encode w).length ↔ good
  clear : clear false cs = true ↔ good ∧ clear false r = true

section WhiteSpace

variable {c : Char} {cs : List Char} (hfront : frontMatch (c :: cs) = none)

include hfront

/-- Where no alternative before the white space matches, both read the run. -/
lemma nextPiece_space : nextPiece (encode (c :: cs)) = spacePiece (encode (c :: cs)) := by
  have htakes := front_takes c cs
  rw [hfront] at htakes
  have hnone : frontPiece (encode (c :: cs)) = none := by
    generalize frontPiece (encode (c :: cs)) = n at htakes
    cases htakes
    rfl
  have hsp : cpIsSpace c.toNat = true := (space_of_no_front hfront).1
  rw [nextPiece_eq, hnone, utf8Get_encode, hsp]
  rfl

lemma first_space : qwen2.first (c :: cs) = (lines.first (c :: cs)).or
    ((spaces.first (c :: cs)).or (some (cs.dropWhile isSpace))) := by
  rw [first_qwen2, hfront, Option.none_or, first_plus_cons, (space_of_no_front hfront).1,
    if_pos rfl]

/-- A run with a line break. -/
lemma step_lines {v r : List Char} (htext : c :: cs = v ++ r) (hv : ∀ d ∈ v, isSpace d = true)
    (hr : ∀ d ∈ r.head?, isSpace d = false) (hnl : ∃ d ∈ v, isNewline d = true) :
    ∃ w r, Step (c :: cs) w r True := by
  obtain ⟨a, d, b, rfl, hd, hb⟩ := exists_last_newline hnl
  have ha : ∀ e ∈ a, isSpace e = true := fun e he => hv e (List.mem_append_left _ he)
  have hd' : isSpace d = true := hv d (by simp)
  have hb' : ∀ e ∈ b, isSpace e = true ∧ isNewline e = false := fun e he =>
    ⟨hv e (by simp [he]), hb e he⟩
  obtain ⟨hpiece, hfirst⟩ := lines_takes ha hd hb' hr
  rw [List.append_assoc, List.cons_append] at htext
  refine ⟨a ++ [d], b ++ r, by rw [htext, List.append_assoc]; rfl, by simp, ?_, ?_, ?_⟩
  · rw [first_space hfront, htext, hfirst, Option.some_or]
  · rw [nextPiece_space hfront, htext, hpiece]
    exact iff_of_true rfl trivial
  · rw [htext, clear_spaces_append ha hd', clear_cons_of_not_blank (not_blank_of_newline hd),
      true_and]

/-- A run without line breaks at the end of the text. -/
lemma step_end {v : List Char} (htext : c :: cs = v) (hv : ∀ d ∈ v, isSpace d = true)
    (hnl : ∀ d ∈ v, isNewline d = false) : Step (c :: cs) v [] True := by
  have hne : v ≠ [] := by rw [← htext]; simp
  have hr : ∀ d ∈ ([] : List Char).head?, isSpace d = false := by simp
  have hlines := first_lines_run (v := v) hr hnl
  have hpiece := spacePiece_run hv hr hnl
  rw [List.append_nil] at hlines hpiece
  refine ⟨by rw [htext, List.append_nil], hne, ?_, ?_, ?_⟩
  · rw [first_space hfront, htext, hlines, first_spaces_end hv hne]
    rfl
  · rw [nextPiece_space hfront, htext, hpiece, if_pos rfl]
    exact iff_of_true rfl trivial
  · have hlast := clear_spaces_append (a := v.dropLast) (y := v.getLast hne)
      (fun d hd => hv d (List.mem_of_mem_dropLast hd)) (hv _ (List.getLast_mem hne)) false []
    rw [List.dropLast_append_getLast] at hlast
    rw [htext, hlast]
    exact iff_of_true rfl ⟨trivial, rfl⟩

/-- A run without line breaks in front of something else: its last character is given back. -/
lemma step_run {u r : List Char} {y z : Char} (htext : c :: cs = u ++ y :: z :: r)
    (hne : u ≠ []) (hv : ∀ d ∈ u ++ [y], isSpace d = true) (hz : isSpace z = false)
    (hnl : ∀ d ∈ u ++ [y], isNewline d = false) :
    Step (c :: cs) u (y :: z :: r) (isWide y = false) := by
  have hu : ∀ d ∈ u, isSpace d = true := fun d hd => hv d (List.mem_append_left _ hd)
  have hy : isSpace y = true := hv y (by simp)
  have hr : ∀ d ∈ (z :: r).head?, isSpace d = false := by simpa using hz
  have hlines := first_lines_run hr hnl
  have hpiece := spacePiece_run hv hr hnl
  rw [List.append_assoc, List.singleton_append] at hlines hpiece
  have hulen : 1 ≤ (encode u).length := by
    obtain ⟨d, u, rfl⟩ := List.exists_cons_of_ne_nil hne
    have := utf8EncodeChar_length_pos d
    rw [encode_cons, List.length_append]
    omega
  have hylen := utf8EncodeChar_length_pos y
  have hlen : (encode (u ++ [y])).length =
      (encode u).length + (String.utf8EncodeChar y).length := by
    rw [encode_append, encode_cons, encode_nil, List.append_nil, List.length_append]
  have hwide : isWide y = false ↔ (String.utf8EncodeChar y).length = 1 := by
    simp only [isWide, hy, Bool.true_and, decide_eq_false_iff_not]
    omega
  have hafter : u.getLast?.elim false isBlank = true := by
    rw [List.getLast?_eq_some_getLast hne]
    have hlast := List.getLast_mem hne
    simp [isBlank, hu _ hlast, hnl _ (List.mem_append_left _ hlast)]
  refine ⟨htext, hne, ?_, ?_, ?_⟩
  · rw [first_space hfront, htext, hlines, first_spaces_run hu hne hy hz]
    rfl
  · rw [nextPiece_space hfront, htext, hpiece, if_neg (by simp), if_pos (by omega), hlen, hwide]
    omega
  · rw [htext, clear_spaces_append hu hy, hafter]
    simp only [clear, hz, Bool.not_false, Bool.and_true, Bool.not_true, Bool.and_false,
      Bool.or_false, Bool.and_eq_true, Bool.not_eq_true']
    refine and_congr_right fun hw => ?_
    simp [hw]

/-- A single space in front of something else. -/
lemma step_single {z : Char} {r : List Char} (htext : cs = z :: r) (hz : isSpace z = false)
    (hnl : isNewline c = false) : Step (c :: cs) [c] (z :: r) (isWide c = false) := by
  obtain ⟨hsp, hletter⟩ := space_of_no_front hfront
  have hv : ∀ d ∈ [c], isSpace d = true := by simpa using hsp
  have hnl' : ∀ d ∈ [c], isNewline d = false := by simpa using hnl
  have hr : ∀ d ∈ (z :: r).head?, isSpace d = false := by simpa using hz
  have hlines := first_lines_run hr hnl'
  have hpiece := spacePiece_run hv hr hnl'
  rw [List.singleton_append] at hlines hpiece
  have hlen := utf8EncodeChar_length_pos c
  have hone : (encode [c]).length = (String.utf8EncodeChar c).length := by
    rw [encode_cons, encode_nil, List.append_nil]
  have hwide : isWide c = false ↔ (String.utf8EncodeChar c).length = 1 := by
    simp only [isWide, hsp, Bool.true_and, decide_eq_false_iff_not]
    omega
  have hzl : isLetter z = false := hletter hnl z (by rw [htext]; rfl)
  refine ⟨by rw [htext]; rfl, by simp, ?_, ?_, ?_⟩
  · rw [first_space hfront, htext, hlines, first_spaces_single hz, List.dropWhile_cons, hz]
    rfl
  · rw [nextPiece_space hfront, htext, hpiece, if_neg (by simp), hone, hwide]
    split_ifs <;> omega
  · rw [htext]
    simp only [clear, hz, hzl, Bool.not_false, Bool.and_true, Bool.or_false, Bool.and_eq_true,
      Bool.not_eq_true', clear_of_not_space hz (isBlank c)]

end WhiteSpace

/-- Every text has its first match, and the code finds it exactly under a condition. -/
theorem exists_step (c : Char) (cs : List Char) : ∃ w r good, Step (c :: cs) w r good := by
  have htakes := front_takes c cs
  cases hm : frontMatch (c :: cs) with
  | some r =>
    rw [hm] at htakes
    generalize hn : frontPiece (encode (c :: cs)) = n at htakes
    cases htakes with
    | @piece w _ htext hne hclear =>
      refine ⟨w, r, True, htext, hne, ?_, ?_, by rw [hclear, true_and]⟩
      · rw [first_qwen2, hm, Option.some_or]
      · rw [nextPiece_eq, hn]
        exact iff_of_true rfl trivial
  | none =>
    obtain ⟨hsp, -⟩ := space_of_no_front hm
    have htext : c :: cs = (c :: cs).takeWhile isSpace ++ (c :: cs).dropWhile isSpace :=
      List.takeWhile_append_dropWhile.symm
    have hv : ∀ d ∈ (c :: cs).takeWhile isSpace, isSpace d = true := fun d =>
      List.mem_takeWhile_imp
    have hr : ∀ d ∈ ((c :: cs).dropWhile isSpace).head?, isSpace d = false := by
      intro d hd
      have hhead := List.head?_dropWhile_not isSpace (c :: cs)
      rw [Option.mem_def.mp hd] at hhead
      simpa using hhead
    have hhead : ((c :: cs).takeWhile isSpace).head? = some c := by
      rw [List.takeWhile_cons, hsp]
      rfl
    generalize (c :: cs).takeWhile isSpace = v at htext hv hhead
    generalize (c :: cs).dropWhile isSpace = r at htext hr
    by_cases hnl : ∃ d ∈ v, isNewline d = true
    · obtain ⟨w, r, hstep⟩ := step_lines hm htext hv hr hnl
      exact ⟨w, r, True, hstep⟩
    have hnl' : ∀ d ∈ v, isNewline d = false := fun d hd => by
      by_contra h
      exact hnl ⟨d, hd, by simpa using h⟩
    cases r with
    | nil =>
      rw [List.append_nil] at htext
      exact ⟨v, [], True, step_end hm htext hv hnl'⟩
    | cons z r =>
      have hz : isSpace z = false := hr z rfl
      obtain ⟨u, y, rfl⟩ : ∃ u y, v = u ++ [y] :=
        ⟨_, _, (List.dropLast_append_getLast (by rintro rfl; cases hhead)).symm⟩
      by_cases hu : u = []
      · subst hu
        obtain ⟨rfl, rfl⟩ := List.cons.inj htext
        exact ⟨_, _, _, step_single hm rfl hz (hnl' c (by simp))⟩
      · rw [List.append_assoc, List.singleton_append] at htext
        exact ⟨_, _, _, step_run hm htext hu hv hz hnl'⟩

/-! ### The text -/

/-- The pieces are the matches exactly where every piece is the match in front of its text. -/
theorem splitPieces_eq_iff (cs : List Char) :
    splitPieces (encode cs) = (qwen2.findAll cs).map encode ↔ clear false cs = true := by
  -- on the length of the text, since a match is taken off its front
  induction h : cs.length using Nat.strong_induction_on generalizing cs with
  | _ n ih =>
  cases cs with
  | nil =>
    rw [encode_nil, splitPieces_nil, findAll_nil (by rfl)]
    exact iff_of_true rfl rfl
  | cons c cs =>
    obtain ⟨w, r, good, hstep⟩ := exists_step c cs
    have htext := hstep.text
    have hlen : r.length < n := by
      have hw := List.length_pos_iff.mpr hstep.nonempty
      rw [← h, htext, List.length_append]
      omega
    have hfirst := hstep.first
    rw [htext] at hfirst
    have hbound := (nextPiece_bounds (encode_ne_nil c cs)).2
    rw [hstep.clear, ← ih r.length hlen r rfl, splitPieces_cons (encode_ne_nil c cs)]
    conv_lhs =>
      rw [htext, findAll_cons hstep.nonempty hfirst, List.map_cons, List.cons.injEq]
    rw [← htext]
    by_cases hgood : good
    · rw [hstep.piece.mpr hgood, htext, encode_append, List.take_left, List.drop_left]
      exact and_congr_left fun _ => iff_of_true rfl hgood
    · -- the code took something else off
      refine iff_of_false (fun h => hgood (hstep.piece.mp ?_)) fun h => hgood h.1
      rw [← h.1, List.length_take, min_eq_left hbound]

/-- The pieces of a text are the successive matches of the split pattern, they are the text, and
every cut falls between two characters. -/
structure SplitsAsPattern (cs : List Char) : Prop where
  pieces : splitPieces (encode cs) = (qwen2.findAll cs).map encode
  whole : (splitPieces (encode cs)).flatten = encode cs
  boundaries : ∀ k, ∃ ds, ds <+: cs ∧ ((splitPieces (encode cs)).take k).flatten = encode ds

/-- `next_piece` cuts a text as the split pattern does exactly when no white space of more than
one byte is followed by something else, a letter that it leads apart. -/
theorem splits_as_pattern_iff (cs : List Char) :
    SplitsAsPattern cs ↔ clear false cs = true := by
  refine ⟨fun h => (splitPieces_eq_iff cs).mp h.pieces, fun h => ?_⟩
  have hpieces := (splitPieces_eq_iff cs).mpr h
  refine ⟨hpieces, splitPieces_flatten _, fun k => ⟨((qwen2.findAll cs).take k).flatten, ?_, ?_⟩⟩
  · have hwhole : (qwen2.findAll cs).flatten = cs := encode_injective <| by
      rw [encode_flatten, ← hpieces, splitPieces_flatten]
    conv_rhs => rw [← hwhole, ← List.take_append_drop k (qwen2.findAll cs), List.flatten_append]
    exact List.prefix_append _ _
  · rw [hpieces, ← List.map_take, encode_flatten]

/-- A no-break space in front of an exclamation mark is cut in two. -/
theorem splits_as_pattern_nbsp : ¬ SplitsAsPattern ['\u00A0', '!'] := fun h =>
  absurd ((splitPieces_eq_iff _).mp h.pieces) (by decide)

end VibeVoice.Tokenizer
