import VibeVoice.Tokenizer.Pretokenize

/-!
The byte-level alphabet of `bpe.c`: every byte has a printable codepoint, and the text of a token
spells its bytes with them.

* `bytelevelBuild`: the two tables `bytelevel_init` fills once.
* `byteSymbol`: the codepoint of a byte, written by `utf8_put`.
* `Built`, `built`: what the tables hold.
* `cpToByte_nonneg_iff`: which codepoints below 256 stand for a byte.
* `utf8Put_char`: `utf8_put` writes the bytes of a character.
* `utf8Get_byteSymbol`, `cpToByte_byteToCp`: a symbol is read back as its byte.
-/

namespace VibeVoice.Tokenizer

/-! ### The tables -/

/-- `printable[b]`. -/
def printable (b : ℕ) : Bool :=
  (0x21 ≤ b && b ≤ 0x7E) || (0xA1 ≤ b && b ≤ 0xAC) || (0xAE ≤ b && b ≤ 0xFF)

/-- `g_byte_to_cp`, `g_cp_to_byte` and the counter `n` of `bytelevel_build`. -/
structure Alphabet where
  byteToCp : List ℕ
  cpToByte : List ℤ
  n : ℕ

/-- One turn of the loop over the bytes. -/
def bytelevelStep (t : Alphabet) (b : ℕ) : Alphabet :=
  let cp := if printable b then b else 256 + t.n
  { byteToCp := t.byteToCp.set b cp
    cpToByte := if cp < 324 then t.cpToByte.set cp b else t.cpToByte
    n := if printable b then t.n else t.n + 1 }

/-- `bytelevel_build`. -/
def bytelevelBuild : Alphabet :=
  (List.range 256).foldl bytelevelStep ⟨List.replicate 256 0, List.replicate 324 (-1), 0⟩

/-- `g_byte_to_cp[b]`. -/
def byteToCp (b : UInt8) : ℕ := bytelevelBuild.byteToCp.getD b.toNat 0

/-- `(cp < 324) ? g_cp_to_byte[cp] : -1`. -/
def cpToByte (cp : ℕ) : ℤ := if cp < 324 then bytelevelBuild.cpToByte.getD cp 0 else -1

/-- `utf8_put`. -/
def utf8Put (cp : ℕ) : List UInt8 :=
  if cp < 0x80 then [UInt8.ofNat cp]
  else if cp < 0x800 then [UInt8.ofNat (0xC0 ||| cp >>> 6), UInt8.ofNat (0x80 ||| cp &&& 0x3F)]
  else if cp < 0x10000 then
    [UInt8.ofNat (0xE0 ||| cp >>> 12), UInt8.ofNat (0x80 ||| cp >>> 6 &&& 0x3F),
      UInt8.ofNat (0x80 ||| cp &&& 0x3F)]
  else
    [UInt8.ofNat (0xF0 ||| cp >>> 18), UInt8.ofNat (0x80 ||| cp >>> 12 &&& 0x3F),
      UInt8.ofNat (0x80 ||| cp >>> 6 &&& 0x3F), UInt8.ofNat (0x80 ||| cp &&& 0x3F)]

/-- What `encode_text_run` writes for a byte. -/
def byteSymbol (b : UInt8) : List UInt8 := utf8Put (byteToCp b)

/-! ### What the tables hold -/

/-- The bytes below `b` that are not printable. -/
def outside (b : ℕ) : ℕ := (List.range b).countP fun c => !printable c

/-- The codepoint of a byte. -/
def cpOf (b : ℕ) : ℕ := if printable b then b else 256 + outside b

lemma outside_succ (b : ℕ) : outside (b + 1) = outside b + if printable b then 0 else 1 := by
  rw [outside, List.range_succ, List.countP_append, List.countP_singleton, outside]
  cases printable b <;> rfl

lemma outside_mono {b c : ℕ} (h : b ≤ c) : outside b ≤ outside c :=
  (List.range_sublist.mpr h).countP_le

lemma outside_lt {b c : ℕ} (hb : printable b = false) (h : b < c) : outside b < outside c := by
  have hle : outside (b + 1) ≤ outside c := outside_mono h
  rw [outside_succ, hb, if_neg (by decide)] at hle
  exact hle

lemma cpOf_lt {b : ℕ} (h : b < 256) : cpOf b < 324 := by
  have htotal : outside 256 = 68 := by decide +kernel
  rw [cpOf]
  cases hb : printable b with
  | true => simpa using h.trans (by decide)
  | false =>
    have := outside_lt hb h
    rw [if_neg (by decide)]
    omega

/-- No two bytes share a codepoint. -/
lemma cpOf_ne {b c : ℕ} (hbc : b < c) (hc : c < 256) : cpOf b ≠ cpOf c := by
  rw [cpOf, cpOf]
  cases hb : printable b <;> cases printable c
  · have := outside_lt hb hbc
    rw [if_neg (by decide), if_neg (by decide)]
    omega
  · rw [if_neg (by decide), if_pos rfl]
    omega
  · rw [if_pos rfl, if_neg (by decide)]
    omega
  · rw [if_pos rfl, if_pos rfl]
    omega

/-- The tables after the bytes below `k`. -/
structure Built (k : ℕ) (t : Alphabet) : Prop where
  n : t.n = outside k
  cps : t.byteToCp.length = 256
  bytes : t.cpToByte.length = 324
  forth : ∀ b < k, t.byteToCp.getD b 0 = cpOf b
  back : ∀ b < k, t.cpToByte.getD (cpOf b) 0 = b

lemma getD_set {α : Type} (l : List α) (i j : ℕ) (a d : α) (hj : j < l.length) :
    (l.set i a).getD j d = if i = j then a else l.getD j d := by
  rw [List.getD_eq_getElem?_getD, List.getElem?_set, List.getD_eq_getElem?_getD]
  split_ifs <;> first | rfl | omega

lemma Built.step {k : ℕ} {t : Alphabet} (h : Built k t) (hk : k < 256) :
    Built (k + 1) (bytelevelStep t k) := by
  have hcp : (if printable k then k else 256 + t.n) = cpOf k := by rw [cpOf, h.n]
  have hlt := cpOf_lt hk
  simp only [bytelevelStep, hcp, if_pos hlt]
  refine ⟨?_, ?_, ?_, fun b hb => ?_, fun b hb => ?_⟩
  · dsimp only
    rw [outside_succ, h.n]
    split_ifs <;> rfl
  · exact List.length_set.trans h.cps
  · exact List.length_set.trans h.bytes
  · rw [getD_set _ _ _ _ _ (by rw [h.cps]; omega)]
    rcases Nat.lt_succ_iff_lt_or_eq.mp hb with hlt' | rfl
    · rw [if_neg (by omega), h.forth b hlt']
    · rw [if_pos rfl]
  · rw [getD_set _ _ _ _ _ (by rw [h.bytes]; exact cpOf_lt (by omega))]
    rcases Nat.lt_succ_iff_lt_or_eq.mp hb with hlt' | rfl
    · rw [if_neg (cpOf_ne hlt' hk).symm, h.back b hlt']
    · rw [if_pos rfl]

/-- `bytelevel_build`, stopped after the bytes below `k`. -/
lemma built_range {k : ℕ} (hk : k ≤ 256) : Built k ((List.range k).foldl bytelevelStep
    ⟨List.replicate 256 0, List.replicate 324 (-1), 0⟩) := by
  induction k with
  | zero =>
    exact ⟨rfl, List.length_replicate, List.length_replicate,
      fun b hb => absurd hb (Nat.not_lt_zero b), fun b hb => absurd hb (Nat.not_lt_zero b)⟩
  | succ k ih =>
    rw [List.range_succ, List.foldl_append]
    exact (ih (by omega)).step (by omega)

lemma built : Built 256 bytelevelBuild := built_range le_rfl

/-- A turn writes the entry of its own byte's codepoint only. -/
lemma Built.getD_step {k cp : ℕ} {t : Alphabet} (h : Built k t) (hk : k < 256) (hcp : cp < 324)
    (hne : cpOf k ≠ cp) :
    (bytelevelStep t k).cpToByte.getD cp 0 = t.cpToByte.getD cp 0 := by
  have hcpOf : (if printable k then k else 256 + t.n) = cpOf k := by rw [cpOf, h.n]
  simp only [bytelevelStep, hcpOf, if_pos (cpOf_lt hk)]
  rw [getD_set _ _ _ _ _ (by rw [h.bytes]; exact hcp), if_neg hne]

/-- A codepoint that no byte has keeps its `-1`. -/
lemma cpToByte_absent {cp : ℕ} (h : ∀ b < 256, cpOf b ≠ cp) : cpToByte cp = -1 := by
  rw [cpToByte]
  split_ifs with hcp
  · have hrun : ∀ k ≤ 256, ((List.range k).foldl bytelevelStep
        ⟨List.replicate 256 0, List.replicate 324 (-1), 0⟩).cpToByte.getD cp 0 = -1 := by
      intro k hk
      induction k with
      | zero =>
        rw [List.range_zero, List.foldl_nil, List.getD_eq_getElem?_getD,
          List.getElem?_replicate_of_lt hcp, Option.getD_some]
      | succ k ih =>
        rw [List.range_succ, List.foldl_append, List.foldl_cons, List.foldl_nil,
          (built_range (show k ≤ 256 by omega)).getD_step (by omega) hcp (h k (by omega))]
        exact ih (by omega)
    exact hrun 256 le_rfl
  · rfl

/-- A codepoint below 256 stands for a byte if this byte is printable. -/
lemma cpToByte_nonneg_iff {cp : ℕ} (hcp : cp < 256) : 0 ≤ cpToByte cp ↔ printable cp := by
  constructor
  · intro h
    by_contra hout
    have habsent : cpToByte cp = -1 := cpToByte_absent fun b _ hb => by
      rw [cpOf] at hb
      split_ifs at hb with hprint
      · exact hout (hb ▸ hprint)
      · omega
    rw [habsent] at h
    exact absurd h (by decide)
  · intro h
    have hback := built.back cp hcp
    rw [cpOf, if_pos h] at hback
    rw [cpToByte, if_pos (by omega), hback]
    exact Int.natCast_nonneg cp

lemma byteToCp_lt (b : UInt8) : byteToCp b < 324 := by
  rw [byteToCp, built.forth _ b.toNat_lt]
  exact cpOf_lt b.toNat_lt

/-- The reverse table undoes the table. -/
theorem cpToByte_byteToCp (b : UInt8) : cpToByte (byteToCp b) = b.toNat := by
  rw [cpToByte, if_pos (byteToCp_lt b), byteToCp, built.forth _ b.toNat_lt,
    built.back _ b.toNat_lt]

/-! ### Writing and reading codepoints -/

/-- The low six bits behind the mark of a continuation byte. -/
lemma cont_or (v : ℕ) : 0x80 ||| v &&& 0x3F = v % 0x40 + 0x80 := by
  have h : ∀ x < 0x40, 0x80 ||| x = x + 0x80 := by decide
  rw [show (0x3F : ℕ) = 2 ^ 6 - 1 from rfl, Nat.and_two_pow_sub_one_eq_mod]
  exact h _ (Nat.mod_lt _ (by decide))

/-- On a codepoint of a character `utf8_put` writes its bytes. -/
theorem utf8Put_char (c : Char) : utf8Put c.toNat = String.utf8EncodeChar c := by
  have hv : c.val.toNat < 0x110000 := c.valid.elim (fun h => h.trans (by decide)) fun h => h.2
  change utf8Put c.val.toNat = _
  generalize hn : c.val.toNat = v at hv
  simp only [utf8Put, String.utf8EncodeChar, hn, cont_or, Nat.shiftRight_eq_div_pow]
  have h₂ : ∀ x < 0x20, 0xC0 ||| x = x + 0xC0 := by decide
  have h₃ : ∀ x < 0x10, 0xE0 ||| x = x + 0xE0 := by decide
  have h₄ : ∀ x < 0x08, 0xF0 ||| x = x + 0xF0 := by decide
  split_ifs with hlt hlt hlt hlt hlt hlt <;> first | omega | skip
  · rfl
  · rw [h₂ _ (by omega), Nat.mod_eq_of_lt (b := 0x20) (by omega)]
  · rw [h₃ _ (by omega), Nat.mod_eq_of_lt (b := 0x10) (by omega)]
  · rw [h₄ _ (by omega), Nat.mod_eq_of_lt (b := 0x08) (by omega)]

/-- A symbol is the text of one character. -/
lemma byteSymbol_char (b : UInt8) :
    ∃ c : Char, c.toNat = byteToCp b ∧ byteSymbol b = String.utf8EncodeChar c := by
  have hlt := byteToCp_lt b
  have hcp : (UInt32.ofNat (byteToCp b)).toNat = byteToCp b := by
    rw [UInt32.toNat_ofNat']
    omega
  obtain ⟨c, hc⟩ : ∃ c : Char, c.toNat = byteToCp b :=
    ⟨⟨UInt32.ofNat (byteToCp b), .inl (by rw [hcp]; omega)⟩, hcp⟩
  exact ⟨c, hc, by rw [byteSymbol, ← hc, utf8Put_char]⟩

/-- A symbol is read as one codepoint, whatever stands behind it. -/
lemma utf8Get_byteSymbol (b : UInt8) (s : List UInt8) :
    utf8Get (byteSymbol b ++ s) = (byteToCp b, (byteSymbol b).length) := by
  obtain ⟨c, hc, hsym⟩ := byteSymbol_char b
  rw [hsym, utf8Get_char, hc]

lemma byteSymbol_ne_nil (b : UInt8) : byteSymbol b ≠ [] := by
  obtain ⟨c, -, hsym⟩ := byteSymbol_char b
  rw [hsym]
  exact String.utf8EncodeChar_ne_nil

end VibeVoice.Tokenizer
