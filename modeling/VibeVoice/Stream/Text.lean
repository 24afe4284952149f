import VibeVoice.Lib.Utf8
import VibeVoice.Lib.Strip

/-!
The text emitter `vv_stream_text_*`.

Two hold-back automata are stacked: `raw` keeps the bytes of an incomplete character, `text` the
decoded bytes that may be the start of a control string.  The loops count down the bytes that
are left, of which each turn takes at least one.  Allocations succeed here; the session treats
an emitter that ran out of memory.

* `decodeRaw_spec`, `releaseText_spec`: what each automaton hands on and what it keeps.
* `text_incremental`: the joined deltas are one pass of removal over the decoded whole.
* `text_reference_iff`: they are the reference's text exactly when no control string is
  interrupted by others.
-/

namespace VibeVoice.Stream

open Utf8 Strip

/-! ### The emitter -/

/-- The strings of `k_strip`, in its order. -/
def controlStrings : List (List Char) :=
  ["<|text_chunk_end|>", "<|object_ref_start|>", "<|object_ref_end|>", "<|box_start|>",
    "<|speech_start|>", "<|speech_end|>", "<|speech_pad|>"].map String.toList

/-- `k_strip`. -/
def kStrip : List (List UInt8) := controlStrings.map encode

/-- `vv_stream_text`. -/
structure Text where
  raw : List UInt8
  text : List UInt8
  out : List UInt8
  deriving DecidableEq, Repr

/-- What `utf8_seq` answers: a sequence of `k` bytes, an incomplete one (`0`), or an invalid
subpart of `k` bytes (`-k`). -/
inductive Seq
  | whole (k : ℕ)
  | more
  | bad (k : ℕ)
  deriving DecidableEq, Repr

/-- The `need`, `lo` and `hi` of a lead byte from `0x80` on. -/
def utf8Lead (c : UInt8) : Option (ℕ × UInt8 × UInt8) :=
  if 0xC2 ≤ c ∧ c ≤ 0xDF then some (1, 0x80, 0xBF)
  else if c = 0xE0 then some (2, 0xA0, 0xBF)
  else if c = 0xED then some (2, 0x80, 0x9F)
  else if 0xE1 ≤ c ∧ c ≤ 0xEF then some (2, 0x80, 0xBF)
  else if c = 0xF0 then some (3, 0x90, 0xBF)
  else if c = 0xF4 then some (3, 0x80, 0x8F)
  else if 0xF1 ≤ c ∧ c ≤ 0xF3 then some (3, 0x80, 0xBF)
  else none

/-- The loop of `utf8_seq` from byte `i` on, with `left` bytes still needed. -/
def utf8Tail : ℕ → ℕ → UInt8 → UInt8 → List UInt8 → Seq
  | 0, i, _, _, _ => .whole i
  | _ + 1, _, _, _, [] => .more
  | left + 1, i, lo, hi, b :: s =>
    if b < lo ∨ hi < b then .bad i else utf8Tail left (i + 1) 0x80 0xBF s

/-- `utf8_seq`. -/
def utf8Seq : List UInt8 → Seq
  | [] => .more
  | c :: s =>
    if c < 0x80 then .whole 1
    else
      match utf8Lead c with
      | none => .bad 1
      | some (need, lo, hi) => utf8Tail need 1 lo hi s

/-- `k_replacement`. -/
def kReplacement : List UInt8 := [0xEF, 0xBF, 0xBD]

/-- The loop of `decode_raw`: the text it appends and the bytes it leaves. -/
def decodeLoop (final : Bool) : ℕ → List UInt8 → List UInt8 × List UInt8
  | 0, raw => ([], raw)
  | _ + 1, [] => ([], [])
  | n + 1, b :: s =>
    match utf8Seq (b :: s) with
    | .whole k =>
      let r := decodeLoop final n ((b :: s).drop k)
      ((b :: s).take k ++ r.1, r.2)
    | .bad k =>
      let r := decodeLoop final n ((b :: s).drop k)
      (kReplacement ++ r.1, r.2)
    | .more => if final then (kReplacement, []) else ([], b :: s)

/-- `decode_raw`. -/
def decodeRaw (t : Text) (final : Bool) : Text :=
  let r := decodeLoop final t.raw.length t.raw
  { t with raw := r.2, text := t.text ++ r.1 }

/-- `is_strip_prefix`. -/
def isStripPrefix (s : List UInt8) : Bool :=
  kStrip.any fun k => decide (s.length < k.length) && s.isPrefixOf k

/-- The `hit` of `release_text`: the length of the first control string at the start. -/
def stripHit (s : List UInt8) : Option ℕ := (kStrip.find? (·.isPrefixOf s)).map List.length

/-- The byte `'<'`. -/
def ltByte : UInt8 := 0x3C

/-- The loop of `release_text`: the text it appends to `out` and the text it keeps. -/
def releaseLoop (final : Bool) : ℕ → List UInt8 → List UInt8 × List UInt8
  | 0, s => ([], s)
  | _ + 1, [] => ([], [])
  | n + 1, c :: s =>
    -- everything up to the next `'<'` in one go
    let copy :=
      let r := releaseLoop final n (s.dropWhile (· ≠ ltByte))
      (c :: s.takeWhile (· ≠ ltByte) ++ r.1, r.2)
    if c = ltByte then
      match stripHit (c :: s) with
      | some pl => releaseLoop final n ((c :: s).drop pl)
      | none => if !final && isStripPrefix (c :: s) then ([], c :: s) else copy
    else copy

/-- `release_text`. -/
def releaseText (t : Text) (final : Bool) : Text :=
  let r := releaseLoop final t.text.length t.text
  { t with text := r.2, out := t.out ++ r.1 }

/-- `vv_stream_text_create`. -/
def textCreate : Text := { raw := [], text := [], out := [] }

/-- `text_step`, with the delta in `out`. -/
def textStep (t : Text) (bytes : List UInt8) (final : Bool) : Text :=
  releaseText (decodeRaw { t with raw := t.raw ++ bytes, out := [] } final) final

/-- `vv_stream_text_push`. -/
def textPush (t : Text) (bytes : List UInt8) : Text := textStep t bytes false

/-- `vv_stream_text_flush`. -/
def textFlush (t : Text) : Text := textStep t [] true

/-- The deltas of a sequence of pushes, and the emitter after them. -/
def textRun (t : Text) : List (List UInt8) → List (List UInt8) × Text
  | [] => ([], t)
  | p :: ps =>
    let t := textPush t p
    let r := textRun t ps
    (t.out :: r.1, r.2)

/-- The joined deltas of a chunk: of its pushes and of the flush. -/
def chunkText (t : Text) (pieces : List (List UInt8)) : List UInt8 :=
  (textRun t pieces).1.flatten ++ (textFlush (textRun t pieces).2).out

/-- A control string in two pieces around another character. -/
example : (textRun textCreate [encode "a<|bo".toList, encode "x_start|>é".toList]).1
    = [encode "a".toList, encode "é".toList] := by decide

/-! ### Sequences -/

/-- The ranges of the `left` bytes still needed. -/
def tailRanges (lo hi : UInt8) : ℕ → List (ℕ × ℕ)
  | 0 => []
  | left + 1 => (lo.toNat, hi.toNat) :: List.replicate left (0x80, 0xBF)

lemma tailRanges_next (left : ℕ) :
    tailRanges 0x80 0xBF left = List.replicate left (0x80, 0xBF) := by
  cases left <;> rfl

/-- The lead bytes of the source are the rows of the table. -/
lemma row_of_utf8Lead {c : UInt8} (hc : 0x80 ≤ c.toNat) : row c.toNat =
    (utf8Lead c).map fun r => tailRanges r.2.1 r.2.2 r.1 := by
  simp only [utf8Lead, UInt8.le_iff_toNat_le, ← UInt8.toNat_inj, UInt8.toNat_ofNat]
  split_ifs with h₁ h₂ h₃ h₄ h₅ h₆ h₇
  · exact row_two (by omega) (by omega)
  · rw [row_three (by omega) (by omega), if_pos (by omega), if_neg (by omega)]; rfl
  · rw [row_three (by omega) (by omega), if_neg (by omega), if_pos (by omega)]; rfl
  · rw [row_three (by omega) (by omega), if_neg (by omega), if_neg (by omega)]; rfl
  · rw [row_four (by omega) (by omega), if_pos (by omega), if_neg (by omega)]; rfl
  · rw [row_four (by omega) (by omega), if_neg (by omega), if_pos (by omega)]; rfl
  · rw [row_four (by omega) (by omega), if_neg (by omega), if_neg (by omega)]; rfl
  · have hlt := c.toNat_lt
    rw [row]
    split_ifs <;> first | rfl | omega

/-- What an answer says about the bytes after the lead byte, with `i` bytes read before. -/
def TailSpec (rs : List (ℕ × ℕ)) (i : ℕ) (s : List UInt8) : Seq → Prop
  | .whole k => ∃ xs tail, s = xs ++ tail ∧ Fits xs rs ∧ xs.length = rs.length ∧ k = i + xs.length
  | .more => Fits s rs ∧ s.length < rs.length
  | .bad k => ∃ xs z tail r, s = xs ++ z :: tail ∧ Fits xs rs ∧ rs[xs.length]? = some r ∧
      ¬ (r.1 ≤ z.toNat ∧ z.toNat ≤ r.2) ∧ k = i + xs.length

lemma TailSpec.cons {r : ℕ × ℕ} {rs : List (ℕ × ℕ)} {i : ℕ} {b : UInt8} {s : List UInt8} {a : Seq}
    (hb : r.1 ≤ b.toNat ∧ b.toNat ≤ r.2) (h : TailSpec rs (i + 1) s a) :
    TailSpec (r :: rs) i (b :: s) a := by
  cases a with
  | whole k =>
    obtain ⟨xs, tail, rfl, hfit, hlen, rfl⟩ := h
    exact ⟨b :: xs, tail, rfl, ⟨hb, hfit⟩, by simpa using hlen, by simp; omega⟩
  | more => exact ⟨⟨hb, h.1⟩, by simpa using h.2⟩
  | bad k =>
    obtain ⟨xs, z, tail, r', rfl, hfit, hr, hz, rfl⟩ := h
    exact ⟨b :: xs, z, tail, r', rfl, ⟨hb, hfit⟩, hr, hz, by simp; omega⟩

lemma utf8Tail_spec (left i : ℕ) (lo hi : UInt8) (s : List UInt8) :
    TailSpec (tailRanges lo hi left) i s (utf8Tail left i lo hi s) := by
  induction left generalizing i lo hi s with
  | zero => exact ⟨[], s, rfl, trivial, rfl, rfl⟩
  | succ left ih =>
    cases s with
    | nil => exact ⟨trivial, Nat.succ_pos _⟩
    | cons b s =>
      rw [utf8Tail]
      split_ifs with hb
      · refine ⟨[], b, s, _, rfl, trivial, rfl, ?_, rfl⟩
        simp only [UInt8.lt_iff_toNat_lt] at hb
        omega
      · refine .cons ?_ (tailRanges_next left ▸ ih (i + 1) 0x80 0xBF s)
        simp only [UInt8.lt_iff_toNat_lt] at hb
        omega

/-- What an answer of `utf8_seq` says about the bytes: a character, the start of one, or a
subpart that stays maximal whatever follows. -/
def SeqSpec (s : List UInt8) : Seq → Prop
  | .whole k => ∃ c tail, s = String.utf8EncodeChar c ++ tail ∧ k = (String.utf8EncodeChar c).length
  | .more => Initial s ∧ NoChar s ∧ s.length ≤ 3
  | .bad k => ∃ sub rest, s = sub ++ rest ∧ k = sub.length ∧
      ∀ t, NoChar (sub ++ (rest ++ t)) ∧ MaximalSubpart sub (rest ++ t)

/-- **`utf8_seq` reads the table.** -/
theorem utf8Seq_spec (b : UInt8) (s : List UInt8) : SeqSpec (b :: s) (utf8Seq (b :: s)) := by
  rw [utf8Seq]
  split_ifs with hascii
  · rw [UInt8.lt_iff_toNat_lt] at hascii
    obtain ⟨c, hc⟩ := @encode_of_row b [] _ (row_one hascii) rfl trivial
    exact ⟨c, s, by rw [hc]; rfl, by rw [hc]; rfl⟩
  · rw [UInt8.lt_iff_toNat_lt, not_lt] at hascii
    have hrow := row_of_utf8Lead hascii
    cases hlead : utf8Lead b with
    | none =>
      rw [hlead] at hrow
      exact ⟨[b], s, rfl, rfl, fun t => maximalSubpart_lead hrow (s ++ t)⟩
    | some r =>
      obtain ⟨need, lo, hi⟩ := r
      rw [hlead, Option.map_some] at hrow
      have hle : (tailRanges lo hi need).length ≤ 3 := row_length_le hrow
      have htail := utf8Tail_spec need 1 lo hi s
      simp only
      cases hseq : utf8Tail need 1 lo hi s with
      | whole k =>
        rw [hseq] at htail
        obtain ⟨xs, tail, rfl, hfit, hlen, rfl⟩ := htail
        obtain ⟨c, hc⟩ := encode_of_row hrow hlen hfit
        exact ⟨c, tail, by rw [hc]; rfl, by rw [hc, List.length_cons]; omega⟩
      | more =>
        rw [hseq] at htail
        obtain ⟨hinit, hno⟩ := initial_of_short hrow htail.1 htail.2
        have hlt := htail.2
        exact ⟨hinit, hno, by rw [List.length_cons]; omega⟩
      | bad k =>
        rw [hseq] at htail
        obtain ⟨xs, z, tail, r, rfl, hfit, hr, hz, rfl⟩ := htail
        refine ⟨b :: xs, z :: tail, rfl, by rw [List.length_cons]; omega, fun t => ?_⟩
        exact maximalSubpart_break hrow hfit hr hz (tail ++ t)

/-! ### Decoding -/

/-- Bytes that are not decoded yet: none, or the start of a character. -/
def Undecoded (raw : List UInt8) : Prop := raw = [] ∨ (Initial raw ∧ NoChar raw ∧ raw.length ≤ 3)

lemma encode_replacement : encode ['\uFFFD'] = kReplacement := by decide

/-- The bytes decoded by a step and the ones it leaves, against any bytes that follow; none
follow the last step. -/
lemma decodeLoop_spec (final : Bool) (n : ℕ) (raw : List UInt8) (hn : raw.length ≤ n) :
    ∃ cs rest, decodeLoop final n raw = (encode cs, rest) ∧ Undecoded rest ∧
      (final = true → rest = []) ∧
      ∀ t ds, (final = true → t = []) → DecodesReplace (rest ++ t) ds →
        DecodesReplace (raw ++ t) (cs ++ ds) := by
  induction n generalizing raw with
  | zero =>
    obtain rfl := List.length_eq_zero_iff.mp (Nat.le_zero.mp hn)
    exact ⟨[], [], rfl, .inl rfl, fun _ => rfl, fun t ds _ h => h⟩
  | succ n ih =>
    cases raw with
    | nil => exact ⟨[], [], rfl, .inl rfl, fun _ => rfl, fun t ds _ h => h⟩
    | cons b s =>
      have hspec := utf8Seq_spec b s
      cases hseq : utf8Seq (b :: s) with
      | whole k =>
        rw [hseq] at hspec
        obtain ⟨c, tail, hs, rfl⟩ := hspec
        have hpos := utf8EncodeChar_length_pos c
        have hlen : tail.length ≤ n := by
          have hsum := congrArg List.length hs
          rw [List.length_append] at hsum
          omega
        obtain ⟨cs, rest, hloop, hrest, hfin, hdec⟩ := ih tail hlen
        refine ⟨c :: cs, rest, ?_, hrest, hfin, fun t ds ht h => ?_⟩
        · simp only [decodeLoop, hseq]
          rw [hs, List.drop_left, List.take_left, hloop]
          rfl
        · rw [hs, List.append_assoc, List.cons_append]
          exact .char (hdec t ds ht h)
      | bad k =>
        rw [hseq] at hspec
        obtain ⟨sub, tail, hs, rfl, hsub⟩ := hspec
        have hpos := List.length_pos_iff.mpr (hsub []).2.nonempty
        have hlen : tail.length ≤ n := by
          have hsum := congrArg List.length hs
          rw [List.length_append] at hsum
          omega
        obtain ⟨cs, rest, hloop, hrest, hfin, hdec⟩ := ih tail hlen
        refine ⟨'\uFFFD' :: cs, rest, ?_, hrest, hfin, fun t ds ht h => ?_⟩
        · simp only [decodeLoop, hseq]
          rw [hs, List.drop_left, hloop, ← encode_replacement, ← encode_append]
          rfl
        · rw [hs, List.append_assoc, List.cons_append]
          exact .replace (hsub t).1 (hsub t).2 (hdec t ds ht h)
      | more =>
        rw [hseq] at hspec
        obtain ⟨hinit, hno, hlen⟩ := hspec
        cases final with
        | false =>
          refine ⟨[], b :: s, ?_, .inr ⟨hinit, hno, hlen⟩, by simp, fun t ds _ h => h⟩
          simp [decodeLoop, hseq]
        | true =>
          refine ⟨['\uFFFD'], [], ?_, .inl rfl, by simp, fun t ds ht h => ?_⟩
          · simp only [decodeLoop, hseq, if_true, encode_replacement]
          · obtain rfl := ht rfl
            have hsub := hinit.maximalSubpart (List.cons_ne_nil b s)
            exact .replace (by rwa [List.append_nil]) hsub h

/-! ### Releasing -/

lemma controlStrings_delimited : Delimited '<' controlStrings where
  shape := by
    have hall : ∀ k ∈ controlStrings, k.head? = some '<' ∧ '<' ∉ k.tail ∧ k.tail ≠ [] := by decide
    intro k hk
    obtain ⟨hhead, hlt, hne⟩ := hall k hk
    exact ⟨k.tail, List.eq_cons_of_mem_head? (by rw [hhead]; rfl), hlt, hne⟩
  prefix_free := by decide

lemma encode_lt : String.utf8EncodeChar '<' = [ltByte] := by decide

lemma lt_of_mem_encode {c : Char} (h : ltByte ∈ String.utf8EncodeChar c) : c = '<' := by
  have hc := ascii_of_mem (by decide) h
  exact encode_prefix_inj (s := [ltByte]) (hc ▸ List.prefix_rfl) (encode_lt ▸ List.prefix_rfl)

/-- No byte of another character is `'<'`. -/
lemma ne_lt_of_mem_encode {c : Char} (hc : c ≠ '<') :
    ∀ b ∈ String.utf8EncodeChar c, decide (b ≠ ltByte) = true := by
  intro b hb
  rw [decide_eq_true_eq]
  rintro rfl
  exact hc (lt_of_mem_encode hb)

/-- The run up to the next `'<'` ends between characters. -/
lemma takeWhile_encode (cs : List Char) :
    (encode cs).takeWhile (· ≠ ltByte) = encode (cs.takeWhile (· ≠ '<')) ∧
      (encode cs).dropWhile (· ≠ ltByte) = encode (cs.dropWhile (· ≠ '<')) := by
  induction cs with
  | nil => exact ⟨rfl, rfl⟩
  | cons c cs ih =>
    by_cases hc : c = '<'
    · subst hc
      rw [encode_cons, encode_lt]
      exact ⟨rfl, by simp [encode_lt]⟩
    · have hall := ne_lt_of_mem_encode hc
      rw [encode_cons, List.takeWhile_append_of_pos hall, List.dropWhile_append_of_pos hall,
        ih.1, ih.2]
      simp [hc]

lemma isPrefixOf_encode (k cs : List Char) :
    (encode k).isPrefixOf (encode cs) = k.isPrefixOf cs := by
  rw [Bool.eq_iff_iff, List.isPrefixOf_iff_prefix, List.isPrefixOf_iff_prefix, encode_prefix_iff]

/-- The bytes start with a control string when the characters do. -/
lemma stripHit_encode (cs : List Char) : stripHit (encode cs) =
    (controlStrings.find? (·.isPrefixOf cs)).map fun k => (encode k).length := by
  have hpred : (fun k : List UInt8 => k.isPrefixOf (encode cs)) ∘ encode
      = fun k => k.isPrefixOf cs := funext fun k => isPrefixOf_encode k cs
  rw [stripHit, kStrip, List.find?_map, hpred, Option.map_map]
  rfl

/-- `is_strip_prefix` on the bytes of some characters. -/
lemma isStripPrefix_encode (cs : List Char) (hne : cs ≠ []) :
    isStripPrefix (encode cs) = true ↔ Held controlStrings cs := by
  simp only [isStripPrefix, kStrip, List.any_map, List.any_eq_true, Function.comp,
    Bool.and_eq_true, decide_eq_true_eq, isPrefixOf_encode, List.isPrefixOf_iff_prefix]
  constructor
  · rintro ⟨k, hk, hlt, hpre⟩
    exact .inr ⟨k, hk, hpre, fun heq => by rw [heq] at hlt; exact lt_irrefl _ hlt⟩
  · rintro (hnil | ⟨k, hk, hpre, hneq⟩)
    · exact absurd hnil hne
    · refine ⟨k, hk, ?_, hpre⟩
      have hbytes := encode_prefix_iff.mpr hpre
      refine lt_of_le_of_ne hbytes.length_le fun heq => hneq ?_
      exact encode_injective (hbytes.eq_of_length heq)

/-- What `release_text` makes of some characters: the ones released and the ones kept, against
any characters that follow; none follow the last step. -/
def ReleaseSpec (final : Bool) (cs : List Char) (p : List UInt8 × List UInt8) : Prop :=
  ∃ o r, p = (encode o, encode r) ∧ Held controlStrings r ∧ (final = true → r = []) ∧
    ∀ t, (final = true → t = []) →
      removeOnce controlStrings (cs ++ t) = o ++ removeOnce controlStrings (r ++ t)

/-- A character at which no control string can start is released with the run behind it. -/
lemma ReleaseSpec.copy {final : Bool} {c : Char} {cs : List Char} {p : List UInt8 × List UInt8}
    (h : ReleaseSpec final (cs.dropWhile (· ≠ '<')) p)
    (hkeep : ∀ t, (final = true → t = []) → ∀ k ∈ controlStrings, ¬ k <+: c :: (cs ++ t)) :
    ReleaseSpec final (c :: cs) (encode (c :: cs.takeWhile (· ≠ '<')) ++ p.1, p.2) := by
  obtain ⟨o, r, rfl, hheld, hfin, hrem⟩ := h
  refine ⟨c :: cs.takeWhile (· ≠ '<') ++ o, r, by rw [← encode_append], hheld, hfin,
    fun t ht => ?_⟩
  have hrun : '<' ∉ cs.takeWhile (· ≠ '<') := fun hmem => by
    simpa using List.all_eq_true.mp List.all_takeWhile _ hmem
  have hsplit : cs ++ t = cs.takeWhile (· ≠ '<') ++ (cs.dropWhile (· ≠ '<') ++ t) := by
    rw [← List.append_assoc, List.takeWhile_append_dropWhile]
  rw [List.cons_append, removeOnce_keep (hkeep t ht), hsplit,
    removeOnce_run controlStrings_delimited hrun, hrem t ht]
  simp

/-- The loop of `release_text` makes one pass of removal. -/
lemma releaseLoop_spec (final : Bool) (n : ℕ) (cs : List Char) (hn : (encode cs).length ≤ n) :
    ReleaseSpec final cs (releaseLoop final n (encode cs)) := by
  induction n generalizing cs with
  | zero =>
    have hnil : encode cs = [] := List.length_eq_zero_iff.mp (Nat.le_zero.mp hn)
    obtain rfl := encode_injective (hnil.trans encode_nil.symm)
    exact ⟨[], [], rfl, .inl rfl, fun _ => rfl, fun t _ => rfl⟩
  | succ n ih =>
    cases cs with
    | nil => exact ⟨[], [], rfl, .inl rfl, fun _ => rfl, fun t _ => rfl⟩
    | cons c cs =>
      obtain ⟨htake, hdrop⟩ := takeWhile_encode cs
      have hrest : (encode (cs.dropWhile (· ≠ '<'))).length ≤ n := by
        have hle : (encode (cs.dropWhile (· ≠ '<'))).length ≤ (encode cs).length := by
          rw [← hdrop]; exact (List.dropWhile_suffix _).length_le
        have hpos := utf8EncodeChar_length_pos c
        rw [encode_cons, List.length_append] at hn
        omega
      by_cases hc : c = '<'
      · subst hc
        have hbytes : encode ('<' :: cs) = ltByte :: encode cs := by
          rw [encode_cons, encode_lt]; rfl
        have hhit := stripHit_encode ('<' :: cs)
        rw [hbytes] at hhit ⊢
        rw [releaseLoop, if_pos rfl]
        cases hfind : controlStrings.find? (·.isPrefixOf ('<' :: cs)) with
        | some k =>
          have hk := List.mem_of_find?_eq_some hfind
          have hpre : k <+: '<' :: cs :=
            List.isPrefixOf_iff_prefix.mp (by simpa using List.find?_some hfind)
          obtain ⟨s, hs⟩ := hpre
          rw [hhit, hfind, ← hbytes, ← hs, encode_append]
          simp only [Option.map_some, List.drop_left]
          have hlen : (encode s).length ≤ n := by
            have hpos : 0 < (encode k).length := by
              obtain ⟨b, k', rfl⟩ := List.exists_cons_of_ne_nil
                (controlStrings_delimited.ne_nil hk)
              have := utf8EncodeChar_length_pos b
              rw [encode_cons, List.length_append]
              omega
            rw [← hs, encode_append, List.length_append] at hn
            omega
          obtain ⟨o, r, hp, hheld, hfin, hrem⟩ := ih s hlen
          refine ⟨o, r, hp, hheld, hfin, fun t ht => ?_⟩
          rw [List.append_assoc, removeOnce_word controlStrings_delimited hk, hrem t ht]
        | none =>
          have hno : ∀ k ∈ controlStrings, ¬ k <+: '<' :: cs := by
            intro k hk
            have := List.find?_eq_none.mp hfind k hk
            rwa [List.isPrefixOf_iff_prefix] at this
          have hheld := isStripPrefix_encode ('<' :: cs) (List.cons_ne_nil _ _)
          rw [hbytes] at hheld
          rw [hhit, hfind]
          simp only [Option.map_none]
          split_ifs with hhold
          · -- held back, for the characters that follow
            simp only [Bool.and_eq_true, Bool.not_eq_true'] at hhold
            refine ⟨[], '<' :: cs, by rw [hbytes]; rfl, hheld.mp hhold.2, ?_, fun t _ => rfl⟩
            rw [hhold.1]
            exact fun h => absurd h Bool.false_ne_true
          · rw [htake, hdrop]
            have hcopy := (ih _ hrest).copy (c := '<') fun t ht => ?_
            · rw [encode_cons, encode_lt] at hcopy
              exact hcopy
            · cases final with
              | true =>
                rw [ht rfl, List.append_nil]
                exact hno
              | false =>
                refine not_prefix_append hno (fun h => hhold ?_) t
                rw [Bool.not_false, Bool.true_and]
                exact hheld.mpr h
      · obtain ⟨b, x, hb⟩ := List.exists_cons_of_ne_nil (@String.utf8EncodeChar_ne_nil c)
        have hall := ne_lt_of_mem_encode hc
        rw [hb] at hall
        have hx : ∀ y ∈ x, decide (y ≠ ltByte) = true := fun y hy =>
          hall y (List.mem_cons_of_mem b hy)
        have hbne : b ≠ ltByte := by simpa using hall b List.mem_cons_self
        rw [encode_cons, hb, List.cons_append, releaseLoop, if_neg hbne]
        rw [List.takeWhile_append_of_pos hx, List.dropWhile_append_of_pos hx, htake, hdrop]
        have hcopy := (ih _ hrest).copy (c := c) fun t _ =>
          controlStrings_delimited.not_prefix hc
        rw [encode_cons, hb, List.cons_append] at hcopy
        exact hcopy

/-! ### Runs -/

/-- The emitter after the bytes `bs` of a chunk, of which it has emitted `e`: what it withholds
is the start of a character and the start of a control string, and whatever follows, a pass over
the whole is what was emitted and a pass over the rest. -/
def Emitted (t : Text) (bs e : List UInt8) : Prop :=
  ∃ cs o r, e = encode o ∧ t.text = encode r ∧ Held controlStrings r ∧ Undecoded t.raw ∧
    (∀ x ds, DecodesReplace (t.raw ++ x) ds → DecodesReplace (bs ++ x) (cs ++ ds)) ∧
    ∀ x, removeOnce controlStrings (cs ++ x) = o ++ removeOnce controlStrings (r ++ x)

/-- Between chunks the emitter withholds nothing. -/
def Text.Clean (t : Text) : Prop := t.raw = [] ∧ t.text = []

lemma Text.Clean.emitted {t : Text} (h : t.Clean) : Emitted t [] [] :=
  ⟨[], [], [], rfl, h.2, .inl rfl, .inl h.1, fun x ds hx => by rwa [h.1] at hx, fun x => rfl⟩

/-- A step decodes and releases: the characters emitted and the two tails withheld. -/
lemma textStep_spec {t : Text} {r : List Char} (htext : t.text = encode r) (bytes : List UInt8)
    (final : Bool) : ∃ cs o r', (textStep t bytes final).out = encode o ∧
      (textStep t bytes final).text = encode r' ∧ Held controlStrings r' ∧
      Undecoded (textStep t bytes final).raw ∧
      (final = true → (textStep t bytes final).Clean) ∧
      (∀ x ds, (final = true → x = []) → DecodesReplace ((textStep t bytes final).raw ++ x) ds →
        DecodesReplace (t.raw ++ bytes ++ x) (cs ++ ds)) ∧
      ∀ x, (final = true → x = []) → removeOnce controlStrings (r ++ cs ++ x)
        = o ++ removeOnce controlStrings (r' ++ x) := by
  obtain ⟨cs, rest, hloop, hrest, hfin, hdec⟩ :=
    decodeLoop_spec final (t.raw ++ bytes).length (t.raw ++ bytes) le_rfl
  obtain ⟨o, r', hrel, hheld, hfin', hrem⟩ :=
    releaseLoop_spec final (encode (r ++ cs)).length (r ++ cs) le_rfl
  have hstep : textStep t bytes final = { raw := rest, text := encode r', out := encode o } := by
    simp only [textStep, decodeRaw, releaseText, hloop, htext, ← encode_append, hrel,
      List.nil_append]
  rw [hstep]
  refine ⟨cs, o, r', rfl, rfl, hheld, hrest, fun h => ⟨hfin h, ?_⟩, hdec, hrem⟩
  rw [hfin' h, encode_nil]

/-- A push keeps this. -/
lemma Emitted.push {t : Text} {bs e : List UInt8} (h : Emitted t bs e) (p : List UInt8) :
    Emitted (textPush t p) (bs ++ p) (e ++ (textPush t p).out) := by
  obtain ⟨cs, o, r, rfl, htext, _, _, hdec, hrem⟩ := h
  obtain ⟨cs', o', r', hout, htext', hheld, hraw, _, hdec', hrem'⟩ := textStep_spec htext p false
  refine ⟨cs ++ cs', o ++ o', r', by rw [encode_append]; exact congrArg _ hout, htext', hheld,
    hraw, fun x ds hx => ?_, fun x => ?_⟩
  · have hwhole := hdec' x ds (by simp) hx
    rw [List.append_assoc] at hwhole ⊢
    rw [List.append_assoc]
    exact hdec _ _ hwhole
  · have hpass := hrem' x (by simp)
    rw [List.append_assoc] at hpass ⊢
    rw [hrem, hpass, List.append_assoc]

/-- The flush completes the pass over the decoded whole. -/
lemma Emitted.flush {t : Text} {bs e : List UInt8} (h : Emitted t bs e) :
    (∃ cs, DecodesReplace bs cs ∧ e ++ (textFlush t).out
      = encode (removeOnce controlStrings cs)) ∧ (textFlush t).Clean := by
  obtain ⟨cs, o, r, rfl, htext, _, _, hdec, hrem⟩ := h
  obtain ⟨cs', o', r', hout, htext', _, _, hclean, hdec', hrem'⟩ := textStep_spec htext [] true
  have hc := hclean rfl
  refine ⟨⟨cs ++ cs', ?_, ?_⟩, hc⟩
  · have hrest : DecodesReplace ((textStep t [] true).raw ++ []) [] := by rw [hc.1]; exact .nil
    have hlast := hdec' [] [] (fun _ => rfl) hrest
    simpa using hdec [] cs' (by simpa using hlast)
  · have hr : r' = [] := encode_injective (htext'.symm.trans hc.2)
    have hlast := hrem' [] fun _ => rfl
    rw [hr, List.append_nil, List.append_nil, removeOnce_nil, List.append_nil] at hlast
    rw [hrem, hlast, encode_append]
    exact congrArg _ hout

/-- The deltas of a run are encoded characters. -/
lemma Emitted.run {t : Text} {bs e : List UInt8} (h : Emitted t bs e)
    (pieces : List (List UInt8)) :
    Emitted (textRun t pieces).2 (bs ++ pieces.flatten) (e ++ (textRun t pieces).1.flatten) ∧
      ∀ δ ∈ (textRun t pieces).1, ∃ ds, δ = encode ds := by
  induction pieces generalizing t bs e with
  | nil => simpa [textRun] using h
  | cons p ps ih =>
    obtain ⟨hrun, hvalid⟩ := ih (h.push p)
    refine ⟨by simpa [textRun] using hrun, fun δ hδ => ?_⟩
    rcases List.mem_cons.mp hδ with rfl | hδ
    · obtain ⟨cs, o, r, _, htext, _⟩ := h
      obtain ⟨cs', o', r', hout, _⟩ := textStep_spec htext p false
      exact ⟨o', hout⟩
    · exact hvalid δ hδ

/-- What the emitter withholds: the start of a character, at most three bytes of it, and a text
that is nothing or a proper prefix of a control string. -/
structure Withheld (t : Text) : Prop where
  raw : t.raw = [] ∨ (Initial t.raw ∧ NoChar t.raw)
  raw_length : t.raw.length ≤ 3
  text : t.text = [] ∨ ∃ k ∈ kStrip, t.text <+: k ∧ t.text ≠ k

lemma Emitted.withheld {t : Text} {bs e : List UInt8} (h : Emitted t bs e) : Withheld t := by
  obtain ⟨cs, o, r, _, htext, hheld, hraw, _⟩ := h
  refine ⟨hraw.imp id fun h => ⟨h.1, h.2.1⟩, ?_, ?_⟩
  · rcases hraw with h | h
    · simp [h]
    · exact h.2.2
  · rcases hheld with rfl | ⟨k, hk, hpre, hne⟩
    · exact .inl htext
    · refine .inr ⟨encode k, List.mem_map_of_mem hk, ?_, fun heq => hne ?_⟩
      · rw [htext]; exact encode_prefix_iff.mpr hpre
      · exact encode_injective (htext.symm.trans heq)

/-- **The incremental emitter is the one-shot function**: for every chunk and every split of its
bytes, from an emitter that withholds nothing. -/
theorem text_incremental (out : List UInt8) (pieces : List (List UInt8)) :
    ∃ cs, DecodesReplace pieces.flatten cs ∧
      (∀ ds, DecodesReplace pieces.flatten ds → ds = cs) ∧
      chunkText ⟨[], [], out⟩ pieces = encode (removeOnce controlStrings cs) ∧
      (∀ δ ∈ (textRun ⟨[], [], out⟩ pieces).1, ∃ ds, δ = encode ds) ∧
      (∃ ds, (textFlush (textRun ⟨[], [], out⟩ pieces).2).out = encode ds) ∧
      Withheld (textRun ⟨[], [], out⟩ pieces).2 ∧
      (textFlush (textRun ⟨[], [], out⟩ pieces).2).Clean := by
  have hclean : Text.Clean ⟨[], [], out⟩ := ⟨rfl, rfl⟩
  obtain ⟨hrun, hvalid⟩ := hclean.emitted.run pieces
  rw [List.nil_append, List.nil_append] at hrun
  obtain ⟨⟨cs, hdec, hall⟩, hdone⟩ := hrun.flush
  refine ⟨cs, hdec, fun ds hds => hds.unique hdec, hall, hvalid, ?_, hrun.withheld, hdone⟩
  obtain ⟨_, o, r, _, htext, _⟩ := hrun
  obtain ⟨_, o', _, hout, _⟩ := textStep_spec htext [] true
  exact ⟨o', hout⟩

/-! ### The reference -/

/-- The bytes of a word that starts with `'<'` stand in an encoded text only where the word
stands in it. -/
lemma encode_infix {body o : List Char} (h : encode ('<' :: body) <:+: encode o) :
    '<' :: body <:+: o := by
  obtain ⟨u, v, huv⟩ := h
  rw [List.append_assoc] at huv
  induction o generalizing u with
  | nil => simp [encode_lt] at huv
  | cons c o ih =>
    rw [encode_cons c o] at huv
    rcases List.append_eq_append_iff.mp huv with ⟨x, hx, hrest⟩ | ⟨x, rfl, hrest⟩
    · -- the word starts inside the first character, so at its start
      cases u with
      | nil =>
        have hpre : encode ('<' :: body) <+: encode (c :: o) := by
          rw [encode_cons c o, ← huv]
          exact List.prefix_append _ _
        exact (encode_prefix_iff.mp hpre).isInfix
      | cons b u =>
        cases x with
        | nil =>
          rw [List.append_nil] at hx
          exact (ih [] (by rw [List.nil_append]; simpa using hrest)).trans
            (List.suffix_cons c o).isInfix
        | cons y x =>
          rw [encode_cons, encode_lt, List.cons_append, List.cons_append] at hrest
          obtain ⟨rfl, _⟩ := List.cons.inj hrest
          have hmem : ltByte ∈ String.utf8EncodeChar c := by
            rw [hx]
            exact List.mem_append_right _ List.mem_cons_self
          obtain rfl := lt_of_mem_encode hmem
          have hlen := congrArg List.length hx
          rw [encode_lt, List.length_append] at hlen
          simp only [List.length_cons, List.length_nil] at hlen
          omega
    · exact (ih x hrest.symm).trans (List.suffix_cons c o).isInfix

/-- The encoded text contains a control string when the text does. -/
lemma contains_encode_iff (o : List Char) :
    (∃ k ∈ kStrip, k <:+: encode o) ↔ Contains controlStrings o := by
  constructor
  · rintro ⟨_, hk, hin⟩
    obtain ⟨k, hmem, rfl⟩ := List.mem_map.mp hk
    obtain ⟨body, rfl, _⟩ := controlStrings_delimited.shape k hmem
    exact ⟨_, hmem, encode_infix hin⟩
  · rintro ⟨k, hk, u, v, rfl⟩
    refine ⟨encode k, List.mem_map_of_mem hk, encode u, encode v, ?_⟩
    rw [encode_append, encode_append]

/-- **The emitted text is the reference's and contains no control string exactly when** no
control string of the decoded text is interrupted by others. -/
theorem text_reference_iff (out : List UInt8) (pieces : List (List UInt8)) :
    ∃ cs, DecodesReplace pieces.flatten cs ∧
      (∀ ds, DecodesReplace pieces.flatten ds → ds = cs) ∧
      ((chunkText ⟨[], [], out⟩ pieces = encode (removeEach controlStrings cs) ∧
          ∀ k ∈ kStrip, ¬ k <:+: chunkText ⟨[], [], out⟩ pieces) ↔
        ¬ Interrupted controlStrings cs) := by
  have hclean : Text.Clean ⟨[], [], out⟩ := ⟨rfl, rfl⟩
  obtain ⟨hrun, _⟩ := hclean.emitted.run pieces
  rw [List.nil_append, List.nil_append] at hrun
  obtain ⟨⟨cs, hdec, hall⟩, _⟩ := hrun.flush
  have hall : chunkText ⟨[], [], out⟩ pieces = encode (removeOnce controlStrings cs) := hall
  refine ⟨cs, hdec, fun ds hds => hds.unique hdec, ?_⟩
  have hnone : (∀ k ∈ kStrip, ¬ k <:+: encode (removeOnce controlStrings cs)) ↔
      ¬ Contains controlStrings (removeOnce controlStrings cs) := by
    rw [← contains_encode_iff]
    simp
  rw [hall, encode_injective.eq_iff, hnone]
  exact removeEach_eq_iff controlStrings_delimited cs

/-- One control string inside another: the emitter lets the outer one through. -/
theorem text_reference_nested :
    ∃ cs, DecodesReplace (encode "<|box_<|text_chunk_end|>start|>".toList) cs ∧
      chunkText textCreate [encode "<|box_<|text_chunk_end|>start|>".toList]
        ≠ encode (removeEach controlStrings cs) ∧
      ∃ k ∈ kStrip, k <:+: chunkText textCreate
        [encode "<|box_<|text_chunk_end|>start|>".toList] := by
  have hemit : chunkText textCreate [encode "<|box_<|text_chunk_end|>start|>".toList]
      = encode "<|box_start|>".toList := by decide
  refine ⟨_, decodesReplace_encode _, ?_, encode "<|box_start|>".toList, by decide, ?_⟩
  · rw [hemit]
    decide
  · rw [hemit]

end VibeVoice.Stream
