import VibeVoice.Lib.JsonText
import VibeVoice.Model.Cjson

/-!
The bodies of error responses (`vv_http_error`).

Messages and types are C strings, without the NUL behind them.

* `escapeFrom_eq`: the escape copies the longest front that has room, each byte as a piece of a
  JSON string.
* `boundary_of_utf8`: a text that goes on with an ASCII byte is UTF-8 only where it ends with a
  whole character.
* `error_sound_iff`: the body is sound exactly where both fronts end with whole characters.
-/

namespace VibeVoice.Http

open JsonText Utf8

/-! ### The code -/

/-- A lower-case hexadecimal digit. -/
def lowHex (n : ℕ) : Hex := ⟨⟨n % 16, Nat.mod_lt n (Nat.succ_pos 15)⟩, false⟩

/-- What `json_escape_into` makes of a byte. -/
def escapePiece (b : UInt8) : List UInt8 :=
  if b = 0x22 then [0x5C, 0x22]
  else if b = 0x5C then [0x5C, 0x5C]
  else if b < 0x20 then
    [0x5C, 0x75, 0x30, 0x30, (lowHex (b.toNat / 16)).byte, (lowHex (b.toNat % 16)).byte]
  else [b]

/-- The loop of `json_escape_into`. -/
def escapeFrom (cap : ℕ) : List UInt8 → List UInt8 → List UInt8
  | out, [] => out
  | out, b :: s =>
    if cap < out.length + (escapePiece b).length + 1 then out
    else escapeFrom cap (out ++ escapePiece b) s

/-- `json_escape_into`; `none` is `NULL`. -/
def jsonEscapeInto (cap : ℕ) (s : Option (List UInt8)) : List UInt8 :=
  escapeFrom cap [] (s.getD [])

/-- `%d`. -/
def decimalInt (n : ℤ) : List UInt8 := (if n < 0 then [0x2D] else []) ++ decimal n.natAbs

/-- The text of the envelope. -/
def envelope (msg typ code : List UInt8) : List UInt8 :=
  literal "\x7b\"error\":\x7b\"message\":\"" ++ (msg ++ (literal "\",\"type\":\"" ++ (typ ++
    (literal "\",\"code\":" ++ (code ++ literal "\x7d\x7d")))))

/-- The body of `vv_http_error`: what `snprintf` leaves of it in `buf[1024]`. -/
def errorBody (status : Int32) (type message : Option (List UInt8)) : List UInt8 :=
  (envelope (jsonEscapeInto 512 message) (jsonEscapeInto 64 type)
    (decimalInt status.toInt)).take 1023

/-! ### The escape -/

/-- The bytes of a text that the escape has room for behind `used` bytes. -/
def roomFor (cap : ℕ) : ℕ → List UInt8 → List UInt8
  | _, [] => []
  | used, b :: s =>
    if cap < used + (escapePiece b).length + 1 then []
    else b :: roomFor cap (used + (escapePiece b).length) s

/-- A byte as a piece of a JSON string. -/
def pieceOf (b : UInt8) : Piece :=
  if h : Plain b then .plain b h
  else if b = 0x22 then .escape .quote
  else if b = 0x5C then .escape .backslash
  else .code (lowHex 0) (lowHex 0) (lowHex (b.toNat / 16)) (lowHex (b.toNat % 16))

lemma roomFor_isFront (cap used : ℕ) (s : List UInt8) : roomFor cap used s <+: s := by
  induction s generalizing used with
  | nil => exact List.prefix_rfl
  | cons b s ih =>
    rw [roomFor]
    split_ifs
    · exact List.nil_prefix
    · exact List.cons_prefix_cons.mpr ⟨rfl, ih _⟩

lemma escapeFrom_eq (cap : ℕ) (out s : List UInt8) :
    escapeFrom cap out s = out ++ (roomFor cap out.length s).flatMap escapePiece := by
  induction s generalizing out with
  | nil => exact (List.append_nil out).symm
  | cons b s ih =>
    rw [escapeFrom, roomFor]
    split_ifs
    · exact (List.append_nil out).symm
    · rw [ih, List.length_append, List.flatMap_cons, List.append_assoc]

lemma escapeFrom_length {cap : ℕ} {out : List UInt8} (h : out.length < cap) (s : List UInt8) :
    (escapeFrom cap out s).length < cap := by
  induction s generalizing out with
  | nil => exact h
  | cons b s ih =>
    rw [escapeFrom]
    split_ifs with hfull
    · exact h
    · refine ih ?_
      rw [List.length_append]
      omega

lemma escapePiece_text (b : UInt8) : escapePiece b = (pieceOf b).text := by
  rw [escapePiece, pieceOf]
  by_cases hquote : b = 0x22
  · rw [hquote]
    rfl
  by_cases hback : b = 0x5C
  · rw [hback]
    rfl
  by_cases hlow : b < 0x20
  · have hplain : ¬Plain b := fun h => absurd h.2.2 (UInt8.not_le.mpr hlow)
    rw [if_neg hquote, if_neg hback, if_pos hlow, dif_neg hplain, if_neg hquote, if_neg hback]
    rfl
  · have hplain : Plain b := ⟨hquote, hback, UInt8.not_lt.mp hlow⟩
    rw [if_neg hquote, if_neg hback, if_neg hlow, dif_pos hplain]
    rfl

/-- What is escaped stands for itself. -/
lemma decode_pieces (s : List UInt8) : decode (s.map pieceOf) = some s := by
  induction s with
  | nil => rfl
  | cons b s ih =>
    rw [List.map_cons, pieceOf]
    split_ifs with hplain hquote hback
    · rw [decode, ih]
      rfl
    · rw [decode, ih, hquote]
      rfl
    · rw [decode, ih, hback]
      rfl
    · have hlow : b.toNat < 0x20 := by
        by_contra hhigh
        exact hplain ⟨hquote, hback, UInt8.le_iff_toNat_le.mpr (not_lt.mp hhigh)⟩
      have hunit : codeUnit (lowHex 0) (lowHex 0) (lowHex (b.toNat / 16))
          (lowHex (b.toNat % 16)) = b.toNat := by
        simp only [codeUnit, lowHex]
        omega
      have hlead : ¬(0xDC00 ≤ b.toNat ∧ b.toNat < 0xE000) := by omega
      have htrail : ¬(0xD800 ≤ b.toNat ∧ b.toNat < 0xDC00) := by omega
      rw [decode.eq_def]
      simp only [hunit, if_neg hlead, if_neg htrail, ih, encode_ascii (hlow.trans (by norm_num)),
        UInt8.ofNat_toNat, Option.map_some, List.singleton_append]

lemma body_pieces (s : List UInt8) : body (s.map pieceOf) = s.flatMap escapePiece := by
  rw [body, List.flatMap_map]
  exact congrArg (s.flatMap ·) (funext fun b => (escapePiece_text b).symm)

/-! ### Characters -/

/-- ASCII bytes are characters of their own. -/
lemma ascii_text {s : List UInt8} (h : ∀ b ∈ s, b.toNat < 0x80) : ∃ cs, s = encode cs := by
  induction s with
  | nil => exact ⟨[], rfl⟩
  | cons b s ih =>
    obtain ⟨cs, rfl⟩ := ih fun c hc => h c (List.mem_cons_of_mem b hc)
    refine ⟨.ofNat b.toNat :: cs, ?_⟩
    rw [encode_cons, encode_ascii (h b List.mem_cons_self), UInt8.ofNat_toNat]
    rfl

/-- What is made of a byte is ASCII, or the byte itself. -/
lemma escapePiece_ascii (b : UInt8) :
    (b.toNat < 0x80 → ∀ c ∈ escapePiece b, c.toNat < 0x80) ∧
      (0x80 ≤ b.toNat → escapePiece b = [b]) := by
  have hhex : ∀ h : Hex, h.byte.toNat < 0x80 := by
    rintro ⟨v, u⟩
    revert v u
    decide
  rw [escapePiece]
  constructor
  · intro hb
    split_ifs with hquote hback hlow
    · simp
    · simp
    · simp [hhex]
    · simpa using hb
  · intro hb
    have hne : ∀ c : UInt8, c.toNat < 0x80 → b ≠ c := by
      rintro c hc rfl
      omega
    have hlow : ¬b < 0x20 := fun h => by
      have hlt : b.toNat < 0x20 := UInt8.lt_iff_toNat_lt.mp h
      omega
    rw [if_neg (hne 0x22 (by decide)), if_neg (hne 0x5C (by decide)), if_neg hlow]

/-- Escaped characters are characters. -/
lemma escape_text (cs : List Char) : ∃ es, (encode cs).flatMap escapePiece = encode es := by
  induction cs with
  | nil => exact ⟨[], rfl⟩
  | cons c cs ih =>
    obtain ⟨es, hes⟩ := ih
    have hchar : ∃ ds, (String.utf8EncodeChar c).flatMap escapePiece = encode ds := by
      by_cases hascii : ∃ b ∈ String.utf8EncodeChar c, b.toNat < 0x80
      · obtain ⟨b, hb, hlt⟩ := hascii
        rw [ascii_of_mem hlt hb, List.flatMap_cons, List.flatMap_nil, List.append_nil]
        exact ascii_text ((escapePiece_ascii b).1 hlt)
      · have hself : (String.utf8EncodeChar c).flatMap escapePiece = String.utf8EncodeChar c := by
          calc (String.utf8EncodeChar c).flatMap escapePiece
              = (String.utf8EncodeChar c).flatMap fun b => [b] :=
                List.flatMap_congr fun b hb => (escapePiece_ascii b).2
                  (not_lt.mp fun hlt => hascii ⟨b, hb, hlt⟩)
            _ = String.utf8EncodeChar c := List.flatMap_singleton' _
        exact ⟨[c], by rw [hself]; simp⟩
    obtain ⟨ds, hds⟩ := hchar
    exact ⟨ds ++ es, by rw [encode_cons, List.flatMap_append, hds, hes, encode_append]⟩

lemma text_behind {ds es : List Char} {t : List UInt8} (h : encode ds ++ t = encode es) :
    ∃ fs, t = encode fs := by
  obtain ⟨fs, rfl⟩ := encode_prefix_iff.mp (h ▸ List.prefix_append (encode ds) t :
    encode ds <+: encode es)
  rw [encode_append, List.append_cancel_left_eq] at h
  exact ⟨fs, h⟩

/-- In front of an ASCII byte a text ends with a whole character. -/
lemma boundary_of_utf8 {cs es : List Char} {w rest : List UInt8} {b : UInt8} (h : w <+: encode cs)
    (hb : b.toNat < 0x80) (hutf : w ++ b :: rest = encode es) :
    ∃ ds, ds <+: cs ∧ w = encode ds ∧ ∃ fs, b :: rest = encode fs := by
  obtain ⟨ds, q, rfl, hq⟩ := prefix_encode h
  rw [List.append_assoc] at hutf
  obtain ⟨fs, hutf⟩ := text_behind hutf
  rcases hq with rfl | ⟨c, x, hq, hx, hc, -⟩
  · rw [List.append_nil] at h ⊢
    exact ⟨ds, encode_prefix_iff.mp h, rfl, fs, hutf⟩
  · -- the ASCII byte would stand inside of a character
    exfalso
    cases fs with
    | nil => exact hq (List.append_eq_nil_iff.mp hutf).1
    | cons f fs =>
      have hf : String.utf8EncodeChar f <+: q ++ b :: rest := ⟨encode fs, hutf.symm⟩
      rcases Nat.lt_or_ge q.length (String.utf8EncodeChar f).length with hlong | hshort
      · have hb' : q ++ [b] <+: String.utf8EncodeChar f := by
          refine List.prefix_of_prefix_length_le ⟨rest, by simp⟩ hf ?_
          rw [List.length_append, List.length_singleton]
          exact hlong
        have hone := ascii_of_mem hb (hb'.subset (List.mem_append_right q List.mem_cons_self))
        rw [hone, List.length_singleton, Nat.lt_one_iff] at hlong
        exact hq (List.length_eq_zero_iff.mp hlong)
      · have hfq : String.utf8EncodeChar f <+: q :=
          List.prefix_of_prefix_length_le hf (List.prefix_append q _) hshort
        have hcq : q <+: String.utf8EncodeChar c := ⟨x, hc.symm⟩
        obtain rfl := encode_prefix_inj (hfq.trans hcq) List.prefix_rfl
        have hlen := congrArg List.length hc
        rw [List.length_append] at hlen
        have hpos := List.length_pos_of_ne_nil hx
        omega

/-- What has room of a text ends with a whole character. -/
def WholeFront (cap : ℕ) (cs : List Char) : Prop := ∃ ds, roomFor cap 0 (encode cs) = encode ds

/-- The same for an escaped text. -/
lemma wholeFront_of_utf8 {cap : ℕ} {cs es : List Char} {rest : List UInt8} {b : UInt8}
    (hb : b.toNat < 0x80)
    (hutf : (roomFor cap 0 (encode cs)).flatMap escapePiece ++ b :: rest = encode es) :
    WholeFront cap cs ∧ ∃ fs, b :: rest = encode fs := by
  obtain ⟨ds, q, hkept, hq⟩ := prefix_encode (roomFor_isFront cap 0 (encode cs))
  obtain ⟨gs, hgs⟩ := escape_text ds
  rw [hkept, List.flatMap_append, hgs, List.append_assoc] at hutf
  obtain ⟨fs, hfs⟩ := text_behind hutf
  rcases hq with rfl | ⟨c, x, hq, hx, hc, -⟩
  · rw [List.append_nil] at hkept
    exact ⟨⟨ds, hkept⟩, fs, hfs⟩
  · -- a part of a character is not escaped
    have hhigh : ∀ a ∈ q, 0x80 ≤ a.toNat := by
      intro a ha
      by_contra hlow
      have hone := ascii_of_mem (not_le.mp hlow) (hc ▸ List.mem_append_left x ha)
      have hlen := congrArg List.length (hc.symm.trans hone)
      rw [List.length_append, List.length_singleton] at hlen
      have hq' := List.length_pos_of_ne_nil hq
      have hx' := List.length_pos_of_ne_nil hx
      omega
    have hself : q.flatMap escapePiece = q := by
      calc q.flatMap escapePiece = q.flatMap fun b => [b] :=
            List.flatMap_congr fun a ha => (escapePiece_ascii a).2 (hhigh a ha)
        _ = q := List.flatMap_singleton' q
    rw [hself] at hfs
    have hfront : q <+: encode [c] := by
      rw [encode_cons, encode_nil, List.append_nil]
      exact ⟨x, hc.symm⟩
    obtain ⟨ds', hds', rfl, hrest⟩ := boundary_of_utf8 hfront hb hfs
    exact ⟨⟨ds ++ ds', by rw [hkept, encode_append]⟩, hrest⟩

/-! ### The body -/

lemma decimal_length {n k : ℕ} (hk : 0 < k) (hn : n < 10 ^ k) : (decimal n).length ≤ k := by
  induction k generalizing n with
  | zero => exact absurd hk (lt_irrefl 0)
  | succ k ih =>
    rw [decimal]
    split_ifs with hsmall
    · exact Nat.succ_le_succ (Nat.zero_le k)
    · have hkpos : 0 < k := by
        by_contra hzero
        rw [Nat.eq_zero_of_not_pos hzero] at hn
        omega
      have hdiv : n / 10 < 10 ^ k := Nat.div_lt_of_lt_mul (by rwa [← Nat.pow_succ'])
      rw [List.length_append, List.length_singleton]
      exact Nat.succ_le_succ (ih hkpos hdiv)

lemma decimalInt_length (status : Int32) : (decimalInt status.toInt).length ≤ 11 := by
  have hlow := status.le_toInt
  have hhigh := status.toInt_lt
  have hdigits : (decimal status.toInt.natAbs).length ≤ 10 := decimal_length (by norm_num) (by omega)
  rw [decimalInt, List.length_append]
  split_ifs
  · rw [List.length_singleton]
    omega
  · rw [List.length_nil]
    omega

/-- The envelope has room. -/
lemma errorBody_eq (status : Int32) (type message : Option (List UInt8)) :
    errorBody status type message = envelope (jsonEscapeInto 512 message) (jsonEscapeInto 64 type)
      (decimalInt status.toInt) ∧ (errorBody status type message).length < 1024 := by
  have hmsg : (jsonEscapeInto 512 message).length < 512 := escapeFrom_length (by norm_num) _
  have htyp : (jsonEscapeInto 64 type).length < 64 := escapeFrom_length (by norm_num) _
  have hcode := decimalInt_length status
  have hlen : (envelope (jsonEscapeInto 512 message) (jsonEscapeInto 64 type)
      (decimalInt status.toInt)).length ≤ 1023 := by
    simp only [envelope, List.length_append]
    have h₁ : (literal "\x7b\"error\":\x7b\"message\":\"").length = 21 := by decide +kernel
    have h₂ : (literal "\",\"type\":\"").length = 10 := by decide +kernel
    have h₃ : (literal "\",\"code\":").length = 9 := by decide +kernel
    have h₄ : (literal "\x7d\x7d").length = 2 := by decide +kernel
    omega
  have htake := List.take_of_length_le hlen
  exact ⟨htake, by rw [errorBody, htake]; omega⟩

/-- A body that fits, is JSON and UTF-8, and whose message is a front of the message. -/
structure Sound (message : List Char) (body : List UInt8) : Prop where
  room : body.length < 1024
  json : Valid body
  utf8 : ∃ cs, body = encode cs
  message : ∃ s rest front, body = literal "\x7b\"error\":\x7b\"message\":" ++ (quoted s ++ rest) ∧
    front <+: message ∧ decode s = some (encode front)

/-- The escape of a text, as a string of JSON. -/
lemma jsonEscapeInto_eq (cap : ℕ) (s : List UInt8) :
    jsonEscapeInto cap (some s) = body ((roomFor cap 0 s).map pieceOf) := by
  rw [body_pieces]
  exact escapeFrom_eq cap [] s

/-- The envelope is a nested object. -/
lemma envelope_valid (s t : List Piece) (code : Number) :
    Valid (envelope (body s) (body t) code.text) := by
  let inner : Object := ⟨[
    ⟨[], (literal "message").map pieceOf, [], [], .string s, []⟩,
    ⟨[], (literal "type").map pieceOf, [], [], .string t, []⟩,
    ⟨[], (literal "code").map pieceOf, [], [], .number code, []⟩], []⟩
  have htext : envelope (body s) (body t) code.text =
      0x7B :: (commas [Field.text ⟨[], (literal "error").map pieceOf, [], [], inner.text, []⟩] ++
        [0x7D]) := by
    have herror : quoted ((literal "error").map pieceOf) = literal "\"error\"" := by decide +kernel
    have hmessage : quoted ((literal "message").map pieceOf) = literal "\"message\"" := by
      decide +kernel
    have htype : quoted ((literal "type").map pieceOf) = literal "\"type\"" := by decide +kernel
    have hcode : quoted ((literal "code").map pieceOf) = literal "\"code\"" := by decide +kernel
    have h₁ : literal "\x7b\"error\":\x7b\"message\":\"" = 0x7B :: (literal "\"error\"" ++
        (0x3A :: 0x7B :: (literal "\"message\"" ++ [0x3A, 0x22]))) := by decide +kernel
    have h₂ : literal "\",\"type\":\"" =
        0x22 :: 0x2C :: (literal "\"type\"" ++ [0x3A, 0x22]) := by decide +kernel
    have h₃ : literal "\",\"code\":" = 0x22 :: 0x2C :: (literal "\"code\"" ++ [0x3A]) := by
      decide +kernel
    have h₄ : literal "\x7d\x7d" = [0x7D, 0x7D] := by decide +kernel
    simp only [envelope, h₁, h₂, h₃, h₄, inner, commas, List.map_cons, List.map_nil, Field.text,
      Object.text, Object.inside, Member.text, herror, hmessage, htype, hcode]
    simp [quoted, blanks, Value.text]
  rw [htext]
  refine @Valid.fields [_] (List.cons_ne_nil _ _) fun m hm => ?_
  rw [List.mem_singleton.mp hm]
  exact inner.valid

lemma decimalInt_eq (n : ℤ) :
    decimalInt n = (Number.text ⟨decide (n < 0), n.natAbs, [], none⟩) := by
  simp [decimalInt, Number.text, exponent]

lemma decimalInt_ascii (n : ℤ) : ∀ b ∈ decimalInt n, b.toNat < 0x80 := by
  intro b hb
  rcases List.mem_append.mp hb with hb | hb
  · split_ifs at hb
    · rw [List.mem_singleton.mp hb]
      decide
    · exact absurd hb List.not_mem_nil
  · have hhigh : b.toNat ≤ 0x39 := UInt8.le_iff_toNat_le.mp (isDigit_decimal _ b hb).2
    omega

lemma typeMark : ∃ rest, literal "\",\"type\":\"" = 0x22 :: rest := ⟨_, rfl⟩

lemma codeMark : ∃ rest, literal "\",\"code\":" = 0x22 :: rest := ⟨_, rfl⟩

/-- In a body that is UTF-8 no character is cut. -/
lemma wholeFronts {status : Int32} {type message cs : List Char}
    (h : errorBody status (some (encode type)) (some (encode message)) = encode cs) :
    WholeFront 512 message ∧ WholeFront 64 type := by
  obtain ⟨r, hr⟩ := typeMark
  obtain ⟨r', hr'⟩ := codeMark
  rw [(errorBody_eq status _ _).1, envelope, jsonEscapeInto_eq, jsonEscapeInto_eq, body_pieces,
    body_pieces] at h
  obtain ⟨cs₁, h₁⟩ := @text_behind "\x7b\"error\":\x7b\"message\":\"".toList _ _ h
  rw [hr, List.cons_append] at h₁
  obtain ⟨hmessage, cs₂, h₂⟩ := wholeFront_of_utf8 (by decide) h₁
  rw [← List.cons_append, ← hr] at h₂
  obtain ⟨cs₃, h₃⟩ := @text_behind "\",\"type\":\"".toList _ _ h₂
  rw [hr', List.cons_append] at h₃
  exact ⟨hmessage, (wholeFront_of_utf8 (by decide) h₃).1⟩

/-- Error bodies are sound exactly where neither the message nor the type is cut inside of a
character. -/
theorem error_sound_iff (status : Int32) (type message : List Char) :
    Sound message (errorBody status (some (encode type)) (some (encode message))) ↔
      WholeFront 512 message ∧ WholeFront 64 type := by
  obtain ⟨hbody, hroom⟩ := errorBody_eq status (some (encode type)) (some (encode message))
  constructor
  · intro h
    obtain ⟨cs, hcs⟩ := h.utf8
    exact wholeFronts hcs
  · rintro ⟨⟨front, hfront⟩, ⟨front', hfront'⟩⟩
    refine ⟨hroom, ?_, ?_, ?_⟩
    · rw [hbody, jsonEscapeInto_eq, jsonEscapeInto_eq, decimalInt_eq]
      exact envelope_valid _ _ _
    · obtain ⟨es, hes⟩ := escape_text front
      obtain ⟨es', hes'⟩ := escape_text front'
      obtain ⟨ds, hds⟩ := ascii_text (decimalInt_ascii status.toInt)
      refine ⟨"\x7b\"error\":\x7b\"message\":\"".toList ++ (es ++
        ("\",\"type\":\"".toList ++ (es' ++ ("\",\"code\":".toList ++
          (ds ++ "\x7d\x7d".toList))))), ?_⟩
      rw [hbody, envelope, jsonEscapeInto_eq, jsonEscapeInto_eq, body_pieces, body_pieces, hfront,
        hfront', hes, hes', hds]
      simp only [encode_append]
      rfl
    · obtain ⟨r, hr⟩ := typeMark
      refine ⟨(roomFor 512 0 (encode message)).map pieceOf, r ++ (jsonEscapeInto 64
        (some (encode type)) ++ (literal "\",\"code\":" ++ (decimalInt status.toInt ++
        literal "\x7d\x7d"))), front, ?_, ?_, ?_⟩
      · have hopen : literal "\x7b\"error\":\x7b\"message\":\"" =
            literal "\x7b\"error\":\x7b\"message\":" ++ [0x22] := by decide +kernel
        rw [hbody, envelope, jsonEscapeInto_eq 512, hr, hopen, quoted]
        simp
      · have hpre := roomFor_isFront 512 0 (encode message)
        rw [hfront] at hpre
        exact encode_prefix_iff.mp hpre
      · rw [decode_pieces, hfront]

/-- The first byte of a letter of two bytes is the last one that has room. -/
theorem error_cut_letter :
    ¬Sound (List.replicate 510 'a' ++ ['é']) (errorBody 400 (some (encode ['t']))
      (some (encode (List.replicate 510 'a' ++ ['é'])))) := by
  have hroom : roomFor 512 0 (encode (List.replicate 510 'a' ++ ['é'])) =
      encode (List.replicate 510 'a') ++ [0xC3] := by decide +kernel
  intro h
  obtain ⟨cs, hcs⟩ := h.utf8
  obtain ⟨⟨ds, hds⟩, -⟩ := wholeFronts hcs
  rw [hroom] at hds
  obtain ⟨fs, hfs⟩ := text_behind hds
  cases fs with
  | nil => cases hfs
  | cons f fs =>
    have hfront : String.utf8EncodeChar f <+: [0xC3] := ⟨encode fs, hfs.symm⟩
    obtain ⟨rs, xs, tail, hrow, -, hlen, hnil, -⟩ := row_of_encode_prefix hfront
    rw [(List.append_eq_nil_iff.mp hnil.symm).1] at hlen
    cases hrow
    cases hlen

end VibeVoice.Http
