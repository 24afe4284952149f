import Mathlib.Tactic
import VibeVoice.Lib.Utf8

/-!
Texts of JSON, as trees of what stands in them: flat objects, and arrays of them.

* `Piece`, `Value`, `Member`, `Object`, `Element`, `Objects`: the grammar, with the blanks between
  the tokens.
* `Valid`: the texts of any depth.
* `decode`: the string a literal stands for, in UTF-8.
* `within`: the elements that are complete in a front of the text.
-/

namespace JsonText

/-! ### The grammar -/

/-- A blank between tokens. -/
inductive Blank
  | space | tab | lf | cr
  deriving DecidableEq

/-- The byte of a blank. -/
def Blank.byte : Blank → UInt8
  | .space => 0x20
  | .tab => 0x09
  | .lf => 0x0A
  | .cr => 0x0D

/-- A run of blanks. -/
def blanks (bs : List Blank) : List UInt8 := bs.map Blank.byte

/-- The escapes of one letter. -/
inductive Escape
  | quote | backslash | slash | b | f | n | r | t
  deriving DecidableEq

/-- The letter of an escape. -/
def Escape.letter : Escape → UInt8
  | .quote => 0x22
  | .backslash => 0x5C
  | .slash => 0x2F
  | .b => 0x62
  | .f => 0x66
  | .n => 0x6E
  | .r => 0x72
  | .t => 0x74

/-- What an escape stands for. -/
def Escape.value : Escape → UInt8
  | .quote => 0x22
  | .backslash => 0x5C
  | .slash => 0x2F
  | .b => 0x08
  | .f => 0x0C
  | .n => 0x0A
  | .r => 0x0D
  | .t => 0x09

/-- A hexadecimal digit, in either case. -/
structure Hex where
  value : Fin 16
  upper : Bool
  deriving DecidableEq

/-- The byte of a digit. -/
def Hex.byte (h : Hex) : UInt8 :=
  if h.value < 10 then 0x30 + UInt8.ofNat h.value
  else (if h.upper then 0x41 else 0x61) + UInt8.ofNat (h.value - 10)

/-- What may stand for itself in a string. -/
def Plain (b : UInt8) : Prop := b ≠ 0x22 ∧ b ≠ 0x5C ∧ 0x20 ≤ b

instance (b : UInt8) : Decidable (Plain b) := inferInstanceAs (Decidable (_ ∧ _ ∧ _))

/-- A piece of a string. -/
inductive Piece
  | plain (b : UInt8) (h : Plain b)
  | escape (e : Escape)
  | code (h₁ h₂ h₃ h₄ : Hex)

/-- The text of a piece. -/
def Piece.text : Piece → List UInt8
  | .plain b _ => [b]
  | .escape e => [0x5C, e.letter]
  | .code h₁ h₂ h₃ h₄ => [0x5C, 0x75, h₁.byte, h₂.byte, h₃.byte, h₄.byte]

/-- The text between the quotes of a string. -/
def body (s : List Piece) : List UInt8 := s.flatMap Piece.text

/-- A string literal. -/
def quoted (s : List Piece) : List UInt8 := 0x22 :: (body s ++ [0x22])

/-- A number literal: its sign, the digits in front of the point and behind it, and the exponent
with its letter and sign. -/
structure Number where
  neg : Bool
  whole : ℕ
  frac : List (Fin 10)
  exp : Option (Bool × Option Bool × Fin 10 × List (Fin 10))

/-- The byte of a decimal digit. -/
def digit (d : Fin 10) : UInt8 := 0x30 + UInt8.ofNat d

/-- The digits of a number, highest first. -/
def decimal (n : ℕ) : List UInt8 :=
  if n < 10 then [0x30 + UInt8.ofNat n] else decimal (n / 10) ++ [0x30 + UInt8.ofNat (n % 10)]

/-- The exponent of a number. -/
def exponent : Option (Bool × Option Bool × Fin 10 × List (Fin 10)) → List UInt8
  | none => []
  | some (upper, sign, d, ds) =>
    (if upper then 0x45 else 0x65) ::
      ((match sign with
        | none => []
        | some neg => [if neg then 0x2D else 0x2B]) ++ digit d :: ds.map digit)

/-- The text of a number. -/
def Number.text (x : Number) : List UInt8 :=
  (if x.neg then [0x2D] else []) ++ (decimal x.whole ++
    ((if x.frac = [] then [] else 0x2E :: x.frac.map digit) ++ exponent x.exp))

/-- A value of a flat object. -/
inductive Value
  | string (s : List Piece)
  | number (x : Number)
  | bool (b : Bool)
  | null

/-- The text of a value. -/
def Value.text : Value → List UInt8
  | .string s => quoted s
  | .number x => x.text
  | .bool true => [0x74, 0x72, 0x75, 0x65]
  | .bool false => [0x66, 0x61, 0x6C, 0x73, 0x65]
  | .null => [0x6E, 0x75, 0x6C, 0x6C]

/-- A member of an object, with the blanks in front of its key, of its colon, of its value and
behind it. -/
structure Member where
  front : List Blank
  key : List Piece
  mid : List Blank
  gap : List Blank
  value : Value
  back : List Blank

/-- The text of a member. -/
def Member.text (m : Member) : List UInt8 :=
  blanks m.front ++ (quoted m.key ++ (blanks m.mid ++ (0x3A :: (blanks m.gap ++
    (m.value.text ++ blanks m.back)))))

/-- Texts with commas between them. -/
def commas : List (List UInt8) → List UInt8
  | [] => []
  | [t] => t
  | t :: ts => t ++ 0x2C :: commas ts

/-- An object; one without members may hold blanks. -/
structure Object where
  members : List Member
  inner : List Blank

/-- The text between the braces of an object. -/
def Object.inside (o : Object) : List UInt8 :=
  if o.members = [] then blanks o.inner else commas (o.members.map Member.text)

/-- The text of an object. -/
def Object.text (o : Object) : List UInt8 := 0x7B :: (o.inside ++ [0x7D])

/-- An element of an array, with the blanks around it. -/
structure Element where
  front : List Blank
  object : Object
  back : List Blank

/-- An element up to its closing brace. -/
def Element.core (e : Element) : List UInt8 := blanks e.front ++ e.object.text

/-- The text of an element. -/
def Element.text (e : Element) : List UInt8 := e.core ++ blanks e.back

/-- An array of objects; one without elements may hold blanks. -/
structure Objects where
  elements : List Element
  inner : List Blank

/-- The text between the brackets of an array. -/
def Objects.inside (a : Objects) : List UInt8 :=
  if a.elements = [] then blanks a.inner else commas (a.elements.map Element.text)

/-- The text of an array. -/
def Objects.text (a : Objects) : List UInt8 := 0x5B :: (a.inside ++ [0x5D])

/-! ### Digits -/

/-- A decimal digit. -/
abbrev IsDigit (c : UInt8) : Prop := 0x30 ≤ c ∧ c ≤ 0x39

lemma isDigit_digit (d : Fin 10) : IsDigit (digit d) := by
  revert d
  decide

lemma isDigit_decimal (n : ℕ) : ∀ c ∈ decimal n, IsDigit c := by
  have hlow : ∀ m < 10, IsDigit (0x30 + UInt8.ofNat m) := fun m hm => isDigit_digit ⟨m, hm⟩
  induction n using decimal.induct with
  | case1 n hn =>
    rw [decimal, if_pos hn]
    intro c hc
    rw [List.mem_singleton.mp hc]
    exact hlow n hn
  | case2 n hn ih =>
    rw [decimal, if_neg hn]
    intro c hc
    rcases List.mem_append.mp hc with hc | hc
    · exact ih c hc
    · rw [List.mem_singleton.mp hc]
      exact hlow _ (Nat.mod_lt n (by norm_num))

lemma decimal_ne_nil (n : ℕ) : decimal n ≠ [] := by
  rw [decimal]
  split_ifs
  · exact List.cons_ne_nil _ _
  · exact List.append_ne_nil_of_right_ne_nil _ (List.cons_ne_nil _ _)

/-! ### Nested texts -/

/-- A member whose value is any text. -/
structure Field where
  front : List Blank
  key : List Piece
  mid : List Blank
  gap : List Blank
  value : List UInt8
  back : List Blank

/-- The text of a member. -/
def Field.text (m : Field) : List UInt8 :=
  blanks m.front ++ (quoted m.key ++ (blanks m.mid ++ (0x3A :: (blanks m.gap ++
    (m.value ++ blanks m.back)))))

/-- An element whose value is any text. -/
structure Item where
  front : List Blank
  value : List UInt8
  back : List Blank

/-- The text of an element. -/
def Item.text (e : Item) : List UInt8 := blanks e.front ++ (e.value ++ blanks e.back)

/-- The texts of JSON. -/
inductive Valid : List UInt8 → Prop
  | value (v : Value) : Valid v.text
  | noItems (bs : List Blank) : Valid (0x5B :: (blanks bs ++ [0x5D]))
  | items {es : List Item} (hne : es ≠ []) (h : ∀ e ∈ es, Valid e.value) :
      Valid (0x5B :: (commas (es.map Item.text) ++ [0x5D]))
  | noFields (bs : List Blank) : Valid (0x7B :: (blanks bs ++ [0x7D]))
  | fields {ms : List Field} (hne : ms ≠ []) (h : ∀ m ∈ ms, Valid m.value) :
      Valid (0x7B :: (commas (ms.map Field.text) ++ [0x7D]))

/-- A flat object is one of them. -/
lemma Object.valid (o : Object) : Valid o.text := by
  rw [Object.text, Object.inside]
  split_ifs with h
  · exact .noFields o.inner
  · have hmap : o.members.map Member.text =
        (o.members.map fun m => (⟨m.front, m.key, m.mid, m.gap, m.value.text, m.back⟩ : Field)).map
          Field.text := by
      rw [List.map_map]
      rfl
    rw [hmap]
    refine .fields (fun h0 => h (List.map_eq_nil_iff.mp h0)) fun m hm => ?_
    obtain ⟨m', -, rfl⟩ := List.mem_map.mp hm
    exact .value m'.value

/-! ### What it stands for -/

/-- The code unit of four digits. -/
def codeUnit (h₁ h₂ h₃ h₄ : Hex) : ℕ :=
  ((h₁.value * 16 + h₂.value) * 16 + h₃.value) * 16 + h₄.value

/-- The bytes of a string, in UTF-8; `none` where half of a surrogate pair is missing. -/
def decode : List Piece → Option (List UInt8)
  | [] => some []
  | .plain b _ :: s => (decode s).map (b :: ·)
  | .escape e :: s => (decode s).map (e.value :: ·)
  | .code h₁ h₂ h₃ h₄ :: s =>
    let c := codeUnit h₁ h₂ h₃ h₄
    if 0xDC00 ≤ c ∧ c < 0xE000 then none
    else if 0xD800 ≤ c ∧ c < 0xDC00 then
      match s with
      | .code l₁ l₂ l₃ l₄ :: s =>
        let l := codeUnit l₁ l₂ l₃ l₄
        if 0xDC00 ≤ l ∧ l < 0xE000 then
          let v := 0x10000 + (c - 0xD800) * 0x400 + (l - 0xDC00)
          (decode s).map (String.utf8EncodeChar (.ofNat v) ++ ·)
        else none
      | _ => none
    else (decode s).map (String.utf8EncodeChar (.ofNat c) ++ ·)

/-! ### Fronts of a text -/

/-- The elements whose closing brace is among the first `k` bytes behind the opening bracket. -/
def within : List Element → ℕ → List Element
  | [], _ => []
  | e :: es, k => if e.core.length ≤ k then e :: within es (k - (e.text.length + 1)) else []

/-- Elements without the blanks behind the last one. -/
def trim : List Element → List Element
  | [] => []
  | [e] => [{ e with back := [] }]
  | e :: e' :: es => e :: trim (e' :: es)

/-- An array of the given elements, closed behind the last one. -/
def closed (es : List Element) : Objects := ⟨trim es, []⟩

lemma commas_cons {t : List UInt8} {ts : List (List UInt8)} (h : ts ≠ []) :
    commas (t :: ts) = t ++ 0x2C :: commas ts := by
  cases ts with
  | nil => exact absurd rfl h
  | cons t' ts => rfl

lemma trim_cons (e : Element) {es : List Element} (h : es ≠ []) :
    trim (e :: es) = e :: trim es := by
  cases es with
  | nil => exact absurd rfl h
  | cons e' es => rfl

lemma trim_eq_nil {es : List Element} : trim es = [] ↔ es = [] := by
  cases es with
  | nil => exact iff_of_true rfl rfl
  | cons e es => cases es <;> exact iff_of_false (List.cons_ne_nil _ _) (List.cons_ne_nil _ _)

lemma map_object_trim (es : List Element) :
    (trim es).map Element.object = es.map Element.object := by
  induction es with
  | nil => rfl
  | cons e es ih =>
    cases es with
    | nil => rfl
    | cons e' es => exact congrArg (e.object :: ·) ih

lemma within_front (es : List Element) (k : ℕ) : within es k <+: es := by
  induction es generalizing k with
  | nil => exact List.prefix_rfl
  | cons e es ih =>
    rw [within]
    split_ifs
    · exact List.cons_prefix_cons.mpr ⟨rfl, ih _⟩
    · exact List.nil_prefix

lemma prefix_commas (t : List UInt8) (ts : List (List UInt8)) : t <+: commas (t :: ts) := by
  cases ts with
  | nil => exact List.prefix_rfl
  | cons t' ts => exact List.prefix_append _ _

lemma brace_suffix_core (e : Element) : [0x7D] <:+ e.core :=
  ⟨blanks e.front ++ 0x7B :: e.object.inside, by simp [Element.core, Object.text]⟩

/-- The text of the complete elements stands in front, and ends with a brace. -/
lemma within_text {es : List Element} {k : ℕ} (h : within es k ≠ []) :
    commas ((trim (within es k)).map Element.text) <+: (commas (es.map Element.text)).take k ∧
      [0x7D] <:+ commas ((trim (within es k)).map Element.text) := by
  induction es generalizing k with
  | nil => exact absurd rfl h
  | cons e es ih =>
    rw [within] at h ⊢
    split_ifs at h ⊢ with hcore
    · by_cases hrest : within es (k - (e.text.length + 1)) = []
      · have hone : commas ((trim [e]).map Element.text) = e.core := List.append_nil _
        rw [hrest, hone]
        refine ⟨List.prefix_take_iff.mpr ⟨?_, hcore⟩, brace_suffix_core e⟩
        calc e.core <+: e.text := List.prefix_append _ _
          _ <+: commas ((e :: es).map Element.text) := prefix_commas _ _
      · obtain ⟨hfront, hbrace⟩ := ih hrest
        have hes : es.map Element.text ≠ [] := by
          intro h0
          rw [List.map_eq_nil_iff] at h0
          rw [h0] at hrest
          exact hrest rfl
        have htrim : (trim (within es (k - (e.text.length + 1)))).map Element.text ≠ [] :=
          fun h0 => hrest (trim_eq_nil.mp (List.map_eq_nil_iff.mp h0))
        obtain ⟨hstart, hlen⟩ := List.prefix_take_iff.mp hfront
        have hpos := List.IsSuffix.length_le hbrace
        rw [List.length_singleton] at hpos
        rw [trim_cons e hrest, List.map_cons, commas_cons htrim, List.map_cons, commas_cons hes]
        constructor
        · refine List.prefix_take_iff.mpr ⟨?_, ?_⟩
          · exact (List.prefix_append_right_inj _).mpr (List.cons_prefix_cons.mpr ⟨rfl, hstart⟩)
          · rw [List.length_append, List.length_cons]
            omega
        · exact hbrace.trans ((List.suffix_cons _ _).trans (List.suffix_append _ _))
    · exact absurd rfl h

end JsonText
