import Mathlib.Data.List.TakeWhile
import VibeVoice.Server.Http

/-!
Multipart bodies: `vv_http_parse_multipart`, and the bodies it is given.

The parser looks for substrings: the boundary anywhere in the data, `name="` and `filename="`
anywhere in the headers of a part.

* `parseMultipart`: the parser.
* `Form`: a form a client may send, with its boundary, and `Form.encode`, its body.
* `parseParts_encode`: the parser on the encoded fields, one at a time.
* `multipart_round_trip_iff`: which forms come back as they were.
-/

namespace VibeVoice.Http

open Search

/-! ### The parser -/

/-- `vv_http_part_t`, its name and filename as the C strings they are. -/
structure Part where
  name : List UInt8
  filename : List UInt8
  data : List UInt8
  deriving DecidableEq

/-- The value behind `key` in the headers of a part, in a buffer of `size` bytes. -/
def paramValue (header key : List UInt8) (size : ℕ) : List UInt8 :=
  match memFind header key with
  | none => []
  | some i =>
    cString (((header.drop (i + key.length)).takeWhile (· ≠ 0x22)).take (size - 1))

/-- `"\r\n"`. -/
def crlf : List UInt8 := [0x0D, 0x0A]

/-- `end -= 2` behind a CRLF. -/
def stripCrlf (data : List UInt8) : List UInt8 :=
  if crlf <:+ data then data.take (data.length - 2) else data

/-- `name="`. -/
def nameKey : List UInt8 := literal "name=\""

/-- `filename="`. -/
def filenameKey : List UInt8 := literal "filename=\""

/-- The loop over the parts, from a separator on, with room for `n` more. -/
def parseParts (sep : List UInt8) : ℕ → List UInt8 → List Part
  | 0, _ => []
  | n + 1, p =>
    let p := p.drop sep.length
    if [0x2D, 0x2D] <+: p then []
    else
      let p := if crlf <+: p then p.drop 2 else p
      match memFind p blankLine with
      | none => []
      | some hlen =>
        let header := p.take hlen
        let data := p.drop (hlen + 4)
        let next := memFind data sep
        { name := paramValue header nameKey 128
          filename := paramValue header filenameKey 256
          data := stripCrlf (data.take (next.getD data.length)) } ::
          match next with
          | none => []
          | some i => parseParts sep n (data.drop i)

/-- The boundary of a content type, at most 255 bytes of it. -/
def boundaryOf (contentType : List UInt8) : List UInt8 :=
  match find (literal "boundary=") (cString contentType) with
  | none => []
  | some i =>
    let rest := (cString contentType).drop (i + 9)
    if rest.head? = some 0x22 then (rest.tail.takeWhile (· ≠ 0x22)).take 255
    else (rest.takeWhile fun b => b ≠ 0x3B && b ≠ 0x20 && b ≠ 0x0D).take 255

/-- `"--%s"`. -/
def separator (boundary : List UInt8) : List UInt8 := literal "--" ++ boundary

/-- `vv_http_parse_multipart`. -/
def parseMultipart (body : List UInt8) (contentType : Option (List UInt8)) (maxParts : ℕ) :
    List Part :=
  let boundary := (contentType.map boundaryOf).getD []
  if boundary = [] then []
  else
    match memFind body (separator boundary) with
    | none => []
    | some i => parseParts (separator boundary) maxParts (body.drop i)

/-! ### Forms -/

/-- A character of a boundary. -/
def isBoundaryChar (b : UInt8) : Bool :=
  (0x30 ≤ b && b ≤ 0x39) || (0x41 ≤ b && b ≤ 0x5A) || (0x61 ≤ b && b ≤ 0x7A) ||
    b ∈ literal "'()+_,-./:=? "

/-- A byte of a quoted parameter: no quote and no line break. -/
def isQuotable (b : UInt8) : Bool := b ≠ 0x22 && b ≠ 0x0D && b ≠ 0x0A

/-- A field of a form: its parameters, in which order they are given, and its data. -/
structure Field where
  name : List UInt8
  filename : List UInt8
  nameFirst : Bool
  data : List UInt8
  name_quotable : ∀ b ∈ name, isQuotable b = true
  filename_quotable : ∀ b ∈ filename, isQuotable b = true

/-- A form with the boundary it is sent with: 1 to 70 boundary characters, the last one no space,
quoted in the content type or not. -/
structure Form where
  boundary : List UInt8
  quoted : Bool
  fields : List Field
  boundary_chars : ∀ b ∈ boundary, isBoundaryChar b = true
  boundary_pos : boundary ≠ []
  boundary_le : boundary.length ≤ 70
  boundary_last : boundary.getLast? ≠ some 0x20
  unquoted : quoted = false → (0x20 : UInt8) ∉ boundary
  data_free : ∀ f ∈ fields, ¬ crlf ++ separator boundary <:+: f.data

namespace Field

/-- `key="value"`. -/
def quote (key value : List UInt8) : List UInt8 := key ++ value ++ [0x22]

/-- The header of a field. -/
def header (f : Field) : List UInt8 :=
  literal "Content-Disposition: form-data; " ++
    if f.nameFirst then quote nameKey f.name ++ literal "; " ++ quote filenameKey f.filename
    else quote filenameKey f.filename ++ literal "; " ++ quote nameKey f.name

/-- A field in a body, from its separator on. -/
def encode (sep : List UInt8) (f : Field) : List UInt8 :=
  sep ++ crlf ++ f.header ++ blankLine ++ f.data ++ crlf

/-- What the field should come back as. -/
def part (f : Field) : Part := ⟨f.name, f.filename, f.data⟩

end Field

/-- The fields, and the separator that closes the body. -/
def encodeFields (sep : List UInt8) (fields : List Field) : List UInt8 :=
  fields.flatMap (Field.encode sep) ++ sep ++ literal "--" ++ crlf

namespace Form

/-- The body of a form. -/
def encode (form : Form) : List UInt8 := encodeFields (separator form.boundary) form.fields

/-- The content type of a form. -/
def contentType (form : Form) : List UInt8 :=
  literal "multipart/form-data; boundary=" ++
    if form.quoted then [0x22] ++ form.boundary ++ [0x22] else form.boundary

end Form

/-! ### Parameters -/

/-- A key is looked for from quote to quote. -/
lemma paramValue_marked {k u : List UInt8} (hk : (0x22 : UInt8) ∉ k) (hu : (0x22 : UInt8) ∉ u)
    (s : List UInt8) (size : ℕ) :
    paramValue (u ++ 0x22 :: s) (k ++ [0x22]) size =
      if k <:+ u then cString ((s.takeWhile (· ≠ 0x22)).take (size - 1))
      else paramValue s (k ++ [0x22]) size := by
  have hmem : ∀ t, memFind t (k ++ [0x22]) = find (k ++ [0x22]) t := fun t => if_neg (by simp)
  have hskip : (u ++ 0x22 :: s).drop (u.length + 1) = s := by
    rw [← List.drop_drop, List.drop_left, List.drop_one, List.tail_cons]
  rw [paramValue, hmem, find_marked hk hu s]
  by_cases hsuffix : k <:+ u
  · have hle := hsuffix.length_le
    have hdrop : (u ++ 0x22 :: s).drop (u.length - k.length + (k ++ [0x22]).length) = s := by
      rw [List.length_append, List.length_singleton,
        show u.length - k.length + (k.length + 1) = u.length + 1 by omega, hskip]
    rw [if_pos hsuffix, if_pos hsuffix]
    dsimp only
    rw [hdrop]
  · rw [if_neg hsuffix, if_neg hsuffix, paramValue, hmem]
    cases find (k ++ [0x22]) s with
    | none => rfl
    | some i =>
      have hdrop : (u ++ 0x22 :: s).drop (u.length + 1 + i + (k ++ [0x22]).length) =
          s.drop (i + (k ++ [0x22]).length) := by
        rw [Nat.add_assoc, ← List.drop_drop, hskip]
      rw [Option.map_some]
      dsimp only
      rw [hdrop]

/-- A value that fits its buffer comes back, and no other does. -/
lemma cString_take_eq_iff (s : List UInt8) (n : ℕ) :
    cString (s.take n) = s ↔ s.length ≤ n ∧ (0 : UInt8) ∉ s := by
  constructor
  · intro h
    have hlen : s.length ≤ n := by
      have hle := ((s.take n).takeWhile_sublist (· ≠ (0 : UInt8))).length_le
      change (cString (s.take n)).length ≤ _ at hle
      rw [h, List.length_take] at hle
      omega
    refine ⟨hlen, fun hmem => ?_⟩
    rw [← h] at hmem
    simpa using List.mem_takeWhile_imp hmem
  · rintro ⟨hlen, hmem⟩
    rw [List.take_of_length_le hlen, cString_eq_self hmem]

namespace Field

/-- The parser finds the parameters of a field as they were. -/
def HeaderKept (f : Field) : Prop :=
  if f.nameFirst then
    (f.name.length ≤ 127 ∧ (0 : UInt8) ∉ f.name) ∧
      if literal "filename=" <:+ f.name then f.filename = literal "; filename="
      else f.filename.length ≤ 255 ∧ (0 : UInt8) ∉ f.filename
  else
    (f.filename.length ≤ 255 ∧ (0 : UInt8) ∉ f.filename) ∧ f.name = f.filename.take 127

instance (f : Field) : Decidable f.HeaderKept :=
  inferInstanceAs (Decidable (if f.nameFirst then _ else _))

lemma not_mem_of_quotable {s : List UInt8} (h : ∀ b ∈ s, isQuotable b = true) :
    (0x22 : UInt8) ∉ s ∧ (0x0D : UInt8) ∉ s :=
  ⟨fun hb => absurd (h _ hb) (by decide), fun hb => absurd (h _ hb) (by decide)⟩

lemma takeWhile_quoted {s : List UInt8} (hs : (0x22 : UInt8) ∉ s) (t : List UInt8) :
    (s ++ 0x22 :: t).takeWhile (· ≠ 0x22) = s := by
  rw [List.takeWhile_append_of_pos fun b hb => by simpa using fun h : b = 0x22 => hs (h ▸ hb),
    List.takeWhile_cons]
  simp

/-- A header, quote by quote. -/
lemma header_eq (f : Field) : f.header = if f.nameFirst then
      literal "Content-Disposition: form-data; name=" ++
        0x22 :: (f.name ++ 0x22 :: (literal "; filename=" ++ 0x22 :: (f.filename ++ [0x22])))
    else literal "Content-Disposition: form-data; filename=" ++
      0x22 :: (f.filename ++ 0x22 :: (literal "; name=" ++ 0x22 :: (f.name ++ [0x22]))) := by
  have hname : nameKey = literal "name=" ++ [0x22] := by decide
  have hfilename : filenameKey = literal "filename=" ++ [0x22] := by decide
  rw [header, quote, quote, hname, hfilename]
  split_ifs
  · have hfront : literal "Content-Disposition: form-data; name=" =
        literal "Content-Disposition: form-data; " ++ literal "name=" := by decide
    have hmiddle : literal "; filename=" = literal "; " ++ literal "filename=" := by decide
    simp only [hfront, hmiddle, List.append_assoc, List.cons_append, List.nil_append]
  · have hfront : literal "Content-Disposition: form-data; filename=" =
        literal "Content-Disposition: form-data; " ++ literal "filename=" := by decide
    have hmiddle : literal "; name=" = literal "; " ++ literal "name=" := by decide
    simp only [hfront, hmiddle, List.append_assoc, List.cons_append, List.nil_append]

/-- What the parser finds in the header of a field. -/
theorem paramValue_header_iff (f : Field) :
    (paramValue f.header nameKey 128 = f.name ∧
      paramValue f.header filenameKey 256 = f.filename) ↔ f.HeaderKept := by
  obtain ⟨hname, -⟩ := not_mem_of_quotable f.name_quotable
  obtain ⟨hfilename, -⟩ := not_mem_of_quotable f.filename_quotable
  have hnk : nameKey = literal "name=" ++ [0x22] := by decide
  have hfk : filenameKey = literal "filename=" ++ [0x22] := by decide
  have hqn : (0x22 : UInt8) ∉ literal "name=" := by decide
  have hqf : (0x22 : UInt8) ∉ literal "filename=" := by decide
  rw [HeaderKept, hnk, hfk]
  by_cases hfirst : f.nameFirst = true
  · rw [if_pos hfirst, header_eq, if_pos hfirst, paramValue_marked hqn (by decide),
      if_pos (by decide), takeWhile_quoted hname, paramValue_marked hqf (by decide),
      if_neg (by decide), paramValue_marked hqf hname, cString_take_eq_iff]
    refine and_congr_right fun _ => ?_
    by_cases hsuffix : literal "filename=" <:+ f.name
    · rw [if_pos hsuffix, if_pos hsuffix, takeWhile_quoted (by decide)]
      have hcut : cString ((literal "; filename=").take (256 - 1)) = literal "; filename=" := by
        decide
      rw [hcut, eq_comm]
    · rw [if_neg hsuffix, if_neg hsuffix, paramValue_marked hqf (by decide), if_pos (by decide),
        takeWhile_quoted hfilename, cString_take_eq_iff]
  · rw [if_neg hfirst, header_eq, if_neg hfirst, paramValue_marked hqn (by decide),
      if_pos (by decide), takeWhile_quoted hfilename, paramValue_marked hqf (by decide),
      if_pos (by decide), takeWhile_quoted hfilename, cString_take_eq_iff, and_comm]
    refine and_congr_right fun h => ?_
    have hwhole : cString (f.filename.take 127) = f.filename.take 127 :=
      cString_eq_self fun hmem => h.2 (List.mem_of_mem_take hmem)
    rw [hwhole, eq_comm]

/-- No line break stands in a header. -/
lemma not_mem_header (f : Field) : (0x0D : UInt8) ∉ f.header := by
  obtain ⟨-, hname⟩ := not_mem_of_quotable f.name_quotable
  obtain ⟨-, hfilename⟩ := not_mem_of_quotable f.filename_quotable
  have hfront : (0x0D : UInt8) ∉ literal "Content-Disposition: form-data; " := by decide
  have hmiddle : (0x0D : UInt8) ∉ literal "; " := by decide
  have hnk : (0x0D : UInt8) ∉ nameKey := by decide
  have hfk : (0x0D : UInt8) ∉ filenameKey := by decide
  rw [header]
  split_ifs <;> simp [quote, hfront, hmiddle, hnk, hfk, hname, hfilename]

end Field

/-! ### Data -/

section Separator

variable {sep : List UInt8} (hne : sep ≠ []) (hcr : (0x0D : UInt8) ∉ sep)
  (hlf : (0x0A : UInt8) ∉ sep)

include hne

/-- Data with the separator in it ends there. -/
lemma find_sep_of_infix {data : List UInt8} (h : sep <:+: data) (rest : List UInt8) :
    ∃ i, find sep (data ++ rest) = some i ∧ i < data.length := by
  obtain ⟨a, b, rfl⟩ := h
  have hpos := List.length_pos_iff.mpr hne
  have hat : At sep (a ++ sep ++ b ++ rest) a.length := by
    rw [At, List.append_assoc, List.append_assoc, List.drop_left]
    exact List.prefix_append _ _
  cases hf : find sep (a ++ sep ++ b ++ rest) with
  | none => exact absurd hat (find_eq_none_iff.mp hf _)
  | some i =>
    have hle : i ≤ a.length := by
      by_contra hgt
      exact (find_eq_some_iff.mp hf).2 _ (by omega) hat
    refine ⟨i, rfl, ?_⟩
    rw [List.length_append, List.length_append]
    omega

include hcr hlf

/-- Other data ends with the line break in front of the next separator. -/
lemma find_sep_of_not_infix {data : List UInt8} (h : ¬ sep <:+: data) (rest : List UInt8) :
    find sep (data ++ crlf ++ (sep ++ rest)) = some (data.length + 2) := by
  have hlen : (data ++ crlf).length = data.length + 2 := by
    rw [List.length_append]
    rfl
  rw [find_skip, find_self hne, Option.map_some, hlen]
  intro j hj hat
  rw [hlen] at hj
  have hfirst : 0 < sep.length := List.length_pos_iff.mpr hne
  by_cases hin : j + sep.length ≤ data.length
  · -- inside the data
    rw [List.append_assoc] at hat
    have hpre : sep <+: data.drop j := hat.of_append hin
    exact h (hpre.isInfix.trans (List.drop_suffix _ _).isInfix)
  rw [List.append_assoc] at hat
  rcases Nat.lt_or_ge data.length j with hj' | hj'
  · -- on the line feed
    obtain rfl : j = data.length + 1 := by omega
    have hchar := hat.getElem? hfirst
    rw [Nat.add_zero, List.getElem?_append_right (by omega), Nat.add_sub_cancel_left] at hchar
    exact hlf (List.mem_of_getElem? hchar.symm)
  · -- across the carriage return
    have hchar := hat.getElem? (j := data.length - j) (by omega)
    rw [Nat.add_sub_cancel' hj', List.getElem?_append_right le_rfl, Nat.sub_self] at hchar
    exact hcr (List.mem_of_getElem? hchar.symm)

omit hcr hlf in
/-- One part of a body. -/
lemma parseParts_field (f : Field) (n : ℕ) (rest : List UInt8) {i : ℕ}
    (hi : find sep (f.data ++ crlf ++ (sep ++ rest)) = some i) :
    parseParts sep (n + 1) (f.encode sep ++ (sep ++ rest)) =
      ⟨paramValue f.header nameKey 128, paramValue f.header filenameKey 256,
        stripCrlf ((f.data ++ crlf ++ (sep ++ rest)).take i)⟩ ::
          parseParts sep n ((f.data ++ crlf ++ (sep ++ rest)).drop i) := by
  have htext : f.encode sep ++ (sep ++ rest) =
      sep ++ (crlf ++ (f.header ++ (blankLine ++ (f.data ++ crlf ++ (sep ++ rest))))) := by
    simp only [Field.encode, List.append_assoc]
  have hdashes : ¬ [0x2D, 0x2D] <+:
      crlf ++ (f.header ++ (blankLine ++ (f.data ++ crlf ++ (sep ++ rest)))) := by
    rw [crlf, List.cons_append, List.cons_prefix_cons]
    exact fun h => absurd h.1 (by decide)
  have hblank : memFind (f.header ++ (blankLine ++ (f.data ++ crlf ++ (sep ++ rest)))) blankLine =
      some f.header.length := by
    rw [memFind, if_neg (by decide), blankLine, find_skip_of_not_mem _ f.not_mem_header]
    change Option.map _ (find blankLine (blankLine ++ _)) = _
    rw [find_self (by decide)]
    rfl
  have hsep : memFind (f.data ++ crlf ++ (sep ++ rest)) sep = some i := by
    rw [memFind, if_neg hne, hi]
  have hdata : (f.header ++ (blankLine ++ (f.data ++ crlf ++ (sep ++ rest)))).drop
      (f.header.length + 4) = f.data ++ crlf ++ (sep ++ rest) := by
    rw [← List.drop_drop, List.drop_left]
    rfl
  have hcrlf : (crlf ++ (f.header ++ (blankLine ++ (f.data ++ crlf ++ (sep ++ rest))))).drop 2 =
      f.header ++ (blankLine ++ (f.data ++ crlf ++ (sep ++ rest))) := rfl
  rw [htext, parseParts]
  dsimp only
  rw [List.drop_left, if_neg hdashes, if_pos (List.prefix_append _ _), hcrlf, hblank]
  dsimp only
  rw [hdata, List.take_left, hsep]
  rfl

end Separator

lemma stripCrlf_append (data : List UInt8) : stripCrlf (data ++ crlf) = data := by
  have hlen : (data ++ crlf).length - 2 = data.length := by
    rw [List.length_append]
    rfl
  rw [stripCrlf, if_pos (List.suffix_append _ _), hlen, List.take_left]

lemma length_stripCrlf_le (data : List UInt8) : (stripCrlf data).length ≤ data.length := by
  rw [stripCrlf]
  split_ifs
  · rw [List.length_take]
    exact min_le_right _ _
  · exact le_rfl

/-! ### The round trip -/

/-- The parser gives the field back. -/
def Field.Kept (sep : List UInt8) (f : Field) : Prop := f.HeaderKept ∧ ¬ sep <:+: f.data

instance (sep : List UInt8) (f : Field) : Decidable (f.Kept sep) :=
  inferInstanceAs (Decidable (_ ∧ _))

lemma encodeFields_cons (sep : List UInt8) (f : Field) (fs : List Field) :
    encodeFields sep (f :: fs) = f.encode sep ++ encodeFields sep fs := by
  simp only [encodeFields, List.flatMap_cons, List.append_assoc]

/-- A body starts with the separator. -/
lemma encodeFields_sep (sep : List UInt8) (fs : List Field) :
    ∃ rest, encodeFields sep fs = sep ++ rest := by
  cases fs with
  | nil => exact ⟨literal "--" ++ crlf, by rw [encodeFields]; simp⟩
  | cons f fs =>
    refine ⟨crlf ++ f.header ++ blankLine ++ f.data ++ crlf ++ encodeFields sep fs, ?_⟩
    rw [encodeFields_cons, Field.encode]
    simp only [List.append_assoc]

/-- The fields of a body come back exactly when each of them does. -/
theorem parseParts_encode {sep : List UInt8} (hne : sep ≠ []) (hcr : (0x0D : UInt8) ∉ sep)
    (hlf : (0x0A : UInt8) ∉ sep) (fields : List Field) {n : ℕ} (hn : fields.length ≤ n) :
    parseParts sep n (encodeFields sep fields) = fields.map Field.part ↔
      ∀ f ∈ fields, f.Kept sep := by
  induction fields generalizing n with
  | nil =>
    refine iff_of_true ?_ (by simp)
    cases n with
    | zero => rfl
    | succ n =>
      have hdashes : [0x2D, 0x2D] <+: literal "--" ++ crlf := by decide
      rw [encodeFields, List.flatMap_nil, List.nil_append, List.append_assoc, parseParts]
      dsimp only
      rw [List.drop_left, if_pos hdashes]
      rfl
  | cons f fs ih =>
    obtain ⟨n, rfl⟩ : ∃ m, n = m + 1 := ⟨n - 1, by rw [List.length_cons] at hn; omega⟩
    obtain ⟨rest, hrest⟩ := encodeFields_sep sep fs
    rw [List.forall_mem_cons, ← ih (n := n) (by simpa using hn), encodeFields_cons, hrest]
    by_cases hinfix : sep <:+: f.data
    · -- the data is cut short
      obtain ⟨i, hi, hlt⟩ := find_sep_of_infix hne hinfix (crlf ++ (sep ++ rest))
      rw [← List.append_assoc] at hi
      rw [parseParts_field hne f n rest hi, List.map_cons]
      refine iff_of_false (fun h => ?_) fun h => h.1.2 hinfix
      have hdata : stripCrlf ((f.data ++ crlf ++ (sep ++ rest)).take i) = f.data :=
        congrArg Part.data (List.cons.inj h).1
      have hle := length_stripCrlf_le ((f.data ++ crlf ++ (sep ++ rest)).take i)
      rw [hdata, List.length_take] at hle
      omega
    · have hi := find_sep_of_not_infix hne hcr hlf hinfix rest
      have hlen : (f.data ++ crlf).length = f.data.length + 2 := by
        rw [List.length_append]
        rfl
      rw [parseParts_field hne f n rest hi, List.map_cons, List.cons.injEq, ← hlen,
        List.take_left, List.drop_left, stripCrlf_append, Field.part, Part.mk.injEq]
      refine and_congr_left fun _ => ?_
      rw [Field.Kept, ← f.paramValue_header_iff]
      constructor
      · rintro ⟨hname, hfilename, -⟩
        exact ⟨⟨hname, hfilename⟩, hinfix⟩
      · rintro ⟨⟨hname, hfilename⟩, -⟩
        exact ⟨hname, hfilename, rfl⟩

namespace Form

variable (form : Form)

/-- A byte that is no boundary character is not in the boundary. -/
lemma not_mem_boundary {b : UInt8} (hb : isBoundaryChar b = false) : b ∉ form.boundary := by
  intro h
  rw [form.boundary_chars b h] at hb
  cases hb

/-- The boundary is read back from the content type. -/
lemma boundaryOf_contentType : boundaryOf form.contentType = form.boundary := by
  have hzero := form.not_mem_boundary (b := 0) (by decide)
  have hquote := form.not_mem_boundary (b := 0x22) (by decide)
  have hsemi := form.not_mem_boundary (b := 0x3B) (by decide)
  have hcr := form.not_mem_boundary (b := 0x0D) (by decide)
  have hfront : (0 : UInt8) ∉ literal "multipart/form-data; boundary=" := by decide
  have hcString : cString form.contentType = form.contentType := cString_eq_self fun hmem => by
    rw [contentType] at hmem
    split_ifs at hmem <;> simp [hfront, hzero] at hmem
  have hfind : find (literal "boundary=") (literal "multipart/form-data; boundary=") = some 21 := by
    decide
  have hlen : (literal "multipart/form-data; boundary=").length = 21 + 9 := by decide
  have hle : form.boundary.length ≤ 255 := form.boundary_le.trans (by decide)
  have hdrop : ∀ s, (literal "multipart/form-data; boundary=" ++ s).drop (21 + 9) = s := fun s => by
    rw [← hlen, List.drop_left]
  rw [boundaryOf, hcString, contentType, find_append (by decide) hfind]
  dsimp only
  rw [hdrop]
  by_cases hquoted : form.quoted = true
  · rw [if_pos hquoted, List.append_assoc, List.singleton_append, List.head?_cons, if_pos rfl,
      List.tail_cons, Field.takeWhile_quoted hquote, List.take_of_length_le hle]
  · have hspace := form.unquoted (by simpa using hquoted)
    have hhead : form.boundary.head? ≠ some 0x22 := fun h =>
      hquote (List.mem_of_mem_head? h)
    rw [if_neg hquoted, if_neg hhead, List.takeWhile_eq_self_iff.mpr, List.take_of_length_le hle]
    intro b hb
    simp only [Bool.and_eq_true, decide_eq_true_eq]
    exact ⟨⟨fun h => hsemi (h ▸ hb), fun h => hspace (h ▸ hb)⟩, fun h => hcr (h ▸ hb)⟩

end Form

/-- A form comes back as it was exactly when the separator stands in none of its data and the
parser finds the parameters of each field. -/
theorem multipart_round_trip_iff (form : Form) {maxParts : ℕ}
    (h : form.fields.length ≤ maxParts) :
    parseMultipart form.encode (some form.contentType) maxParts = form.fields.map Field.part ↔
      ∀ f ∈ form.fields, f.Kept (separator form.boundary) := by
  have hne : separator form.boundary ≠ [] :=
    List.append_ne_nil_of_left_ne_nil (by decide) _
  have hmem : ∀ b, b ∉ literal "--" → isBoundaryChar b = false → b ∉ separator form.boundary :=
    fun b hb hb' hmem => (List.mem_append.mp hmem).elim hb (form.not_mem_boundary hb')
  obtain ⟨rest, hrest⟩ := encodeFields_sep (separator form.boundary) form.fields
  have hfind : memFind form.encode (separator form.boundary) = some 0 := by
    rw [memFind, if_neg hne, Form.encode, hrest, find_self hne]
  rw [parseMultipart, Option.map_some, Option.getD_some, form.boundaryOf_contentType,
    if_neg form.boundary_pos, hfind]
  dsimp only
  rw [List.drop_zero, Form.encode]
  exact parseParts_encode hne (hmem _ (by decide) (by decide)) (hmem _ (by decide) (by decide))
    form.fields h

/-- An upload with its name in front, and a separator that is cut off in its data. -/
def uploadForm : Form where
  boundary := literal "vvstream"
  quoted := false
  fields := [⟨literal "file", literal "a.wav", true, literal "--vvstrea--",
    List.all_eq_true.mp (by decide), List.all_eq_true.mp (by decide)⟩]
  boundary_chars := List.all_eq_true.mp (by decide)
  boundary_pos := by decide
  boundary_le := by decide
  boundary_last := by decide
  unquoted := by decide
  data_free := by decide

theorem multipart_round_trip_upload :
    parseMultipart uploadForm.encode (some uploadForm.contentType) 16 =
      [⟨literal "file", literal "a.wav", literal "--vvstrea--"⟩] :=
  (multipart_round_trip_iff uploadForm (by decide)).mpr (by decide +kernel)

/-- The same upload with its filename in front. -/
def filenameFirstForm : Form where
  boundary := literal "vvstream"
  quoted := false
  fields := [⟨literal "file", literal "a.wav", false, literal "RIFF",
    List.all_eq_true.mp (by decide), List.all_eq_true.mp (by decide)⟩]
  boundary_chars := List.all_eq_true.mp (by decide)
  boundary_pos := by decide
  boundary_le := by decide
  boundary_last := by decide
  unquoted := by decide
  data_free := by decide

/-- It comes back under the name `a.wav`. -/
theorem multipart_filename_first :
    parseMultipart filenameFirstForm.encode (some filenameFirstForm.contentType) 16 ≠
      filenameFirstForm.fields.map Field.part := by
  decide +kernel

end VibeVoice.Http
