import VibeVoice.Server.Http

/-!
The announced length of a request: `head_content_length` of `http.c` against the header lines of
the head.

A header line is one behind the request line; its name is what stands before the first colon, in
any capitalisation, and its value what `parse_head` keeps of the rest.

* `Named`, `fieldValue`, `Spells`: the headers of a head, and the numbers they spell.
* `decimal_eq_some_iff`, `lengthValue_eq_some_iff`: one value.
* `foldlM_lengthLine`: the loop over the lines, by the lines already read.
* `headContentLength_iff`: all three answers of the function.
-/

namespace VibeVoice.Http

/-! ### The headers of a head -/

/-- The lines behind the request line. -/
def headerLines (head : List UInt8) : List (List UInt8) := (splitLines head).tail

/-- A header line of this name, in any capitalisation. -/
def Named (name : String) (line : List UInt8) : Prop :=
  0x3A ∈ line ∧ (line.takeWhile (· ≠ 0x3A)).map Json.toLower = literal name

instance (name : String) (line : List UInt8) : Decidable (Named name line) :=
  inferInstanceAs (Decidable (_ ∧ _))

/-- The value of a header line. -/
def fieldValue (line : List UInt8) : List UInt8 := headerValue (line.dropWhile (· ≠ 0x3A)).tail

/-- The number that digits spell, most significant first, behind what was read before. -/
def spelled (value : ℕ) (digits : List UInt8) : ℕ :=
  digits.foldl (fun value d => value * 10 + (d.toNat - 0x30)) value

/-- A well-formed decimal number. -/
def Spells (text : List UInt8) (n : ℕ) : Prop :=
  text ≠ [] ∧ text.all isDecimal = true ∧ spelled 0 text = n

instance (text : List UInt8) (n : ℕ) : Decidable (Spells text n) :=
  inferInstanceAs (Decidable (_ ∧ _ ∧ _))

/-- All `Content-Length` lines of a head, at least one of them, spell the same number below a
limit. -/
def Announces (limit : ℕ) (head : List UInt8) (n : ℕ) : Prop :=
  (∃ line ∈ headerLines head, Named "content-length" line) ∧
    ∀ line ∈ headerLines head, Named "content-length" line →
      Spells (fieldValue line) n ∧ n < limit

instance (limit : ℕ) (head : List UInt8) (n : ℕ) : Decidable (Announces limit head n) :=
  inferInstanceAs (Decidable (_ ∧ _))

/-- A line that starts like a `Transfer-Encoding` header. -/
def Coded (line : List UInt8) : Prop :=
  literal "transfer-encoding" <+: line.map Json.toLower

instance (line : List UInt8) : Decidable (Coded line) :=
  inferInstanceAs (Decidable (_ <+: _))

/-- The least number that the overflow test refuses. -/
def lengthLimit : ℕ := 2 ^ 64 - 6

/-! ### Names -/

lemma toLower_eq_colon {b : UInt8} : Json.toLower b = 0x3A ↔ b = 0x3A := by
  rw [Json.toLower]
  split_ifs with h
  · have h₁ : 65 ≤ b.toNat := UInt8.le_iff_toNat_le.mp h.1
    have h₂ : b.toNat ≤ 90 := UInt8.le_iff_toNat_le.mp h.2
    simp only [← UInt8.toNat_inj, UInt8.toNat_add, UInt8.reduceToNat]
    omega
  · rfl

/-- `ci_equal` behind its length check: the line starts with the name. -/
lemma ciEqual_iff (name : List UInt8) (hname : ∀ b ∈ name, Json.toLower b = b ∧ b ≠ 0)
    (line : List UInt8) :
    name.length ≤ line.length ∧ ciEqual name.length line name = true ↔
      name <+: line.map Json.toLower := by
  induction name generalizing line with
  | nil => simp [ciEqual]
  | cons b name ih =>
    obtain ⟨hb, hname⟩ := List.forall_mem_cons.mp hname
    cases line with
    | nil => simp
    | cons a line =>
      rw [List.length_cons, List.length_cons, Nat.add_le_add_iff_right, ciEqual, hb.1,
        List.map_cons, List.cons_prefix_cons, ← ih hname]
      by_cases hab : Json.toLower a = b
      · rw [if_neg (not_not.mpr hab), if_neg (hab ▸ hb.2)]
        simp [hab]
      · simp [hab, Ne.symm hab]

/-- A name with its colon at the start of a line: the line is a header of that name. -/
lemma prefix_iff_named (name : List UInt8) (hname : ∀ b ∈ name, b ≠ 0x3A) (line : List UInt8) :
    name ++ [0x3A] <+: line.map Json.toLower ↔
      0x3A ∈ line ∧ (line.takeWhile (· ≠ 0x3A)).map Json.toLower = name := by
  induction name generalizing line with
  | nil =>
    cases line with
    | nil => simp
    | cons a line =>
      by_cases ha : a = 0x3A
      · simp [ha, Json.toLower]
      · simp [ha, toLower_eq_colon, eq_comm (a := (0x3A : UInt8))]
  | cons b name ih =>
    obtain ⟨hb, hname⟩ := List.forall_mem_cons.mp hname
    cases line with
    | nil => simp
    | cons a line =>
      rw [List.cons_append, List.map_cons, List.cons_prefix_cons, ih hname]
      by_cases ha : a = 0x3A
      · have hne : b ≠ Json.toLower a := by rwa [toLower_eq_colon.mpr ha]
        rw [ha, List.takeWhile_cons, if_neg (by decide)]
        exact iff_of_false (fun h => hne (ha ▸ h.1)) (fun h => List.cons_ne_nil _ _ h.2.symm)
      · simp [ha, Ne.symm ha, and_left_comm, eq_comm (a := b)]

/-- The text behind the colon of a header line whose name has `n` bytes. -/
lemma tail_dropWhile_colon {line : List UInt8} {n : ℕ}
    (hlen : (line.takeWhile (· ≠ 0x3A)).length = n) :
    (line.dropWhile (· ≠ 0x3A)).tail = line.drop (n + 1) := by
  have hdrop : line.drop n = line.dropWhile (· ≠ 0x3A) := by
    have hsplit := List.takeWhile_append_dropWhile (p := (· ≠ (0x3A : UInt8))) (l := line)
    calc line.drop n = (line.takeWhile (· ≠ 0x3A) ++ line.dropWhile (· ≠ 0x3A)).drop n := by
          rw [hsplit]
      _ = line.dropWhile (· ≠ 0x3A) := by rw [← hlen, List.drop_left]
  rw [← hdrop, List.tail_drop]

/-- What the loop asks of a line for the first of its two headers. -/
lemma coded_iff (line : List UInt8) :
    17 ≤ line.length ∧ ciEqual 17 line (literal "transfer-encoding") = true ↔ Coded line :=
  ciEqual_iff (literal "transfer-encoding") (List.forall_iff_forall_mem.mp (by decide)) line

/-- And for the second. -/
lemma named_iff (line : List UInt8) :
    15 ≤ line.length ∧ ciEqual 15 line (literal "content-length:") = true ↔
      Named "content-length" line := by
  have hname :=
    prefix_iff_named (literal "content-length") (List.forall_iff_forall_mem.mp (by decide)) line
  have hcolon : ∀ b ∈ literal "content-length:", Json.toLower b = b ∧ b ≠ 0 :=
    List.forall_iff_forall_mem.mp (by decide)
  exact (ciEqual_iff (literal "content-length:") hcolon line).trans hname

/-! ### Values -/

lemma le_spelled (digits : List UInt8) (value : ℕ) : value ≤ spelled value digits := by
  induction digits generalizing value with
  | nil => exact le_rfl
  | cons d digits ih =>
    calc value ≤ value * 10 + (d.toNat - 0x30) := by omega
      _ ≤ spelled value (d :: digits) := ih _

/-- The digits of a length are read while they stay below the limit. -/
lemma foldlM_digit (digits : List UInt8) (hdigits : digits.all isDecimal = true) {value : ℕ}
    (hvalue : value < lengthLimit) (n : ℕ) :
    digits.foldlM (fun value d =>
        if (2 ^ 64 - 1 - 9) / 10 < value then none
        else some (value * 10 + (d.toNat - 0x30))) value = some n ↔
      spelled value digits = n ∧ n < lengthLimit := by
  induction digits generalizing value with
  | nil =>
    rw [List.foldlM_nil]
    simp only [spelled, List.foldl_nil]
    exact ⟨fun h => ⟨Option.some.inj h, Option.some.inj h ▸ hvalue⟩, fun h => by rw [h.1]; rfl⟩
  | cons d digits ih =>
    rw [List.all_cons, Bool.and_eq_true] at hdigits
    obtain ⟨hd, hdigits⟩ := hdigits
    have hd₉ : d.toNat - 0x30 ≤ 9 := by
      rw [isDecimal, Bool.and_eq_true, decide_eq_true_eq, decide_eq_true_eq] at hd
      have hle : d.toNat ≤ 0x39 := UInt8.le_iff_toNat_le.mp hd.2
      omega
    have hspelled : spelled value (d :: digits) =
      spelled (value * 10 + (d.toNat - 0x30)) digits := rfl
    rw [List.foldlM_cons, hspelled]
    split_ifs with hover
    · -- refused here, and one more digit takes the number over the limit
      refine iff_of_false (fun h => nomatch h) fun h => ?_
      have hle := le_spelled digits (value * 10 + (d.toNat - 0x30))
      rw [h.1] at hle
      have hlim := h.2
      simp only [lengthLimit] at hlim
      omega
    · refine ih hdigits ?_
      simp only [lengthLimit]
      omega

lemma decimal_eq_some_iff {digits : List UInt8} (hdigits : digits.all isDecimal = true) (n : ℕ) :
    decimal digits = some n ↔ spelled 0 digits = n ∧ n < lengthLimit :=
  foldlM_digit digits hdigits (by decide) n

/-- White space at the end of a value. -/
def isTrail (b : UInt8) : Bool := isPad b || b = 0x0D

lemma not_isTrail {b : UInt8} (h : isDecimal b = true) : isTrail b = false := by
  rw [isDecimal, Bool.and_eq_true, decide_eq_true_eq, decide_eq_true_eq] at h
  have hge : 0x30 ≤ b.toNat := UInt8.le_iff_toNat_le.mp h.1
  simp only [isTrail, isPad, Bool.or_eq_false_iff, decide_eq_false_iff_not, ← UInt8.toNat_inj,
    UInt8.reduceToNat]
  omega

/-- Digits and then white space: what `parse_head` keeps of them are the digits. -/
lemma rdropWhile_digits {digits rest : List UInt8} (hdigits : digits.all isDecimal = true)
    (hrest : rest.all isTrail = true) : (digits ++ rest).rdropWhile isTrail = digits := by
  induction rest using List.reverseRecOn with
  | nil =>
    rw [List.append_nil, List.rdropWhile_eq_self_iff]
    intro hne
    simp [not_isTrail (List.all_eq_true.mp hdigits _ (List.getLast_mem hne))]
  | append_singleton rest b ih =>
    rw [List.all_append, Bool.and_eq_true] at hrest
    rw [← List.append_assoc, List.rdropWhile_concat_pos _ _ _ (by simpa using hrest.2)]
    exact ih hrest.1

/-- Digits up to a byte that is none of them. -/
lemma span_digits {digits rest : List UInt8} (hdigits : digits.all isDecimal = true)
    (hrest : rest.all isTrail = true) :
    (digits ++ rest).takeWhile isDecimal = digits ∧
      (digits ++ rest).dropWhile isDecimal = rest := by
  have hstop : ∀ b ∈ rest.head?, isDecimal b = false := by
    intro b hb
    have htrail := List.all_eq_true.mp hrest b (List.mem_of_mem_head? hb)
    by_contra hdec
    rw [not_isTrail (by simpa using hdec)] at htrail
    cases htrail
  have hall : ∀ b ∈ digits, isDecimal b = true := List.all_eq_true.mp hdigits
  cases rest with
  | nil => simp [List.takeWhile_eq_self_iff.mpr hall, List.dropWhile_eq_nil_iff.mpr hall]
  | cons b rest =>
    have hb := hstop b rfl
    rw [List.takeWhile_append_of_pos hall, List.dropWhile_append_of_pos hall]
    simp [hb]

/-- One value: a well-formed number below the limit. -/
lemma lengthValue_eq_some_iff (line : List UInt8) (n : ℕ) :
    lengthValue line = some n ↔ Spells (headerValue (line.drop 15)) n ∧ n < lengthLimit := by
  rw [lengthValue]
  set v := (line.drop 15).dropWhile isPad with hv
  have hpred : (fun b : UInt8 => (decide (b = 0x0D) || isPad b)) = isTrail :=
    funext fun b => Bool.or_comm _ _
  have hvalue : headerValue (line.drop 15) = v.rdropWhile isTrail := by
    rw [headerValue, hpred]
  have hdigits : (v.takeWhile isDecimal).all isDecimal = true := List.all_takeWhile
  have hsplit := List.takeWhile_append_dropWhile (p := isDecimal) (l := v)
  rw [hvalue]
  constructor
  · intro h
    cases hdec : decimal (v.takeWhile isDecimal) with
    | none => rw [hdec] at h; cases h
    | some value =>
      rw [hdec] at h
      dsimp only at h
      split_ifs at h with hempty htrail
      obtain rfl := Option.some.inj h
      obtain ⟨hnum, hlim⟩ := (decimal_eq_some_iff hdigits value).mp hdec
      have hkeep : v.rdropWhile isTrail = v.takeWhile isDecimal := by
        rw [← rdropWhile_digits hdigits htrail, hsplit]
      exact ⟨hkeep ▸ ⟨hempty, hdigits, hnum⟩, hlim⟩
  · rintro ⟨⟨hne, hall, hnum⟩, hlim⟩
    have happ := List.rdropWhile_append_rtakeWhile (p := isTrail) (l := v)
    have htrail : (v.rtakeWhile isTrail).all isTrail = true := by
      rw [List.all_eq_true]
      exact fun b hb => List.mem_rtakeWhile_imp hb
    obtain ⟨htake, hdrop⟩ := span_digits hall htrail
    rw [happ] at htake hdrop
    rw [htake, hdrop, (decimal_eq_some_iff hall n).mpr ⟨hnum, hlim⟩]
    dsimp only
    rw [if_neg hne]
    exact if_pos htrail

/-! ### The loop over the lines -/

/-- The value of a `Content-Length` line. -/
lemma lengthValue_iff {line : List UInt8} (h : Named "content-length" line) (n : ℕ) :
    lengthValue line = some n ↔ Spells (fieldValue line) n ∧ n < lengthLimit := by
  have hlen : (line.takeWhile (· ≠ 0x3A)).length = 14 := by
    have hmap := congrArg List.length h.2
    rw [List.length_map] at hmap
    exact hmap
  rw [lengthValue_eq_some_iff, fieldValue, tail_dropWhile_colon hlen]

/-- What a line does to the length seen so far. -/
lemma lengthLine_eq_some_iff (seen : Option ℕ) (line : List UInt8) (r : Option ℕ) :
    lengthLine seen line = some r ↔ ¬ Coded line ∧
      if Named "content-length" line then
        ∃ n, r = some n ∧ lengthValue line = some n ∧ ∀ m ∈ seen, m = n
      else r = seen := by
  rw [lengthLine]
  by_cases hcoded : Coded line
  · rw [if_pos ((coded_iff line).mpr hcoded)]
    simp [hcoded]
  rw [if_neg ((coded_iff line).not.mpr hcoded)]
  by_cases hnamed : Named "content-length" line
  · rw [if_pos ((named_iff line).mpr hnamed), if_pos hnamed]
    cases hvalue : lengthValue line with
    | none => simp
    | some value =>
      cases seen with
      | none => simp [hcoded, eq_comm]
      | some m =>
        by_cases hm : m = value
        · simp [hm, hcoded, eq_comm]
        · simp only [Option.any_some, ne_eq, hm, not_false_eq_true, decide_true, if_true,
            Option.mem_some_iff, forall_eq', Option.some.injEq]
          refine iff_of_false (fun h => nomatch h) ?_
          rintro ⟨-, n, -, rfl, heq⟩
          exact hm heq
  · rw [if_neg ((named_iff line).not.mpr hnamed), if_neg hnamed]
    simp [hcoded, eq_comm]

/-- The loop over the lines: none of them is coded, and the `Content-Length` lines agree with each
other and with what was seen before. -/
theorem foldlM_lengthLine (lines : List (List UInt8)) (seen r : Option ℕ) :
    lines.foldlM lengthLine seen = some r ↔ (∀ line ∈ lines, ¬ Coded line) ∧
      (∀ line ∈ lines, Named "content-length" line →
        ∃ n, r = some n ∧ lengthValue line = some n) ∧
      (r = seen ∨ seen = none ∧ ∃ line ∈ lines, Named "content-length" line) := by
  induction lines generalizing seen with
  | nil => simp [eq_comm]
  | cons line lines ih =>
    simp only [List.foldlM_cons, Option.bind_eq_bind, Option.bind_eq_some_iff,
      lengthLine_eq_some_iff, ih, List.forall_mem_cons, List.exists_mem_cons_iff]
    by_cases hnamed : Named "content-length" line
    · simp only [hnamed, if_true, true_imp_iff, true_or, and_true]
      constructor
      · rintro ⟨s, ⟨hcoded, n, rfl, hvalue, hseen⟩, hcodes, hvalues, hr⟩
        obtain rfl : r = some n := hr.resolve_right (fun h => nomatch h.1)
        refine ⟨⟨hcoded, hcodes⟩, ⟨⟨n, rfl, hvalue⟩, hvalues⟩, ?_⟩
        cases seen with
        | none => exact .inr rfl
        | some m => exact .inl (congrArg some (hseen m rfl).symm)
      · rintro ⟨⟨hcoded, hcodes⟩, ⟨⟨n, rfl, hvalue⟩, hvalues⟩, hr⟩
        refine ⟨some n, ⟨hcoded, n, rfl, hvalue, fun m hm => ?_⟩, hcodes, hvalues, .inl rfl⟩
        rcases hr with rfl | rfl
        · exact (Option.some.inj hm).symm
        · cases hm
    · simp only [hnamed, if_false, false_imp_iff, false_or, true_and]
      constructor
      · rintro ⟨s, ⟨hcoded, rfl⟩, hcodes, hvalues, hr⟩
        exact ⟨⟨hcoded, hcodes⟩, hvalues, hr⟩
      · rintro ⟨⟨hcoded, hcodes⟩, hvalues, hr⟩
        exact ⟨seen, ⟨hcoded, rfl⟩, hcodes, hvalues, hr⟩

/-- The length of a head: the one its `Content-Length` lines agree on, when they are well formed
and below the limit and no line starts like a `Transfer-Encoding`; none without either; and
refused in every other case. -/
theorem headContentLength_iff (head : List UInt8) :
    (∀ n, headContentLength head = some (some n) ↔
      (∀ line ∈ headerLines head, ¬ Coded line) ∧ Announces lengthLimit head n) ∧
    (headContentLength head = some none ↔
      (∀ line ∈ headerLines head, ¬ Coded line) ∧
        ∀ line ∈ headerLines head, ¬ Named "content-length" line) ∧
    (headContentLength head = none ↔
      (∃ line ∈ headerLines head, Coded line) ∨
        (∃ line ∈ headerLines head, Named "content-length" line) ∧
          ¬ ∃ n, Announces lengthLimit head n) := by
  have hloop := foldlM_lengthLine (headerLines head) none
  have hsome : ∀ n, headContentLength head = some (some n) ↔
      (∀ line ∈ headerLines head, ¬ Coded line) ∧ Announces lengthLimit head n := by
    intro n
    refine (hloop (some n)).trans (and_congr_right fun _ => ?_)
    rw [Announces, and_comm]
    refine and_congr (by simp) ?_
    refine forall₂_congr fun line _ => forall_congr' fun hnamed => ?_
    rw [← lengthValue_iff hnamed]
    simp [eq_comm]
  have hnone : headContentLength head = some none ↔
      (∀ line ∈ headerLines head, ¬ Coded line) ∧
        ∀ line ∈ headerLines head, ¬ Named "content-length" line := by
    refine (hloop none).trans (and_congr_right fun _ => ?_)
    simp
  refine ⟨hsome, hnone, ?_⟩
  constructor
  · intro h
    by_contra hnot
    obtain ⟨hcoded, hlines⟩ := not_or.mp hnot
    simp only [not_exists, not_and] at hcoded
    by_cases hnamed : ∃ line ∈ headerLines head, Named "content-length" line
    · obtain ⟨n, hn⟩ := not_not.mp (not_and.mp hlines hnamed)
      rw [(hsome n).mpr ⟨hcoded, hn⟩] at h
      cases h
    · simp only [not_exists, not_and] at hnamed
      rw [hnone.mpr ⟨hcoded, hnamed⟩] at h
      cases h
  · rintro (⟨line, hline, hcoded⟩ | ⟨⟨line, hline, hnamed⟩, hno⟩)
    · cases h : headContentLength head with
      | none => rfl
      | some r =>
        cases r with
        | none => exact absurd hcoded ((hnone.mp h).1 line hline)
        | some n => exact absurd hcoded (((hsome n).mp h).1 line hline)
    · cases h : headContentLength head with
      | none => rfl
      | some r =>
        cases r with
        | none => exact absurd hnamed ((hnone.mp h).2 line hline)
        | some n => exact absurd ⟨n, ((hsome n).mp h).2⟩ hno

-- a `Content-Length` inside another value is none
example : headContentLength (literal
    "POST /x HTTP/1.1\r\nX-Note: Content-Length: 900\r\nContent-Length: 3\r\n\r\n") =
      some (some 3) := by
  decide +kernel

/-- A head that announces the largest `size_t`. -/
def largestLength : List UInt8 :=
  literal "GET / HTTP/1.1\r\nContent-Length: 18446744073709551615\r\n\r\n"

/-- A head with a header whose name is longer than `Transfer-Encoding`. -/
def encodingNote : List UInt8 :=
  literal "GET / HTTP/1.1\r\nTransfer-Encoding-Note: x\r\n\r\n"

/-- The overflow test refuses the last numbers that fit, and the other header is known by the
start of its name. -/
theorem headContentLength_strict :
    (Announces (2 ^ 64) largestLength (2 ^ 64 - 1) ∧
        (∀ line ∈ headerLines largestLength, ¬ Named "transfer-encoding" line) ∧
        headContentLength largestLength = none) ∧
      (∀ line ∈ headerLines encodingNote,
          ¬ Named "transfer-encoding" line ∧ ¬ Named "content-length" line) ∧
        headContentLength encodingNote = none := by
  decide +kernel

end VibeVoice.Http
