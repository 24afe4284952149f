import Mathlib.Data.List.DropRight
import Mathlib.Data.List.TakeWhile
import VibeVoice.Lib.Search
import VibeVoice.Model.Cjson

/-!
Reading a request: `read_request` of `http.c`.

A connection is the list of what its `recv`s return.  The loop reads until the head is complete
and the announced body has arrived, or until a `recv` brings nothing; what it has by then is
parsed.  Allocations succeed, and sizes are not wrapped: the size arguments stay far below
2⁶⁴, and the room a `recv` is given below the 2³¹ its `int` can hold.

* `headContentLength`, `parseHead`: the two readings of a head.
* `readLoop`, `readRequest`: the loop and the function.
* `readLoop_body`, `readLoop_head`: what the loop does before and after the head is complete.
-/

namespace VibeVoice.Http

open Search

/-! ### Helpers -/

/-- `ci_equal`: the same first `n` bytes up to the case of ASCII letters, a NUL ending both. -/
def ciEqual : ℕ → List UInt8 → List UInt8 → Bool
  | n + 1, a :: as, b :: bs =>
    if Json.toLower a ≠ Json.toLower b then false
    else if Json.toLower a = 0 then true
    else ciEqual n as bs
  | _, _, _ => true

/-- `mem_find`. -/
def memFind (hay needle : List UInt8) : Option ℕ :=
  if needle = [] then none else find needle hay

/-- The empty line that ends a head: `"\r\n\r\n"`. -/
def blankLine : List UInt8 := [0x0D, 0x0A, 0x0D, 0x0A]

/-- What `'\n'` separates. -/
def splitLines : List UInt8 → List (List UInt8)
  | [] => [[]]
  | c :: s =>
    if c = 0x0A then [] :: splitLines s
    else match splitLines s with
      | [] => [[c]]
      | l :: ls => (c :: l) :: ls

/-- `' '` or `'\t'`. -/
def isPad (b : UInt8) : Bool := b = 0x20 || b = 0x09

/-- `*d >= '0' && *d <= '9'`. -/
def isDecimal (b : UInt8) : Bool := 0x30 ≤ b && b ≤ 0x39

/-- The digits of a length, `none` when they overflow a `size_t`. -/
def decimal (digits : List UInt8) : Option ℕ :=
  digits.foldlM (fun value d =>
    if (2 ^ 64 - 1 - 9) / 10 < value then none else some (value * 10 + (d.toNat - 0x30))) 0

/-- The value of a `Content-Length` line, `none` for one that is refused. -/
def lengthValue (line : List UInt8) : Option ℕ :=
  let v := (line.drop 15).dropWhile isPad
  match decimal (v.takeWhile isDecimal) with
  | none => none
  | some value =>
    if v.takeWhile isDecimal = [] then none
    else if (v.dropWhile isDecimal).all fun b => isPad b || b = 0x0D then some value
    else none

/-- One line of `head_content_length`: the length seen so far, `none` for a head that is
refused. -/
def lengthLine (seen : Option ℕ) (line : List UInt8) : Option (Option ℕ) :=
  if 17 ≤ line.length ∧ ciEqual 17 line (literal "transfer-encoding") then none
  else if 15 ≤ line.length ∧ ciEqual 15 line (literal "content-length:") then
    match lengthValue line with
    | none => none
    | some value => if seen.any (· ≠ value) then none else some (some value)
  else some seen

/-- `head_content_length`: the announced length, `some none` where there is none, `none` where
the head is refused. -/
def headContentLength (head : List UInt8) : Option (Option ℕ) :=
  (splitLines head).tail.foldlM lengthLine none

/-- The body a head announces: nothing where it announces none. -/
def announced (head : List UInt8) : Option ℕ := (headContentLength head).map (·.getD 0)

/-! ### Parsing the head -/

/-- `vv_http_req_t`. -/
structure Request where
  method : List UInt8
  path : List UInt8
  query : List UInt8
  headers : List (List UInt8 × List UInt8)
  body : List UInt8
  deriving DecidableEq

/-- `VV_HTTP_MAX_HEADERS`. -/
def maxHeaders : ℕ := 48

/-- `snprintf(dst, size, "%s", s)`: what fits in front of the NUL. -/
def snprintf (size : ℕ) (s : List UInt8) : List UInt8 := (cString s).take (size - 1)

/-- The value of a header: no white space around it. -/
def headerValue (s : List UInt8) : List UInt8 :=
  (s.dropWhile isPad).rdropWhile fun b => b = 0x0D || isPad b

/-- The loop over the header lines, from the `'\n'` in front of one, with room for `n` more. -/
def parseHeaders : ℕ → List UInt8 → List (List UInt8 × List UInt8)
  | n + 1, _ :: line =>
    if line.head?.all fun b => b = 0x0D || b = 0x0A then []
    else
      let text := line.takeWhile (· ≠ 0x0A)
      if 0x3A ∈ text then
        (snprintf 64 (text.takeWhile (· ≠ 0x3A)),
            snprintf 512 (headerValue (text.dropWhile (· ≠ 0x3A)).tail)) ::
          parseHeaders n (line.dropWhile (· ≠ 0x0A))
      else []
  | _, _ => []

/-- The parse of a head, whose last two bytes a NUL cuts off; `none` without two spaces. -/
def parseHead (head body : List UInt8) : Option Request :=
  let line := head.dropWhile (· ≠ 0x20)
  let rest := line.tail.dropWhile (· ≠ 0x20)
  if line = [] ∨ rest = [] then none
  else
    let target := snprintf 512 (line.tail.takeWhile (· ≠ 0x20))
    let fields := cString (rest.tail.take (rest.length - 3))
    some {
      method := snprintf 8 (head.takeWhile (· ≠ 0x20))
      path := target.takeWhile (· ≠ 0x3F)
      query := snprintf 512 (target.dropWhile (· ≠ 0x3F)).tail
      headers := parseHeaders maxHeaders (fields.dropWhile (· ≠ 0x0A))
      body := body }

/-! ### The loop -/

/-- What a `recv` returned: its bytes, none of them when the peer has closed or the read has
failed, and whether the deadline of the head had passed by then. -/
structure Arrival where
  data : List UInt8
  late : Bool := false
  deriving DecidableEq

/-- The variables of the loop: the buffer with its capacity, and once the head is complete
`head_end` and `want`. -/
structure Reading where
  cap : ℕ
  buf : List UInt8
  head : Option (ℕ × ℕ)

/-- Before the first `recv`. -/
def Reading.start : Reading := ⟨64 * 1024, [], none⟩

variable (maxBody : ℕ)

/-- The buffer grows when it is full; `none` when it may not. -/
def grow (r : Reading) : Option Reading :=
  if r.buf.length = r.cap then
    if maxBody + 2 ^ 20 ≤ r.cap then none else some { r with cap := 2 * r.cap }
  else some r

/-- The head after a `recv`: found and read, still to come, or refused. -/
def scanHead (late : Bool) (r : Reading) : Option Reading :=
  match r.head with
  | some _ => some r
  | none =>
    match memFind r.buf blankLine with
    | some e =>
      match announced (r.buf.take (e + 4)) with
      | none => none
      | some want => if maxBody < want then none else some { r with head := some (e + 4, want) }
    | none => if late ∨ 64 * 1024 < r.buf.length then none else some r

/-- `head_end && len >= head_end + want`. -/
def Reading.complete (r : Reading) : Bool :=
  r.head.any fun h => h.1 + h.2 ≤ r.buf.length

/-- `for (;;)` of `read_request`, up to a `recv` that brings nothing. -/
def readLoop : List Arrival → Reading → Option Reading
  | [], r => grow maxBody r
  | a :: as, r =>
    match grow maxBody r with
    | none => none
    | some r =>
      if a.data = [] then some r
      else
        match scanHead maxBody a.late { r with buf := r.buf ++ a.data } with
        | none => none
        | some r => if r.complete then some r else readLoop as r

/-- `read_request`. -/
def readRequest (as : List Arrival) : Option Request :=
  match readLoop maxBody as .start with
  | none => none
  | some r =>
    match r.head with
    | none => none
    | some (headEnd, _) => parseHead (r.buf.take headEnd) (r.buf.drop headEnd)

/-! ### The head -/

/-- A head: its first empty line ends it. -/
def EndsHead (head : List UInt8) : Prop := find blankLine head = some (head.length - 4)

instance (head : List UInt8) : Decidable (EndsHead head) :=
  inferInstanceAs (Decidable (_ = _))

lemma EndsHead.four_le {head : List UInt8} (h : EndsHead head) : 4 ≤ head.length := by
  have hle := find_le_length (by decide) h
  change head.length - 4 + 4 ≤ head.length at hle
  omega

/-- However much of the text has come, its head is found as soon as it is there. -/
lemma EndsHead.find_take {head : List UInt8} (h : EndsHead head) (rest : List UInt8) (n : ℕ) :
    find blankLine ((head ++ rest).take n) =
      if head.length ≤ n then some (head.length - 4) else none := by
  have hfour := h.four_le
  rw [Search.find_take (by decide) (find_append (by decide) h rest) n]
  change (if head.length - 4 + 4 ≤ n then _ else _) = _
  rw [Nat.sub_add_cancel hfour]

lemma EndsHead.find_append {head : List UInt8} (h : EndsHead head) (rest : List UInt8) :
    find blankLine (head ++ rest) = some (head.length - 4) :=
  Search.find_append (by decide) h rest

/-- A text in which the empty line is found starts with its head. -/
lemma endsHead_take {text : List UInt8} {e : ℕ} (h : find blankLine text = some e) :
    EndsHead (text.take (e + 4)) ∧ (text.take (e + 4)).length = e + 4 := by
  have hle : e + 4 ≤ text.length := find_le_length (n := blankLine) (by decide) h
  have hlen : (text.take (e + 4)).length = e + 4 := by rw [List.length_take]; omega
  refine ⟨?_, hlen⟩
  rw [EndsHead, hlen, Search.find_take (by decide) h]
  exact if_pos le_rfl

/-- A text has one head at most. -/
lemma EndsHead.unique {head head' text : List UInt8} (h : EndsHead head) (h' : EndsHead head')
    (hpre : head <+: text) (hpre' : head' <+: text) : head = head' := by
  obtain ⟨rest, rfl⟩ := hpre
  have hfour := h.four_le
  have hfour' := h'.four_le
  obtain ⟨rest', hrest'⟩ := hpre'
  have hlen : head.length = head'.length := by
    have h₁ := h.find_append rest
    rw [← hrest', h'.find_append rest', Option.some.injEq] at h₁
    omega
  exact (List.append_inj hrest'.symm hlen).1

lemma count_pos_iff_dropWhile (b : UInt8) (s : List UInt8) :
    s.dropWhile (· ≠ b) ≠ [] ↔ b ∈ s := by
  rw [Ne, List.dropWhile_eq_nil_iff]
  simp

/-- A head is parsed exactly when it has two spaces, and the body is taken as it is. -/
lemma parseHead_isSome (head body : List UInt8) :
    (∃ req, parseHead head body = some req ∧ req.body = body) ↔ 2 ≤ head.count 0x20 := by
  have hsplit := List.takeWhile_append_dropWhile (p := (· ≠ (0x20 : UInt8))) (l := head)
  have hnone : (head.takeWhile (· ≠ (0x20 : UInt8))).count 0x20 = 0 := by
    rw [List.count_eq_zero]
    intro h
    simpa using List.mem_takeWhile_imp h
  have hcount : head.count 0x20 = (head.dropWhile (· ≠ (0x20 : UInt8))).count 0x20 := by
    conv_lhs => rw [← hsplit, List.count_append, hnone, Nat.zero_add]
  rw [hcount, parseHead]
  cases hline : head.dropWhile (· ≠ (0x20 : UInt8)) with
  | nil => simp
  | cons c line =>
    have hc : c = 0x20 := by
      have hhead := List.head?_dropWhile_not (· ≠ (0x20 : UInt8)) head
      rw [hline] at hhead
      simpa using hhead
    have hrest := count_pos_iff_dropWhile 0x20 line
    rw [hc, List.count_cons_self, List.tail_cons]
    by_cases hmem : (0x20 : UInt8) ∈ line
    · have hpos := List.count_pos_iff.mpr hmem
      rw [if_neg (not_or.mpr ⟨List.cons_ne_nil _ _, hrest.mpr hmem⟩)]
      exact iff_of_true ⟨_, rfl, rfl⟩ (by omega)
    · have hzero := List.count_eq_zero.mpr hmem
      rw [if_pos (.inr (not_not.mp (hrest.not.mpr hmem)))]
      exact iff_of_false (by simp) (by omega)

lemma parseHead_body {head body : List UInt8} {req : Request}
    (h : parseHead head body = some req) : req.body = body := by
  rw [parseHead] at h
  dsimp only at h
  split_ifs at h
  exact congrArg Request.body (Option.some.inj h).symm

/-! ### The loop before and after the head is complete -/

/-- All that the arrivals brought. -/
def bytes (as : List Arrival) : List UInt8 := as.flatMap Arrival.data

/-- The arrivals before the one that brings nothing. -/
def arrived (as : List Arrival) : List Arrival := as.takeWhile fun a => a.data ≠ []

@[simp] lemma bytes_nil : bytes [] = [] := rfl

@[simp] lemma bytes_cons (a : Arrival) (as : List Arrival) :
    bytes (a :: as) = a.data ++ bytes as := rfl

@[simp] lemma bytes_append (as bs : List Arrival) : bytes (as ++ bs) = bytes as ++ bytes bs :=
  List.flatMap_append

lemma arrived_cons {a : Arrival} (h : a.data ≠ []) (as : List Arrival) :
    arrived (a :: as) = a :: arrived as := by
  rw [arrived, List.takeWhile_cons, if_pos (by simpa using h)]
  rfl

lemma arrived_stop {a : Arrival} (h : a.data = []) (as : List Arrival) :
    arrived (a :: as) = [] := by
  rw [arrived, List.takeWhile_cons, if_neg (by simpa using h)]

/-- The buffer once it holds `n` bytes, or all there is. -/
def fill (n : ℕ) : List Arrival → List UInt8 → List UInt8
  | [], buf => buf
  | a :: as, buf => if n ≤ (buf ++ a.data).length then buf ++ a.data else fill n as (buf ++ a.data)

lemma complete_mk (cap : ℕ) (buf : List UInt8) (headEnd want : ℕ) :
    (⟨cap, buf, some (headEnd, want)⟩ : Reading).complete =
      decide (headEnd + want ≤ buf.length) := rfl

/-- Below the limit the buffer grows when it has to. -/
lemma grow_eq {r : Reading} (h : r.buf.length < maxBody + 2 ^ 20) :
    ∃ cap, grow maxBody r = some { r with cap := cap } := by
  rw [grow]
  split_ifs with hfull hcap
  · omega
  · exact ⟨_, rfl⟩
  · exact ⟨r.cap, rfl⟩

/-- Behind the head the loop waits for the announced body, or the end of what comes. -/
theorem readLoop_body {headEnd want : ℕ} (hlim : headEnd + want < maxBody + 2 ^ 20)
    (as : List Arrival) {r : Reading} (hhead : r.head = some (headEnd, want))
    (hlen : r.buf.length < headEnd + want) :
    ∃ cap, readLoop maxBody as r =
      some ⟨cap, fill (headEnd + want) (arrived as) r.buf, some (headEnd, want)⟩ := by
  induction as generalizing r with
  | nil =>
    obtain ⟨cap, hgrow⟩ := grow_eq maxBody (hlen.trans hlim)
    refine ⟨cap, ?_⟩
    rw [readLoop, hgrow, ← hhead]
    rfl
  | cons a as ih =>
    obtain ⟨cap, hgrow⟩ := grow_eq maxBody (hlen.trans hlim)
    rw [readLoop, hgrow]
    dsimp only
    by_cases hdata : a.data = []
    · refine ⟨cap, ?_⟩
      rw [if_pos hdata, arrived_stop hdata, ← hhead]
      rfl
    · rw [if_neg hdata, arrived_cons hdata, fill, scanHead, hhead]
      dsimp only
      rw [complete_mk]
      by_cases hle : headEnd + want ≤ (r.buf ++ a.data).length
      · rw [if_pos (decide_eq_true hle), if_pos hle]
        exact ⟨cap, rfl⟩
      · rw [if_neg (by simpa using hle), if_neg hle]
        exact ih rfl (by simpa using hle)

/-- No `recv` returns more than the room it was given. -/
def fits : List Arrival → Reading → Bool
  | [], _ => true
  | a :: as, r =>
    (grow maxBody r).all fun r =>
      a.data.length ≤ r.cap - r.buf.length &&
        (scanHead maxBody a.late { r with buf := r.buf ++ a.data }).all (fits as)

lemma fits_cons {a : Arrival} {as : List Arrival} {r : Reading} :
    fits maxBody (a :: as) r = true ↔ ∀ r', grow maxBody r = some r' →
      a.data.length ≤ r'.cap - r'.buf.length ∧
        ∀ r'', scanHead maxBody a.late { r' with buf := r'.buf ++ a.data } = some r'' →
          fits maxBody as r'' = true := by
  simp only [fits, Option.all_eq_true, Bool.and_eq_true, decide_eq_true_eq]

/-- The head is on its way: not found yet, and the buffer as it was at first. -/
structure Waiting (r : Reading) : Prop where
  cap : r.cap = 64 * 1024
  small : r.buf.length ≤ 64 * 1024
  head : r.head = none
  unseen : find blankLine r.buf = none

lemma Waiting.start : Waiting .start := ⟨rfl, Nat.zero_le _, rfl, rfl⟩

/-- While the head is on its way the buffer grows once, when it is full. -/
lemma Waiting.grow {r : Reading} (h : Waiting r) :
    ∃ cap, Http.grow maxBody r = some { r with cap := cap } ∧
      (cap = 64 * 1024 ∧ r.buf.length < 64 * 1024 ∨
        cap = 128 * 1024 ∧ r.buf.length = 64 * 1024) := by
  have hcap := h.cap
  have hsmall := h.small
  rw [Http.grow]
  split_ifs with hfull hlim
  · omega
  · exact ⟨2 * r.cap, rfl, .inr ⟨by omega, by omega⟩⟩
  · exact ⟨r.cap, rfl, .inl ⟨hcap, by omega⟩⟩

/-- The buffer when the head is found in it, and what comes behind; `none` when the head is too
slow or too large before it is complete, or never complete. -/
def headArrives : List Arrival → List UInt8 → Option (List UInt8 × List Arrival)
  | [], _ => none
  | a :: as, buf =>
    match find blankLine (buf ++ a.data) with
    | some _ => some (buf ++ a.data, as)
    | none =>
      if a.late ∨ 64 * 1024 < (buf ++ a.data).length then none
      else headArrives as (buf ++ a.data)

/-- What follows once the head is complete. -/
def afterHead (buf : List UInt8) (rest : List Arrival) (e : ℕ) : Option Request :=
  match announced (buf.take (e + 4)) with
  | none => none
  | some want =>
    if maxBody < want then none
    else
      let whole := if e + 4 + want ≤ buf.length then buf else fill (e + 4 + want) rest buf
      parseHead (whole.take (e + 4)) (whole.drop (e + 4))

/-- What `read_request` makes of where its loop ended. -/
def parseReading (r : Option Reading) : Option Request :=
  r.bind fun r => r.head.bind fun h => parseHead (r.buf.take h.1) (r.buf.drop h.1)

lemma readRequest_eq (as : List Arrival) :
    readRequest maxBody as = parseReading (readLoop maxBody as .start) := by
  rw [readRequest]
  cases readLoop maxBody as .start with
  | none => rfl
  | some r =>
    dsimp only [parseReading, Option.bind_some]
    cases r.head <;> rfl

/-- What follows the head when it was found: the body is there, or the loop waits for it. -/
lemma parse_complete (as : List Arrival) (cap : ℕ) (buf : List UInt8) {e want : ℕ}
    (hlim : e + 4 + want < maxBody + 2 ^ 20) :
    parseReading (if (⟨cap, buf, some (e + 4, want)⟩ : Reading).complete then
        some ⟨cap, buf, some (e + 4, want)⟩
      else readLoop maxBody as ⟨cap, buf, some (e + 4, want)⟩) =
      let whole := if e + 4 + want ≤ buf.length then buf else fill (e + 4 + want) (arrived as) buf
      parseHead (whole.take (e + 4)) (whole.drop (e + 4)) := by
  rw [complete_mk]
  by_cases hle : e + 4 + want ≤ buf.length
  · rw [if_pos hle, if_pos (decide_eq_true hle)]
    rfl
  · rw [if_neg hle, if_neg (by simpa using hle)]
    obtain ⟨cap', hloop⟩ := readLoop_body maxBody hlim as
      (r := ⟨cap, buf, some (e + 4, want)⟩) rfl (by dsimp only; omega)
    rw [hloop]
    rfl

/-- The loop while the head is on its way, and what follows it. -/
theorem readLoop_head (as : List Arrival) {r : Reading} (hr : Waiting r)
    (hfits : fits maxBody as r = true) :
    parseReading (readLoop maxBody as r) =
      match headArrives (arrived as) r.buf with
      | none => none
      | some (buf, rest) => (find blankLine buf).bind (afterHead maxBody buf rest) := by
  induction as generalizing r with
  | nil =>
    obtain ⟨cap, hgrow⟩ := grow_eq maxBody (r := r) (by have := hr.small; omega)
    rw [readLoop, hgrow]
    simp only [parseReading, Option.bind_some, hr.head, Option.bind_none]
    rfl
  | cons a as ih =>
    obtain ⟨cap, hgrow, hcap⟩ := hr.grow maxBody
    by_cases hdata : a.data = []
    · rw [readLoop, hgrow, arrived_stop hdata]
      simp only [hdata, if_true, parseReading, Option.bind_some, hr.head, Option.bind_none]
      rfl
    obtain ⟨hroom, hnext⟩ := (fits_cons maxBody).mp hfits _ hgrow
    dsimp only at hroom hnext
    have hpos := List.length_pos_iff.mpr hdata
    have hlen : (r.buf ++ a.data).length = r.buf.length + a.data.length := List.length_append
    have hfind : memFind (r.buf ++ a.data) blankLine = find blankLine (r.buf ++ a.data) :=
      if_neg (by decide)
    rw [readLoop, hgrow, arrived_cons hdata, headArrives]
    dsimp only
    rw [if_neg hdata]
    simp only [scanHead, hr.head, hfind] at hnext ⊢
    cases hf : find blankLine (r.buf ++ a.data) with
    | none =>
      simp only [hf] at hnext ⊢
      by_cases hrefused : a.late = true ∨ 64 * 1024 < (r.buf ++ a.data).length
      · rw [if_pos hrefused, if_pos hrefused]
        rfl
      · rw [if_neg hrefused] at hnext
        rw [if_neg hrefused, if_neg hrefused]
        dsimp only [Reading.complete, Option.any_none]
        -- the head is still on its way, so the buffer has not grown
        refine ih ⟨?_, ?_, rfl, hf⟩ (hnext _ rfl)
        · dsimp only
          omega
        · dsimp only
          omega
    | some e =>
      have he := find_le_length (n := blankLine) (by decide) hf
      change e + 4 ≤ _ at he
      simp only [hf, afterHead, Option.bind_some]
      cases announced ((r.buf ++ a.data).take (e + 4)) with
      | none => rfl
      | some want =>
        dsimp only
        by_cases hlim : maxBody < want
        · rw [if_pos hlim, if_pos hlim]
          rfl
        · rw [if_neg hlim, if_neg hlim]
          exact parse_complete maxBody as cap (r.buf ++ a.data) (by omega)

lemma scanHead_keeps {late : Bool} {r r' : Reading} (h : scanHead maxBody late r = some r') :
    r'.buf = r.buf ∧ r'.cap = r.cap := by
  rw [scanHead] at h
  cases hhead : r.head with
  | some _ =>
    rw [hhead] at h
    obtain rfl := Option.some.inj h
    exact ⟨rfl, rfl⟩
  | none =>
    rw [hhead] at h
    dsimp only at h
    cases hfind : memFind r.buf blankLine with
    | none =>
      rw [hfind] at h
      dsimp only at h
      split_ifs at h
      obtain rfl := Option.some.inj h
      exact ⟨rfl, rfl⟩
    | some e =>
      rw [hfind] at h
      dsimp only at h
      cases hwant : announced (r.buf.take (e + 4)) with
      | none => rw [hwant] at h; cases h
      | some want =>
        rw [hwant] at h
        dsimp only at h
        split_ifs at h
        obtain rfl := Option.some.inj h
        exact ⟨rfl, rfl⟩

/-- A head is found before the buffer grows a second time. -/
theorem headArrives_small (as : List Arrival) {r : Reading} (hr : Waiting r)
    (hfits : fits maxBody as r = true) {buf : List UInt8} {rest : List Arrival}
    (h : headArrives (arrived as) r.buf = some (buf, rest)) : buf.length ≤ 128 * 1024 := by
  induction as generalizing r with
  | nil => cases h
  | cons a as ih =>
    obtain ⟨cap, hgrow, hcap⟩ := hr.grow maxBody
    by_cases hdata : a.data = []
    · rw [arrived_stop hdata] at h
      cases h
    obtain ⟨hroom, hnext⟩ := (fits_cons maxBody).mp hfits _ hgrow
    dsimp only at hroom hnext
    have hpos := List.length_pos_iff.mpr hdata
    have hlen : (r.buf ++ a.data).length = r.buf.length + a.data.length := List.length_append
    have hfind : memFind (r.buf ++ a.data) blankLine = find blankLine (r.buf ++ a.data) :=
      if_neg (by decide)
    rw [arrived_cons hdata, headArrives] at h
    simp only [scanHead, hr.head, hfind] at hnext
    cases hf : find blankLine (r.buf ++ a.data) with
    | some e =>
      rw [hf] at h
      obtain ⟨rfl, rfl⟩ := Prod.mk.inj (Option.some.inj h)
      omega
    | none =>
      rw [hf] at h hnext
      dsimp only at h hnext
      split_ifs at h with hrefused
      rw [if_neg hrefused] at hnext
      refine ih ⟨?_, ?_, rfl, hf⟩ (hnext _ rfl) h
      · dsimp only
        omega
      · dsimp only
        omega

end VibeVoice.Http
