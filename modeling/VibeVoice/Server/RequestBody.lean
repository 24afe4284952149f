import VibeVoice.Server.Http

/-!
What `read_request` accepts as a whole request.

The loop ends when the announced body is there, and also when a `recv` brings nothing; the two
ends are not told apart.  It takes the bytes of the last `recv` whole, also those behind the
announced body.

* `Accepted`: the head of a connection passes every check, stated on what the `recv`s return.
* `readRequest_accepted`: the request that comes of it, for every sequence of `recv` results.
* `complete_iff`: accepted requests are complete exactly when a `recv` ends where the announced
  body ends.
-/

namespace VibeVoice.Http

open Search

variable {maxBody : ℕ} {head : List UInt8} {want : ℕ}

/-- Every `recv` that leaves less than `n` bytes comes before the deadline, and with no more than
64 KiB in the buffer; `buf` was there before. -/
def InTime (n : ℕ) (as : List Arrival) (buf : List UInt8) : Prop :=
  ∀ pre a post, as = pre ++ a :: post → (buf ++ bytes (pre ++ [a])).length < n →
    a.late = false ∧ (buf ++ bytes (pre ++ [a])).length ≤ 64 * 1024

lemma inTime_cons {n : ℕ} {a : Arrival} {as : List Arrival} {buf : List UInt8} :
    InTime n (a :: as) buf ↔
      ((buf ++ a.data).length < n → a.late = false ∧ (buf ++ a.data).length ≤ 64 * 1024) ∧
        InTime n as (buf ++ a.data) := by
  constructor
  · intro h
    refine ⟨by simpa using h [] a as rfl, fun pre b post hsplit hlen => ?_⟩
    have hb := h (a :: pre) b post (by rw [hsplit]; rfl)
    rw [List.cons_append, bytes_cons, ← List.append_assoc] at hb
    exact hb hlen
  · rintro ⟨hfront, htail⟩ pre b post hsplit hlen
    cases pre with
    | nil =>
      obtain ⟨rfl, rfl⟩ := List.cons.inj hsplit
      simpa using hfront (by simpa using hlen)
    | cons c pre =>
      obtain ⟨rfl, hrest⟩ := List.cons.inj hsplit
      rw [List.cons_append, bytes_cons, ← List.append_assoc] at hlen ⊢
      exact htail pre b post hrest hlen

/-- Once there is enough, nothing more is waited for. -/
lemma fill_of_le {n : ℕ} {as : List Arrival} {buf buf' : List UInt8} {a : Arrival}
    (h : buf ++ a.data = buf') :
    fill n (a :: as) buf = if n ≤ buf'.length then buf' else fill n as buf' := by
  rw [fill, h]

/-- A head that comes in time is found, with all that came up to then. -/
lemma headArrives_inTime (hhead : EndsHead head) {as : List Arrival} {buf more : List UInt8}
    (htext : buf ++ bytes as = head ++ more) (hlen : buf.length < head.length)
    (htime : InTime head.length as buf) :
    ∃ buf' rest, headArrives as buf = some (buf', rest) ∧
      find blankLine buf' = some (head.length - 4) ∧ buf'.take head.length = head ∧
      ∀ n, head.length ≤ n → (if n ≤ buf'.length then buf' else fill n rest buf') =
        fill n as buf := by
  induction as generalizing buf with
  | nil =>
    have := congrArg List.length htext
    simp only [bytes_nil, List.append_nil, List.length_append] at this
    omega
  | cons a as ih =>
    rw [bytes_cons, ← List.append_assoc] at htext
    have hpre : (head ++ more).take (buf ++ a.data).length = buf ++ a.data := by
      rw [← htext, List.take_left]
    have hfind := hhead.find_take more (buf ++ a.data).length
    rw [hpre] at hfind
    obtain ⟨hfront, htail⟩ := inTime_cons.mp htime
    by_cases hle : head.length ≤ (buf ++ a.data).length
    · rw [if_pos hle] at hfind
      refine ⟨buf ++ a.data, as, by rw [headArrives, hfind], hfind, ?_, fun n _ => ?_⟩
      · rw [← hpre, List.take_take, min_eq_left hle, List.take_left]
      · rw [fill_of_le rfl]
    · rw [if_neg hle] at hfind
      obtain ⟨hlate, hsmall⟩ := hfront (by omega)
      obtain ⟨buf', rest, harrives, hfind', htake, hfill⟩ := ih htext (by omega) htail
      refine ⟨buf', rest, ?_, hfind', htake, fun n hn => ?_⟩
      · rw [headArrives, hfind]
        dsimp only
        rw [if_neg (by simp only [hlate, Bool.false_eq_true, false_or]; omega), harrives]
      · rw [hfill n hn, fill_of_le rfl, if_neg (by omega)]

/-- What is found came in time, and starts what came. -/
lemma inTime_of_headArrives {as rest : List Arrival} {buf buf' : List UInt8} {e : ℕ}
    (hnone : find blankLine buf = none) (harrives : headArrives as buf = some (buf', rest))
    (hfind : find blankLine buf' = some e) :
    buf' <+: buf ++ bytes as ∧ InTime (e + 4) as buf := by
  induction as generalizing buf with
  | nil => cases harrives
  | cons a as ih =>
    rw [headArrives] at harrives
    rw [inTime_cons, bytes_cons, ← List.append_assoc]
    cases hf : find blankLine (buf ++ a.data) with
    | some e' =>
      rw [hf] at harrives
      obtain ⟨rfl, rfl⟩ := Prod.mk.inj (Option.some.inj harrives)
      obtain rfl : e' = e := Option.some.inj (hf.symm.trans hfind)
      have he := find_le_length (n := blankLine) (by decide) hf
      change e' + 4 ≤ _ at he
      refine ⟨List.prefix_append _ _, fun h => absurd h (by omega), ?_⟩
      intro pre b post _ hlen
      rw [List.length_append] at hlen
      omega
    | none =>
      rw [hf] at harrives
      dsimp only at harrives
      split_ifs at harrives with hrefused
      obtain ⟨hpre, htime⟩ := ih hf harrives
      rw [not_or, Bool.not_eq_true] at hrefused
      exact ⟨hpre, fun _ => ⟨hrefused.1, by omega⟩, htime⟩

/-- Of what comes the buffer holds a front, and enough of it. -/
lemma fill_spec (n : ℕ) (as : List Arrival) (buf : List UInt8) :
    fill n as buf <+: buf ++ bytes as ∧
      min n (buf ++ bytes as).length ≤ (fill n as buf).length := by
  induction as generalizing buf with
  | nil =>
    rw [bytes_nil, List.append_nil]
    exact ⟨List.prefix_rfl, min_le_right _ _⟩
  | cons a as ih =>
    rw [fill_of_le rfl, bytes_cons, ← List.append_assoc]
    split_ifs with hle
    · exact ⟨List.prefix_append _ _, (min_le_left _ _).trans hle⟩
    · exact ih _

/-- The buffer ends at `n` exactly when a `recv` does. -/
lemma fill_length_iff {n : ℕ} {as : List Arrival} {buf : List UInt8} (hlt : buf.length < n) :
    (fill n as buf).length = n ↔ ∃ pre, pre <+: as ∧ (buf ++ bytes pre).length = n := by
  induction as generalizing buf with
  | nil =>
    constructor
    · intro h
      exact ⟨[], List.prefix_rfl, by simpa [fill] using h⟩
    · rintro ⟨pre, hpre, hlen⟩
      obtain rfl := List.prefix_nil.mp hpre
      simpa [fill] using hlen
  | cons a as ih =>
    rw [fill_of_le rfl]
    have hcons : (∃ pre, pre <+: a :: as ∧ (buf ++ bytes pre).length = n) ↔
        ∃ pre, pre <+: as ∧ (buf ++ a.data ++ bytes pre).length = n := by
      constructor
      · rintro ⟨pre, hpre, hlen⟩
        cases pre with
        | nil =>
          simp only [bytes_nil, List.append_nil] at hlen
          omega
        | cons b pre =>
          obtain ⟨rfl, hpre'⟩ := List.cons_prefix_cons.mp hpre
          exact ⟨pre, hpre', by rwa [bytes_cons, ← List.append_assoc] at hlen⟩
      · rintro ⟨pre, hpre, hlen⟩
        exact ⟨a :: pre, List.cons_prefix_cons.mpr ⟨rfl, hpre⟩, by
          rwa [bytes_cons, ← List.append_assoc]⟩
    rw [hcons]
    split_ifs with hle
    · constructor
      · intro h
        exact ⟨[], List.nil_prefix, by simpa using h⟩
      · rintro ⟨pre, -, hlen⟩
        rw [List.length_append] at hlen
        omega
    · exact ih (by omega)

/-- The head of a connection comes in time, and announces a length within the limit. -/
structure HeadRead (maxBody : ℕ) (as : List Arrival) (head : List UInt8) (want : ℕ) : Prop where
  ends : EndsHead head
  arrives : head <+: bytes (arrived as)
  inTime : InTime head.length (arrived as) []
  announces : announced head = some want
  within : want ≤ maxBody

/-- The buffer in which the body has arrived, or all that comes of it. -/
def filled (as : List Arrival) (head : List UInt8) (want : ℕ) : List UInt8 :=
  fill (head.length + want) (arrived as) []

lemma HeadRead.filled_spec {as : List Arrival} (h : HeadRead maxBody as head want) :
    (filled as head want).take head.length = head ∧ head.length ≤ (filled as head want).length ∧
      filled as head want <+: bytes (arrived as) := by
  obtain ⟨hpre, hlen⟩ := fill_spec (head.length + want) (arrived as) []
  rw [List.nil_append] at hpre hlen
  have hhead := h.arrives.length_le
  have hle : head.length ≤ (filled as head want).length := by
    rw [filled]
    omega
  refine ⟨?_, hle, hpre⟩
  have hpre' : head <+: filled as head want :=
    List.prefix_of_prefix_length_le h.arrives hpre hle
  exact (List.prefix_iff_eq_take.mp hpre').symm

/-- A head that is read is parsed, with all that is in the buffer behind it. -/
theorem readRequest_headRead {as : List Arrival} (hfits : fits maxBody as .start = true)
    (h : HeadRead maxBody as head want) :
    readRequest maxBody as = parseHead head ((filled as head want).drop head.length) := by
  obtain ⟨more, hmore⟩ := h.arrives
  have hfour := h.ends.four_le
  have htext : [] ++ bytes (arrived as) = head ++ more := hmore.symm
  obtain ⟨buf, rest, harrives, hfind, htake, hfill⟩ :=
    headArrives_inTime h.ends htext (by simp; omega) h.inTime
  have hsub : head.length - 4 + 4 = head.length := Nat.sub_add_cancel hfour
  rw [readRequest_eq, readLoop_head maxBody as Waiting.start hfits]
  rw [show Reading.start.buf = [] from rfl, harrives]
  dsimp only
  rw [hfind, Option.bind_some, afterHead, hsub, htake, h.announces]
  dsimp only
  rw [if_neg (Nat.not_lt.mpr h.within), hfill _ (Nat.le_add_right _ _)]
  change parseHead ((filled as head want).take head.length) _ = _
  rw [h.filled_spec.1]
  rfl

/-- Where no head is read there is no request. -/
theorem headRead_of_readRequest {as : List Arrival} (hfits : fits maxBody as .start = true)
    {req : Request} (h : readRequest maxBody as = some req) :
    ∃ head want, HeadRead maxBody as head want := by
  rw [readRequest_eq, readLoop_head maxBody as Waiting.start hfits] at h
  rw [show Reading.start.buf = [] from rfl] at h
  cases harrives : headArrives (arrived as) [] with
  | none => rw [harrives] at h; cases h
  | some found =>
    obtain ⟨buf, rest⟩ := found
    rw [harrives] at h
    dsimp only at h
    obtain ⟨e, hfind, hafter⟩ := Option.bind_eq_some_iff.mp h
    obtain ⟨hpre, htime⟩ := inTime_of_headArrives (by rfl) harrives hfind
    obtain ⟨hends, hlen⟩ := endsHead_take hfind
    rw [afterHead] at hafter
    cases hwant : announced (buf.take (e + 4)) with
    | none => rw [hwant] at hafter; cases hafter
    | some want =>
      rw [hwant] at hafter
      dsimp only at hafter
      split_ifs at hafter with hlim
      all_goals
        exact ⟨buf.take (e + 4), want, hends, (List.take_prefix _ _).trans hpre,
          by rwa [hlen], hwant, Nat.le_of_not_lt hlim⟩

/-- The head of a connection passes every check of `read_request`. -/
structure Accepted (maxBody : ℕ) (as : List Arrival) (head : List UInt8) (want : ℕ) : Prop
    extends HeadRead maxBody as head want where
  spaces : 2 ≤ head.count 0x20

/-- Every accepted request carries exactly the body that its head announces, and all of it was
received. -/
def OnlyWhole (maxBody : ℕ) (as : List Arrival) : Prop :=
  ∀ req, readRequest maxBody as = some req → ∃ head want, EndsHead head ∧
    announced head = some want ∧ head ++ req.body <+: bytes (arrived as) ∧ req.body.length = want

/-- Where the head passes every check, a `recv` ends where the announced body ends. -/
def EndsWithBody (maxBody : ℕ) (as : List Arrival) : Prop :=
  ∀ head want, Accepted maxBody as head want →
    ∃ pre, pre <+: arrived as ∧ (bytes pre).length = head.length + want

/-- `read_request` keeps truncated and overlong bodies out exactly when a `recv` happens to end
with the body. -/
theorem only_whole_iff {as : List Arrival} (hfits : fits maxBody as .start = true) :
    OnlyWhole maxBody as ↔ EndsWithBody maxBody as := by
  constructor
  · intro hwhole head want h
    obtain ⟨req, hparse, hbody⟩ := (parseHead_isSome head _).mpr h.spaces
    rw [← readRequest_headRead hfits h.toHeadRead] at hparse
    obtain ⟨head', want', hends', hwant', hpre', hlen'⟩ := hwhole req hparse
    obtain rfl := h.ends.unique hends' h.arrives ((List.prefix_append _ _).trans hpre')
    obtain rfl : want = want' := Option.some.inj (h.announces.symm.trans hwant')
    obtain ⟨-, hle, -⟩ := h.toHeadRead.filled_spec
    have hfour := h.ends.four_le
    rw [hbody, List.length_drop] at hlen'
    have hexact : (filled as head want).length = head.length + want := by omega
    obtain ⟨pre, hpre, hlen⟩ := (fill_length_iff (by simp; omega)).mp hexact
    exact ⟨pre, hpre, by simpa using hlen⟩
  · intro hends req hreq
    obtain ⟨head, want, h⟩ := headRead_of_readRequest hfits hreq
    have hparse := hreq
    rw [readRequest_headRead hfits h] at hparse
    have hbody := parseHead_body hparse
    obtain ⟨htake, hle, hpre⟩ := h.filled_spec
    have hspaces := (parseHead_isSome head _).mp ⟨req, hparse, hbody⟩
    obtain ⟨pre, hpre', hlen⟩ := hends head want ⟨h, hspaces⟩
    have hfour := h.ends.four_le
    have hexact : (filled as head want).length = head.length + want :=
      (fill_length_iff (by simp; omega)).mpr ⟨pre, hpre', by simpa using hlen⟩
    have hfilled : head ++ req.body = filled as head want := by
      conv_rhs => rw [← List.take_append_drop head.length (filled as head want), htake]
      rw [hbody]
    refine ⟨head, want, h.ends, h.announces, by rwa [hfilled], ?_⟩
    rw [hbody, List.length_drop]
    omega

/-- A head that announces five bytes. -/
def fiveBytes : List UInt8 := literal "POST / HTTP/1.1\r\nContent-Length: 5\r\n\r\n"

/-- Two of the five bytes, before the peer closes. -/
def truncated : List Arrival := [⟨fiveBytes, false⟩, ⟨literal "ab", false⟩, ⟨[], false⟩]

theorem only_whole_truncated : fits 1024 truncated .start = true ∧
    (OnlyWhole 1024 truncated ↔ EndsWithBody 1024 truncated) :=
  ⟨by decide +kernel, only_whole_iff (by decide +kernel)⟩

/-- The two bytes are handed on as the whole body. -/
theorem truncated_accepted : ¬ OnlyWhole 1024 truncated := by
  intro h
  have hreq : readRequest 1024 truncated = some ⟨literal "POST", literal "/", [],
      [(literal "Content-Length", literal "5")], literal "ab"⟩ := by
    decide +kernel
  obtain ⟨head, want, hends, hwant, hpre, hlen⟩ := h _ hreq
  have hfive : EndsHead fiveBytes := by decide +kernel
  have hpre' : fiveBytes <+: bytes (arrived truncated) := by decide +kernel
  obtain rfl := hends.unique hfive ((List.prefix_append _ _).trans hpre) hpre'
  rw [show announced fiveBytes = some 5 by decide +kernel, ← hlen] at hwant
  exact absurd hwant (by decide +kernel)

end VibeVoice.Http
