import VibeVoice.Server.RequestBody

/-!
How `read_request` depends on the way a request is cut into `recv` results.

The limit of 64 KiB on a head is looked at only while the head is incomplete, and the buffer is
first full at that size.  What the next `recv` brings decides on a head that is a little larger:
if it completes the head, the limit is never looked at.

* `Cut`: a way of cutting a text into `recv` results.
* `readRequest_inTime`, `readRequest_refused`: what comes of a request, however it is cut.
* `cuts_agree_iff`: the sizes of the heads for which every cut gives the same.
-/

namespace VibeVoice.Http

open Search

variable {maxBody : ℕ} {head body text : List UInt8} {cut : List (List UInt8)}

/-- The pieces of a cut, all before the deadline. -/
def arrivals (cut : List (List UInt8)) : List Arrival := cut.map fun piece => ⟨piece, false⟩

/-- A way of cutting a text into `recv` results: none of them empty, and none larger than the
room that it was given. -/
structure Cut (maxBody : ℕ) (text : List UInt8) (cut : List (List UInt8)) : Prop where
  whole : cut.flatten = text
  nonempty : ∀ piece ∈ cut, piece ≠ []
  fits : fits maxBody (arrivals cut) .start = true

/-- A request within the limit: a head that its first empty line ends, and behind it as much as
it announces. -/
structure IsRequest (maxBody : ℕ) (head body : List UInt8) : Prop where
  ends : EndsHead head
  length : ∀ want, announced head = some want → want = body.length
  within : body.length ≤ maxBody

/-- Every way of cutting a text gives the same verdict and the same request. -/
def CutsAgree (maxBody : ℕ) (text : List UInt8) : Prop :=
  ∀ cut cut', Cut maxBody text cut → Cut maxBody text cut' →
    readRequest maxBody (arrivals cut) = readRequest maxBody (arrivals cut')

@[simp] lemma bytes_arrivals (cut : List (List UInt8)) : bytes (arrivals cut) = cut.flatten := by
  rw [bytes, arrivals, List.flatMap_map, List.flatMap_id']

lemma arrived_arrivals (h : ∀ piece ∈ cut, piece ≠ []) :
    arrived (arrivals cut) = arrivals cut := by
  rw [arrived, List.takeWhile_eq_self_iff]
  intro a ha
  obtain ⟨piece, hpiece, rfl⟩ := List.mem_map.mp ha
  simpa using h piece hpiece

/-- A cut comes in time when none of its pieces ends between the limit and the end of the
head. -/
lemma inTime_arrivals_iff {n : ℕ} : InTime n (arrivals cut) [] ↔
    ∀ pre, pre <+: cut → pre ≠ [] → pre.flatten.length < n → pre.flatten.length ≤ 64 * 1024 := by
  constructor
  · rintro h pre ⟨post, rfl⟩ hne hlt
    obtain ⟨pre, piece, rfl⟩ : ∃ u y, pre = u ++ [y] :=
      ⟨_, _, (List.dropLast_append_getLast hne).symm⟩
    have hsplit : arrivals (pre ++ [piece] ++ post) =
        arrivals pre ++ ⟨piece, false⟩ :: arrivals post := by
      simp [arrivals]
    have hbytes : [] ++ bytes (arrivals pre ++ [⟨piece, false⟩]) = (pre ++ [piece]).flatten := by
      simp
    have hpre := h _ _ _ hsplit
    rw [hbytes] at hpre
    exact (hpre hlt).2
  · intro h pre a post hsplit hlt
    obtain ⟨pieces, rest, rfl, rfl, hrest⟩ := List.map_eq_append_iff.mp hsplit
    obtain ⟨piece, rest, rfl, rfl, rfl⟩ := List.map_eq_cons_iff.mp hrest
    have hbytes : [] ++ bytes (arrivals pieces ++ [(⟨piece, false⟩ : Arrival)]) =
        (pieces ++ [piece]).flatten := by
      simp
    change ([] ++ bytes (arrivals pieces ++ [(⟨piece, false⟩ : Arrival)])).length < n at hlt
    change _ ∧ ([] ++ bytes (arrivals pieces ++ [(⟨piece, false⟩ : Arrival)])).length ≤ _
    rw [hbytes] at hlt ⊢
    exact ⟨rfl, h _ ⟨rest, by simp⟩ (by simp) hlt⟩

lemma Cut.bytes_arrived (hcut : Cut maxBody text cut) :
    arrived (arrivals cut) = arrivals cut ∧ bytes (arrived (arrivals cut)) = text := by
  have harrived := arrived_arrivals hcut.nonempty
  exact ⟨harrived, by rw [harrived, bytes_arrivals, hcut.whole]⟩

/-- A request whose head comes in time is parsed, however it is cut. -/
theorem readRequest_inTime (hreq : IsRequest maxBody head body)
    (hcut : Cut maxBody (head ++ body) cut) (hlength : headContentLength head ≠ none)
    (htime : InTime head.length (arrivals cut) []) :
    readRequest maxBody (arrivals cut) = parseHead head body := by
  obtain ⟨harrived, hbytes⟩ := hcut.bytes_arrived
  obtain ⟨want, hwant⟩ : ∃ want, announced head = some want := by
    rw [announced]
    exact Option.ne_none_iff_exists'.mp (by simpa using hlength)
  obtain rfl := hreq.length want hwant
  have hread : HeadRead maxBody (arrivals cut) head body.length :=
    ⟨hreq.ends, by rw [hbytes]; exact List.prefix_append _ _, by rwa [harrived], hwant,
      hreq.within⟩
  have hfilled : filled (arrivals cut) head body.length = head ++ body := by
    obtain ⟨hpre, hlen⟩ := fill_spec (head.length + body.length) (arrived (arrivals cut)) []
    rw [List.nil_append, hbytes, List.length_append, min_self] at hlen
    rw [List.nil_append, hbytes] at hpre
    exact hpre.eq_of_length_le (by rw [List.length_append]; exact hlen)
  rw [readRequest_headRead hcut.fits hread, hfilled, List.drop_left]

/-- A request that is accepted came in time, and announced a length. -/
theorem inTime_of_readRequest (hreq : IsRequest maxBody head body)
    (hcut : Cut maxBody (head ++ body) cut) {req : Request}
    (h : readRequest maxBody (arrivals cut) = some req) :
    headContentLength head ≠ none ∧ InTime head.length (arrivals cut) [] := by
  obtain ⟨harrived, hbytes⟩ := hcut.bytes_arrived
  obtain ⟨head', want, hread⟩ := headRead_of_readRequest hcut.fits h
  have hpre := hread.arrives
  rw [hbytes] at hpre
  obtain rfl := hreq.ends.unique hread.ends (List.prefix_append _ _) hpre
  have htime := hread.inTime
  have hwant := hread.announces
  rw [harrived] at htime
  refine ⟨fun hnone => ?_, htime⟩
  rw [announced, hnone] at hwant
  cases hwant

/-- Otherwise there is no request. -/
lemma readRequest_refused (hreq : IsRequest maxBody head body)
    (hcut : Cut maxBody (head ++ body) cut)
    (h : headContentLength head = none ∨ ¬ InTime head.length (arrivals cut) []) :
    readRequest maxBody (arrivals cut) = none := by
  cases hr : readRequest maxBody (arrivals cut) with
  | none => rfl
  | some req =>
    obtain ⟨hlength, htime⟩ := inTime_of_readRequest hreq hcut hr
    rcases h with h | h
    · exact absurd h hlength
    · exact absurd htime h

/-! ### The two bounds on a head -/

/-- A head that ends with the first byte behind the limit always comes in time. -/
lemma inTime_of_small (h : head.length ≤ 64 * 1024 + 1) :
    InTime head.length (arrivals cut) [] :=
  inTime_arrivals_iff.mpr fun pre _ _ hlt => by omega

/-- A head that the buffer cannot hold once it has grown never does. -/
lemma small_of_inTime (hends : EndsHead head) (hcut : Cut maxBody (head ++ body) cut)
    (htime : InTime head.length (arrivals cut) []) : head.length ≤ 128 * 1024 := by
  have hfour := hends.four_le
  have htext : [] ++ bytes (arrivals cut) = head ++ body := by
    rw [List.nil_append, bytes_arrivals, hcut.whole]
  obtain ⟨buf, rest, harrives, -, htake, -⟩ :=
    headArrives_inTime hends htext (by simp; omega) htime
  rw [← arrived_arrivals hcut.nonempty] at harrives
  have hsmall := headArrives_small maxBody (arrivals cut) Waiting.start hcut.fits harrives
  have hlen := congrArg List.length htake
  rw [List.length_take] at hlen
  omega

/-! ### Two cuts of a head in between -/

/-- One byte at a time. -/
def bytewise (text : List UInt8) : List (List UInt8) := text.map fun b => [b]

/-- The first 64 KiB, as much again, and the rest one byte at a time. -/
def doubled (text : List UInt8) : List (List UInt8) :=
  text.take (64 * 1024) :: (text.drop (64 * 1024)).take (64 * 1024) ::
    bytewise (text.drop (128 * 1024))

lemma flatten_bytewise (text : List UInt8) : (bytewise text).flatten = text := by
  induction text with
  | nil => rfl
  | cons b text ih => rw [bytewise, List.map_cons, List.flatten_cons, ← bytewise, ih]; rfl

/-- There is always room for one byte. -/
lemma fits_bytewise (text : List UInt8) {r : Reading} (hlen : r.buf.length ≤ r.cap)
    (hcap : 0 < r.cap) : fits maxBody (arrivals (bytewise text)) r = true := by
  induction text generalizing r with
  | nil => rfl
  | cons b text ih =>
    refine (fits_cons maxBody).mpr fun r' hgrow => ?_
    have hroom : r'.buf = r.buf ∧ r.buf.length < r'.cap := by
      rw [grow] at hgrow
      split_ifs at hgrow <;> obtain rfl := Option.some.inj hgrow
      · exact ⟨rfl, by dsimp only; omega⟩
      · exact ⟨rfl, by omega⟩
    obtain ⟨hbuf, hlt⟩ := hroom
    refine ⟨by rw [hbuf]; change 1 ≤ _; omega, fun r'' hscan => ?_⟩
    obtain ⟨hbuf', hcap'⟩ := scanHead_keeps maxBody hscan
    dsimp only at hbuf' hcap'
    refine ih ?_ (by omega)
    rw [hbuf', hcap', hbuf, List.length_append]
    exact hlt

lemma cut_bytewise (text : List UInt8) : Cut maxBody text (bytewise text) := by
  refine ⟨flatten_bytewise text, fun piece hpiece => ?_, fits_bytewise text ?_ ?_⟩
  · obtain ⟨b, -, rfl⟩ := List.mem_map.mp hpiece
    simp
  · exact Nat.zero_le _
  · decide

lemma cut_doubled (hlen : 64 * 1024 < text.length) : Cut maxBody text (doubled text) := by
  refine ⟨?_, fun piece hpiece => ?_, ?_⟩
  · rw [doubled, List.flatten_cons, List.flatten_cons, flatten_bytewise,
      show 128 * 1024 = 64 * 1024 + 64 * 1024 by rfl, ← List.drop_drop, List.take_append_drop,
      List.take_append_drop]
  · rcases List.mem_cons.mp hpiece with rfl | hpiece
    · refine List.ne_nil_of_length_pos ?_
      rw [List.length_take]
      omega
    · rcases List.mem_cons.mp hpiece with rfl | hpiece
      · refine List.ne_nil_of_length_pos ?_
        rw [List.length_take, List.length_drop]
        omega
      · obtain ⟨b, -, rfl⟩ := List.mem_map.mp hpiece
        simp
  · refine (fits_cons maxBody).mpr fun r hgrow => ?_
    have hfirst : (text.take (64 * 1024)).length = 64 * 1024 := by
      rw [List.length_take]
      omega
    obtain rfl : Reading.start = r := Option.some.inj hgrow
    refine ⟨hfirst.le, fun r hscan => ?_⟩
    obtain ⟨hbuf, hcap⟩ := scanHead_keeps maxBody hscan
    have hlen' : r.buf.length = 64 * 1024 := by rw [hbuf]; exact hfirst
    change r.cap = 64 * 1024 at hcap
    refine (fits_cons maxBody).mpr fun r' hgrow' => ?_
    rw [grow, if_pos (hlen'.trans hcap.symm)] at hgrow'
    split_ifs at hgrow'
    obtain rfl := Option.some.inj hgrow'
    dsimp only
    have hsecond : ((text.drop (64 * 1024)).take (64 * 1024)).length ≤ 64 * 1024 := by
      rw [List.length_take]
      exact min_le_left _ _
    refine ⟨by omega, fun r'' hscan' => ?_⟩
    obtain ⟨hbuf', hcap'⟩ := scanHead_keeps maxBody hscan'
    dsimp only at hbuf' hcap'
    refine fits_bytewise _ ?_ (by omega)
    rw [hbuf', hcap', List.length_append]
    omega

/-- The second piece completes a head that fits in 128 KiB. -/
lemma inTime_doubled (hsmall : head.length ≤ 128 * 1024) :
    InTime head.length (arrivals (doubled (head ++ body))) [] := by
  refine inTime_arrivals_iff.mpr fun pre hpre hne hlt => ?_
  obtain ⟨first, pre, rfl⟩ := List.exists_cons_of_ne_nil hne
  rw [doubled, List.cons_prefix_cons] at hpre
  obtain ⟨rfl, hpre⟩ := hpre
  cases pre with
  | nil =>
    rw [List.flatten_singleton, List.length_take]
    exact min_le_left _ _
  | cons second pre =>
    obtain ⟨rfl, -⟩ := List.cons_prefix_cons.mp hpre
    simp only [List.flatten_cons, List.length_append, List.length_take, List.length_drop] at hlt
    omega

/-- The byte behind the limit comes alone, and a larger head is not complete by then. -/
lemma not_inTime_bytewise {n : ℕ} (hn : 64 * 1024 + 1 < n) (hlen : 64 * 1024 < text.length) :
    ¬ InTime n (arrivals (bytewise text)) [] := by
  intro htime
  have hpre : bytewise (text.take (64 * 1024 + 1)) <+: bytewise text :=
    (List.take_prefix _ _).map _
  have hcount : (bytewise (text.take (64 * 1024 + 1))).flatten.length = 64 * 1024 + 1 := by
    rw [flatten_bytewise, List.length_take]
    omega
  have hne : bytewise (text.take (64 * 1024 + 1)) ≠ [] := by
    intro h
    rw [h] at hcount
    cases hcount
  have hle := inTime_arrivals_iff.mp htime _ hpre hne (by omega)
  omega

/-- A head in between is accepted in one cut and refused in another. -/
theorem cuts_disagree (hreq : IsRequest maxBody head body) (hlarge : 64 * 1024 + 1 < head.length)
    (hsmall : head.length ≤ 128 * 1024) (hlength : headContentLength head ≠ none)
    (hspaces : 2 ≤ head.count 0x20) : ¬ CutsAgree maxBody (head ++ body) := by
  intro h
  have hlen : 64 * 1024 < (head ++ body).length := by
    rw [List.length_append]
    omega
  obtain ⟨req, hparse, -⟩ := (parseHead_isSome head body).mpr hspaces
  have hrefused := readRequest_refused hreq (cut_bytewise _)
    (.inr (not_inTime_bytewise hlarge hlen))
  have haccepted := readRequest_inTime hreq (cut_doubled hlen) hlength (inTime_doubled hsmall)
  have hagree := h _ _ (cut_bytewise _) (cut_doubled hlen)
  rw [hrefused, haccepted, hparse] at hagree
  cases hagree

/-- Every cut of a request gives the same exactly where the head ends with the first byte behind
64 KiB at the latest, or does not fit in 128 KiB, or is refused for what it says. -/
theorem cuts_agree_iff (hreq : IsRequest maxBody head body) :
    CutsAgree maxBody (head ++ body) ↔
      head.length ≤ 64 * 1024 + 1 ∨ 128 * 1024 < head.length ∨
        headContentLength head = none ∨ head.count 0x20 < 2 := by
  constructor
  · intro h
    by_contra hcond
    simp only [not_or, Nat.not_le, Nat.not_lt] at hcond
    obtain ⟨hlarge, hsmall, hlength, hspaces⟩ := hcond
    exact cuts_disagree hreq hlarge hsmall hlength hspaces h
  · intro hcond cut cut' hcut hcut'
    rcases hcond with h | h | h | h
    · by_cases hlength : headContentLength head = none
      · rw [readRequest_refused hreq hcut (.inl hlength),
          readRequest_refused hreq hcut' (.inl hlength)]
      · rw [readRequest_inTime hreq hcut hlength (inTime_of_small h),
          readRequest_inTime hreq hcut' hlength (inTime_of_small h)]
    · have hlate : ∀ {cut}, Cut maxBody (head ++ body) cut →
          ¬ InTime head.length (arrivals cut) [] := fun hcut htime =>
        absurd (small_of_inTime hreq.ends hcut htime) (by omega)
      rw [readRequest_refused hreq hcut (.inr (hlate hcut)),
        readRequest_refused hreq hcut' (.inr (hlate hcut'))]
    · rw [readRequest_refused hreq hcut (.inl h), readRequest_refused hreq hcut' (.inl h)]
    · have hrefused : ∀ {cut}, Cut maxBody (head ++ body) cut →
          readRequest maxBody (arrivals cut) = none := by
        intro cut hcut
        cases hr : readRequest maxBody (arrivals cut) with
        | none => rfl
        | some req =>
          obtain ⟨hlength, htime⟩ := inTime_of_readRequest hreq hcut hr
          rw [readRequest_inTime hreq hcut hlength htime] at hr
          have := (parseHead_isSome head body).mp ⟨req, hr, parseHead_body hr⟩
          omega
      rw [hrefused hcut, hrefused hcut']

/-! ### Examples -/

/-- A request with `n` letters in its target. -/
def longHead (n : ℕ) : List UInt8 :=
  literal "GET /" ++ List.replicate n 0x61 ++ literal " HTTP/1.1\r\n\r\n"

lemma endsHead_longHead (n : ℕ) : EndsHead (longHead n) := by
  have hfront : ∀ b ∈ literal "GET /" ++ List.replicate n 0x61, b ≠ 0x0D := by
    intro b hb
    rcases List.mem_append.mp hb with hb | hb
    · exact fun heq => (by decide : (0x0D : UInt8) ∉ literal "GET /") (heq ▸ hb)
    · rw [List.eq_of_mem_replicate hb]
      decide
  have hfind : find blankLine (literal " HTTP/1.1\r\n\r\n") = some 9 := by decide
  have hhttp : (literal " HTTP/1.1\r\n\r\n").length = 13 := by decide
  rw [EndsHead, longHead, blankLine, find_skip_of_not_mem _ fun h => hfront _ h rfl]
  change Option.map _ (find blankLine _) = _
  simp only [hfind, Option.map_some, List.length_append, hhttp]
  rfl

/-- What stands in front of a line break is no further line. -/
lemma tail_splitLines_append (u s : List UInt8) (hu : ∀ b ∈ u, b ≠ 0x0A) :
    (splitLines (u ++ s)).tail = (splitLines s).tail := by
  induction u with
  | nil => rfl
  | cons c u ih =>
    have ih := ih fun b hb => hu b (List.mem_cons_of_mem _ hb)
    rw [List.cons_append, splitLines, if_neg (hu c List.mem_cons_self), ← ih]
    cases splitLines (u ++ s) <;> rfl

lemma headContentLength_longHead (n : ℕ) : headContentLength (longHead n) = some none := by
  have hfront : ∀ b ∈ literal "GET /" ++ List.replicate n 0x61, b ≠ 0x0A := by
    intro b hb
    rcases List.mem_append.mp hb with hb | hb
    · exact fun heq => (by decide : (0x0A : UInt8) ∉ literal "GET /") (heq ▸ hb)
    · rw [List.eq_of_mem_replicate hb]
      decide
  rw [headContentLength, longHead, tail_splitLines_append _ _ hfront]
  decide +kernel

lemma isRequest_longHead (n maxBody : ℕ) : IsRequest maxBody (longHead n) [] := by
  refine ⟨endsHead_longHead n, fun want hwant => ?_, Nat.zero_le _⟩
  rw [announced, headContentLength_longHead] at hwant
  exact (Option.some.inj hwant).symm

lemma length_longHead (n : ℕ) : (longHead n).length = n + 18 := by
  have hget : (literal "GET /").length = 5 := by decide
  have hhttp : (literal " HTTP/1.1\r\n\r\n").length = 13 := by decide
  rw [longHead, List.length_append, List.length_append, List.length_replicate, hget, hhttp]
  omega

/-- A short request, however it is cut. -/
theorem cuts_agree_short : CutsAgree 1024 (longHead 3 ++ []) :=
  (cuts_agree_iff (isRequest_longHead 3 1024)).mpr (.inl (by rw [length_longHead]; decide))

/-- A head of 70018 bytes is accepted or refused as it is cut. -/
theorem cuts_disagree_long : IsRequest 1024 (longHead 70000) [] ∧
    ¬ CutsAgree 1024 (longHead 70000 ++ []) := by
  have hreq := isRequest_longHead 70000 1024
  have hlen := length_longHead 70000
  refine ⟨hreq, cuts_disagree hreq (by omega) (by omega) ?_ ?_⟩
  · rw [headContentLength_longHead]
    simp
  · have hget : (literal "GET /").count 0x20 = 1 := by decide
    have hhttp : (literal " HTTP/1.1\r\n\r\n").count 0x20 = 1 := by decide
    rw [longHead, List.count_append, List.count_append, hget, hhttp]
    omega

end VibeVoice.Http
