import Mathlib.Algebra.Order.Field.Rat
import Mathlib.Data.List.DropRight
import Mathlib.Tactic.Linarith
import VibeVoice.Model.Cjson
import VibeVoice.Status

/-!
`vv_stream_build_transcription`: the turns in the joined texts of the chunks.

Times are rational numbers: the rounding of the `double`s, and of the `float`s they are kept in,
is left out.  Allocations succeed.

* `turnMarker_eq_some_iff`: what a marker is.
* `Cut`: the turns of a text, from its markers.
* `segLoop_eq`: the loop reports the turns in which something is said.
* `chunkOf_spec`: the search finds the chunk that holds a byte.
* `build_transcription`: what a transcription says, and that it does not depend on how the text
  was split into chunks.
-/

namespace VibeVoice.Stream.Segments

/-! ### Markers and blanks -/

/-- `turn_marker`: the bytes a marker at the front takes, and the name in it. -/
def turnMarker : List UInt8 → Option (ℕ × List UInt8)
  | [] => none
  | c :: s =>
    let kw := s.dropWhile fun c => c = 0x20 || c = 0x09
    let d := (kw.drop (literal "Speaker").length).dropWhile (· = 0x20)
    let digits := (d.take 6).takeWhile fun c => 0x30 ≤ c && c ≤ 0x39
    let q := d.drop digits.length
    if c = 0x0A ∧ literal "Speaker" <+: kw ∧ digits ≠ [] ∧ q.head? = some 0x3A then
      some (s.length + 1 - (q.length - 1), literal "Speaker " ++ digits)
    else none

/-- `is_blank`. -/
def isBlank (c : UInt8) : Bool := c = 0x20 || c = 0x0A || c = 0x09 || c = 0x0D

/-- `dup_trimmed`. -/
def dupTrimmed (s : List UInt8) : List UInt8 := (s.dropWhile isBlank).rdropWhile isBlank

/-! ### Chunks -/

/-- The loop of `chunk_of`. -/
def chunkOf (off : List ℕ) (b lo hi : ℕ) : ℕ :=
  if lo < hi then
    let mid := (lo + hi + 1) / 2
    if off.getD mid 0 ≤ b then chunkOf off b mid hi else chunkOf off b lo (mid - 1)
  else lo
termination_by hi - lo

/-- `off`: where each chunk starts, and the length of all. -/
def offsets (texts : List (List UInt8)) : List ℕ :=
  texts.scanl (fun len t => len + t.length) 0

/-! ### The transcription -/

/-- `vv_segment_t`. -/
structure Segment where
  speaker : List UInt8
  text : List UInt8
  startTime : ℚ
  endTime : ℚ

/-- `vv_transcription_t`. -/
structure Transcription where
  segments : List Segment
  fullText : List UInt8
  duration : ℚ

/-- The chunks' texts as the loops see them: joined, with the offsets, the time of a chunk and the
duration. -/
structure Chunks where
  texts : List (List UInt8)
  chunkSec : ℚ
  duration : ℚ

variable (k : Chunks)

/-- `all`. -/
def Chunks.all : List UInt8 := k.texts.flatten

/-- `chunk_of(off, n_chunks, b)`, and `0` where there are no chunks. -/
def Chunks.chunkOf (b : ℕ) : ℕ :=
  if k.texts = [] then 0 else Segments.chunkOf (offsets k.texts) b 0 (k.texts.length - 1)

/-- `while (last > seg_begin && is_blank(all.p[last - 1])) last--`. -/
def lastLoop (all : List UInt8) (segBegin : ℕ) : ℕ → ℕ
  | 0 => 0
  | last + 1 =>
    if segBegin < last + 1 ∧ isBlank (all.getD last 0) then lastLoop all segBegin last
    else last + 1

/-- The segment of a turn that is closed at `i`, with text `body`. -/
def Chunks.segment (segBegin segMark i : ℕ) (name body : List UInt8) : Segment :=
  let last := lastLoop k.all segBegin i
  let t₀ := k.chunkOf segMark * k.chunkSec
  let t₁ := (k.chunkOf (last - 1) + 1) * k.chunkSec
  let t₁ := if 0 < k.duration ∧ k.duration < t₁ then k.duration else t₁
  let t₀ := if 0 < k.duration ∧ t₁ < t₀ then t₁ else t₀
  { speaker := dupTrimmed name, text := body, startTime := t₀, endTime := t₁ }

/-- Close the turn `[seg_begin, i)`. -/
def Chunks.closeTurn (segBegin segMark i : ℕ) (name : List UInt8) (segs : List Segment) :
    List Segment :=
  let body := dupTrimmed ((k.all.drop segBegin).take (i - segBegin))
  if body = [] then segs else segs ++ [k.segment segBegin segMark i name body]

/-- A marker in front of `rest`: a line break, blanks, the word, blanks, up to six digits and a
colon. -/
inductive Marked (rest : List UInt8) : List UInt8 → List UInt8 → Prop
  | mk {gap blanks digits : List UInt8} (hgap : ∀ c ∈ gap, c = 0x20 ∨ c = 0x09)
      (hblanks : ∀ c ∈ blanks, c = 0x20) (hdigits : ∀ c ∈ digits, 0x30 ≤ c ∧ c ≤ 0x39)
      (hsome : digits ≠ []) (hfew : digits.length ≤ 6) :
      Marked rest (0x0A :: (gap ++ (literal "Speaker" ++ (blanks ++ (digits ++ 0x3A :: rest)))))
        (literal "Speaker " ++ digits)

lemma exists_marked {s name : List UInt8} {n : ℕ} (h : turnMarker s = some (n, name)) :
    ∃ rest, Marked rest s name ∧ s.length - rest.length = n := by
  cases s with
  | nil => cases h
  | cons c s =>
    rw [turnMarker] at h
    split_ifs at h with hmark
    obtain ⟨rfl, ⟨d, hd⟩, hsome, hcolon⟩ := hmark
    obtain ⟨hlen, rfl⟩ := Prod.mk.inj (Option.some.inj h)
    rw [← hd, List.drop_left] at hlen hsome hcolon ⊢
    obtain ⟨digits, hdigits⟩ : ∃ digits, digits = ((d.dropWhile (· = 0x20)).take 6).takeWhile
      fun c => 0x30 ≤ c && c ≤ 0x39 := ⟨_, rfl⟩
    rw [← hdigits] at hlen hsome hcolon ⊢
    obtain ⟨rest, hrest⟩ := List.head?_eq_some_iff.mp hcolon
    have hpre : digits <+: (d.dropWhile (· = 0x20)).take 6 := hdigits ▸ List.takeWhile_prefix _
    have htext : s = s.takeWhile (fun c => c = 0x20 || c = 0x09) ++ (literal "Speaker" ++
        (d.takeWhile (· = 0x20) ++ (digits ++ 0x3A :: rest))) := by
      have hsplit := List.prefix_iff_eq_append.mp (hpre.trans (List.take_prefix ..))
      rw [← hrest, hsplit, List.takeWhile_append_dropWhile, hd, List.takeWhile_append_dropWhile]
    refine ⟨rest, ?_, ?_⟩
    · rw [htext]
      refine .mk (fun c hc => ?_) (fun c hc => ?_) (fun c hc => ?_) hsome ?_
      · simpa using List.mem_takeWhile_imp hc
      · simpa using List.mem_takeWhile_imp hc
      · rw [hdigits] at hc
        simpa using List.mem_takeWhile_imp hc
      · exact hpre.length_le.trans (List.length_take_le ..)
    · rw [← hlen, hrest]
      rfl

lemma Marked.turnMarker {rest s name : List UInt8} (h : Marked rest s name) :
    turnMarker s = some (s.length - rest.length, name) := by
  obtain @⟨gap, blanks, digits, hgap, hblanks, hdigits, hsome, hfew⟩ := h
  have hkw : (gap ++ (literal "Speaker" ++ (blanks ++ (digits ++ 0x3A :: rest)))).dropWhile
      (fun c => decide (c = 0x20) || decide (c = 0x09)) =
      literal "Speaker" ++ (blanks ++ (digits ++ 0x3A :: rest)) := by
    rw [List.dropWhile_append_of_pos (by simpa using hgap)]
    rfl
  have hd : (blanks ++ (digits ++ 0x3A :: rest)).dropWhile (fun c => decide (c = 0x20)) =
      digits ++ 0x3A :: rest := by
    rw [List.dropWhile_append_of_pos (by simpa using hblanks)]
    cases digits with
    | nil => exact absurd rfl hsome
    | cons c digits =>
      rw [List.cons_append, List.dropWhile_cons_of_neg]
      rw [decide_eq_true_eq]
      rintro rfl
      exact absurd (hdigits _ List.mem_cons_self) (by decide)
  have htake : ((digits ++ 0x3A :: rest).take 6).takeWhile
      (fun c => decide (0x30 ≤ c) && decide (c ≤ 0x39)) = digits := by
    rw [List.take_append, List.take_of_length_le hfew,
      List.takeWhile_append_of_pos (by simpa using hdigits)]
    cases 6 - digits.length <;> simp
  rw [Segments.turnMarker]
  simp only [hkw, hd, htake, List.drop_left, List.prefix_append, List.head?_cons]
  simp [hsome]

/-- What `turnMarker` recognises. -/
theorem turnMarker_eq_some_iff {s name : List UInt8} {n : ℕ} :
    turnMarker s = some (n, name) ↔ ∃ rest, Marked rest s name ∧ s.length - rest.length = n := by
  refine ⟨exists_marked, ?_⟩
  rintro ⟨rest, hmarked, rfl⟩
  exact hmarked.turnMarker

lemma turnMarker_pos {s name : List UInt8} {n : ℕ} (h : turnMarker s = some (n, name)) :
    1 ≤ n ∧ n ≤ s.length := by
  obtain ⟨rest, @⟨gap, blanks, digits, -, -, -, -, -⟩, rfl⟩ := turnMarker_eq_some_iff.mp h
  simp only [List.length_cons, List.length_append]
  omega

/-- The loop over the joined text. -/
def Chunks.segLoop (k : Chunks) (i segBegin segMark : ℕ) (name : List UInt8) (segs : List Segment) :
    List Segment :=
  if _hi : i < k.all.length then
    match _hm : turnMarker (k.all.drop i) with
    | none => k.segLoop (i + 1) segBegin segMark name segs
    | some (ml, nn) =>
      k.segLoop (i + ml) (i + ml) i nn (k.closeTurn segBegin segMark i name segs)
  else k.closeTurn segBegin segMark i name segs
termination_by k.all.length - i
decreasing_by
  · omega
  · have := (turnMarker_pos _hm).1
    omega

/-- The texts of the segments, with a blank between any two. -/
def joinTexts (segs : List Segment) : List UInt8 :=
  segs.foldl (fun full sg => if full = [] then sg.text else full ++ [0x20] ++ sg.text) []

/-- The chunks of a call. -/
def chunksOf (texts : List (Option (List UInt8))) (chunkSec duration : ℚ) : Chunks :=
  ⟨texts.map fun t => t.elim [] cString, chunkSec, duration⟩

/-- `vv_stream_build_transcription`, where a text may be `NULL`. -/
def buildTranscription (texts : List (Option (List UInt8))) (chunkSec duration : ℚ) :
    Except Status Transcription :=
  if chunkSec ≤ 0 then .error .invalidArg
  else
    let segments := (chunksOf texts chunkSec duration).segLoop 0 0 0 (literal "Speaker 0") []
    .ok { segments, fullText := joinTexts segments, duration }

/-! ### The turns of a text -/

/-- A turn: the marker in front of it, the name in the marker, and the text behind it. -/
structure Turn where
  marker : List UInt8
  name : List UInt8
  body : List UInt8

/-- No marker begins in a text, where `rest` stands behind it. -/
def Unmarked (body rest : List UInt8) : Prop :=
  ∀ u v, body = u ++ v → v ≠ [] → turnMarker (v ++ rest) = none

/-- The turns of a text that stands behind a marker: each lasts to the next marker. -/
inductive Cut : List UInt8 → List UInt8 → List UInt8 → List Turn → Prop
  | last {marker name body : List UInt8} (hbody : Unmarked body []) :
      Cut marker name body [⟨marker, name, body⟩]
  | next {marker name body marker' name' rest : List UInt8} {turns : List Turn}
      (hbody : Unmarked body (marker' ++ rest))
      (hmarker : turnMarker (marker' ++ rest) = some (marker'.length, name'))
      (hrest : Cut marker' name' rest turns) :
      Cut marker name (body ++ (marker' ++ rest)) (⟨marker, name, body⟩ :: turns)

/-- Markers and bodies are the text, in order. -/
lemma Cut.flatMap {marker name text : List UInt8} {turns : List Turn}
    (h : Cut marker name text turns) :
    turns.flatMap (fun t => t.marker ++ t.body) = marker ++ text := by
  induction h with
  | last => rw [List.flatMap_singleton]
  | next _ _ _ ih => rw [List.flatMap_cons, ih, List.append_assoc]

/-- A text without markers ends no later than where a marker stands. -/
lemma Unmarked.length_le {body body' rest rest' : List UInt8} (h : Unmarked body rest)
    (heq : body ++ rest = body' ++ rest') (hmark : turnMarker rest' ≠ none) :
    body.length ≤ body'.length := by
  rcases List.append_eq_append_iff.mp heq with ⟨v, rfl, -⟩ | ⟨v, rfl, rfl⟩
  · rw [List.length_append]
    omega
  · by_cases hv : v = []
    · rw [hv, List.append_nil]
    · exact absurd (h body' v rfl hv) hmark

/-- A text has one list of turns. -/
theorem Cut.unique {marker name text : List UInt8} {turns turns' : List Turn}
    (h : Cut marker name text turns) (h' : Cut marker name text turns') : turns = turns' := by
  induction h generalizing turns' with
  | @last marker name body hbody =>
    cases h' with
    | last => rfl
    | @next _ _ body' marker' name' rest turns hbody' hmarker hrest =>
      have hne : marker' ++ rest ≠ [] := fun hnil => by
        rw [hnil] at hmarker
        cases hmarker
      have := hbody body' _ rfl hne
      rw [List.append_nil, hmarker] at this
      cases this
  | @next marker name body marker₁ name₁ rest₁ turns hbody hmarker hrest ih =>
    generalize htext : body ++ (marker₁ ++ rest₁) = text at h'
    cases h' with
    | last hbody' =>
      subst htext
      have hne : marker₁ ++ rest₁ ≠ [] := fun hnil => by
        rw [hnil] at hmarker
        cases hmarker
      have := hbody' body _ rfl hne
      rw [List.append_nil, hmarker] at this
      cases this
    | @next _ _ body' marker₂ name₂ rest₂ turns₂ hbody' hmarker' hrest' =>
      -- neither body reaches over the marker behind the other
      have hle := hbody.length_le htext (by rw [hmarker']; exact Option.some_ne_none _)
      have hle' := hbody'.length_le htext.symm (by rw [hmarker]; exact Option.some_ne_none _)
      obtain ⟨rfl, hrests⟩ := List.append_inj htext (le_antisymm hle hle')
      rw [← hrests, hmarker] at hmarker'
      obtain ⟨hlen, rfl⟩ := Prod.mk.inj (Option.some.inj hmarker')
      obtain ⟨rfl, rfl⟩ := List.append_inj hrests hlen
      rw [ih hrest']

/-- The turns, each with the place of its marker. -/
def placed : ℕ → List Turn → List (ℕ × Turn)
  | _, [] => []
  | p, t :: turns => (p, t) :: placed (p + t.marker.length + t.body.length) turns

/-- Something is said in the turn. -/
def Turn.said (t : Turn) : Bool := dupTrimmed t.body ≠ []

/-- The segment of a turn. -/
def Chunks.report (p : ℕ × Turn) : Segment :=
  let segBegin := p.1 + p.2.marker.length
  k.segment segBegin p.1 (segBegin + p.2.body.length) p.2.name (dupTrimmed p.2.body)

/-- The segments of the turns in which something is said. -/
def Chunks.reports (p : ℕ) (turns : List Turn) : List Segment :=
  ((placed p turns).filter fun p => p.2.said).map k.report

lemma reports_cons (p : ℕ) (t : Turn) (turns : List Turn) : k.reports p (t :: turns) =
    (if dupTrimmed t.body = [] then [] else [k.report (p, t)]) ++
      k.reports (p + t.marker.length + t.body.length) turns := by
  rw [Chunks.reports, placed, List.filter_cons]
  by_cases hsaid : dupTrimmed t.body = [] <;> simp [Turn.said, hsaid, Chunks.reports]

lemma closeTurn_eq {segBegin segMark i : ℕ} (name : List UInt8) (segs : List Segment)
    (hmark : segMark ≤ segBegin) (hbegin : segBegin ≤ i) (hi : i ≤ k.all.length) :
    k.closeTurn segBegin segMark i name segs =
      segs ++ k.reports segMark [⟨(k.all.drop segMark).take (segBegin - segMark), name,
        (k.all.drop segBegin).take (i - segBegin)⟩] := by
  have hmlen : ((k.all.drop segMark).take (segBegin - segMark)).length = segBegin - segMark := by
    rw [List.length_take, List.length_drop]
    omega
  have hblen : ((k.all.drop segBegin).take (i - segBegin)).length = i - segBegin := by
    rw [List.length_take, List.length_drop]
    omega
  rw [reports_cons, Chunks.closeTurn, Chunks.report]
  dsimp only
  rw [hmlen, hblen, Nat.add_sub_cancel' hmark, Nat.add_sub_cancel' hbegin]
  split_ifs <;> simp [Chunks.reports, placed]

lemma slice_append (all : List UInt8) {b i : ℕ} (h : b ≤ i) :
    (all.drop b).take (i - b) ++ all.drop i = all.drop b := by
  have hsplit := List.take_append_drop (i - b) (all.drop b)
  rwa [List.drop_drop, Nat.add_sub_cancel' h] at hsplit

/-- No marker begins where the loop has passed. -/
lemma unmarked_slice {all : List UInt8} {segBegin i : ℕ} (hi : i ≤ all.length)
    (hfree : ∀ j, segBegin ≤ j → j < i → turnMarker (all.drop j) = none) :
    Unmarked ((all.drop segBegin).take (i - segBegin)) (all.drop i) := by
  intro u v huv hv
  have hlen := congrArg List.length huv
  have hpos := List.length_pos_iff.mpr hv
  rw [List.length_take, List.length_drop, List.length_append] at hlen
  have hdrop : v ++ all.drop i = all.drop (segBegin + u.length) := by
    rw [← List.drop_drop, ← slice_append all (show segBegin ≤ i by omega), huv, List.append_assoc,
      List.drop_left]
  rw [hdrop]
  exact hfree _ (by omega) (by omega)

/-- The loop reports the turns in which something is said. -/
lemma segLoop_eq (i segBegin segMark : ℕ) (name : List UInt8) (segs : List Segment)
    (hmark : segMark ≤ segBegin) (hbegin : segBegin ≤ i) (hi : i ≤ k.all.length)
    (hfree : ∀ j, segBegin ≤ j → j < i → turnMarker (k.all.drop j) = none) :
    ∃ turns, Cut ((k.all.drop segMark).take (segBegin - segMark)) name (k.all.drop segBegin) turns ∧
      k.segLoop i segBegin segMark name segs = segs ++ k.reports segMark turns := by
  fun_induction Chunks.segLoop k i segBegin segMark name segs with
  | case1 i segBegin segMark name segs hlt hm ih =>
    refine ih hmark (by omega) (by omega) fun j hj hji => ?_
    rcases Nat.lt_succ_iff_lt_or_eq.mp hji with hji | rfl
    · exact hfree j hj hji
    · exact hm
  | case2 i segBegin segMark name segs hlt ml nn hm ih =>
    obtain ⟨hpos, hle⟩ := turnMarker_pos hm
    rw [List.length_drop] at hle
    obtain ⟨turns, hcut, hloop⟩ := ih (by omega) le_rfl (by omega) fun j hj hji => by omega
    rw [Nat.add_sub_cancel_left] at hcut
    have hsplit : (k.all.drop i).take ml ++ k.all.drop (i + ml) = k.all.drop i := by
      rw [← List.drop_drop, List.take_append_drop]
    have hsplit' := slice_append k.all hbegin
    refine ⟨⟨(k.all.drop segMark).take (segBegin - segMark), name,
      (k.all.drop segBegin).take (i - segBegin)⟩ :: turns, ?_, ?_⟩
    · have hbody : Unmarked ((k.all.drop segBegin).take (i - segBegin))
          ((k.all.drop i).take ml ++ k.all.drop (i + ml)) := by
        rw [hsplit]
        exact unmarked_slice hi hfree
      have hmarker : turnMarker ((k.all.drop i).take ml ++ k.all.drop (i + ml)) =
          some (((k.all.drop i).take ml).length, nn) := by
        rw [hsplit, hm, List.length_take, List.length_drop, Nat.min_eq_left hle]
      have hnext : Cut ((k.all.drop segMark).take (segBegin - segMark)) name _
          (⟨_, name, _⟩ :: turns) := .next hbody hmarker hcut
      rwa [hsplit, hsplit'] at hnext
    · have hmlen : ((k.all.drop segMark).take (segBegin - segMark)).length =
          segBegin - segMark := by
        rw [List.length_take, List.length_drop]
        omega
      have hblen : ((k.all.drop segBegin).take (i - segBegin)).length = i - segBegin := by
        rw [List.length_take, List.length_drop]
        omega
      rw [hloop, closeTurn_eq k name segs hmark hbegin hi, reports_cons, reports_cons]
      dsimp only
      rw [hmlen, hblen, Nat.add_sub_cancel' hmark, Nat.add_sub_cancel' hbegin]
      simp [Chunks.reports, placed]
  | case3 i segBegin segMark name segs hge =>
    obtain rfl : i = k.all.length := by omega
    have hbody : (k.all.drop segBegin).take (k.all.length - segBegin) = k.all.drop segBegin :=
      List.take_of_length_le (by rw [List.length_drop])
    refine ⟨_, .last ?_, ?_⟩
    · have := unmarked_slice le_rfl hfree
      rwa [hbody, List.drop_length] at this
    · rw [closeTurn_eq k name segs hmark hbegin le_rfl, hbody]

/-! ### The chunk of a byte -/

/-- Chunk `c` holds byte `b` of the joined texts. -/
def Holds (texts : List (List UInt8)) (c b : ℕ) : Prop :=
  (texts.take c).flatten.length ≤ b ∧ b < (texts.take (c + 1)).flatten.length

lemma offsets_getD (texts : List (List UInt8)) {c : ℕ} (hc : c ≤ texts.length) :
    (offsets texts).getD c 0 = (texts.take c).flatten.length := by
  have hfold : ∀ (ts : List (List UInt8)) (n : ℕ),
      ts.foldl (fun len t => len + t.length) n = n + ts.flatten.length := by
    intro ts
    induction ts with
    | nil => exact fun n => rfl
    | cons t ts ih =>
      intro n
      rw [List.foldl_cons, ih, List.flatten_cons, List.length_append, Nat.add_assoc]
  rw [offsets, List.getD_eq_getElem?_getD, List.getElem?_scanl, if_pos hc, Option.getD_some, hfold,
    Nat.zero_add]

lemma flatten_take_mono (texts : List (List UInt8)) {c c' : ℕ} (h : c ≤ c') :
    (texts.take c).flatten.length ≤ (texts.take c').flatten.length :=
  (List.Sublist.flatten ((List.take_sublist_take_left h))).length_le

/-- Bytes further behind are in chunks further behind. -/
lemma Holds.mono {texts : List (List UInt8)} {c c' b b' : ℕ} (h : Holds texts c b)
    (h' : Holds texts c' b') (hle : b ≤ b') : c ≤ c' := by
  by_contra hlt
  have := flatten_take_mono texts (show c' + 1 ≤ c by omega)
  have := h.1
  have := h'.2
  omega

/-- The search keeps the byte between the chunks `lo` and `hi`. -/
lemma chunkOf_spec (texts : List (List UInt8)) (b lo hi : ℕ) (hle : lo ≤ hi)
    (hhi : hi < texts.length) (hlo : (texts.take lo).flatten.length ≤ b)
    (hb : b < (texts.take (hi + 1)).flatten.length) :
    Holds texts (chunkOf (offsets texts) b lo hi) b := by
  fun_induction chunkOf (offsets texts) b lo hi with
  | case1 lo hi hlt mid hmid ih =>
    rw [offsets_getD texts (by omega)] at hmid
    exact ih (by omega) hhi hmid hb
  | case2 lo hi hlt mid hmid ih =>
    rw [offsets_getD texts (by omega)] at hmid
    refine ih (by omega) (by omega) hlo ?_
    rw [show mid - 1 + 1 = mid by omega]
    omega
  | case3 lo hi hge =>
    obtain rfl : lo = hi := by omega
    exact ⟨hlo, hb⟩

lemma Chunks.chunkOf_holds {b : ℕ} (hb : b < k.all.length) : Holds k.texts (k.chunkOf b) b := by
  have hne : k.texts ≠ [] := fun hnil => by
    rw [Chunks.all, hnil] at hb
    exact absurd hb (Nat.not_lt_zero b)
  have hpos := List.length_pos_iff.mpr hne
  rw [Chunks.chunkOf, if_neg hne]
  refine chunkOf_spec k.texts b 0 _ (Nat.zero_le _) (by omega) (Nat.zero_le b) ?_
  rwa [Nat.sub_add_cancel hpos, List.take_length]

/-! ### Trimming -/

/-- What `dup_trimmed` leaves out is blank. -/
lemma dupTrimmed_spec (s : List UInt8) :
    ∃ u v, s = u ++ dupTrimmed s ++ v ∧ ∀ c ∈ u ++ v, isBlank c = true := by
  refine ⟨s.takeWhile isBlank, (s.dropWhile isBlank).rtakeWhile isBlank, ?_, fun c hc => ?_⟩
  · rw [dupTrimmed, List.append_assoc, List.rdropWhile_append_rtakeWhile,
      List.takeWhile_append_dropWhile]
  · rcases List.mem_append.mp hc with hc | hc
    · exact List.mem_takeWhile_imp hc
    · exact List.mem_rtakeWhile_imp hc

lemma rdropWhile_ne_nil {s : List UInt8} (h : dupTrimmed s ≠ []) : s.rdropWhile isBlank ≠ [] := by
  intro hnil
  rw [List.rdropWhile_eq_nil_iff] at hnil
  refine h ?_
  rw [dupTrimmed, List.dropWhile_eq_nil_iff.mpr hnil, List.rdropWhile_nil]

lemma dupTrimmed_speaker {digits : List UInt8} (hne : digits ≠ [])
    (h : ∀ c ∈ digits, isBlank c = false) :
    dupTrimmed (literal "Speaker " ++ digits) = literal "Speaker " ++ digits := by
  have hfront : (literal "Speaker " ++ digits).dropWhile isBlank = literal "Speaker " ++ digits :=
    List.dropWhile_cons_of_neg (by decide)
  rw [dupTrimmed, hfront, List.rdropWhile_eq_self_iff]
  intro hl
  rw [List.getLast_append_of_ne_nil hl hne, h _ (List.getLast_mem hne)]
  decide

lemma isBlank_digit {c : UInt8} (h : (0x30 ≤ c && c ≤ 0x39) = true) : isBlank c = false := by
  rw [isBlank, Bool.eq_false_iff]
  intro hblank
  simp only [Bool.or_eq_true, decide_eq_true_eq] at hblank
  rcases hblank with ((rfl | rfl) | rfl) | rfl <;> exact absurd h (by decide)

/-- A name has no blank ends. -/
lemma turnMarker_name {s name : List UInt8} {n : ℕ} (h : turnMarker s = some (n, name)) :
    dupTrimmed name = name := by
  cases s with
  | nil => cases h
  | cons c s =>
    rw [turnMarker] at h
    split_ifs at h with hmark
    obtain ⟨-, rfl⟩ := Prod.mk.inj (Option.some.inj h)
    exact dupTrimmed_speaker hmark.2.2.1 fun c hc => isBlank_digit
      (List.mem_takeWhile_imp (p := fun c : UInt8 => 0x30 ≤ c && c ≤ 0x39) hc)

lemma Cut.names {marker name text : List UInt8} {turns : List Turn}
    (h : Cut marker name text turns) (hname : dupTrimmed name = name) :
    ∀ t ∈ turns, dupTrimmed t.name = t.name := by
  induction h with
  | last => exact fun t ht => (List.mem_singleton.mp ht) ▸ hname
  | next _ hmarker _ ih =>
    intro t ht
    rcases List.mem_cons.mp ht with rfl | ht
    · exact hname
    · exact ih (turnMarker_name hmarker) t ht

/-- The blanks behind a turn are passed. -/
lemma lastLoop_eq (all : List UInt8) {segBegin i : ℕ} (hbegin : segBegin ≤ i)
    (hi : i ≤ all.length) : lastLoop all segBegin i =
      segBegin + (((all.drop segBegin).take (i - segBegin)).rdropWhile isBlank).length := by
  induction i with
  | zero =>
    obtain rfl : segBegin = 0 := by omega
    rfl
  | succ i ih =>
    rw [lastLoop]
    rcases Nat.lt_or_eq_of_le hbegin with hlt | rfl
    · have hget : (all.drop segBegin).take (i + 1 - segBegin) =
          (all.drop segBegin).take (i - segBegin) ++ [all[i]] := by
        rw [show i + 1 - segBegin = i - segBegin + 1 by omega, List.take_add_one,
          List.getElem?_drop, Nat.add_sub_cancel' (by omega), List.getElem?_eq_getElem (by omega)]
        rfl
      have hgetD : all.getD i 0 = all[i] := by
        rw [List.getD_eq_getElem?_getD, List.getElem?_eq_getElem (by omega), Option.getD_some]
      rw [hget, hgetD]
      split_ifs with hblank
      · rw [List.rdropWhile_concat_pos _ _ _ hblank.2]
        exact ih (by omega) (by omega)
      · rw [List.rdropWhile_concat_neg _ _ _ fun h => hblank ⟨hlt, h⟩, List.length_append,
          List.length_take, List.length_drop, List.length_singleton]
        omega
    · rw [if_neg (by omega), Nat.sub_self, List.take_zero, List.rdropWhile_nil]
      rfl

/-! ### Times -/

/-- A time, held at the duration where that is known. -/
def Chunks.clamp (t : ℚ) : ℚ := if 0 < k.duration then min t k.duration else t

/-- Where the last byte of a turn stands that is no blank. -/
def lastByte (p : ℕ × Turn) : ℕ :=
  p.1 + p.2.marker.length + (p.2.body.rdropWhile isBlank).length - 1

/-- A segment has the name and the text of its turn; it starts with the chunk that holds the
marker, and ends with the chunk that holds the last byte that is no blank. -/
structure Reported (p : ℕ × Turn) (sg : Segment) : Prop where
  speaker : sg.speaker = p.2.name
  text : sg.text = dupTrimmed p.2.body
  times : ∃ c₀ c₁, Holds k.texts c₀ p.1 ∧ Holds k.texts c₁ (lastByte p) ∧
    sg.startTime = k.clamp (c₀ * k.chunkSec) ∧ sg.endTime = k.clamp ((c₁ + 1) * k.chunkSec)

lemma mem_placed {p : ℕ} {turns : List Turn} {x : ℕ × Turn} (h : x ∈ placed p turns) :
    x.2 ∈ turns ∧ ∃ before behind, turns.flatMap (fun t => t.marker ++ t.body) =
      before ++ (x.2.marker ++ x.2.body ++ behind) ∧ x.1 = p + before.length := by
  induction turns generalizing p with
  | nil => cases h
  | cons t turns ih =>
    rw [placed] at h
    rcases List.mem_cons.mp h with rfl | h
    · exact ⟨List.mem_cons_self, [], turns.flatMap (fun t => t.marker ++ t.body), by
        rw [List.flatMap_cons, List.nil_append], rfl⟩
    · obtain ⟨hmem, before, behind, heq, hp⟩ := ih h
      refine ⟨List.mem_cons_of_mem _ hmem, t.marker ++ t.body ++ before, behind, ?_, ?_⟩
      · rw [List.flatMap_cons, heq]
        simp only [List.append_assoc]
      · rw [hp, List.length_append, List.length_append]
        omega

/-- The places of the markers ascend. -/
lemma placed_sorted (p : ℕ) (turns : List Turn) :
    (placed p turns).Pairwise fun x y => x.1 ≤ y.1 := by
  induction turns generalizing p with
  | nil => exact .nil
  | cons t turns ih =>
    refine List.pairwise_cons.mpr ⟨fun y hy => ?_, ih _⟩
    obtain ⟨-, _, -, -, hy⟩ := mem_placed hy
    dsimp only
    omega

lemma clamp_end (t : ℚ) :
    (if 0 < k.duration ∧ k.duration < t then k.duration else t) = k.clamp t := by
  rw [Chunks.clamp]
  by_cases hd : 0 < k.duration
  · rw [if_pos hd]
    split_ifs with hlt
    · exact (min_eq_right hlt.2.le).symm
    · exact (min_eq_left (not_lt.mp fun h => hlt ⟨hd, h⟩)).symm
  · rw [if_neg hd, if_neg fun h => hd h.1]

/-- A start is held at its end, which is where the duration holds it. -/
lemma clamp_start {t t' : ℚ} (h : t ≤ t') :
    (if 0 < k.duration ∧ k.clamp t' < t then k.clamp t' else t) = k.clamp t := by
  rw [Chunks.clamp, Chunks.clamp]
  by_cases hd : 0 < k.duration
  · rw [if_pos hd, if_pos hd]
    split_ifs with hlt
    · rcases min_lt_iff.mp hlt.2 with hlt | hlt
      · exact absurd h (not_le.mpr hlt)
      · rw [min_eq_right (hlt.le.trans h), min_eq_right hlt.le]
    · have hle := not_lt.mp fun h => hlt ⟨hd, h⟩
      exact (min_eq_left (hle.trans (min_le_right _ _))).symm
  · rw [if_neg hd, if_neg hd, if_neg fun h => hd h.1]

lemma clamp_mono {t t' : ℚ} (h : t ≤ t') : k.clamp t ≤ k.clamp t' := by
  rw [Chunks.clamp, Chunks.clamp]
  split_ifs
  · exact min_le_min_right _ h
  · exact h

/-- What is computed for a turn in which something is said. -/
lemma report_reported (hchunk : 0 < k.chunkSec) {turns : List Turn}
    (hcut : Cut [] (literal "Speaker 0") k.all turns) {p : ℕ × Turn} (hp : p ∈ placed 0 turns)
    (hsaid : p.2.said) :
    Reported k p (k.report p) ∧ (k.report p).startTime ≤ (k.report p).endTime := by
  obtain ⟨hmem, before, behind, hall, hplace⟩ := mem_placed hp
  rw [hcut.flatMap, List.nil_append] at hall
  rw [Nat.zero_add] at hplace
  have hne := rdropWhile_ne_nil (of_decide_eq_true hsaid)
  have hpos := List.length_pos_iff.mpr hne
  have hle := (List.rdropWhile_prefix isBlank (l := p.2.body)).length_le
  have hlen := congrArg List.length hall
  simp only [List.length_append] at hlen
  have hbody : (k.all.drop (p.1 + p.2.marker.length)).take
      (p.1 + p.2.marker.length + p.2.body.length - (p.1 + p.2.marker.length)) = p.2.body := by
    rw [Nat.add_sub_cancel_left, hall, hplace, ← List.drop_drop, List.drop_left, List.append_assoc,
      List.drop_left, List.take_left]
  have hlast := lastLoop_eq k.all (Nat.le_add_right (p.1 + p.2.marker.length) p.2.body.length)
    (by omega)
  rw [hbody] at hlast
  have hfirst : Holds k.texts (k.chunkOf p.1) p.1 := k.chunkOf_holds (by omega)
  have hsecond : Holds k.texts (k.chunkOf (lastByte p)) (lastByte p) :=
    k.chunkOf_holds (by rw [lastByte]; omega)
  have hchunks : (k.chunkOf p.1 : ℚ) * k.chunkSec ≤ (k.chunkOf (lastByte p) + 1) * k.chunkSec := by
    have hmono : k.chunkOf p.1 ≤ k.chunkOf (lastByte p) :=
      hfirst.mono hsecond (by rw [lastByte]; omega)
    have hcast : (k.chunkOf p.1 : ℚ) ≤ k.chunkOf (lastByte p) := by exact_mod_cast hmono
    exact mul_le_mul_of_nonneg_right (by linarith) hchunk.le
  have hend : (k.report p).endTime = k.clamp ((k.chunkOf (lastByte p) + 1) * k.chunkSec) := by
    rw [Chunks.report, Chunks.segment]
    dsimp only
    rw [hlast]
    exact clamp_end k _
  have hstart : (k.report p).startTime = k.clamp (k.chunkOf p.1 * k.chunkSec) := by
    rw [← clamp_start k hchunks, ← hend]
    rfl
  refine ⟨⟨?_, rfl, _, _, hfirst, hsecond, hstart, hend⟩, ?_⟩
  · exact hcut.names (by decide) _ hmem
  · rw [hstart, hend]
    exact clamp_mono k hchunks

/-! ### Transcriptions -/

/-- What a transcription of chunks says: their joined texts are turns, each a marker and a body;
the turns in which something is said are its segments, in order, without the blanks around them. -/
structure Reports (turns : List Turn) (tr : Transcription) : Prop where
  cut : Cut [] (literal "Speaker 0") k.all turns
  partition : turns.flatMap (fun t => t.marker ++ t.body) = k.all
  trimmed : ∀ t ∈ turns, ∃ u v, t.body = u ++ dupTrimmed t.body ++ v ∧
    ∀ c ∈ u ++ v, isBlank c = true
  segments : List.Forall₂ (Reported k) ((placed 0 turns).filter fun p => p.2.said) tr.segments
  fullText : tr.fullText = [0x20].intercalate (tr.segments.map Segment.text)
  ordered : ∀ sg ∈ tr.segments, sg.startTime ≤ sg.endTime
  starts : tr.segments.Pairwise fun sg sg' => sg.startTime ≤ sg'.startTime

/-- Blanks go between the texts. -/
lemma joinTexts_eq {segs : List Segment} (h : ∀ sg ∈ segs, sg.text ≠ []) :
    joinTexts segs = [0x20].intercalate (segs.map Segment.text) := by
  have hfold : ∀ (segs : List Segment) (full : List UInt8), full ≠ [] →
      segs.foldl (fun full sg => if full = [] then sg.text else full ++ [0x20] ++ sg.text) full =
        [0x20].intercalate (full :: segs.map Segment.text) := by
    intro segs
    induction segs with
    | nil => exact fun full _ => List.intercalate_singleton.symm
    | cons sg segs ih =>
      intro full hfull
      rw [List.foldl_cons, if_neg hfull, ih _ (by simp), List.map_cons,
        List.intercalate_cons_cons]
      cases segs with
      | nil => simp
      | cons sg' segs => simp [List.intercalate_cons_cons]
  cases segs with
  | nil => rfl
  | cons sg segs =>
    rw [joinTexts, List.foldl_cons, if_pos rfl, hfold _ _ (h sg List.mem_cons_self)]
    rfl

lemma chunks_reports (hchunk : 0 < k.chunkSec) : ∃ turns,
    Reports k turns ⟨k.segLoop 0 0 0 (literal "Speaker 0") [],
      joinTexts (k.segLoop 0 0 0 (literal "Speaker 0") []), k.duration⟩ := by
  obtain ⟨turns, hcut, hloop⟩ := segLoop_eq k 0 0 0 (literal "Speaker 0") [] le_rfl le_rfl
    (Nat.zero_le _) fun j hj hlt => by omega
  rw [Nat.sub_self, List.take_zero, List.drop_zero] at hcut
  rw [List.nil_append, Chunks.reports] at hloop
  have hreported : ∀ p ∈ (placed 0 turns).filter fun p => p.2.said,
      Reported k p (k.report p) ∧ (k.report p).startTime ≤ (k.report p).endTime := fun p hp =>
    report_reported k hchunk hcut (List.mem_of_mem_filter hp) (List.mem_filter.mp hp).2
  have htexts : ∀ sg ∈ k.segLoop 0 0 0 (literal "Speaker 0") [], sg.text ≠ [] := fun sg hsg => by
    rw [hloop] at hsg
    obtain ⟨p, hp, rfl⟩ := List.mem_map.mp hsg
    exact of_decide_eq_true (List.mem_filter.mp hp).2
  refine ⟨turns, hcut, by rw [hcut.flatMap, List.nil_append], fun t _ => dupTrimmed_spec t.body, ?_,
    joinTexts_eq htexts, fun sg hsg => ?_, ?_⟩ <;> dsimp only at * <;> rw [hloop] at *
  · rw [List.forall₂_map_right_iff, List.forall₂_same]
    exact fun p hp => (hreported p hp).1
  · obtain ⟨p, hp, rfl⟩ := List.mem_map.mp hsg
    exact (hreported p hp).2
  · rw [List.pairwise_map]
    refine ((placed_sorted 0 turns).filter _).imp_of_mem fun {x y} hx hy hle => ?_
    obtain ⟨c₀, -, hc₀, -, hstart, -⟩ := (hreported x hx).1.times
    obtain ⟨c₀', -, hc₀', -, hstart', -⟩ := (hreported y hy).1.times
    rw [hstart, hstart']
    refine clamp_mono k (mul_le_mul_of_nonneg_right ?_ hchunk.le)
    exact_mod_cast hc₀.mono hc₀' hle

/-- Names, texts and the full text are read off the turns. -/
lemma Reports.texts {k : Chunks} {turns : List Turn} {tr : Transcription} (h : Reports k turns tr) :
    tr.segments.map (fun sg => (sg.speaker, sg.text)) =
      ((placed 0 turns).filter fun p => p.2.said).map
        fun p => (p.2.name, dupTrimmed p.2.body) := by
  have hall := h.segments
  generalize (placed 0 turns).filter (fun p => p.2.said) = ps at hall ⊢
  generalize tr.segments = segs at hall ⊢
  induction hall with
  | nil => rfl
  | cons hp _ ih => rw [List.map_cons, List.map_cons, ih, hp.speaker, hp.text]

/-- Every list of chunk texts is transcribed: turns and times are as `Reports` says, and another
list with the same joined text has the same speakers, texts and full text. -/
theorem build_transcription (texts : List (Option (List UInt8))) {chunkSec : ℚ} (duration : ℚ)
    (hchunk : 0 < chunkSec) : ∃ tr, buildTranscription texts chunkSec duration = .ok tr ∧
      (∃ turns, Reports (chunksOf texts chunkSec duration) turns tr) ∧
      ∀ texts' chunkSec' duration' tr',
        buildTranscription texts' chunkSec' duration' = .ok tr' →
        (chunksOf texts' chunkSec' duration').all = (chunksOf texts chunkSec duration).all →
        tr'.segments.map (fun sg => (sg.speaker, sg.text)) =
            tr.segments.map (fun sg => (sg.speaker, sg.text)) ∧
          tr'.fullText = tr.fullText := by
  obtain ⟨turns, hreports⟩ := chunks_reports (chunksOf texts chunkSec duration) hchunk
  refine ⟨_, if_neg (not_le.mpr hchunk), ⟨turns, hreports⟩, ?_⟩
  intro texts' chunkSec' duration' tr' hbuild hall
  rw [buildTranscription] at hbuild
  split_ifs at hbuild with hchunk'
  obtain ⟨turns', hreports'⟩ :=
    chunks_reports (chunksOf texts' chunkSec' duration') (not_le.mp hchunk')
  cases hbuild
  have hturns : turns' = turns := by
    have hcut := hreports'.cut
    rw [hall] at hcut
    exact hcut.unique hreports.cut
  have htexts := hreports'.texts
  rw [hturns] at htexts
  have hsame := htexts.trans hreports.texts.symm
  refine ⟨hsame, ?_⟩
  have hmap := congrArg (List.map Prod.snd) hsame
  rw [List.map_map, List.map_map] at hmap
  exact hreports'.fullText.trans ((congrArg _ hmap).trans hreports.fullText.symm)

/-- A marker over two chunks, chunks without text, and a turn that ends before the last chunk. -/
def splitTexts : List (Option (List UInt8)) :=
  [some (literal "hello there \n Spea"), some (literal "ker 1:how are"), some [],
    some (literal " you\n Speaker 0: fine"), none]

/-- It is transcribed as the joined text is. -/
theorem build_transcription_split : ∃ tr, buildTranscription splitTexts (44 / 15) 0 = .ok tr ∧
    ∃ turns, Reports (chunksOf splitTexts (44 / 15) 0) turns tr := by
  obtain ⟨tr, hbuild, hreports, -⟩ :=
    build_transcription splitTexts 0 (by norm_num : (0 : ℚ) < 44 / 15)
  exact ⟨tr, hbuild, hreports⟩

example : ((buildTranscription splitTexts (44 / 15) 0).toOption.map fun tr =>
    tr.segments.map fun sg => (sg.text, sg.startTime, sg.endTime)) =
      some [(literal "hello there", 0, 44 / 15), (literal "how are you", 0, 176 / 15),
        (literal "fine", 44 / 5, 176 / 15)] := by decide +kernel

end VibeVoice.Stream.Segments
