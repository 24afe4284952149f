import Mathlib.Data.List.Basic
import Mathlib.Tactic
import VibeVoice.Lib.Search

/-!
Subtitle files, SubRip and WebVTT, as a reader takes them apart.

A file is cut into lines, its lines into blocks with empty lines between them, and a block is a cue
with the line of its times and the lines of its text behind.

* `Cue`: the times in milliseconds, the speaker, the text.
* `readSrt`, `readVtt`: the cues of a file, `none` where it breaks the grammar.
* `lines_append`, `blocks_append`: a file piece by piece.
* `cueText_plain`, `tagText_plain`: what has no meaning of its own is read as it stands.
-/

namespace Subtitle

open Search

abbrev Line := List UInt8

/-- A cue; one without a speaker has an empty one. -/
structure Cue where
  start : ℕ
  stop : ℕ
  speaker : List UInt8
  text : List UInt8
  deriving DecidableEq

/-! ### Lines and blocks -/

/-- Every end of a line as `"\n"`. -/
def newlines : List UInt8 → List UInt8
  | [] => []
  | b :: s =>
    if b = 0x0D then
      match s with
      | [] => [0x0A]
      | c :: t => if c = 0x0A then 0x0A :: newlines t else 0x0A :: newlines (c :: t)
    else b :: newlines s

/-- The lines of a file. -/
def lines (s : List UInt8) : List Line := (newlines s).splitOn 0x0A

/-- What stands between empty lines. -/
def blocks (ls : List Line) : List (List Line) := (ls.splitOn []).filter (· ≠ [])

/-- Lines as one text. -/
def joined (ls : List Line) : List UInt8 := [0x0A].intercalate ls

/-! ### Times -/

def isDigit (b : UInt8) : Bool := 0x30 ≤ b && b ≤ 0x39

/-- The number that digits stand for. -/
def number (ds : List UInt8) : ℕ := ds.foldl (fun n d => n * 10 + (d.toNat - 0x30)) 0

/-- A time and what stands behind it, `sep` in front of the milliseconds: two digits of hours at
least, then two of minutes, two of seconds, three of milliseconds. -/
def stamp (sep : UInt8) (s : List UInt8) : Option (ℕ × List UInt8) :=
  match s.dropWhile isDigit with
  | c₁ :: m₁ :: m₂ :: c₂ :: s₁ :: s₂ :: p :: d₁ :: d₂ :: d₃ :: rest =>
    if 2 ≤ (s.takeWhile isDigit).length ∧ c₁ = 0x3A ∧ c₂ = 0x3A ∧ p = sep ∧
        ([m₁, m₂, s₁, s₂, d₁, d₂, d₃].all isDigit) ∧ number [m₁, m₂] < 60 ∧
        number [s₁, s₂] < 60 then
      some (((number (s.takeWhile isDigit) * 60 + number [m₁, m₂]) * 60 + number [s₁, s₂]) *
        1000 + number [d₁, d₂, d₃], rest)
    else none
  | _ => none

/-- `" --> "` between two times, and `"-->"` alone. -/
def arrow : List UInt8 := [0x20, 0x2D, 0x2D, 0x3E, 0x20]
def bareArrow : List UInt8 := [0x2D, 0x2D, 0x3E]

/-- The times of a cue; settings may stand behind them. -/
def timing (sep : UInt8) (l : Line) : Option (ℕ × ℕ) :=
  (stamp sep l).bind fun a =>
    if arrow.isPrefixOf a.2 then
      (stamp sep (a.2.drop 5)).bind fun z =>
        if z.2.head?.all fun b => b = 0x20 || b = 0x09 then some (a.1, z.1) else none
    else none

/-! ### SubRip -/

/-- `"[speaker] text"`, the usual form of a speaker in a format that has none. -/
def label (payload : List UInt8) : List UInt8 × List UInt8 :=
  match payload with
  | b :: s =>
    if b = 0x5B then
      match find [0x5D, 0x20] s with
      | some i => (s.take i, s.drop (i + 2))
      | none => ([], payload)
    else ([], payload)
  | [] => ([], [])

/-- A block: the number of the cue, its times, its text. -/
def srtCue (b : List Line) : Option Cue :=
  match b with
  | index :: times :: text =>
    if index ≠ [] ∧ index.all isDigit then
      (timing 0x2C times).map fun t => ⟨t.1, t.2, (label (joined text)).1, (label (joined text)).2⟩
    else none
  | _ => none

/-- The cues of a SubRip file. -/
def readSrt (s : List UInt8) : Option (List Cue) := (blocks (lines s)).mapM srtCue

/-! ### WebVTT -/

/-- The escapes of a cue text, behind their `'&'`. -/
def escapes : List (List UInt8 × List UInt8) :=
  [([0x61, 0x6D, 0x70, 0x3B], [0x26]), ([0x6C, 0x74, 0x3B], [0x3C]), ([0x67, 0x74, 0x3B], [0x3E]),
    ([0x6E, 0x62, 0x73, 0x70, 0x3B], [0xC2, 0xA0]),
    ([0x6C, 0x72, 0x6D, 0x3B], [0xE2, 0x80, 0x8E]), ([0x72, 0x6C, 0x6D, 0x3B], [0xE2, 0x80, 0x8F])]

/-- A text with its escapes replaced, from behind `skip` bytes of one; a `'&'` of its own has no
meaning. -/
def unescape : ℕ → List UInt8 → Option (List UInt8)
  | 0, [] => some []
  | _ + 1, [] => none
  | skip + 1, _ :: s => unescape skip s
  | 0, b :: s =>
    if b = 0x26 then
      match escapes.find? fun e => e.1.isPrefixOf s with
      | some e => (unescape e.1.length s).map (e.2 ++ ·)
      | none => none
    else (unescape 0 s).map (b :: ·)

/-- A text without its tags; `inside` one or not. -/
def withoutTags : Bool → List UInt8 → Option (List UInt8)
  | inside, [] => if inside then none else some []
  | true, b :: s => withoutTags (b ≠ 0x3E) s
  | false, b :: s =>
    if b = 0x3C then withoutTags true s else (withoutTags false s).map (b :: ·)

/-- The text of a cue. -/
def cueText (s : List UInt8) : Option (List UInt8) := (withoutTags false s).bind (unescape 0)

def isBlank (b : UInt8) : Bool := b = 0x20 || b = 0x09 || b = 0x0A || b = 0x0C

/-- The annotation of a tag: its words with single blanks between them. -/
def tagText (s : List UInt8) : Option (List UInt8) :=
  (unescape 0 s).map fun s => [0x20].intercalate ((s.splitOnP isBlank).filter (· ≠ []))

/-- `"<v "`, in front of a speaker. -/
def voiceTag : List UInt8 := [0x3C, 0x76, 0x20]

/-- The speaker and the text of a cue. -/
def voice (payload : List UInt8) : Option (List UInt8 × List UInt8) :=
  if voiceTag.isPrefixOf payload then
    (tagText ((payload.drop 3).takeWhile (· ≠ 0x3E))).bind fun speaker =>
      (cueText payload).map fun text => (speaker, text)
  else (cueText payload).map fun text => ([], text)

/-- The cue of a block behind its name. -/
def vttBody (times : Line) (text : List Line) : Option Cue :=
  if text.any fun l => (find bareArrow l).isSome then none
  else (timing 0x2E times).bind fun t =>
    (voice (joined text)).map fun v => ⟨t.1, t.2, v.1, v.2⟩

/-- The cue of a block; a block without an arrow in its first two lines is none. -/
def vttCue (b : List Line) : Option (Option Cue) :=
  match b with
  | first :: rest =>
    if (find bareArrow first).isSome then (vttBody first rest).map some
    else
      match rest with
      | second :: rest =>
        if (find bareArrow second).isSome then (vttBody second rest).map some else some none
      | [] => some none
  | [] => some none

/-- `"WEBVTT"`. -/
def signature : List UInt8 := [0x57, 0x45, 0x42, 0x56, 0x54, 0x54]

/-- The cues of a WebVTT file. -/
def readVtt (s : List UInt8) : Option (List Cue) :=
  match lines s with
  | first :: [] :: rest =>
    if first = signature then ((blocks rest).mapM vttCue).map (·.filterMap id) else none
  | _ => none

/-! ### A file piece by piece -/

lemma newlines_eq_self {s : List UInt8} (h : 0x0D ∉ s) : newlines s = s := by
  induction s with
  | nil => rfl
  | cons b s ih =>
    rw [List.mem_cons, not_or] at h
    rw [newlines.eq_def]
    dsimp only
    rw [if_neg (Ne.symm h.1), ih h.2]

/-- A block up to the empty line behind it. -/
lemma blocks_append {b : List Line} (hb : [] ∉ b) (hne : b ≠ []) (ls : List Line) :
    blocks (b ++ [] :: ls) = b :: blocks ls := by
  rw [blocks, List.splitOn_append_cons_self_of_not_mem hb,
    List.filter_cons_of_pos (by simpa using hne), blocks]

lemma blocks_nil_cons (ls : List Line) : blocks ([] :: ls) = blocks ls := by
  have hsplit := List.splitOn_append_cons_self_of_not_mem (List.not_mem_nil (a := ([] : Line))) ls
  rw [blocks, ← List.nil_append ([] :: ls), hsplit, List.filter_cons_of_neg (by simp), blocks]

lemma joined_splitOn (s : List UInt8) : joined (s.splitOn 0x0A) = s := List.intercalate_splitOn 0x0A

/-- A line and what follows it; the text has no other end of a line than `"\n"`. -/
lemma lines_append {l s : List UInt8} (hl : 0x0A ∉ l) (hcr : 0x0D ∉ l ++ 0x0A :: s) :
    lines (l ++ 0x0A :: s) = l :: lines s := by
  have hs : 0x0D ∉ s := fun h => hcr (by simp [h])
  rw [lines, newlines_eq_self hcr, List.splitOn_append_cons_self_of_not_mem hl, lines,
    newlines_eq_self hs]

/-- A text of several lines and what follows it. -/
lemma lines_split {p s : List UInt8} (hcr : 0x0D ∉ p ++ 0x0A :: s) :
    lines (p ++ 0x0A :: s) = p.splitOn 0x0A ++ lines s := by
  have hs : 0x0D ∉ s := fun h => hcr (by simp [h])
  rw [lines, newlines_eq_self hcr, List.splitOn_append_cons_self, lines, newlines_eq_self hs]

/-- A text that no empty line and no other end of a line cuts. -/
def Unbroken (p : List UInt8) : Prop := 0x0D ∉ p ∧ (p = [] ∨ [] ∉ p.splitOn 0x0A)

instance (p : List UInt8) : Decidable (Unbroken p) := inferInstanceAs (Decidable (_ ∧ _))

lemma infix_intercalate (sep : List UInt8) {l : Line} {ls : List Line} (h : l ∈ ls) :
    l <:+: sep.intercalate ls := by
  induction ls with
  | nil => cases h
  | cons a ls ih =>
    cases ls with
    | nil =>
      rw [List.mem_singleton.mp h, List.intercalate_singleton]
    | cons b ls =>
      rw [List.intercalate_cons_cons]
      rcases List.mem_cons.mp h with rfl | h
      · exact ⟨[], sep ++ sep.intercalate (b :: ls), by simp⟩
      · exact (ih h).trans (List.suffix_append _ _).isInfix

/-- A block that ends with such a text: its lines, of which the text is made again. -/
theorem blocks_text {front : List Line} (hfront : [] ∉ front) (hne : front ≠ []) {p : List UInt8}
    (hp : Unbroken p) (ls : List Line) :
    ∃ text, blocks (front ++ (p.splitOn 0x0A ++ [] :: ls)) = (front ++ text) :: blocks ls ∧
      joined text = p ∧ ∀ l ∈ text, l <:+: p := by
  obtain ⟨-, rfl | hlines⟩ := hp
  · refine ⟨[], ?_, rfl, by simp⟩
    have hsplit : front ++ ([].splitOn 0x0A ++ [] :: ls) = front ++ [] :: ([] :: ls) := by
      rw [List.splitOn_nil]
      rfl
    rw [hsplit, blocks_append hfront hne, blocks_nil_cons, List.append_nil]
  · refine ⟨p.splitOn 0x0A, ?_, joined_splitOn p, fun l hl => ?_⟩
    · rw [← List.append_assoc, blocks_append]
      · rw [List.mem_append, not_or]
        exact ⟨hfront, hlines⟩
      · simp [hne]
    · have hinfix := infix_intercalate [0x0A] hl
      rwa [List.intercalate_splitOn] at hinfix

/-! ### Times -/

lemma number_append (ds : List UInt8) (d : UInt8) :
    number (ds ++ [d]) = number ds * 10 + (d.toNat - 0x30) := by
  rw [number, List.foldl_append]
  rfl

/-- A time that is written out is read, whatever stands behind it. -/
lemma stamp_append {sep : UInt8} {h : List UInt8} (hh : ∀ b ∈ h, isDigit b = true)
    (htwo : 2 ≤ h.length) {m₁ m₂ s₁ s₂ d₁ d₂ d₃ : UInt8}
    (hdigits : [m₁, m₂, s₁, s₂, d₁, d₂, d₃].all isDigit = true)
    (hm : number [m₁, m₂] < 60) (hs : number [s₁, s₂] < 60) (rest : List UInt8) :
    stamp sep (h ++ (0x3A :: m₁ :: m₂ :: 0x3A :: s₁ :: s₂ :: sep :: d₁ :: d₂ :: d₃ :: rest)) =
      some (((number h * 60 + number [m₁, m₂]) * 60 + number [s₁, s₂]) * 1000 +
        number [d₁, d₂, d₃], rest) := by
  have hcolon : isDigit 0x3A = false := by decide
  rw [stamp, List.takeWhile_append_of_pos hh, List.dropWhile_append_of_pos hh,
    List.takeWhile_cons_of_neg (by simp [hcolon]), List.dropWhile_cons_of_neg (by simp [hcolon]),
    List.append_nil]
  dsimp only
  rw [if_pos ⟨htwo, rfl, rfl, rfl, hdigits, hm, hs⟩]

/-- The line of the times. -/
lemma timing_append {sep : UInt8} {a z : ℕ} {s t : List UInt8}
    (hs : ∀ rest, stamp sep (s ++ rest) = some (a, rest)) (ht : stamp sep t = some (z, [])) :
    timing sep (s ++ (arrow ++ t)) = some (a, z) := by
  have hfront : arrow.isPrefixOf (arrow ++ t) = true :=
    List.isPrefixOf_iff_prefix.mpr (List.prefix_append _ _)
  have hdrop : (arrow ++ t).drop 5 = t := List.drop_left' rfl
  rw [timing, hs, Option.bind_some]
  dsimp only
  rw [if_pos hfront, hdrop, ht]
  rfl

/-! ### Texts without a meaning of their own -/

lemma unescape_plain {s : List UInt8} (h : 0x26 ∉ s) : unescape 0 s = some s := by
  induction s with
  | nil => rfl
  | cons b s ih =>
    rw [List.mem_cons, not_or] at h
    rw [unescape, if_neg (Ne.symm h.1), ih h.2]
    rfl

lemma withoutTags_plain {s : List UInt8} (h : 0x3C ∉ s) : withoutTags false s = some s := by
  induction s with
  | nil => rfl
  | cons b s ih =>
    rw [List.mem_cons, not_or] at h
    rw [withoutTags, if_neg (Ne.symm h.1), ih h.2]
    rfl

/-- A tag is taken out. -/
lemma withoutTags_tag {tag : List UInt8} (h : 0x3E ∉ tag) (s : List UInt8) :
    withoutTags true (tag ++ 0x3E :: s) = withoutTags false s := by
  induction tag with
  | nil => rfl
  | cons b tag ih =>
    rw [List.mem_cons, not_or] at h
    rw [List.cons_append, withoutTags, decide_eq_true (Ne.symm h.1), ih h.2]

/-- A text without tags and escapes stands for itself. -/
lemma cueText_plain {s : List UInt8} (htag : 0x3C ∉ s) (hescape : 0x26 ∉ s) :
    cueText s = some s := by
  rw [cueText, withoutTags_plain htag, Option.bind_some, unescape_plain hescape]

/-- The words of an annotation, and single blanks between them. -/
def Spaced (s : List UInt8) : Prop :=
  [0x20].intercalate ((s.splitOnP isBlank).filter (· ≠ [])) = s

instance (s : List UInt8) : Decidable (Spaced s) := inferInstanceAs (Decidable (_ = _))

lemma tagText_plain {s : List UInt8} (hspaced : Spaced s) (hescape : 0x26 ∉ s) :
    tagText s = some s := by
  rw [tagText, unescape_plain hescape, Option.map_some, hspaced]

/-- A speaker in front of a text. -/
lemma voice_tag {speaker text : List UInt8} (hend : 0x3E ∉ speaker)
    (hspeaker : tagText speaker = some speaker) (htext : cueText text = some text) :
    voice (voiceTag ++ (speaker ++ 0x3E :: text)) = some (speaker, text) := by
  have hfront : voiceTag.isPrefixOf (voiceTag ++ (speaker ++ 0x3E :: text)) = true :=
    List.isPrefixOf_iff_prefix.mpr (List.prefix_append _ _)
  have hdrop : (voiceTag ++ (speaker ++ 0x3E :: text)).drop 3 = speaker ++ 0x3E :: text :=
    List.drop_left' rfl
  have htag : (0x3E : UInt8) ∉ [0x76, 0x20] ++ speaker := by
    rw [List.mem_append, not_or]
    exact ⟨by decide, hend⟩
  have hcue : cueText (voiceTag ++ (speaker ++ 0x3E :: text)) = some text := by
    have hsplit : voiceTag ++ (speaker ++ 0x3E :: text) =
        0x3C :: ([0x76, 0x20] ++ speaker ++ 0x3E :: text) := by
      rw [List.append_assoc]
      rfl
    rw [hsplit, cueText, withoutTags, if_pos rfl, withoutTags_tag htag, ← cueText, htext]
  rw [voice, if_pos hfront, hdrop, takeWhile_mark hend, hspeaker, Option.bind_some, hcue]
  rfl

/-- A text that starts with no label. -/
def Unlabelled (s : List UInt8) : Prop := ∀ t, s = 0x5B :: t → ¬ [0x5D, 0x20] <:+: t

/-- The label is closed where the speaker ends. -/
lemma find_close {speaker : List UInt8} (h : ¬ [0x5D, 0x20] <:+: speaker) (text : List UInt8) :
    find [0x5D, 0x20] (speaker ++ (0x5D :: 0x20 :: text)) = some speaker.length := by
  refine find_eq_some_iff.mpr ⟨?_, fun j hj hat => h ?_⟩
  · rw [At, List.drop_left]
    exact List.prefix_append [0x5D, 0x20] text
  · rcases Nat.lt_or_ge (j + 1) speaker.length with hlt | hge
    · have hin : At [0x5D, 0x20] speaker j := hat.of_append (show j + 2 ≤ _ from hlt)
      exact (List.IsPrefix.isInfix hin).trans (List.drop_suffix _ _).isInfix
    · -- the blank would be the `']'` behind the speaker
      have hlast := hat.getElem? (j := 1) (by simp)
      have hj' : j + 1 = speaker.length := by omega
      rw [hj', List.getElem?_append_right le_rfl] at hlast
      simp at hlast

lemma label_speaker {speaker : List UInt8} (h : ¬ [0x5D, 0x20] <:+: speaker)
    (text : List UInt8) :
    label (0x5B :: (speaker ++ (0x5D :: 0x20 :: text))) = (speaker, text) := by
  have hdrop : (speaker ++ (0x5D :: 0x20 :: text)).drop (speaker.length + 2) = text := by
    rw [← List.drop_drop, List.drop_left]
    rfl
  rw [label, if_pos rfl, find_close h]
  dsimp only
  rw [List.take_left, hdrop]

lemma label_text {s : List UInt8} (h : Unlabelled s) : label s = ([], s) := by
  cases s with
  | nil => rfl
  | cons b s =>
    rw [label]
    split_ifs with hb
    · cases hf : find [0x5D, 0x20] s with
      | none => rfl
      | some i =>
        obtain ⟨hat, -⟩ := find_eq_some_iff.mp hf
        exact absurd ((List.IsPrefix.isInfix hat).trans (List.drop_suffix _ _).isInfix)
          (h s (by rw [hb]))
    · rfl

end Subtitle
