import VibeVoice.Lib.JsonText
import VibeVoice.Lib.Rounding
import VibeVoice.Lib.Subtitle
import VibeVoice.Model.Cjson

/-!
Subtitles: `fmt_timestamp`, `build_srt` and `build_vtt` of `api.c`.

Times are the rational values of the `float`s, and their arithmetic is rounded to 24 bits.  Texts
and speakers are written as they are.  Allocations succeed.

* `totalMs_near`: how far a time is off.
* `stamp_fmtTimestamp`: a time is read back.
* `srtReads`, `vttReads`: a block is read back, whatever stands behind it.
* `subtitles_read_back`: the files are read back where no text has a meaning in the format.
-/

namespace VibeVoice.Http

open Search Subtitle

/-! ### The files -/

/-- `vv_segment_t`. -/
structure Segment where
  speaker : Option (List UInt8)
  startTime : ℚ
  endTime : ℚ
  text : Option (List UInt8)

/-- The `float` nearest to a number. -/
def single (x : ℚ) : ℚ := Rounding.round 24 x

/-- The conversion to an `int`. -/
def truncate (x : ℚ) : ℤ := if 0 ≤ x then ⌊x⌋ else ⌈x⌉

/-- `(int)(t * 1000.0f + 0.5f)`. -/
def totalMs (t : ℚ) : ℤ := truncate (single (single (t * 1000) + 1 / 2))

/-- `"%0*d"`. -/
def printInt (width : ℕ) (n : ℤ) : List UInt8 :=
  let sign := if n < 0 then [0x2D] else []
  let digits := JsonText.decimal n.natAbs
  sign ++ (List.replicate (width - digits.length - sign.length) 0x30 ++ digits)

/-- `fmt_timestamp`. -/
def fmtTimestamp (t : ℚ) (comma : Bool) : List UInt8 :=
  let total := totalMs t
  let h := total.tdiv 3600000
  let m := (total.tdiv 60000).tmod 60
  let s := (total.tdiv 1000).tmod 60
  let ms := total.tmod 1000
  printInt 2 h ++ (0x3A :: (printInt 2 m ++ (0x3A :: (printInt 2 s ++
    ((if comma then 0x2C else 0x2E) :: printInt 3 ms)))))

/-- `"%s --> %s\n"`. -/
def timesLine (s : Segment) (comma : Bool) : List UInt8 :=
  fmtTimestamp s.startTime comma ++ (literal " --> " ++ fmtTimestamp s.endTime comma)

/-- A speaker between what is written around it, where there is one. -/
def speakerIn (before after : String) (s : Segment) : List UInt8 :=
  match s.speaker with
  | some (b :: speaker) => literal before ++ (b :: speaker ++ literal after)
  | _ => []

/-- The text of a cue, and its speaker in front. -/
def srtPayload (s : Segment) : List UInt8 := speakerIn "[" "] " s ++ s.text.getD []
def vttPayload (s : Segment) : List UInt8 := speakerIn "<v " ">" s ++ s.text.getD []

/-- The loop of `build_srt`, from segment `i`. -/
def srtFrom : ℕ → List Segment → List UInt8
  | _, [] => []
  | i, s :: tr =>
    JsonText.decimal (i + 1) ++ (0x0A :: (timesLine s true ++ (0x0A :: (srtPayload s ++
      (0x0A :: 0x0A :: srtFrom (i + 1) tr)))))

/-- `build_srt`. -/
def buildSrt (tr : List Segment) : List UInt8 := srtFrom 0 tr

/-- The loop of `build_vtt`. -/
def vttFrom : List Segment → List UInt8
  | [] => []
  | s :: tr =>
    timesLine s false ++ (0x0A :: (vttPayload s ++ (0x0A :: 0x0A :: vttFrom tr)))

/-- `build_vtt`. -/
def buildVtt (tr : List Segment) : List UInt8 := literal "WEBVTT\n\n" ++ vttFrom tr

/-! ### Times -/

lemma round_nonneg {p : ℕ} {x : ℚ} (hx : 0 ≤ x) : 0 ≤ Rounding.round p x := by
  have hulp := Rounding.ulp_pos p x
  have hdiv : 0 ≤ x / Rounding.ulp p x := div_nonneg hx hulp.le
  have hfloor : 0 ≤ ⌊x / Rounding.ulp p x⌋ := Int.floor_nonneg.mpr hdiv
  refine mul_nonneg ?_ hulp.le
  rw [Rounding.nearestEven]
  split_ifs <;> exact_mod_cast (by omega)

/-- A time that is not negative is written as a number of milliseconds. -/
lemma exists_totalMs {t : ℚ} (ht : 0 ≤ t) : ∃ n : ℕ, totalMs t = n := by
  have hfirst : 0 ≤ single (t * 1000) := round_nonneg (mul_nonneg ht (by norm_num))
  have hsecond : 0 ≤ single (single (t * 1000) + 1 / 2) :=
    round_nonneg (add_nonneg hfirst (by norm_num))
  refine Int.eq_ofNat_of_zero_le ?_
  rw [totalMs, truncate, if_pos hsecond]
  exact Int.floor_nonneg.mpr hsecond

/-- Times up to `2 ^ 23` milliseconds are off by one at most. -/
theorem totalMs_near {t : ℚ} (ht : 0 ≤ t) (hle : t * 1000 ≤ 2 ^ 23 - 1) :
    |(totalMs t : ℚ) - t * 1000| ≤ 1 := by
  have hpos : 0 ≤ t * 1000 := mul_nonneg ht (by norm_num)
  have hfirst : |single (t * 1000) - t * 1000| ≤ 1 / 4 := by
    have hlt : |t * 1000| < 2 ^ (23 : ℤ) := by
      rw [abs_of_nonneg hpos]
      norm_num at hle ⊢
      linarith
    have herror := Rounding.round_error (p := 24) hlt
    norm_num at herror
    exact herror
  rw [abs_le] at hfirst
  have hnonneg : 0 ≤ single (t * 1000) := round_nonneg hpos
  have hsecond : |single (single (t * 1000) + 1 / 2) - (single (t * 1000) + 1 / 2)| ≤ 1 / 4 := by
    have hlt : |single (t * 1000) + 1 / 2| < 2 ^ (23 : ℤ) := by
      rw [abs_of_nonneg (by linarith)]
      norm_num at hle ⊢
      linarith
    have herror := Rounding.round_error (p := 24) hlt
    norm_num at herror
    exact herror
  rw [abs_le] at hsecond
  have hsum : 0 ≤ single (single (t * 1000) + 1 / 2) := round_nonneg (by linarith)
  have hfloor := Int.floor_le (single (single (t * 1000) + 1 / 2))
  have hceil := Int.lt_floor_add_one (single (single (t * 1000) + 1 / 2))
  rw [totalMs, truncate, if_pos hsum, abs_le]
  constructor <;> linarith

/-! ### Numbers -/

lemma isDigit_of_decimal {n : ℕ} {b : UInt8} (h : b ∈ JsonText.decimal n) :
    isDigit b = true := by
  have hdigit := JsonText.isDigit_decimal n b h
  simp [isDigit, hdigit.1, hdigit.2]

lemma number_zeros (k : ℕ) (ds : List UInt8) : number (List.replicate k 0x30 ++ ds) = number ds := by
  induction k with
  | zero => rfl
  | succ k ih => rw [List.replicate_succ, List.cons_append, ← ih]; rfl

lemma toNat_digit {d : ℕ} (h : d < 10) : (0x30 + UInt8.ofNat d).toNat - 0x30 = d := by
  interval_cases d <;> rfl

lemma number_decimal (n : ℕ) : number (JsonText.decimal n) = n := by
  induction n using JsonText.decimal.induct with
  | case1 n hn =>
    rw [JsonText.decimal, if_pos hn]
    exact (Nat.zero_add _).trans (toNat_digit hn)
  | case2 n hn ih =>
    rw [JsonText.decimal, if_neg hn, number_append, ih, toNat_digit (Nat.mod_lt _ (by norm_num))]
    omega

lemma length_decimal_le {n k : ℕ} (hk : 0 < k) (h : n < 10 ^ k) :
    (JsonText.decimal n).length ≤ k := by
  induction n using JsonText.decimal.induct generalizing k with
  | case1 n hn =>
    rw [JsonText.decimal, if_pos hn]
    exact hk
  | case2 n hn ih =>
    obtain ⟨k, rfl⟩ := Nat.exists_eq_add_one_of_ne_zero hk.ne'
    have hkpos : 0 < k := by
      by_contra h0
      rw [Nat.eq_zero_of_not_pos h0] at h
      omega
    have hdiv : n / 10 < 10 ^ k := by
      rw [pow_succ] at h
      omega
    rw [JsonText.decimal, if_neg hn, List.length_append]
    exact Nat.add_le_add_right (ih hkpos hdiv) 1

/-- A number that fills its width at most is written with that many digits. -/
lemma printInt_spec {w n : ℕ} (hw : 0 < w) :
    (∀ b ∈ printInt w n, isDigit b = true) ∧ number (printInt w n) = n ∧
      w ≤ (printInt w n).length ∧ (n < 10 ^ w → (printInt w n).length = w) := by
  have hprint : printInt w n =
      List.replicate (w - (JsonText.decimal n).length) 0x30 ++ JsonText.decimal n := by
    rw [printInt, if_neg (by omega)]
    rfl
  have hlen :
      (printInt w n).length = w - (JsonText.decimal n).length + (JsonText.decimal n).length := by
    rw [hprint, List.length_append, List.length_replicate]
  refine ⟨fun b hb => ?_, ?_, by omega, fun h => ?_⟩
  · rw [hprint, List.mem_append] at hb
    rcases hb with hb | hb
    · rw [List.eq_of_mem_replicate hb]
      rfl
    · exact isDigit_of_decimal hb
  · rw [hprint, number_zeros, number_decimal]
  · have hle := length_decimal_le hw h
    omega

/-- A time is read back, whatever stands behind it. -/
theorem stamp_fmtTimestamp {t : ℚ} {n : ℕ} (hn : totalMs t = n) (comma : Bool)
    (rest : List UInt8) :
    stamp (if comma then 0x2C else 0x2E) (fmtTimestamp t comma ++ rest) = some (n, rest) := by
  have hm : n / 60000 % 60 < 60 := Nat.mod_lt _ (by norm_num)
  have hs : n / 1000 % 60 < 60 := Nat.mod_lt _ (by norm_num)
  have hms : n % 1000 < 10 ^ 3 := Nat.mod_lt _ (by norm_num)
  obtain ⟨hdigits, hnumber, htwo, -⟩ := printInt_spec (w := 2) (n := n / 3600000) (by norm_num)
  obtain ⟨mdigits, mnumber, -, mlen⟩ := printInt_spec (w := 2) (n := n / 60000 % 60) (by norm_num)
  obtain ⟨sdigits, snumber, -, slen⟩ := printInt_spec (w := 2) (n := n / 1000 % 60) (by norm_num)
  obtain ⟨msdigits, msnumber, -, mslen⟩ := printInt_spec (w := 3) (n := n % 1000) (by norm_num)
  obtain ⟨m₁, m₂, hm₁⟩ := List.length_eq_two.mp (mlen (hm.trans (by norm_num)))
  obtain ⟨s₁, s₂, hs₁⟩ := List.length_eq_two.mp (slen (hs.trans (by norm_num)))
  obtain ⟨d₁, d₂, d₃, hd₁⟩ := List.length_eq_three.mp (mslen hms)
  rw [hm₁] at mdigits mnumber
  rw [hs₁] at sdigits snumber
  rw [hd₁] at msdigits msnumber
  have hfmt : fmtTimestamp t comma ++ rest = printInt 2 (n / 3600000 : ℕ) ++
      (0x3A :: m₁ :: m₂ :: 0x3A :: s₁ :: s₂ :: (if comma then 0x2C else 0x2E) :: d₁ :: d₂ :: d₃ ::
        rest) := by
    have hh' : (n : ℤ).tdiv 3600000 = (n / 3600000 : ℕ) := rfl
    have hm' : ((n : ℤ).tdiv 60000).tmod 60 = (n / 60000 % 60 : ℕ) := rfl
    have hs' : ((n : ℤ).tdiv 1000).tmod 60 = (n / 1000 % 60 : ℕ) := rfl
    have hd' : (n : ℤ).tmod 1000 = (n % 1000 : ℕ) := rfl
    rw [fmtTimestamp, hn]
    rw [hh', hm', hs', hd', hm₁, hs₁, hd₁]
    simp
  have hall : [m₁, m₂, s₁, s₂, d₁, d₂, d₃].all isDigit = true := by
    simp only [List.mem_cons, forall_eq_or_imp] at mdigits sdigits msdigits
    simp [mdigits, sdigits, msdigits]
  rw [hfmt, stamp_append hdigits htwo hall (mnumber ▸ hm) (snumber ▸ hs), hnumber, mnumber,
    snumber, msnumber]
  congr 2
  omega

/-! ### What is read back -/

/-- No control character, so no end of a line. -/
def Visible (s : List UInt8) : Prop := ∀ b ∈ s, 0x20 ≤ b

lemma Visible.append {s t : List UInt8} (hs : Visible s) (ht : Visible t) : Visible (s ++ t) :=
  fun b hb => (List.mem_append.mp hb).elim (hs b) (ht b)

lemma Visible.cons {b : UInt8} {s : List UInt8} (hb : 0x20 ≤ b) (hs : Visible s) :
    Visible (b :: s) := fun _ ha => (List.mem_cons.mp ha).elim (fun h => h ▸ hb) (hs _)

lemma Visible.not_mem {s : List UInt8} (hs : Visible s) {b : UInt8} (hb : b < 0x20) : b ∉ s :=
  fun h => absurd (hs b h) (UInt8.not_le.mpr hb)

lemma visible_decimal (n : ℕ) : Visible (JsonText.decimal n) := fun b hb =>
  UInt8.le_trans (by decide) (JsonText.isDigit_decimal n b hb).1

lemma visible_printInt (w : ℕ) (n : ℤ) : Visible (printInt w n) := by
  refine Visible.append ?_ (Visible.append ?_ (visible_decimal _))
  · split_ifs
    · exact .cons (by decide) (fun _ h => absurd h List.not_mem_nil)
    · exact fun _ h => absurd h List.not_mem_nil
  · intro b hb
    rw [List.eq_of_mem_replicate hb]
    decide

lemma visible_fmtTimestamp (t : ℚ) (comma : Bool) : Visible (fmtTimestamp t comma) := by
  have hsep : (0x20 : UInt8) ≤ if comma then 0x2C else 0x2E := by cases comma <;> decide
  exact (visible_printInt _ _).append (.cons (by decide) ((visible_printInt _ _).append
    (.cons (by decide) ((visible_printInt _ _).append (.cons hsep (visible_printInt _ _))))))

lemma visible_timesLine (s : Segment) (comma : Bool) : Visible (timesLine s comma) := by
  refine (visible_fmtTimestamp _ _).append (Visible.append ?_ (visible_fmtTimestamp _ _))
  have harrow : literal " --> " = [0x20, 0x2D, 0x2D, 0x3E, 0x20] := by decide
  rw [harrow]
  intro b hb
  simp only [List.mem_cons, List.not_mem_nil, or_false] at hb
  rcases hb with rfl | rfl | rfl | rfl | rfl <;> decide

/-- The segment as a cue. -/
structure Recovers (s : Segment) (c : Cue) : Prop where
  start : totalMs s.startTime = c.start
  stop : totalMs s.endTime = c.stop
  speaker : c.speaker = s.speaker.getD []
  text : c.text = s.text.getD []

/-- No time is negative, and each fits into an `int` of milliseconds. -/
structure Timed (s : Segment) : Prop where
  start : 0 ≤ s.startTime ∧ totalMs s.startTime < 2 ^ 31
  stop : 0 ≤ s.endTime ∧ totalMs s.endTime < 2 ^ 31

/-- The times of a segment are read back. -/
lemma timing_timesLine {s : Segment} (hs : Timed s) (comma : Bool) :
    ∃ a z : ℕ, totalMs s.startTime = a ∧ totalMs s.endTime = z ∧
      timing (if comma then 0x2C else 0x2E) (timesLine s comma) = some (a, z) := by
  obtain ⟨a, ha⟩ := exists_totalMs hs.start.1
  obtain ⟨z, hz⟩ := exists_totalMs hs.stop.1
  have harrow : literal " --> " = arrow := by decide
  have hstop := stamp_fmtTimestamp hz comma []
  rw [List.append_nil] at hstop
  refine ⟨a, z, ha, hz, ?_⟩
  rw [timesLine, harrow]
  exact timing_append (stamp_fmtTimestamp ha comma) hstop

lemma speakerIn_eq (before after : String) (s : Segment) :
    speakerIn before after s = if s.speaker.getD [] = [] then [] else
      literal before ++ (s.speaker.getD [] ++ literal after) := by
  rw [speakerIn.eq_def]
  rcases s.speaker with _ | _ | ⟨b, speaker⟩ <;> rfl

/-- Nothing in the segment has a meaning in a SubRip file. -/
structure SrtPlain (s : Segment) : Prop where
  unbroken : Unbroken (srtPayload s)
  speaker : ¬ [0x5D, 0x20] <:+: s.speaker.getD []
  unlabelled : s.speaker.getD [] = [] → Unlabelled (s.text.getD [])

/-- Nothing in the segment has a meaning in a WebVTT file. -/
structure VttPlain (s : Segment) : Prop where
  unbroken : Unbroken (vttPayload s)
  arrow : ¬ bareArrow <:+: vttPayload s
  speaker : 0x3E ∉ s.speaker.getD [] ∧ 0x26 ∉ s.speaker.getD [] ∧ Spaced (s.speaker.getD [])
  text : 0x3C ∉ s.text.getD [] ∧ 0x26 ∉ s.text.getD []

lemma label_srtPayload {s : Segment} (hs : SrtPlain s) :
    label (srtPayload s) = (s.speaker.getD [], s.text.getD []) := by
  rw [srtPayload, speakerIn_eq]
  split_ifs with hnone
  · rw [hnone, List.nil_append]
    exact label_text (hs.unlabelled hnone)
  · have hbefore : literal "[" = [0x5B] := by decide
    have hafter : literal "] " = [0x5D, 0x20] := by decide
    rw [hbefore, hafter, List.append_assoc, List.append_assoc]
    exact label_speaker hs.speaker _

lemma voice_vttPayload {s : Segment} (hs : VttPlain s) :
    voice (vttPayload s) = some (s.speaker.getD [], s.text.getD []) := by
  have htext := cueText_plain hs.text.1 hs.text.2
  rw [vttPayload, speakerIn_eq]
  split_ifs with hnone
  · have hfront : ¬ voiceTag.isPrefixOf (s.text.getD []) = true := by
      rw [List.isPrefixOf_iff_prefix]
      exact fun h => hs.text.1 (h.subset (by decide))
    rw [hnone, List.nil_append, voice, if_neg hfront, htext]
    rfl
  · have hbefore : literal "<v " = voiceTag := by decide
    have hafter : literal ">" = [0x3E] := by decide
    rw [hbefore, hafter, List.append_assoc, List.append_assoc]
    exact voice_tag hs.speaker.1 (tagText_plain hs.speaker.2.2 hs.speaker.2.1) htext

/-- The block of a segment is read as its cue. -/
lemma srtCue_block {s : Segment} (htimed : Timed s) (hs : SrtPlain s) (i : ℕ) {text : List Line}
    (htext : joined text = srtPayload s) :
    ∃ c, srtCue (JsonText.decimal i :: timesLine s true :: text) = some c ∧ Recovers s c := by
  obtain ⟨a, z, ha, hz, htiming⟩ := timing_timesLine htimed true
  have hindex : JsonText.decimal i ≠ [] ∧ (JsonText.decimal i).all isDigit :=
    ⟨JsonText.decimal_ne_nil i, List.all_eq_true.mpr fun _ => isDigit_of_decimal⟩
  refine ⟨⟨a, z, s.speaker.getD [], s.text.getD []⟩, ?_, ha, hz, rfl, rfl⟩
  rw [if_pos rfl] at htiming
  rw [srtCue, if_pos hindex, htext, label_srtPayload hs, htiming]
  rfl

lemma vttCue_block {s : Segment} (htimed : Timed s) (hs : VttPlain s) {text : List Line}
    (htext : joined text = vttPayload s) (hlines : ∀ l ∈ text, l <:+: vttPayload s) :
    ∃ c, vttCue (timesLine s false :: text) = some (some c) ∧ Recovers s c := by
  obtain ⟨a, z, ha, hz, htiming⟩ := timing_timesLine htimed false
  have hfirst : (find bareArrow (timesLine s false)).isSome = true := by
    rw [Option.isSome_iff_ne_none, Ne, find_eq_none_iff]
    intro hnone
    refine hnone (fmtTimestamp s.startTime false ++ [0x20]).length ?_
    have hsplit : timesLine s false = fmtTimestamp s.startTime false ++ [0x20] ++
        (bareArrow ++ (0x20 :: fmtTimestamp s.endTime false)) := by
      have harrow : literal " --> " = 0x20 :: (bareArrow ++ [0x20]) := by decide
      rw [timesLine, harrow]
      simp
    rw [At, hsplit, List.drop_left]
    exact List.prefix_append _ _
  have hrest : (text.any fun l => (find bareArrow l).isSome) = false := by
    rw [List.any_eq_false]
    intro l hl hfound
    obtain ⟨i, hi⟩ := Option.isSome_iff_exists.mp hfound
    have hat : bareArrow <+: l.drop i := (find_eq_some_iff.mp hi).1
    exact hs.arrow (hat.isInfix.trans ((List.drop_suffix _ _).isInfix.trans (hlines l hl)))
  refine ⟨⟨a, z, s.speaker.getD [], s.text.getD []⟩, ?_, ha, hz, rfl, rfl⟩
  rw [if_neg (by decide)] at htiming
  rw [vttCue.eq_def]
  dsimp only
  rw [if_pos hfirst, vttBody, hrest, if_neg (by decide), htiming, Option.bind_some, htext,
    voice_vttPayload hs]
  rfl

lemma not_mem_cr_cons {b : UInt8} {s : List UInt8} (hb : b ≠ 0x0D) (hs : 0x0D ∉ s) :
    0x0D ∉ b :: s := by
  rw [List.mem_cons, not_or]
  exact ⟨Ne.symm hb, hs⟩

lemma not_mem_append {b : UInt8} {s t : List UInt8} (hs : b ∉ s) (ht : b ∉ t) : b ∉ s ++ t := by
  rw [List.mem_append, not_or]
  exact ⟨hs, ht⟩

lemma Visible.cr {s : List UInt8} (hs : Visible s) : 0x0D ∉ s := hs.not_mem (by decide)

lemma Visible.lf {s : List UInt8} (hs : Visible s) : 0x0A ∉ s := hs.not_mem (by decide)

lemma srtFrom_cr {tr : List Segment} (h : ∀ s ∈ tr, 0x0D ∉ srtPayload s) (i : ℕ) :
    0x0D ∉ srtFrom i tr := by
  induction tr generalizing i with
  | nil => exact List.not_mem_nil
  | cons s tr ih =>
    rw [List.forall_mem_cons] at h
    exact not_mem_append (visible_decimal _).cr (not_mem_cr_cons (by decide)
      (not_mem_append (visible_timesLine s true).cr (not_mem_cr_cons (by decide)
        (not_mem_append h.1 (not_mem_cr_cons (by decide) (not_mem_cr_cons (by decide)
          (ih h.2 _)))))))

lemma vttFrom_cr {tr : List Segment} (h : ∀ s ∈ tr, 0x0D ∉ vttPayload s) : 0x0D ∉ vttFrom tr := by
  induction tr with
  | nil => exact List.not_mem_nil
  | cons s tr ih =>
    rw [List.forall_mem_cons] at h
    exact not_mem_append (visible_timesLine s false).cr (not_mem_cr_cons (by decide)
      (not_mem_append h.1 (not_mem_cr_cons (by decide) (not_mem_cr_cons (by decide) (ih h.2)))))

lemma ne_nil_of_timesLine (s : Segment) (comma : Bool) : [] ≠ timesLine s comma := by
  have harrow : literal " --> " = [0x20, 0x2D, 0x2D, 0x3E, 0x20] := by decide
  rw [timesLine, harrow]
  simp

lemma lines_srtFrom {s : Segment} {tr : List Segment} (h : ∀ r ∈ s :: tr, 0x0D ∉ srtPayload r)
    (i : ℕ) :
    lines (srtFrom i (s :: tr)) = [JsonText.decimal (i + 1), timesLine s true] ++
      ((srtPayload s).splitOn 0x0A ++ [] :: lines (srtFrom (i + 1) tr)) := by
  have hcr := srtFrom_cr h i
  rw [srtFrom] at hcr ⊢
  have hcr₁ := fun hmem => hcr (List.mem_append_right _ (List.mem_cons_of_mem _ hmem))
  have hcr₂ := fun hmem => hcr₁ (List.mem_append_right _ (List.mem_cons_of_mem _ hmem))
  have hcr₃ := fun hmem => hcr₂ (List.mem_append_right _ (List.mem_cons_of_mem _ hmem))
  rw [lines_append (visible_decimal _).lf hcr, lines_append (visible_timesLine s true).lf hcr₁,
    lines_split hcr₂, ← List.nil_append (0x0A :: srtFrom (i + 1) tr),
    lines_append List.not_mem_nil hcr₃]
  rfl

lemma lines_vttFrom {s : Segment} {tr : List Segment} (h : ∀ r ∈ s :: tr, 0x0D ∉ vttPayload r) :
    lines (vttFrom (s :: tr)) = [timesLine s false] ++
      ((vttPayload s).splitOn 0x0A ++ [] :: lines (vttFrom tr)) := by
  have hcr := vttFrom_cr h
  rw [vttFrom] at hcr ⊢
  have hcr₁ := fun hmem => hcr (List.mem_append_right _ (List.mem_cons_of_mem _ hmem))
  have hcr₂ := fun hmem => hcr₁ (List.mem_append_right _ (List.mem_cons_of_mem _ hmem))
  rw [lines_append (visible_timesLine s false).lf hcr, lines_split hcr₁,
    ← List.nil_append (0x0A :: vttFrom tr), lines_append List.not_mem_nil hcr₂]
  rfl

/-- A SubRip file is read back segment by segment. -/
theorem srtReads {tr : List Segment} (htimed : ∀ s ∈ tr, Timed s) (hplain : ∀ s ∈ tr, SrtPlain s)
    (i : ℕ) :
    ∃ cues, (blocks (lines (srtFrom i tr))).mapM srtCue = some cues ∧
      List.Forall₂ Recovers tr cues := by
  induction tr generalizing i with
  | nil => exact ⟨[], rfl, .nil⟩
  | cons s tr ih =>
    have hcr : ∀ r ∈ s :: tr, 0x0D ∉ srtPayload r := fun r hr => (hplain r hr).unbroken.1
    rw [List.forall_mem_cons] at htimed hplain
    have hfront : [] ∉ [JsonText.decimal (i + 1), timesLine s true] := by
      have hindex := (JsonText.decimal_ne_nil (i + 1)).symm
      simp [hindex, ne_nil_of_timesLine s true]
    obtain ⟨text, hblocks, htext, -⟩ := blocks_text hfront (List.cons_ne_nil _ _)
      hplain.1.unbroken (lines (srtFrom (i + 1) tr))
    obtain ⟨c, hc, hrecovers⟩ := srtCue_block htimed.1 hplain.1 (i + 1) htext
    obtain ⟨cues, hcues, hall⟩ := ih htimed.2 hplain.2 (i + 1)
    refine ⟨c :: cues, ?_, .cons hrecovers hall⟩
    rw [lines_srtFrom hcr, hblocks, List.mapM_cons]
    change (srtCue (JsonText.decimal (i + 1) :: timesLine s true :: text)).bind _ = _
    rw [hc, Option.bind_some, hcues]
    rfl

/-- A WebVTT file is read back segment by segment. -/
theorem vttReads {tr : List Segment} (htimed : ∀ s ∈ tr, Timed s)
    (hplain : ∀ s ∈ tr, VttPlain s) :
    ∃ cues, (blocks (lines (vttFrom tr))).mapM vttCue = some (cues.map some) ∧
      List.Forall₂ Recovers tr cues := by
  induction tr with
  | nil => exact ⟨[], rfl, .nil⟩
  | cons s tr ih =>
    have hcr : ∀ r ∈ s :: tr, 0x0D ∉ vttPayload r := fun r hr => (hplain r hr).unbroken.1
    rw [List.forall_mem_cons] at htimed hplain
    have hfront : [] ∉ [timesLine s false] := by simp [ne_nil_of_timesLine s false]
    obtain ⟨text, hblocks, htext, hlines⟩ := blocks_text hfront (List.cons_ne_nil _ _)
      hplain.1.unbroken (lines (vttFrom tr))
    obtain ⟨c, hc, hrecovers⟩ := vttCue_block htimed.1 hplain.1 htext hlines
    obtain ⟨cues, hcues, hall⟩ := ih htimed.2 hplain.2
    refine ⟨c :: cues, ?_, .cons hrecovers hall⟩
    rw [lines_vttFrom hcr, hblocks, List.mapM_cons]
    change (vttCue (timesLine s false :: text)).bind _ = _
    rw [hc, Option.bind_some, hcues]
    rfl

/-- **The files are read back.**  Where nothing in a segment has a meaning in the format, each file
has its segments as its cues, in order, and up to two hours and nineteen minutes their times to the
millisecond. -/
theorem subtitles_read_back {tr : List Segment} (htimed : ∀ s ∈ tr, Timed s) :
    ((∀ s ∈ tr, SrtPlain s) →
      ∃ cues, readSrt (buildSrt tr) = some cues ∧ List.Forall₂ Recovers tr cues) ∧
    ((∀ s ∈ tr, VttPlain s) →
      ∃ cues, readVtt (buildVtt tr) = some cues ∧ List.Forall₂ Recovers tr cues) ∧
    ∀ s ∈ tr, ∀ t ∈ [s.startTime, s.endTime], t * 1000 ≤ 2 ^ 23 - 1 →
      |(totalMs t : ℚ) - t * 1000| ≤ 1 := by
  refine ⟨fun hplain => srtReads htimed hplain 0, fun hplain => ?_, fun s hs t ht hle => ?_⟩
  · obtain ⟨cues, hcues, hall⟩ := vttReads htimed hplain
    refine ⟨cues, ?_, hall⟩
    have hcr : 0x0D ∉ vttFrom tr := vttFrom_cr fun r hr => (hplain r hr).unbroken.1
    have hhead : literal "WEBVTT\n\n" ++ vttFrom tr =
        signature ++ 0x0A :: ([] ++ 0x0A :: vttFrom tr) := by
      have hliteral : literal "WEBVTT\n\n" = signature ++ [0x0A, 0x0A] := by decide
      rw [hliteral, List.append_assoc]
      rfl
    have hcr₁ : 0x0D ∉ [] ++ 0x0A :: vttFrom tr := not_mem_cr_cons (by decide) hcr
    have hcr₂ : 0x0D ∉ signature ++ 0x0A :: ([] ++ 0x0A :: vttFrom tr) :=
      not_mem_append (by decide) (not_mem_cr_cons (by decide) hcr₁)
    rw [readVtt, buildVtt, hhead, lines_append (by decide) hcr₂,
      lines_append List.not_mem_nil hcr₁]
    dsimp only
    rw [if_pos rfl, hcues]
    simp [List.filterMap_map]
  · have hnonneg : 0 ≤ t := by
      simp only [List.mem_cons, List.not_mem_nil, or_false] at ht
      rcases ht with rfl | rfl
      · exact (htimed s hs).start.1
      · exact (htimed s hs).stop.1
    exact totalMs_near hnonneg hle

/-- A segment of the first second. -/
def spoken (text : String) : Segment := ⟨some (literal "Ann"), 0, 1, some (literal text)⟩

theorem subtitles_read_back_two :
    (∃ cues, readSrt (buildSrt [spoken "one", spoken "two\nlines"]) = some cues ∧
      List.Forall₂ Recovers [spoken "one", spoken "two\nlines"] cues) ∧
    ∃ cues, readVtt (buildVtt [spoken "one", spoken "two\nlines"]) = some cues ∧
      List.Forall₂ Recovers [spoken "one", spoken "two\nlines"] cues := by
  have htimed : ∀ s ∈ [spoken "one", spoken "two\nlines"], Timed s := by
    intro s hs
    simp only [List.mem_cons, List.not_mem_nil, or_false] at hs
    rcases hs with rfl | rfl <;>
      exact ⟨⟨le_rfl, by decide +kernel⟩, zero_le_one, by decide +kernel⟩
  have hread := subtitles_read_back htimed
  refine ⟨hread.1 fun s hs => ?_, hread.2.1 fun s hs => ?_⟩
  · simp only [List.mem_cons, List.not_mem_nil, or_false] at hs
    rcases hs with rfl | rfl <;>
      exact ⟨by decide +kernel, by decide +kernel, fun h => absurd h (by decide)⟩
  · simp only [List.mem_cons, List.not_mem_nil, or_false] at hs
    rcases hs with rfl | rfl <;>
      exact ⟨by decide +kernel, by decide +kernel, by decide +kernel, by decide +kernel⟩

/-- A blank line in a text ends its cue, an angle bracket opens a tag, a negative time is no time
stamp, and times of more than `2 ^ 23` milliseconds can be off by more than one. -/
theorem subtitles_broken :
    readSrt (buildSrt [spoken "one\n\ntwo"]) = none ∧ readVtt (buildVtt [spoken "1 < 2"]) = none ∧
      readSrt (buildSrt [{ spoken "one" with startTime := -1 }]) = none ∧
      (totalMs (8590101 / 1024) : ℚ) - 8590101 / 1024 * 1000 = 191 / 128 := by
  refine ⟨by decide +kernel, by decide +kernel, by decide +kernel, by decide +kernel⟩

end VibeVoice.Http
