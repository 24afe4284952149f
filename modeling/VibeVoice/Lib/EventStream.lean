import Mathlib.Tactic

/-!
Streams of server-sent events, as a client reads them.

A line ends with CR, LF or CRLF; a line that is not ended is not read.  A `data` field adds a line
to the event, an `event` field names it, and an empty line dispatches it.

* `normalize`, `lines`: line ends, and the complete lines of a text.
* `Client.line`, `events`: what a client makes of a line and of a text.
* `lines_append`, `lines_append_front`: the lines of a text put together from others.
* `weight_lines`: how much data the events of a text can carry.
-/

namespace EventStream

/-! ### Lines -/

def cr : UInt8 := 0x0D

def lf : UInt8 := 0x0A

/-- Every line end as LF; an LF directly behind a CR ends no line of its own. -/
def normalizeFrom : Bool → List UInt8 → List UInt8
  | _, [] => []
  | behindCr, c :: s =>
    if c = cr then lf :: normalizeFrom true s
    else if c = lf ∧ behindCr = true then normalizeFrom false s
    else c :: normalizeFrom false s

/-- A text with every line end as LF. -/
def normalize (text : List UInt8) : List UInt8 := normalizeFrom false text

/-- The complete lines of a text. -/
def lines (text : List UInt8) : List (List UInt8) := ((normalize text).splitOn lf).dropLast

/-- A byte of a line. -/
def isText (c : UInt8) : Bool := c ≠ cr && c ≠ lf

/-- Every CR is directly followed by an LF. -/
def CrLf (text : List UInt8) : Prop :=
  ∀ i, text[i]? = some cr → text[i + 1]? = some lf

/-! ### The client -/

/-- `"data"` -/
def dataField : List UInt8 := [0x64, 0x61, 0x74, 0x61]

/-- `"event"` -/
def eventField : List UInt8 := [0x65, 0x76, 0x65, 0x6E, 0x74]

/-- What stands in front of the first colon of a line. -/
def fieldName (line : List UInt8) : List UInt8 := line.takeWhile (· ≠ 0x3A)

/-- What stands behind it, without one space in front. -/
def fieldValue (line : List UInt8) : List UInt8 :=
  match (line.dropWhile (· ≠ 0x3A)).tail with
  | [] => []
  | c :: s => if c = 0x20 then s else c :: s

/-- A client between two lines: the name and the data of the next event, and the events so far. -/
structure Client where
  name : List UInt8
  data : List UInt8
  events : List (List UInt8 × List UInt8)
  deriving DecidableEq

/-- A line: an empty one dispatches the event, unless it has no data. -/
def Client.line (c : Client) (line : List UInt8) : Client :=
  if line = [] then
    if c.data = [] then { c with name := [] }
    else ⟨[], [], c.events ++ [(c.name, c.data.dropLast)]⟩
  else if fieldName line = eventField then { c with name := fieldValue line }
  else if fieldName line = dataField then { c with data := c.data ++ (fieldValue line ++ [lf]) }
  else c

/-- The events of a text, each its name and its data. -/
def events (text : List UInt8) : List (List UInt8 × List UInt8) :=
  ((lines text).foldl Client.line ⟨[], [], []⟩).events

/-! ### Line ends -/

lemma normalizeFrom_true (s : List UInt8) :
    normalizeFrom true s = if s.head? = some lf then normalize s.tail else normalize s := by
  cases s with
  | nil => rfl
  | cons c s =>
    by_cases hcr : c = cr
    · have hlf : c ≠ lf := by rw [hcr]; decide
      simp [normalizeFrom, normalize, hcr, show cr ≠ lf by decide]
    · by_cases hlf : c = lf
      · simp [normalizeFrom, normalize, hlf, show lf ≠ cr by decide]
      · simp [normalizeFrom, normalize, hcr, hlf]

@[simp] lemma normalize_nil : normalize [] = [] := rfl

@[simp] lemma normalize_lf (s : List UInt8) : normalize (lf :: s) = lf :: normalize s := by
  simp [normalize, normalizeFrom, show lf ≠ cr by decide]

@[simp] lemma normalize_crlf (s : List UInt8) : normalize (cr :: lf :: s) = lf :: normalize s := by
  rw [normalize, normalizeFrom, if_pos rfl, normalizeFrom_true, List.head?_cons,
    if_pos (Eq.refl (some lf)), List.tail_cons]

lemma normalize_cr {s : List UInt8} (h : s.head? ≠ some lf) :
    normalize (cr :: s) = lf :: normalize s := by
  rw [normalize, normalizeFrom, if_pos rfl, normalizeFrom_true, if_neg h]

lemma normalize_cons {c : UInt8} (hcr : c ≠ cr) (hlf : c ≠ lf) (s : List UInt8) :
    normalize (c :: s) = c :: normalize s := by
  simp [normalize, normalizeFrom, hcr, hlf]

/-- A text ends, or it starts with one of the three line ends or a byte of a line. -/
@[elab_as_elim]
lemma lineEnds_induct {P : List UInt8 → Prop} (nil : P [])
    (newline : ∀ s, P s → P (lf :: s)) (pair : ∀ s, P s → P (cr :: lf :: s))
    (lone : ∀ s, s.head? ≠ some lf → P s → P (cr :: s))
    (text : ∀ c s, c ≠ cr → c ≠ lf → P s → P (c :: s)) (s : List UInt8) : P s := by
  induction hn : s.length using Nat.strong_induction_on generalizing s with
  | _ n ih =>
    cases s with
    | nil => exact nil
    | cons c s =>
      have hs : P s := ih s.length (by rw [← hn]; exact Nat.lt_succ_self _) s rfl
      by_cases hcr : c = cr
      · by_cases hlf : s.head? = some lf
        · obtain ⟨s', rfl⟩ : ∃ s', s = lf :: s' := by
            cases s with
            | nil => cases hlf
            | cons b s' => exact ⟨s', by rw [Option.some.inj hlf]⟩
          rw [hcr]
          exact pair s' (ih s'.length (by rw [← hn]; simp) s' rfl)
        · rw [hcr]
          exact lone s hlf hs
      · by_cases hlf : c = lf
        · rw [hlf]
          exact newline s hs
        · exact text c s hcr hlf hs

/-- Nothing but line ends changes. -/
lemma filter_normalize (s : List UInt8) : (normalize s).filter (· ≠ lf) = s.filter isText := by
  induction s using lineEnds_induct with
  | nil => rfl
  | newline s ih => rw [normalize_lf, List.filter_cons_of_neg (by simp), ih]; rfl
  | pair s ih => rw [normalize_crlf, List.filter_cons_of_neg (by simp), ih]; rfl
  | lone s hs ih => rw [normalize_cr hs, List.filter_cons_of_neg (by simp), ih]; rfl
  | text c s hcr hlf ih =>
    rw [normalize_cons hcr hlf, List.filter_cons_of_pos (by simpa using hlf), ih,
      List.filter_cons_of_pos (by simp [isText, hcr, hlf])]

lemma length_filter_add_count (s : List UInt8) :
    (s.filter (· ≠ lf)).length + s.count lf = s.length := by
  induction s with
  | nil => rfl
  | cons c s ih =>
    by_cases hc : c = lf
    · rw [hc, List.filter_cons_of_neg (by simp), List.count_cons_self, ← Nat.add_assoc, ih,
        List.length_cons]
    · rw [List.filter_cons_of_pos (by simpa using hc), List.count_cons_of_ne hc,
        List.length_cons, List.length_cons, ← ih, Nat.add_right_comm]

lemma length_normalize (s : List UInt8) :
    (normalize s).length = (s.filter isText).length + (normalize s).count lf := by
  rw [← filter_normalize, length_filter_add_count]

lemma count_normalize_le (s : List UInt8) : s.count lf ≤ (normalize s).count lf := by
  induction s using lineEnds_induct with
  | nil => exact le_rfl
  | newline s ih => simpa using ih
  | pair s ih => simpa [show cr ≠ lf by decide] using ih
  | lone s hs ih =>
    rw [normalize_cr hs, List.count_cons_self, List.count_cons_of_ne (by decide)]
    exact ih.trans (Nat.le_succ _)
  | text c s hcr hlf ih =>
    rw [normalize_cons hcr hlf, List.count_cons_of_ne hlf, List.count_cons_of_ne hlf]
    exact ih

lemma crLf_cons {c : UInt8} (hc : c ≠ cr) (s : List UInt8) : CrLf (c :: s) ↔ CrLf s := by
  constructor
  · exact fun h i hi => h (i + 1) hi
  · intro h i hi
    cases i with
    | zero => exact absurd (Option.some.inj hi) hc
    | succ i => exact h i hi

lemma crLf_cr (s : List UInt8) : CrLf (cr :: s) ↔ s.head? = some lf ∧ CrLf s := by
  constructor
  · intro h
    refine ⟨?_, fun i hi => h (i + 1) hi⟩
    rw [List.head?_eq_getElem?]
    exact h 0 rfl
  · rintro ⟨hhead, h⟩ i hi
    cases i with
    | zero => rwa [List.head?_eq_getElem?] at hhead
    | succ i => exact h i hi

/-- A CR without its LF is one more line end. -/
lemma count_normalize_lt {s : List UInt8} (h : ¬ CrLf s) : s.count lf < (normalize s).count lf := by
  induction s using lineEnds_induct with
  | nil => exact (h fun i hi => nomatch hi).elim
  | newline s ih =>
    rw [crLf_cons (by decide)] at h
    simpa using ih h
  | pair s ih =>
    rw [crLf_cr, List.head?_cons, crLf_cons (by decide)] at h
    simpa [show cr ≠ lf by decide] using ih fun hs => h ⟨rfl, hs⟩
  | lone s hs ih =>
    rw [normalize_cr hs, List.count_cons_self, List.count_cons_of_ne (by decide)]
    exact Nat.lt_succ_of_le (count_normalize_le s)
  | text c s hcr hlf ih =>
    rw [crLf_cons hcr] at h
    rw [normalize_cons hcr hlf, List.count_cons_of_ne hlf, List.count_cons_of_ne hlf]
    exact ih h

/-! ### The lines of a text -/

/-- What stands in front of an LF and behind it are normalised on their own. -/
lemma normalize_append (a b : List UInt8) :
    normalize (a ++ lf :: b) = normalize (a ++ [lf]) ++ normalize b := by
  induction a using lineEnds_induct with
  | nil => simp
  | newline a ih => simpa using ih
  | pair a ih => simpa using ih
  | lone a ha ih =>
    cases a with
    | nil => simp
    | cons c a =>
      change normalize (cr :: (c :: a ++ lf :: b)) =
        normalize (cr :: (c :: a ++ [lf])) ++ normalize b
      rw [normalize_cr (s := c :: a ++ lf :: b) ha, normalize_cr (s := c :: a ++ [lf]) ha, ih]
      rfl
  | text c a hcr hlf ih =>
    rw [List.cons_append, List.cons_append, normalize_cons hcr hlf, normalize_cons hcr hlf, ih,
      List.cons_append]

lemma normalize_snoc (a : List UInt8) : ∃ t, normalize (a ++ [lf]) = t ++ [lf] := by
  induction a using lineEnds_induct with
  | nil => exact ⟨[], rfl⟩
  | newline a ih =>
    obtain ⟨t, ht⟩ := ih
    exact ⟨lf :: t, by simp [ht]⟩
  | pair a ih =>
    obtain ⟨t, ht⟩ := ih
    exact ⟨lf :: t, by simp [ht]⟩
  | lone a ha ih =>
    cases a with
    | nil => exact ⟨[], by simp⟩
    | cons c a =>
      obtain ⟨t, ht⟩ := ih
      exact ⟨lf :: t, by rw [List.cons_append, normalize_cr (s := c :: a ++ [lf]) ha, ht]; rfl⟩
  | text c a hcr hlf ih =>
    obtain ⟨t, ht⟩ := ih
    exact ⟨c :: t, by rw [List.cons_append, normalize_cons hcr hlf, ht]; rfl⟩

/-- The lines in front of an LF and those behind it. -/
lemma lines_append (a b : List UInt8) : lines (a ++ [lf] ++ b) = lines (a ++ [lf]) ++ lines b := by
  obtain ⟨t, ht⟩ := normalize_snoc a
  rw [List.append_assoc, List.singleton_append, lines, lines, lines, normalize_append, ht, List.append_assoc, List.singleton_append,
    List.splitOn_append_cons_self, List.splitOn_append_cons_self,
    List.dropLast_append_of_ne_nil (List.splitOn_ne_nil _ _), List.splitOn_nil,
    List.dropLast_concat]

/-- Bytes of a line go in front of the first line. -/
lemma lines_append_front {p : List UInt8} (hp : p.all isText = true) (s : List UInt8) :
    lines (p ++ s) = (lines s).modifyHead (p ++ ·) := by
  have hdrop : ∀ (f : List UInt8 → List UInt8) (ls : List (List UInt8)),
      (ls.modifyHead f).dropLast = ls.dropLast.modifyHead f := by
    rintro f (_ | ⟨l, _ | ⟨l', ls⟩⟩) <;> rfl
  have hsplit : (normalize (p ++ s)).splitOn lf = ((normalize s).splitOn lf).modifyHead (p ++ ·) := by
    induction p with
    | nil => rw [List.nil_append]; cases (normalize s).splitOn lf <;> rfl
    | cons c p ih =>
      rw [List.all_cons, Bool.and_eq_true] at hp
      obtain ⟨hcr, hlf⟩ : c ≠ cr ∧ c ≠ lf := by simpa [isText] using hp.1
      rw [List.cons_append, normalize_cons hcr hlf, List.splitOn_cons_eq_if_modifyHead,
        if_neg (by simpa using hlf), ih hp.2]
      cases (normalize s).splitOn lf <;> rfl
  rw [lines, hsplit, hdrop, lines]

lemma lines_lf : lines [lf] = [[]] := by
  rw [lines, normalize_lf, normalize_nil]
  rfl

/-- One line. -/
lemma lines_single {l : List UInt8} (hl : l.all isText = true) : lines (l ++ [lf]) = [l] := by
  rw [lines_append_front hl, lines_lf, List.modifyHead_cons, List.append_nil]

lemma flatten_splitOn (s : List UInt8) : (s.splitOn lf).flatten = s.filter (· ≠ lf) := by
  induction s with
  | nil => rfl
  | cons c s ih =>
    rw [List.splitOn_cons_eq_if_modifyHead]
    by_cases hc : c = lf
    · simp [hc, ih]
    · rw [if_neg (by simpa using hc), List.filter_cons_of_pos (by simpa using hc), ← ih]
      obtain ⟨l, ls, hls⟩ := List.exists_cons_of_ne_nil (List.splitOn_ne_nil lf s)
      rw [hls]
      rfl

lemma length_splitOn (s : List UInt8) : (s.splitOn lf).length = s.count lf + 1 := by
  induction s with
  | nil => rfl
  | cons c s ih =>
    rw [List.splitOn_cons_eq_if_modifyHead]
    by_cases hc : c = lf
    · simp [hc, ih]
    · rw [if_neg (by simpa using hc), List.length_modifyHead, ih, List.count_cons_of_ne hc]

/-- Bytes of a line of a normalised text are no line ends. -/
lemma isText_of_mem_splitOn {s l : List UInt8} (hl : l ∈ (normalize s).splitOn lf) :
    l.all isText = true := by
  rw [List.all_eq_true]
  intro c hc
  have hmem : c ∈ s.filter isText := by
    rw [← filter_normalize, ← flatten_splitOn]
    exact List.mem_flatten.mpr ⟨l, hl, hc⟩
  exact (List.mem_filter.mp hmem).2

/-- Lines, each with its line end, and the text they are joined to. -/
lemma dropLast_flatMap_lf {ls : List (List UInt8)} (hls : ls ≠ []) :
    (ls.flatMap (· ++ [lf])).dropLast = [lf].intercalate ls := by
  induction ls with
  | nil => exact (hls rfl).elim
  | cons l ls ih =>
    by_cases hempty : ls = []
    · rw [hempty]
      simp
    · have hne : ls.flatMap (· ++ [lf]) ≠ [] := by
        obtain ⟨l', ls', rfl⟩ := List.exists_cons_of_ne_nil hempty
        simp
      rw [List.flatMap_cons, List.dropLast_append_of_ne_nil hne, ih hempty,
        List.intercalate_cons_of_ne_nil hempty]

/-- The lines hold the bytes of the text, without the line ends. -/
lemma flatten_lines (a : List UInt8) : (lines (a ++ [lf])).flatten = a.filter isText := by
  obtain ⟨t, ht⟩ := normalize_snoc a
  have hfilter := filter_normalize (a ++ [lf])
  rw [ht, List.filter_append, List.filter_append] at hfilter
  rw [lines, ht, List.splitOn_append_cons_self, List.splitOn_nil, List.dropLast_concat,
    flatten_splitOn]
  simpa [isText] using hfilter

/-! ### How much data events carry -/

/-- The data a line adds. -/
def gain (line : List UInt8) : ℕ :=
  if fieldName line = dataField then (fieldValue line).length + 1 else 0

/-- The data of a client, with a line end for each event. -/
def Client.weight (c : Client) : ℕ := (c.events.map fun e => e.2.length + 1).sum + c.data.length

lemma length_fieldValue_le (line : List UInt8) :
    (fieldValue line).length + (fieldName line).length ≤ line.length := by
  have hsplit := congrArg List.length
    (List.takeWhile_append_dropWhile (p := (· ≠ (0x3A : UInt8))) (l := line))
  rw [List.length_append] at hsplit
  have htail : (fieldValue line).length ≤ (line.dropWhile (· ≠ 0x3A)).length := by
    refine le_trans ?_ (List.length_tail.trans_le (Nat.sub_le _ 1))
    rw [fieldValue]
    split
    · exact Nat.zero_le _
    · next c s htail =>
        rw [htail]
        split_ifs
        · exact Nat.le_succ _
        · exact le_rfl
  rw [fieldName]
  omega

/-- A line adds less than it has bytes. -/
lemma gain_le (line : List UInt8) : gain line ≤ line.length := by
  have hle := length_fieldValue_le line
  rw [gain]
  split_ifs with h
  · rw [h] at hle
    have hfour : dataField.length = 4 := rfl
    omega
  · exact Nat.zero_le _

lemma weight_line (c : Client) (line : List UInt8) :
    (c.line line).weight = c.weight + gain line := by
  by_cases hempty : line = []
  · have hgain : gain line = 0 := by rw [hempty]; rfl
    rw [Client.line, if_pos hempty, hgain]
    by_cases hdata : c.data = []
    · rw [if_pos hdata]
      rfl
    · rw [if_neg hdata]
      have hpos := List.length_pos_iff.mpr hdata
      simp only [Client.weight, List.map_append, List.map_singleton, List.sum_append,
        List.sum_singleton, List.length_dropLast, List.length_nil]
      omega
  · rw [Client.line, if_neg hempty, gain]
    by_cases hevent : fieldName line = eventField
    · rw [if_pos hevent, if_neg (by rw [hevent]; decide)]
      rfl
    · by_cases hdata : fieldName line = dataField
      · rw [if_neg hevent, if_pos hdata, if_pos hdata]
        simp only [Client.weight, List.length_append, List.length_singleton]
        omega
      · rw [if_neg hevent, if_neg hdata, if_neg hdata]
        rfl

/-- The events of some lines carry what the lines add. -/
lemma weight_lines (c : Client) (ls : List (List UInt8)) :
    (ls.foldl Client.line c).weight = c.weight + (ls.map gain).sum := by
  induction ls generalizing c with
  | nil => rfl
  | cons l ls ih =>
    calc ((l :: ls).foldl Client.line c).weight = (c.line l).weight + (ls.map gain).sum := ih _
      _ = c.weight + ((l :: ls).map gain).sum := by
        rw [weight_line, List.map_cons, List.sum_cons, Nat.add_assoc]

/-- One event is no longer than what the lines of its text add. -/
lemma length_of_events_eq {text name data : List UInt8} (h : events text = [(name, data)]) :
    data.length + 1 ≤ ((lines text).map gain).sum := by
  have hweight := weight_lines ⟨[], [], []⟩ (lines text)
  rw [Client.weight, ← events, h] at hweight
  simp only [Client.weight, List.map_cons, List.map_nil, List.sum_cons, List.sum_nil,
    List.length_nil] at hweight
  omega

end EventStream
