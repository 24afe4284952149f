import Mathlib.Data.List.DropRight
import Mathlib.Tactic

/-!
The hot words of a prompt (`vv_hotwords_join`, `vv_hotwords_join_csv`).

Texts are the bytes of C strings, without the NUL behind them, and what a `snprintf` that does not
fit leaves behind the NUL that is put back is left out.

* `joinFrom_longest`: the words that fit are joined, every one whole.
* `words_limit`: the table of words is never full.
* `words_cut`: the words of a front of a list, the last of them a part of a word perhaps.
* `joinCsv_whole_iff`: the result holds whole words exactly where no part is taken for one.
-/

namespace VibeVoice.Hotwords

/-- `VV_HOTWORDS_MAX`. -/
def maxBytes : ℕ := 1024

/-! ### The code -/

/-- The loop of `vv_hotwords_join`. -/
def joinFrom (cap : ℕ) : List UInt8 → List (List UInt8) → List UInt8
  | buf, [] => buf
  | buf, hw :: words =>
    if hw = [] then joinFrom cap buf words
    else
      let piece := (if buf = [] then [] else [0x2C, 0x20]) ++ hw
      if cap - buf.length ≤ piece.length then buf else joinFrom cap (buf ++ piece) words

/-- `vv_hotwords_join`; what it returns is the length. -/
def hotwordsJoin (words : List (List UInt8)) (cap : ℕ) : List UInt8 :=
  if cap = 0 then [] else joinFrom cap [] words

/-- A field without the blanks around it. -/
def trim (t : List UInt8) : List UInt8 := (t.dropWhile (· = 0x20)).rdropWhile (· = 0x20)

/-- The loop of `vv_hotwords_join_csv`, with room for `n` more words. -/
def tokens : ℕ → List (List UInt8) → List (List UInt8)
  | 0, _ => []
  | _, [] => []
  | n + 1, t :: fields => if trim t = [] then tokens (n + 1) fields else trim t :: tokens n fields

/-- `vv_hotwords_join_csv`. -/
def hotwordsJoinCsv (csv : List UInt8) (cap : ℕ) : List UInt8 :=
  if cap = 0 then []
  else
    let tmp := csv.take (maxBytes - 1)
    hotwordsJoin (tokens (maxBytes / 2) (tmp.splitOn 0x2C)) cap

/-! ### What it is for -/

/-- The trimmed non-empty words of a list. -/
def words (csv : List UInt8) : List (List UInt8) :=
  ((csv.splitOn 0x2C).map trim).filter (· ≠ [])

/-- Words with `", "` between them. -/
def join (ws : List (List UInt8)) : List UInt8 := List.intercalate [0x2C, 0x20] ws

/-- Whether the words have room in a buffer, with the NUL behind them. -/
def Fits (cap : ℕ) (ws : List (List UInt8)) : Prop := (join ws).length < cap

/-- The longest front of a list of words that fits. -/
structure Longest (cap : ℕ) (ws kept : List (List UInt8)) : Prop where
  isFront : kept <+: ws
  fits : Fits cap kept
  longest : ∀ kept', kept' <+: ws → Fits cap kept' → kept'.length ≤ kept.length

/-! ### Joining -/

lemma join_concat {ws : List (List UInt8)} (h : ws ≠ []) (w : List UInt8) :
    join (ws ++ [w]) = join ws ++ ([0x2C, 0x20] ++ w) := by
  induction ws with
  | nil => exact absurd rfl h
  | cons v ws ih =>
    by_cases hnil : ws = []
    · subst hnil
      simp [join, List.intercalate]
    · obtain ⟨u, ws, rfl⟩ := List.exists_cons_of_ne_nil hnil
      have ih := ih (List.cons_ne_nil u ws)
      have hcons : ∀ us, join (v :: u :: us) = v ++ ([0x2C, 0x20] ++ join (u :: us)) := by
        intro us
        simp [join, List.intercalate]
      rw [List.cons_append, List.cons_append, hcons, ← List.cons_append, ih, hcons]
      simp only [List.append_assoc]

lemma join_eq_nil {ws : List (List UInt8)} (hws : ∀ w ∈ ws, w ≠ []) : join ws = [] ↔ ws = [] := by
  constructor
  · intro h
    cases ws with
    | nil => rfl
    | cons w ws =>
      refine absurd ?_ (hws w List.mem_cons_self)
      cases ws with
      | nil => simpa [join, List.intercalate] using h
      | cons v ws => exact absurd h (by simp [join, List.intercalate])
  · rintro rfl
    rfl

/-- A piece that is joined makes the text longer. -/
lemma join_lt {ws : List (List UInt8)} {w : List UInt8} (hw : w ≠ []) :
    (join ws).length < (join (ws ++ [w])).length := by
  have hpos := List.length_pos_of_ne_nil hw
  by_cases hnil : ws = []
  · subst hnil
    simpa [join, List.intercalate] using hpos
  · rw [join_concat hnil, List.length_append, List.length_append]
    omega

lemma join_mono {ws ws' : List (List UInt8)} (hws : ∀ w ∈ ws', w ≠ []) (h : ws <+: ws') :
    (join ws).length ≤ (join ws').length := by
  obtain ⟨vs, rfl⟩ := h
  induction vs using List.reverseRecOn with
  | nil => rw [List.append_nil]
  | append_singleton vs v ih =>
    rw [← List.append_assoc] at hws ⊢
    have hv : v ≠ [] := hws v (List.mem_append_right _ (List.mem_singleton_self v))
    exact (ih fun w hw => hws w (List.mem_append_left _ hw)).trans (join_lt hv).le

/-- Words that do not fit are not followed by any that do. -/
lemma longest_stop {cap : ℕ} {done ws : List (List UInt8)} {w : List UInt8}
    (hws : ∀ v ∈ done ++ w :: ws, v ≠ []) (hfits : Fits cap done) (hstop : ¬Fits cap (done ++ [w])) :
    Longest cap (done ++ w :: ws) done where
  isFront := List.prefix_append _ _
  fits := hfits
  longest kept hkept hfit := by
    by_contra hlong
    have hnext : done ++ [w] <+: kept := by
      refine List.prefix_of_prefix_length_le ⟨ws, by simp⟩ hkept ?_
      rw [List.length_append, List.length_singleton]
      omega
    have hne : ∀ v ∈ kept, v ≠ [] := fun v hv => hws v (hkept.subset hv)
    exact hstop (lt_of_le_of_lt (join_mono hne hnext) hfit)

/-- The loop joins the words that fit. -/
lemma joinFrom_longest {cap : ℕ} {done ws : List (List UInt8)}
    (hws : ∀ w ∈ done ++ ws, w ≠ []) (hfits : Fits cap done) :
    ∃ kept, Longest cap (done ++ ws) kept ∧ joinFrom cap (join done) ws = join kept := by
  induction ws generalizing done with
  | nil =>
    rw [List.append_nil]
    exact ⟨done, ⟨List.prefix_rfl, hfits, fun kept hkept _ => hkept.length_le⟩, rfl⟩
  | cons w ws ih =>
    have hw : w ≠ [] := hws w (List.mem_append_right _ List.mem_cons_self)
    have hdone : join done = [] ↔ done = [] :=
      join_eq_nil fun v hv => hws v (List.mem_append_left _ hv)
    have hpiece : join done ++ ((if join done = [] then [] else [0x2C, 0x20]) ++ w) =
        join (done ++ [w]) := by
      split_ifs with hnil
      · rw [hdone.mp hnil]
        simp [join, List.intercalate]
      · rw [join_concat fun h => hnil (hdone.mpr h)]
    rw [joinFrom, if_neg hw]
    generalize (if join done = [] then [] else [0x2C, 0x20]) ++ w = piece at hpiece ⊢
    have hlen := congrArg List.length hpiece
    rw [List.length_append] at hlen
    dsimp only
    split_ifs with hfull
    · refine ⟨done, longest_stop hws hfits fun hfit => ?_, rfl⟩
      rw [Fits] at hfit hfits
      omega
    · rw [hpiece]
      have hws' : ∀ v ∈ done ++ [w] ++ ws, v ≠ [] := by
        rw [List.append_assoc]
        exact hws
      obtain ⟨kept, hkept, hjoin⟩ := ih hws' (by rw [Fits]; omega)
      rw [List.append_assoc] at hkept
      exact ⟨kept, hkept, hjoin⟩

lemma exists_longest {cap : ℕ} {ws : List (List UInt8)} (hws : ∀ w ∈ ws, w ≠ []) (hcap : 0 < cap) :
    ∃ kept, Longest cap ws kept ∧ joinFrom cap [] ws = join kept :=
  @joinFrom_longest cap [] ws hws hcap

/-! ### Tokens -/

/-- The table has room for all the words of its buffer. -/
lemma tokens_eq {n : ℕ} {fields : List (List UInt8)}
    (h : ((fields.map trim).filter (· ≠ [])).length ≤ n) :
    tokens n fields = (fields.map trim).filter (· ≠ []) := by
  induction fields generalizing n with
  | nil => cases n <;> rfl
  | cons t fields ih =>
    rw [List.map_cons, List.filter_cons] at h ⊢
    by_cases ht : trim t = []
    · simp only [ht, ne_eq, not_true_eq_false, decide_false, Bool.false_eq_true, if_false] at h ⊢
      cases n with
      | zero =>
        rw [List.length_eq_zero_iff.mp (Nat.le_zero.mp h)]
        rfl
      | succ n => rw [tokens, if_pos ht, ih h]
    · simp only [ht, ne_eq, not_false_eq_true, decide_true, if_true] at h ⊢
      cases n with
      | zero => exact absurd h (Nat.not_succ_le_zero _)
      | succ n =>
        rw [List.length_cons] at h
        rw [tokens, if_neg ht, ih (Nat.le_of_succ_le_succ h)]

lemma trim_ne_nil {t : List UInt8} (h : trim t ≠ []) : t ≠ [] := by
  rintro rfl
  exact h rfl

/-- A word takes a byte and a comma. -/
lemma words_length (csv : List UInt8) : 2 * (words csv).length ≤ csv.length + 1 := by
  have hfields : ∀ fields : List (List UInt8),
      2 * ((fields.map trim).filter (· ≠ [])).length ≤ (fields.map fun t => t.length + 1).sum := by
    intro fields
    induction fields with
    | nil => exact le_rfl
    | cons t fields ih =>
      rw [List.map_cons, List.filter_cons, List.map_cons, List.sum_cons]
      split_ifs with ht
      · have hpos := List.length_pos_of_ne_nil (trim_ne_nil (of_decide_eq_true ht))
        rw [List.length_cons]
        omega
      · omega
  have hsum : ((csv.splitOn 0x2C).map fun t => t.length + 1).sum = csv.length + 1 := by
    induction csv with
    | nil => rfl
    | cons c csv ih =>
      obtain ⟨t, ts, hts⟩ := List.exists_cons_of_ne_nil (List.splitOn_ne_nil 0x2C csv)
      rw [hts, List.map_cons, List.sum_cons] at ih
      rw [List.splitOn_cons_eq_if_modifyHead, hts]
      split_ifs
      · simp only [List.map_cons, List.sum_cons, List.length_nil, List.length_cons]
        omega
      · simp only [List.modifyHead_cons, List.map_cons, List.sum_cons, List.length_cons]
        omega
  exact (hfields _).trans hsum.le

/-! ### A cut list -/

/-- The fields of two parts: the last one and the first one are one field. -/
lemma splitOn_append (u v : List UInt8) :
    ∃ ts t t' ts', u.splitOn 0x2C = ts ++ [t] ∧ v.splitOn 0x2C = t' :: ts' ∧
      (u ++ v).splitOn 0x2C = ts ++ (t ++ t') :: ts' := by
  induction u with
  | nil =>
    obtain ⟨t', ts', hv⟩ := List.exists_cons_of_ne_nil (List.splitOn_ne_nil 0x2C v)
    exact ⟨[], [], t', ts', rfl, hv, hv⟩
  | cons c u ih =>
    obtain ⟨ts, t, t', ts', hu, hv, huv⟩ := ih
    rw [List.cons_append, List.splitOn_cons_eq_if_modifyHead, List.splitOn_cons_eq_if_modifyHead,
      hu, huv]
    split_ifs
    · exact ⟨[] :: ts, t, t', ts', rfl, hv, rfl⟩
    · cases ts with
      | nil => exact ⟨[], c :: t, t', ts', rfl, hv, rfl⟩
      | cons t₀ ts => exact ⟨(c :: t₀) :: ts, t, t', ts', rfl, hv, rfl⟩

/-- What a cut leaves of a word stands at its front. -/
lemma trim_append {t : List UInt8} (h : trim t ≠ []) (u : List UInt8) :
    trim t <+: trim (t ++ u) := by
  have hdrop : t.dropWhile (· = 0x20) ≠ [] := by
    intro h0
    rw [trim, h0] at h
    exact h rfl
  have hrest : (t ++ u).dropWhile (· = 0x20) = t.dropWhile (· = 0x20) ++ u := by
    rw [List.dropWhile_append, if_neg (by simpa using hdrop)]
  rw [trim, trim, hrest]
  generalize t.dropWhile (· = 0x20) = y
  rw [List.rdropWhile, List.rdropWhile, List.reverse_append, List.dropWhile_append]
  split_ifs
  · exact List.prefix_rfl
  · rw [List.reverse_append, List.reverse_reverse]
    calc (y.reverse.dropWhile fun c => c = 0x20).reverse <+: y := List.rdropWhile_prefix _ y
      _ <+: y ++ _ := List.prefix_append _ _

/-- The words that end with a comma among the bytes that are copied. -/
def closedWords (csv : List UInt8) : List (List UInt8) :=
  ((((csv.take (maxBytes - 1)).splitOn 0x2C).dropLast).map trim).filter (· ≠ [])

/-- What is copied of the field behind them. -/
def lastPart (csv : List UInt8) : List UInt8 :=
  trim (((csv.take (maxBytes - 1)).splitOn 0x2C).getLastD [])

/-- The words of the copy and of the list. -/
lemma words_cut (csv : List UInt8) :
    words (csv.take (maxBytes - 1)) =
        closedWords csv ++ (if lastPart csv = [] then [] else [lastPart csv]) ∧
      ∃ behind, words csv = closedWords csv ++ behind ∧
        (lastPart csv ≠ [] → ∃ w ws, behind = w :: ws ∧ lastPart csv <+: w) := by
  obtain ⟨ts, t, t', ts', hcopy, -, hall⟩ :=
    splitOn_append (csv.take (maxBytes - 1)) (csv.drop (maxBytes - 1))
  rw [List.take_append_drop] at hall
  have hclosed : closedWords csv = (ts.map trim).filter (· ≠ []) := by
    rw [closedWords, hcopy, List.dropLast_concat]
  have hlast : lastPart csv = trim t := by
    rw [lastPart, hcopy, List.getLastD_concat]
  constructor
  · rw [words, hcopy, List.map_append, List.filter_append, hclosed, hlast]
    by_cases ht : trim t = [] <;> simp [ht]
  · refine ⟨((trim (t ++ t') :: ts'.map trim).filter (· ≠ [])), ?_, fun hpart => ?_⟩
    · rw [words, hall, List.map_append, List.filter_append, hclosed]
      rfl
    · rw [hlast] at hpart ⊢
      have hfront := trim_append hpart t'
      have hword : trim (t ++ t') ≠ [] := by
        intro h0
        rw [h0] at hfront
        exact hpart (List.prefix_nil.mp hfront)
      exact ⟨trim (t ++ t'), _, List.filter_cons_of_pos (decide_eq_true hword), hfront⟩

lemma Longest.unique {cap : ℕ} {ws kept kept' : List (List UInt8)} (h : Longest cap ws kept)
    (h' : Longest cap ws kept') : kept = kept' := by
  have hlen : kept.length = kept'.length :=
    le_antisymm (h'.longest kept h.isFront h.fits) (h.longest kept' h'.isFront h'.fits)
  rw [List.prefix_iff_eq_take.mp h.isFront, List.prefix_iff_eq_take.mp h'.isFront, hlen]

/-- Words that do not all fit: what follows them does not matter. -/
lemma Longest.congr {cap : ℕ} {ws vs vs' kept : List (List UInt8)}
    (hvs : ∀ w ∈ ws ++ vs, w ≠ []) (hvs' : ∀ w ∈ ws ++ vs', w ≠ []) (hfull : ¬Fits cap ws)
    (h : Longest cap (ws ++ vs) kept) : Longest cap (ws ++ vs') kept := by
  have hshort : ∀ us, (∀ w ∈ ws ++ us, w ≠ []) → ∀ kept', kept' <+: ws ++ us → Fits cap kept' →
      kept' <+: ws := by
    intro us hus kept' hfront hfits
    refine List.prefix_of_prefix_length_le hfront (List.prefix_append ws us) ?_
    by_contra hlong
    have hws : ws <+: kept' :=
      List.prefix_of_prefix_length_le (List.prefix_append ws us) hfront (not_le.mp hlong).le
    exact hfull (lt_of_le_of_lt (join_mono (fun w hw => hus w (hfront.subset hw)) hws) hfits)
  have hkept := hshort vs hvs kept h.isFront h.fits
  refine ⟨hkept.trans (List.prefix_append ws vs'), h.fits, fun kept' hfront hfits => ?_⟩
  exact h.longest kept' ((hshort vs' hvs' kept' hfront hfits).trans (List.prefix_append ws vs)) hfits

/-- Words that all fit are kept. -/
lemma Longest.split {cap : ℕ} {ws vs kept : List (List UInt8)} (hfits : Fits cap ws)
    (h : Longest cap (ws ++ vs) kept) : ∃ us, us <+: vs ∧ kept = ws ++ us := by
  have hws : ws <+: kept := List.prefix_of_prefix_length_le (List.prefix_append ws vs) h.isFront
    (h.longest ws (List.prefix_append ws vs) hfits)
  obtain ⟨us, rfl⟩ := hws
  exact ⟨us, (List.prefix_append_right_inj ws).mp h.isFront, rfl⟩

lemma length_join_concat (ws : List (List UInt8)) (w : List UInt8) :
    (join (ws ++ [w])).length = (join ws).length + (if ws = [] then 0 else 2) + w.length := by
  split_ifs with hnil
  · rw [hnil]
    simp [join, List.intercalate]
  · rw [join_concat hnil, List.length_append, List.length_append, Nat.add_assoc]
    rfl

/-- A front with the same length of text is the whole. -/
lemma eq_nil_of_join {ws us : List (List UInt8)} (h : ∀ w ∈ ws ++ us, w ≠ [])
    (hlen : (join (ws ++ us)).length ≤ (join ws).length) : us = [] := by
  by_contra hnil
  obtain ⟨w, us, rfl⟩ := List.exists_cons_of_ne_nil hnil
  have hw : w ≠ [] := h w (List.mem_append_right ws List.mem_cons_self)
  have hfront : ws ++ [w] <+: ws ++ w :: us := ⟨us, by simp⟩
  exact absurd ((join_lt hw).trans_le (join_mono h hfront)) (not_lt.mpr hlen)

/-- Nothing behind words that fit is kept exactly where the next one does not fit. -/
lemma Longest.nil_iff {cap : ℕ} {ws vs us : List (List UInt8)} (hne : ∀ w ∈ ws ++ vs, w ≠ [])
    (h : Longest cap (ws ++ vs) (ws ++ us)) :
    us = [] ↔ ∀ w ∈ vs.head?, ¬Fits cap (ws ++ [w]) := by
  have hus : us <+: vs := (List.prefix_append_right_inj ws).mp h.isFront
  constructor
  · rintro rfl w hw hfits
    obtain ⟨vs, rfl⟩ := List.head?_eq_some_iff.mp hw
    have hlen := h.longest (ws ++ [w]) ⟨vs, by simp⟩ hfits
    rw [List.append_nil, List.length_append, List.length_singleton] at hlen
    omega
  · intro hstop
    by_contra hnil
    obtain ⟨w, us, rfl⟩ := List.exists_cons_of_ne_nil hnil
    obtain ⟨vs', rfl⟩ := hus
    have hfront : ws ++ [w] <+: ws ++ w :: us := ⟨us, by simp⟩
    have hne' : ∀ v ∈ ws ++ w :: us, v ≠ [] := fun v hv => hne v (h.isFront.subset hv)
    exact hstop w rfl (lt_of_le_of_lt (join_mono hne' hfront) h.fits)

/-! ### The whole -/

/-- What the joined words are to be: those of the longest front that fits, each one whole. -/
def Whole (csv : List UInt8) (cap : ℕ) (buf : List UInt8) : Prop :=
  ∃ kept, Longest cap (words csv) kept ∧ buf = join kept

/-- No part of a word is taken for one, and none is missed: the list is copied as a whole; or the
words that are closed in the copy do not all fit; or neither the part behind them nor the word it
is of would fit; or this part is the whole word, and the word behind it does not fit. -/
def Undivided (csv : List UInt8) (cap : ℕ) : Prop :=
  let next := (words csv).drop (closedWords csv).length
  csv.length < maxBytes ∨ ¬Fits cap (closedWords csv) ∨
    ((lastPart csv = [] ∨ ¬Fits cap (closedWords csv ++ [lastPart csv])) ∧
      ∀ w ∈ next.head?, ¬Fits cap (closedWords csv ++ [w])) ∨
    (next.head? = some (lastPart csv) ∧
      ∀ w ∈ next.tail.head?, ¬Fits cap (closedWords csv ++ [lastPart csv] ++ [w]))

lemma words_ne_nil (csv : List UInt8) : ∀ w ∈ words csv, w ≠ [] :=
  fun _ hw => of_decide_eq_true (List.mem_filter.mp hw).2

/-- The code joins the words of its copy that fit. -/
lemma hotwordsJoinCsv_eq (csv : List UInt8) {cap : ℕ} (hcap : 0 < cap) :
    ∃ kept, Longest cap (words (csv.take (maxBytes - 1))) kept ∧
      hotwordsJoinCsv csv cap = join kept := by
  have hroom : (words (csv.take (maxBytes - 1))).length ≤ maxBytes / 2 := by
    have hwords := words_length (csv.take (maxBytes - 1))
    have htake := List.length_take_le (maxBytes - 1) csv
    rw [maxBytes] at hwords htake ⊢
    omega
  have htokens := tokens_eq hroom
  rw [hotwordsJoinCsv, if_neg hcap.ne', hotwordsJoin, if_neg hcap.ne', htokens]
  exact exists_longest (words_ne_nil _) hcap

/-- Where the words of the copy are those of the list as far as they fit, the result is right. -/
lemma whole_of_longest {csv : List UInt8} {cap : ℕ} {kept : List (List UInt8)}
    (h : Longest cap (words csv) kept) : Whole csv cap (join kept) := ⟨kept, h, rfl⟩

/-- The closed words fit, and no part behind them does. -/
lemma whole_iff_closed {csv : List UInt8} {cap : ℕ} {behind : List (List UInt8)}
    (hall : words csv = closedWords csv ++ behind) (hcap : 0 < cap)
    (hfits : Fits cap (closedWords csv)) :
    Whole csv cap (join (closedWords csv)) ↔
      ∀ w ∈ behind.head?, ¬Fits cap (closedWords csv ++ [w]) := by
  have hne : ∀ w ∈ closedWords csv ++ behind, w ≠ [] := hall ▸ words_ne_nil csv
  obtain ⟨best, hbest, -⟩ := exists_longest hne hcap
  obtain ⟨us, hus, rfl⟩ := hbest.split hfits
  have hne' : ∀ w ∈ closedWords csv ++ us, w ≠ [] := fun w hw => hne w (hbest.isFront.subset hw)
  rw [← hbest.nil_iff hne]
  constructor
  · rintro ⟨kept, hkept, hjoin⟩
    rw [hall] at hkept
    rw [hkept.unique hbest] at hjoin
    exact eq_nil_of_join hne' (congrArg List.length hjoin).ge
  · rintro rfl
    rw [List.append_nil] at hbest
    exact ⟨closedWords csv, hall ▸ hbest, rfl⟩

/-- The closed words fit, and the part behind them does too. -/
lemma whole_iff_part {csv : List UInt8} {cap : ℕ} {w : List UInt8} {ws : List (List UInt8)}
    (hall : words csv = closedWords csv ++ w :: ws) (hfront : lastPart csv <+: w) (hcap : 0 < cap)
    (hpart : lastPart csv ≠ []) (hfits : Fits cap (closedWords csv ++ [lastPart csv])) :
    Whole csv cap (join (closedWords csv ++ [lastPart csv])) ↔
      w = lastPart csv ∧ ∀ v ∈ ws.head?, ¬Fits cap (closedWords csv ++ [lastPart csv] ++ [v]) := by
  have hne : ∀ v ∈ closedWords csv ++ w :: ws, v ≠ [] := hall ▸ words_ne_nil csv
  obtain ⟨best, hbest, -⟩ := exists_longest hne hcap
  have hword : w = lastPart csv → Whole csv cap (join (closedWords csv ++ [lastPart csv])) →
      ∀ v ∈ ws.head?, ¬Fits cap (closedWords csv ++ [lastPart csv] ++ [v]) := by
    rintro rfl ⟨kept, hkept, hjoin⟩
    rw [hall, List.append_cons] at hkept
    rw [List.append_cons] at hne
    obtain ⟨us, -, rfl⟩ := hkept.split hfits
    rw [← hkept.nil_iff hne]
    exact eq_nil_of_join (fun v hv => hne v (hkept.isFront.subset hv))
      (congrArg List.length hjoin).ge
  constructor
  · intro hwhole
    obtain ⟨kept, hkept, hjoin⟩ := id hwhole
    have hclosed : Fits cap (closedWords csv) := (join_lt hpart).trans hfits
    rw [hall] at hkept
    obtain ⟨us, hus, rfl⟩ := hkept.split hclosed
    have hlen := congrArg List.length hjoin
    cases us with
    | nil =>
      have hlonger : (join (closedWords csv)).length <
          (join (closedWords csv ++ [lastPart csv])).length := join_lt hpart
      rw [List.append_nil] at hlen
      omega
    | cons v us =>
      obtain ⟨rfl, -⟩ := List.cons_prefix_cons.mp hus
      have hmono : (join (closedWords csv ++ [v])).length ≤
          (join (closedWords csv ++ v :: us)).length :=
        join_mono (fun u hu => hne u (hkept.isFront.subset hu)) ⟨us, by simp⟩
      rw [← hlen, length_join_concat, length_join_concat] at hmono
      have hsame : v = lastPart csv := (hfront.eq_of_length_le (by omega)).symm
      exact ⟨hsame, hword hsame hwhole⟩
  · rintro ⟨rfl, hstop⟩
    rw [List.append_cons] at hbest hne
    obtain ⟨us, -, rfl⟩ := hbest.split hfits
    have hnil : us = [] := (hbest.nil_iff hne).mpr hstop
    rw [hnil, List.append_nil] at hbest
    refine ⟨_, ?_, rfl⟩
    rw [hall, List.append_cons]
    exact hbest

/-- Words are never cut, except where the copy cuts one and the part of it fits. -/
theorem joinCsv_whole_iff (csv : List UInt8) {cap : ℕ} (hcap : 0 < cap) :
    Whole csv cap (hotwordsJoinCsv csv cap) ↔ Undivided csv cap := by
  obtain ⟨kept, hkept, hcode⟩ := hotwordsJoinCsv_eq csv hcap
  rw [hcode]
  obtain ⟨hcopy, behind, hall, hpart⟩ := words_cut csv
  have hne := words_ne_nil csv
  have hne' := words_ne_nil (csv.take (maxBytes - 1))
  have hnext : (words csv).drop (closedWords csv).length = behind := by
    rw [hall, List.drop_left]
  rw [Undivided]
  simp only [hnext]
  rcases Nat.lt_or_ge csv.length maxBytes with hshort | hlong
  · rw [List.take_of_length_le (Nat.le_sub_one_of_lt hshort)] at hkept
    exact iff_of_true (whole_of_longest hkept) (Or.inl hshort)
  rw [or_iff_right (not_lt.mpr hlong)]
  by_cases hfits : Fits cap (closedWords csv)
  · rw [or_iff_right (not_not_intro hfits)]
    by_cases hcut : lastPart csv = [] ∨ ¬Fits cap (closedWords csv ++ [lastPart csv])
    · -- the part is no word of the copy, or does not fit
      have hkept' : kept = closedWords csv := by
        rw [hcopy] at hkept hne'
        obtain ⟨us, hus, rfl⟩ := hkept.split hfits
        have hnil : us = [] := by
          refine (hkept.nil_iff hne').mpr fun w hw => ?_
          rcases hcut with hempty | hstop
          · rw [if_pos hempty] at hw
            cases hw
          · by_cases hempty : lastPart csv = []
            · rw [if_pos hempty] at hw
              cases hw
            · rw [if_neg hempty] at hw
              cases hw
              exact hstop
        rw [hnil, List.append_nil]
      rw [hkept', whole_iff_closed hall hcap hfits]
      constructor
      · exact fun h => Or.inl ⟨hcut, h⟩
      · rintro (⟨-, h⟩ | ⟨hhead, -⟩)
        · exact h
        · intro w hw
          rw [hhead] at hw
          cases hw
          have hmem : lastPart csv ∈ words csv :=
            hall ▸ List.mem_append_right _ (List.mem_of_head? hhead)
          exact hcut.resolve_left (hne _ hmem)
    · obtain ⟨hpart', hfits'⟩ := not_or.mp hcut
      rw [not_not] at hfits'
      obtain ⟨w, ws, rfl, hfront⟩ := hpart hpart'
      have hkept' : kept = closedWords csv ++ [lastPart csv] := by
        rw [hcopy, if_neg hpart'] at hkept
        exact hkept.isFront.eq_of_length_le (hkept.longest _ List.prefix_rfl hfits')
      rw [hkept', whole_iff_part hall hfront hcap hpart' hfits', or_iff_right fun h => hcut h.1]
      exact and_congr_left' ⟨congrArg some, Option.some.inj⟩
  · rw [hcopy] at hkept hne'
    rw [hall] at hne
    refine iff_of_true (whole_of_longest (hall ▸ hkept.congr hne' hne hfits)) (Or.inl hfits)

theorem joinCsv_whole_iff_two :
    Whole [0x61, 0x2C, 0x20, 0x2C, 0x62, 0x20] 5
      (hotwordsJoinCsv [0x61, 0x2C, 0x20, 0x2C, 0x62, 0x20] 5) :=
  (joinCsv_whole_iff [0x61, 0x2C, 0x20, 0x2C, 0x62, 0x20] (by decide)).mpr (Or.inl (by decide))

/-- One word of 1024 bytes loses its last one. -/
theorem long_word_cut :
    ¬Whole (List.replicate 1024 0x61) 1024 (hotwordsJoinCsv (List.replicate 1024 0x61) 1024) := by
  have hlen : (hotwordsJoinCsv (List.replicate 1024 0x61) 1024).length = 1023 := by decide +kernel
  have hwords : words (List.replicate 1024 0x61) = [List.replicate 1024 0x61] := by decide +kernel
  rintro ⟨kept, hkept, hjoin⟩
  have hfront := hkept.isFront
  rw [hwords] at hfront
  rw [hjoin] at hlen
  cases kept with
  | nil => exact absurd hlen (by decide)
  | cons w ws =>
    obtain ⟨rfl, hnil⟩ := List.cons_prefix_cons.mp hfront
    rw [List.prefix_nil.mp hnil] at hlen
    exact absurd hlen (by decide +kernel)

end VibeVoice.Hotwords
