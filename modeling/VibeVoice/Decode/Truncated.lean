import VibeVoice.Decode.Postprocess
import VibeVoice.Lib.JsonText

/-!
Answers whose generation was stopped.

* `arrayTree`: the tree of an array of objects; `cJSON_Parse` is taken to give it for the text of
  the complete objects.
* `Scan.run`: the loop of `extract_json` without its way out; a text that is cut off is scanned to
  its end (`run_objects`).
* `truncated_iff`: where no brace is left behind the last complete object, exactly the complete
  objects are handed out, unless there is none and a text was begun.
-/

namespace VibeVoice.Postprocess

open JsonText

variable {δ φ : Type}

/-! ### Trees -/

/-- The tree of a value; `none` where a string is ill-formed. -/
def valueTree (num : Number → δ) : Value → Option (Json δ)
  | .string s => (decode s).map .string
  | .number x => some (.number (num x))
  | .bool b => some (.bool b)
  | .null => some .null

/-- The name and the tree of a member. -/
def memberTree (num : Number → δ) (m : Member) : Option (List UInt8 × Json δ) :=
  match decode m.key, valueTree num m.value with
  | some key, some value => some (key, value)
  | _, _ => none

/-- The tree of an object. -/
def objectTree (num : Number → δ) (o : Object) : Option (Json δ) :=
  (o.members.mapM (memberTree num)).map .object

/-- The trees of objects. -/
def objectTrees (num : Number → δ) (es : List Element) : Option (List (Json δ)) :=
  es.mapM fun e => objectTree num e.object

/-- The tree of an array of objects. -/
def arrayTree (num : Number → δ) (a : Objects) : Option (Json δ) :=
  (objectTrees num a.elements).map .array

/-! ### The scan -/

/-- The loop without its way out: `none` where it would be taken. -/
def Scan.run : Scan → List UInt8 → Option Scan
  | s, [] => some s
  | s, c :: cs => if s.closes c ∧ (s.step c).depth = 0 then none else (s.step c).run cs

lemma Scan.run_append (s : Scan) (t u : List UInt8) :
    s.run (t ++ u) = (s.run t).bind fun s' => s'.run u := by
  induction t generalizing s with
  | nil => rfl
  | cons c t ih =>
    rw [List.cons_append, Scan.run, Scan.run]
    split_ifs
    · rfl
    · exact ih _

/-- A front of a text that is run through is run through. -/
lemma Scan.run_front {s s' : Scan} {t u : List UInt8} (h : s.run u = some s') (ht : t <+: u) :
    ∃ s'', s.run t = some s'' := by
  obtain ⟨v, rfl⟩ := ht
  rw [Scan.run_append] at h
  cases hrun : s.run t with
  | none => rw [hrun] at h; cases h
  | some s'' => exact ⟨s'', rfl⟩

/-- What is run through is scanned, and then the rest. -/
lemma scan_append {s s' : Scan} {t : List UInt8} (h : s.run t = some s') (u : List UInt8) :
    scan s (t ++ u) = (t.length + (scan s' u).1, (scan s' u).2) := by
  induction t generalizing s with
  | nil =>
    cases h
    rw [List.nil_append, List.length_nil, Nat.zero_add]
  | cons c t ih =>
    rw [Scan.run] at h
    split_ifs at h with hgo
    rw [List.cons_append, scan, if_neg hgo, ih h, List.length_cons, Nat.add_right_comm]

lemma scan_of_run {s s' : Scan} {t : List UInt8} (h : s.run t = some s') :
    scan s t = (t.length, s') := by
  have hall := scan_append h []
  rwa [List.append_nil] at hall

/-- A byte the loop goes on behind leaves it inside of brackets. -/
lemma Scan.depth_step {s : Scan} {c : UInt8} (hs : 1 ≤ s.depth)
    (hgo : ¬(s.closes c ∧ (s.step c).depth = 0)) : 1 ≤ (s.step c).depth := by
  rw [Scan.step] at hgo ⊢
  split_ifs at hgo ⊢ with hesc hback hquote hstr hopen hclose
  · exact hs
  · exact hs
  · exact hs
  · exact hs
  · exact le_trans hs (Int.le_add_one le_rfl)
  · have hcloses : s.closes c = true := by
      simpa [Scan.closes, hesc, hstr] using hclose
    have hzero : s.depth - 1 ≠ 0 := fun h0 => hgo ⟨hcloses, h0⟩
    change 1 ≤ s.depth - 1
    omega
  · exact hs

/-- The loop goes on inside of brackets only. -/
lemma Scan.run_depth {s s' : Scan} {t : List UInt8} (h : s.run t = some s') (hs : 1 ≤ s.depth) :
    1 ≤ s'.depth := by
  induction t generalizing s with
  | nil =>
    cases h
    exact hs
  | cons c t ih =>
    rw [Scan.run] at h
    split_ifs at h with hgo
    exact ih h (Scan.depth_step hs hgo)

/-- Outside of the strings, at some depth. -/
abbrev outside (d : ℤ) : Scan := ⟨d, false, false⟩

/-- Inside of a string. -/
abbrev inside (d : ℤ) : Scan := ⟨d, true, false⟩

/-- A byte without a meaning of its own. -/
def Quiet (c : UInt8) : Prop :=
  c ≠ quote ∧ c ≠ backslash ∧ c ≠ openBracket ∧ c ≠ closeBracket ∧ c ≠ openBrace ∧ c ≠ closeBrace

instance (c : UInt8) : Decidable (Quiet c) := inferInstanceAs (Decidable (_ ∧ _))

/-- From one state to another on the same depth. -/
def Keeps (d : ℤ) (t : List UInt8) : Prop := (outside d).run t = some (outside d)

lemma Keeps.append {d : ℤ} {t u : List UInt8} (ht : Keeps d t) (hu : Keeps d u) :
    Keeps d (t ++ u) := by
  rw [Keeps, Scan.run_append, ht]
  exact hu

lemma keeps_quiet (d : ℤ) {t : List UInt8} (h : ∀ c ∈ t, Quiet c) : Keeps d t := by
  induction t with
  | nil => rfl
  | cons c t ih =>
    obtain ⟨hquote, hback, hopen, hclose, hopen', hclose'⟩ := h c List.mem_cons_self
    have hstep : (outside d).step c = outside d := by
      simp [Scan.step, hquote, hback, hopen, hclose, hopen', hclose']
    have hgo : ¬((outside d).closes c = true ∧ ((outside d).step c).depth = 0) := by
      simp [Scan.closes, hclose, hclose']
    rw [Keeps, Scan.run, if_neg hgo, hstep]
    exact ih fun c' hc' => h c' (List.mem_cons_of_mem c hc')

/-! ### What stands in a text -/

lemma quiet_hex (h : Hex) : Quiet h.byte := by
  obtain ⟨v, u⟩ := h
  revert v u
  decide

lemma run_piece (d : ℤ) (x : Piece) : (inside d).run x.text = some (inside d) := by
  cases x with
  | plain b hb => simp [Piece.text, Scan.run, Scan.step, Scan.closes, hb.1, hb.2.1]
  | escape e => simp [Piece.text, Scan.run, Scan.step, Scan.closes]
  | code h₁ h₂ h₃ h₄ =>
    have hhex : ∀ h : Hex, h.byte ≠ quote ∧ h.byte ≠ backslash :=
      fun h => ⟨(quiet_hex h).1, (quiet_hex h).2.1⟩
    simp [Piece.text, Scan.run, Scan.step, Scan.closes, hhex]

lemma run_body (d : ℤ) (s : List Piece) : (inside d).run (body s) = some (inside d) := by
  induction s with
  | nil => rfl
  | cons x s ih =>
    change (inside d).run (x.text ++ body s) = _
    rw [Scan.run_append, run_piece]
    exact ih

/-- The brackets in a string do not count. -/
lemma keeps_quoted (d : ℤ) (s : List Piece) : Keeps d (quoted s) := by
  change (inside d).run (body s ++ [quote]) = _
  rw [Scan.run_append, run_body]
  rfl

lemma quiet_blanks (bs : List Blank) : ∀ c ∈ blanks bs, Quiet c := by
  intro c hc
  obtain ⟨b, -, rfl⟩ := List.mem_map.mp hc
  cases b <;> decide

lemma quiet_digit (d : Fin 10) : Quiet (digit d) := by
  revert d
  decide

lemma quiet_digits (ds : List (Fin 10)) : ∀ c ∈ ds.map digit, Quiet c := by
  intro c hc
  obtain ⟨d, -, rfl⟩ := List.mem_map.mp hc
  exact quiet_digit d

lemma quiet_decimal (n : ℕ) : ∀ c ∈ decimal n, Quiet c := by
  intro c hc
  obtain ⟨hlow, hhigh⟩ := isDigit_decimal n c hc
  refine ⟨?_, ?_, ?_, ?_, ?_, ?_⟩ <;> rintro rfl
  · exact absurd hlow (by decide)
  · exact absurd hhigh (by decide)
  · exact absurd hhigh (by decide)
  · exact absurd hhigh (by decide)
  · exact absurd hhigh (by decide)
  · exact absurd hhigh (by decide)

lemma quiet_exponent (x : Option (Bool × Option Bool × Fin 10 × List (Fin 10))) :
    ∀ c ∈ exponent x, Quiet c := by
  rcases x with - | ⟨upper, sign, d, ds⟩
  · exact fun c hc => absurd hc List.not_mem_nil
  · intro c hc
    rcases List.mem_cons.mp hc with rfl | hc
    · cases upper <;> decide
    · rcases List.mem_append.mp hc with hc | hc
      · rcases sign with - | neg
        · exact absurd hc List.not_mem_nil
        · rw [List.mem_singleton.mp hc]
          cases neg <;> decide
      · exact quiet_digits (d :: ds) c hc

lemma quiet_number (x : Number) : ∀ c ∈ x.text, Quiet c := by
  intro c hc
  rw [Number.text] at hc
  rcases List.mem_append.mp hc with hc | hc
  · split_ifs at hc
    · rw [List.mem_singleton.mp hc]
      decide
    · exact absurd hc List.not_mem_nil
  rcases List.mem_append.mp hc with hc | hc
  · exact quiet_decimal _ c hc
  rcases List.mem_append.mp hc with hc | hc
  · split_ifs at hc
    · exact absurd hc List.not_mem_nil
    · rcases List.mem_cons.mp hc with rfl | hc
      · decide
      · exact quiet_digits _ c hc
  · exact quiet_exponent _ c hc

lemma keeps_value (d : ℤ) (v : Value) : Keeps d v.text := by
  cases v with
  | string s => exact keeps_quoted d s
  | number x => exact keeps_quiet d (quiet_number x)
  | bool b => cases b <;> exact keeps_quiet d (List.forall_iff_forall_mem.mp (by decide))
  | null => exact keeps_quiet d (List.forall_iff_forall_mem.mp (by decide))

lemma keeps_member (d : ℤ) (m : Member) : Keeps d m.text := by
  have hblanks : ∀ bs, Keeps d (blanks bs) := fun bs => keeps_quiet d (quiet_blanks bs)
  have hcolon : Keeps d [0x3A] := keeps_quiet d (List.forall_iff_forall_mem.mp (by decide))
  exact (hblanks _).append ((keeps_quoted d _).append ((hblanks _).append
    (hcolon.append ((hblanks _).append ((keeps_value d _).append (hblanks _))))))

lemma keeps_commas (d : ℤ) {ts : List (List UInt8)} (h : ∀ t ∈ ts, Keeps d t) :
    Keeps d (commas ts) := by
  have hcomma : Keeps d [0x2C] := keeps_quiet d (List.forall_iff_forall_mem.mp (by decide))
  induction ts with
  | nil => rfl
  | cons t ts ih =>
    have hts : Keeps d (commas ts) := ih fun u hu => h u (List.mem_cons_of_mem t hu)
    by_cases hnil : ts = []
    · rw [hnil]
      exact h t List.mem_cons_self
    · rw [commas_cons hnil]
      exact (h t List.mem_cons_self).append (hcomma.append hts)

/-- An object is left on the depth it is entered on. -/
lemma keeps_object {d : ℤ} (hd : 1 ≤ d) (o : Object) : Keeps d o.text := by
  have hinside : Keeps (d + 1) o.inside := by
    rw [Object.inside]
    split_ifs
    · exact keeps_quiet _ (quiet_blanks _)
    · refine keeps_commas _ fun t ht => ?_
      obtain ⟨m, -, rfl⟩ := List.mem_map.mp ht
      exact keeps_member _ m
  have hopen : (outside d).run [openBrace] = some (outside (d + 1)) := rfl
  have hclose : (outside (d + 1)).run [closeBrace] = some (outside d) := by
    have hstep : (outside (d + 1)).step closeBrace = outside d :=
      congrArg outside (add_sub_cancel_right d 1)
    rw [Scan.run, hstep, if_neg fun h => by have hzero : d = 0 := h.2; omega]
    rfl
  change (outside d).run ([openBrace] ++ (o.inside ++ [closeBrace])) = _
  rw [Scan.run_append, hopen, Option.bind_some, Scan.run_append, hinside]
  exact hclose

lemma keeps_element {d : ℤ} (hd : 1 ≤ d) (e : Element) : Keeps d e.text := by
  have hblanks : ∀ bs, Keeps d (blanks bs) := fun bs => keeps_quiet d (quiet_blanks bs)
  exact ((hblanks _).append (keeps_object hd e.object)).append (hblanks _)

/-- In front of its last bracket an array is not left. -/
lemma run_objects (a : Objects) :
    (⟨0, false, false⟩ : Scan).run (openBracket :: a.inside) = some (outside 1) := by
  change (outside 1).run a.inside = _
  rw [Objects.inside]
  split_ifs
  · exact keeps_quiet 1 (quiet_blanks _)
  · refine keeps_commas 1 fun t ht => ?_
    obtain ⟨e, -, rfl⟩ := List.mem_map.mp ht
    exact keeps_element le_rfl e

/-! ### Cut texts -/

/-- The objects that are complete in the first `k` bytes of an array. -/
def complete (a : Objects) (k : ℕ) : List Element := within a.elements (k - 1)

/-- What stands behind the last of them. -/
def leftover (a : Objects) (k : ℕ) : List UInt8 :=
  (a.text.take k).drop ((closed (complete a k)).inside.length + 1)

/-- Whether a text begins in one of the chunks of an answer. -/
def Begun (text : List UInt8) : Prop :=
  ∃ s ∈ text.tails, s.head? = some openBrace ∧
    ∃ v, findKey (1 + (s.tail.takeWhile (· ≠ openBrace)).length) s kText = some (quote :: v)

lemma objectTrees_trim (num : Number → δ) (es : List Element) :
    objectTrees num (trim es) = objectTrees num es := by
  have hmap : ∀ es, objectTrees num es = (es.map Element.object).mapM (objectTree num) := by
    intro es
    rw [objectTrees, List.mapM_map]
    rfl
  rw [hmap, hmap, map_object_trim]

/-- The trees of a front of the objects stand in front. -/
lemma objectTrees_front {num : Number → δ} {es fs : List Element} {items : List (Json δ)}
    (h : objectTrees num fs = some items) (hes : es <+: fs) :
    objectTrees num es = some (items.take es.length) := by
  obtain ⟨gs, rfl⟩ := hes
  induction es generalizing items with
  | nil => rfl
  | cons e es ih =>
    rw [objectTrees, List.cons_append, List.mapM_cons] at h
    obtain ⟨item, hitem, h⟩ := Option.bind_eq_some_iff.mp h
    obtain ⟨rest, hrest, h⟩ := Option.bind_eq_some_iff.mp h
    cases h
    rw [objectTrees, List.mapM_cons, hitem]
    change (objectTrees num es >>= fun rest => pure (item :: rest)) = _
    rw [ih hrest]
    rfl

lemma throughBrace_append (t : List UInt8) {u : List UInt8} (h : closeBrace ∉ u) :
    throughBrace (t ++ [closeBrace] ++ u) = t ++ [closeBrace] := by
  have hu : ∀ c ∈ u.reverse, (decide (c ≠ closeBrace)) = true := by
    intro c hc
    refine decide_eq_true fun h0 => h ?_
    rw [← h0]
    exact List.mem_reverse.mp hc
  rw [throughBrace, List.reverse_append, List.dropWhile_append_of_pos hu]
  simp

lemma throughBrace_of_notMem {t : List UInt8} (h : closeBrace ∉ t) : throughBrace t = [] := by
  have ht : ∀ c ∈ t.reverse, (decide (c ≠ closeBrace)) = true := by
    intro c hc
    refine decide_eq_true fun h0 => h ?_
    rw [← h0]
    exact List.mem_reverse.mp hc
  rw [throughBrace, List.dropWhile_eq_nil_iff.mpr ht]
  rfl

/-- A cut array is scanned to its end. -/
lemma extractJson_cut {a : Objects} {k : ℕ} (hpos : 0 < k) (hk : k < a.text.length)
    (hfence : Search.find (literal "```json") (a.text.take k) = none) :
    extractJson (a.text.take k) =
      if throughBrace (a.text.take k) = [] then none
      else some (throughBrace (a.text.take k) ++ [closeBracket]) := by
  obtain ⟨n, rfl⟩ := Nat.exists_eq_succ_of_ne_zero hpos.ne'
  rw [extractJson, hfence]
  have hcut : a.text.take (n + 1) = openBracket :: a.inside.take n := by
    rw [Objects.text, List.length_cons, List.length_append, List.length_singleton] at hk
    rw [Objects.text, List.take_succ_cons, List.take_append_of_le_length (by omega)]
  obtain ⟨s, hs⟩ := Scan.run_front (run_objects a)
    (List.cons_prefix_cons.mpr ⟨rfl, List.take_prefix n a.inside⟩)
  have hdepth : s.depth ≠ 0 := by
    have hopen : (outside 1).run (a.inside.take n) = some s := hs
    have hlow := Scan.run_depth hopen le_rfl
    omega
  have hstart : (openBracket :: a.inside.take n).dropWhile
      (fun c => c ≠ openBracket ∧ c ≠ openBrace) = openBracket :: a.inside.take n := rfl
  rw [Nat.succ_eq_add_one, hcut]
  simp only [hstart, scan_of_run hs, if_neg hdepth, List.take_length, if_true]

/-- The complete objects stand in front of what is left. -/
lemma cut_split (a : Objects) {k : ℕ} (hpos : 0 < k) (hk : k < a.text.length) :
    a.text.take k = openBracket :: ((closed (complete a k)).inside ++ leftover a k) := by
  have hcut : a.text.take k = openBracket :: a.inside.take (k - 1) := by
    obtain ⟨n, rfl⟩ := Nat.exists_eq_succ_of_ne_zero hpos.ne'
    rw [Objects.text, List.length_cons, List.length_append, List.length_singleton] at hk
    rw [Nat.succ_eq_add_one, Objects.text, List.take_succ_cons,
      List.take_append_of_le_length (by omega), Nat.add_sub_cancel]
  have hfront : (closed (complete a k)).inside <+: a.inside.take (k - 1) := by
    by_cases hnone : complete a k = []
    · rw [hnone]
      exact List.nil_prefix
    · have hes : a.elements ≠ [] := by
        intro h0
        rw [complete, h0] at hnone
        exact hnone rfl
      have hclosed : (closed (complete a k)).inside =
          commas ((trim (complete a k)).map Element.text) :=
        if_neg fun h0 => hnone (trim_eq_nil.mp h0)
      rw [hclosed, Objects.inside, if_neg hes]
      exact (within_text hnone).1
  obtain ⟨r, hr⟩ := hfront
  rw [leftover, hcut, ← hr, List.drop_succ_cons, List.drop_left]

/-- Where no brace is left behind them, the JSON of a cut array is that of its complete objects. -/
lemma extractJson_complete {a : Objects} {k : ℕ} (hk : k < a.text.length)
    (hfence : Search.find (literal "```json") (a.text.take k) = none)
    (hbrace : closeBrace ∉ leftover a k) :
    extractJson (a.text.take k) =
      if complete a k = [] then none else some (closed (complete a k)).text := by
  rcases Nat.eq_zero_or_pos k with rfl | hpos
  · have hnone : complete a 0 = [] := by
      rw [complete]
      cases a.elements with
      | nil => rfl
      | cons e es => exact if_neg (by simp [Element.core, Object.text])
    rw [if_pos hnone]
    rfl
  · rw [extractJson_cut hpos hk hfence, cut_split a hpos hk]
    by_cases hnone : complete a k = []
    · have hno : closeBrace ∉ openBracket :: ((closed (complete a k)).inside ++ leftover a k) := by
        rw [hnone]
        exact List.not_mem_cons_of_ne_of_not_mem (by decide) hbrace
      rw [if_pos (throughBrace_of_notMem hno), if_pos hnone]
    · have hclosed : (closed (complete a k)).inside =
          commas ((trim (complete a k)).map Element.text) :=
        if_neg fun h0 => hnone (trim_eq_nil.mp h0)
      obtain ⟨t, ht⟩ := (within_text hnone).2
      have hkept : throughBrace (openBracket :: ((closed (complete a k)).inside ++ leftover a k)) =
          openBracket :: (closed (complete a k)).inside := by
        rw [hclosed, complete, ← ht]
        exact throughBrace_append (openBracket :: t) hbrace
      rw [hkept, if_neg (List.cons_ne_nil _ _), if_neg hnone]
      rfl

lemma recoverSegments_eq_nil (conv : Conversions δ φ) (text : List UInt8) :
    recoverSegments conv text = [] ↔ ¬Begun text := by
  have hnone : ∀ s, recoverSegment conv s = none ↔
      ¬∃ v, findKey (1 + (s.tail.takeWhile (· ≠ openBrace)).length) s kText = some (quote :: v) := by
    intro s
    rw [recoverSegment]
    split
    · next v hv => exact iff_of_false (Option.some_ne_none _) (not_not_intro ⟨v, hv⟩)
    · next hv => exact iff_of_true rfl fun ⟨v, h⟩ => hv v h
  rw [recoverSegments, List.filterMap_eq_nil_iff, Begun]
  constructor
  · rintro h ⟨s, hs, hopen, hbegun⟩
    exact (hnone s).mp (h s (List.mem_filter.mpr ⟨hs, decide_eq_true hopen⟩)) hbegun
  · intro h s hs
    obtain ⟨hs, hopen⟩ := List.mem_filter.mp hs
    exact (hnone s).mpr fun hbegun => h ⟨s, hs, of_decide_eq_true hopen, hbegun⟩

/-- An answer that does not parse is recovered. -/
lemma segments_recovered (conv : Conversions δ φ) {parse : List UInt8 → Option (Json δ)}
    {text : List UInt8} (h : (extractJson text).bind parse = none) :
    (postprocessText conv parse text).segments = recoverSegments conv text := by
  rw [postprocessText, h]
  dsimp only
  split
  · next hnil => exact hnil.symm
  · rfl

/-- The generation of an array is stopped behind `k` bytes.  Where neither a fence is found in the
text nor a brace behind its last complete object, exactly the complete objects are handed out,
except that a partial object with a text is made a segment when it is the first one. -/
theorem truncated_iff (conv : Conversions δ φ) (parse : List UInt8 → Option (Json δ))
    (num : Number → δ) {a : Objects} {items : List (Json δ)} {k : ℕ}
    (hitems : arrayTree num a = some (.array items)) (hk : k < a.text.length)
    (hparse : parse (closed (complete a k)).text = arrayTree num (closed (complete a k)))
    (hfence : Search.find (literal "```json") (a.text.take k) = none)
    (hbrace : closeBrace ∉ leftover a k) :
    (postprocessText conv parse (a.text.take k)).segments =
        treeSegments conv (.array (items.take (complete a k).length)) ↔
      complete a k ≠ [] ∨ ¬Begun (a.text.take k) := by
  have hdone : arrayTree num (closed (complete a k)) =
      some (.array (items.take (complete a k).length)) := by
    obtain ⟨trees, htrees, hall⟩ := Option.map_eq_some_iff.mp hitems
    cases hall
    have hfront := objectTrees_front htrees (within_front a.elements (k - 1))
    rw [arrayTree, closed, objectTrees_trim, complete, hfront]
    rfl
  have hjson := extractJson_complete hk hfence hbrace
  by_cases hnone : complete a k = []
  · have hrefused : (extractJson (a.text.take k)).bind parse = none := by
      rw [hjson, if_pos hnone]
      rfl
    have hempty : treeSegments conv (.array (items.take (complete a k).length)) = [] := by
      rw [hnone]
      rfl
    calc (postprocessText conv parse (a.text.take k)).segments =
          treeSegments conv (.array (items.take (complete a k).length))
        ↔ recoverSegments conv (a.text.take k) = [] := by
          rw [segments_recovered conv hrefused, hempty]
      _ ↔ ¬Begun (a.text.take k) := recoverSegments_eq_nil conv _
      _ ↔ complete a k ≠ [] ∨ ¬Begun (a.text.take k) := (or_iff_right (not_not_intro hnone)).symm
  · rw [postprocessText, hjson, if_neg hnone, Option.bind_some, hparse, hdone]
    exact iff_of_true rfl (Or.inl hnone)

/-- A string of the bytes that stand for themselves. -/
def plains (s : List UInt8) : List Piece :=
  s.filterMap fun b => if h : Plain b then some (.plain b h) else none

/-- An array of objects with one text each. -/
def contents (ts : List (List UInt8)) : Objects :=
  ⟨ts.map fun t => ⟨[], ⟨[⟨[], plains (literal "Content"), [], [], .string (plains t), []⟩], []⟩,
    []⟩, []⟩

/-- The tree of such an array. -/
def contentTree (ts : List (List UInt8)) : Json ℤ :=
  .array (ts.map fun t => .object [(literal "Content", .string t)])

/-- Integers for every number. -/
def whole : Conversions ℤ ℤ := ⟨0, id, id, fun _ => 0⟩

theorem truncated_iff_second :
    (postprocessText whole (fun _ => some (contentTree [literal "a"]))
      ((contents [literal "a", literal "bcd"]).text.take 31)).segments =
        treeSegments whole (contentTree [literal "a"]) :=
  have htree : arrayTree (fun _ => 0) (contents [literal "a", literal "bcd"]) =
      some (contentTree [literal "a", literal "bcd"]) := rfl
  (truncated_iff whole (fun _ => some (contentTree [literal "a"])) (fun _ => 0) (k := 31) htree
    (by decide +kernel) rfl (by decide +kernel) (by decide +kernel)).mpr
    (Or.inl (List.cons_ne_nil _ _))

/-- A brace in the text of the partial object brings it into the segments, and so does a cut in the
first object. -/
theorem truncated_partial :
    (complete (contents [literal "a", literal "\x7d b"]) 31).length = 1 ∧
    (postprocessText whole (fun _ => none)
      ((contents [literal "a", literal "\x7d b"]).text.take 31)).segments ≠
        treeSegments whole (contentTree [literal "a"]) ∧
    complete (contents [literal "hello"]) 17 = [] ∧
    (postprocessText whole (fun _ => none)
      ((contents [literal "hello"]).text.take 17)).segments ≠
        treeSegments whole (contentTree []) := by
  refine ⟨by decide +kernel, by decide +kernel, rfl, by decide +kernel⟩

end VibeVoice.Postprocess
