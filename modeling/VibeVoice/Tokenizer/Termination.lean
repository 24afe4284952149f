import VibeVoice.Tokenizer.RoundTrip

/-!
When encoding ends, in `bpe.c`.

Two things stop it.  An added token of no bytes matches at every `<` where no longer one does, and
the position stays where it is.  Without a `merges` member there is no table of merges, and the
first look at two neighbouring symbols goes through `NULL`.  Texts have less than `2 ^ 30` bytes, so
that every `int` has room.

* `sortAdded_sorted`: longer added tokens are tried first.
* `Handle.runs`: the text between the added tokens that have bytes.
* `encodeLoop_isSome_iff`: what stops the loop.
* `encodeLoop_length`: an id takes at least a byte.
* `encode_ends_iff`: when a text is encoded, with no more ids than bytes.
-/

namespace VibeVoice.Tokenizer

/-! ### The order of the added tokens -/

lemma insertAdded_perm (e : Added) (sorted : List Added) :
    List.Perm (insertAdded e sorted) (e :: sorted) := by
  induction sorted with
  | nil => exact .refl _
  | cons x sorted ih =>
    rw [insertAdded]
    split_ifs
    · exact (ih.cons x).trans (.swap e x sorted)
    · exact .refl _

/-- From the last entry on, an entry is put before the first that is no shorter. -/
lemma insertAdded_sorted {e : Added} {sorted : List Added}
    (h : sorted.Pairwise fun a b => a.str.length ≤ b.str.length) :
    (insertAdded e sorted).Pairwise fun a b => a.str.length ≤ b.str.length := by
  induction sorted with
  | nil => exact List.pairwise_singleton _ e
  | cons x sorted ih =>
    obtain ⟨hx, hsorted⟩ := List.pairwise_cons.mp h
    rw [insertAdded]
    split_ifs with hlt
    · refine List.pairwise_cons.mpr ⟨fun y hy => ?_, ih hsorted⟩
      rcases List.mem_cons.mp ((insertAdded_perm e sorted).mem_iff.mp hy) with rfl | hy
      · exact hlt.le
      · exact hx y hy
    · refine List.pairwise_cons.mpr ⟨fun y hy => ?_, h⟩
      rcases List.mem_cons.mp hy with rfl | hy
      · omega
      · exact (by omega : e.str.length ≤ x.str.length).trans (hx y hy)

/-- Longest first. -/
lemma sortAdded_sorted (es : List Added) :
    (sortAdded es).Pairwise fun a b => b.str.length ≤ a.str.length := by
  rw [sortAdded, List.pairwise_reverse]
  induction es using List.reverseRecOn with
  | nil => exact .nil
  | append_singleton es e ih =>
    rw [List.foldl_append]
    exact insertAdded_sorted ih

/-- The entries of `sentry` are longest first. -/
def Handle.LongestFirst (t : Handle) : Prop :=
  t.sentry.Pairwise fun a b => b.str.length ≤ a.str.length

lemma load_longestFirst {δ : Type} {env : Env δ} {dir : List UInt8} {t : Handle}
    (h : load env dir = pure t) : t.LongestFirst := by
  simp only [load, bind_eq_pure, orFault_eq_pure, pure_eq_pure] at h
  obtain ⟨_, -, root, -, _, -, _, -, -, -, _, -, _, -, ⟨_, _⟩, -, sentry, hadded, _, -, rfl⟩ := h
  rw [Handle.LongestFirst]
  dsimp only
  cases hitem : root.getObjectItem (literal "added_tokens") with
  | none =>
    rw [hitem, loadAdded, pure_eq_pure] at hadded
    rw [← hadded]
    exact .nil
  | some added =>
    rw [hitem] at hadded
    simp only [loadAdded, bind_eq_pure, pure_eq_pure] at hadded
    obtain ⟨-, -, rfl⟩ := hadded
    exact sortAdded_sorted _

/-! ### The text between added tokens -/

variable {t : Handle}

/-- The longest added token at the front, of those that have bytes. -/
def Handle.token (t : Handle) (text : List UInt8) : Option Added :=
  if text.head? = some 0x3C then t.sentry.find? fun a => a.str ≠ [] ∧ a.str <+: text else none

/-- The text is cut at these tokens, from its front; `run` is the text since the last cut. -/
def Handle.runs (t : Handle) (run : List UInt8) : List UInt8 → List (List UInt8)
  | [] => [run]
  | b :: text =>
    match t.token (b :: text) with
    | none => t.runs (run ++ [b]) text
    | some a => run :: t.runs [] (text.drop (a.str.length - 1))
termination_by text => text.length
decreasing_by
  · simp
  · simp only [List.length_drop, List.length_cons]
    omega

/-- The token that is hit is the longest, or one of no bytes where there is no other. -/
inductive HitCase (t : Handle) (text : List UInt8) : Prop
  | token (a : Added) (hhit : t.hit text = some a) (hne : a.str ≠ []) (htok : t.token text = some a)
  | empty (a : Added) (hhit : t.hit text = some a) (hmem : a ∈ t.sentry) (hstr : a.str = [])
      (hlt : text.head? = some 0x3C) (htok : t.token text = none)
  | none (hhit : t.hit text = none) (htok : t.token text = none)
      (hfree : text.head? = some 0x3C → ∀ a ∈ t.sentry, a.str ≠ [])

lemma hitCase (ht : t.LongestFirst) (text : List UInt8) : HitCase t text := by
  rw [Handle.LongestFirst] at ht
  by_cases hlt : text.head? = some 0x3C
  · cases hhit : t.hit text with
    | none =>
      have hall := hhit
      rw [Handle.hit, if_pos hlt, List.find?_eq_none] at hall
      refine .none hhit ?_ fun _ a ha hstr => hall a ha (by rw [hstr]; rfl)
      rw [Handle.token, if_pos hlt, List.find?_eq_none]
      intro a ha
      have := hall a ha
      simp only [List.isPrefixOf_iff_prefix] at this
      simp [this]
    | some a =>
      have hfind := hhit
      rw [Handle.hit, if_pos hlt] at hfind
      obtain ⟨hpre, before, after, hsplit, hbefore⟩ := List.find?_eq_some_iff_append.mp hfind
      by_cases hstr : a.str = []
      · refine .empty a hhit (List.mem_of_find?_eq_some hfind) hstr hlt ?_
        rw [Handle.token, if_pos hlt, List.find?_eq_none]
        intro e he
        rw [hsplit, List.mem_append, List.mem_cons] at he
        rcases he with he | rfl | he
        · have := hbefore e he
          simp only [Bool.not_eq_true', ← Bool.not_eq_true, List.isPrefixOf_iff_prefix] at this
          simp [this]
        · simp [hstr]
        · -- behind a token of no bytes there are only such
          rw [hsplit, List.pairwise_append, List.pairwise_cons] at ht
          have := ht.2.1.1 e he
          rw [hstr, List.length_nil, Nat.le_zero, List.length_eq_zero_iff] at this
          simp [this]
      · refine .token a hhit hstr ?_
        rw [Handle.token, if_pos hlt, List.find?_eq_some_iff_append]
        refine ⟨by simpa [hstr] using hpre, before, after, hsplit, fun e he => ?_⟩
        have := hbefore e he
        simp only [Bool.not_eq_true', ← Bool.not_eq_true, List.isPrefixOf_iff_prefix] at this
        simp [this]
  · exact .none (by rw [Handle.hit, if_neg hlt]) (by rw [Handle.token, if_neg hlt])
      fun h => absurd h hlt

lemma runs_nil (run : List UInt8) : t.runs run [] = [run] := by rw [Handle.runs]

lemma runs_none (run : List UInt8) {text : List UInt8} {b : UInt8}
    (h : t.token (b :: text) = none) : t.runs run (b :: text) = t.runs (run ++ [b]) text := by
  rw [Handle.runs, h]

lemma runs_some (run : List UInt8) {text : List UInt8} {a : Added} (h : t.token text = some a)
    (ha : a.str ≠ []) : t.runs run text = run :: t.runs [] (text.drop a.str.length) := by
  cases text with
  | nil => cases h
  | cons b text =>
    have hpos := List.length_pos_iff.mpr ha
    obtain ⟨n, hn⟩ : ∃ n, a.str.length = n + 1 := ⟨a.str.length - 1, by omega⟩
    rw [Handle.runs, h]
    dsimp only
    rw [hn, List.drop_succ_cons, Nat.add_sub_cancel]

/-- What stands since the last cut is in the first run. -/
lemma exists_run (run text : List UInt8) : ∃ r ∈ t.runs run text, run <+: r := by
  induction text generalizing run with
  | nil => exact ⟨run, by rw [runs_nil]; exact List.mem_singleton_self run, List.prefix_rfl⟩
  | cons b text ih =>
    rw [Handle.runs]
    cases t.token (b :: text) with
    | none =>
      obtain ⟨r, hr, hpre⟩ := ih (run ++ [b])
      exact ⟨r, hr, (List.prefix_append run [b]).trans hpre⟩
    | some a => exact ⟨run, List.mem_cons_self, List.prefix_rfl⟩

/-! ### The loop -/

/-- The text and its runs, where no token stops the loop. -/
structure Handle.Passes (t : Handle) (run text : List UInt8) : Prop where
  tokens : (∀ a ∈ t.sentry, a.str ≠ []) ∨ ∀ r ∈ t.runs run text, 0x3C ∉ r
  flushes : ∀ r ∈ t.runs run text, (t.flush r).isSome

/-- One more byte in front of the position. -/
lemma take_run_succ {text : List UInt8} {pos runStart : ℕ} (hrun : runStart ≤ pos)
    (hpos : pos < text.length) : (text.drop runStart).take (pos + 1 - runStart) =
      (text.drop runStart).take (pos - runStart) ++ [text[pos]] := by
  rw [show pos + 1 - runStart = pos - runStart + 1 by omega, List.take_add_one, List.getElem?_drop,
    Nat.add_sub_cancel' hrun, List.getElem?_eq_getElem hpos]
  rfl

/-- The loop ends where no token stops it and all runs are encoded. -/
lemma encodeLoop_isSome_iff (ht : t.LongestFirst) (text : List UInt8) {pos runStart : ℕ}
    (ids : List ℤ) (hrun : runStart ≤ pos)
    (hfree : (∀ a ∈ t.sentry, a.str ≠ []) ∨ 0x3C ∉ (text.drop runStart).take (pos - runStart)) :
    (t.encodeLoop text pos runStart ids).isSome ↔
      t.Passes ((text.drop runStart).take (pos - runStart)) (text.drop pos) := by
  fun_induction Handle.encodeLoop t text pos runStart ids with
  | case1 pos runStart ids hpos hhit ih =>
    have hcons := List.drop_eq_getElem_cons hpos
    cases hitCase ht (text.drop pos) with
    | token a hhit' => cases hhit.symm.trans hhit'
    | empty a hhit' => cases hhit.symm.trans hhit'
    | none _ htok hall =>
      rw [hcons] at htok hall
      have hsucc := take_run_succ hrun hpos
      have hruns := runs_none ((text.drop runStart).take (pos - runStart)) htok
      rw [ih (by omega) ?_, hsucc, hcons]
      · exact ⟨fun h => ⟨by rw [hruns]; exact h.tokens, by rw [hruns]; exact h.flushes⟩,
          fun h => ⟨by rw [← hruns]; exact h.tokens, by rw [← hruns]; exact h.flushes⟩⟩
      · by_cases hlt : text[pos] = 0x3C
        · exact .inl (hall (by rw [List.head?_cons, hlt]))
        · refine hfree.imp_right fun hfree => ?_
          rw [hsucc, List.mem_append, List.mem_singleton]
          exact fun h => h.elim hfree fun h => hlt h.symm
  | case2 pos runStart ids hpos a hhit ha =>
    refine iff_of_false (by decide) fun h => ?_
    cases hitCase ht (text.drop pos) with
    | token a' hhit' hne => exact hne (Option.some.inj (hhit'.symm.trans hhit) ▸ ha)
    | none hhit' => cases hhit.symm.trans hhit'
    | empty a' _ hmem hstr hlt htok =>
      -- the run up to the position holds the byte that stands there
      have hcons := List.drop_eq_getElem_cons hpos
      rw [hcons] at htok hlt
      have htokens := h.tokens
      rw [hcons, runs_none _ htok] at htokens
      obtain ⟨r, hr, hpre⟩ := exists_run (t := t)
        ((text.drop runStart).take (pos - runStart) ++ [text[pos]]) (text.drop (pos + 1))
      rcases htokens with hall | hnone
      · exact hall a' hmem hstr
      · refine hnone r hr (hpre.subset ?_)
        rw [List.head?_cons] at hlt
        rw [Option.some.inj hlt]
        exact List.mem_append_right _ (List.mem_singleton_self _)
  | case3 pos runStart ids hpos a hhit ha hflush =>
    refine iff_of_false (by decide) fun h => ?_
    cases hitCase ht (text.drop pos) with
    | empty a' hhit' _ hstr => exact ha (Option.some.inj (hhit.symm.trans hhit') ▸ hstr)
    | none hhit' => cases hhit.symm.trans hhit'
    | token a' _ hne htok =>
      have := h.flushes _ (by rw [runs_some _ htok hne]; exact List.mem_cons_self)
      rw [hflush] at this
      cases this
  | case4 pos runStart ids hpos a hhit ha run hflush ih =>
    cases hitCase ht (text.drop pos) with
    | empty a' hhit' _ hstr => exact absurd (Option.some.inj (hhit.symm.trans hhit') ▸ hstr) ha
    | none hhit' => cases hhit.symm.trans hhit'
    | token a' hhit' hne htok =>
      obtain rfl := Option.some.inj (hhit.symm.trans hhit')
      rw [ih le_rfl (.inr (by simp)), Nat.sub_self, List.take_zero]
      have hruns := runs_some ((text.drop runStart).take (pos - runStart)) htok hne
      rw [List.drop_drop] at hruns
      constructor
      · intro h
        refine ⟨?_, fun r hr => ?_⟩
        · rw [hruns]
          rcases hfree with hall | hnone
          · exact .inl hall
          · exact h.tokens.imp_right fun hfree r hr =>
              (List.mem_cons.mp hr).elim (fun heq => heq ▸ hnone) (hfree r)
        · rw [hruns] at hr
          rcases List.mem_cons.mp hr with rfl | hr
          · rw [hflush]
            rfl
          · exact h.flushes r hr
      · intro h
        have htokens := h.tokens
        have hflushes := h.flushes
        rw [hruns] at htokens hflushes
        exact ⟨htokens.imp_right fun h r hr => h r (List.mem_cons_of_mem _ hr),
          fun r hr => hflushes r (List.mem_cons_of_mem _ hr)⟩
  | case5 pos runStart ids hge =>
    have hend : text.drop pos = [] := List.drop_eq_nil_of_le (by omega)
    have hlast : (text.drop runStart).take (pos - runStart) = text.drop runStart :=
      List.take_of_length_le (by rw [List.length_drop]; omega)
    rw [hlast] at hfree
    rw [Option.isSome_map, hend, hlast]
    constructor
    · intro h
      refine ⟨hfree.imp_right fun hfree r hr => ?_, fun r hr => ?_⟩
      · rw [runs_nil, List.mem_singleton] at hr
        rw [hr]
        exact hfree
      · rw [runs_nil, List.mem_singleton] at hr
        rw [hr]
        exact h
    · intro h
      exact h.flushes _ (by rw [runs_nil]; exact List.mem_singleton_self _)

/-! ### Runs and pieces -/

lemma layout_length (p : ℕ) (gs : List (List UInt8)) : (layout p gs).length = gs.length := by
  induction gs generalizing p with
  | nil => rfl
  | cons g gs ih => rw [layout, List.length_cons, List.length_cons, ih]

/-- At first a piece has as many symbols as bytes. -/
lemma symsFrom_length (piece : List UInt8) : (symsFrom (spell piece) 0).length = piece.length := by
  have h := symsFrom_spell [] piece
  rw [List.nil_append, List.length_nil] at h
  rw [h, layout_length, List.length_map]

/-- A piece of one byte needs no merges; without a table every other goes through `NULL`. -/
lemma bpePiece_isSome_iff (ht : t.Loaded) (piece : List UInt8) :
    (t.bpePiece (spell piece)).isSome ↔ t.mbucket.isSome ∨ piece.length ≤ 1 := by
  have hlen := symsFrom_length piece
  constructor
  · intro h
    by_contra hnot
    obtain ⟨hm, hlong⟩ := not_or.mp hnot
    rw [Bool.not_eq_true, Option.isSome_eq_false_iff, Option.isNone_iff_eq_none] at hm
    obtain ⟨s, s', syms, hsyms⟩ : ∃ s s' syms, symsFrom (spell piece) 0 = s :: s' :: syms := by
      match hs : symsFrom (spell piece) 0 with
      | [] => rw [hs, List.length_nil] at hlen; omega
      | [_] => rw [hs, List.length_singleton] at hlen; omega
      | s :: s' :: syms => exact ⟨s, s', syms, rfl⟩
    have hrank : ∀ a b, t.mergeRank a b = none := fun a b => by
      rw [Handle.mergeRank, hm, Option.bind_none]
    have hpair : t.bestPair (spell piece) 0 (-1, none) (s :: s' :: syms) = none := by
      rw [Handle.bestPair, hrank]
    rw [Handle.bpePiece, hsyms, List.length_cons, List.length_cons, Handle.mergeLoop, hpair] at h
    cases h
  · rintro (hm | hshort)
    · exact bpePiece_isSome ht (mergeLoop_isSome (ht.mergeRank_isSome hm) (spell piece) _ _)
    · refine bpePiece_isSome ht ?_
      match hs : symsFrom (spell piece) 0 with
      | [] => rfl
      | [_] => rfl
      | _ :: _ :: _ =>
        rw [hs, List.length_cons, List.length_cons] at hlen
        omega

lemma flush_isSome_iff (ht : t.Loaded) (run : List UInt8) : (t.flush run).isSome ↔
    t.mbucket.isSome ∨ ∀ piece ∈ splitPieces run, piece.length ≤ 1 := by
  have hpieces : (∀ piece ∈ splitPieces run, (t.bpePiece (spell piece)).isSome) ↔
      t.mbucket.isSome ∨ ∀ piece ∈ splitPieces run, piece.length ≤ 1 := by
    simp only [bpePiece_isSome_iff ht]
    by_cases hm : t.mbucket.isSome <;> simp [hm]
  rw [Handle.flush]
  split_ifs with hrun
  · rw [hrun, splitPieces_nil]
    simp
  · rw [Handle.encodeTextRun, Option.isSome_map, Loop.mapM_isSome_iff, hpieces]

/-! ### As many ids as bytes -/

lemma mergeAt_length_le (i : ℕ) (syms : List Sym) : (mergeAt i syms).length ≤ syms.length := by
  fun_induction mergeAt i syms with
  | case1 => simp
  | case2 i s syms ih => simpa using ih
  | case3 => exact le_rfl

lemma mergeLoop_length_le {buf : List UInt8} {ns : ℕ} {syms out : List Sym}
    (h : t.mergeLoop buf ns syms = some out) : out.length ≤ syms.length := by
  fun_induction Handle.mergeLoop t buf ns syms with
  | case1 => cases h
  | case2 => rw [Option.some.inj h]
  | case3 ns syms r i hbest ih => exact (ih h).trans (mergeAt_length_le i syms)
  | case4 => rw [Option.some.inj h]

/-- A piece has no more ids than bytes. -/
lemma bpePiece_length_le {piece : List UInt8} {ids : List ℤ}
    (h : t.bpePiece (spell piece) = some ids) : ids.length ≤ piece.length := by
  obtain ⟨syms, hloop, hids⟩ := Option.bind_eq_some_iff.mp h
  obtain ⟨ids', hmap, rfl⟩ := Option.map_eq_some_iff.mp hids
  calc (ids'.filter (0 ≤ ·)).length
      ≤ ids'.length := List.length_filter_le _ _
    _ = syms.length := Loop.mapM_length hmap
    _ ≤ (symsFrom (spell piece) 0).length := mergeLoop_length_le hloop
    _ = piece.length := symsFrom_length piece

lemma flush_length_le {run : List UInt8} {ids : List ℤ} (h : t.flush run = some ids) :
    ids.length ≤ run.length := by
  rw [Handle.flush] at h
  split_ifs at h with hrun
  · rw [← Option.some.inj h]
    exact Nat.zero_le _
  · obtain ⟨parts, hparts, rfl⟩ := Option.map_eq_some_iff.mp h
    have hsum : ∀ (pieces : List (List UInt8)) (parts : List (List ℤ)),
        (pieces.mapM fun piece => t.bpePiece (spell piece)) = some parts →
        parts.flatten.length ≤ pieces.flatten.length := by
      intro pieces
      induction pieces with
      | nil =>
        intro parts h
        cases h
        exact le_rfl
      | cons piece pieces ih =>
        intro parts h
        simp only [List.mapM_cons, Option.bind_eq_bind, Option.bind_eq_some_iff] at h
        obtain ⟨part, hpart, parts', hparts', heq⟩ := h
        obtain rfl := Option.some.inj heq
        rw [List.flatten_cons, List.flatten_cons, List.length_append, List.length_append]
        exact Nat.add_le_add (bpePiece_length_le hpart) (ih parts' hparts')
    calc parts.flatten.length
        ≤ (splitPieces run).flatten.length := hsum _ _ hparts
      _ = run.length := by rw [splitPieces_flatten]

/-- A text adds no more ids than the bytes it is read over. -/
lemma encodeLoop_length {text : List UInt8} {pos runStart : ℕ} {ids out : List ℤ}
    (hrun : runStart ≤ pos) (h : t.encodeLoop text pos runStart ids = some out) :
    out.length ≤ ids.length + (text.length - runStart) := by
  fun_induction Handle.encodeLoop t text pos runStart ids with
  | case1 pos runStart ids hpos hhit ih => exact ih (by omega) h
  | case2 => cases h
  | case3 => cases h
  | case4 pos runStart ids hpos a hhit ha run hflush ih =>
    have hout := ih le_rfl h
    have hlen := flush_length_le hflush
    have hstr := List.length_pos_iff.mpr ha
    have hle : a.str.length ≤ text.length - pos := by
      rw [← List.length_drop]
      exact (hit_some hhit).2.length_le
    rw [List.length_take, List.length_drop] at hlen
    rw [List.length_append, List.length_append, List.length_singleton] at hout
    omega
  | case5 pos runStart ids hpos =>
    obtain ⟨run, hflush, rfl⟩ := Option.map_eq_some_iff.mp h
    have hlen := flush_length_le hflush
    rw [List.length_drop] at hlen
    rw [List.length_append]
    omega

/-! ### Encoding -/

/-- The encoder ends on a text, with no more ids than the text has bytes. -/
def Handle.Ends (t : Handle) (text : List UInt8) : Prop :=
  ∃ ids, t.encode text = some ids ∧ ids.length ≤ (cString text).length

/-- The encoder ends on a text exactly when the text is free of `<` between the added tokens that
have bytes, or all added tokens have; and there is a table of merges, or all pieces of the text are
single bytes. -/
theorem encode_ends_iff {δ : Type} {env : Env δ} {dir : List UInt8} (h : load env dir = pure t)
    (text : List UInt8) : t.Ends text ↔
      ((∀ a ∈ t.sentry, a.str ≠ []) ∨ ∀ run ∈ t.runs [] (cString text), 0x3C ∉ run) ∧
        (t.mbucket.isSome ∨ ∀ run ∈ t.runs [] (cString text), ∀ piece ∈ splitPieces run,
          piece.length ≤ 1) := by
  have hsome := encodeLoop_isSome_iff (load_longestFirst h) (cString text) [] (le_refl 0)
    (.inr (by simp))
  rw [Nat.sub_zero, List.take_zero, List.drop_zero] at hsome
  have hends : t.Ends text ↔ (t.encode text).isSome := by
    rw [Handle.Ends, Option.isSome_iff_exists]
    refine exists_congr fun ids => and_iff_left_of_imp fun hids => ?_
    simpa using encodeLoop_length le_rfl hids
  have hflush : (∀ run ∈ t.runs [] (cString text), (t.flush run).isSome) ↔
      t.mbucket.isSome ∨ ∀ run ∈ t.runs [] (cString text), ∀ piece ∈ splitPieces run,
        piece.length ≤ 1 := by
    simp only [flush_isSome_iff (load_loaded h)]
    by_cases hm : t.mbucket.isSome
    · simp [hm]
    · simp [hm]
  rw [hends, Handle.encode, hsome, ← hflush]
  exact ⟨fun h => ⟨h.tokens, h.flushes⟩, fun h => ⟨h.1, h.2⟩⟩

/-- The text of the sample is encoded. -/
theorem encode_ends_sample : ∃ t, load (sampleEnv id) (literal "m") = pure t ∧
    t.Ends (literal "ab<|im_end|>") := by
  obtain ⟨t, hload, -, -, hmbucket, hsentry⟩ := sample_load id fun b hb => hb
  refine ⟨t, hload, (encode_ends_iff hload _).mpr ⟨.inl fun a ha => ?_, .inl hmbucket⟩⟩
  rw [hsentry, List.mem_singleton] at ha
  rw [ha]
  decide

/-! ### A token of no bytes -/

/-- The text of a `tokenizer.json` with an empty added token. -/
def emptyText : List UInt8 :=
  literal ("\x7b\"model\":\x7b\"vocab\":\x7b\"a\":0\x7d,\"merges\":[\"\"]\x7d," ++
    "\"added_tokens\":[\x7b\"id\":1,\"content\":\"\"\x7d]\x7d")

/-- The tree `cJSON_Parse` makes of it. -/
def emptyModel : Json ℕ :=
  .object [(literal "vocab", .object [(literal "a", .number 0)]),
    (literal "merges", .array [.string []])]

def emptyAdded : Json ℕ :=
  .array [.object [(literal "id", .number 1), (literal "content", .string [])]]

def emptyRoot : Json ℕ :=
  .object [(literal "model", emptyModel), (literal "added_tokens", emptyAdded)]

/-- The loader's surroundings, with this file in the directory `m`. -/
def emptyEnv : Env ℕ where
  file path := if path = literal "m/tokenizer.json" then some emptyText else none
  parse text := if text = cString emptyText then some emptyRoot else none
  toInt32 := Nat.cast

/-- With it the encoder goes round for ever at the first `<`. -/
theorem empty_token_loops : ¬∀ (δ : Type) (env : Env δ) (dir : List UInt8) (t : Handle),
    load env dir = pure t → ∀ text, t.Ends text := by
  intro h
  have hfile : readFile emptyEnv (jsonPath (literal "m")) = some (cString emptyText) := by
    decide +kernel
  have hparse : emptyEnv.parse (cString emptyText) = some emptyRoot := by
    simp only [emptyEnv, if_pos]
  have hmerges : emptyModel.getObjectItem (literal "merges") = some (.array [.string []]) := rfl
  have htokens : sortAdded (emptyAdded.children.filterMap fun it => readAdded emptyEnv it.2) =
      [{ str := [], id := 1, special := true }] := rfl
  obtain ⟨t, hload, -, -, -, hsentry⟩ := load_ok hfile hparse
    (show emptyRoot.getObjectItem (literal "model") = some emptyModel from rfl)
    (show emptyModel.getObjectItem (literal "vocab") =
      some (.object [(literal "a", .number 0)]) from rfl) (List.cons_ne_nil _ _)
    (readVocab_object emptyEnv _) hmerges (List.cons_ne_nil _ _)
    (show emptyRoot.getObjectItem (literal "added_tokens") = some emptyAdded from rfl)
    (List.cons_ne_nil _ _) fun e he => by
      rw [htokens] at he
      rcases List.mem_cons.mp he with rfl | he
      · decide
      · rw [List.mem_singleton.mp he]
        decide
  rw [htokens] at hsentry
  obtain ⟨ids, hids, -⟩ := h ℕ emptyEnv _ t hload [0x3C]
  have hhit : t.hit [0x3C] = some { str := [], id := 1, special := true } := by
    rw [Handle.hit, hsentry]
    rfl
  rw [Handle.encode, cString_eq_self (by decide), Handle.encodeLoop, dif_pos (by decide),
    List.drop_zero, hhit] at hids
  cases hids

end VibeVoice.Tokenizer
