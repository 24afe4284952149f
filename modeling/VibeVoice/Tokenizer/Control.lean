import VibeVoice.Tokenizer.Termination

/-!
Where control tokens cut a text, in `bpe.c`.

* `Handle.encodeFrom`, `encodeLoop_eq`: the loop of `vv_tokenizer_encode`, by the text that is left.
* `Handle.Frames`: two added tokens that no other one overlaps.
* `encodeFrom_append`: in front of one of the two, a text free of them is encoded by itself.
* `encodeFrom_spellOut`: texts between control tokens, and where the ids are split again.
-/

namespace VibeVoice.Tokenizer

variable {t : Handle}

/-- The loop of `vv_tokenizer_encode` on the text that is left, with the run in front of it. -/
def Handle.encodeFrom (t : Handle) (run : List UInt8) : List UInt8 → Option (List ℤ)
  | [] => t.flush run
  | b :: text =>
    match t.hit (b :: text) with
    | none => t.encodeFrom (run ++ [b]) text
    | some a =>
      if a.str = [] then none
      else (t.flush run).bind fun ids =>
        (t.encodeFrom [] (text.drop (a.str.length - 1))).map fun rest => ids ++ a.id :: rest
termination_by text => text.length
decreasing_by
  · simp
  · simp only [List.length_drop, List.length_cons]
    omega

lemma encodeLoop_eq (text : List UInt8) {pos runStart : ℕ} (ids : List ℤ) (hrun : runStart ≤ pos) :
    t.encodeLoop text pos runStart ids =
      (t.encodeFrom ((text.drop runStart).take (pos - runStart)) (text.drop pos)).map (ids ++ ·) := by
  fun_induction Handle.encodeLoop t text pos runStart ids with
  | case1 pos runStart ids hpos hhit ih =>
    have hcons := List.drop_eq_getElem_cons hpos
    rw [hcons] at hhit
    rw [ih (by omega), hcons, Handle.encodeFrom, hhit, take_run_succ hrun hpos]
  | case2 pos runStart ids hpos a hhit ha =>
    have hcons := List.drop_eq_getElem_cons hpos
    rw [hcons] at hhit
    rw [hcons, Handle.encodeFrom, hhit]
    dsimp only
    rw [if_pos ha]
    rfl
  | case3 pos runStart ids hpos a hhit ha hflush =>
    have hcons := List.drop_eq_getElem_cons hpos
    rw [hcons] at hhit
    rw [hcons, Handle.encodeFrom, hhit]
    dsimp only
    rw [if_neg ha, hflush]
    rfl
  | case4 pos runStart ids hpos a hhit ha run hflush ih =>
    have hcons := List.drop_eq_getElem_cons hpos
    have hlen := List.length_pos_iff.mpr ha
    have hdrop : (text.drop (pos + 1)).drop (a.str.length - 1) =
        text.drop (pos + a.str.length) := by
      rw [List.drop_drop]
      congr 1
      omega
    rw [hcons] at hhit
    rw [ih le_rfl, hcons, Handle.encodeFrom, hhit, Nat.sub_self, List.take_zero]
    dsimp only
    rw [if_neg ha, hflush, Option.bind_some, hdrop, Option.map_map]
    congr 1
    funext rest
    simp
  | case5 pos runStart ids hpos =>
    have hend : text.drop pos = [] := List.drop_eq_nil_of_le (not_lt.mp hpos)
    have htake : (text.drop runStart).take (pos - runStart) = text.drop runStart :=
      List.take_of_length_le (by rw [List.length_drop]; omega)
    rw [hend, htake, Handle.encodeFrom]

lemma encode_eq {text : List UInt8} (h : 0 ∉ text) : t.encode text = t.encodeFrom [] text := by
  rw [Handle.encode, cString_eq_self h, encodeLoop_eq text [] le_rfl]
  simp

/-! ### Control tokens -/

/-- Two added tokens that open and close. No added token that can be hit has a second `<`, and none
begins with one of the two but that one. -/
structure Handle.Frames (t : Handle) (o c : Added) : Prop where
  open_mem : o ∈ t.sentry
  close_mem : c ∈ t.sentry
  open_lt : o.str.head? = some 0x3C
  close_lt : c.str.head? = some 0x3C
  open_ne_close : o.str ≠ c.str
  single : ∀ a ∈ t.sentry, a.str.head? = some 0x3C → 0x3C ∉ a.str.tail
  open_longest : ∀ a ∈ t.sentry, o.str <+: a.str → a = o
  close_longest : ∀ a ∈ t.sentry, c.str <+: a.str → a = c

/-- A text without either of them. -/
def Free (o c : Added) (text : List UInt8) : Prop := ¬o.str <:+: text ∧ ¬c.str <:+: text

section Frames

variable {o c : Added} {u rest : List UInt8}

lemma Handle.Frames.symm (h : t.Frames o c) : t.Frames c o :=
  ⟨h.close_mem, h.open_mem, h.close_lt, h.open_lt, h.open_ne_close.symm, h.single,
    h.close_longest, h.open_longest⟩

lemma Handle.Frames.open_ne (h : t.Frames o c) : o.str ≠ [] := by
  intro hnil
  have hlt := h.open_lt
  rw [hnil] at hlt
  cases hlt

lemma Free.symm (h : Free o c u) : Free c o u := ⟨h.2, h.1⟩

lemma Free.sub {v : List UInt8} (h : Free o c u) (hv : v <:+: u) : Free o c v :=
  ⟨fun hin => h.1 (hin.trans hv), fun hin => h.2 (hin.trans hv)⟩

/-- What is hit at the front of a text lies in it, if a `<` stands behind it. -/
lemma hit_append (h : t.Frames o c) (hu : u ≠ []) (hrest : rest.head? = some 0x3C) :
    t.hit (u ++ rest) = t.hit u := by
  have hhead : (u ++ rest).head? = u.head? := by
    cases u with
    | nil => exact absurd rfl hu
    | cons b u => rfl
  rw [Handle.hit, Handle.hit, hhead]
  split_ifs with hlt
  · refine List.find?_congr fun a ha => ?_
    rw [Bool.eq_iff_iff, List.isPrefixOf_iff_prefix, List.isPrefixOf_iff_prefix]
    refine ⟨fun hpre => ?_, fun hpre => hpre.trans (List.prefix_append u rest)⟩
    rcases List.prefix_or_prefix_of_prefix hpre (List.prefix_append u rest) with hin | ⟨v, hv⟩
    · exact hin
    · cases v with
      | nil => exact ⟨[], by rw [← hv, List.append_nil, List.append_nil]⟩
      | cons b v =>
        -- the token would reach the `<` behind the text
        have hb : b = 0x3C := by
          rw [← hv, List.prefix_append_right_inj] at hpre
          obtain ⟨w, rfl⟩ := hpre
          exact Option.some.inj hrest
        cases u with
        | nil => exact absurd rfl hu
        | cons d u =>
          rw [List.head?_cons, Option.some.injEq] at hlt
          refine absurd ?_ (h.single a ha (by rw [← hv, ← hlt]; rfl))
          rw [← hv, hb, List.cons_append, List.tail_cons]
          exact List.mem_append_right u List.mem_cons_self
  · rfl

/-- The opening token is hit where it stands. -/
lemma hit_open (ht : t.LongestFirst) (h : t.Frames o c) (rest : List UInt8) :
    t.hit (o.str ++ rest) = some o := by
  have hne := h.open_ne
  have hhead : (o.str ++ rest).head? = some 0x3C := by
    rw [List.head?_append_of_ne_nil _ hne]
    exact h.open_lt
  rw [Handle.hit, if_pos hhead]
  have hopen : o.str.isPrefixOf (o.str ++ rest) = true :=
    List.isPrefixOf_iff_prefix.mpr (List.prefix_append _ _)
  cases hfind : t.sentry.find? fun a => a.str.isPrefixOf (o.str ++ rest) with
  | none => exact absurd hopen (List.find?_eq_none.mp hfind o h.open_mem)
  | some a =>
    obtain ⟨hpre, before, behind, hsplit, hbefore⟩ := List.find?_eq_some_iff_append.mp hfind
    have hmem : a ∈ t.sentry := List.mem_of_find?_eq_some hfind
    refine congrArg some (h.open_longest a hmem ?_)
    have hlen : o.str.length ≤ a.str.length := by
      have hin := h.open_mem
      rw [hsplit, List.mem_append, List.mem_cons] at hin
      rcases hin with hin | rfl | hin
      · have hnot := hbefore o hin
        rw [hopen] at hnot
        cases hnot
      · exact le_rfl
      · rw [Handle.LongestFirst, hsplit] at ht
        exact (List.pairwise_cons.mp (List.pairwise_append.mp ht).2.1).1 o hin
    exact List.prefix_of_prefix_length_le (List.prefix_append _ _)
      (List.isPrefixOf_iff_prefix.mp hpre) hlen

/-- In front of the opening token a text free of both is encoded by itself. -/
lemma encodeFrom_append (ht : t.LongestFirst) (h : t.Frames o c) (run rest : List UInt8)
    (hu : Free o c u) : t.encodeFrom run (u ++ (o.str ++ rest)) =
      (t.encodeFrom run u).bind fun ids =>
        (t.encodeFrom [] rest).map fun ids' => ids ++ o.id :: ids' := by
  have hne := h.open_ne
  have hhead : (o.str ++ rest).head? = some 0x3C := by
    rw [List.head?_append_of_ne_nil _ hne]
    exact h.open_lt
  fun_induction Handle.encodeFrom t run u with
  | case1 run =>
    obtain ⟨b, s, hs⟩ := List.exists_cons_of_ne_nil hne
    have hhit := hit_open ht h rest
    rw [List.nil_append, hs, List.cons_append, Handle.encodeFrom, ← List.cons_append, ← hs, hhit]
    dsimp only
    rw [if_neg hne, hs, List.length_cons, Nat.add_sub_cancel, List.drop_left]
  | case2 run b text hhit ih =>
    have hhit' := hit_append (u := b :: text) h (List.cons_ne_nil b text) hhead
    rw [hhit, List.cons_append] at hhit'
    rw [List.cons_append, Handle.encodeFrom, hhit']
    exact ih (hu.sub (List.suffix_cons b text).isInfix)
  | case3 run b text a hhit ha =>
    have hhit' := hit_append (u := b :: text) h (List.cons_ne_nil b text) hhead
    rw [hhit, List.cons_append] at hhit'
    rw [List.cons_append, Handle.encodeFrom, hhit']
    dsimp only
    rw [if_pos ha]
    rfl
  | case4 run b text a hhit ha ih =>
    have hhit' := hit_append (u := b :: text) h (List.cons_ne_nil b text) hhead
    rw [hhit, List.cons_append] at hhit'
    rw [List.cons_append, Handle.encodeFrom, hhit']
    dsimp only
    have hle : a.str.length - 1 ≤ text.length := by
      have := (hit_some hhit).2.length_le
      rw [List.length_cons] at this
      omega
    rw [if_neg ha, List.drop_append_of_le_length hle,
      ih (hu.sub ((List.drop_suffix _ _).isInfix.trans (List.suffix_cons b text).isInfix))]
    cases t.flush run with
    | none => rfl
    | some ids =>
      cases t.encodeFrom [] (text.drop (a.str.length - 1)) with
      | none => rfl
      | some ids' =>
        cases t.encodeFrom [] rest with
        | none => rfl
        | some ids'' => simp

/-- In front of either token. -/
lemma encodeFrom_control (ht : t.LongestFirst) (h : t.Frames o c) {x : Added} (hx : x = o ∨ x = c)
    (run rest : List UInt8) (hu : Free o c u) : t.encodeFrom run (u ++ (x.str ++ rest)) =
      (t.encodeFrom run u).bind fun ids =>
        (t.encodeFrom [] rest).map fun ids' => ids ++ x.id :: ids' := by
  rcases hx with rfl | rfl
  · exact encodeFrom_append ht h run rest hu
  · exact encodeFrom_append ht h.symm run rest hu.symm

/-- The ids of a run are those of entries of the vocabulary. -/
lemma mem_flush (ht : t.Loaded) {run : List UInt8} {ids : List ℤ} (hids : t.flush run = some ids)
    {i : ℤ} (hi : i ∈ ids) : ∃ e ∈ t.ventry, e.id = i := by
  rw [Handle.flush] at hids
  split at hids
  · cases hids
    cases hi
  · obtain ⟨pieces, hpieces, rfl⟩ := Option.map_eq_some_iff.mp hids
    obtain ⟨ids, hids, hi⟩ := List.mem_flatten.mp hi
    obtain ⟨piece, -, hpiece⟩ := Loop.exists_of_mapM hpieces hids
    obtain ⟨syms, -, hsyms⟩ := Option.bind_eq_some_iff.mp hpiece
    obtain ⟨all, hall, rfl⟩ := Option.map_eq_some_iff.mp hsyms
    obtain ⟨hi, hnonneg⟩ := List.mem_filter.mp hi
    obtain ⟨s, -, hs⟩ := Loop.exists_of_mapM hall hi
    rw [ht.vocabGet_eq] at hs
    cases hfind : t.ventry.find? fun e => e.str = s.text (spell piece) with
    | none =>
      rw [hfind] at hs
      obtain rfl := Option.some.inj hs
      exact absurd (of_decide_eq_true hnonneg) (by decide)
    | some e =>
      rw [hfind] at hs
      exact ⟨e, List.mem_of_find?_eq_some hfind, Option.some.inj hs⟩

/-- A text free of both tokens has no id of them. -/
lemma ne_open_of_free (ht : t.Loaded) (hcomplete : t.Complete) (hids : t.Unambiguous)
    (h : t.Frames o c) (hu : Free o c u) {run : List UInt8} {ids : List ℤ}
    (hencode : t.encodeFrom run u = some ids) : ∀ i ∈ ids, i ≠ o.id := by
  have hrun : ∀ {run ids}, t.flush run = some ids → ∀ i ∈ ids, i ≠ o.id := by
    rintro run ids hflush i hi rfl
    obtain ⟨e, he, heq⟩ := mem_flush ht hflush hi
    exact hcomplete.apart o h.open_mem e he heq.symm
  fun_induction Handle.encodeFrom t run u generalizing ids with
  | case1 run => exact hrun hencode
  | case2 run b text hhit ih => exact ih (hu.sub (List.suffix_cons b text).isInfix) hencode
  | case3 => cases hencode
  | case4 run b text a hhit ha ih =>
    obtain ⟨front, hfront, hbehind⟩ := Option.bind_eq_some_iff.mp hencode
    obtain ⟨rest, hrest, rfl⟩ := Option.map_eq_some_iff.mp hbehind
    have hin : text.drop (a.str.length - 1) <:+: b :: text :=
      (List.drop_suffix _ _).isInfix.trans (List.suffix_cons b text).isInfix
    intro i hi
    rcases List.mem_append.mp hi with hi | hi
    · exact hrun hfront i hi
    · rcases List.mem_cons.mp hi with rfl | hi
      · intro heq
        obtain ⟨hmem, hpre⟩ := hit_some hhit
        rw [hids.added_inj a hmem o h.open_mem heq] at hpre
        exact hu.1 hpre.isInfix
      · exact ih (hu.sub hin) hrest i hi

/-- The ids of the two tokens. -/
def isControl (o c : Added) (i : ℤ) : Bool := i = o.id || i = c.id

/-- Texts behind control tokens. -/
def spellOut (xs : List (Added × List UInt8)) : List UInt8 := xs.flatMap fun x => x.1.str ++ x.2

/-- Between control tokens, texts that are free of them come back. -/
theorem encodeFrom_spellOut (ht : t.Loaded) (hlongest : t.LongestFirst) (hm : t.mbucket.isSome)
    (hcomplete : t.Complete) (hids : t.Unambiguous) (h : t.Frames o c)
    {xs : List (Added × List UInt8)} (hxs : ∀ x ∈ xs, (x.1 = o ∨ x.1 = c) ∧ Free o c x.2)
    (hu : Free o c u) : ∃ ids, t.encodeFrom [] (u ++ spellOut xs) = some ids ∧
      ids.filter (isControl o c) = xs.map (fun x => x.1.id) ∧
      (ids.splitOnP (isControl o c)).map (t.decodeWrite · false) = u :: xs.map Prod.snd := by
  have halone : ∀ {v}, Free o c v → ∃ ids, t.encodeFrom [] v = some ids ∧
      (∀ i ∈ ids, isControl o c i = false) ∧ t.decodeWrite ids false = v := by
    intro v hv
    have hloop := encodeLoop_eq (t := t) v [] (le_refl 0)
    obtain ⟨out, hout⟩ := Option.isSome_iff_exists.mp
      (encodeLoop_isSome ht hm hcomplete.contents v 0 0 [])
    have hdecode := decode_encodeLoop ht hcomplete hids le_rfl hout
    rw [hout, Nat.sub_self, List.take_zero, List.drop_zero] at hloop
    obtain ⟨ids, hencode, rfl⟩ := Option.map_eq_some_iff.mp hloop.symm
    refine ⟨ids, hencode, fun i hi => ?_, hdecode⟩
    have hopen := ne_open_of_free ht hcomplete hids h hv hencode i hi
    have hclose := ne_open_of_free ht hcomplete hids h.symm hv.symm hencode i hi
    simp [isControl, hopen, hclose]
  induction xs generalizing u with
  | nil =>
    obtain ⟨ids, hencode, hfree, hdecode⟩ := halone hu
    refine ⟨ids, by simpa [spellOut] using hencode, ?_, ?_⟩
    · rw [List.filter_eq_nil_iff.mpr fun i hi => by rw [hfree i hi]; exact Bool.false_ne_true]
      rfl
    · rw [List.splitOnP_eq_singleton hfree, List.map_singleton, hdecode]
      rfl
  | cons x xs ih =>
    obtain ⟨hx, hfree⟩ := hxs x List.mem_cons_self
    obtain ⟨front, hfront, hcontrol, hdecode⟩ := halone hu
    obtain ⟨rest, hrest, hfilter, hsplit⟩ := ih (fun y hy => hxs y (List.mem_cons_of_mem x hy)) hfree
    have hsep : isControl o c x.1.id = true := by
      rcases hx with hx | hx <;> simp [isControl, hx]
    refine ⟨front ++ x.1.id :: rest, ?_, ?_, ?_⟩
    · rw [spellOut, List.flatMap_cons, List.append_assoc, ← spellOut,
        encodeFrom_control hlongest h hx [] _ hu, hfront, hrest]
      rfl
    · rw [List.filter_append, List.filter_cons_of_pos hsep, hfilter, List.map_cons,
        List.filter_eq_nil_iff.mpr fun i hi => by rw [hcontrol i hi]; exact Bool.false_ne_true,
        List.nil_append]
    · rw [List.splitOnP_append_cons_of_forall_mem hcontrol _ hsep, List.map_cons, hsplit, hdecode,
        List.map_cons]

end Frames

end VibeVoice.Tokenizer
