import VibeVoice.Tokenizer.Alphabet
import VibeVoice.Tokenizer.Load

/-!
Encoding and decoding of `bpe.c`.

A run that reads through `NULL` or never ends is `none`.  Sizes and counts are natural numbers,
and a block that is not empty is always found.

* `Handle.encode`, `Handle.decodeWrite`: the two directions.
* `spell`, `layout`: the symbols of a piece, as the groups of bytes they stand for.
* `mergeLoop_layout`: merging only joins neighbouring groups, and ends.
-/

namespace VibeVoice.Tokenizer

/-! ### One piece -/

/-- `sym_t`: a symbol is a range of the buffer. -/
structure Sym where
  start : ℕ
  len : ℕ

/-- `buf + start`, `len` bytes. -/
def Sym.text (buf : List UInt8) (s : Sym) : List UInt8 := (buf.drop s.start).take s.len

/-- One symbol per character, from `p` on. -/
def symsFrom (buf : List UInt8) (p : ℕ) : List Sym :=
  if _hp : p < buf.length then
    let a := (utf8Get (buf.drop p)).2
    ⟨p, a⟩ :: symsFrom buf (p + a)
  else []
termination_by buf.length - p
decreasing_by
  have := utf8Get_adv_pos (buf.drop p)
  omega

/-- The loop over neighbours, from the `i`-th on: `best_rank` and `best_i`. -/
def Handle.bestPair (t : Handle) (buf : List UInt8) :
    ℕ → ℤ × Option ℕ → List Sym → Option (ℤ × Option ℕ)
  | i, best, s :: s' :: syms =>
    match t.mergeRank (s.text buf) (s'.text buf) with
    | none => none
    | some r =>
      t.bestPair buf (i + 1) (if 0 ≤ r ∧ (best.1 < 0 ∨ r < best.1) then (r, some i) else best)
        (s' :: syms)
  | _, best, _ => some best

/-- Symbol `i` takes its right neighbour, and those behind it move up. -/
def mergeAt : ℕ → List Sym → List Sym
  | 0, s :: s' :: syms => ⟨s.start, s.len + s'.len⟩ :: syms
  | i + 1, s :: syms => s :: mergeAt i syms
  | _, syms => syms

/-- `while (ns > 1)`. -/
def Handle.mergeLoop (t : Handle) (buf : List UInt8) : ℕ → List Sym → Option (List Sym)
  | ns + 2, syms =>
    match t.bestPair buf 0 (-1, none) syms with
    | none => none
    | some (_, none) => some syms
    | some (_, some i) => t.mergeLoop buf (ns + 1) (mergeAt i syms)
  | _, syms => some syms

/-- `bpe_piece`: a symbol that is in no entry is left out. -/
def Handle.bpePiece (t : Handle) (buf : List UInt8) : Option (List ℤ) :=
  (t.mergeLoop buf (symsFrom buf 0).length (symsFrom buf 0)).bind fun syms =>
    (syms.mapM fun s => t.vocabGet (s.text buf)).map fun ids => ids.filter (0 ≤ ·)

/-! ### Texts -/

/-- `enc`: the bytes of a piece in the byte-level alphabet. -/
def spell (piece : List UInt8) : List UInt8 := piece.flatMap byteSymbol

/-- `encode_text_run`. -/
def Handle.encodeTextRun (t : Handle) (text : List UInt8) : Option (List ℤ) :=
  ((splitPieces text).mapM fun piece => t.bpePiece (spell piece)).map List.flatten

/-- The added token tried first that stands at the front; none is tried but at a `<`. -/
def Handle.hit (t : Handle) (text : List UInt8) : Option Added :=
  if text.head? = some 0x3C then t.sentry.find? fun a => a.str.isPrefixOf text else none

/-- `if (pos > run_start)`. -/
def Handle.flush (t : Handle) (run : List UInt8) : Option (List ℤ) :=
  if run = [] then some [] else t.encodeTextRun run

/-- `while (pos < len)`; with a token of no bytes `pos` stays where it is for ever. -/
def Handle.encodeLoop (t : Handle) (text : List UInt8) (pos runStart : ℕ) (ids : List ℤ) :
    Option (List ℤ) :=
  if _hpos : pos < text.length then
    match t.hit (text.drop pos) with
    | none => t.encodeLoop text (pos + 1) runStart ids
    | some a =>
      if _ha : a.str = [] then none
      else
        match t.flush ((text.drop runStart).take (pos - runStart)) with
        | none => none
        | some run =>
          t.encodeLoop text (pos + a.str.length) (pos + a.str.length) (ids ++ run ++ [a.id])
  else (t.flush (text.drop runStart)).map (ids ++ ·)
termination_by text.length - pos
decreasing_by
  · omega
  · have := List.length_pos_iff.mpr _ha
    omega

/-- `vv_tokenizer_encode`. -/
def Handle.encode (t : Handle) (text : List UInt8) : Option (List ℤ) :=
  t.encodeLoop (cString text) 0 0 []

/-! ### Decoding -/

/-- The loop over the characters of a token. -/
def decodeBytes (tok : List UInt8) : List UInt8 :=
  if _htok : tok = [] then []
  else
    let r := utf8Get tok
    let b := cpToByte r.1
    (if 0 ≤ b then [UInt8.ofNat b.toNat] else utf8Put r.1) ++ decodeBytes (tok.drop r.2)
termination_by tok.length
decreasing_by
  have := utf8Get_adv_pos tok
  have := List.length_pos_iff.mpr _htok
  rw [List.length_drop]
  omega

/-- One turn of the loop of `decode_write`. -/
def Handle.decodeToken (t : Handle) (skipSpecial : Bool) (id : ℤ) : List UInt8 :=
  if id < 0 then []
  else
    match t.idToToken.getD id.toNat none with
    | none => []
    | some tok =>
      match t.sentry.find? fun a => a.id = id with
      | some a => if skipSpecial && a.special then [] else tok
      | none => decodeBytes tok

/-- `decode_write`. -/
def Handle.decodeWrite (t : Handle) (ids : List ℤ) (skipSpecial : Bool) : List UInt8 :=
  ids.flatMap (t.decodeToken skipSpecial)

/-! ### Groups of bytes -/

@[simp] lemma spell_nil : spell [] = [] := rfl

lemma spell_cons (b : UInt8) (bs : List UInt8) : spell (b :: bs) = byteSymbol b ++ spell bs :=
  List.flatMap_cons

lemma spell_append (bs bs' : List UInt8) : spell (bs ++ bs') = spell bs ++ spell bs' :=
  List.flatMap_append

/-- The symbols of groups of bytes whose spellings stand one behind another from `p` on. -/
def layout : ℕ → List (List UInt8) → List Sym
  | _, [] => []
  | p, g :: gs => ⟨p, (spell g).length⟩ :: layout (p + (spell g).length) gs

/-- Group `i` takes its right neighbour. -/
def joinAt : ℕ → List (List UInt8) → List (List UInt8)
  | 0, g :: g' :: gs => (g ++ g') :: gs
  | i + 1, g :: gs => g :: joinAt i gs
  | _, gs => gs

lemma joinAt_flatten (i : ℕ) (gs : List (List UInt8)) : (joinAt i gs).flatten = gs.flatten := by
  fun_induction joinAt i gs with
  | case1 => simp
  | case2 i g gs ih => rw [List.flatten_cons, List.flatten_cons, ih]
  | case3 => rfl

/-- A group that is new is two neighbours in one. -/
lemma mem_joinAt {i : ℕ} {gs : List (List UInt8)} {g : List UInt8} (h : g ∈ joinAt i gs) :
    g ∈ gs ∨ ∃ a b, gs[i]? = some a ∧ gs[i + 1]? = some b ∧ g = a ++ b := by
  fun_induction joinAt i gs with
  | case1 a b gs =>
    rcases List.mem_cons.mp h with rfl | h
    · exact .inr ⟨a, b, rfl, rfl, rfl⟩
    · exact .inl (List.mem_cons_of_mem _ (List.mem_cons_of_mem _ h))
  | case2 i a gs ih =>
    rcases List.mem_cons.mp h with rfl | h
    · exact .inl List.mem_cons_self
    · exact (ih h).imp_left (List.mem_cons_of_mem _)
  | case3 => exact .inl h

/-- The symbols of groups, merged, are those of the joined groups. -/
lemma mergeAt_layout (i p : ℕ) (gs : List (List UInt8)) :
    mergeAt i (layout p gs) = layout p (joinAt i gs) := by
  fun_induction joinAt i gs generalizing p with
  | case1 g g' gs =>
    rw [layout, layout, layout, mergeAt, spell_append, List.length_append, Nat.add_assoc]
  | case2 i g gs ih => rw [layout, layout, mergeAt, ih]
  | case3 i gs h₀ h₁ =>
    match i, gs with
    | 0, [] => rfl
    | 0, [_] => rfl
    | _ + 1, [] => rfl
    | 0, g :: g' :: gs => exact absurd rfl (h₀ g g' gs rfl)
    | i + 1, g :: gs => exact absurd rfl (h₁ i g gs rfl)

/-- A symbol's text is the spelling of its group. -/
lemma text_layout {buf : List UInt8} {p : ℕ} {gs : List (List UInt8)}
    (h : buf.drop p = spell gs.flatten) : (layout p gs).map (Sym.text buf) = gs.map spell := by
  induction gs generalizing p with
  | nil => rfl
  | cons g gs ih =>
    rw [List.flatten_cons, spell_append] at h
    have hrest : buf.drop (p + (spell g).length) = spell gs.flatten := by
      rw [← List.drop_drop, h, List.drop_left]
    rw [layout, List.map_cons, List.map_cons, ih hrest, Sym.text]
    dsimp only
    rw [h, List.take_left]

/-- At first every byte is a symbol of its own. -/
lemma symsFrom_spell (before piece : List UInt8) :
    symsFrom (before ++ spell piece) before.length =
      layout before.length (piece.map fun b => [b]) := by
  induction piece generalizing before with
  | nil =>
    rw [symsFrom, dif_neg (by simp)]
    rfl
  | cons b piece ih =>
    have hpos := List.length_pos_iff.mpr (byteSymbol_ne_nil b)
    have ih' := ih (before ++ byteSymbol b)
    rw [List.length_append, List.append_assoc] at ih'
    rw [symsFrom, spell_cons, dif_pos (by simp only [List.length_append]; omega), List.drop_left,
      utf8Get_byteSymbol]
    dsimp only
    rw [ih', List.map_cons, layout, spell_cons, spell_nil, List.append_nil]

/-! ### Merging -/

variable {t : Handle} {buf : List UInt8}

/-- The pair chosen is one of the pairs seen, and its rank is its merge's. -/
lemma bestPair_some {i j : ℕ} {best : ℤ × Option ℕ} {syms : List Sym} {r : ℤ}
    (h : t.bestPair buf i best syms = some (r, some j)) :
    best = (r, some j) ∨ ∃ k s s', j = i + k ∧ syms[k]? = some s ∧ syms[k + 1]? = some s' ∧
      0 ≤ r ∧ t.mergeRank (s.text buf) (s'.text buf) = some r := by
  fun_induction Handle.bestPair t buf i best syms with
  | case1 => cases h
  | case2 i best s s' syms r' hrank ih =>
    rcases ih h with heq | ⟨k, u, u', rfl, hu, hu', hr, hrank'⟩
    · split_ifs at heq with hbetter
      · obtain ⟨rfl, hj⟩ := Prod.mk.inj heq
        exact .inr ⟨0, s, s', (Option.some.inj hj).symm, rfl, rfl, hbetter.1, hrank⟩
      · exact .inl heq
    · exact .inr ⟨k + 1, u, u', by omega, hu, hu', hr, hrank'⟩
  | case3 => exact .inl (Option.some.inj h)

/-- The choice is made whenever the ranks can be looked up. -/
lemma bestPair_isSome (hrank : ∀ a b, (t.mergeRank a b).isSome) (buf : List UInt8) (i : ℕ)
    (best : ℤ × Option ℕ) (syms : List Sym) : (t.bestPair buf i best syms).isSome := by
  fun_induction Handle.bestPair t buf i best syms with
  | case1 _ _ s s' _ hnone =>
    have := hrank (s.text buf) (s'.text buf)
    rw [hnone] at this
    cases this
  | case2 _ _ _ _ _ _ _ ih => exact ih
  | case3 => rfl

/-- Merging ends. -/
lemma mergeLoop_isSome (hrank : ∀ a b, (t.mergeRank a b).isSome) (buf : List UInt8) (ns : ℕ)
    (syms : List Sym) : (t.mergeLoop buf ns syms).isSome := by
  fun_induction Handle.mergeLoop t buf ns syms with
  | case1 ns syms hnone =>
    have := bestPair_isSome hrank buf 0 (-1, none) syms
    rw [hnone] at this
    cases this
  | case2 => rfl
  | case3 _ _ _ _ _ ih => exact ih
  | case4 => rfl

/-- Every merge makes a symbol of the vocabulary. -/
def Handle.Closed (t : Handle) : Prop :=
  ∀ m ∈ t.mentry, m.a ++ m.b ∈ t.ventry.map Token.str

lemma Handle.Loaded.mergeRank_mem (h : t.Loaded) {a b : List UInt8} {r : ℤ}
    (hrank : t.mergeRank a b = some r) (hr : 0 ≤ r) : ∃ m ∈ t.mentry, m.a = a ∧ m.b = b := by
  cases hm : t.mbucket with
  | none =>
    rw [Handle.mergeRank, hm] at hrank
    cases hrank
  | some mbucket =>
    rw [h.mergeRank_eq hm] at hrank
    cases hfind : t.mentry.find? fun m => m.a = a ∧ m.b = b with
    | none =>
      rw [hfind] at hrank
      cases hrank
      exact absurd hr (by decide)
    | some m =>
      exact ⟨m, List.mem_of_find?_eq_some hfind, by simpa using List.find?_some hfind⟩

/-- Merging joins neighbouring groups, and every group stays in the vocabulary. -/
theorem mergeLoop_layout (ht : t.Loaded) (hclosed : t.Closed) {ns : ℕ} {gs : List (List UInt8)}
    {syms : List Sym} (hbuf : buf = spell gs.flatten)
    (hvocab : ∀ g ∈ gs, spell g ∈ t.ventry.map Token.str)
    (h : t.mergeLoop buf ns (layout 0 gs) = some syms) :
    ∃ gs', syms = layout 0 gs' ∧ gs'.flatten = gs.flatten ∧
      ∀ g ∈ gs', spell g ∈ t.ventry.map Token.str := by
  generalize hsyms : layout 0 gs = start at h
  fun_induction Handle.mergeLoop t buf ns start generalizing gs with
  | case1 => cases h
  | case2 => exact ⟨gs, by rw [hsyms, Option.some.inj h], rfl, hvocab⟩
  | case3 ns start r i hbest ih =>
    subst hsyms
    have htexts : (layout 0 gs).map (Sym.text buf) = gs.map spell := text_layout hbuf
    rcases bestPair_some hbest with heq | ⟨k, s, s', hk, hs, hs', hr, hrank⟩
    · cases heq
    rw [Nat.zero_add] at hk
    subst hk
    -- the two symbols spell the sides of a merge, and its product is in the vocabulary
    have hnew : ∀ g ∈ joinAt i gs, spell g ∈ t.ventry.map Token.str := by
      intro g hg
      rcases mem_joinAt hg with hg | ⟨a, b, ha, hb, rfl⟩
      · exact hvocab g hg
      · have hsa : s.text buf = spell a := by
          have := congrArg (·[i]?) htexts
          simpa [hs, ha] using this
        have hsb : s'.text buf = spell b := by
          have := congrArg (·[i + 1]?) htexts
          simpa [hs', hb] using this
        obtain ⟨m, hm, hma, hmb⟩ := ht.mergeRank_mem hrank hr
        have := hclosed m hm
        rwa [hma, hmb, hsa, hsb, ← spell_append] at this
    obtain ⟨gs', hsyms', hflat, hvocab'⟩ :=
      ih (by rw [joinAt_flatten]; exact hbuf) hnew (mergeAt_layout i 0 gs).symm h
    exact ⟨gs', hsyms', hflat.trans (joinAt_flatten i gs), hvocab'⟩
  | case4 => exact ⟨gs, by rw [hsyms, Option.some.inj h], rfl, hvocab⟩

end VibeVoice.Tokenizer
