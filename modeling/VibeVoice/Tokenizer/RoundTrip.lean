import VibeVoice.Lib.Loop
import VibeVoice.Tokenizer.Bpe

/-!
Decoding what was encoded.

* `decode_vocab`, `decode_added`: the id of a symbol, or of an added token, gives its bytes.
* `decode_bpePiece`, `decode_encodeTextRun`, `decode_encodeLoop`: so do the ids of a piece, of a
  run and of a text.
* `round_trip`: a tokenizer that is complete, and gives no id to two texts, loses no byte.
* `shared_id_loses_text`: the loader takes a vocabulary with an id for two texts, which does.
-/

namespace VibeVoice.Tokenizer

/-- Every byte has its symbol, every merge its product; no added token is empty, or has the id
of an entry of the vocabulary. -/
structure Handle.Complete (t : Handle) : Prop where
  bytes : ∀ b, byteSymbol b ∈ t.ventry.map Token.str
  products : t.Closed
  contents : ∀ a ∈ t.sentry, a.str ≠ []
  apart : ∀ a ∈ t.sentry, ∀ e ∈ t.ventry, a.id ≠ e.id

/-- No id is negative, and in each list an id belongs to one text. -/
structure Handle.Unambiguous (t : Handle) : Prop where
  vocab_nonneg : ∀ e ∈ t.ventry, 0 ≤ e.id
  vocab_inj : ∀ e ∈ t.ventry, ∀ e' ∈ t.ventry, e.id = e'.id → e.str = e'.str
  added_nonneg : ∀ a ∈ t.sentry, 0 ≤ a.id
  added_inj : ∀ a ∈ t.sentry, ∀ a' ∈ t.sentry, a.id = a'.id → a.str = a'.str

/-! ### One id -/

/-- The bytes a spelling stands for. -/
lemma decodeBytes_spell (bs : List UInt8) : decodeBytes (spell bs) = bs := by
  induction bs with
  | nil => rw [spell_nil, decodeBytes, dif_pos rfl]
  | cons b bs ih =>
    have hne : byteSymbol b ++ spell bs ≠ [] :=
      List.append_ne_nil_of_left_ne_nil (byteSymbol_ne_nil b) _
    rw [spell_cons, decodeBytes, dif_neg hne, utf8Get_byteSymbol]
    dsimp only
    rw [cpToByte_byteToCp, if_pos (Int.natCast_nonneg _), Int.toNat_natCast, UInt8.ofNat_toNat,
      List.drop_left, ih, List.singleton_append]

variable {t : Handle}

/-- The id of a symbol in the vocabulary gives its bytes. -/
lemma decode_vocab (ht : t.Loaded) (hc : t.Complete) (hu : t.Unambiguous) {g : List UInt8}
    (hg : spell g ∈ t.ventry.map Token.str) {id : ℤ} (hid : t.vocabGet (spell g) = some id)
    (skip : Bool) : 0 ≤ id ∧ t.decodeToken skip id = g := by
  obtain ⟨e, he, hestr⟩ : ∃ e ∈ t.ventry, e.str = spell g ∧ e.id = id := by
    rw [ht.vocabGet_eq] at hid
    cases hfind : t.ventry.find? fun e => e.str = spell g with
    | none =>
      obtain ⟨e, he, heq⟩ := List.mem_map.mp hg
      exact absurd heq (by simpa using List.find?_eq_none.mp hfind e he)
    | some e =>
      rw [hfind] at hid
      exact ⟨e, List.mem_of_find?_eq_some hfind, by simpa using List.find?_some hfind,
        Option.some.inj hid⟩
  obtain ⟨hstr, rfl⟩ := hestr
  have hnonneg := hu.vocab_nonneg e he
  obtain ⟨e', he', heid, hname⟩ := ht.name_of_mem (List.mem_append_left _ he) hnonneg
  have hstr' : e'.str = spell g := by
    rcases List.mem_append.mp he' with hv | ha
    · rw [hu.vocab_inj e' hv e he heid, hstr]
    · obtain ⟨a, hmem, rfl⟩ := List.mem_map.mp ha
      exact absurd heid (hc.apart a hmem e he)
  have hnone : t.sentry.find? (fun a => a.id = e.id) = none :=
    List.find?_eq_none.mpr fun a ha => by simpa using hc.apart a ha e he
  refine ⟨hnonneg, ?_⟩
  rw [Handle.decodeToken, if_neg (by omega), hname]
  dsimp only
  rw [hnone, hstr']
  exact decodeBytes_spell g

/-- The id of an added token gives its content. -/
lemma decode_added (ht : t.Loaded) (hc : t.Complete) (hu : t.Unambiguous) {a : Added}
    (ha : a ∈ t.sentry) : t.decodeToken false a.id = a.str := by
  have hnonneg := hu.added_nonneg a ha
  obtain ⟨e', he', heid, hname⟩ := ht.name_of_mem (e := a.toToken)
    (List.mem_append_right _ (List.mem_map_of_mem ha)) hnonneg
  have hstr' : e'.str = a.str := by
    rcases List.mem_append.mp he' with hv | ha'
    · exact absurd heid.symm (hc.apart a ha e' hv)
    · obtain ⟨a', hmem, rfl⟩ := List.mem_map.mp ha'
      exact hu.added_inj a' hmem a ha heid
  obtain ⟨a', hfind⟩ : ∃ a', t.sentry.find? (fun a' => a'.id = a.id) = some a' := by
    rw [← Option.isSome_iff_exists, List.find?_isSome]
    exact ⟨a, ha, by simp⟩
  rw [Handle.decodeToken, if_neg (by omega), hname]
  dsimp only
  rw [hfind, hstr']
  rfl

/-! ### One piece, one run, one text -/

/-- What is made element by element, and read back element by element. -/
lemma flatMap_of_mapM {α β γ : Type} {f : α → Option β} {read : β → List γ} {bytes : α → List γ}
    {l : List α} {bs : List β} (hf : ∀ x ∈ l, ∀ b, f x = some b → read b = bytes x)
    (h : l.mapM f = some bs) : bs.flatMap read = l.flatMap bytes := by
  induction l generalizing bs with
  | nil =>
    cases h
    rfl
  | cons x l ih =>
    simp only [List.mapM_cons, Option.bind_eq_bind, Option.bind_eq_some_iff] at h
    obtain ⟨b, hb, bs', hbs', heq⟩ := h
    obtain rfl := Option.some.inj heq
    rw [List.flatMap_cons, List.flatMap_cons, hf x List.mem_cons_self b hb,
      ih (fun y hy => hf y (List.mem_cons_of_mem _ hy)) hbs']

/-- An id below zero decodes to nothing. -/
lemma decode_filter (t : Handle) (skip : Bool) (ids : List ℤ) :
    (ids.filter (0 ≤ ·)).flatMap (t.decodeToken skip) = ids.flatMap (t.decodeToken skip) := by
  induction ids with
  | nil => rfl
  | cons id ids ih =>
    by_cases hid : 0 ≤ id
    · rw [List.filter_cons_of_pos (by simpa using hid), List.flatMap_cons, List.flatMap_cons, ih]
    · rw [List.filter_cons_of_neg (by simpa using hid), List.flatMap_cons, ih,
        Handle.decodeToken, if_pos (by omega), List.nil_append]

/-- The ids of a piece decode to it. -/
lemma decode_bpePiece (ht : t.Loaded) (hc : t.Complete) (hu : t.Unambiguous) {piece : List UInt8}
    {ids : List ℤ} (h : t.bpePiece (spell piece) = some ids) (skip : Bool) :
    ids.flatMap (t.decodeToken skip) = piece := by
  have hstart := symsFrom_spell [] piece
  rw [List.nil_append, List.length_nil] at hstart
  rw [Handle.bpePiece, hstart, Option.bind_eq_some_iff] at h
  obtain ⟨syms, hloop, hids⟩ := h
  have hflat : (piece.map fun b => [b]).flatten = piece := by
    rw [← List.flatMap_def, List.flatMap_singleton']
  obtain ⟨gs, rfl, hgs, hvocab⟩ := mergeLoop_layout ht hc.products (by rw [hflat])
    (fun g hg => by
      obtain ⟨b, -, rfl⟩ := List.mem_map.mp hg
      rw [spell_cons, spell_nil, List.append_nil]
      exact hc.bytes b) hloop
  rw [hflat] at hgs
  obtain ⟨ids', hids', rfl⟩ := Option.map_eq_some_iff.mp hids
  -- every group that is left has an id of its own, which decodes to it
  have htexts : (layout 0 gs).map (Sym.text (spell piece)) = gs.map spell :=
    text_layout (by rw [hgs, List.drop_zero])
  have hmap : gs.mapM (fun g => t.vocabGet (spell g)) = some ids' := by
    calc gs.mapM (fun g => t.vocabGet (spell g))
        = (gs.map spell).mapM t.vocabGet := (List.mapM_map (f := spell) (g := t.vocabGet)).symm
      _ = ((layout 0 gs).map (Sym.text (spell piece))).mapM t.vocabGet := by rw [htexts]
      _ = some ids' :=
          (List.mapM_map (f := Sym.text (spell piece)) (g := t.vocabGet)).trans hids'
  calc (ids'.filter (0 ≤ ·)).flatMap (t.decodeToken skip)
      = ids'.flatMap (t.decodeToken skip) := decode_filter t skip ids'
    _ = gs.flatMap fun g => g :=
        flatMap_of_mapM (fun g hg id hid => (decode_vocab ht hc hu (hvocab g hg) hid skip).2) hmap
    _ = piece := by rw [List.flatMap_id', hgs]

/-- The ids of a run decode to it. -/
lemma decode_flush (ht : t.Loaded) (hc : t.Complete) (hu : t.Unambiguous) {run : List UInt8}
    {ids : List ℤ} (h : t.flush run = some ids) (skip : Bool) :
    ids.flatMap (t.decodeToken skip) = run := by
  rw [Handle.flush] at h
  split_ifs at h with hrun
  · obtain rfl := Option.some.inj h
    exact hrun.symm
  · obtain ⟨pieces, hpieces, rfl⟩ := Option.map_eq_some_iff.mp h
    calc pieces.flatten.flatMap (t.decodeToken skip)
        = pieces.flatMap fun ids => ids.flatMap (t.decodeToken skip) := by
          rw [List.flatMap_def, List.map_flatten, List.flatten_flatten, List.map_map]
          rfl
      _ = (splitPieces run).flatMap fun piece => piece :=
          flatMap_of_mapM (fun piece _ ids hids => decode_bpePiece ht hc hu hids skip) hpieces
      _ = run := by rw [List.flatMap_id', splitPieces_flatten]

lemma hit_some {text : List UInt8} {a : Added} (h : t.hit text = some a) :
    a ∈ t.sentry ∧ a.str <+: text := by
  rw [Handle.hit] at h
  split_ifs at h
  exact ⟨List.mem_of_find?_eq_some h, by simpa using List.find?_some h⟩

/-- The ids of a text decode to it, behind what was decoded before. -/
lemma decode_encodeLoop (ht : t.Loaded) (hc : t.Complete) (hu : t.Unambiguous)
    {text : List UInt8} {pos runStart : ℕ} {ids out : List ℤ} (hrun : runStart ≤ pos)
    (h : t.encodeLoop text pos runStart ids = some out) :
    out.flatMap (t.decodeToken false) =
      ids.flatMap (t.decodeToken false) ++ text.drop runStart := by
  fun_induction Handle.encodeLoop t text pos runStart ids with
  | case1 pos runStart ids hpos hhit ih => exact ih (by omega) h
  | case2 => cases h
  | case3 => cases h
  | case4 pos runStart ids hpos a hhit ha run hflush ih =>
    obtain ⟨hmem, rest, hrest⟩ := hit_some hhit
    have hdrop : text.drop (pos + a.str.length) = rest := by
      rw [← List.drop_drop, ← hrest, List.drop_left]
    have hbehind : (text.drop runStart).drop (pos - runStart) = a.str ++ rest := by
      rw [List.drop_drop, Nat.add_sub_cancel' hrun, hrest]
    have hout := ih le_rfl h
    rw [hdrop, List.flatMap_append, List.flatMap_append, decode_flush ht hc hu hflush,
      List.flatMap_singleton, decode_added ht hc hu hmem] at hout
    calc out.flatMap (t.decodeToken false)
        = ids.flatMap (t.decodeToken false) ++
            ((text.drop runStart).take (pos - runStart) ++ (a.str ++ rest)) := by
          rw [hout, List.append_assoc, List.append_assoc]
      _ = ids.flatMap (t.decodeToken false) ++ text.drop runStart := by
          rw [← hbehind, List.take_append_drop]
  | case5 pos runStart ids hpos =>
    obtain ⟨run, hflush, rfl⟩ := Option.map_eq_some_iff.mp h
    rw [List.flatMap_append, decode_flush ht hc hu hflush]

/-! ### Encoding ends -/

lemma Handle.Loaded.mergeRank_isSome (ht : t.Loaded) (hm : t.mbucket.isSome) (a b : List UInt8) :
    (t.mergeRank a b).isSome := by
  obtain ⟨mbucket, hm⟩ := Option.isSome_iff_exists.mp hm
  rw [ht.mergeRank_eq hm]
  rfl

/-- Where merging ends, the symbols are looked up. -/
lemma bpePiece_isSome (ht : t.Loaded) {buf : List UInt8}
    (h : (t.mergeLoop buf (symsFrom buf 0).length (symsFrom buf 0)).isSome) :
    (t.bpePiece buf).isSome := by
  obtain ⟨syms, hsyms⟩ := Option.isSome_iff_exists.mp h
  rw [Handle.bpePiece, hsyms, Option.bind_some, Option.isSome_map]
  exact Loop.mapM_isSome_iff.mpr fun s _ => by rw [ht.vocabGet_eq]; rfl

/-- A run is encoded where there is a table of merges. -/
lemma flush_isSome (ht : t.Loaded) (hm : t.mbucket.isSome) (run : List UInt8) :
    (t.flush run).isSome := by
  rw [Handle.flush]
  split_ifs
  · rfl
  · rw [Handle.encodeTextRun, Option.isSome_map]
    exact Loop.mapM_isSome_iff.mpr fun piece _ => bpePiece_isSome ht
      (mergeLoop_isSome (ht.mergeRank_isSome hm) (spell piece) _ _)

/-- A text is encoded where no added token is empty. -/
lemma encodeLoop_isSome (ht : t.Loaded) (hm : t.mbucket.isSome)
    (hcontents : ∀ a ∈ t.sentry, a.str ≠ []) (text : List UInt8) (pos runStart : ℕ)
    (ids : List ℤ) : (t.encodeLoop text pos runStart ids).isSome := by
  fun_induction Handle.encodeLoop t text pos runStart ids with
  | case1 _ _ _ _ _ ih => exact ih
  | case2 _ _ _ _ a hhit ha => exact absurd ha (hcontents a (hit_some hhit).1)
  | case3 pos runStart _ _ _ _ _ hnone =>
    have := flush_isSome ht hm ((text.drop runStart).take (pos - runStart))
    rw [hnone] at this
    cases this
  | case4 _ _ _ _ _ _ _ _ _ ih => exact ih
  | case5 => rw [Option.isSome_map]; exact flush_isSome ht hm _

/-! ### The round trip -/

variable {δ : Type}

/-- A tokenizer that is complete and gives no id to two texts loses no byte of a text; and where
it was given merges, every text is encoded. -/
theorem round_trip {env : Env δ} {dir : List UInt8} {t : Handle} (hload : load env dir = pure t)
    (hcomplete : t.Complete) (hids : t.Unambiguous) {s : List UInt8} (hs : 0 ∉ s) :
    (∀ ids, t.encode s = some ids → t.decodeWrite ids false = s) ∧
      (t.mbucket.isSome → ∃ ids, t.encode s = some ids) := by
  have ht := load_loaded hload
  refine ⟨fun ids hencode => ?_, fun hm => ?_⟩
  · rw [Handle.encode, cString_eq_self hs] at hencode
    exact decode_encodeLoop ht hcomplete hids le_rfl hencode
  · exact Option.isSome_iff_exists.mp
      (encodeLoop_isSome ht hm hcomplete.contents (cString s) 0 0 [])

/-! ### Two vocabularies -/

/-- The byte symbols and a product of a merge, each with its id. -/
def sampleVocab (ids : ℕ → ℕ) : List (List UInt8 × ℕ) :=
  ((List.range 256).map fun b => (byteSymbol (UInt8.ofNat b), ids b)) ++ [(literal "ab", ids 256)]

/-- A string of JSON. -/
def quote (s : List UInt8) : List UInt8 :=
  literal "\"" ++ s.flatMap (fun b => if b = 0x22 ∨ b = 0x5C then [0x5C, b] else [b]) ++
    literal "\""

/-- A `tokenizer.json` with the vocabulary, one merge and one added token. -/
def sampleText (ids : ℕ → ℕ) : List UInt8 :=
  literal "\x7b\"model\":\x7b\"vocab\":\x7b" ++
    (((sampleVocab ids).map fun m => quote m.1 ++ literal ":" ++ literal (toString m.2)).intersperse
      (literal ",")).flatten ++
    literal "\x7d,\"merges\":[\"a b\"]\x7d,\"added_tokens\":[\x7b\"id\":257," ++
    literal "\"content\":\"<|im_end|>\",\"special\":true\x7d]\x7d"

/-- Its member `model`. -/
def sampleModel (ids : ℕ → ℕ) : Json ℕ :=
  .object [(literal "vocab", .object ((sampleVocab ids).map fun m => (m.1, .number m.2))),
    (literal "merges", .array [.string (literal "a b")])]

/-- Its member `added_tokens`. -/
def sampleAdded : Json ℕ :=
  .array [.object [(literal "id", .number 257), (literal "content", .string (literal "<|im_end|>")),
    (literal "special", .bool true)]]

/-- The tree `cJSON` builds of the text. -/
def sampleRoot (ids : ℕ → ℕ) : Json ℕ :=
  .object [(literal "model", sampleModel ids), (literal "added_tokens", sampleAdded)]

/-- The loader's surroundings, with this file in the directory `m`. -/
def sampleEnv (ids : ℕ → ℕ) : Env ℕ where
  file path := if path = literal "m/tokenizer.json" then some (sampleText ids) else none
  parse text := if text = cString (sampleText ids) then some (sampleRoot ids) else none
  toInt32 := Nat.cast

lemma zero_not_mem_byteSymbol (b : UInt8) : 0 ∉ byteSymbol b := by
  have h : ∀ b : Fin 256, 0 ∉ utf8Put (cpOf b) := by decide +kernel
  rw [byteSymbol, byteToCp, built.forth _ b.toNat_lt]
  exact h ⟨b.toNat, b.toNat_lt⟩

lemma mem_sampleVocab {ids : ℕ → ℕ} {m : List UInt8 × ℕ} : m ∈ sampleVocab ids ↔
    (∃ b : UInt8, m = (byteSymbol b, ids b.toNat)) ∨ m = (literal "ab", ids 256) := by
  rw [sampleVocab, List.mem_append, List.mem_map, List.mem_singleton]
  refine or_congr_left ⟨?_, ?_⟩
  · rintro ⟨b, hb, rfl⟩
    rw [List.mem_range] at hb
    exact ⟨UInt8.ofNat b, by rw [UInt8.toNat_ofNat', Nat.mod_eq_of_lt hb]⟩
  · rintro ⟨b, rfl⟩
    exact ⟨b.toNat, List.mem_range.mpr b.toNat_lt, by rw [UInt8.ofNat_toNat]⟩

lemma sampleRoot_model (ids : ℕ → ℕ) :
    (sampleRoot ids).getObjectItem (literal "model") = some (sampleModel ids) := by
  rw [sampleRoot, Json.getObjectItem_cons, if_pos (by decide)]

lemma sampleRoot_added (ids : ℕ → ℕ) :
    (sampleRoot ids).getObjectItem (literal "added_tokens") = some sampleAdded := by
  rw [sampleRoot, Json.getObjectItem_cons, if_neg (by decide), Json.getObjectItem_cons,
    if_pos (by decide)]

lemma sampleModel_vocab (ids : ℕ → ℕ) : (sampleModel ids).getObjectItem (literal "vocab") =
    some (.object ((sampleVocab ids).map fun m => (m.1, .number m.2))) := by
  rw [sampleModel, Json.getObjectItem_cons, if_pos (by decide)]

lemma sampleModel_merges (ids : ℕ → ℕ) : (sampleModel ids).getObjectItem (literal "merges") =
    some (.array [.string (literal "a b")]) := by
  rw [sampleModel, Json.getObjectItem_cons, if_neg (by decide), Json.getObjectItem_cons,
    if_pos (by decide)]

lemma sample_file (ids : ℕ → ℕ) :
    readFile (sampleEnv ids) (jsonPath (literal "m")) = some (cString (sampleText ids)) := by
  have hpath : jsonPath (literal "m") = literal "m/tokenizer.json" := by decide
  have hne : sampleText ids ≠ [] := by
    rw [sampleText]
    simp only [ne_eq, List.append_eq_nil_iff, not_and]
    exact fun _ hnil => absurd hnil (by decide)
  rw [readFile, hpath, sampleEnv]
  simp only [if_pos, Option.bind_some, if_neg hne]

lemma sample_vocab (ids : ℕ → ℕ) :
    readVocab (sampleEnv ids) (.object ((sampleVocab ids).map fun m => (m.1, .number m.2))) =
      some ((sampleVocab ids).map fun m => ⟨m.1, m.2⟩) := by
  rw [readVocab_object, List.map_map]
  refine congrArg some (List.map_congr_left fun m hm => ?_)
  have hname : cString m.1 = m.1 := by
    rcases mem_sampleVocab.mp hm with ⟨b, rfl⟩ | rfl <;> dsimp only
    · exact cString_eq_self (zero_not_mem_byteSymbol b)
    · exact cString_eq_self (by decide)
  rw [Function.comp_apply, hname]
  rfl

/-- The sample loads, whatever small ids it has. -/
lemma sample_load (ids : ℕ → ℕ) (h : ∀ b ≤ 256, ids b ≤ 256) :
    ∃ t, load (sampleEnv ids) (literal "m") = pure t ∧
      t.ventry = (sampleVocab ids).map (fun m => ⟨m.1, m.2⟩) ∧
      t.mentry = [⟨literal "a", literal "b", 0⟩] ∧ t.mbucket.isSome ∧
      t.sentry = [{ str := literal "<|im_end|>", id := 257, special := true }] := by
  have hsmall : ∀ e ∈ (sampleVocab ids).map fun m => (⟨m.1, m.2⟩ : Token), e.id ≤ 256 := by
    intro e he
    obtain ⟨m, hm, rfl⟩ := List.mem_map.mp he
    rcases mem_sampleVocab.mp hm with ⟨b, rfl⟩ | rfl
    · exact Int.ofNat_le.mpr (h _ b.toNat_lt.le)
    · exact Int.ofNat_le.mpr (h 256 le_rfl)
  have hparse : (sampleEnv ids).parse (cString (sampleText ids)) = some (sampleRoot ids) := by
    simp only [sampleEnv, if_pos]
  have htokens : sortAdded (sampleAdded.children.filterMap fun it =>
      readAdded (sampleEnv ids) it.2) =
      [{ str := literal "<|im_end|>", id := 257, special := true }] := rfl
  have hvocab : (Json.object ((sampleVocab ids).map fun m =>
      (m.1, (Json.number m.2 : Json ℕ)))).children ≠ [] := by
    rw [sampleVocab, Json.children]
    simp
  obtain ⟨t, ht, hventry, hmentry, hmbucket, hsentry⟩ := load_ok (sample_file ids) hparse
    (sampleRoot_model ids) (sampleModel_vocab ids) hvocab (sample_vocab ids)
    (sampleModel_merges ids) (List.cons_ne_nil _ _) (sampleRoot_added ids) (List.cons_ne_nil _ _)
    fun e he => by
      rcases List.mem_append.mp he with he | he
      · exact lt_of_le_of_lt (hsmall e he) (by decide)
      · rw [htokens, List.map_singleton, List.mem_singleton] at he
        rw [he]
        decide
  exact ⟨t, ht, hventry, hmentry, hmbucket, hsentry.trans htokens⟩

/-- The sample's vocabulary is complete beside added tokens with higher ids. -/
lemma sample_complete {ids : ℕ → ℕ} (h : ∀ b ≤ 256, ids b ≤ 256)
    (hventry : t.ventry = (sampleVocab ids).map fun m => ⟨m.1, m.2⟩)
    (hmentry : t.mentry = [⟨literal "a", literal "b", 0⟩])
    (hsentry : ∀ a ∈ t.sentry, a.str ≠ [] ∧ 256 < a.id) : t.Complete := by
  have hname : ∀ s n, (s, n) ∈ sampleVocab ids → s ∈ t.ventry.map Token.str := fun s n hm => by
    rw [hventry, List.map_map]
    exact List.mem_map.mpr ⟨(s, n), hm, rfl⟩
  refine ⟨fun b => hname _ _ (mem_sampleVocab.mpr (.inl ⟨b, rfl⟩)), fun m hm => ?_,
    fun a ha => (hsentry a ha).1, fun a ha e he => ?_⟩
  · rw [hmentry, List.mem_singleton] at hm
    rw [hm]
    exact hname _ _ (mem_sampleVocab.mpr (.inr rfl))
  · have hid := (hsentry a ha).2
    rw [hventry] at he
    obtain ⟨m, hm, rfl⟩ := List.mem_map.mp he
    rcases mem_sampleVocab.mp hm with ⟨b, rfl⟩ | rfl
    · have := h _ b.toNat_lt.le
      dsimp only
      omega
    · have := h 256 le_rfl
      dsimp only
      omega

/-- With ids of their own its entries are told apart. -/
lemma sample_unambiguous (hventry : t.ventry = (sampleVocab id).map fun m => ⟨m.1, m.2⟩)
    (hnonneg : ∀ a ∈ t.sentry, 0 ≤ a.id)
    (hinj : ∀ a ∈ t.sentry, ∀ a' ∈ t.sentry, a.id = a'.id → a.str = a'.str) : t.Unambiguous := by
  refine ⟨fun e he => ?_, fun e he e' he' heq => ?_, hnonneg, hinj⟩
  · rw [hventry] at he
    obtain ⟨m, -, rfl⟩ := List.mem_map.mp he
    exact Int.natCast_nonneg _
  · rw [hventry] at he he'
    obtain ⟨m, hm, rfl⟩ := List.mem_map.mp he
    obtain ⟨m', hm', rfl⟩ := List.mem_map.mp he'
    have hid : m.2 = m'.2 := Int.ofNat_inj.mp heq
    rcases mem_sampleVocab.mp hm with ⟨b, rfl⟩ | rfl <;>
      rcases mem_sampleVocab.mp hm' with ⟨b', rfl⟩ | rfl <;> dsimp only [id] at hid ⊢
    · rw [UInt8.toNat_inj.mp hid]
    · exact absurd hid b.toNat_lt.ne
    · exact absurd hid b'.toNat_lt.ne'

/-- With ids of their own the tokens of the sample give a text back. -/
theorem round_trip_sample : ∃ t, load (sampleEnv id) (literal "m") = pure t ∧
    ∃ ids, t.encode (literal "ab<|im_end|>") = some ids ∧
      t.decodeWrite ids false = literal "ab<|im_end|>" := by
  obtain ⟨t, hload, hventry, hmentry, hmbucket, hsentry⟩ := sample_load id fun b hb => hb
  have hcomplete : t.Complete := by
    refine sample_complete (fun b hb => hb) hventry hmentry fun a ha => ?_
    rw [hsentry, List.mem_singleton] at ha
    rw [ha]
    decide
  have hids : t.Unambiguous := by
    refine sample_unambiguous hventry (fun a ha => ?_) fun a ha a' ha' _ => ?_
    · rw [hsentry, List.mem_singleton] at ha
      rw [ha]
      decide
    · rw [hsentry, List.mem_singleton] at ha ha'
      rw [ha, ha']
  obtain ⟨hdecode, hencode⟩ := round_trip hload hcomplete hids
    (show 0 ∉ literal "ab<|im_end|>" by decide)
  obtain ⟨ids, h⟩ := hencode hmbucket
  exact ⟨t, hload, ids, h, hdecode ids h⟩

/-- A text of one byte is the id of its symbol. -/
lemma encode_singleton (ht : t.Loaded) {b : UInt8} (h₀ : b ≠ 0) (hlt : b ≠ 0x3C) {e : Token}
    (hfind : (t.ventry.find? fun e => e.str = byteSymbol b) = some e) (hid : 0 ≤ e.id) :
    t.encode [b] = some [e.id] := by
  have hpieces : splitPieces [b] = [[b]] := by
    obtain ⟨hpos, hle⟩ := nextPiece_bounds (List.cons_ne_nil b [])
    rw [List.length_singleton] at hle
    rw [splitPieces_cons (List.cons_ne_nil b []), show nextPiece [b] = 1 by omega]
    simp
  have hspell : spell [b] = byteSymbol b := by rw [spell_cons, spell_nil, List.append_nil]
  have hsyms := symsFrom_spell [] [b]
  rw [List.nil_append, List.length_nil, hspell] at hsyms
  have hpiece : t.bpePiece (byteSymbol b) = some [e.id] := by
    have htext : Sym.text (byteSymbol b) ⟨0, (byteSymbol b).length⟩ = byteSymbol b := by
      rw [Sym.text, List.drop_zero, List.take_length]
    have hget : t.vocabGet (byteSymbol b) = some e.id := by
      rw [ht.vocabGet_eq, hfind]
      rfl
    have hloop : ∀ syms, t.mergeLoop (byteSymbol b) 1 syms = some syms := fun _ => rfl
    rw [Handle.bpePiece, hsyms, List.map_singleton, layout, layout, hspell, List.length_singleton,
      hloop, Option.bind_some, List.mapM_cons, List.mapM_nil, htext, hget]
    simp [hid]
  have hhit : t.hit [b] = none := by
    rw [Handle.hit, if_neg (by simpa using hlt)]
  have hflush : t.flush [b] = some [e.id] := by
    rw [Handle.flush, if_neg (List.cons_ne_nil b []), Handle.encodeTextRun, hpieces,
      List.mapM_cons, List.mapM_nil, hspell, hpiece]
    rfl
  rw [Handle.encode, cString_eq_self (by simpa using h₀.symm), Handle.encodeLoop,
    dif_pos (by simp), List.drop_zero, hhit]
  dsimp only
  rw [Handle.encodeLoop, dif_neg (by simp), List.drop_zero, hflush]
  rfl

/-- Where every token has the same id, the texts of one byte are all encoded alike, and no two of
them can be decoded. -/
theorem shared_id_loses_text :
    ¬∀ (δ : Type) (env : Env δ) (dir : List UInt8) (t : Handle), load env dir = pure t →
      t.Complete → ∀ s, 0 ∉ s → ∀ ids, t.encode s = some ids → t.decodeWrite ids false = s := by
  intro h
  obtain ⟨t, hload, hventry, hmentry, -, hsentry⟩ := sample_load (fun _ => 0) fun _ _ => by decide
  have hcomplete : t.Complete := by
    refine sample_complete (fun _ _ => by decide) hventry hmentry fun a ha => ?_
    rw [hsentry, List.mem_singleton] at ha
    rw [ha]
    decide
  have hencode : ∀ b : UInt8, b ≠ 0 → b ≠ 0x3C → t.encode [b] = some [0] := fun b h₀ hlt => by
    cases hfind : t.ventry.find? fun e => e.str = byteSymbol b with
    | none =>
      obtain ⟨e, he, hstr⟩ := List.mem_map.mp (hcomplete.bytes b)
      exact absurd hstr (by simpa using List.find?_eq_none.mp hfind e he)
    | some e =>
      have he := List.mem_of_find?_eq_some hfind
      rw [hventry] at he
      obtain ⟨m, hm, rfl⟩ := List.mem_map.mp he
      have hzero : m.2 = 0 := by rcases mem_sampleVocab.mp hm with ⟨_, rfl⟩ | rfl <;> rfl
      rw [encode_singleton (load_loaded hload) h₀ hlt hfind (Int.natCast_nonneg _), hzero]
      rfl
  have hexcl := h ℕ _ _ t hload hcomplete [0x21] (by decide) [0]
    (hencode 0x21 (by decide) (by decide))
  have hquote := h ℕ _ _ t hload hcomplete [0x22] (by decide) [0]
    (hencode 0x22 (by decide) (by decide))
  exact absurd (hexcl.symm.trans hquote) (by decide)

end VibeVoice.Tokenizer
