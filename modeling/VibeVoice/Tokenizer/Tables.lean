import VibeVoice.Tokenizer.Termination

/-!
What the tables of a loaded tokenizer answer, and which added token is taken (`bpe.c`).

* `sortAdded_filter`: the sort of the added tokens is stable.
* `hit_eq_some_iff`: at a `<` the longest added token is hit, the first of the file where there are
  several.
* `Cuts`: a text is cut at the longest added tokens; `encode_eq_some_iff`: encoding follows it.
* `load_searches`: a loaded tokenizer answers as its file does.
-/

namespace VibeVoice.Tokenizer

/-! ### The added tokens in their order -/

lemma insertAdded_filter (n : ℕ) (e : Added) (sorted : List Added) :
    (insertAdded e sorted).filter (fun a => a.str.length = n) =
      (if e.str.length = n then [e] else []) ++ sorted.filter fun a => a.str.length = n := by
  induction sorted with
  | nil =>
    rw [insertAdded, List.filter_singleton]
    split_ifs <;> simp_all
  | cons x sorted ih =>
    rw [insertAdded]
    split_ifs with hlt hn hn
    · -- the shorter entry passed over is of another length
      have hx : x.str.length ≠ n := by omega
      rw [List.filter_cons_of_neg (by simpa using hx), ih, if_pos hn,
        List.filter_cons_of_neg (by simpa using hx)]
    · rw [List.filter_cons, List.filter_cons, ih, if_neg hn]
      simp
    · rw [List.filter_cons_of_pos (by simpa using hn)]
      rfl
    · rw [List.filter_cons_of_neg (by simpa using hn)]
      rfl

/-- Tokens of one length keep their order. -/
lemma sortAdded_filter (n : ℕ) (es : List Added) :
    (sortAdded es).filter (fun a => a.str.length = n) =
      es.filter fun a => a.str.length = n := by
  rw [sortAdded, List.filter_reverse]
  induction es using List.reverseRecOn with
  | nil => rfl
  | append_singleton es e ih =>
    rw [List.foldl_append, List.foldl_cons, List.foldl_nil, insertAdded_filter,
      List.reverse_append, ih, List.filter_append, List.filter_singleton]
    split_ifs <;> simp_all

lemma sortAdded_perm (es : List Added) : (sortAdded es).Perm es := by
  rw [sortAdded]
  refine (List.reverse_perm _).trans ?_
  induction es using List.reverseRecOn with
  | nil => exact .refl _
  | append_singleton es e ih =>
    rw [List.foldl_append, List.foldl_cons, List.foldl_nil]
    exact (insertAdded_perm e _).trans ((ih.cons e).trans (List.perm_append_singleton e es).symm)

lemma find?_filter_length (es : List Added) (s : List UInt8) :
    ((es.filter fun a => a.str.length = s.length).find? fun a => a.str = s) =
      es.find? fun a => a.str = s := by
  rw [List.find?_filter]
  congr 1
  funext a
  by_cases ha : a.str = s
  · simp [ha]
  · simp [ha]

/-- The first token of the file with a content is the first of the sorted ones. -/
lemma sortAdded_find? (es : List Added) (s : List UInt8) :
    ((sortAdded es).find? fun a => a.str = s) = es.find? fun a => a.str = s := by
  rw [← find?_filter_length, sortAdded_filter, find?_filter_length]

/-! ### The token that is taken -/

variable {t : Handle}

/-- The token starts the text, no added token that does is longer, and it is the first with its
content. -/
structure Handle.Takes (t : Handle) (text : List UInt8) (a : Added) : Prop where
  starts : a.str <+: text
  longest : ∀ b ∈ t.sentry, b.str <+: text → b.str.length ≤ a.str.length
  first : (t.sentry.find? fun b => b.str = a.str) = some a

lemma hit_eq_none_iff (text : List UInt8) :
    t.hit text = none ↔ (text.head? = some 0x3C → ∀ a ∈ t.sentry, ¬ a.str <+: text) := by
  rw [Handle.hit]
  split_ifs with hlt
  · simp [hlt, List.find?_eq_none, List.isPrefixOf_iff_prefix]
  · exact iff_of_true rfl fun h => absurd h hlt

lemma takes_of_hit (ht : t.LongestFirst) {text : List UInt8} {a : Added}
    (h : t.hit text = some a) : text.head? = some 0x3C ∧ t.Takes text a := by
  rw [Handle.hit] at h
  split_ifs at h with hlt
  obtain ⟨hpre, before, after, hsplit, hbefore⟩ := List.find?_eq_some_iff_append.mp h
  have hpre' : a.str <+: text := List.isPrefixOf_iff_prefix.mp hpre
  have hno : ∀ b ∈ before, ¬ b.str <+: text := fun b hb hb' => by
    have := hbefore b hb
    rw [List.isPrefixOf_iff_prefix.mpr hb'] at this
    exact absurd this (by decide)
  rw [Handle.LongestFirst, hsplit, List.pairwise_append, List.pairwise_cons] at ht
  refine ⟨hlt, hpre', fun b hb hb' => ?_, ?_⟩
  · rw [hsplit, List.mem_append, List.mem_cons] at hb
    rcases hb with hb | rfl | hb
    · exact absurd hb' (hno b hb)
    · exact le_rfl
    · exact ht.2.1.1 b hb
  · refine List.find?_eq_some_iff_append.mpr ⟨by simp, before, after, hsplit, fun b hb => ?_⟩
    have hne : b.str ≠ a.str := fun heq => hno b hb (heq ▸ hpre')
    simpa using hne

/-- What is hit is the longest token. -/
theorem hit_eq_some_iff (ht : t.LongestFirst) (text : List UInt8) (a : Added) :
    t.hit text = some a ↔ text.head? = some 0x3C ∧ t.Takes text a := by
  refine ⟨takes_of_hit ht, fun ⟨hlt, htakes⟩ => ?_⟩
  have hmem : a ∈ t.sentry := List.mem_of_find?_eq_some htakes.first
  cases hhit : t.hit text with
  | none => exact absurd htakes.starts ((hit_eq_none_iff text).mp hhit hlt a hmem)
  | some b =>
    obtain ⟨-, htakes'⟩ := takes_of_hit ht hhit
    have hmem' : b ∈ t.sentry := List.mem_of_find?_eq_some htakes'.first
    have hlen : b.str.length = a.str.length :=
      le_antisymm (htakes.longest b hmem' htakes'.starts) (htakes'.longest a hmem htakes.starts)
    have hstr : b.str = a.str := calc
      b.str = text.take b.str.length := List.prefix_iff_eq_take.mp htakes'.starts
      _ = text.take a.str.length := by rw [hlen]
      _ = a.str := (List.prefix_iff_eq_take.mp htakes.starts).symm
    have hfirst := htakes'.first
    rw [hstr, htakes.first] at hfirst
    exact hfirst.symm

/-! ### Texts cut at their tokens -/

/-- A part of a text: what lies between two added tokens, or a token. -/
inductive Part
  | run (text : List UInt8)
  | token (a : Added)

/-- The bytes of a part. -/
def Part.text : Part → List UInt8
  | run text => text
  | token a => a.str

/-- The ids of a part. -/
def Handle.partIds (t : Handle) : Part → Option (List ℤ)
  | .run text => t.flush text
  | .token a => some [a.id]

/-- The text is cut from its front, where `run` is what stands since the last cut: at a `<` that
starts an added token the longest of them is taken, and any other byte is passed over. -/
inductive Cuts (t : Handle) : List UInt8 → List UInt8 → List Part → Prop
  | done {run : List UInt8} : Cuts t run [] [.run run]
  | byte {run text : List UInt8} {b : UInt8} {parts : List Part}
      (hfree : b = 0x3C → ∀ a ∈ t.sentry, ¬ a.str <+: b :: text)
      (h : Cuts t (run ++ [b]) text parts) : Cuts t run (b :: text) parts
  | token {run text : List UInt8} {a : Added} {parts : List Part}
      (hlt : text.head? = some 0x3C) (hne : a.str ≠ []) (htakes : t.Takes text a)
      (h : Cuts t [] (text.drop a.str.length) parts) :
      Cuts t run text (.run run :: .token a :: parts)

lemma cuts_nil_iff {run : List UInt8} {parts : List Part} :
    Cuts t run [] parts ↔ parts = [.run run] := by
  constructor
  · intro h
    cases h with
    | done => rfl
    | token hlt => exact absurd hlt (by simp)
  · rintro rfl
    exact .done

lemma cuts_byte_iff {run text : List UInt8} {b : UInt8} {parts : List Part}
    (h : t.hit (b :: text) = none) :
    Cuts t run (b :: text) parts ↔ Cuts t (run ++ [b]) text parts := by
  have hfree := (hit_eq_none_iff _).mp h
  constructor
  · intro hcuts
    cases hcuts with
    | byte _ hrest => exact hrest
    | @token _ _ a _ hlt hne htakes =>
      have hmem : a ∈ t.sentry := List.mem_of_find?_eq_some htakes.first
      exact absurd htakes.starts (hfree hlt a hmem)
  · exact .byte fun hb => hfree (by rw [hb]; rfl)

lemma cuts_token_iff (ht : t.LongestFirst) {run text : List UInt8} {a : Added} {parts : List Part}
    (h : t.hit text = some a) :
    Cuts t run text parts ↔ a.str ≠ [] ∧
      ∃ rest, parts = .run run :: .token a :: rest ∧ Cuts t [] (text.drop a.str.length) rest := by
  obtain ⟨hlt, htakes⟩ := takes_of_hit ht h
  constructor
  · intro hcuts
    cases hcuts with
    | done => exact absurd hlt (by simp)
    | byte hfree =>
      have hmem : a ∈ t.sentry := List.mem_of_find?_eq_some htakes.first
      exact absurd htakes.starts (hfree (Option.some.inj hlt) a hmem)
    | @token _ _ b rest _ hne htakes' hrest =>
      have hhit := (hit_eq_some_iff ht text b).mpr ⟨hlt, htakes'⟩
      obtain rfl := Option.some.inj (hhit.symm.trans h)
      exact ⟨hne, rest, rfl, hrest⟩
  · rintro ⟨hne, rest, rfl, hrest⟩
    exact .token hlt hne htakes hrest

/-- The ids of parts, one part after another. -/
def Handle.PartsGive (t : Handle) (parts : List Part) (ids : List ℤ) : Prop :=
  ∃ idss, parts.mapM t.partIds = some idss ∧ ids = idss.flatten

lemma partsGive_run {run : List UInt8} {ids : List ℤ} :
    t.PartsGive [.run run] ids ↔ t.flush run = some ids := by
  rw [Handle.PartsGive]
  simp only [List.mapM_cons, List.mapM_nil, Handle.partIds]
  cases t.flush run with
  | none => simp
  | some ids' => simp [eq_comm]

lemma partsGive_token {run : List UInt8} {a : Added} {rest : List Part} {ids : List ℤ} :
    t.PartsGive (.run run :: .token a :: rest) ids ↔
      ∃ ids₁ ids₂, t.flush run = some ids₁ ∧ t.PartsGive rest ids₂ ∧
        ids = ids₁ ++ [a.id] ++ ids₂ := by
  simp only [Handle.PartsGive, List.mapM_cons, Handle.partIds]
  cases t.flush run with
  | none => simp
  | some ids' =>
    cases rest.mapM t.partIds with
    | none => simp
    | some idss => simp

/-- The loop gives the ids of the parts that the rest of the text is cut into. -/
lemma encodeLoop_eq_some_iff (ht : t.LongestFirst) (text : List UInt8) {pos runStart : ℕ}
    (ids out : List ℤ) (hrun : runStart ≤ pos) :
    t.encodeLoop text pos runStart ids = some out ↔
      ∃ parts new, Cuts t ((text.drop runStart).take (pos - runStart)) (text.drop pos) parts ∧
        t.PartsGive parts new ∧ out = ids ++ new := by
  fun_induction Handle.encodeLoop t text pos runStart ids with
  | case1 pos runStart ids hpos hhit ih =>
    have hcons := List.drop_eq_getElem_cons hpos
    rw [hcons] at hhit
    rw [ih (by omega), take_run_succ hrun hpos, hcons]
    simp only [cuts_byte_iff hhit]
  | case2 pos runStart ids hpos a hhit ha =>
    refine iff_of_false (by simp) ?_
    rintro ⟨parts, new, hcuts, -⟩
    exact ((cuts_token_iff ht hhit).mp hcuts).1 ha
  | case3 pos runStart ids hpos a hhit ha hflush =>
    refine iff_of_false (by simp) ?_
    rintro ⟨parts, new, hcuts, hgive, -⟩
    obtain ⟨-, rest, rfl, -⟩ := (cuts_token_iff ht hhit).mp hcuts
    obtain ⟨ids₁, -, hflush', -⟩ := partsGive_token.mp hgive
    rw [hflush] at hflush'
    exact absurd hflush' (by simp)
  | case4 pos runStart ids hpos a hhit ha run hflush ih =>
    rw [ih le_rfl, Nat.sub_self, List.take_zero]
    constructor
    · rintro ⟨rest, new, hcuts, hgive, rfl⟩
      rw [← List.drop_drop] at hcuts
      refine ⟨.run _ :: .token a :: rest, run ++ [a.id] ++ new,
        (cuts_token_iff ht hhit).mpr ⟨ha, rest, rfl, hcuts⟩,
        partsGive_token.mpr ⟨run, new, hflush, hgive, rfl⟩, by simp⟩
    · rintro ⟨parts, new, hcuts, hgive, rfl⟩
      obtain ⟨-, rest, rfl, hrest⟩ := (cuts_token_iff ht hhit).mp hcuts
      obtain ⟨ids₁, ids₂, hflush', hgive', rfl⟩ := partsGive_token.mp hgive
      obtain rfl := Option.some.inj (hflush.symm.trans hflush')
      rw [List.drop_drop] at hrest
      exact ⟨rest, ids₂, hrest, hgive', by simp⟩
  | case5 pos runStart ids hge =>
    have hend : text.drop pos = [] := List.drop_eq_nil_of_le (by omega)
    have hlast : (text.drop runStart).take (pos - runStart) = text.drop runStart :=
      List.take_of_length_le (by rw [List.length_drop]; omega)
    rw [hend, hlast]
    simp only [cuts_nil_iff, Option.map_eq_some_iff]
    constructor
    · rintro ⟨new, hflush, rfl⟩
      exact ⟨_, new, rfl, partsGive_run.mpr hflush, rfl⟩
    · rintro ⟨parts, new, rfl, hgive, rfl⟩
      exact ⟨new, partsGive_run.mp hgive, rfl⟩

/-- A text is encoded part by part. -/
theorem encode_eq_some_iff (ht : t.LongestFirst) (text : List UInt8) (ids : List ℤ) :
    t.encode text = some ids ↔ ∃ parts, Cuts t [] (cString text) parts ∧ t.PartsGive parts ids := by
  rw [Handle.encode, encodeLoop_eq_some_iff ht (cString text) [] ids le_rfl]
  simp

/-! ### What a file gives -/

/-- The added tokens of a file, in its order. -/
def fileAdded {δ : Type} (env : Env δ) (root : Json δ) : List Added :=
  ((root.getObjectItem (literal "added_tokens")).map fun added =>
    added.children.filterMap fun it => readAdded env it.2).getD []

/-- The merges of a file, in its order. -/
def fileMerges {δ : Type} (model : Json δ) : List Merge :=
  ((model.getObjectItem (literal "merges")).map readMerges).getD []

/-- The tokenizer answers as its file does: both lookups are searches of the file's lists from their
front, and a text is cut at the longest added tokens. -/
structure Handle.Searches {δ : Type} (env : Env δ) (dir : List UInt8) (t : Handle)
    (text : List UInt8) (root model vocab : Json δ) : Prop where
  hasFile : readFile env (jsonPath dir) = some text
  hasRoot : env.parse text = some root
  hasModel : root.getObjectItem (literal "model") = some model
  hasVocab : model.getObjectItem (literal "vocab") = some vocab
  ventry : readVocab env vocab = some t.ventry
  mentry : t.mentry = fileMerges model
  vocabGet : ∀ s, t.vocabGet s =
    some (((t.ventry.find? fun e => e.str = s).map Token.id).getD (-1))
  mergeRank : (model.getObjectItem (literal "merges")).isSome → ∀ a b, t.mergeRank a b =
    some (((t.mentry.find? fun m => m.a = a ∧ m.b = b).map fun m => (m.rank : ℤ)).getD (-1))
  perm : t.sentry.Perm (fileAdded env root)
  longestFirst : t.LongestFirst
  stable : ∀ s, (t.sentry.find? fun a => a.str = s) = (fileAdded env root).find? fun a => a.str = s
  encode : ∀ s ids, t.encode s = some ids ↔
    ∃ parts, Cuts t [] (cString s) parts ∧ t.PartsGive parts ids

/-- What a tokenizer is made of that loads. -/
lemma load_lists {δ : Type} {env : Env δ} {dir : List UInt8} (h : load env dir = pure t) :
    ∃ text root model vocab, readFile env (jsonPath dir) = some text ∧
      env.parse text = some root ∧ root.getObjectItem (literal "model") = some model ∧
      model.getObjectItem (literal "vocab") = some vocab ∧
      readVocab env vocab = some t.ventry ∧ t.mentry = fileMerges model ∧
      t.mbucket.isSome = (model.getObjectItem (literal "merges")).isSome ∧
      t.sentry = sortAdded (fileAdded env root) := by
  simp only [load, bind_eq_pure, orFault_eq_pure, orError_eq_pure, pure_eq_pure] at h
  obtain ⟨text, hfile, root, hparse, model, hmodel, vocab, hvocab, -, -, ventry, hventry, _, -,
    ⟨mentry, mbucket⟩, hmerges, sentry, hadded, _, -, rfl⟩ := h
  refine ⟨text, root, model, vocab, hfile, hparse, hmodel, hvocab, hventry, ?_, ?_, ?_⟩
  · dsimp only
    rw [fileMerges]
    cases hitem : model.getObjectItem (literal "merges") with
    | none =>
      rw [hitem, loadMerges, pure_eq_pure] at hmerges
      rw [← (Prod.mk.inj hmerges).1]
      rfl
    | some merges =>
      rw [hitem] at hmerges
      simp only [loadMerges, bind_eq_pure, pure_eq_pure] at hmerges
      obtain ⟨-, -, _, -, heq⟩ := hmerges
      rw [← (Prod.mk.inj heq).1]
      rfl
  · dsimp only
    cases hitem : model.getObjectItem (literal "merges") with
    | none =>
      rw [hitem, loadMerges, pure_eq_pure] at hmerges
      rw [← (Prod.mk.inj hmerges).2]
      rfl
    | some merges =>
      rw [hitem] at hmerges
      simp only [loadMerges, bind_eq_pure, pure_eq_pure] at hmerges
      obtain ⟨-, -, _, -, heq⟩ := hmerges
      rw [← (Prod.mk.inj heq).2]
      rfl
  · dsimp only
    rw [fileAdded]
    cases hitem : root.getObjectItem (literal "added_tokens") with
    | none =>
      rw [hitem, loadAdded, pure_eq_pure] at hadded
      rw [← hadded]
      rfl
    | some added =>
      rw [hitem] at hadded
      simp only [loadAdded, bind_eq_pure, pure_eq_pure] at hadded
      obtain ⟨-, -, rfl⟩ := hadded
      rfl

/-- Both tables are built for every list, and a tokenizer that loads answers as its file does. -/
theorem load_searches :
    (∀ es : List Token, (buildTable (fun e => fnv1a e.str) es.length es).isSome) ∧
    (∀ es : List Merge, (buildTable (fun m => pairHash m.a m.b) (max es.length 1) es).isSome) ∧
    ∀ (δ : Type) (env : Env δ) (dir : List UInt8) (t : Handle), load env dir = pure t →
      ∃ text root model vocab, t.Searches env dir text root model vocab := by
  refine ⟨fun es => ?_, fun es => ?_, fun δ env dir t h => ?_⟩
  · obtain ⟨table, hbuild, -⟩ := buildTable_answers (fun e : Token => fnv1a e.str)
      (le_refl es.length)
    rw [hbuild]
    rfl
  · obtain ⟨table, hbuild, -⟩ := buildTable_answers (fun m : Merge => pairHash m.a m.b)
      (le_max_left es.length 1)
    rw [hbuild]
    rfl
  · obtain ⟨text, root, model, vocab, hfile, hparse, hmodel, hvocab, hventry, hmentry, hmbucket,
      hsentry⟩ := load_lists h
    have hfirst := load_longestFirst h
    refine ⟨text, root, model, vocab, hfile, hparse, hmodel, hvocab, hventry, hmentry,
      (load_loaded h).vocabGet_eq, fun hsome => ?_, hsentry ▸ sortAdded_perm _, hfirst,
      fun s => hsentry ▸ sortAdded_find? _ s, encode_eq_some_iff hfirst⟩
    rw [← hmbucket, Option.isSome_iff_exists] at hsome
    obtain ⟨mbucket, hm⟩ := hsome
    exact (load_loaded h).mergeRank_eq hm

/-- The tokenizer of the sample. -/
theorem load_searches_sample : ∃ t, load (sampleEnv id) (literal "m") = pure t ∧
    ∃ text root model vocab, t.Searches (sampleEnv id) (literal "m") text root model vocab := by
  obtain ⟨t, hload, -⟩ := sample_load id fun b hb => hb
  exact ⟨t, hload, load_searches.2.2 ℕ (sampleEnv id) (literal "m") t hload⟩

/-! ### A token without `<` -/

/-- The text of a `tokenizer.json` with an added token `a`. -/
def plainText : List UInt8 :=
  literal ("\x7b\"model\":\x7b\"vocab\":\x7b\"a\":0\x7d,\"merges\":[\"\"]\x7d," ++
    "\"added_tokens\":[\x7b\"id\":1,\"content\":\"a\"\x7d]\x7d")

/-- The tree `cJSON_Parse` makes of it. -/
def plainAdded : Json ℕ :=
  .array [.object [(literal "id", .number 1), (literal "content", .string (literal "a"))]]

def plainRoot : Json ℕ :=
  .object [(literal "model", emptyModel), (literal "added_tokens", plainAdded)]

/-- The loader's surroundings, with this file in the directory `m`. -/
def plainEnv : Env ℕ where
  file path := if path = literal "m/tokenizer.json" then some plainText else none
  parse text := if text = cString plainText then some plainRoot else none
  toInt32 := Nat.cast

/-- An added token is not taken where it does not begin with `<`. -/
theorem plain_token_passed_over : ¬∀ (δ : Type) (env : Env δ) (dir : List UInt8) (t : Handle),
    load env dir = pure t → ∀ text a, 0 ∉ text → t.Takes text a → a.str = text → a.str ≠ [] →
      t.encode text = some [a.id] := by
  intro h
  have hfile : readFile plainEnv (jsonPath (literal "m")) = some (cString plainText) := by
    decide +kernel
  have hparse : plainEnv.parse (cString plainText) = some plainRoot := by
    simp only [plainEnv, if_pos]
  have htokens : sortAdded (plainAdded.children.filterMap fun it => readAdded plainEnv it.2) =
      [{ str := [0x61], id := 1, special := true }] := rfl
  have hread : readVocab plainEnv (.object [(literal "a", .number 0)]) =
      some [⟨[0x61], 0⟩] := rfl
  obtain ⟨t, hload, hventry, -, -, hsentry⟩ := load_ok hfile hparse
    (show plainRoot.getObjectItem (literal "model") = some emptyModel from rfl)
    (show emptyModel.getObjectItem (literal "vocab") =
      some (.object [(literal "a", .number 0)]) from rfl) (List.cons_ne_nil _ _)
    hread (show emptyModel.getObjectItem (literal "merges") = some (.array [.string []]) from rfl)
    (List.cons_ne_nil _ _)
    (show plainRoot.getObjectItem (literal "added_tokens") = some plainAdded from rfl)
    (List.cons_ne_nil _ _) fun e he => by
      rw [htokens] at he
      simp only [List.map_cons, List.map_nil, List.mem_append, List.mem_singleton] at he
      rcases he with rfl | rfl <;> decide
  rw [htokens] at hsentry
  have htakes : t.Takes [0x61] { str := [0x61], id := 1, special := true } := by
    refine ⟨List.prefix_rfl, fun b hb _ => ?_, by rw [hsentry]; rfl⟩
    rw [hsentry, List.mem_singleton] at hb
    rw [hb]
  have hsymbol : byteSymbol 0x61 = [0x61] := by decide +kernel
  have hclaim := h ℕ plainEnv _ t hload [0x61] _ (by decide) htakes rfl (List.cons_ne_nil _ _)
  have hencode := encode_singleton (load_loaded hload) (b := 0x61) (by decide) (by decide)
    (e := ⟨[0x61], 0⟩) (by rw [hventry, hsymbol]; rfl) le_rfl
  rw [hencode] at hclaim
  exact absurd hclaim (by decide)

end VibeVoice.Tokenizer
