import VibeVoice.Lib.Probing
import VibeVoice.Model.Cjson
import VibeVoice.Status

/-!
`vv_tokenizer_load` of `bpe.c`, and the lookups in the two tables it builds.

A bucket holds the entry itself in place of its index, `none` for `-1`.  `cJSON_Parse`, the file
system and the conversion of a `double` to `int32_t` are parameters (`Env`).  A block that is not
empty is always found, lengths and counts are natural numbers, and a run that reads through `NULL`
or goes round for ever is `none`.

* `buildTable_answers`: a table with twice the room answers as its list does, first entry first.
* `Handle.Loaded`, `load_loaded`: what holds of a tokenizer that loads.
-/

namespace VibeVoice.Tokenizer

/-! ### Hash tables -/

/-- `fnv1a`. -/
def fnv1a (s : List UInt8) : UInt64 :=
  s.foldl (fun h c => (h ^^^ c.toUInt64) * 1099511628211) 1469598103934665603

/-- `pair_hash`. -/
def pairHash (a b : List UInt8) : UInt64 := fnv1a a * 1000003 ^^^ fnv1a b

/-- `(uint32_t)h & mask`. -/
def bucketOf (mask : ℕ) (h : UInt64) : ℕ := h.toUInt32.toNat &&& mask

/-- `while (p < v) p <<= 1`. -/
def doubleUpTo (p v : ℕ) : ℕ := if _h : 0 < p ∧ p < v then doubleUpTo (p * 2) v else p
termination_by v - p

/-- `next_pow2`. -/
def nextPow2 (v : ℕ) : ℕ := doubleUpTo 16 v

variable {ι β : Type}

/-- The buckets for `room` entries, with a list of entries put into them. -/
def buildTable (hash : ι → UInt64) (room : ℕ) (es : List ι) : Option (List (Option ι)) :=
  let mask := nextPow2 (room * 2) - 1
  Probing.build (· &&& mask) (fun e => bucketOf mask (hash e)) (mask + 1) es

/-- The probing loop of `vocab_get` and `merge_rank`. -/
def lookup (h : UInt64) (f : ι → Option β) (table : List (Option ι)) : Option (Option β) :=
  let mask := table.length - 1
  Probing.get (· &&& mask) f table.length (bucketOf mask h) table

/-- A lookup ends, and is a search of the list from its front. -/
def Answers (hash : ι → UInt64) (es : List ι) (table : List (Option ι)) : Prop :=
  ∀ (β : Type) (h : UInt64) (f : ι → Option β), (∀ e, hash e ≠ h → f e = none) →
    lookup h f table = some (es.findSome? f)

lemma doubleUpTo_spec (k v : ℕ) :
    ∃ k', doubleUpTo (2 ^ k) v = 2 ^ k' ∧ v ≤ 2 ^ k' := by
  induction h : v - 2 ^ k using Nat.strong_induction_on generalizing k with
  | _ n ih =>
    have hpos : 0 < 2 ^ k := Nat.two_pow_pos k
    rw [doubleUpTo]
    split_ifs with hlt
    · rw [← pow_succ]
      exact ih _ (by rw [← h, pow_succ]; omega) (k + 1) rfl
    · exact ⟨k, rfl, by omega⟩

/-- The number of buckets is a power of two, and at least what was asked for. -/
lemma nextPow2_spec (v : ℕ) : ∃ k, nextPow2 v = 2 ^ k ∧ v ≤ 2 ^ k :=
  doubleUpTo_spec 4 v

/-- A table with twice the room answers as its list does. -/
theorem buildTable_answers (hash : ι → UInt64) {room : ℕ} {es : List ι}
    (hfit : es.length ≤ room) :
    ∃ table, buildTable hash room es = some table ∧ Answers hash es table := by
  obtain ⟨k, hk, hle⟩ := nextPow2_spec (room * 2)
  have hpos : 0 < 2 ^ k := Nat.two_pow_pos k
  have hwrap : ∀ i, i &&& (2 ^ k - 1) = i % 2 ^ k := fun i => Nat.and_two_pow_sub_one_eq_mod i k
  have hbucket : ∀ h, bucketOf (2 ^ k - 1) h < 2 ^ k := fun h => by
    rw [bucketOf, hwrap]
    exact Nat.mod_lt _ hpos
  obtain ⟨table, hbuild, hlen, hholds⟩ :=
    Probing.build_holds hwrap (fun e => hbucket (hash e)) (show es.length ≤ 2 ^ k by omega)
  refine ⟨table, ?_, fun β h f hf => ?_⟩
  · rw [buildTable, hk, Nat.sub_add_cancel hpos]
    exact hbuild
  · rw [lookup, hlen]
    exact Probing.get_holds hwrap hholds hlen (by omega) (hbucket h) f fun e he =>
      hf e fun heq => he (by rw [heq])

/-! ### The tokenizer -/

/-- `vocab_entry_t`. -/
structure Token where
  str : List UInt8
  id : ℤ

/-- `merge_entry_t`. -/
structure Merge where
  a : List UInt8
  b : List UInt8
  rank : ℕ

/-- An entry of `sentry`, with its `s_is_special`. -/
structure Added extends Token where
  special : Bool

/-- `vv_tokenizer_t`; `mbucket` is `none` where it is `NULL`. -/
structure Handle where
  ventry : List Token
  vbucket : List (Option Token)
  mentry : List Merge
  mbucket : Option (List (Option Merge))
  idToToken : List (Option (List UInt8))
  sentry : List Added

/-- `vocab_get`. -/
def Handle.vocabGet (t : Handle) (s : List UInt8) : Option ℤ :=
  (lookup (fnv1a s) (fun e => if e.str = s then some e.id else none) t.vbucket).map (·.getD (-1))

/-- `merge_rank`. -/
def Handle.mergeRank (t : Handle) (a b : List UInt8) : Option ℤ :=
  t.mbucket.bind fun mbucket =>
    (lookup (pairHash a b) (fun m => if m.a = a ∧ m.b = b then some (m.rank : ℤ) else none)
      mbucket).map (·.getD (-1))

/-! ### Loading -/

/-- What the loader calls outside this file: the bytes of a file, `cJSON_Parse`, and the
conversion of a `double` to `int32_t`. -/
structure Env (δ : Type) where
  file : List UInt8 → Option (List UInt8)
  parse : List UInt8 → Option (Json δ)
  toInt32 : δ → ℤ

/-- How the loader runs: it ends with a value or with a status, or not at all. -/
abbrev Load := ExceptT Status Option

/-- A value, or the status of a call without one. -/
def orError {α : Type} (st : Status) (o : Option α) : Load α :=
  ExceptT.mk (some (o.elim (.error st) .ok))

/-- A value, or undefined behaviour. -/
def orFault {α : Type} (o : Option α) : Load α := ExceptT.mk (o.map .ok)

/-- A block for as many entries as `vv_alloc` is asked for: none is found for no entries. -/
def alloc (n : ℕ) : Load Unit := orError .outOfMemory (if n = 0 then none else some ())

/-- The path of `tokenizer.json`, in a buffer of 512 bytes. -/
def jsonPath (dir : List UInt8) : List UInt8 :=
  let closed := dir.getLast? = some 0x2F ∨ dir.getLast? = some 0x5C
  ((if closed then dir else dir ++ [0x2F]) ++ literal "tokenizer.json").take 511

section

variable {δ : Type} (env : Env δ)

/-- `read_file`, up to the first NUL. -/
def readFile (path : List UInt8) : Option (List UInt8) :=
  (env.file path).bind fun bytes => if bytes = [] then none else some (cString bytes)

/-- `ventry` as the loop fills it; an item of an array has no name to copy. -/
def readVocab (vocab : Json δ) : Option (List Token) :=
  vocab.children.mapM fun item =>
    item.1.map fun name => ⟨cString name, item.2.valueDouble env.toInt32⟩

/-- The sides of a merge, `none` where the loop goes on to the next. -/
def mergeSides : Json δ → Option (List UInt8 × List UInt8)
  | .string s =>
    let s := cString s
    if 0x20 ∈ s then some (s.takeWhile (· ≠ 0x20), (s.dropWhile (· ≠ 0x20)).tail) else none
  | .array [x, y] => x.valueString.bind fun a => y.valueString.map fun b => (a, b)
  | _ => none

/-- `mentry` as the loop fills it. -/
def readMerges (merges : Json δ) : List Merge :=
  merges.children.zipIdx.filterMap fun m =>
    (mergeSides m.1.2).map fun sides => ⟨sides.1, sides.2, m.2⟩

/-- `mentry` and `mbucket`. -/
def loadMerges : Option (Json δ) → Load (List Merge × Option (List (Option Merge)))
  | none => pure ([], none)
  | some merges => do
      alloc merges.children.length
      let mentry := readMerges merges
      let mbucket ← orFault (buildTable (fun m => pairHash m.a m.b) (max mentry.length 1) mentry)
      pure (mentry, some mbucket)

/-- An item of `added_tokens`, `none` where the loop goes on to the next. -/
def readAdded (it : Json δ) : Option Added :=
  match it.getObjectItem (literal "content"), it.getObjectItem (literal "id") with
  | some c, some id => c.valueString.map fun s =>
    { str := s
      id := id.valueDouble env.toInt32
      special := ((it.getObjectItem (literal "special")).map Json.isTrue).getD true }
  | _, _ => none

/-- `while (j >= 0 && sentry[j].len < e.len)`, from the last entry sorted so far. -/
def insertAdded (e : Added) : List Added → List Added
  | [] => [e]
  | x :: sorted =>
    if x.str.length < e.str.length then x :: insertAdded e sorted else e :: x :: sorted

/-- The insertion sort, longest first. -/
def sortAdded (es : List Added) : List Added :=
  (es.foldl (fun sorted e => insertAdded e sorted) []).reverse

/-- `sentry`. -/
def loadAdded : Option (Json δ) → Load (List Added)
  | none => pure []
  | some added => do
      alloc added.children.length
      pure (sortAdded (added.children.filterMap fun it => readAdded env it.2))

/-- `max_id` after the entries. -/
def maxId (es : List Token) : ℤ := es.foldl (fun m e => if m < e.id then e.id else m) 0

/-- One turn of a loop that fills `id_to_token`. -/
def writeName (names : List (Option (List UInt8))) (e : Token) : List (Option (List UInt8)) :=
  if 0 ≤ e.id ∧ e.id < names.length then names.set e.id.toNat (some e.str) else names

/-- `id_to_token`, for ids up to the highest; the capacity is an `int`. -/
def loadNames (es : List Token) : Option (List (Option (List UInt8))) :=
  let capacity := maxId es + 1
  if capacity < 2 ^ 31 then some (es.foldl writeName (List.replicate capacity.toNat none)) else none

/-- `vv_tokenizer_load`. -/
def load (dir : List UInt8) : Load Handle := do
  let text ← orError .io (readFile env (jsonPath dir))
  let root ← orError .parse (env.parse text)
  let model ← orError .parse (root.getObjectItem (literal "model"))
  let vocab ← orError .parse (model.getObjectItem (literal "vocab"))
  alloc vocab.children.length
  let ventry ← orFault (readVocab env vocab)
  let vbucket ← orFault (buildTable (fun e => fnv1a e.str) ventry.length ventry)
  let (mentry, mbucket) ← loadMerges (model.getObjectItem (literal "merges"))
  let sentry ← loadAdded env (root.getObjectItem (literal "added_tokens"))
  let idToToken ← orFault (loadNames (ventry ++ sentry.map Added.toToken))
  pure { ventry, vbucket, mentry, mbucket, idToToken, sentry }

end

/-! ### What a loaded tokenizer holds -/

/-- A step that ends with a value, and what follows it. -/
lemma bind_eq_pure {α γ : Type} {x : Load α} {f : α → Load γ} {c : γ} :
    x >>= f = pure c ↔ ∃ a, x = pure a ∧ f a = pure c := by
  constructor
  · intro h
    match x, h with
    | some (.ok a), h => exact ⟨a, rfl, h⟩
    | some (.error _), h => cases h
    | none, h => cases h
  · rintro ⟨a, rfl, h⟩
    exact h

lemma pure_eq_pure {α : Type} {a a' : α} : (pure a : Load α) = pure a' ↔ a = a' :=
  ⟨fun h => by (cases h; rfl), congrArg _⟩

lemma orFault_eq_pure {α : Type} {o : Option α} {a : α} : orFault o = pure a ↔ o = some a := by
  cases o with
  | none => exact ⟨(by cases ·), (by cases ·)⟩
  | some a' => exact ⟨fun h => by (cases h; rfl), fun h => by (cases h; rfl)⟩

/-- The tables answer as the lists do, and the names are written from both lists. -/
structure Handle.Loaded (t : Handle) : Prop where
  vocab : Answers (fun e => fnv1a e.str) t.ventry t.vbucket
  merges : ∀ mbucket, t.mbucket = some mbucket →
    Answers (fun m => pairHash m.a m.b) t.mentry mbucket
  names : loadNames (t.ventry ++ t.sentry.map Added.toToken) = some t.idToToken

variable {δ : Type} {env : Env δ}

lemma loadMerges_answers {merges : Option (Json δ)} {mentry : List Merge}
    {mbucket : Option (List (Option Merge))} (h : loadMerges merges = pure (mentry, mbucket)) :
    ∀ table, mbucket = some table → Answers (fun m => pairHash m.a m.b) mentry table := by
  intro table htable
  cases merges with
  | none =>
    rw [loadMerges, pure_eq_pure, htable] at h
    cases h
  | some merges =>
    simp only [loadMerges, bind_eq_pure, orFault_eq_pure, pure_eq_pure] at h
    obtain ⟨-, -, table', hbuild, heq⟩ := h
    obtain ⟨rfl, rfl⟩ := Prod.mk.inj heq
    obtain rfl := Option.some.inj htable
    obtain ⟨table', hbuild', hanswers⟩ := buildTable_answers _ (le_max_left _ 1)
    obtain rfl := Option.some.inj (hbuild.symm.trans hbuild')
    exact hanswers

theorem load_loaded {dir : List UInt8} {t : Handle} (h : load env dir = pure t) : t.Loaded := by
  simp only [load, bind_eq_pure, orFault_eq_pure, pure_eq_pure] at h
  obtain ⟨_, -, _, -, model, -, _, -, -, -, ventry, -, vbucket, hvocab, ⟨mentry, mbucket⟩, hmerges,
    sentry, -, idToToken, hnames, rfl⟩ := h
  obtain ⟨table, hbuild, hanswers⟩ := buildTable_answers _ (le_refl ventry.length)
  obtain rfl := Option.some.inj (hvocab.symm.trans hbuild)
  exact ⟨hanswers, loadMerges_answers hmerges, hnames⟩

lemma orError_eq_pure {α : Type} {st : Status} {o : Option α} {a : α} :
    orError st o = pure a ↔ o = some a := by
  cases o with
  | none => exact ⟨(by cases ·), (by cases ·)⟩
  | some a' => exact ⟨fun h => by (cases h; rfl), fun h => by (cases h; rfl)⟩

lemma alloc_eq_pure {n : ℕ} {u : Unit} : alloc n = pure u ↔ n ≠ 0 := by
  rw [alloc, orError_eq_pure]
  split_ifs with hn <;> simp [hn]

lemma maxId_le {es : List Token} {m : ℤ} (hm : 0 ≤ m) (h : ∀ e ∈ es, e.id ≤ m) : maxId es ≤ m := by
  induction es using List.reverseRecOn with
  | nil => exact hm
  | append_singleton es e ih =>
    rw [maxId, List.foldl_append, ← maxId, List.foldl_cons, List.foldl_nil]
    split_ifs
    · exact h e (by simp)
    · exact ih fun e he => h e (List.mem_append_left _ he)

/-- Lists that are there and not empty load, where the highest id leaves room in an `int`. -/
theorem load_ok {dir text : List UInt8} {root model vocab merges added : Json δ}
    {ventry : List Token} (hfile : readFile env (jsonPath dir) = some text)
    (hparse : env.parse text = some root)
    (hmodel : root.getObjectItem (literal "model") = some model)
    (hvocab : model.getObjectItem (literal "vocab") = some vocab) (hv : vocab.children ≠ [])
    (hread : readVocab env vocab = some ventry)
    (hmerges : model.getObjectItem (literal "merges") = some merges) (hm : merges.children ≠ [])
    (hadded : root.getObjectItem (literal "added_tokens") = some added) (ha : added.children ≠ [])
    (hids : ∀ e ∈ ventry ++ (sortAdded (added.children.filterMap fun it =>
      readAdded env it.2)).map Added.toToken, e.id < 2 ^ 31 - 1) :
    ∃ t, load env dir = pure t ∧ t.ventry = ventry ∧ t.mentry = readMerges merges ∧
      t.mbucket.isSome ∧
      t.sentry = sortAdded (added.children.filterMap fun it => readAdded env it.2) := by
  obtain ⟨vbucket, hvbucket, -⟩ := buildTable_answers (fun e : Token => fnv1a e.str)
    (le_refl ventry.length)
  obtain ⟨mbucket, hmbucket, -⟩ := buildTable_answers (fun m : Merge => pairHash m.a m.b)
    (le_max_left (readMerges merges).length 1)
  have hcap := maxId_le (by decide) fun e he => Int.le_sub_one_of_lt (hids e he)
  obtain ⟨names, hnames⟩ : ∃ names, loadNames (ventry ++ (sortAdded (added.children.filterMap
      fun it => readAdded env it.2)).map Added.toToken) = some names := by
    simp only [loadNames]
    rw [if_pos (by omega)]
    exact ⟨_, rfl⟩
  refine ⟨⟨ventry, vbucket, readMerges merges, some mbucket, names, _⟩, ?_, rfl, rfl, rfl, rfl⟩
  simp only [load, bind_eq_pure, orFault_eq_pure, orError_eq_pure, alloc_eq_pure, pure_eq_pure]
  refine ⟨text, hfile, root, hparse, model, hmodel, vocab, hvocab, (), ?_, ventry, hread, vbucket,
    hvbucket, (readMerges merges, some mbucket), ?_, _, ?_, names, hnames, rfl⟩
  · simpa using hv
  · simp only [hmerges, loadMerges, bind_eq_pure, orFault_eq_pure, alloc_eq_pure, pure_eq_pure]
    exact ⟨(), by simpa using hm, mbucket, hmbucket, rfl⟩
  · simp only [hadded, loadAdded, bind_eq_pure, alloc_eq_pure]
    exact ⟨(), by simpa using ha, trivial⟩

/-- The members of an object are read with their names. -/
lemma readVocab_object (env : Env δ) (members : List (List UInt8 × Json δ)) :
    readVocab env (.object members) =
      some (members.map fun m => ⟨cString m.1, m.2.valueDouble env.toInt32⟩) := by
  induction members with
  | nil => rfl
  | cons m members ih =>
    simp only [readVocab, Json.children, List.map_cons, List.mapM_cons] at ih ⊢
    rw [ih]
    rfl

/-! ### Lookups -/

lemma findSome?_ite (p : ι → Prop) [DecidablePred p] (g : ι → β) (l : List ι) :
    (l.findSome? fun x => if p x then some (g x) else none) = (l.find? p).map g := by
  induction l with
  | nil => rfl
  | cons x l ih =>
    rw [List.findSome?_cons, List.find?_cons]
    by_cases hx : p x <;> simp [hx, ih]

variable {t : Handle}

/-- `vocab_get` is a search of the vocabulary from its front. -/
theorem Handle.Loaded.vocabGet_eq (h : t.Loaded) (s : List UInt8) :
    t.vocabGet s = some (((t.ventry.find? fun e => e.str = s).map Token.id).getD (-1)) := by
  rw [Handle.vocabGet, h.vocab ℤ _ _ fun e he => if_neg fun hs => he (congrArg fnv1a hs),
    Option.map_some, findSome?_ite]

/-- `merge_rank` is a search of the merges from their front. -/
theorem Handle.Loaded.mergeRank_eq (h : t.Loaded) {mbucket : List (Option Merge)}
    (hm : t.mbucket = some mbucket) (a b : List UInt8) :
    t.mergeRank a b =
      some (((t.mentry.find? fun m => m.a = a ∧ m.b = b).map fun m => (m.rank : ℤ)).getD (-1)) := by
  rw [Handle.mergeRank, hm, Option.bind_some,
    h.merges mbucket hm ℤ _ _ fun m hne => if_neg fun hs => hne (congrArg₂ pairHash hs.1 hs.2),
    Option.map_some, findSome?_ite]

lemma writeName_length (names : List (Option (List UInt8))) (e : Token) :
    (writeName names e).length = names.length := by
  rw [writeName]
  split_ifs
  · exact List.length_set
  · rfl

lemma foldl_writeName_length (es : List Token) (names : List (Option (List UInt8))) :
    (es.foldl writeName names).length = names.length := by
  induction es generalizing names with
  | nil => rfl
  | cons e es ih => rw [List.foldl_cons, ih, writeName_length]

/-- The last entry with an id gives its name. -/
lemma foldl_writeName_get (es : List Token) (names : List (Option (List UInt8))) {k : ℕ}
    (hk : k < names.length) :
    (es.foldl writeName names).getD k none =
      ((es.reverse.find? fun e => e.id = (k : ℤ)).map Token.str).or (names.getD k none) := by
  induction es using List.reverseRecOn with
  | nil => rfl
  | append_singleton es e ih =>
    have hlen := foldl_writeName_length es names
    rw [List.foldl_append, List.reverse_append, List.foldl_cons, List.foldl_nil,
      List.reverse_singleton, List.singleton_append, List.find?_cons, writeName, hlen]
    by_cases he : e.id = k
    · rw [if_pos (by omega), decide_eq_true he]
      dsimp only
      rw [List.getD_eq_getElem?_getD, show e.id.toNat = k by omega,
        List.getElem?_set_self (by omega)]
      rfl
    · rw [decide_eq_false he, ← ih]
      split_ifs with hrange
      · rw [List.getD_eq_getElem?_getD, List.getElem?_set_ne (by omega),
          ← List.getD_eq_getElem?_getD]
      · rfl

lemma le_maxId {es : List Token} {e : Token} (he : e ∈ es) : e.id ≤ maxId es := by
  have hmono : ∀ (es : List Token) (m : ℤ),
      m ≤ es.foldl (fun m e => if m < e.id then e.id else m) m ∧
        ∀ e ∈ es, e.id ≤ es.foldl (fun m e => if m < e.id then e.id else m) m := by
    intro es
    induction es with
    | nil => exact fun m => ⟨le_rfl, by simp⟩
    | cons x es ih =>
      intro m
      obtain ⟨hm, hes⟩ := ih (if m < x.id then x.id else m)
      rw [List.foldl_cons]
      refine ⟨le_trans ?_ hm, fun e he => ?_⟩
      · split_ifs <;> omega
      · rcases List.mem_cons.mp he with rfl | he
        · exact le_trans (by split_ifs <;> omega) hm
        · exact hes e he
  exact (hmono es 0).2 e he

/-- An id that is no less than zero has the name of an entry with this id. -/
theorem Handle.Loaded.name_of_mem (h : t.Loaded) {e : Token}
    (he : e ∈ t.ventry ++ t.sentry.map Added.toToken) (hid : 0 ≤ e.id) :
    ∃ e' ∈ t.ventry ++ t.sentry.map Added.toToken, e'.id = e.id ∧
      t.idToToken.getD e.id.toNat none = some e'.str := by
  have hnames := h.names
  have hmax := le_maxId he
  simp only [loadNames] at hnames
  split_ifs at hnames
  rw [← Option.some.inj hnames, foldl_writeName_get _ _ (by rw [List.length_replicate]; omega)]
  obtain ⟨e', hfind⟩ : ∃ e', (t.ventry ++ t.sentry.map Added.toToken).reverse.find?
      (fun e' => e'.id = (e.id.toNat : ℤ)) = some e' := by
    rw [← Option.isSome_iff_exists, List.find?_isSome]
    exact ⟨e, List.mem_reverse.mpr he, by simpa using (Int.toNat_of_nonneg hid).symm⟩
  have hmem := List.mem_of_find?_eq_some hfind
  have heq := List.find?_some hfind
  refine ⟨e', List.mem_reverse.mp hmem, ?_, by rw [hfind]; rfl⟩
  simp only [decide_eq_true_eq] at heq
  omega

end VibeVoice.Tokenizer
