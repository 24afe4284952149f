import VibeVoice.Tokenizer.RoundTrip

/-!
The buffer of a decoded text, in `bpe.c`: `decode_bound` counts the bytes of the tokens, and
`decode_write` writes what their characters stand for.

A byte that no sequence holds is read as the codepoint of its own value.  Where the byte alphabet
has no such codepoint, two bytes are written for the one.

* `cpToByte_lt_256`: which bytes are codepoints of the alphabet.
* `decodeBytes_length`: what the characters of a token cost, and what they save.
* `decodeWrite_within_iff`: when a decoded text fits the buffer made for it.
-/

namespace VibeVoice.Tokenizer

open Utf8

/-! ### The buffer -/

/-- `id_to_token[id]`, where there is one. -/
def Handle.name (t : Handle) (id : ℤ) : Option (List UInt8) :=
  if id < 0 then none else t.idToToken.getD id.toNat none

/-- `decode_bound`. -/
def Handle.decodeBound (t : Handle) (ids : List ℤ) : ℕ :=
  (ids.map fun id => (t.name id).elim 0 List.length).sum

/-- `vv_tokenizer_decode_ex`: a text that goes past the end of the block, with its terminator, is
undefined behaviour. -/
def Handle.decodeEx (t : Handle) (ids : List ℤ) (skipSpecial : Bool) : Load (List UInt8) :=
  let total := t.decodeBound ids + 1
  let w := t.decodeWrite ids skipSpecial
  orFault (if w.length + 1 ≤ total + 1 then some w else none)

/-- `vv_tokenizer_decode_into`, with a buffer of `cap` bytes. -/
def Handle.decodeInto (t : Handle) (ids : List ℤ) (skipSpecial : Bool) (cap : ℕ) :
    Load (List UInt8) :=
  if cap < t.decodeBound ids then throw .overflow
  else
    let w := t.decodeWrite ids skipSpecial
    orFault (if w.length ≤ cap then some w else none)

/-- No decode of these ids writes more than the bound, or past the end of its buffer. -/
structure Handle.Within (t : Handle) (ids : List ℤ) (skipSpecial : Bool) : Prop where
  write : (t.decodeWrite ids skipSpecial).length ≤ t.decodeBound ids
  ex : t.decodeEx ids skipSpecial ≠ orFault none
  into : ∀ cap, t.decodeInto ids skipSpecial cap ≠ orFault none

/-! ### The characters of a token -/

/-- The bytes a codepoint comes to: one where it stands for a byte, else those of its sequence. -/
def needs (cp : ℕ) : ℕ :=
  if 0 ≤ cpToByte cp then 1
  else if cp < 0x80 then 1
  else if cp < 0x800 then 2
  else if cp < 0x10000 then 3
  else 4

/-- At the front stands a byte in no sequence, and the alphabet has no codepoint of its value. -/
def stray (tok : List UInt8) : Bool :=
  (utf8Get tok).2 = 1 && 0x80 ≤ (utf8Get tok).1 && !printable (utf8Get tok).1

/-- The stray bytes of a token. -/
def strays (tok : List UInt8) : ℕ :=
  if _htok : tok = [] then 0
  else (if stray tok then 1 else 0) + strays (tok.drop (utf8Get tok).2)
termination_by tok.length
decreasing_by
  have := utf8Get_adv_pos tok
  have := List.length_pos_iff.mpr _htok
  rw [List.length_drop]
  omega

/-- The bytes its characters take over what their codepoints come to. -/
def spare (tok : List UInt8) : ℕ :=
  if _htok : tok = [] then 0
  else (utf8Get tok).2 - needs (utf8Get tok).1 + spare (tok.drop (utf8Get tok).2)
termination_by tok.length
decreasing_by
  have := utf8Get_adv_pos tok
  have := List.length_pos_iff.mpr _htok
  rw [List.length_drop]
  omega

lemma contBits_lt (s : List UInt8) (i : ℕ) : contBits s i < 2 ^ 6 := by
  rw [contBits, UInt8.toNat_and]
  exact Nat.and_lt_two_pow _ (by decide)

/-- What `utf8_get` reads, and how wide it can be. -/
lemma utf8Get_reads (c : UInt8) (s : List UInt8) :
    utf8Get (c :: s) = (c.toNat, 1) ∨
      ((utf8Get (c :: s)).2 = 2 ∧ (utf8Get (c :: s)).1 < 0x800) ∨
      ((utf8Get (c :: s)).2 = 3 ∧ (utf8Get (c :: s)).1 < 0x10000) ∨
      (utf8Get (c :: s)).2 = 4 := by
  have h₀ := contBits_lt s 0
  have h₁ := contBits_lt s 1
  simp only [utf8Get]
  split_ifs with hc hc hc hc
  · exact .inl rfl
  · refine .inr (.inl ⟨rfl, Nat.or_lt_two_pow (n := 11) ?_ (h₀.trans (by decide))⟩)
    have : (c &&& 0x1F).toNat < 2 ^ 5 := by
      rw [UInt8.toNat_and]
      exact Nat.and_lt_two_pow _ (by decide)
    rw [Nat.shiftLeft_eq]
    omega
  · refine .inr (.inr (.inl ⟨rfl, Nat.or_lt_two_pow (n := 16) (Nat.or_lt_two_pow ?_ ?_)
      (h₁.trans (by decide))⟩))
    · have : (c &&& 0x0F).toNat < 2 ^ 4 := by
        rw [UInt8.toNat_and]
        exact Nat.and_lt_two_pow _ (by decide)
      rw [Nat.shiftLeft_eq]
      omega
    · rw [Nat.shiftLeft_eq]
      omega
  · exact .inr (.inr (.inr rfl))
  · exact .inl rfl

/-- A character comes to no more than the bytes it takes, but for one more at a stray byte. -/
lemma needs_add {tok : List UInt8} (htok : tok ≠ []) :
    needs (utf8Get tok).1 + ((utf8Get tok).2 - needs (utf8Get tok).1) =
      (utf8Get tok).2 + if stray tok then 1 else 0 := by
  obtain ⟨c, s, rfl⟩ := List.exists_cons_of_ne_nil htok
  have hlt := c.toNat_lt
  rcases utf8Get_reads c s with h | ⟨hadv, hcp⟩ | ⟨hadv, hcp⟩ | hadv
  · have hmap := cpToByte_nonneg_iff hlt
    rw [stray, h]
    dsimp only
    rw [needs]
    cases hprint : printable c.toNat with
    | true =>
      rw [if_pos (hmap.mpr hprint)]
      simp
    | false =>
      rw [if_neg (by rw [hmap, hprint]; decide)]
      by_cases hascii : c.toNat < 0x80
      · rw [if_pos hascii, if_neg (by simp; omega)]
      · rw [if_neg hascii, if_pos (by omega), if_pos (by simp; omega)]
  all_goals
    have hstray : stray (c :: s) = false := by
      rw [stray, hadv]
      rfl
    rw [hstray, hadv, if_neg (by decide), needs]
    split_ifs <;> omega

lemma utf8Put_length (cp : ℕ) : (utf8Put cp).length =
    if cp < 0x80 then 1 else if cp < 0x800 then 2 else if cp < 0x10000 then 3 else 4 := by
  rw [utf8Put]
  split_ifs <;> rfl

/-- A token decodes to its own length, and one more for every stray byte, less what its characters
save. -/
theorem decodeBytes_length (tok : List UInt8) :
    (decodeBytes tok).length + spare tok = tok.length + strays tok := by
  fun_induction decodeBytes tok with
  | case1 => rw [spare, strays, dif_pos rfl, dif_pos rfl, List.length_nil]
  | case2 tok htok r b ih =>
    have hone : needs r.1 + (r.2 - needs r.1) = r.2 + if stray tok then 1 else 0 :=
      needs_add htok
    have hle : r.2 ≤ tok.length := utf8Get_adv_le htok
    have hwrite : (if 0 ≤ b then [UInt8.ofNat b.toNat] else utf8Put r.1).length = needs r.1 := by
      rw [needs, ← utf8Put_length]
      split_ifs <;> rfl
    have hspare : spare tok = r.2 - needs r.1 + spare (tok.drop r.2) := by
      rw [spare, dif_neg htok]
    have hstrays : strays tok = (if stray tok then 1 else 0) + strays (tok.drop r.2) := by
      rw [strays, dif_neg htok]
    rw [List.length_drop] at ih
    rw [List.length_append, hwrite, hspare, hstrays]
    omega

/-! ### The tokens of a text -/

variable (t : Handle) (skipSpecial : Bool)

/-- The stray bytes of the token of an id, where the token is in the byte alphabet. -/
def Handle.straysOf (id : ℤ) : ℕ :=
  if (t.sentry.find? fun a => a.id = id).isSome then 0 else (t.name id).elim 0 strays

/-- The bytes of the token of an id over those of its text: all of a token that is left out, none
of an added token that is not. -/
def Handle.spareOf (id : ℤ) : ℕ :=
  match t.sentry.find? fun a => a.id = id with
  | some a => if skipSpecial && a.special then (t.name id).elim 0 List.length else 0
  | none => (t.name id).elim 0 spare

lemma decodeToken_length (id : ℤ) :
    (t.decodeToken skipSpecial id).length + t.spareOf skipSpecial id =
      (t.name id).elim 0 List.length + t.straysOf id := by
  have hname : t.decodeToken skipSpecial id = (t.name id).elim [] fun tok =>
      (t.sentry.find? fun a => a.id = id).elim (decodeBytes tok) fun a =>
        if skipSpecial && a.special then [] else tok := by
    rw [Handle.decodeToken, Handle.name]
    split_ifs
    · rfl
    · cases t.idToToken.getD id.toNat none with
      | none => rfl
      | some tok => cases t.sentry.find? fun a => a.id = id <;> rfl
  rw [hname, Handle.spareOf, Handle.straysOf]
  cases t.name id with
  | none => cases t.sentry.find? fun a => a.id = id <;> simp
  | some tok =>
    cases t.sentry.find? fun a => a.id = id with
    | none => simpa using decodeBytes_length tok
    | some a =>
      dsimp only
      rw [if_pos (show (some a).isSome from rfl)]
      cases hspecial : a.special <;> cases skipSpecial <;> simp [hspecial]

/-- A text, what its tokens save, and what their stray bytes add. -/
theorem decodeWrite_length (ids : List ℤ) :
    (t.decodeWrite ids skipSpecial).length + (ids.map (t.spareOf skipSpecial)).sum =
      t.decodeBound ids + (ids.map t.straysOf).sum := by
  induction ids with
  | nil => rfl
  | cons id ids ih =>
    have hid := decodeToken_length t skipSpecial id
    rw [Handle.decodeWrite, Handle.decodeBound] at ih ⊢
    rw [List.flatMap_cons, List.length_append, List.map_cons, List.sum_cons, List.map_cons,
      List.sum_cons, List.map_cons, List.sum_cons]
    omega

lemma orFault_ite_ne {α : Type} {p : Prop} [Decidable p] {a : α} :
    orFault (if p then some a else none) ≠ orFault none ↔ p := by
  split_ifs with hp
  · exact ⟨fun _ => hp, fun _ h => by cases h⟩
  · exact ⟨fun h => absurd rfl h, fun h => absurd h hp⟩

/-- Within the bound, both buffers hold the text. -/
lemma Handle.Within.of_write {ids : List ℤ}
    (h : (t.decodeWrite ids skipSpecial).length ≤ t.decodeBound ids) :
    t.Within ids skipSpecial := by
  refine ⟨h, ?_, fun cap => ?_⟩
  · rw [Handle.decodeEx, orFault_ite_ne]
    omega
  · rw [Handle.decodeInto]
    split_ifs with hcap
    · exact fun h => by cases h
    · rw [orFault_ite_ne]
      omega

/-- A decoded text fits its buffers exactly when the stray bytes of its tokens are no more than
the bytes its other characters save. -/
theorem decodeWrite_within_iff (ids : List ℤ) : t.Within ids skipSpecial ↔
    (ids.map t.straysOf).sum ≤ (ids.map (t.spareOf skipSpecial)).sum := by
  have hlen := decodeWrite_length t skipSpecial ids
  constructor
  · intro h
    have := h.write
    omega
  · intro h
    exact .of_write t skipSpecial (by omega)

/-! ### A token that is not UTF-8 -/

/-- The text of a `tokenizer.json` whose one token is two stray bytes. -/
def strayText : List UInt8 :=
  literal "\x7b\"model\":\x7b\"vocab\":\x7b\"" ++ [0x80, 0x80] ++
    literal "\":0\x7d,\"merges\":[\"\"]\x7d,\"added_tokens\":[\x7b\x7d]\x7d"

/-- The tree `cJSON_Parse` makes of it. -/
def strayModel : Json ℕ :=
  .object [(literal "vocab", .object [([0x80, 0x80], .number 0)]),
    (literal "merges", .array [.string []])]

def strayRoot : Json ℕ :=
  .object [(literal "model", strayModel), (literal "added_tokens", .array [.object []])]

/-- The loader's surroundings, with this file in the directory `m`. -/
def strayEnv : Env ℕ where
  file path := if path = literal "m/tokenizer.json" then some strayText else none
  parse text := if text = cString strayText then some strayRoot else none
  toInt32 := Nat.cast

/-- Its id alone is decoded past the end of the block. -/
theorem stray_token_overruns : ¬∀ (δ : Type) (env : Env δ) (dir : List UInt8) (t : Handle),
    load env dir = pure t → ∀ ids skipSpecial, t.Within ids skipSpecial := by
  intro h
  have hfile : readFile strayEnv (jsonPath (literal "m")) = some (cString strayText) := by
    decide +kernel
  have hparse : strayEnv.parse (cString strayText) = some strayRoot := by
    simp only [strayEnv, if_pos]
  have hmerges : strayModel.getObjectItem (literal "merges") = some (.array [.string []]) := rfl
  have hadded : strayRoot.getObjectItem (literal "added_tokens") = some (.array [.object []]) := rfl
  obtain ⟨t, hload, hventry, -, -, hsentry⟩ := load_ok hfile hparse
    (show strayRoot.getObjectItem (literal "model") = some strayModel from rfl)
    (show strayModel.getObjectItem (literal "vocab") =
      some (.object [([0x80, 0x80], .number 0)]) from rfl) (List.cons_ne_nil _ _)
    (readVocab_object strayEnv _) hmerges (List.cons_ne_nil _ _) hadded (List.cons_ne_nil _ _)
    fun e he => by
      obtain rfl : e = ⟨[0x80, 0x80], 0⟩ := List.mem_singleton.mp he
      decide
  have hnames := (load_loaded hload).names
  rw [hventry, hsentry] at hnames
  have hname : t.idToToken = [some [0x80, 0x80]] := (Option.some.inj hnames).symm
  have hsentry : t.sentry = [] := hsentry
  refine (h ℕ strayEnv _ t hload [0] false).ex ?_
  have hwrite : t.decodeWrite [0] false = [0xC2, 0x80, 0xC2, 0x80] := by
    have htok : t.decodeToken false 0 = decodeBytes [0x80, 0x80] := by
      rw [Handle.decodeToken, hname, hsentry]
      rfl
    rw [Handle.decodeWrite, List.flatMap_singleton, htok]
    decide +kernel
  have hbound : t.decodeBound [0] = 2 := by
    rw [Handle.decodeBound, List.map_singleton, Handle.name, hname]
    rfl
  rw [Handle.decodeEx, hwrite, hbound]
  rfl

end VibeVoice.Tokenizer
