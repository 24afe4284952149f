import VibeVoice.Decode.Truncated

/-!
What is read out of an answer without a parser.

* `findPattern_skip`, `findPattern_hit`: the search of `find_key` over a text in parts.
* `findPattern_members`: in a well-formed object it finds the members with the key, as long as no
  string ends like a key.
* `readJsonString_body`: `read_json_string` resolves the escapes it knows.
* `recovery_agrees`: on arrays of objects that keep to these, the recovery gives the segments of the
  tree.
-/

namespace VibeVoice.Postprocess

open JsonText

variable {δ φ : Type}

/-! ### The search for a key -/

lemma findPattern_skip {p : List UInt8} (n : ℕ) {u v : List UInt8}
    (h : ∀ i < u.length, ¬p <+: (u ++ v).drop i) :
    findPattern p n (u ++ v) = findPattern p (n - u.length) v := by
  induction u generalizing n with
  | nil => rfl
  | cons c u ih =>
    have hrest : ∀ i < u.length, ¬p <+: (u ++ v).drop i :=
      fun i hi => h (i + 1) (Nat.succ_lt_succ hi)
    have hhere : ¬p <+: c :: (u ++ v) := h 0 (Nat.succ_pos _)
    rw [List.cons_append, findPattern, if_neg hhere]
    split_ifs with hshort
    · have hlen : n - (c :: u).length < p.length := lt_of_le_of_lt (Nat.sub_le _ _) hshort
      cases v <;> rw [findPattern, if_pos hlen]
    · rw [ih (n - 1) hrest, Nat.sub_sub, List.length_cons, Nat.add_comm 1]

lemma findPattern_hit {p : List UInt8} {n : ℕ} (hn : p.length ≤ n) (hp : p ≠ []) (v : List UInt8) :
    findPattern p n (p ++ v) = some (skipColon (n - p.length) v) := by
  obtain ⟨c, q, rfl⟩ := List.exists_cons_of_ne_nil hp
  rw [List.cons_append, findPattern, if_neg (Nat.not_lt.mpr hn), ← List.cons_append,
    if_pos (List.prefix_append _ v), List.drop_left]

/-- The pattern of a key. -/
abbrev pattern (key : List UInt8) : List UInt8 := quote :: (key ++ [quote])

/-- A text without a quote is passed over. -/
lemma findPattern_quiet (key : List UInt8) (n : ℕ) {u : List UInt8} (hu : quote ∉ u)
    (v : List UInt8) :
    findPattern (pattern key) n (u ++ v) = findPattern (pattern key) (n - u.length) v := by
  refine findPattern_skip n fun i hi hmatch => hu ?_
  obtain ⟨w, hw⟩ := hmatch
  rw [List.drop_append_of_le_length hi.le, List.drop_eq_getElem_cons hi] at hw
  have hhead : quote = u[i] := (List.cons.inj hw).1
  exact hhead ▸ List.getElem_mem hi

/-- Behind the last quote nothing is found. -/
lemma findPattern_none (key : List UInt8) {n : ℕ} {u : List UInt8} (hu : quote ∉ u)
    (hn : n ≤ u.length + 1) (v : List UInt8) : findPattern (pattern key) n (u ++ v) = none := by
  have hlen : n - u.length < (pattern key).length := by
    rw [pattern, List.length_cons, List.length_append, List.length_singleton]
    omega
  rw [findPattern_quiet key n hu]
  cases v <;> rw [findPattern, if_pos hlen]

/-! ### Keys in a text -/

/-- What the spellings have in common. -/
def Spelled (key : List UInt8) : Prop :=
  ∀ c ∈ key, c ≠ quote ∧ c ≠ backslash ∧ c ≠ 0x3A ∧ c ≠ 0x2C ∧ c ≠ closeBrace

/-- A key that is closed in front of a delimiter has no room between quotes. -/
lemma not_key_between {key w z : List UInt8} {c : UInt8} (hw : quote ∉ w) (hc : c ≠ quote)
    (hkey : c ∉ key) : ¬key ++ [quote] <+: w ++ c :: z := by
  induction key generalizing w with
  | nil =>
    intro h
    cases w with
    | nil => exact hc (List.cons_prefix_cons.mp h).1.symm
    | cons d w =>
      exact hw ((List.cons_prefix_cons.mp h).1 ▸ List.mem_cons_self)
  | cons b key ih =>
    intro h
    cases w with
    | nil => exact hkey ((List.cons_prefix_cons.mp h).1 ▸ List.mem_cons_self)
    | cons d w =>
      exact ih (fun h' => hw (List.mem_cons_of_mem d h'))
        (fun h' => hkey (List.mem_cons_of_mem b h')) (List.cons_prefix_cons.mp h).2

lemma Spelled.tail {c : UInt8} {key : List UInt8} (h : Spelled (c :: key)) : Spelled key :=
  fun b hb => h b (List.mem_cons_of_mem c hb)

/-- A key stands at the front of a string only where it is the whole. -/
lemma key_front_iff {key : List UInt8} (hkey : Spelled key) (s : List Piece) (v : List UInt8) :
    key ++ [quote] <+: body s ++ quote :: v ↔ body s = key := by
  have hescaped : ∀ (k t u : List UInt8), Spelled k →
      (k ++ [quote] <+: backslash :: u ↔ backslash :: t = k) := by
    intro k t u hk
    cases k with
    | nil =>
      refine iff_of_false (fun h => ?_) (List.cons_ne_nil _ _)
      exact absurd (List.cons_prefix_cons.mp h).1 (by decide)
    | cons c k =>
      have hc : c ≠ backslash := (hk c List.mem_cons_self).2.1
      exact iff_of_false (fun h => hc (List.cons_prefix_cons.mp h).1)
        fun h => hc (List.cons.inj h).1.symm
  induction s generalizing key with
  | nil =>
    cases key with
    | nil => exact iff_of_true (List.cons_prefix_cons.mpr ⟨rfl, List.nil_prefix⟩) rfl
    | cons c key =>
      have hc : c ≠ quote := (hkey c List.mem_cons_self).1
      exact iff_of_false (fun h => hc (List.cons_prefix_cons.mp h).1) (List.cons_ne_nil _ _).symm
  | cons x s ih =>
    cases x with
    | plain b hb =>
      change key ++ [quote] <+: b :: (body s ++ quote :: v) ↔ b :: body s = key
      cases key with
      | nil =>
        refine iff_of_false (fun h => ?_) (List.cons_ne_nil _ _)
        exact hb.1 (List.cons_prefix_cons.mp h).1.symm
      | cons c key =>
        rw [List.cons_append, List.cons_prefix_cons, List.cons.injEq]
        exact and_congr eq_comm (ih hkey.tail)
    | escape e => exact hescaped key _ _ hkey
    | code h₁ h₂ h₃ h₄ => exact hescaped key _ _ hkey

/-- Whether the string ends in an escaped quote and the key. -/
def EndsLike (key : List UInt8) (s : List Piece) : Prop :=
  ∃ t u, s = t ++ .escape .quote :: u ∧ body u = key

/-- The only quote of a piece is an escaped one. -/
lemma quote_in_piece {x : Piece} {i : ℕ} (hi : i < x.text.length) (h : x.text[i] = quote) :
    x = .escape .quote ∧ i = 1 := by
  have hback : backslash ≠ quote := by decide
  cases x with
  | plain b hb =>
    obtain rfl : i = 0 := Nat.lt_one_iff.mp hi
    exact absurd h hb.1
  | escape e =>
    have hletter : e.letter = quote → e = .quote := by cases e <;> decide
    match i, hi, h with
    | 0, _, h => exact absurd h hback
    | 1, _, h => exact ⟨congrArg Piece.escape (hletter h), rfl⟩
  | code h₁ h₂ h₃ h₄ =>
    have hhex : ∀ h : Hex, h.byte ≠ quote := fun h => (quiet_hex h).1
    have hletter : (0x75 : UInt8) ≠ quote := by decide
    match i, hi, h with
    | 0, _, h => exact absurd h hback
    | 1, _, h => exact absurd h hletter
    | 2, _, h => exact absurd h (hhex h₁)
    | 3, _, h => exact absurd h (hhex h₂)
    | 4, _, h => exact absurd h (hhex h₃)
    | 5, _, h => exact absurd h (hhex h₄)

/-- Inside of a string the pattern of a key stands only at its end. -/
lemma not_pattern_body {key : List UInt8} (hkey : Spelled key) {s : List Piece}
    (hs : ¬EndsLike key s) (v : List UInt8) :
    ∀ i < (body s).length, ¬pattern key <+: (body s ++ quote :: v).drop i := by
  induction s with
  | nil => exact fun i hi => absurd hi (Nat.not_lt_zero i)
  | cons x s ih =>
    have hrest : ¬EndsLike key s := by
      rintro ⟨t, u, rfl, hu⟩
      exact hs ⟨x :: t, u, rfl, hu⟩
    change ∀ i < (x.text ++ body s).length,
      ¬pattern key <+: ((x.text ++ body s) ++ quote :: v).drop i
    intro i hi hmatch
    rw [List.append_assoc] at hmatch
    by_cases hx : x.text.length ≤ i
    · refine ih hrest (i - x.text.length) ?_ ?_
      · rw [List.length_append] at hi
        omega
      · rwa [List.drop_append, List.drop_eq_nil_of_le hx, List.nil_append] at hmatch
    · rw [List.drop_append_of_le_length (not_le.mp hx).le,
        List.drop_eq_getElem_cons (not_le.mp hx), List.cons_append, pattern,
        List.cons_prefix_cons] at hmatch
      obtain ⟨rfl, rfl⟩ := quote_in_piece (not_le.mp hx) hmatch.1.symm
      exact hs ⟨[], s, rfl, (key_front_iff hkey s v).mp hmatch.2⟩

/-- A string that neither is the key nor ends like it is passed over. -/
lemma findPattern_string {key : List UInt8} (hkey : Spelled key) (n : ℕ) {s : List Piece}
    (hs : ¬EndsLike key s) (hbody : body s ≠ key) {w : List UInt8} (hw : quote ∉ w) {c : UInt8}
    (hc : c ≠ quote) (hckey : c ∉ key) (z : List UInt8) :
    findPattern (pattern key) n (quoted s ++ (w ++ c :: z)) =
      findPattern (pattern key) (n - (quoted s).length) (w ++ c :: z) := by
  refine findPattern_skip n fun i hi hmatch => ?_
  have htext : quoted s ++ (w ++ c :: z) = quote :: (body s ++ quote :: (w ++ c :: z)) := by
    simp [quoted]
  rw [htext] at hmatch
  cases i with
  | zero => exact hbody ((key_front_iff hkey s _).mp (List.cons_prefix_cons.mp hmatch).2)
  | succ i =>
    rw [List.drop_succ_cons] at hmatch
    rcases Nat.lt_or_ge i (body s).length with hin | hend
    · exact not_pattern_body hkey hs _ i hin hmatch
    · have hlast : i = (body s).length := by
        rw [quoted, List.length_cons, List.length_append, List.length_singleton] at hi
        omega
      rw [hlast, List.drop_left] at hmatch
      exact not_key_between hw hc hckey (List.cons_prefix_cons.mp hmatch).2

lemma quote_notMem {u : List UInt8} (h : ∀ c ∈ u, Quiet c) : quote ∉ u :=
  fun hq => (h quote hq).1 rfl

/-- Nothing in the member but its key can be taken for the key. -/
structure Clear (key : List UInt8) (m : Member) : Prop where
  name : ¬EndsLike key m.key
  value : ∀ s, m.value = .string s → body s ≠ key ∧ ¬EndsLike key s

lemma findPattern_value {key : List UInt8} (hkey : Spelled key) (n : ℕ) {m : Member}
    (hm : Clear key m) {w : List UInt8} (hw : quote ∉ w) {c : UInt8} (hc : c ≠ quote)
    (hckey : c ∉ key) (z : List UInt8) :
    findPattern (pattern key) n (m.value.text ++ (w ++ c :: z)) =
      findPattern (pattern key) (n - m.value.text.length) (w ++ c :: z) := by
  cases hv : m.value with
  | string s =>
    obtain ⟨hbody, hend⟩ := hm.value s hv
    exact findPattern_string hkey n hend hbody hw hc hckey z
  | number x => exact findPattern_quiet key n (quote_notMem (quiet_number x)) _
  | bool b => exact findPattern_quiet key n (by cases b <;> decide) _
  | null => exact findPattern_quiet key n (by decide) _

/-- A member with another key is passed over. -/
lemma findPattern_member {key : List UInt8} (hkey : Spelled key) (n : ℕ) {m : Member}
    (hm : Clear key m) (hne : body m.key ≠ key) {c : UInt8} (hc : c ≠ quote) (hckey : c ∉ key)
    (z : List UInt8) :
    findPattern (pattern key) n (m.text ++ c :: z) =
      findPattern (pattern key) (n - m.text.length) (c :: z) := by
  have hblanks : ∀ bs, quote ∉ blanks bs := fun bs => quote_notMem (quiet_blanks bs)
  have hcolon : (0x3A : UInt8) ∉ key := fun h => (hkey _ h).2.2.1 rfl
  have htext : m.text ++ c :: z = blanks m.front ++ (quoted m.key ++ (blanks m.mid ++ 0x3A ::
      (blanks m.gap ++ (m.value.text ++ (blanks m.back ++ c :: z))))) := by
    simp [Member.text]
  have hlen : m.text.length = (blanks m.front).length + ((quoted m.key).length +
      ((blanks m.mid).length + (1 + ((blanks m.gap).length + (m.value.text.length +
        (blanks m.back).length))))) := by
    simp [Member.text]
    omega
  calc findPattern (pattern key) n (m.text ++ c :: z)
      = findPattern (pattern key) (n - (blanks m.front).length) _ := by
        rw [htext, findPattern_quiet key n (hblanks _)]
    _ = findPattern (pattern key) (n - (blanks m.front).length - (quoted m.key).length)
          (blanks m.mid ++ 0x3A :: _) :=
        findPattern_string hkey _ hm.name hne (hblanks _) (by decide) hcolon _
    _ = findPattern (pattern key) (n - (blanks m.front).length - (quoted m.key).length -
          (blanks m.mid ++ [0x3A]).length - (blanks m.gap).length)
          (m.value.text ++ (blanks m.back ++ c :: z)) := by
        have hmid : quote ∉ blanks m.mid ++ [0x3A] := by
          intro h
          rcases List.mem_append.mp h with h | h
          · exact hblanks _ h
          · exact absurd (List.mem_singleton.mp h) (by decide)
        rw [← findPattern_quiet key _ (hblanks _), ← findPattern_quiet key _ hmid,
          List.append_assoc, List.singleton_append]
    _ = findPattern (pattern key) (n - m.text.length) (c :: z) := by
        rw [findPattern_value hkey _ hm (hblanks _) hc hckey, findPattern_quiet key _ (hblanks _),
          hlen]
        congr 1
        rw [List.length_append, List.length_singleton]
        omega

lemma skipColon_append {n : ℕ} {u : List UInt8} (hn : u.length ≤ n)
    (hu : ∀ c ∈ u, c = 0x20 ∨ c = 0x3A) {v : List UInt8}
    (hv : ∀ c, v.head? = some c → c ≠ 0x20 ∧ c ≠ 0x3A) : skipColon n (u ++ v) = v := by
  induction u generalizing n with
  | nil =>
    cases v with
    | nil => cases n <;> rfl
    | cons c v =>
      cases n with
      | zero => rfl
      | succ n =>
        obtain ⟨hspace, hcolon⟩ := hv c rfl
        rw [List.nil_append, skipColon, if_neg (not_or.mpr ⟨hspace, hcolon⟩)]
  | cons c u ih =>
    obtain ⟨n, rfl⟩ := Nat.exists_eq_succ_of_ne_zero (Nat.ne_of_gt (Nat.lt_of_lt_of_le
      (Nat.succ_pos u.length) hn))
    rw [List.cons_append, skipColon, if_pos (hu c List.mem_cons_self)]
    exact ih (Nat.le_of_succ_le_succ hn) fun d hd => hu d (List.mem_cons_of_mem c hd)

/-- A value begins with a byte that `find_key` does not pass over. -/
lemma value_head (v : Value) : ∃ c t, v.text = c :: t ∧ c ≠ 0x20 ∧ c ≠ 0x3A := by
  cases v with
  | string s => exact ⟨quote, _, rfl, by decide, by decide⟩
  | number x =>
    obtain ⟨c, t, ht⟩ := List.exists_cons_of_ne_nil (decimal_ne_nil x.whole)
    have hc : IsDigit c := isDigit_decimal x.whole c (ht ▸ List.mem_cons_self)
    cases hneg : x.neg with
    | false =>
      refine ⟨c, t ++ ((if x.frac = [] then [] else 0x2E :: x.frac.map digit) ++
        exponent x.exp), ?_, ?_, ?_⟩
      · simp [Value.text, Number.text, hneg, ht]
      · rintro rfl
        exact absurd hc.1 (by decide)
      · rintro rfl
        exact absurd hc.2 (by decide)
    | true =>
      refine ⟨0x2D, decimal x.whole ++ ((if x.frac = [] then [] else
        0x2E :: x.frac.map digit) ++ exponent x.exp), ?_, by decide, by decide⟩
      simp [Value.text, Number.text, hneg]
  | bool b => cases b <;> exact ⟨_, _, rfl, by decide, by decide⟩
  | null => exact ⟨_, _, rfl, by decide, by decide⟩

/-- The blanks `find_key` leaves in front of a value. -/
def leading (m : Member) : List Blank := m.gap.dropWhile (· = .space)

/-- A value with what stands behind it. -/
def valueIn (m : Member) (rest : List UInt8) : List UInt8 :=
  blanks (leading m) ++ (m.value.text ++ (blanks m.back ++ rest))

lemma valueIn_head (m : Member) (rest : List UInt8) :
    ∀ c, (valueIn m rest).head? = some c → c ≠ 0x20 ∧ c ≠ 0x3A := by
  intro c hc
  cases hlead : leading m with
  | nil =>
    obtain ⟨d, t, ht, hd⟩ := value_head m.value
    rw [valueIn, hlead, ht] at hc
    cases hc
    exact hd
  | cons b bs =>
    have hb : b ≠ .space := by
      have hhead := List.head?_dropWhile_not (fun b : Blank => decide (b = .space)) m.gap
      rw [show m.gap.dropWhile (fun b => decide (b = .space)) = b :: bs from hlead] at hhead
      exact of_decide_eq_false hhead
    rw [valueIn, hlead] at hc
    cases hc
    cases b with
    | space => exact absurd rfl hb
    | tab => decide
    | lf => decide
    | cr => decide

/-- At a member with the key the value is found. -/
lemma findPattern_found {key : List UInt8} {n : ℕ} {m : Member} (hkey : body m.key = key)
    (hmid : ∀ b ∈ m.mid, b = .space) (hn : m.text.length ≤ n) (rest : List UInt8) :
    findPattern (pattern key) n (m.text ++ rest) = some (valueIn m rest) := by
  have hspaces : ∀ bs : List Blank, (∀ b ∈ bs, b = .space) → ∀ c ∈ blanks bs, c = 0x20 := by
    intro bs hbs c hc
    obtain ⟨b, hb, rfl⟩ := List.mem_map.mp hc
    rw [hbs b hb]
    rfl
  -- what is passed over behind the key
  let skipped := blanks m.mid ++ 0x3A :: blanks (m.gap.takeWhile (· = .space))
  have hleading : ∀ b ∈ m.gap.takeWhile (· = .space), b = .space := fun b hb =>
    of_decide_eq_true (List.mem_takeWhile_imp (p := fun b => decide (b = Blank.space)) hb)
  have hskipped : ∀ c ∈ skipped, c = 0x20 ∨ c = 0x3A := by
    intro c hc
    rcases List.mem_append.mp hc with hc | hc
    · exact Or.inl (hspaces _ hmid c hc)
    rcases List.mem_cons.mp hc with rfl | hc
    · exact Or.inr rfl
    · exact Or.inl (hspaces _ hleading c hc)
  have hgap : blanks m.gap = blanks (m.gap.takeWhile (· = .space)) ++ blanks (leading m) := by
    rw [blanks, blanks, blanks, ← List.map_append, leading, List.takeWhile_append_dropWhile]
  have htext : m.text ++ rest =
      blanks m.front ++ (pattern key ++ (skipped ++ valueIn m rest)) := by
    simp [Member.text, quoted, hkey, hgap, skipped, valueIn]
  have hlen : (blanks m.front).length + ((pattern key).length + skipped.length) ≤
      m.text.length := by
    simp [Member.text, quoted, hkey, hgap, skipped]
    omega
  have hpattern : (pattern key).length ≤ n - (blanks m.front).length := by omega
  have hroom : skipped.length ≤ n - (blanks m.front).length - (pattern key).length := by omega
  rw [htext, findPattern_quiet key n (quote_notMem (quiet_blanks _)),
    findPattern_hit hpattern (List.cons_ne_nil _ _),
    skipColon_append hroom hskipped (valueIn_head m rest)]

/-- The first member with a key. -/
def member (ms : List Member) (key : List UInt8) : Option Member :=
  ms.find? fun m => body m.key = key

lemma member_cons (m : Member) (ms : List Member) (key : List UInt8) :
    member (m :: ms) key = if body m.key = key then some m else member ms key := by
  rw [member, List.find?_cons]
  split_ifs with h <;> simp [h, member]

/-- Where no member has the key, the search goes to the end of the chunk. -/
lemma findPattern_absent {key : List UInt8} (hkey : Spelled key) {ms : List Member}
    (hms : ∀ m ∈ ms, Clear key m) (hnil : ms ≠ []) (hnone : ∀ m ∈ ms, body m.key ≠ key)
    {tail : List UInt8} (htail : quote ∉ tail) (v : List UInt8) {n : ℕ}
    (hn : n ≤ (commas (ms.map Member.text)).length + tail.length + 2) :
    findPattern (pattern key) n (commas (ms.map Member.text) ++ closeBrace :: (tail ++ v)) =
      none := by
  induction ms generalizing n with
  | nil => exact absurd rfl hnil
  | cons m ms ih =>
    have hm := hms m List.mem_cons_self
    have hne := hnone m List.mem_cons_self
    have hcomma : (0x2C : UInt8) ∉ key := fun h => (hkey _ h).2.2.2.1 rfl
    have hbrace : closeBrace ∉ key := fun h => (hkey _ h).2.2.2.2 rfl
    by_cases hlast : ms = []
    · subst hlast
      have hrest : quote ∉ closeBrace :: tail :=
        List.not_mem_cons_of_ne_of_not_mem (by decide) htail
      change n ≤ m.text.length + tail.length + 2 at hn
      change findPattern (pattern key) n (m.text ++ closeBrace :: (tail ++ v)) = none
      rw [findPattern_member hkey n hm hne (by decide) hbrace, ← List.cons_append]
      refine findPattern_none key hrest ?_ v
      rw [List.length_cons]
      omega
    · have hcommas : commas ((m :: ms).map Member.text) =
          m.text ++ 0x2C :: commas (ms.map Member.text) :=
        commas_cons fun h => hlast (List.map_eq_nil_iff.mp h)
      have hquiet : quote ∉ ([0x2C] : List UInt8) := by decide
      rw [hcommas, List.length_append, List.length_cons] at hn
      rw [hcommas, List.append_assoc, List.cons_append,
        findPattern_member hkey n hm hne (by decide) hcomma, ← List.singleton_append,
        findPattern_quiet key _ hquiet]
      refine ih (fun m' h => hms m' (List.mem_cons_of_mem m h)) hlast
        (fun m' h => hnone m' (List.mem_cons_of_mem m h)) ?_
      rw [List.length_singleton]
      omega

/-- The value of the first member with the key is found. -/
lemma findPattern_present {key : List UInt8} (hkey : Spelled key) {ms : List Member}
    (hms : ∀ m ∈ ms, Clear key m) {m : Member} (hm : member ms key = some m)
    (hmid : ∀ b ∈ m.mid, b = .space) (v : List UInt8) {n : ℕ}
    (hn : (commas (ms.map Member.text)).length ≤ n) :
    ∃ c z, (c = 0x2C ∨ c = closeBrace) ∧
      findPattern (pattern key) n (commas (ms.map Member.text) ++ closeBrace :: v) =
        some (valueIn m (c :: z)) := by
  induction ms generalizing n with
  | nil => cases hm
  | cons m' ms ih =>
    have hcomma : (0x2C : UInt8) ∉ key := fun h => (hkey _ h).2.2.2.1 rfl
    by_cases hfound : body m'.key = key
    · obtain rfl : m' = m := by
        rw [member_cons, if_pos hfound] at hm
        exact Option.some.inj hm
      by_cases hlast : ms = []
      · subst hlast
        exact ⟨closeBrace, v, Or.inr rfl, findPattern_found hfound hmid hn _⟩
      · have hcommas : commas ((m' :: ms).map Member.text) =
            m'.text ++ 0x2C :: commas (ms.map Member.text) :=
          commas_cons fun h => hlast (List.map_eq_nil_iff.mp h)
        rw [hcommas, List.length_append] at hn
        refine ⟨0x2C, commas (ms.map Member.text) ++ closeBrace :: v, Or.inl rfl, ?_⟩
        rw [hcommas, List.append_assoc, List.cons_append]
        exact findPattern_found hfound hmid (by omega) _
    · have hrest : member ms key = some m := by
        rwa [member_cons, if_neg hfound] at hm
      have hlast : ms ≠ [] := by
        rintro rfl
        cases hrest
      have hcommas : commas ((m' :: ms).map Member.text) =
          m'.text ++ 0x2C :: commas (ms.map Member.text) :=
        commas_cons fun h => hlast (List.map_eq_nil_iff.mp h)
      have hquiet : quote ∉ ([0x2C] : List UInt8) := by decide
      rw [hcommas, List.length_append, List.length_cons] at hn
      rw [hcommas, List.append_assoc, List.cons_append,
        findPattern_member hkey n (hms m' List.mem_cons_self) hfound (by decide) hcomma,
        ← List.singleton_append, findPattern_quiet key _ hquiet]
      refine ih (fun m'' h => hms m'' (List.mem_cons_of_mem m' h)) hrest ?_
      rw [List.length_singleton]
      omega

/-! ### Values -/

/-- The pieces of a string that `read_json_string` has as JSON has them. -/
def Resolved : Piece → Prop
  | .plain _ _ => True
  | .escape e => e ≠ .b ∧ e ≠ .f
  | .code h₁ h₂ h₃ h₄ => codeUnit h₁ h₂ h₃ h₄ < 0x80

lemma hexDigit_byte (h : Hex) : hexDigit h.byte = h.value := by
  obtain ⟨v, u⟩ := h
  revert v u
  decide

lemma latin1_code (h₁ h₂ h₃ h₄ : Hex) :
    latin1 [h₁.byte, h₂.byte, h₃.byte, h₄.byte] = UInt8.ofNat (codeUnit h₁ h₂ h₃ h₄ % 256) := by
  simp only [latin1, List.foldl_cons, List.foldl_nil, hexDigit_byte, codeUnit]
  congr 1
  omega

lemma readJsonString_quote (s : List UInt8) : readJsonString (quote :: s) = [] := by
  rw [readJsonString.eq_def]
  rfl

lemma readJsonString_plain {c : UInt8} (hquote : c ≠ quote) (hback : c ≠ backslash)
    (s : List UInt8) : readJsonString (c :: s) = c :: readJsonString s := by
  rw [readJsonString.eq_def]
  simp only [if_neg hquote, if_neg hback]

lemma readJsonString_escape {e : UInt8} (he : e ≠ 0x75) (s : List UInt8) :
    readJsonString (backslash :: e :: s) = unescape e :: readJsonString s := by
  have hquote : backslash ≠ quote := by decide
  rw [readJsonString.eq_def]
  simp only [if_neg hquote, if_true, if_neg he]

lemma readJsonString_code (h₁ h₂ h₃ h₄ : UInt8) (s : List UInt8) :
    readJsonString (backslash :: 0x75 :: h₁ :: h₂ :: h₃ :: h₄ :: s) =
      latin1 [h₁, h₂, h₃, h₄] :: readJsonString s := by
  have hquote : backslash ≠ quote := by decide
  rw [readJsonString.eq_def]
  simp only [if_neg hquote, if_true]

/-- Where it knows the escapes, `read_json_string` reads what the string stands for. -/
lemma readJsonString_body {s : List Piece} (hs : ∀ x ∈ s, Resolved x) (rest : List UInt8) :
    decode s = some (readJsonString (body s ++ quote :: rest)) := by
  induction s with
  | nil =>
    change decode [] = some (readJsonString (quote :: rest))
    rw [decode, readJsonString_quote]
  | cons x s ih =>
    have hrest := ih fun y hy => hs y (List.mem_cons_of_mem x hy)
    have hx := hs x List.mem_cons_self
    cases x with
    | plain b hb =>
      change _ = some (readJsonString (b :: (body s ++ quote :: rest)))
      rw [decode, hrest, readJsonString_plain hb.1 hb.2.1]
      rfl
    | escape e =>
      change _ = some (readJsonString (backslash :: e.letter :: (body s ++ quote :: rest)))
      have hletter : e.letter ≠ 0x75 := by cases e <;> decide
      have hvalue : unescape e.letter = e.value := by
        cases e with
        | b => exact absurd rfl hx.1
        | f => exact absurd rfl hx.2
        | _ => decide
      rw [decode, hrest, readJsonString_escape hletter, hvalue]
      rfl
    | code h₁ h₂ h₃ h₄ =>
      change codeUnit h₁ h₂ h₃ h₄ < 0x80 at hx
      change _ = some (readJsonString (backslash :: 0x75 ::
        h₁.byte :: h₂.byte :: h₃.byte :: h₄.byte :: (body s ++ quote :: rest)))
      have hlow : ¬(0xDC00 ≤ codeUnit h₁ h₂ h₃ h₄ ∧ codeUnit h₁ h₂ h₃ h₄ < 0xE000) := by omega
      have hhigh : ¬(0xD800 ≤ codeUnit h₁ h₂ h₃ h₄ ∧ codeUnit h₁ h₂ h₃ h₄ < 0xDC00) := by omega
      have hmod : codeUnit h₁ h₂ h₃ h₄ % 256 = codeUnit h₁ h₂ h₃ h₄ :=
        Nat.mod_eq_of_lt (by omega)
      rw [decode.eq_def]
      simp only [if_neg hlow, if_neg hhigh, hrest, Utf8.encode_ascii hx, readJsonString_code,
        latin1_code, hmod, Option.map_some, List.singleton_append]

/-- The value of digits. -/
def digitsValue (ds : List UInt8) : ℤ := ds.foldl (fun v c => v * 10 + (c.toNat - 0x30 : ℤ)) 0

lemma digitsValue_decimal (n : ℕ) : digitsValue (decimal n) = n := by
  have hlow : ∀ m < 10, ((0x30 + UInt8.ofNat m).toNat : ℤ) - 0x30 = m := by decide
  induction n using decimal.induct with
  | case1 n hn =>
    rw [decimal, if_pos hn]
    calc digitsValue [0x30 + UInt8.ofNat n]
        = 0 * 10 + (((0x30 + UInt8.ofNat n).toNat : ℤ) - 0x30) := rfl
      _ = n := by rw [hlow n hn, zero_mul, zero_add]
  | case2 n hn ih =>
    rw [decimal, if_neg hn]
    calc digitsValue (decimal (n / 10) ++ [0x30 + UInt8.ofNat (n % 10)])
        = digitsValue (decimal (n / 10)) * 10 +
          (((0x30 + UInt8.ofNat (n % 10)).toNat : ℤ) - 0x30) := List.foldl_append
      _ = ((n / 10 : ℕ) : ℤ) * 10 + ((n % 10 : ℕ) : ℤ) := by
          rw [ih, hlow _ (Nat.mod_lt n (by norm_num))]
      _ = n := by omega

/-- The value of an integer literal. -/
def integer (x : Number) : ℤ := if x.neg then -(x.whole : ℤ) else x.whole

lemma takeWhile_decimal (n : ℕ) {c : UInt8} (hc : ¬IsDigit c) (rest : List UInt8) :
    (decimal n ++ c :: rest).takeWhile (fun c => 0x30 ≤ c ∧ c ≤ 0x39) = decimal n := by
  have hall : ∀ d ∈ decimal n, decide (0x30 ≤ d ∧ d ≤ 0x39) = true :=
    fun d hd => decide_eq_true (isDigit_decimal n d hd)
  rw [List.takeWhile_append_of_pos hall, List.takeWhile_cons_of_neg (by simpa using hc),
    List.append_nil]

/-- Behind the digits of a number stands no digit. -/
lemma number_rest (x : Number) {c : UInt8} (hc : ¬IsDigit c) (rest : List UInt8) :
    ∃ d u, ¬IsDigit d ∧
      x.text ++ c :: rest = (if x.neg then [0x2D] else []) ++ (decimal x.whole ++ d :: u) := by
  have hpoint : ¬IsDigit 0x2E := by decide
  have hexp : ∀ upper : Bool, ¬IsDigit (if upper then 0x45 else 0x65) := by decide
  rw [Number.text]
  by_cases hfrac : x.frac = []
  · cases hx : x.exp with
    | none => exact ⟨c, rest, hc, by simp [hfrac, exponent]⟩
    | some e =>
      obtain ⟨d, u, hd, hu⟩ : ∃ d u, ¬IsDigit d ∧ exponent (some e) = d :: u :=
        ⟨_, _, hexp e.1, rfl⟩
      exact ⟨d, u ++ c :: rest, hd, by simp [hfrac, hu]⟩
  · exact ⟨0x2E, x.frac.map digit ++ (exponent x.exp ++ c :: rest), hpoint, by simp [hfrac]⟩

lemma atoi_blanks (bs : List Blank) (s : List UInt8) : atoi (blanks bs ++ s) = atoi s := by
  have hblanks : ∀ b ∈ blanks bs, isSpace b = true := by
    intro b hb
    obtain ⟨b, -, rfl⟩ := List.mem_map.mp hb
    cases b <;> decide
  rw [atoi, List.dropWhile_append_of_pos hblanks, atoi]

lemma atoi_minus (s : List UInt8) :
    atoi (0x2D :: s) = -digitsValue (s.takeWhile fun c => 0x30 ≤ c ∧ c ≤ 0x39) := rfl

lemma atoi_digit {c : UInt8} (hc : IsDigit c) (s : List UInt8) :
    atoi (c :: s) = digitsValue ((c :: s).takeWhile fun c => 0x30 ≤ c ∧ c ≤ 0x39) := by
  have hspace : isSpace c = false := by
    have hlow : ¬c ≤ 0x0D := by
      intro hle
      have hdigit : 0x30 ≤ c.toNat := UInt8.le_iff_toNat_le.mp hc.1
      have hcontrol : c.toNat ≤ 0x0D := UInt8.le_iff_toNat_le.mp hle
      omega
    have hne : c ≠ 0x20 := by
      rintro rfl
      exact absurd hc.1 (by decide)
    simp [isSpace, hlow, hne]
  rw [atoi, List.dropWhile_cons_of_neg (by simp [hspace])]
  split
  · next h =>
      rw [(List.cons.inj h).1] at hc
      exact absurd hc (by decide)
  · next h =>
      rw [(List.cons.inj h).1] at hc
      exact absurd hc (by decide)
  · rfl

/-- `atoi` reads the digits in front of the point. -/
lemma atoi_number (bs : List Blank) (x : Number) {c : UInt8} (hc : ¬IsDigit c) (rest : List UInt8) :
    atoi (blanks bs ++ (x.text ++ c :: rest)) = integer x := by
  obtain ⟨d, u, hd, htext⟩ := number_rest x hc rest
  rw [atoi_blanks, htext, integer]
  cases hneg : x.neg with
  | true =>
    calc atoi ([0x2D] ++ (decimal x.whole ++ d :: u))
        = -digitsValue (decimal x.whole) := by
          rw [List.singleton_append, atoi_minus, takeWhile_decimal x.whole hd]
      _ = -(x.whole : ℤ) := by rw [digitsValue_decimal]
  | false =>
    obtain ⟨e, t, ht⟩ := List.exists_cons_of_ne_nil (decimal_ne_nil x.whole)
    have he : IsDigit e := isDigit_decimal x.whole e (ht ▸ List.mem_cons_self)
    have hdigits := takeWhile_decimal x.whole hd u
    have hhead : decimal x.whole ++ d :: u = e :: (t ++ d :: u) := by rw [ht, List.cons_append]
    calc atoi (decimal x.whole ++ d :: u)
        = digitsValue (decimal x.whole) := by rw [hhead, atoi_digit he, ← hhead, hdigits]
      _ = x.whole := digitsValue_decimal _

/-- What ends a number in an object. -/
def Delimiter (c : UInt8) : Prop := (∃ b : Blank, c = b.byte) ∨ c = 0x2C ∨ c = closeBrace

/-- What is asked of the conversions: `strtod` reads the longest number behind blanks and gives `0`
where there is none, and an `int` has the value of its literal. -/
structure Converts (conv : Conversions δ φ) (num : Number → δ) : Prop where
  number : ∀ (bs : List Blank) (x : Number) (c : UInt8) (rest : List UInt8), Delimiter c →
    conv.atof (blanks bs ++ (x.text ++ c :: rest)) = num x
  word : ∀ (bs : List Blank) (b : Bool) (rest : List UInt8),
    conv.toFloat (conv.atof (blanks bs ++ ((Value.bool b).text ++ rest))) = conv.zero
  null : ∀ (bs : List Blank) (rest : List UInt8),
    conv.toFloat (conv.atof (blanks bs ++ (Value.null.text ++ rest))) = conv.zero
  int : ∀ x : Number, x.frac = [] → x.exp = none → x.whole < 2 ^ 31 →
    conv.toInt (num x) = integer x

lemma delimiter_behind (m : Member) {c : UInt8} (hc : c = 0x2C ∨ c = closeBrace)
    (z : List UInt8) : ∃ d u, Delimiter d ∧ blanks m.back ++ c :: z = d :: u := by
  cases hback : m.back with
  | nil => exact ⟨c, z, Or.inr hc, rfl⟩
  | cons b bs => exact ⟨b.byte, blanks bs ++ c :: z, Or.inl ⟨b, rfl⟩, rfl⟩

/-- A time that is no string comes out as from the tree. -/
lemma time_agrees {conv : Conversions δ φ} {num : Number → δ} (hconv : Converts conv num)
    {m : Member} (hm : ∀ s, m.value ≠ .string s) {c : UInt8} (hc : c = 0x2C ∨ c = closeBrace)
    (z : List UInt8) :
    conv.toFloat (conv.atof (valueIn m (c :: z))) = asFloat conv (valueTree num m.value) := by
  obtain ⟨d, u, hd, hrest⟩ := delimiter_behind m hc z
  rw [valueIn, hrest]
  cases hv : m.value with
  | string s => exact absurd hv (hm s)
  | number x => exact congrArg conv.toFloat (hconv.number _ x d u hd)
  | bool b => exact hconv.word _ b _
  | null => exact hconv.null _ _

/-- The speaker `recover_segments` reads from a value. -/
def speakerOf (v : List UInt8) : List UInt8 :=
  match v with
  | 0x22 :: name => clip (cString (readJsonString name))
  | v => numberedSpeaker (atoi v)

lemma leading_eq_nil {m : Member} (h : ∀ b ∈ m.gap, b = .space) : leading m = [] :=
  List.dropWhile_eq_nil_iff.mpr fun b hb => decide_eq_true (h b hb)

/-- A string behind blanks is read where it stands. -/
lemma valueIn_string {m : Member} {s : List Piece} (hv : m.value = .string s)
    (hgap : ∀ b ∈ m.gap, b = .space) (rest : List UInt8) :
    valueIn m rest = quote :: (body s ++ quote :: (blanks m.back ++ rest)) := by
  rw [valueIn, leading_eq_nil hgap, hv]
  simp [blanks, Value.text, quoted]

lemma speakerOf_number {v : List UInt8} (h : v.head? ≠ some quote) :
    speakerOf v = numberedSpeaker (atoi v) := by
  rw [speakerOf]
  rintro name rfl
  exact h rfl

lemma speaker_match (v : List UInt8) :
    (match some v with
      | some (0x22 :: name) => clip (cString (readJsonString name))
      | some v => numberedSpeaker (atoi v)
      | none => literal "Speaker 0") = speakerOf v := by
  by_cases hquote : v.head? = some quote
  · obtain ⟨name, rfl⟩ := List.head?_eq_some_iff.mp hquote
    rfl
  · rw [speakerOf_number hquote]
    split
    · next name hname =>
        rw [Option.some.inj hname] at hquote
        exact absurd rfl hquote
    · next w _ hw => rw [Option.some.inj hw]
    · next hnone => cases hnone

/-- A value that is no string does not begin like one. -/
lemma valueIn_head_ne {m : Member} (hm : ∀ s, m.value ≠ .string s) (rest : List UInt8) :
    (valueIn m rest).head? ≠ some quote := by
  have hvalue : quote ∉ m.value.text := by
    cases hv : m.value with
    | string s => exact absurd hv (hm s)
    | number x => exact quote_notMem (quiet_number x)
    | bool b => cases b <;> decide
    | null => decide
  have hquiet : quote ∉ blanks (leading m) ++ m.value.text := fun h =>
    (List.mem_append.mp h).elim (quote_notMem (quiet_blanks _)) hvalue
  obtain ⟨c, t, ht, -⟩ := value_head m.value
  intro hhead
  have htext : valueIn m rest = (blanks (leading m) ++ m.value.text) ++ (blanks m.back ++ rest) := by
    rw [valueIn, List.append_assoc]
  rw [htext, List.head?_append_of_ne_nil _ (by simp [ht])] at hhead
  exact hquiet (List.mem_of_head? hhead)

/-- A speaker of the kinds that are read alike comes out as from the tree. -/
lemma speaker_agrees {conv : Conversions δ φ} {num : Number → δ} (hconv : Converts conv num)
    {m : Member}
    (hstring : ∀ s, m.value = .string s → (∀ b ∈ m.gap, b = .space) ∧ ∀ x ∈ s, Resolved x)
    (hnumber : ∀ x, m.value = .number x → x.frac = [] ∧ x.exp = none ∧ x.whole < 2 ^ 31)
    {c : UInt8} (hc : c = 0x2C ∨ c = closeBrace) (z : List UInt8) :
    speakerOf (valueIn m (c :: z)) = speakerName conv (valueTree num m.value) := by
  have hzero : numberedSpeaker 0 = literal "Speaker 0" := by decide +kernel
  cases hv : m.value with
  | string s =>
    obtain ⟨hgap, hs⟩ := hstring s hv
    rw [valueIn_string hv hgap, valueTree, readJsonString_body hs (blanks m.back ++ c :: z)]
    rfl
  | number x =>
    obtain ⟨hfrac, hexp, hlt⟩ := hnumber x hv
    obtain ⟨d, u, hd, hrest⟩ := delimiter_behind m hc z
    have hdigit : ¬IsDigit d := by
      rcases hd with ⟨b, rfl⟩ | rfl | rfl
      · cases b <;> decide
      · decide
      · decide
    have hatoi : atoi (valueIn m (c :: z)) = integer x := by
      rw [valueIn, hrest, hv]
      exact atoi_number _ x hdigit u
    rw [speakerOf_number (valueIn_head_ne (by simp [hv]) _), hatoi, ← hconv.int x hfrac hexp hlt]
    rfl
  | bool b =>
    have hatoi : atoi (valueIn m (c :: z)) = 0 := by
      rw [valueIn, hv, atoi_blanks]
      cases b <;> rfl
    rw [speakerOf_number (valueIn_head_ne (by simp [hv]) _), hatoi, hzero]
    rfl
  | null =>
    have hatoi : atoi (valueIn m (c :: z)) = 0 := by
      rw [valueIn, hv, atoi_blanks]
      rfl
    rw [speakerOf_number (valueIn_head_ne (by simp [hv]) _), hatoi, hzero]
    rfl

/-! ### The members of an object -/

/-- The first member with one of the keys, in the order of the keys. -/
def first (ms : List Member) (keys : List (List UInt8)) : Option Member :=
  keys.findSome? (member ms)

/-- Searches that agree on the key whose member is the first one agree. -/
lemma findSome_agrees {α : Type} {f : List UInt8 → Option α} {ms : List Member}
    {keys : List (List UInt8)} {r : Member → α → Prop}
    (hnone : ∀ key ∈ keys, member ms key = none → f key = none)
    (hsome : ∀ key ∈ keys, ∀ m, member ms key = some m → first ms keys = some m →
      ∃ v, f key = some v ∧ r m v) :
    (first ms keys = none → keys.findSome? f = none) ∧
      ∀ m, first ms keys = some m → ∃ v, keys.findSome? f = some v ∧ r m v := by
  induction keys with
  | nil => exact ⟨fun _ => rfl, fun m hm => nomatch hm⟩
  | cons key keys ih =>
    rw [first, List.findSome?_cons, List.findSome?_cons]
    cases hmember : member ms key with
    | none =>
      have hfirst : first ms (key :: keys) = first ms keys := by
        rw [first, List.findSome?_cons, hmember, first]
      rw [hnone key List.mem_cons_self hmember]
      exact ih (fun k hk => hnone k (List.mem_cons_of_mem key hk))
        fun k hk m hm hf => hsome k (List.mem_cons_of_mem key hk) m hm (hfirst.trans hf)
    | some m =>
      have hfirst : first ms (key :: keys) = some m := by
        rw [first, List.findSome?_cons, hmember]
      obtain ⟨v, hv, hr⟩ := hsome key List.mem_cons_self m hmember hfirst
      rw [hv]
      refine ⟨fun h => absurd h (Option.some_ne_none m), fun m' hm' => ⟨v, rfl, ?_⟩⟩
      rw [← Option.some.inj hm']
      exact hr

/-- All the spellings. -/
def spellings : List (List UInt8) := kStart ++ (kEnd ++ (kSpeaker ++ kText))

lemma spelled {key : List UInt8} (h : key ∈ spellings) : Spelled key ∧ 0 ∉ key := by
  have hall : spellings.all (fun key => key.all fun c => c ≠ quote ∧ c ≠ backslash ∧ c ≠ 0x3A ∧
      c ≠ 0x2C ∧ c ≠ closeBrace ∧ c ≠ 0) = true := by decide +kernel
  have hkey := List.all_eq_true.mp (List.all_eq_true.mp hall key h)
  refine ⟨fun c hc => ?_, fun h0 => ?_⟩
  · obtain ⟨h₁, h₂, h₃, h₄, h₅, -⟩ := of_decide_eq_true (hkey c hc)
    exact ⟨h₁, h₂, h₃, h₄, h₅⟩
  · exact (of_decide_eq_true (hkey 0 h0)).2.2.2.2.2 rfl

/-- A string without a backslash stands for itself. -/
lemma decode_plain {s : List Piece} (h : backslash ∉ body s) : decode s = some (body s) := by
  induction s with
  | nil => rfl
  | cons x s ih =>
    change backslash ∉ x.text ++ body s at h
    have hrest := ih fun hs => h (List.mem_append_right _ hs)
    cases x with
    | plain b hb =>
      rw [decode, hrest]
      rfl
    | escape e => exact absurd List.mem_cons_self h
    | code h₁ h₂ h₃ h₄ => exact absurd List.mem_cons_self h

/-- The objects whose members are read alike with and without a parser. -/
structure Recoverable (o : Object) : Prop where
  brace : openBrace ∉ o.inside
  clear : ∀ key ∈ spellings, ∀ m ∈ o.members, Clear key m
  raw : ∀ m ∈ o.members, ∀ key, decode m.key = some key → cString key ∈ spellings →
    body m.key = cString key
  colon : ∀ keys ∈ [kStart, kEnd, kSpeaker, kText], ∀ m, first o.members keys = some m →
    ∀ b ∈ m.mid, b = .space
  text : ∃ m s, first o.members kText = some m ∧ m.value = .string s ∧
    (∀ b ∈ m.gap, b = .space) ∧ ∀ x ∈ s, Resolved x
  speakerString : ∀ m s, first o.members kSpeaker = some m → m.value = .string s →
    (∀ b ∈ m.gap, b = .space) ∧ ∀ x ∈ s, Resolved x
  speakerNumber : ∀ m x, first o.members kSpeaker = some m → m.value = .number x →
    x.frac = [] ∧ x.exp = none ∧ x.whole < 2 ^ 31
  time : ∀ m s, first o.members kStart = some m ∨ first o.members kEnd = some m →
    m.value ≠ .string s

lemma member_mem {ms : List Member} {key : List UInt8} {m : Member} (h : member ms key = some m) :
    m ∈ ms ∧ body m.key = key :=
  ⟨List.mem_of_find?_eq_some h,
    of_decide_eq_true (List.find?_some (p := fun m : Member => decide (body m.key = key)) h)⟩

/-- The tree holds the value of the first member with a key. -/
lemma pick_member {num : Number → δ} {ms : List Member} {trees : List (List UInt8 × Json δ)}
    (htrees : ms.mapM (memberTree num) = some trees) {key : List UInt8} (hkey : key ∈ spellings)
    (hraw : ∀ m ∈ ms, ∀ name, decode m.key = some name → cString name ∈ spellings →
      body m.key = cString name) :
    (((Json.object trees).children.find? fun c => c.1.any fun name => cString name = key).map
      Prod.snd) = (member ms key).bind fun m => valueTree num m.value := by
  induction ms generalizing trees with
  | nil =>
    cases htrees
    rfl
  | cons m ms ih =>
    rw [List.mapM_cons] at htrees
    obtain ⟨⟨name, value⟩, hm, htrees⟩ := Option.bind_eq_some_iff.mp htrees
    obtain ⟨rest, hrest, htrees⟩ := Option.bind_eq_some_iff.mp htrees
    cases htrees
    have hdecoded : decode m.key = some name ∧ valueTree num m.value = some value := by
      rw [memberTree] at hm
      split at hm
      · next hname hvalue =>
          cases hm
          exact ⟨hname, hvalue⟩
      · cases hm
    obtain ⟨hspelled, hzero⟩ := spelled hkey
    have hsame : cString name = key ↔ body m.key = key := by
      constructor
      · intro h
        rw [← h]
        exact hraw m List.mem_cons_self name hdecoded.1 (h ▸ hkey)
      · intro h
        have hplain := decode_plain (s := m.key) fun hb =>
          (hspelled backslash (h ▸ hb)).2.1 rfl
        rw [h, hdecoded.1] at hplain
        rw [Option.some.inj hplain]
        exact cString_eq_self hzero
    have ih := ih hrest fun m' hm' => hraw m' (List.mem_cons_of_mem m hm')
    change (((some name, value) :: (Json.object rest).children).find? _).map Prod.snd = _
    rw [List.find?_cons, member_cons]
    by_cases hname : cString name = key
    · rw [if_pos (hsame.mp hname)]
      simp [hname, hdecoded.2]
    · rw [if_neg fun h => hname (hsame.mpr h)]
      simp only [Option.any_some, hname, decide_false]
      exact ih

lemma value_of_mapM {num : Number → δ} {ms : List Member} {trees : List (List UInt8 × Json δ)}
    (htrees : ms.mapM (memberTree num) = some trees) {m : Member} (hm : m ∈ ms) :
    ∃ value, valueTree num m.value = some value := by
  induction ms generalizing trees with
  | nil => exact absurd hm List.not_mem_nil
  | cons m' ms ih =>
    rw [List.mapM_cons] at htrees
    obtain ⟨tree, htree, htrees⟩ := Option.bind_eq_some_iff.mp htrees
    obtain ⟨rest, hrest, -⟩ := Option.bind_eq_some_iff.mp htrees
    rcases List.mem_cons.mp hm with rfl | hm
    · rw [memberTree] at htree
      split at htree
      · next hvalue => exact ⟨_, hvalue⟩
      · cases htree
    · exact ih hrest hm

/-- `pick` gives the value of the first member with one of the keys. -/
lemma pick_first {num : Number → δ} {o : Object} (ho : Recoverable o)
    {trees : List (List UInt8 × Json δ)} (htrees : o.members.mapM (memberTree num) = some trees)
    {keys : List (List UInt8)} (hkeys : ∀ key ∈ keys, key ∈ spellings) :
    (first o.members keys = none → pick (.object trees) keys = none) ∧
      ∀ m, first o.members keys = some m →
        ∃ value, pick (.object trees) keys = some value ∧ valueTree num m.value = some value := by
  refine findSome_agrees (fun key hkey hnone => ?_) fun key hkey m hm _ => ?_
  · rw [pick_member htrees (hkeys key hkey) ho.raw, hnone]
    rfl
  · obtain ⟨value, hvalue⟩ := value_of_mapM htrees (member_mem hm).1
    refine ⟨value, ?_, hvalue⟩
    rw [pick_member htrees (hkeys key hkey) ho.raw, hm]
    exact hvalue

/-- `find_key` gives it too, with what stands behind. -/
lemma findKey_first {o : Object} (ho : Recoverable o) {keys : List (List UInt8)}
    (hmem : keys ∈ [kStart, kEnd, kSpeaker, kText]) (hkeys : ∀ key ∈ keys, key ∈ spellings)
    {tail : List UInt8} (htail : quote ∉ tail) (v : List UInt8) {n : ℕ}
    (hn : n = 1 + (o.inside ++ closeBrace :: tail).length) :
    (first o.members keys = none →
        findKey n (openBrace :: (o.inside ++ closeBrace :: (tail ++ v))) keys = none) ∧
      ∀ m, first o.members keys = some m →
        ∃ w, findKey n (openBrace :: (o.inside ++ closeBrace :: (tail ++ v))) keys = some w ∧
          ∃ c z, (c = 0x2C ∨ c = closeBrace) ∧ w = valueIn m (c :: z) := by
  have hnil : o.members ≠ [] := by
    obtain ⟨m, s, hm, -⟩ := ho.text
    intro h
    rw [h] at hm
    cases hm
  have hinside : o.inside = commas (o.members.map Member.text) := if_neg hnil
  have hopen : quote ∉ ([openBrace] : List UInt8) := by decide
  rw [hinside] at hn ⊢
  rw [List.length_append, List.length_cons] at hn
  have hstart : ∀ key, findPattern (pattern key) n
      (openBrace :: (commas (o.members.map Member.text) ++ closeBrace :: (tail ++ v))) =
        findPattern (pattern key) (n - 1)
          (commas (o.members.map Member.text) ++ closeBrace :: (tail ++ v)) :=
    fun key => findPattern_quiet key n hopen _
  refine findSome_agrees (fun key hkey hnone => ?_) fun key hkey m hm hfirst => ?_
  · have hclear := ho.clear key (hkeys key hkey)
    have habsent : ∀ m ∈ o.members, body m.key ≠ key := fun m hm hb =>
      absurd hnone (Option.ne_none_iff_exists'.mpr
        (Option.isSome_iff_exists.mp (List.find?_isSome.mpr ⟨m, hm, decide_eq_true hb⟩)))
    exact (hstart key).trans (findPattern_absent (spelled (hkeys key hkey)).1 hclear hnil habsent
      htail v (by omega))
  · obtain ⟨c, z, hc, hfound⟩ := findPattern_present (spelled (hkeys key hkey)).1
      (ho.clear key (hkeys key hkey)) hm (ho.colon keys hmem m hfirst) (tail ++ v) (n := n - 1)
      (by omega)
    exact ⟨_, (hstart key).trans hfound, c, z, hc, rfl⟩

/-! ### Chunks -/

lemma spellings_of_mem {keys : List (List UInt8)} (h : keys ∈ [kStart, kEnd, kSpeaker, kText]) :
    ∀ key ∈ keys, key ∈ spellings := by
  intro key hkey
  simp only [spellings, List.mem_append]
  simp only [List.mem_cons, List.not_mem_nil, or_false] at h
  rcases h with rfl | rfl | rfl | rfl
  · exact Or.inl hkey
  · exact Or.inr (Or.inl hkey)
  · exact Or.inr (Or.inr (Or.inl hkey))
  · exact Or.inr (Or.inr (Or.inr hkey))

/-- Both searches in an object: neither finds anything, or both the same value. -/
lemma searches_agree {num : Number → δ} {o : Object} (ho : Recoverable o)
    {trees : List (List UInt8 × Json δ)} (htrees : o.members.mapM (memberTree num) = some trees)
    {tail : List UInt8} (htail : quote ∉ tail) (v : List UInt8) {keys : List (List UInt8)}
    (hmem : keys ∈ [kStart, kEnd, kSpeaker, kText]) :
    let found := findKey (1 + (o.inside ++ closeBrace :: tail).length)
      (openBrace :: (o.inside ++ closeBrace :: (tail ++ v))) keys
    (first o.members keys = none ∧ found = none ∧ pick (.object trees) keys = none) ∨
      ∃ m c z, first o.members keys = some m ∧ (c = 0x2C ∨ c = closeBrace) ∧
        found = some (valueIn m (c :: z)) ∧ pick (.object trees) keys = valueTree num m.value := by
  have hkeys := spellings_of_mem hmem
  obtain ⟨hfind, hfound⟩ := findKey_first ho hmem hkeys htail v rfl
  obtain ⟨hpick, hpicked⟩ := pick_first ho htrees hkeys
  cases hfirst : first o.members keys with
  | none => exact Or.inl ⟨rfl, hfind hfirst, hpick hfirst⟩
  | some m =>
    obtain ⟨w, hw, c, z, hc, rfl⟩ := hfound m hfirst
    obtain ⟨value, hvalue, htree⟩ := hpicked m hfirst
    exact Or.inr ⟨m, c, z, rfl, hc, hw, hvalue.trans htree.symm⟩

/-- The chunk of an object gives the segment of its tree. -/
lemma recoverSegment_object {conv : Conversions δ φ} {num : Number → δ}
    (hconv : Converts conv num) {o : Object} (ho : Recoverable o) {tree : Json δ}
    (htree : objectTree num o = some tree) {tail : List UInt8} (htail : quote ∉ tail)
    (hbrace : openBrace ∉ tail) {v : List UInt8} (hv : v = [] ∨ v.head? = some openBrace) :
    recoverSegment conv (openBrace :: (o.inside ++ closeBrace :: (tail ++ v))) =
      itemSegment conv tree := by
  obtain ⟨trees, htrees, rfl⟩ := Option.map_eq_some_iff.mp htree
  have hsearch : ∀ keys ∈ [kStart, kEnd, kSpeaker, kText], _ :=
    fun keys hmem => searches_agree ho htrees htail v hmem
  have hchunk : ((o.inside ++ closeBrace :: (tail ++ v)).takeWhile (· ≠ openBrace)) =
      o.inside ++ closeBrace :: tail := by
    have hall : ∀ c ∈ o.inside ++ closeBrace :: tail, decide (c ≠ openBrace) = true := by
      intro c hc
      refine decide_eq_true fun h => ?_
      rw [h] at hc
      rcases List.mem_append.mp hc with hc | hc
      · exact ho.brace hc
      · exact (List.mem_cons.mp hc).elim (by decide) hbrace
    have hrest : v.takeWhile (· ≠ openBrace) = [] := by
      rcases hv with rfl | hv
      · rfl
      · cases v with
        | nil => rfl
        | cons c v =>
          cases hv
          rfl
    rw [← List.cons_append, ← List.append_assoc, List.takeWhile_append_of_pos hall, hrest,
      List.append_nil]
  have htime : ∀ keys ∈ [kStart, kEnd, kSpeaker, kText], keys = kStart ∨ keys = kEnd →
      ((findKey (1 + (o.inside ++ closeBrace :: tail).length)
        (openBrace :: (o.inside ++ closeBrace :: (tail ++ v))) keys).map
          fun v => conv.toFloat (conv.atof v)).getD conv.zero =
        asFloat conv (pick (.object trees) keys) := by
    intro keys hmem hkeys
    rcases hsearch keys hmem with ⟨-, hnone, hpick⟩ | ⟨m, c, z, hfirst, hc, hfound, hpick⟩
    · rw [hnone, hpick]
      rfl
    · have hnostring : ∀ s, m.value ≠ .string s := by
        intro s
        rcases hkeys with rfl | rfl
        · exact ho.time m s (Or.inl hfirst)
        · exact ho.time m s (Or.inr hfirst)
      rw [hfound, hpick]
      exact time_agrees hconv hnostring hc z
  have hstart := htime kStart (by simp) (Or.inl rfl)
  have hend := htime kEnd (by simp) (Or.inr rfl)
  have hname : (match findKey (1 + (o.inside ++ closeBrace :: tail).length)
        (openBrace :: (o.inside ++ closeBrace :: (tail ++ v))) kSpeaker with
      | some (0x22 :: name) => clip (cString (readJsonString name))
      | some v => numberedSpeaker (atoi v)
      | none => literal "Speaker 0") = speakerName conv (pick (.object trees) kSpeaker) := by
    rcases hsearch kSpeaker (by simp) with ⟨-, hnone, hpick⟩ | ⟨m, c, z, hfirst, hc, hfound, hpick⟩
    · rw [hnone, hpick]
      rfl
    · rw [hfound, hpick, ← speaker_agrees hconv (fun s => ho.speakerString m s hfirst)
        (fun x => ho.speakerNumber m x hfirst) hc z]
      exact speaker_match _
  obtain ⟨m, s, hm, hvalue, hgap, hs⟩ := ho.text
  rcases hsearch kText (by simp) with ⟨hnone, -⟩ | ⟨m', c, z, hfirst, hc, hfound, hpick⟩
  · exact absurd (hm.symm.trans hnone) (Option.some_ne_none m)
  obtain rfl : m = m' := Option.some.inj (hm.symm.trans hfirst)
  rw [valueIn_string hvalue hgap] at hfound
  rw [hvalue, valueTree, readJsonString_body hs (blanks m.back ++ c :: z)] at hpick
  rw [recoverSegment, List.tail_cons, hchunk]
  simp only [hfound]
  rw [hstart, hend, itemSegment, hpick, ← hname]
  rfl

lemma recoverSegments_skip (conv : Conversions δ φ) {u : List UInt8} (hu : openBrace ∉ u)
    (s : List UInt8) : recoverSegments conv (u ++ s) = recoverSegments conv s := by
  induction u with
  | nil => rfl
  | cons c u ih =>
    have hc : ¬some c = some openBrace := fun h => hu (Option.some.inj h ▸ List.mem_cons_self)
    rw [← ih fun h => hu (List.mem_cons_of_mem c h)]
    simp [recoverSegments, hc]

lemma recoverSegments_brace (conv : Conversions δ φ) (s : List UInt8) :
    recoverSegments conv (openBrace :: s) =
      (recoverSegment conv (openBrace :: s)).toList ++ recoverSegments conv s := by
  simp only [recoverSegments, List.tails_cons, List.filter_cons, List.head?_cons, decide_true,
    if_true, List.filterMap_cons]
  cases recoverSegment conv (openBrace :: s) <;> rfl

lemma openBrace_notMem {u : List UInt8} (h : ∀ c ∈ u, Quiet c) : openBrace ∉ u :=
  fun hu => (h openBrace hu).2.2.2.2.1 rfl

/-- A chunk and what follows it: from the object to the next brace. -/
lemma recoverSegments_element {conv : Conversions δ φ} {num : Number → δ}
    (hconv : Converts conv num) {e : Element} (he : Recoverable e.object) {tree : Json δ}
    (htree : objectTree num e.object = some tree) {tail : List UInt8} (htail : quote ∉ tail)
    (hbrace : openBrace ∉ tail) {v : List UInt8} (hv : v = [] ∨ v.head? = some openBrace) :
    recoverSegments conv (e.text ++ (tail ++ v)) =
      (itemSegment conv tree).toList ++ recoverSegments conv v := by
  have hback : quote ∉ blanks e.back ++ tail := fun h =>
    (List.mem_append.mp h).elim (quote_notMem (quiet_blanks _)) htail
  have hopen : openBrace ∉ blanks e.back ++ tail := fun h =>
    (List.mem_append.mp h).elim (openBrace_notMem (quiet_blanks _)) hbrace
  have hskip : openBrace ∉ e.object.inside ++ closeBrace :: (blanks e.back ++ tail) := by
    intro h
    rcases List.mem_append.mp h with h | h
    · exact he.brace h
    · exact (List.mem_cons.mp h).elim (by decide) hopen
  have htext : e.text ++ (tail ++ v) = blanks e.front ++ openBrace ::
      (e.object.inside ++ closeBrace :: ((blanks e.back ++ tail) ++ v)) := by
    simp [Element.text, Element.core, Object.text]
  have hrest : e.object.inside ++ closeBrace :: ((blanks e.back ++ tail) ++ v) =
      (e.object.inside ++ closeBrace :: (blanks e.back ++ tail)) ++ v := by
    simp
  rw [htext, recoverSegments_skip conv (openBrace_notMem (quiet_blanks _)),
    recoverSegments_brace, recoverSegment_object hconv he htree hback hopen hv, hrest,
    recoverSegments_skip conv hskip]

/-- Elements begin with a brace behind blanks. -/
lemma commas_elements {es : List Element} (h : es ≠ []) (u : List UInt8) :
    ∃ bs w, commas (es.map Element.text) ++ u = blanks bs ++ openBrace :: w := by
  cases es with
  | nil => exact absurd rfl h
  | cons e es =>
    obtain ⟨w, hw⟩ := prefix_commas e.text (es.map Element.text)
    refine ⟨e.front, e.object.inside ++ closeBrace :: (blanks e.back ++ (w ++ u)), ?_⟩
    rw [List.map_cons, ← hw]
    simp [Element.text, Element.core, Object.text]

lemma filterMap_cons_toList {α β : Type} (f : α → Option β) (x : α) (xs : List α) :
    (x :: xs).filterMap f = (f x).toList ++ xs.filterMap f := by
  cases hx : f x with
  | none => rw [List.filterMap_cons_none hx, Option.toList_none, List.nil_append]
  | some y => rw [List.filterMap_cons_some hx, Option.toList_some, List.singleton_append]

/-- The objects of an array, one after the other. -/
lemma recoverSegments_elements {conv : Conversions δ φ} {num : Number → δ}
    (hconv : Converts conv num) {es : List Element} (hes : ∀ e ∈ es, Recoverable e.object)
    {items : List (Json δ)} (htrees : objectTrees num es = some items) (hnil : es ≠ []) :
    recoverSegments conv (commas (es.map Element.text) ++ [closeBracket]) =
      items.filterMap (itemSegment conv) := by
  induction es generalizing items with
  | nil => exact absurd rfl hnil
  | cons e es ih =>
    rw [objectTrees, List.mapM_cons] at htrees
    obtain ⟨tree, htree, htrees⟩ := Option.bind_eq_some_iff.mp htrees
    obtain ⟨rest, hrest, htrees⟩ := Option.bind_eq_some_iff.mp htrees
    cases htrees
    have he := hes e List.mem_cons_self
    by_cases hlast : es = []
    · subst hlast
      cases hrest
      have hquote : quote ∉ [closeBracket] := by decide
      have hbrace : openBrace ∉ [closeBracket] := by decide
      rw [filterMap_cons_toList]
      exact recoverSegments_element hconv he htree hquote hbrace (Or.inl rfl)
    · have hes' : ∀ e ∈ es, Recoverable e.object :=
        fun e' he' => hes e' (List.mem_cons_of_mem e he')
      obtain ⟨bs, w, hw⟩ := commas_elements hlast [closeBracket]
      have htail : ∀ c ∈ 0x2C :: blanks bs, Quiet c := by
        intro c hc
        rcases List.mem_cons.mp hc with rfl | hc
        · decide
        · exact quiet_blanks bs c hc
      have htext : commas ((e :: es).map Element.text) ++ [closeBracket] =
          e.text ++ (0x2C :: blanks bs ++ openBrace :: w) := by
        rw [List.map_cons, commas_cons fun h => hlast (List.map_eq_nil_iff.mp h),
          List.append_assoc, List.cons_append, hw, List.cons_append]
      calc recoverSegments conv (commas ((e :: es).map Element.text) ++ [closeBracket])
          = (itemSegment conv tree).toList ++ recoverSegments conv (openBrace :: w) := by
            rw [htext]
            exact recoverSegments_element hconv he htree (quote_notMem htail)
              (openBrace_notMem htail) (Or.inr rfl)
        _ = (itemSegment conv tree).toList ++
              recoverSegments conv (commas (es.map Element.text) ++ [closeBracket]) := by
            rw [hw, recoverSegments_skip conv (openBrace_notMem (quiet_blanks bs))]
        _ = (tree :: rest).filterMap (itemSegment conv) := by
            rw [ih hes' hrest hlast, filterMap_cons_toList]

/-- A whole array is what `extract_json` hands to the parser. -/
lemma extractJson_whole {a : Objects}
    (hfence : Search.find (literal "```json") a.text = none) : extractJson a.text = some a.text := by
  have hclose : scan (outside 1) [closeBracket] = (1, outside 0) := rfl
  have hscan : scan ⟨0, false, false⟩ (openBracket :: (a.inside ++ [closeBracket])) =
      ((openBracket :: (a.inside ++ [closeBracket])).length, outside 0) := by
    rw [← List.cons_append, scan_append (run_objects a), hclose]
    simp
  have hstart : a.text.dropWhile (fun c => c ≠ openBracket ∧ c ≠ openBrace) =
      openBracket :: (a.inside ++ [closeBracket]) := rfl
  rw [extractJson, hfence]
  simp only [hstart, hscan, if_true, List.take_length]
  rfl

/-- Arrays of recoverable objects give the same segments with and without a parser. -/
theorem recovery_agrees {conv : Conversions δ φ} {num : Number → δ} (hconv : Converts conv num)
    {a : Objects} (ha : ∀ e ∈ a.elements, Recoverable e.object) {tree : Json δ}
    (htree : arrayTree num a = some tree) :
    recoverSegments conv a.text = treeSegments conv tree ∧
      ∀ parse : List UInt8 → Option (Json δ), parse a.text = some tree →
        Search.find (literal "```json") a.text = none →
          (postprocessText conv parse a.text).segments = recoverSegments conv a.text := by
  obtain ⟨items, hitems, rfl⟩ := Option.map_eq_some_iff.mp htree
  have hrecovered : recoverSegments conv a.text = treeSegments conv (.array items) := by
    have hopen : openBrace ∉ ([openBracket] : List UInt8) := by decide
    change recoverSegments conv ([openBracket] ++ (a.inside ++ [closeBracket])) = _
    rw [recoverSegments_skip conv hopen, Objects.inside]
    split_ifs with hnil
    · have hitems' : items = [] := by
        rw [objectTrees, hnil] at hitems
        exact (Option.some.inj hitems).symm
      have hnone : openBrace ∉ blanks a.inner ++ [closeBracket] := fun h =>
        (List.mem_append.mp h).elim (openBrace_notMem (quiet_blanks _)) (by decide)
      rw [← List.append_nil (blanks a.inner ++ [closeBracket]), recoverSegments_skip conv hnone,
        hitems']
      rfl
    · exact recoverSegments_elements hconv ha hitems hnil
  refine ⟨hrecovered, fun parse hparse hfence => ?_⟩
  rw [postprocessText, extractJson_whole hfence, Option.bind_some, hparse, hrecovered]

/-- The integer literals, with `atoi` for `strtod`. -/
def integers : Conversions ℤ ℤ := ⟨0, id, id, atoi⟩

lemma integers_convert : Converts integers integer where
  number bs x c rest hc := by
    have hdigit : ¬IsDigit c := by
      rcases hc with ⟨b, rfl⟩ | rfl | rfl
      · cases b <;> decide
      · decide
      · decide
    exact atoi_number bs x hdigit rest
  word bs b rest := by
    change atoi _ = 0
    rw [atoi_blanks]
    cases b <;> rfl
  null bs rest := by
    change atoi _ = 0
    rw [atoi_blanks]
    rfl
  int x _ _ _ := rfl

/-- An object with a time and a text of two lines. -/
def timed : Object :=
  ⟨[⟨[], plains (literal "Start"), [], [.space], .number ⟨false, 3, [], none⟩, []⟩,
    ⟨[.space], plains (literal "Content"), [], [.space],
      .string (plains (literal "a") ++ .escape .n :: plains (literal "b")), []⟩], []⟩

lemma not_endsLike {key : List UInt8} {s : List Piece} (h : Piece.escape .quote ∉ s) :
    ¬EndsLike key s := by
  rintro ⟨t, u, rfl, -⟩
  exact h (List.mem_append_right t List.mem_cons_self)

lemma escape_notMem_plains (s : List UInt8) (e : Escape) : Piece.escape e ∉ plains s := by
  intro h
  obtain ⟨b, -, hb⟩ := List.mem_filterMap.mp h
  split_ifs at hb
  cases hb

lemma resolved_plains {s : List UInt8} {x : Piece} (h : x ∈ plains s) : Resolved x := by
  obtain ⟨b, -, hb⟩ := List.mem_filterMap.mp h
  split_ifs at hb
  cases hb
  trivial

lemma recoverable_timed : Recoverable timed where
  brace := by decide +kernel
  clear key hkey m hm := by
    have hvalue : body (plains (literal "a") ++ .escape .n :: plains (literal "b")) =
        literal "a" ++ [0x5C, 0x6E] ++ literal "b" := rfl
    have hout : literal "a" ++ [0x5C, 0x6E] ++ literal "b" ∉ spellings := by decide +kernel
    rcases List.mem_pair.mp hm with rfl | rfl
    · exact ⟨not_endsLike (escape_notMem_plains _ _), fun s hs => nomatch hs⟩
    · refine ⟨not_endsLike (escape_notMem_plains _ _), fun s hs => ?_⟩
      cases hs
      refine ⟨fun h => hout (hvalue ▸ h ▸ hkey), not_endsLike fun h => ?_⟩
      rcases List.mem_append.mp h with h | h
      · exact escape_notMem_plains _ _ h
      · rcases List.mem_cons.mp h with h | h
        · cases h
        · exact escape_notMem_plains _ _ h
  raw m hm key hkey _ := by
    rcases List.mem_pair.mp hm with rfl | rfl
    · cases hkey
      rfl
    · cases hkey
      rfl
  colon keys _ m hm := by
    have hmid : ∀ m ∈ timed.members, m.mid = [] := by
      intro m hm
      rcases List.mem_pair.mp hm with rfl | rfl <;> rfl
    obtain ⟨key, -, hkey⟩ := List.exists_of_findSome?_eq_some hm
    rw [hmid m (member_mem hkey).1]
    exact fun b hb => absurd hb List.not_mem_nil
  text := by
    refine ⟨_, _, rfl, rfl, by decide, fun x hx => ?_⟩
    rcases List.mem_append.mp hx with hx | hx
    · exact resolved_plains hx
    · rcases List.mem_cons.mp hx with rfl | hx
      · exact ⟨Escape.noConfusion, Escape.noConfusion⟩
      · exact resolved_plains hx
  speakerString m s hm := nomatch hm
  speakerNumber m x hm := nomatch hm
  time m s hm := by
    rcases hm with hm | hm
    · cases hm
      exact fun h => nomatch h
    · cases hm

theorem recovery_agrees_timed :
    recoverSegments integers (Objects.text ⟨[⟨[], timed, []⟩], []⟩) =
      [⟨literal "Speaker 0", [0x61, 0x0A, 0x62], 3, 0⟩] := by
  have htimed : ∀ e ∈ [(⟨[], timed, []⟩ : Element)], Recoverable e.object := by
    intro e he
    rw [List.mem_singleton.mp he]
    exact recoverable_timed
  have htree : arrayTree integer ⟨[⟨[], timed, []⟩], []⟩ = some (.array [.object
      [(literal "Start", .number 3), (literal "Content", .string [0x61, 0x0A, 0x62])]]) := rfl
  exact (recovery_agrees integers_convert (a := ⟨[⟨[], timed, []⟩], []⟩) htimed htree).1.trans
    (by decide +kernel)

/-- A letter with an accent, as an escape, comes out as one byte instead of two. -/
theorem recovery_latin1 :
    let a : Objects := ⟨[⟨[], ⟨[⟨[], plains (literal "Content"), [], [], .string
      [.code ⟨0, false⟩ ⟨0, false⟩ ⟨14, false⟩ ⟨9, false⟩], []⟩], []⟩, []⟩], []⟩
    arrayTree integer a = some (.array [.object [(literal "Content", .string [0xC3, 0xA9])]]) ∧
      recoverSegments integers a.text = [⟨literal "Speaker 0", [0xE9], 0, 0⟩] ∧
      treeSegments integers (.array [.object [(literal "Content", .string [0xC3, 0xA9])]]) =
        [⟨literal "Speaker 0", [0xC3, 0xA9], 0, 0⟩] :=
  ⟨rfl, by decide +kernel, by decide +kernel⟩

end VibeVoice.Postprocess
