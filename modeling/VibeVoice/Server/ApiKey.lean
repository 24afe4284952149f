import VibeVoice.Lib.Query
import VibeVoice.Server.RequestBody

/-!
The key of a request: `key_equal` and `authorized` of `api.c`.

A browser cannot set a header on a WebSocket, so its key comes in the query of
`/v1/audio/stream`.  The key of the server is kept in 256 bytes, the target of a request in 512.

* `keyEqual_iff`: the comparison.
* `copyValue_eq`, `queryKey_eq_some`: the key that a query carries.
* `parseHead_target`: what becomes of a target that fits.
* `query_key_iff`: which requests are let in.
-/

namespace VibeVoice.Http

open Search Query

/-! ### The comparison -/

/-- `key_equal`. -/
def keyEqual (given key : List UInt8) : Bool :=
  (List.range key.length).foldl
    (fun diff i => diff ||| (given.getD i 0 ^^^ key.getD i 0))
    (if given.length ≠ key.length then 1 else 0) == (0 : UInt8)

lemma or_eq_zero (a b : UInt8) : a ||| b = 0 ↔ a = 0 ∧ b = 0 := by
  simp only [← UInt8.toNat_inj, UInt8.toNat_or, UInt8.toNat_zero, Nat.or_eq_zero_iff]

lemma xor_eq_zero (a b : UInt8) : a ^^^ b = 0 ↔ a = b := UInt8.xor_eq_zero_iff

/-- Nothing differs where no byte does. -/
lemma foldl_diff (f g : ℕ → UInt8) (l : List ℕ) (d : UInt8) :
    l.foldl (fun diff i => diff ||| (f i ^^^ g i)) d = 0 ↔ d = 0 ∧ ∀ i ∈ l, f i = g i := by
  induction l generalizing d with
  | nil => simp
  | cons i l ih =>
    rw [List.foldl_cons, ih, or_eq_zero, xor_eq_zero, List.forall_mem_cons, and_assoc]

/-- Two keys are equal where their lengths and all their bytes are. -/
theorem keyEqual_iff (given key : List UInt8) : keyEqual given key = true ↔ given = key := by
  rw [keyEqual, beq_iff_eq, foldl_diff]
  constructor
  · rintro ⟨hlen, hbytes⟩
    have hlen : given.length = key.length := by
      by_contra hne
      rw [if_pos hne] at hlen
      exact absurd hlen (by decide)
    refine List.ext_getElem hlen fun i hi hi' => ?_
    rw [List.getElem_eq_getD 0, List.getElem_eq_getD 0]
    exact hbytes i (List.mem_range.mpr hi')
  · rintro rfl
    exact ⟨if_neg (not_not.mpr rfl), fun _ _ => rfl⟩

/-! ### The query -/

/-- The copy of a value into `key`, `none` for one that is refused. -/
def copyValue : List UInt8 → List UInt8 → Option (List UInt8)
  | [], key => some key
  | b :: q, key =>
    if b = amp then some key
    else if 257 ≤ key.length + 1 then none
    else if b = plus then copyValue q (key ++ [0x20])
    else
      match q with
      | x :: y :: q =>
        if b = percent ∧ isHex x ∧ isHex y then
          if escaped x y = 0 then none else copyValue q (key ++ [escaped x y])
        else if b = 0 then none
        else copyValue (x :: y :: q) (key ++ [b])
      | q => if b = 0 then none else copyValue q (key ++ [b])

/-- `"api_key="`. -/
def apiKey : List UInt8 := literal "api_key="

/-- The loop over the parameters of a query, as many as there are bytes at most: the key that it
finds. -/
def queryKey : ℕ → List UInt8 → Option (List UInt8)
  | n + 1, b :: q =>
    if apiKey.isPrefixOf (b :: q) then copyValue ((b :: q).drop 8) []
    else queryKey n ((b :: q).dropWhile (· ≠ amp)).tail
  | _, _ => none

/-- `vv_http_header`. -/
def httpHeader (req : Request) (name : List UInt8) : Option (List UInt8) :=
  (req.headers.find? fun h => h.1.length = name.length && ciEqual name.length h.1 name).map
    Prod.snd

/-- The value of an `Authorization` header without `"Bearer "`. -/
def bearer (h : List UInt8) : List UInt8 :=
  if (literal "Bearer ").isPrefixOf h then h.drop 7 else h

/-- `authorized`, for the key of the server. -/
def authorized (key : List UInt8) (req : Request) : Bool :=
  if key = [] then true
  else
    match httpHeader req (literal "Authorization") with
    | none =>
      if req.path = literal "/v1/audio/stream" then
        match queryKey req.query.length req.query with
        | none => false
        | some given => keyEqual given key
      else false
    | some h => keyEqual (bearer h) key

/-- The key of a server that is started with this one. -/
def serverKey (key : List UInt8) : List UInt8 := snprintf 256 key

/-! ### The key that a query carries -/

/-- A key so far, with those bytes behind it where they fit and none of them is a NUL. -/
def kept (key v : List UInt8) : Option (List UInt8) :=
  if key.length + v.length ≤ 256 ∧ 0 ∉ v then some (key ++ v) else none

/-- One byte of a value: `c` is stored, and `q` follows. -/
def store (c : UInt8) (q key : List UInt8) : Option (List UInt8) :=
  if 257 ≤ key.length + 1 then none
  else if c = 0 then none
  else copyValue q (key ++ [c])

lemma copyValue_plus (q key : List UInt8) : copyValue (plus :: q) key = store 0x20 q key := by
  rw [copyValue.eq_def]
  rfl

lemma copyValue_escape {x y : UInt8} (hx : isHex x) (hy : isHex y) (q key : List UInt8) :
    copyValue (percent :: x :: y :: q) key = store (escaped x y) q key := by
  rw [copyValue.eq_def, store]
  dsimp only
  rw [if_neg (by decide)]
  refine if_congr Iff.rfl rfl ?_
  rw [if_neg (by decide), if_pos ⟨rfl, hx, hy⟩]

lemma copyValue_other {b : UInt8} {q : List UInt8} (hamp : b ≠ amp) (hplus : b ≠ plus)
    (h : ¬ (b = percent ∧ Digits q)) (key : List UInt8) :
    copyValue (b :: q) key = store b q key := by
  rw [copyValue.eq_def, store]
  dsimp only
  rw [if_neg hamp]
  refine if_congr Iff.rfl rfl ?_
  rw [if_neg hplus]
  split
  · rw [if_neg fun hdig => h ⟨hdig.1, _, _, _, rfl, hdig.2⟩]
  · rfl

/-- What stands behind a value: nothing, or the next parameter. -/
def Behind (rest : List UInt8) : Prop := rest = [] ∨ ∃ r, rest = amp :: r

lemma copyValue_behind {rest : List UInt8} (h : Behind rest) (key : List UInt8) :
    copyValue rest key = some key := by
  obtain rfl | ⟨r, rfl⟩ := h
  · rfl
  · rw [copyValue.eq_def]
    rfl

/-- No digit of an escape is taken from behind the value. -/
lemma digits_append {s rest : List UInt8} (hrest : Behind rest) (h : Digits (s ++ rest)) :
    Digits s := by
  obtain ⟨x, y, t, heq, hx, hy⟩ := h
  have hnot : isHex amp ≠ true := by decide
  cases s with
  | nil =>
    obtain rfl | ⟨r, rfl⟩ := hrest
    · cases heq
    · rw [← (List.cons.inj heq).1] at hx
      exact absurd hx hnot
  | cons a s =>
    obtain ⟨ha, htail⟩ := List.cons.inj heq
    cases s with
    | nil =>
      obtain rfl | ⟨r, rfl⟩ := hrest
      · cases htail
      · rw [← (List.cons.inj htail).1] at hy
        exact absurd hy hnot
    | cons b s =>
      obtain ⟨hb, -⟩ := List.cons.inj htail
      exact ⟨a, b, s, rfl, ha ▸ hx, hb ▸ hy⟩

lemma store_eq {c : UInt8} {q v key : List UInt8}
    (h : ∀ key : List UInt8, key.length ≤ 256 → copyValue q key = kept key v) :
    store c q key = kept key (c :: v) := by
  rw [store]
  by_cases hfull : 257 ≤ key.length + 1
  · rw [if_pos hfull, kept, if_neg]
    rintro ⟨hlen, -⟩
    rw [List.length_cons] at hlen
    omega
  · rw [if_neg hfull]
    by_cases hc : c = 0
    · rw [if_pos hc, kept, if_neg]
      rintro ⟨-, hzero⟩
      exact hzero (hc ▸ List.mem_cons_self)
    · rw [if_neg hc, h _ (by rw [List.length_append, List.length_singleton]; omega), kept, kept]
      have hiff : ((key ++ [c]).length + v.length ≤ 256 ∧ 0 ∉ v) ↔
          (key.length + (c :: v).length ≤ 256 ∧ 0 ∉ c :: v) := by
        rw [List.length_append, List.length_singleton, List.length_cons, List.mem_cons, not_or,
          Nat.add_assoc, Nat.add_comm 1]
        exact and_congr_right fun _ => ⟨fun h => ⟨Ne.symm hc, h⟩, fun h => h.2⟩
      rw [List.append_assoc, List.singleton_append]
      exact if_congr hiff rfl rfl

/-- A value is copied as what its text stands for, unless that is too long or has a NUL in it. -/
theorem copyValue_eq {rest : List UInt8} (hrest : Behind rest) (text : List UInt8) :
    amp ∉ text → ∀ key : List UInt8, key.length ≤ 256 →
      copyValue (text ++ rest) key = kept key (decode text) := by
  induction text using decode_induction with
  | nil =>
    intro _ key hkey
    rw [List.nil_append, copyValue_behind hrest, decode, kept, List.append_nil, if_pos]
    exact ⟨by simpa using hkey, List.not_mem_nil⟩
  | plus s ih =>
    intro hamp key _
    rw [decode_plus, List.cons_append, copyValue_plus]
    exact store_eq (ih fun h => hamp (List.mem_cons_of_mem _ h))
  | escape x y s hx hy ih =>
    intro hamp key _
    rw [decode_escape hx hy, List.cons_append, List.cons_append, List.cons_append,
      copyValue_escape hx hy]
    exact store_eq (ih fun h => hamp (by simp [h]))
  | other b s hplus hdig ih =>
    intro hamp key _
    have hne : b ≠ amp := fun h => hamp (h ▸ List.mem_cons_self)
    rw [decode_cons hplus hdig, List.cons_append,
      copyValue_other hne hplus fun h => hdig ⟨h.1, digits_append hrest h.2⟩]
    exact store_eq (ih fun h => hamp (List.mem_cons_of_mem _ h))

/-- The name of the parameter. -/
def keyName : List UInt8 := literal "api_key"

lemma queryKey_found {n : ℕ} {text rest : List UInt8} (hamp : amp ∉ text) (hrest : Behind rest)
    (hn : (apiKey ++ (text ++ rest)).length ≤ n) :
    queryKey n (apiKey ++ (text ++ rest)) = kept [] (decode text) := by
  have hfront : apiKey.isPrefixOf (apiKey ++ (text ++ rest)) = true :=
    List.isPrefixOf_iff_prefix.mpr (List.prefix_append _ _)
  have hdrop : (apiKey ++ (text ++ rest)).drop 8 = text ++ rest := List.drop_left' rfl
  have height : 8 ≤ (apiKey ++ (text ++ rest)).length := by
    rw [List.length_append]
    exact Nat.le_add_right 8 _
  cases n with
  | zero => omega
  | succ n =>
    cases hq : apiKey ++ (text ++ rest) with
    | nil => simp [hq] at height
    | cons b q =>
      rw [queryKey, ← hq, if_pos hfront, hdrop]
      exact copyValue_eq hrest text hamp [] (Nat.zero_le _)

lemma apiKey_front (param rest : List UInt8) :
    apiKey.isPrefixOf (param ++ amp :: rest) = true ↔ apiKey <+: param := by
  rw [List.isPrefixOf_iff_prefix]
  constructor
  · intro h
    rcases Nat.lt_or_ge param.length apiKey.length with hlt | hle
    · -- the `'&'` would be a byte of `"api_key="`
      obtain ⟨t, ht⟩ := h
      have hamp : (apiKey ++ t)[param.length]? = some amp := by
        rw [ht, List.getElem?_append_right le_rfl, Nat.sub_self, List.getElem?_cons_zero]
      rw [List.getElem?_append_left hlt] at hamp
      exact absurd (List.mem_of_getElem? hamp) (by decide)
    · exact List.prefix_of_prefix_length_le h (List.prefix_append _ _) hle
  · intro h
    exact h.trans (List.prefix_append _ _)

/-- Another parameter is passed over. -/
lemma queryKey_skip {n : ℕ} {param rest : List UInt8} (hamp : amp ∉ param)
    (hother : ¬ apiKey <+: param) :
    queryKey (n + 1) (param ++ amp :: rest) = queryKey n rest := by
  cases hq : param ++ amp :: rest with
  | nil => simp at hq
  | cons b q =>
    rw [queryKey, ← hq, if_neg ((apiKey_front param rest).not.mpr hother), dropWhile_mark hamp,
      List.tail_cons]

/-- The loop finds the first parameter of that name. -/
theorem queryKey_carries {q text : List UInt8} (h : Carries keyName q text) :
    ∀ n, q.length ≤ n → queryKey n q = kept [] (decode text) := by
  induction h with
  | @last text hamp =>
    intro n hn
    have hq : front keyName ++ text = apiKey ++ (text ++ []) := by rw [List.append_nil]; rfl
    rw [hq] at hn ⊢
    exact queryKey_found hamp (.inl rfl) hn
  | @here text rest hamp =>
    intro n hn
    have hq : front keyName ++ text ++ amp :: rest = apiKey ++ (text ++ amp :: rest) :=
      List.append_assoc _ _ _
    rw [hq] at hn ⊢
    exact queryKey_found hamp (.inr ⟨rest, rfl⟩) hn
  | @there param rest text hamp hother _ ih =>
    intro n hn
    rw [List.length_append, List.length_cons] at hn
    obtain ⟨n, rfl⟩ := Nat.exists_eq_add_one_of_ne_zero (n := n) (by omega)
    rw [queryKey_skip hamp hother]
    exact ih n (by omega)

/-- What the loop finds is the value of such a parameter. -/
theorem carries_of_queryKey {v : List UInt8} {n : ℕ} {q : List UInt8} (h : queryKey n q = some v) :
    ∃ text, Carries keyName q text ∧ decode text = v := by
  induction n generalizing q with
  | zero => cases h
  | succ n ih =>
    cases q with
    | nil => cases h
    | cons b q =>
      rw [queryKey] at h
      generalize b :: q = q at h
      split_ifs at h with hfront
      · obtain ⟨s, rfl⟩ := List.isPrefixOf_iff_prefix.mp hfront
        have hdrop : (apiKey ++ s).drop 8 = s := List.drop_left' rfl
        rw [hdrop] at h
        by_cases hamp : amp ∈ s
        · obtain ⟨text, rest, rfl, hnot⟩ := List.eq_append_cons_of_mem hamp
          rw [copyValue_eq (.inr ⟨rest, rfl⟩) text hnot [] (Nat.zero_le _), kept] at h
          split_ifs at h
          have hc : Carries keyName (front keyName ++ text ++ amp :: rest) text := .here hnot
          rw [List.append_assoc] at hc
          exact ⟨text, hc, Option.some.inj h⟩
        · have hcopy := copyValue_eq (.inl rfl) s hamp [] (Nat.zero_le _)
          rw [List.append_nil] at hcopy
          rw [hcopy, kept] at h
          split_ifs at h
          exact ⟨s, .last hamp, Option.some.inj h⟩
      · by_cases hamp : amp ∈ q
        · obtain ⟨param, rest, rfl, hnot⟩ := List.eq_append_cons_of_mem hamp
          rw [dropWhile_mark hnot, List.tail_cons] at h
          obtain ⟨text, hcarries, htext⟩ := ih h
          exact ⟨text, .there hnot ((apiKey_front param rest).not.mp hfront) hcarries, htext⟩
        · have hnone : q.dropWhile (· ≠ amp) = [] :=
            List.dropWhile_eq_nil_iff.mpr fun a ha => by
              simpa using fun h : a = amp => hamp (h ▸ ha)
          rw [hnone, List.tail_nil] at h
          cases n <;> cases h

/-- The key of a server is found exactly where the query carries it. -/
theorem queryKey_eq_some {key : List UInt8} (hzero : 0 ∉ key) (hlen : key.length ≤ 255)
    (q : List UInt8) :
    queryKey q.length q = some key ↔ ∃ text, Carries keyName q text ∧ decode text = key := by
  constructor
  · exact carries_of_queryKey
  · rintro ⟨text, hcarries, rfl⟩
    have hfits : ([] : List UInt8).length + (decode text).length ≤ 256 :=
      (Nat.zero_add _).le.trans (hlen.trans (Nat.le_succ 255))
    rw [queryKey_carries hcarries _ le_rfl, kept, if_pos ⟨hfits, hzero⟩, List.nil_append]

/-! ### The requests that are let in -/

/-- The path and the query of a target. -/
def targetPath (target : List UInt8) : List UInt8 := target.takeWhile (· ≠ 0x3F)
def targetQuery (target : List UInt8) : List UInt8 := (target.dropWhile (· ≠ 0x3F)).tail

lemma snprintf_eq_self {size : ℕ} {s : List UInt8} (hzero : 0 ∉ s) (hlen : s.length ≤ size - 1) :
    snprintf size s = s := by
  rw [snprintf, cString_eq_self hzero, List.take_of_length_le hlen]

/-- A target that fits is kept whole. -/
lemma parseHead_target {method target : List UInt8} (hmethod : 0x20 ∉ method)
    (htarget : 0x20 ∉ target) (hzero : 0 ∉ target) (hlen : target.length ≤ 511)
    (fields body : List UInt8) :
    ∃ req, parseHead (method ++ 0x20 :: (target ++ 0x20 :: fields)) body = some req ∧
      req.path = targetPath target ∧ req.query = targetQuery target := by
  have hline := dropWhile_mark hmethod (target ++ 0x20 :: fields)
  have hrest := dropWhile_mark htarget fields
  have htake := takeWhile_mark htarget fields
  have hsub : targetQuery target <:+ target :=
    (List.tail_suffix _).trans (List.dropWhile_suffix _)
  have hquery : snprintf 512 (targetQuery target) = targetQuery target :=
    snprintf_eq_self (fun h => hzero (hsub.subset h)) (hsub.length_le.trans hlen)
  refine ⟨_, by rw [parseHead, hline, List.tail_cons, hrest, if_neg (by simp)], ?_, ?_⟩
  · dsimp only
    rw [htake, snprintf_eq_self hzero hlen, targetPath]
  · dsimp only
    rw [htake, snprintf_eq_self hzero hlen]
    exact hquery

/-- With a key set, a header decides where there is one, and else the query. -/
theorem authorized_iff {key : List UInt8} (hkey : key ≠ []) (hzero : 0 ∉ key)
    (hlen : key.length ≤ 255) (req : Request) :
    authorized key req = true ↔
      (∃ h, httpHeader req (literal "Authorization") = some h ∧ bearer h = key) ∨
        (httpHeader req (literal "Authorization") = none ∧ req.path = literal "/v1/audio/stream" ∧
          ∃ text, Carries keyName req.query text ∧ decode text = key) := by
  rw [authorized, if_neg hkey]
  cases httpHeader req (literal "Authorization") with
  | some h => simp [keyEqual_iff]
  | none =>
    have hgiven : (match queryKey req.query.length req.query with
        | none => false
        | some given => keyEqual given key) = true ↔
        queryKey req.query.length req.query = some key := by
      cases queryKey req.query.length req.query with
      | none => simp
      | some given => simp [keyEqual_iff]
    dsimp only
    rw [queryKey_eq_some hzero hlen] at hgiven
    split_ifs with hpath
    · simp only [hgiven, hpath, true_and, false_and, exists_false, false_or]
    · simp [hpath]

/-- **The key in the query.**  On `/v1/audio/stream`, without a header, the encodings of the key
are let in and those of any other value are not; a query is looked at nowhere else. -/
theorem query_key_iff {maxBody want : ℕ} {as : List Arrival}
    (hfits : fits maxBody as .start = true) {key : List UInt8} (hkey : key ≠ []) (hzero : 0 ∉ key)
    (hlen : key.length ≤ 255) {method target fields : List UInt8} (hmethod : 0x20 ∉ method)
    (htarget : 0x20 ∉ target) (htext : 0 ∉ target) (hsize : target.length ≤ 511)
    (hread : HeadRead maxBody as (method ++ 0x20 :: (target ++ 0x20 :: fields)) want) :
    ∃ req, readRequest maxBody as = some req ∧
      (httpHeader req (literal "Authorization") = none →
        targetPath target = literal "/v1/audio/stream" →
        ∀ text value, Carries keyName (targetQuery target) text → Encodes text value →
          (authorized (serverKey key) req = true ↔ value = key)) ∧
      (authorized (serverKey key) req = true →
        (∃ h, httpHeader req (literal "Authorization") = some h ∧ bearer h = key) ∨
          (httpHeader req (literal "Authorization") = none ∧
            targetPath target = literal "/v1/audio/stream" ∧
            ∃ text, Carries keyName (targetQuery target) text ∧ decode text = key)) := by
  obtain ⟨req, hparse, hpath, hquery⟩ := parseHead_target hmethod htarget htext hsize fields
    ((filled as (method ++ 0x20 :: (target ++ 0x20 :: fields)) want).drop
      (method ++ 0x20 :: (target ++ 0x20 :: fields)).length)
  have hiff := authorized_iff hkey hzero hlen req
  rw [hpath, hquery] at hiff
  have hserver : serverKey key = key := snprintf_eq_self hzero hlen
  rw [hserver]
  refine ⟨req, by rw [readRequest_headRead hfits hread, hparse], ?_, hiff.mp⟩
  intro hnone hstream text value hcarries hencodes
  rw [hiff]
  have hvalue := decode_of_encodes hencodes
  constructor
  · rintro (⟨h, hsome, -⟩ | ⟨-, -, text', hcarries', htext'⟩)
    · rw [hnone] at hsome
      cases hsome
    · -- the loop stops at the first parameter, which has that value
      have hfound := (queryKey_eq_some hzero hlen _).mpr ⟨text', hcarries', htext'⟩
      rw [queryKey_carries hcarries _ le_rfl, hvalue, kept] at hfound
      split_ifs at hfound
      exact Option.some.inj hfound
  · rintro rfl
    exact .inr ⟨hnone, hstream, text, hcarries, hvalue⟩

/-- A head that comes in one `recv` is read. -/
lemma headRead_one {maxBody want : ℕ} {head : List UInt8} (hends : EndsHead head)
    (hwant : announced head = some want) (hle : want ≤ maxBody) :
    HeadRead maxBody [⟨head, false⟩] head want := by
  have hfour := hends.four_le
  have hne : head ≠ [] := by rintro rfl; simp at hfour
  have harrived : arrived [⟨head, false⟩] = [⟨head, false⟩] := arrived_cons hne []
  have hbytes : bytes [⟨head, false⟩] = head := List.append_nil head
  refine ⟨hends, by rw [harrived, hbytes], ?_, hwant, hle⟩
  rw [harrived, inTime_cons]
  refine ⟨fun h => absurd h (by simp), fun pre a post h => ?_⟩
  simp at h

/-- The key `"k+"` of a server, in the query of the stream. -/
def streamTarget : List UInt8 := literal "/v1/audio/stream?api_key=k%2B"

/-- A `GET` of a target. -/
def requestHead (target : List UInt8) : List UInt8 :=
  literal "GET" ++ 0x20 :: (target ++ 0x20 :: literal "HTTP/1.1\r\n\r\n")

theorem query_key_iff_stream :
    ∃ req, readRequest 1024 [⟨requestHead streamTarget, false⟩] = some req ∧
      (httpHeader req (literal "Authorization") = none →
        targetPath streamTarget = literal "/v1/audio/stream" →
        ∀ text value, Carries keyName (targetQuery streamTarget) text → Encodes text value →
          (authorized (serverKey (literal "k+")) req = true ↔ value = literal "k+")) := by
  have hread : HeadRead 1024 [⟨requestHead streamTarget, false⟩] (requestHead streamTarget) 0 :=
    headRead_one (by decide +kernel) (by decide +kernel) (Nat.zero_le _)
  have hkey : literal "k+" ≠ [] ∧ 0 ∉ literal "k+" ∧ (literal "k+").length ≤ 255 := by decide
  have htarget : 0x20 ∉ streamTarget ∧ 0 ∉ streamTarget ∧ streamTarget.length ≤ 511 := by decide
  obtain ⟨req, hreq, hiff, -⟩ := query_key_iff (by decide +kernel) hkey.1 hkey.2.1 hkey.2.2
    (by decide) htarget.1 htarget.2.1 htarget.2.2 hread
  exact ⟨req, hreq, hiff⟩

/-- The same key in the query of another path. -/
def listTarget : List UInt8 := literal "/v1/models?api_key=k%2B"

/-- A parameter that fills the target up to the `'k'` of `"kx"`. -/
def fullTarget : List UInt8 :=
  literal "/v1/audio/stream?" ++ (List.replicate 484 0x61 ++ literal "&api_key=kx")

/-- On another path the key is refused. -/
theorem query_key_elsewhere :
    Carries keyName (targetQuery listTarget) (literal "k%2B") ∧
      Encodes (literal "k%2B") (literal "k+") ∧
      (readRequest 1024 [⟨requestHead listTarget, false⟩]).map (authorized (serverKey (literal "k+"))) =
        some false := by
  have hlist : targetQuery listTarget = front keyName ++ literal "k%2B" := by decide +kernel
  refine ⟨?_, ?_, by decide +kernel⟩
  · rw [hlist]
    exact .last (by decide)
  · exact .literal (by decide) (by decide) (by decide) (.escape rfl rfl (by decide) .nil)

/-- On the stream a value that is not the key is let in, where the target keeps no more of it than
the key. -/
theorem query_key_cut :
    Carries keyName (targetQuery fullTarget) (literal "kx") ∧
      Encodes (literal "kx") (literal "kx") ∧
      (readRequest 1024 [⟨requestHead fullTarget, false⟩]).map (authorized (serverKey (literal "k"))) =
        some true := by
  have hfull : targetQuery fullTarget =
      List.replicate 484 0x61 ++ amp :: (front keyName ++ literal "kx") := by decide +kernel
  have hother : ¬ front keyName <+: List.replicate 484 0x61 := by decide +kernel
  refine ⟨?_, ?_, by decide +kernel⟩
  · rw [hfull]
    exact .there (fun h => absurd (List.eq_of_mem_replicate h) (by decide)) hother (.last (by decide))
  · exact .literal (by decide) (by decide) (by decide)
      (.literal (by decide) (by decide) (by decide) .nil)

end VibeVoice.Http
