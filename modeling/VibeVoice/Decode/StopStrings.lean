import VibeVoice.Decode.Transcribe
import VibeVoice.Lib.Search
import VibeVoice.Model.Cjson
import Mathlib.Data.List.ReduceOption

/-!
Text generation (`vv_inference_generate` of `pipeline.c`): how the pieces of the tokens become the
answer and its deltas, and where a stop string ends them.

* `utf8Complete`, `stopCut`: the two tests on the bytes.
* `emit`: what a token does to the text, alike in the loops of both devices.
* `generate`: the request, from the token behind the prompt on.
* `whole_append`: the text is a function of the bytes so far.
* `honest_iff`: the requests whose answer is cut at the first stop string.
-/

namespace VibeVoice.Decode

/-! ### The tests on the bytes -/

/-- A continuation byte. -/
def continues (c : UInt8) : Bool := c &&& 0xC0 == 0x80

/-- `need`: the bytes of the character a byte leads. -/
def charNeed (c : UInt8) : ℕ :=
  if c &&& 0x80 = 0 then 1
  else if c &&& 0xE0 = 0xC0 then 2
  else if c &&& 0xF0 = 0xE0 then 3
  else if c &&& 0xF8 = 0xF0 then 4
  else 1

/-- The loop of `utf8_complete` over the last bytes, from the `back`-th last one on: the bytes of a
character that is not whole. -/
def dangling : ℕ → List UInt8 → ℕ
  | _, [] => 0
  | back, c :: cs =>
    if continues c then dangling (back + 1) cs else if charNeed c ≤ back then 0 else back

/-- `utf8_complete`. -/
def utf8Complete (s : List UInt8) : ℕ := s.length - dangling 1 (s.reverse.take 4)

/-- `stop_cut`. -/
def stopCut (text : List UInt8) (stop : List (Option (List UInt8))) : Option ℕ :=
  stop.findSome? fun s =>
    match s with
    | none | some [] => none
    | some (b :: bs) => if b :: bs <:+ text then some (text.length - (b :: bs).length) else none

/-! ### Requests -/

/-- `finish_reason`. -/
inductive Finish
  | stop | length | cancelled
  deriving DecidableEq, Repr

/-- The caller's stop strings, which are C strings. -/
structure Stops where
  list : List (Option (List UInt8))
  no_zero : ∀ s ∈ list, ∀ bytes ∈ s, (0 : UInt8) ∉ bytes

/-- What a generation comes to. `piece` is the text of a token, `pushes` tells which of its pushes
find memory, and `goesOn` what `on_text` answers, if there is one. -/
structure Generation (α : Type) where
  cpuOnly : Bool
  maxTokens : ℤ
  seqLen : ℕ
  window : ℕ
  ends : α → Bool
  piece : α → Except Status (List UInt8)
  stop : Stops
  first : Except Status α
  steps : ℕ → Step α
  pushes : ℕ → Bool × Bool
  onText : Option (ℕ → Bool)
  textAlloc : Bool

/-- The buffers of a generation, and the deltas so far. -/
structure GenState where
  text : List UInt8
  pending : List UInt8
  pushed : Bool
  emitted : ℕ
  deltas : List (List UInt8)

/-- `vv_generation_t`, and the deltas `on_text` was given, both read as C strings. -/
structure Generated where
  text : List UInt8
  completionTokens : ℕ
  finishReason : Finish
  deltas : List (List UInt8)

/-- What follows a token: the next step, the end at a stop string, the end at the caller's wish, or
that at a push without memory. -/
inductive Emitted
  | next (st : GenState)
  | stopped (st : GenState)
  | cancelled (st : GenState)
  | noMemory

section Model

variable {α : Type} (r : Generation α)

/-- `max_new`: 512 where nothing is asked for, and what the window has left at most. -/
def Generation.maxNew : ℕ :=
  let maxNew := if 0 < r.maxTokens then r.maxTokens.toNat else 512
  if 0 < r.window ∧ r.window < r.seqLen + maxNew then r.window - r.seqLen else maxNew

/-- The piece of a token, which is empty where it does not decode. -/
def Generation.pieceOf (token : α) : List UInt8 :=
  match r.piece token with
  | .error _ => []
  | .ok bytes => bytes

/-- The body of the decode loops up to the next step, for the `k`-th token. -/
def emit (k : ℕ) (token : α) (st : GenState) : Emitted :=
  let piece := r.pieceOf token
  if piece ≠ [] ∧ (r.pushes k).1 = false then .noMemory
  else
    let pending := st.pending ++ piece
    let n := utf8Complete pending
    if 0 < n ∧ (r.pushes k).2 = false then .noMemory
    else
      let st := { st with
        text := st.text ++ pending.take n
        pending := pending.drop n
        pushed := st.pushed || decide (0 < n) }
      match stopCut st.text r.stop.list with
      | some cut => .stopped { st with text := st.text.take cut }
      | none =>
        match r.onText with
        | none => .next st
        | some goesOn =>
          if st.emitted < st.text.length then
            let deltas := st.deltas ++ [cString (st.text.drop st.emitted)]
            if goesOn k then .next { st with emitted := st.text.length, deltas := deltas }
            else .cancelled { st with deltas := deltas }
          else .next st

/-- How a decode loop of a generation is left. -/
structure GenLeft where
  st : GenState
  n : ℕ
  status : Except Status Unit
  finish : Finish
  cancelled : Bool

/-- The decode loop on the accelerator. -/
def deviceLoop : ℕ → ℕ → α → GenState → GenLeft
  | 0, k, _, st => ⟨st, k, .ok (), .stop, false⟩
  | left + 1, k, token, st =>
    if r.ends token then ⟨st, k, .ok (), .stop, false⟩
    else
      match emit r k token st with
      | .noMemory => ⟨st, k + 1, .error .outOfMemory, .stop, false⟩
      | .stopped st => ⟨st, k + 1, .ok (), .stop, false⟩
      | .cancelled st => ⟨st, k + 1, .ok (), .stop, true⟩
      | .next st =>
        match (r.steps k).embed with
        | .error e => ⟨st, k + 1, .error e, .stop, false⟩
        | .ok () =>
          match (r.steps k).layers with
          | .error .overflow => ⟨st, k + 1, .ok (), .length, false⟩
          | .error e => ⟨st, k + 1, .error e, .stop, false⟩
          | .ok () =>
            match (r.steps k).head with
            | .error e => ⟨st, k + 1, .error e, .stop, false⟩
            | .ok t => deviceLoop left (k + 1) t st

/-- The decode loop on the host. -/
def hostLoop : ℕ → ℕ → α → GenState → GenLeft
  | 0, k, _, st => ⟨st, k, .ok (), .stop, false⟩
  | left + 1, k, token, st =>
    if r.ends token then ⟨st, k, .ok (), .stop, false⟩
    else
      match emit r k token st with
      | .noMemory => ⟨st, k + 1, .error .outOfMemory, .stop, false⟩
      | .stopped st => ⟨st, k + 1, .ok (), .stop, false⟩
      | .cancelled st => ⟨st, k + 1, .ok (), .stop, true⟩
      | .next st =>
        match (r.steps k).embed with
        | .error e => ⟨st, k + 1, .error e, .stop, false⟩
        | .ok () =>
          match (r.steps k).layers with
          | .error e => ⟨st, k + 1, .error e, .stop, false⟩
          | .ok () =>
            match (r.steps k).head with
            | .error e => ⟨st, k + 1, .error e, .stop, false⟩
            | .ok t => hostLoop left (k + 1) t st

/-- `vv_inference_generate`, from the room for the prompt on. -/
def generate : Except Status Generated := do
  if 0 < r.window ∧ r.window ≤ r.seqLen then throw .overflow
  let token ← r.first
  let start : GenState := ⟨[], [], false, 0, []⟩
  let l := if r.cpuOnly then hostLoop r r.maxNew 0 token start else
    deviceLoop r r.maxNew 0 token start
  l.status
  let finish := if l.cancelled then .cancelled else if r.maxNew ≤ l.n then .length else l.finish
  if l.st.pushed = false ∧ r.textAlloc = false then throw .outOfMemory
  else pure ⟨cString l.st.text, l.n, finish, l.st.deltas⟩

end Model

/-! ### Whole characters -/

/-- The bytes that are whole characters, as far as `utf8_complete` tells. -/
def whole (s : List UInt8) : List UInt8 := s.take (utf8Complete s)

/-- The bytes of a character that is still to be completed. -/
def pend (s : List UInt8) : List UInt8 := s.drop (utf8Complete s)

/-- A lead byte and continuation bytes, less than it needs. -/
def Dangling (p : List UInt8) : Prop :=
  ∃ c cs, p = c :: cs ∧ continues c = false ∧ (∀ b ∈ cs, continues b = true) ∧
    p.length < charNeed c

lemma charNeed_le (c : UInt8) : charNeed c ≤ 4 := by
  rw [charNeed]
  split_ifs <;> omega

/-- Only one lead byte stands in front of the last continuation bytes. -/
lemma Dangling.eq_of_suffix {p s conts : List UInt8} {c : UInt8} (hp : Dangling p)
    (hsuffix : p <:+ s) (hc : continues c = false) (hconts : ∀ b ∈ conts, continues b = true)
    (h : c :: conts <:+ s) : p = c :: conts := by
  obtain ⟨c', cs, rfl, hc', hcs, -⟩ := hp
  rcases List.suffix_or_suffix_of_suffix hsuffix h with hle | hle
  · rcases List.suffix_cons_iff.mp hle with heq | hin
    · exact heq
    · have hmem := hconts c' (hin.mem List.mem_cons_self)
      rw [hc'] at hmem
      exact absurd hmem Bool.false_ne_true
  · rcases List.suffix_cons_iff.mp hle with heq | hin
    · exact heq.symm
    · have hmem := hcs c (hin.mem List.mem_cons_self)
      rw [hc] at hmem
      exact absurd hmem Bool.false_ne_true

lemma not_dangling_of_continues {conts p : List UInt8} (hconts : ∀ b ∈ conts, continues b = true)
    (h : p <:+ conts) : ¬ Dangling p := by
  rintro ⟨c, cs, rfl, hc, -, -⟩
  have hmem := hconts c (h.mem List.mem_cons_self)
  rw [hc] at hmem
  exact Bool.false_ne_true hmem

/-- The scan goes back over continuation bytes to the byte in front of them. -/
lemma dangling_cases {u conts : List UInt8} (hconts : ∀ b ∈ conts, continues b = true)
    (hlen : conts.length ≤ 4) {d : ℕ}
    (hd : d = dangling (conts.length + 1) (u.reverse.take (4 - conts.length))) :
    (d = 0 ∧ ∀ p, p <:+ u ++ conts → ¬ Dangling p) ∨
      ∃ v p, u ++ conts = v ++ p ∧ Dangling p ∧ p.length = d := by
  induction u using List.reverseRecOn generalizing conts with
  | nil =>
    refine .inl ⟨?_, fun p hp => not_dangling_of_continues hconts hp⟩
    rw [hd, List.reverse_nil, List.take_nil]
    rfl
  | append_singleton u c ih =>
    rw [List.reverse_append, List.reverse_singleton, List.singleton_append] at hd
    rcases Nat.lt_or_ge conts.length 4 with hlt | hge
    · obtain ⟨m, hm⟩ : ∃ m, 4 - conts.length = m + 1 := ⟨3 - conts.length, by omega⟩
      rw [hm, List.take_succ_cons, dangling] at hd
      have hsplit : u ++ [c] ++ conts = u ++ c :: conts := by
        rw [List.append_assoc, List.singleton_append]
      rw [hsplit]
      cases hc : continues c with
      | true =>
        rw [hc, if_pos rfl] at hd
        refine ih (List.forall_mem_cons.mpr ⟨hc, hconts⟩) hlt ?_
        rw [hd, List.length_cons]
        congr 2
        omega
      | false =>
        rw [hc, if_neg Bool.false_ne_true] at hd
        by_cases hneed : charNeed c ≤ conts.length + 1
        · refine .inl ⟨by rw [hd, if_pos hneed], fun p hp hdang => ?_⟩
          have heq := hdang.eq_of_suffix hp hc hconts (List.suffix_append _ _)
          obtain ⟨c', cs, hp', -, -, hshort⟩ := hdang
          rw [heq] at hp' hshort
          obtain ⟨rfl, -⟩ := List.cons.inj hp'
          rw [List.length_cons] at hshort
          omega
        · refine .inr ⟨u, c :: conts, rfl, ⟨c, conts, rfl, hc, hconts, ?_⟩, ?_⟩
          · rw [List.length_cons]
            omega
          · rw [hd, if_neg hneed, List.length_cons]
    · have hzero : 4 - conts.length = 0 := by omega
      rw [hzero, List.take_zero] at hd
      refine .inl ⟨hd, fun p hp hdang => ?_⟩
      have hle : p.length ≤ conts.length := by
        obtain ⟨c', cs, rfl, -, -, hshort⟩ := hdang
        have hneed := charNeed_le c'
        omega
      exact not_dangling_of_continues hconts
        (List.suffix_of_suffix_length_le hp (List.suffix_append _ _) hle) hdang

lemma whole_append_pend (s : List UInt8) : whole s ++ pend s = s := List.take_append_drop _ s

/-- What is kept back is the start of a character, if the bytes end with one. -/
lemma whole_cases (s : List UInt8) :
    (pend s = [] ∧ ∀ p, p <:+ s → ¬ Dangling p) ∨ Dangling (pend s) := by
  have hscan := @dangling_cases s [] nofun (Nat.zero_le 4) _ rfl
  rw [List.append_nil, List.length_nil] at hscan
  rcases hscan with ⟨hzero, hnone⟩ | ⟨v, p, hs, hp, hlen⟩
  · refine .inl ⟨?_, hnone⟩
    rw [pend, utf8Complete, hzero, Nat.sub_zero, List.drop_length]
  · refine .inr ?_
    have hcut : utf8Complete s = v.length := by
      rw [utf8Complete, ← hlen, hs, List.length_append, Nat.add_sub_cancel]
    rw [pend, hcut, hs, List.drop_left]
    exact hp

/-- The start of a character at the end is what is kept back. -/
lemma pend_eq {s p : List UInt8} (hp : Dangling p) (h : p <:+ s) : pend s = p := by
  rcases whole_cases s with ⟨-, hnone⟩ | hpend
  · exact absurd hp (hnone p h)
  · obtain ⟨c, cs, rfl, hc, hcs, -⟩ := hp
    exact hpend.eq_of_suffix (List.drop_suffix _ _) hc hcs h

/-- What is kept back depends on no more than what was kept back before. -/
theorem pend_append (s x : List UInt8) : pend (pend s ++ x) = pend (s ++ x) := by
  have hsuffix : pend s ++ x <:+ s ++ x := ⟨whole s, by rw [← List.append_assoc, whole_append_pend]⟩
  rcases whole_cases (s ++ x) with ⟨hnil, hnone⟩ | hdang
  · rcases whole_cases (pend s ++ x) with ⟨hnil', -⟩ | hdang'
    · rw [hnil, hnil']
    · exact absurd hdang' (hnone _ ((List.drop_suffix _ _).trans hsuffix))
  · have hp : pend (s ++ x) <:+ s ++ x := List.drop_suffix _ _
    rcases List.suffix_or_suffix_of_suffix hp hsuffix with hin | ⟨v, hv⟩
    · exact pend_eq hdang hin
    · cases v with
      | nil => exact pend_eq hdang (hv ▸ List.suffix_rfl)
      | cons c v =>
        -- a lead byte in front of all that was kept back would have been kept back with it
        obtain ⟨c', cs, hcs, hc', hconts, hshort⟩ := hdang
        rw [hcs, List.cons_append] at hv
        obtain ⟨rfl, rfl⟩ := List.cons.inj hv
        have hnil : pend s = [] := by
          rcases whole_cases s with ⟨hnil, -⟩ | ⟨b, bs, hb, hlead, -⟩
          · exact hnil
          · have hmem := hconts b (by simp [hb])
            rw [hlead] at hmem
            exact absurd hmem Bool.false_ne_true
        have hv' : Dangling (c :: v) := by
          refine ⟨c, v, rfl, hc', fun b hb => hconts b (List.mem_append_left _ hb), ?_⟩
          rw [hcs] at hshort
          simp only [List.length_cons, List.length_append] at hshort ⊢
          omega
        have hend : c :: v <:+ s := by
          rw [hcs, hnil, List.nil_append, ← List.cons_append] at hp
          obtain ⟨t, ht⟩ := hp
          rw [← List.append_assoc] at ht
          exact ⟨t, List.append_cancel_right ht⟩
        rw [pend_eq hv' hend] at hnil
        exact nomatch hnil

/-- The text so far is a function of the bytes so far. -/
theorem whole_append (s x : List UInt8) : whole (s ++ x) = whole s ++ whole (pend s ++ x) := by
  have hall := whole_append_pend (s ++ x)
  have hnew := whole_append_pend (pend s ++ x)
  rw [pend_append] at hnew
  refine @List.append_cancel_right _ _ (pend (s ++ x)) _ ?_
  rw [hall, List.append_assoc, hnew, ← List.append_assoc, whole_append_pend]

lemma whole_isPrefix (s : List UInt8) : whole s <+: s := List.take_prefix _ _

lemma whole_mono (s x : List UInt8) : whole s <+: whole (s ++ x) := by
  rw [whole_append]
  exact List.prefix_append _ _

/-! ### Whole characters of UTF-8 -/

set_option maxRecDepth 4000 in
lemma continues_iff (b : UInt8) : continues b = true ↔ 0x80 ≤ b.toNat ∧ b.toNat < 0xC0 := by
  have h : ∀ n < 256, (continues (UInt8.ofNat n) = true ↔ 0x80 ≤ n ∧ n < 0xC0) := by decide
  have hb := h b.toNat b.toNat_lt
  rwa [UInt8.ofNat_toNat] at hb

set_option maxRecDepth 4000 in
lemma charNeed_eq (b : UInt8) : charNeed b = if b.toNat < 0xC0 then 1 else
    if b.toNat < 0xE0 then 2 else if b.toNat < 0xF0 then 3 else if b.toNat < 0xF8 then 4 else 1 := by
  have h : ∀ n < 256, charNeed (UInt8.ofNat n) = if n < 0xC0 then 1 else
      if n < 0xE0 then 2 else if n < 0xF0 then 3 else if n < 0xF8 then 4 else 1 := by decide
  have hb := h b.toNat b.toNat_lt
  rwa [UInt8.ofNat_toNat] at hb

/-- A lead byte of the table leads as many bytes as `utf8_complete` asks for. -/
lemma charNeed_of_row {b : UInt8} {rs : List (ℕ × ℕ)} (h : Utf8.row b.toNat = some rs) :
    continues b = false ∧ charNeed b = rs.length + 1 ∧ ∀ r ∈ rs, 0x80 ≤ r.1 ∧ r.2 ≤ 0xBF := by
  have hno : ¬ (0x80 ≤ b.toNat ∧ b.toNat < 0xC0) := by
    have hcases := Utf8.row_cases h
    omega
  refine ⟨Bool.not_eq_true _ ▸ mt (continues_iff b).mp hno, ?_, ?_⟩
  · rw [charNeed_eq]
    simp only [Utf8.row] at h
    split_ifs at h <;> cases h <;> split_ifs <;> simp <;> omega
  · simp only [Utf8.row] at h
    split_ifs at h <;> cases h <;> simp

lemma continues_of_fits {xs : List UInt8} {rs : List (ℕ × ℕ)}
    (hrs : ∀ r ∈ rs, 0x80 ≤ r.1 ∧ r.2 ≤ 0xBF) (h : Utf8.Fits xs rs) :
    ∀ x ∈ xs, continues x = true := by
  induction xs generalizing rs with
  | nil => exact nofun
  | cons x xs ih =>
    cases rs with
    | nil => exact h.elim
    | cons r rs =>
      obtain ⟨⟨hlo, hhi⟩, hrest⟩ := h
      obtain ⟨hr, hrs⟩ := List.forall_mem_cons.mp hrs
      refine List.forall_mem_cons.mpr ⟨(continues_iff x).mpr (by omega), ih hrs hrest⟩

/-- A text in UTF-8. -/
def Valid (s : List UInt8) : Prop := ∃ cs, Utf8.encode cs = s

/-- What is given out of bytes that go on to a valid text is valid. -/
lemma valid_whole {s t u : List UInt8} (hs : s <+: u) (ht : t <+: u) (h : whole s <+: t)
    (hvalid : Valid t) : Valid (whole s) := by
  obtain ⟨cs, rfl⟩ := hvalid
  obtain ⟨ds, q, hw, rfl | ⟨c, x, hq, hx, hc, hpre⟩⟩ := Utf8.prefix_encode h
  · exact ⟨ds, by rw [hw, List.append_nil]⟩
  · obtain ⟨b, q, rfl⟩ := List.exists_cons_of_ne_nil hq
    obtain ⟨z, x, rfl⟩ := List.exists_cons_of_ne_nil hx
    rw [List.cons_append] at hc
    obtain ⟨rs, hrow, hlen, hfits⟩ := Utf8.row_of_encode hc
    obtain ⟨hb, hneed, hrs⟩ := charNeed_of_row hrow
    have hconts := continues_of_fits hrs hfits
    have hq : Dangling (b :: q) := by
      refine ⟨b, q, rfl, hb, fun y hy => hconts y (List.mem_append_left _ hy), ?_⟩
      rw [List.length_append, List.length_cons] at hlen
      rw [List.length_cons]
      omega
    -- the text goes on with the rest of the character, and the bytes with what was kept back
    exfalso
    rcases whole_cases s with ⟨hnil, hnone⟩ | ⟨c', cs', hpend, hlead, -⟩
    · refine hnone _ ?_ hq
      rw [← whole_append_pend s, hnil, List.append_nil, hw]
      exact List.suffix_append _ _
    · have hz : whole s ++ [z] <+: u := by
        rw [← List.append_assoc, ← hw] at hpre
        exact ((List.prefix_append_right_inj _).mpr ⟨x, rfl⟩).trans (hpre.trans ht)
      have hc' : whole s ++ [c'] <+: u := by
        rw [← whole_append_pend s, hpend] at hs
        exact ((List.prefix_append_right_inj _).mpr ⟨cs', rfl⟩).trans hs
      have heq := (List.prefix_of_prefix_length_le hz hc' (by simp)).eq_of_length (by simp)
      obtain rfl := List.singleton_inj.mp (List.append_cancel_left heq)
      rw [hconts z (List.mem_append_right _ List.mem_cons_self)] at hlead
      exact Bool.false_ne_true hlead.symm

/-- What lies between two valid fronts of a text is valid. -/
lemma valid_rest {s t : List UInt8} (hs : Valid s) (ht : Valid (s ++ t)) : Valid t := by
  obtain ⟨cs, rfl⟩ := hs
  obtain ⟨ds, hds⟩ := ht
  obtain ⟨es, rfl⟩ := Utf8.encode_prefix_iff.mp ⟨t, hds.symm⟩
  rw [Utf8.encode_append] at hds
  exact ⟨es, List.append_cancel_left hds⟩

/-! ### The first stop string -/

section Stop

variable {stops : Stops} {text : List UInt8} {i : ℕ}

/-- A stop string that says something stands at a place of the text. -/
def Stops.Occurs (stops : Stops) (text : List UInt8) (i : ℕ) : Prop :=
  ∃ bytes, some bytes ∈ stops.list ∧ bytes ≠ [] ∧ Search.At bytes text i

/-- The text up to the earliest occurrence of a stop string, all of it where there is none. -/
structure CutAt (stops : Stops) (text front : List UInt8) : Prop where
  isFront : front <+: text
  first : ∀ i, stops.Occurs text i → front.length ≤ i
  stop : front ≠ text → stops.Occurs text front.length

/-- The first stop string listed that ends the text. -/
def Stops.ending (stops : Stops) (text : List UInt8) : Option (List UInt8) :=
  stops.list.reduceOption.find? fun s => s ≠ [] ∧ s <:+ text

/-- The stop string `s` ends the text behind `piece`, and none does behind a piece before it. -/
structure Stops.MeetsAt (stops : Stops) (pieces qs : List (List UInt8)) (piece s : List UInt8) :
    Prop where
  isFront : qs ++ [piece] <+: pieces
  ending : stops.ending (whole (qs.flatten ++ piece)) = some s
  first : ∀ front, front <+: qs → stops.ending (whole front.flatten) = none

lemma stopCut_eq (stops : Stops) (text : List UInt8) :
    stopCut text stops.list = (stops.ending text).map fun s => text.length - s.length := by
  rw [Stops.ending]
  generalize stops.list = list
  induction list with
  | nil => rfl
  | cons s list ih =>
    match s with
    | none => exact ih
    | some [] =>
      rw [List.reduceOption_cons_of_some, List.find?_cons_of_neg (by simp)]
      exact ih
    | some (b :: bs) =>
      rw [List.reduceOption_cons_of_some]
      by_cases hsuffix : b :: bs <:+ text
      · rw [List.find?_cons_of_pos (by simpa using hsuffix), stopCut, List.findSome?_cons]
        dsimp only
        rw [if_pos hsuffix]
        rfl
      · rw [List.find?_cons_of_neg (by simpa using hsuffix), ← ih, stopCut, List.findSome?_cons]
        dsimp only
        rw [if_neg hsuffix]
        rfl

lemma ending_suffix {s : List UInt8} (h : stops.ending text = some s) : s ≠ [] ∧ s <:+ text := by
  simpa using List.find?_some h

/-- The stop string at the end occurs there. -/
lemma ending_occurs {s : List UInt8} (h : stops.ending text = some s) :
    stops.Occurs text (text.length - s.length) := by
  obtain ⟨hne, hsuffix⟩ := ending_suffix h
  refine ⟨s, List.reduceOption_mem_iff.mp (List.mem_of_find?_eq_some h), hne, ?_⟩
  rw [Search.At, ← List.suffix_iff_eq_drop.mp hsuffix]

lemma Stops.Occurs.lt (h : stops.Occurs text i) : i < text.length := by
  obtain ⟨bytes, -, hne, hat⟩ := h
  have hle := hat.le_length hne
  have hpos := List.length_pos_iff.mpr hne
  omega

/-- A stop string starts with no zero byte. -/
lemma Stops.Occurs.ne_zero (h : stops.Occurs text i) : text[i]? ≠ some 0 := by
  obtain ⟨bytes, hmem, hne, hat⟩ := h
  have hfirst := hat.getElem? (List.length_pos_iff.mpr hne)
  rw [Nat.add_zero] at hfirst
  rw [hfirst]
  intro hzero
  exact stops.no_zero _ hmem bytes rfl (List.mem_of_getElem? hzero)

end Stop

/-! ### Where the tokens lead -/

section Run

variable {α : Type} (r : Generation α)

/-- The delta between two texts. -/
def grown (text text' : List UInt8) : List (List UInt8) :=
  if text.length < text'.length then [cString (text'.drop text.length)] else []

/-- The deltas of some pieces behind some bytes. -/
def deltasOf : List UInt8 → List (List UInt8) → List (List UInt8)
  | _, [] => []
  | bytes, p :: ps => grown (whole bytes) (whole (bytes ++ p)) ++ deltasOf (bytes ++ p) ps

/-- The buffers behind some pieces. -/
def Generation.state (ps : List (List UInt8)) : GenState where
  text := whole ps.flatten
  pending := pend ps.flatten
  pushed := decide (whole ps.flatten ≠ [])
  emitted := if r.onText.isSome then (whole ps.flatten).length else 0
  deltas := if r.onText.isSome then deltasOf [] ps else []

/-- How a generation ends: at an end token or the cap, in front of a stop string with the piece that
completed it, at the caller's wish behind a piece, at a full window, at a step that fails, or at a
push without memory. -/
inductive Halt
  | ended
  | stopped (piece : List UInt8) (cut : ℕ)
  | cancelled (piece : List UInt8)
  | full
  | failed (e : Status)
  | noMemory

/-- `on_text` answers the `k`-th token with `false`. -/
def Generation.breaksOff (k : ℕ) : Bool := r.onText.any fun goesOn => !goesOn k

/-- A token finds no memory for its piece, or for the characters that this completes. -/
def Generation.noRoom (token : α) (ps : List (List UInt8)) : Bool :=
  decide (r.pieceOf token ≠ [] ∧ (r.pushes ps.length).1 = false) ||
    decide ((whole ps.flatten).length < (whole (ps.flatten ++ r.pieceOf token)).length ∧
      (r.pushes ps.length).2 = false)

/-- What follows a token at which no stop string ends: the next one, or the end of the run. -/
def Generation.goOn (token : α) (ps : List (List UInt8)) : Except (List (List UInt8) × Halt) α :=
  let piece := r.pieceOf token
  if (whole ps.flatten).length < (whole (ps.flatten ++ piece)).length ∧ r.breaksOff ps.length then
    .error (ps, .cancelled piece)
  else
    match (r.steps ps.length).outcome with
    | .full => .error (ps ++ [piece], .full)
    | .fail e => .error (ps ++ [piece], .failed e)
    | .token t => .ok t

/-- The pieces from `token` on behind the pieces `ps`, and how they end. -/
def genFollow : ℕ → α → List (List UInt8) → List (List UInt8) × Halt
  | 0, _, ps => (ps, .ended)
  | left + 1, token, ps =>
    if r.ends token then (ps, .ended)
    else if r.noRoom token ps then (ps, .noMemory)
    else
      match stopCut (whole (ps.flatten ++ r.pieceOf token)) r.stop.list with
      | some cut => (ps, .stopped (r.pieceOf token) cut)
      | none =>
        match r.goOn token ps with
        | .error run => run
        | .ok t => genFollow left t (ps ++ [r.pieceOf token])

/-- The pieces of a generation whose first token is `token`, and how they end. -/
def Generation.run (token : α) : List (List UInt8) × Halt := genFollow r r.maxNew token []

/-- The pieces that were decoded. -/
def decoded : List (List UInt8) × Halt → List (List UInt8)
  | (ps, .stopped piece _) | (ps, .cancelled piece) => ps ++ [piece]
  | (ps, _) => ps

/-- The bytes that were generated. -/
def bytesOf : List (List UInt8) × Halt → List UInt8
  | (ps, .stopped piece _) | (ps, .cancelled piece) => ps.flatten ++ piece
  | (ps, _) => ps.flatten

/-- The text that is returned. -/
def textOf : List (List UInt8) × Halt → List UInt8
  | (ps, .stopped piece cut) => (whole (ps.flatten ++ piece)).take cut
  | run => whole (bytesOf run)

/-- How a loop leaves the pieces: a full window is an end only on the accelerator. -/
def Generation.leftOf : List (List UInt8) × Halt → GenLeft
  | (ps, .ended) => ⟨r.state ps, ps.length, .ok (), .stop, false⟩
  | (ps, .stopped piece cut) =>
    ⟨{ r.state ps with
        text := (whole (ps.flatten ++ piece)).take cut
        pending := pend (ps.flatten ++ piece)
        pushed := decide (whole (ps.flatten ++ piece) ≠ []) }, ps.length + 1, .ok (), .stop, false⟩
  | (ps, .cancelled piece) =>
    ⟨{ r.state (ps ++ [piece]) with emitted := (whole ps.flatten).length }, ps.length + 1, .ok (),
      .stop, true⟩
  | (ps, .full) => ⟨r.state ps, ps.length, if r.cpuOnly then .error .overflow else .ok (),
      if r.cpuOnly then .stop else .length, false⟩
  | (ps, .failed e) => ⟨r.state ps, ps.length, .error e, .stop, false⟩
  | (ps, .noMemory) => ⟨r.state ps, ps.length + 1, .error .outOfMemory, .stop, false⟩

variable {r}

lemma length_whole (s : List UInt8) : (whole s).length = utf8Complete s := by
  rw [whole, List.length_take, utf8Complete]
  omega

lemma deltasOf_concat (bytes p : List UInt8) (ps : List (List UInt8)) :
    deltasOf bytes (ps ++ [p]) = deltasOf bytes ps ++
      grown (whole (bytes ++ ps.flatten)) (whole (bytes ++ ps.flatten ++ p)) := by
  induction ps generalizing bytes with
  | nil => simp [deltasOf]
  | cons q ps ih =>
    rw [List.cons_append, deltasOf, ih, deltasOf, List.flatten_cons]
    simp only [List.append_assoc]

/-- What a token does to the buffers, by the bytes so far. -/
lemma emit_eq (token : α) (ps : List (List UInt8)) :
    emit r ps.length token (r.state ps) =
      if r.noRoom token ps then .noMemory
      else
        match stopCut (whole (ps.flatten ++ r.pieceOf token)) r.stop.list with
        | some cut => .stopped { r.state ps with
            text := (whole (ps.flatten ++ r.pieceOf token)).take cut
            pending := pend (ps.flatten ++ r.pieceOf token)
            pushed := decide (whole (ps.flatten ++ r.pieceOf token) ≠ []) }
        | none =>
          if (whole ps.flatten).length < (whole (ps.flatten ++ r.pieceOf token)).length ∧
              r.breaksOff ps.length then
            .cancelled { r.state (ps ++ [r.pieceOf token]) with
              emitted := (whole ps.flatten).length }
          else .next (r.state (ps ++ [r.pieceOf token])) := by
  obtain ⟨x, hx⟩ : ∃ x, x = r.pieceOf token := ⟨_, rfl⟩
  have htext : whole ps.flatten ++ (pend ps.flatten ++ x).take (utf8Complete (pend ps.flatten ++ x))
      = whole (ps.flatten ++ x) := (whole_append ps.flatten x).symm
  have hpend : (pend ps.flatten ++ x).drop (utf8Complete (pend ps.flatten ++ x)) =
      pend (ps.flatten ++ x) := pend_append ps.flatten x
  have hlen := length_whole (pend ps.flatten ++ x)
  have hgrow : 0 < utf8Complete (pend ps.flatten ++ x) ↔
      (whole ps.flatten).length < (whole (ps.flatten ++ x)).length := by
    rw [whole_append, List.length_append, hlen]
    omega
  have hpushed : (decide (whole ps.flatten ≠ []) ||
      decide ((whole ps.flatten).length < (whole (ps.flatten ++ x)).length)) =
      decide (whole (ps.flatten ++ x) ≠ []) := by
    rw [whole_append, Bool.eq_iff_iff]
    simp [List.length_pos_iff, imp_iff_or_not, or_comm]
  have hflat : (ps ++ [x]).flatten = ps.flatten ++ x := by simp
  rw [emit, ← hx]
  simp only [Generation.state, hgrow, hpushed, htext, hpend, hflat, Generation.breaksOff]
  rw [← ite_or, Generation.noRoom, ← hx, ← Bool.decide_or]
  refine if_congr decide_eq_true_iff.symm rfl ?_
  cases stopCut (whole (ps.flatten ++ x)) r.stop.list with
  | some cut => rfl
  | none =>
    cases r.onText with
    | none => simp
    | some goesOn =>
      simp only [Option.isSome_some, ↓reduceIte, Option.any_some]
      rw [deltasOf_concat, grown, List.nil_append]
      by_cases hmore : (whole ps.flatten).length < (whole (ps.flatten ++ x)).length
      · rw [if_pos hmore, if_pos hmore]
        cases goesOn ps.length <;> simp [hmore]
      · have heq : (whole ps.flatten).length = (whole (ps.flatten ++ x)).length := by
          rw [whole_append, List.length_append] at hmore ⊢
          omega
        rw [if_neg hmore, if_neg hmore, if_neg fun h => hmore h.1, List.append_nil, heq]

/-- A round of a decode loop, before what follows the step. -/
lemma round_eq {left : ℕ} {token : α} {ps : List (List UInt8)} {next : GenState → GenLeft}
    (hnext : next (r.state (ps ++ [r.pieceOf token])) =
      match (r.steps ps.length).outcome with
      | .full => r.leftOf (ps ++ [r.pieceOf token], .full)
      | .fail e => r.leftOf (ps ++ [r.pieceOf token], .failed e)
      | .token t => r.leftOf (genFollow r left t (ps ++ [r.pieceOf token]))) :
    (if r.ends token then ⟨r.state ps, ps.length, .ok (), .stop, false⟩
      else
        match emit r ps.length token (r.state ps) with
        | .noMemory => ⟨r.state ps, ps.length + 1, .error .outOfMemory, .stop, false⟩
        | .stopped st => ⟨st, ps.length + 1, .ok (), .stop, false⟩
        | .cancelled st => ⟨st, ps.length + 1, .ok (), .stop, true⟩
        | .next st => next st) = r.leftOf (genFollow r (left + 1) token ps) := by
  rw [genFollow]
  cases r.ends token with
  | true => rfl
  | false =>
    rw [if_neg Bool.false_ne_true, if_neg Bool.false_ne_true, emit_eq]
    cases r.noRoom token ps with
    | true => rfl
    | false =>
      rw [if_neg Bool.false_ne_true, if_neg Bool.false_ne_true]
      cases stopCut (whole (ps.flatten ++ r.pieceOf token)) r.stop.list with
      | some cut => rfl
      | none =>
        rw [Generation.goOn]
        dsimp only
        split_ifs with hbreak
        · rfl
        · dsimp only
          rw [hnext]
          cases (r.steps ps.length).outcome <;> rfl

/-- The loop of the accelerator, and that of the host. -/
lemma genLoops_eq (left : ℕ) (token : α) (ps : List (List UInt8)) :
    (r.cpuOnly = false → deviceLoop r left ps.length token (r.state ps) =
      r.leftOf (genFollow r left token ps)) ∧
    (r.cpuOnly = true → hostLoop r left ps.length token (r.state ps) =
      r.leftOf (genFollow r left token ps)) := by
  induction left generalizing token ps with
  | zero => exact ⟨fun _ => rfl, fun _ => rfl⟩
  | succ left ih =>
    have hlen : ps.length + 1 = (ps ++ [r.pieceOf token]).length := by simp
    constructor
    all_goals
      intro hcpu
      refine round_eq ?_
      rw [Step.outcome, hlen]
      cases (r.steps ps.length).embed with
      | error e => rfl
      | ok _ =>
        cases (r.steps ps.length).layers with
        | error e => cases e <;> simp [Generation.leftOf, hcpu]
        | ok _ =>
          cases (r.steps ps.length).head with
          | error e => rfl
          | ok t =>
            first
              | exact (ih t _).1 hcpu
              | exact (ih t _).2 hcpu

/-- The deltas of a run, if anybody listens. -/
def Generation.deltas : List (List UInt8) × Halt → List (List UInt8)
  | (ps, .cancelled piece) => if r.onText.isSome then deltasOf [] (ps ++ [piece]) else []
  | (ps, _) => if r.onText.isSome then deltasOf [] ps else []

lemma state_nil : r.state [] = ⟨[], [], false, 0, []⟩ := by
  rw [Generation.state]
  cases r.onText <;> rfl

/-- Both loops follow the run of the request. -/
lemma loop_eq (token : α) :
    (if r.cpuOnly then hostLoop r r.maxNew 0 token ⟨[], [], false, 0, []⟩ else
      deviceLoop r r.maxNew 0 token ⟨[], [], false, 0, []⟩) = r.leftOf (r.run token) := by
  rw [← state_nil (r := r)]
  cases hcpu : r.cpuOnly with
  | true => exact (genLoops_eq r.maxNew token []).2 hcpu
  | false => exact (genLoops_eq r.maxNew token []).1 hcpu

/-- What an answer consists of. -/
lemma generate_eq {token : α} (hfirst : r.first = .ok token) {g : Generated}
    (h : generate r = .ok g) :
    g.text = cString (textOf (r.run token)) ∧ g.deltas = r.deltas (r.run token) := by
  have hleft : ∀ run, (r.leftOf run).status = .ok () → (r.leftOf run).st.text = textOf run ∧
      (r.leftOf run).st.deltas = r.deltas run := by
    rintro ⟨ps, halt⟩ hok
    cases halt with
    | cancelled piece => exact ⟨congrArg whole List.flatten_concat, rfl⟩
    | failed e => exact nomatch hok
    | noMemory => exact nomatch hok
    | _ => exact ⟨rfl, rfl⟩
  rw [generate, hfirst] at h
  simp only [loop_eq] at h
  split_ifs at h with hroom
  · exact nomatch h
  · generalize hl : r.leftOf (r.run token) = l at *
    replace h : (do
        l.status
        if l.st.pushed = false ∧ r.textAlloc = false then throw .outOfMemory
        else pure ⟨cString l.st.text, l.n, if l.cancelled then .cancelled else
          if r.maxNew ≤ l.n then .length else l.finish, l.st.deltas⟩ : Except Status Generated) =
        .ok g := by
      rw [← h, ← hl]
      rfl
    cases hstatus : l.status with
    | error e =>
      rw [hstatus] at h
      exact nomatch h
    | ok _ =>
      obtain ⟨htext, hdeltas⟩ := hleft _ (hl ▸ hstatus)
      rw [hl] at htext hdeltas
      rw [hstatus] at h
      by_cases halloc : l.st.pushed = false ∧ r.textAlloc = false
      · rw [if_pos halloc] at h
        exact nomatch h
      · rw [if_neg halloc] at h
        obtain rfl := Except.ok.inj h
        exact ⟨congrArg cString htext, hdeltas⟩

/-- The request without stop strings. -/
def Generation.free (r : Generation α) : Generation α := { r with stop := ⟨[], by simp⟩ }

/-- The pieces that come where no stop string ends the generation. -/
def Generation.pieces (r : Generation α) (token : α) : List (List UInt8) :=
  decoded (r.free.run token)

lemma genFollow_free (left : ℕ) (token : α) (ps : List (List UInt8)) :
    genFollow r.free (left + 1) token ps =
      if r.ends token then (ps, .ended)
      else if r.noRoom token ps then (ps, .noMemory)
      else
        match r.goOn token ps with
        | .error run => run
        | .ok t => genFollow r.free left t (ps ++ [r.pieceOf token]) := rfl

/-- A run that ends behind a piece has it. -/
lemma goOn_error {token : α} {ps : List (List UInt8)} {run : List (List UInt8) × Halt}
    (h : r.goOn token ps = .error run) : decoded run = ps ++ [r.pieceOf token] ∧
      run.1 <+: decoded run ∧ run.2 ≠ .ended ∧ ∀ piece cut, run.2 ≠ .stopped piece cut := by
  rw [Generation.goOn] at h
  split_ifs at h
  · obtain rfl := Except.error.inj h
    exact ⟨rfl, List.prefix_append _ _, nofun, nofun⟩
  · cases hout : (r.steps ps.length).outcome with
    | token t => rw [hout] at h; exact nomatch h
    | _ =>
      rw [hout] at h
      obtain rfl := Except.error.inj h
      exact ⟨rfl, List.prefix_rfl, nofun, nofun⟩

/-- The pieces are kept. -/
lemma isPrefix_genFollow (left : ℕ) (token : α) (ps : List (List UInt8)) :
    ps <+: decoded (genFollow r.free left token ps) := by
  induction left generalizing token ps with
  | zero => exact List.prefix_rfl
  | succ left ih =>
    rw [genFollow_free]
    split_ifs
    · exact List.prefix_rfl
    · exact List.prefix_rfl
    cases hgo : r.goOn token ps with
    | error run =>
      show ps <+: decoded run
      exact (goOn_error hgo).1.symm ▸ List.prefix_append _ _
    | ok t => exact (List.prefix_append _ _).trans (ih t _)

/-- A run goes as far as it would without stop strings, or up to the first piece behind which one
ends the text. -/
lemma follow_cases (left : ℕ) (token : α) (ps : List (List UInt8))
    (hps : ∀ front, front <+: ps → r.stop.ending (whole front.flatten) = none) :
    (genFollow r left token ps = genFollow r.free left token ps ∧
      (∀ piece cut, (genFollow r left token ps).2 ≠ .stopped piece cut) ∧
      ∀ front, front <+: decoded (genFollow r.free left token ps) →
        r.stop.ending (whole front.flatten) = none) ∨
    ∃ qs piece s, r.stop.MeetsAt (decoded (genFollow r.free left token ps)) qs piece s ∧
      genFollow r left token ps =
        (qs, .stopped piece ((whole (qs.flatten ++ piece)).length - s.length)) := by
  induction left generalizing token ps with
  | zero => exact .inl ⟨rfl, nofun, hps⟩
  | succ left ih =>
    rw [genFollow, genFollow_free]
    split_ifs
    · exact .inl ⟨rfl, nofun, hps⟩
    · exact .inl ⟨rfl, nofun, hps⟩
    rw [stopCut_eq]
    cases hend : r.stop.ending (whole (ps.flatten ++ r.pieceOf token)) with
    | some s =>
      refine .inr ⟨ps, r.pieceOf token, s, ⟨?_, hend, hps⟩, rfl⟩
      cases hgo : r.goOn token ps with
      | error run => exact (goOn_error hgo).1 ▸ List.prefix_rfl
      | ok t => exact isPrefix_genFollow left t _
    | none =>
      have hnext : ∀ front, front <+: ps ++ [r.pieceOf token] →
          r.stop.ending (whole front.flatten) = none := by
        intro front hfront
        rcases List.prefix_concat_iff.mp hfront with rfl | hfront
        · rw [List.flatten_concat]
          exact hend
        · exact hps front hfront
      cases hgo : r.goOn token ps with
      | error run =>
        obtain ⟨hdecoded, -, -, hhalt⟩ := goOn_error hgo
        exact .inl ⟨rfl, hhalt, hdecoded ▸ hnext⟩
      | ok t => exact ih t _ hnext

end Run

/-! ### Texts as C strings -/

section Zero

variable {text front : List UInt8}

lemma cString_isPrefix (s : List UInt8) : cString s <+: s := List.takeWhile_prefix _

/-- A C string ends at the end of the bytes or in front of a zero. -/
lemma cString_end {s : List UInt8} (h : cString s ≠ s) : s[(cString s).length]? = some 0 := by
  induction s with
  | nil => exact absurd rfl h
  | cons b s ih =>
    by_cases hb : b = 0
    · subst hb
      rfl
    · have hcons : cString (b :: s) = b :: cString s := by
        rw [cString, List.takeWhile_cons]
        simp [hb, cString]
      rw [hcons] at h ⊢
      rw [List.length_cons, List.getElem?_cons_succ]
      exact ih fun heq => h (congrArg (b :: ·) heq)

/-- The front of a text that is returned is all there is up to a stop string. -/
lemma cutAt_cString_iff {stops : Stops} (hfront : front <+: text) :
    CutAt stops text (cString front) ↔ CutAt stops text front ∧ (0 : UInt8) ∉ front := by
  constructor
  · intro h
    have hself : cString front = front := by
      by_contra hne
      have hzero := cString_end hne
      obtain ⟨t, rfl⟩ := hfront
      have hlt : (cString front).length < front.length := (List.getElem?_eq_some_iff.mp hzero).1
      have hstop := h.stop fun heq => by
        rw [heq, List.length_append] at hlt
        omega
      refine hstop.ne_zero ?_
      rw [List.getElem?_append_left hlt, hzero]
    have hzero := zero_not_mem_cString front
    rw [hself] at h hzero
    exact ⟨h, hzero⟩
  · rintro ⟨h, hzero⟩
    rwa [cString_eq_self hzero]

/-- A front without a zero is not cut short by one. -/
lemma prefix_cString {x a s : List UInt8} (b : List UInt8) (hx : x <+: a ++ (s ++ b))
    (hzero : (0 : UInt8) ∉ x) : x <+: a ++ (cString s ++ b) := by
  by_cases heq : cString s = s
  · rwa [heq]
  · have hfront : a ++ cString s <+: a ++ (s ++ b) :=
      (List.prefix_append_right_inj a).mpr ((cString_isPrefix s).trans (List.prefix_append _ _))
    rw [← List.append_assoc]
    refine List.IsPrefix.trans ?_ (List.prefix_append _ b)
    refine List.prefix_of_prefix_length_le hx hfront ?_
    by_contra hlt
    have hend := cString_end heq
    have hin : (cString s).length < s.length := (List.getElem?_eq_some_iff.mp hend).1
    obtain ⟨t, ht⟩ := hx
    refine hzero (List.mem_of_getElem? (i := (a ++ cString s).length) ?_)
    have hleft : (x ++ t)[(a ++ cString s).length]? = x[(a ++ cString s).length]? :=
      List.getElem?_append_left (not_le.mp hlt)
    rw [← hleft, ht, List.length_append,
      List.getElem?_append_right (Nat.le_add_right _ _), Nat.add_sub_cancel_left,
      List.getElem?_append_left hin, hend]

end Zero

/-! ### The deltas -/

section Deltas

variable {bytes : List UInt8} {ps : List (List UInt8)}

lemma grown_eq (bytes p : List UInt8) :
    (grown (whole bytes) (whole (bytes ++ p))).flatten = cString (whole (pend bytes ++ p)) := by
  rw [grown, whole_append, List.drop_left, List.length_append]
  split_ifs with h
  · rw [List.flatten_singleton]
  · have hnil : whole (pend bytes ++ p) = [] := List.eq_nil_of_length_eq_zero (by omega)
    rw [hnil]
    rfl

/-- The deltas joined are the text, if it has no zero byte. -/
lemma joined_eq (h : (0 : UInt8) ∉ whole (bytes ++ ps.flatten)) :
    whole bytes ++ (deltasOf bytes ps).flatten = whole (bytes ++ ps.flatten) := by
  induction ps generalizing bytes with
  | nil => rw [deltasOf, List.flatten_nil, List.append_nil, List.append_nil]
  | cons p ps ih =>
    rw [List.flatten_cons, ← List.append_assoc] at h ⊢
    have hnew : (0 : UInt8) ∉ whole (pend bytes ++ p) := by
      intro hmem
      rw [whole_append, whole_append] at h
      exact h (List.mem_append_left _ (List.mem_append_right _ hmem))
    rw [deltasOf, List.flatten_append, grown_eq, cString_eq_self hnew, ← List.append_assoc,
      ← whole_append]
    exact ih h

/-- A front of the text without a zero byte is a front of the deltas. -/
lemma joined_isPrefix {x : List UInt8} (hx : x <+: whole (bytes ++ ps.flatten))
    (hzero : (0 : UInt8) ∉ x) : x <+: whole bytes ++ (deltasOf bytes ps).flatten := by
  induction ps generalizing bytes with
  | nil => rwa [deltasOf, List.flatten_nil, List.append_nil] at *
  | cons p ps ih =>
    rw [List.flatten_cons, ← List.append_assoc] at hx
    have hrest := ih hx
    rw [whole_append, List.append_assoc] at hrest
    rw [deltasOf, List.flatten_append, grown_eq]
    exact prefix_cString _ hrest hzero

/-- The deltas of a valid text are valid. -/
lemma valid_deltas (hzero : (0 : UInt8) ∉ whole (bytes ++ ps.flatten))
    (hvalid : Valid (whole (bytes ++ ps.flatten))) : ∀ d ∈ deltasOf bytes ps, Valid d := by
  induction ps generalizing bytes with
  | nil => exact nofun
  | cons p ps ih =>
    rw [List.flatten_cons, ← List.append_assoc] at hzero hvalid
    intro d hd
    rcases List.mem_append.mp hd with hgrown | hrest
    · have hsplit := whole_append (bytes ++ p) ps.flatten
      have hto := valid_whole (List.prefix_append (bytes ++ p) ps.flatten) (whole_isPrefix _)
        (whole_mono _ _) hvalid
      have hfrom := valid_whole (List.prefix_append bytes p) (whole_isPrefix _)
        (whole_mono _ _) hto
      rw [whole_append bytes p] at hto
      rw [grown, whole_append bytes p, List.drop_left] at hgrown
      split_ifs at hgrown with hlen
      · rw [List.mem_singleton.mp hgrown, cString_eq_self]
        · exact valid_rest hfrom hto
        · intro hmem
          rw [hsplit, whole_append bytes p] at hzero
          exact hzero (List.mem_append_left _ (List.mem_append_right _ hmem))
      · exact nomatch hgrown
    · exact ih hzero hvalid d hrest

end Deltas

/-! ### Honest answers -/

section Answer

variable {α : Type} (r : Generation α) (token : α)

/-- The answer is the text up to the first stop string, the deltas are the answer, and they are
valid if it is. -/
structure Honest (g : Generated) : Prop where
  text : CutAt r.stop (whole (bytesOf (r.run token))) g.text
  free : ∀ i, ¬ r.stop.Occurs g.text i
  joined : r.onText.isSome = true → g.deltas.flatten = g.text
  valid : r.onText.isSome = true → Valid g.text → ∀ d ∈ g.deltas, Valid d

/-- Where the text behind some piece ends with a stop string, the first one listed at the first such
piece starts no later than any stop string in that text, and, if somebody listens, where the text of
the piece does; where no piece ends so, there is no stop string at all. The text in front has no zero
byte. -/
structure Aligned (stops : Stops) (listens : Bool) (pieces : List (List UInt8)) : Prop where
  never : (∀ front, front <+: pieces → stops.ending (whole front.flatten) = none) →
    (∀ i, ¬ stops.Occurs (whole pieces.flatten) i) ∧ (0 : UInt8) ∉ whole pieces.flatten
  meets : ∀ qs piece s, stops.MeetsAt pieces qs piece s →
    let text := whole (qs.flatten ++ piece)
    (∀ i, stops.Occurs text i → text.length ≤ i + s.length) ∧
      (0 : UInt8) ∉ text.take (text.length - s.length) ∧
      (listens = true → (whole qs.flatten).length + s.length = text.length)

variable {r token}

lemma ending_nil {stops : Stops} : stops.ending (whole [].flatten) = none := by
  by_contra h
  obtain ⟨s, hs⟩ := Option.ne_none_iff_exists'.mp h
  exact Nat.not_lt_zero _ (ending_occurs hs).lt

variable (r token) in
/-- The run of a request, by its pieces. -/
lemma run_cases :
    (r.run token = r.free.run token ∧ (∀ piece cut, (r.run token).2 ≠ .stopped piece cut) ∧
      ∀ front, front <+: r.pieces token → r.stop.ending (whole front.flatten) = none) ∨
    ∃ qs piece s, r.stop.MeetsAt (r.pieces token) qs piece s ∧ r.run token =
      (qs, .stopped piece ((whole (qs.flatten ++ piece)).length - s.length)) :=
  follow_cases r.maxNew token [] fun front hfront => by
    obtain rfl := List.prefix_nil.mp hfront
    exact ending_nil

/-- A run that meets no stop string returns what it decoded, and gives it to somebody who
listens. -/
lemma textOf_eq {run : List (List UInt8) × Halt} (h : ∀ piece cut, run.2 ≠ .stopped piece cut) :
    textOf run = whole (decoded run).flatten ∧ bytesOf run = (decoded run).flatten ∧
      r.deltas run = if r.onText.isSome then deltasOf [] (decoded run) else [] := by
  obtain ⟨ps, halt⟩ := run
  cases halt with
  | stopped piece cut => exact absurd rfl (h piece cut)
  | cancelled piece =>
    have hflat : (ps ++ [piece]).flatten = ps.flatten ++ piece := List.flatten_concat
    exact ⟨congrArg whole hflat.symm, hflat.symm, rfl⟩
  | _ => exact ⟨rfl, rfl, rfl⟩

/-- The text ends with a stop string behind some of the pieces. -/
lemma Stops.MeetsAt.not_none {stops : Stops} {pieces qs : List (List UInt8)}
    {piece s : List UInt8} (h : stops.MeetsAt pieces qs piece s) :
    stops.ending (whole (qs ++ [piece]).flatten) ≠ none := by
  rw [List.flatten_concat, h.ending]
  exact Option.some_ne_none s

/-- There is one first piece behind which a stop string ends the text. -/
lemma Stops.MeetsAt.unique {stops : Stops} {pieces qs qs' : List (List UInt8)}
    {piece piece' s s' : List UInt8} (h : stops.MeetsAt pieces qs piece s)
    (h' : stops.MeetsAt pieces qs' piece' s') : qs = qs' ∧ piece = piece' ∧ s = s' := by
  have hsame : qs ++ [piece] = qs' ++ [piece'] := by
    rcases Nat.le_total (qs ++ [piece]).length (qs' ++ [piece']).length with hle | hle
    · rcases List.prefix_concat_iff.mp
        (List.prefix_of_prefix_length_le h.isFront h'.isFront hle) with heq | hin
      · exact heq
      · exact absurd (h'.first _ hin) h.not_none
    · rcases List.prefix_concat_iff.mp
        (List.prefix_of_prefix_length_le h'.isFront h.isFront hle) with heq | hin
      · exact heq.symm
      · exact absurd (h.first _ hin) h'.not_none
  obtain ⟨rfl, hpiece⟩ := List.append_inj' hsame rfl
  obtain rfl := List.singleton_inj.mp hpiece
  exact ⟨rfl, rfl, Option.some.inj (h.ending.symm.trans h'.ending)⟩

lemma front_of_cut {text : List UInt8} {stops : Stops} {cut : ℕ} (h : stops.Occurs text cut) :
    (text.take cut).length = cut := by
  rw [List.length_take]
  exact min_eq_left h.lt.le

/-- The deltas are the front in front of a stop string only if that starts with the last piece. -/
lemma cut_eq_of_joined {stops : Stops} {ps : List (List UInt8)} {piece : List UInt8} {cut : ℕ}
    (hstop : stops.Occurs (whole (ps.flatten ++ piece)) cut)
    (hzero : (0 : UInt8) ∉ (whole (ps.flatten ++ piece)).take cut)
    (hjoined : (deltasOf [] ps).flatten = (whole (ps.flatten ++ piece)).take cut) :
    cut = (whole ps.flatten).length := by
  have hcut := front_of_cut hstop
  have hmono := whole_mono ps.flatten piece
  have hlen := congrArg List.length hjoined
  rw [hcut] at hlen
  rcases Nat.lt_or_ge cut (whole ps.flatten).length with hlt | hge
  · -- the stop string starts in what was given, so that its first byte was
    obtain ⟨t, ht⟩ := hmono
    have hat : (whole (ps.flatten ++ piece))[cut]? = (whole ps.flatten)[cut]? := by
      rw [← ht, List.getElem?_append_left hlt]
    have hx : (whole ps.flatten).take (cut + 1) <+: whole ([] ++ ps.flatten) :=
      List.take_prefix _ _
    have hnone : (0 : UInt8) ∉ (whole ps.flatten).take (cut + 1) := by
      rw [List.take_add_one, List.mem_append, not_or]
      constructor
      · rwa [← ht, List.take_append_of_le_length hlt.le] at hzero
      · rw [← hat]
        intro hmem
        exact hstop.ne_zero (Option.mem_toList.mp hmem)
    have hle := (joined_isPrefix hx hnone).length_le
    rw [List.length_take, min_eq_left hlt, List.length_append, hlen] at hle
    have hnil : (whole []).length = 0 := rfl
    omega
  · have hin : whole ps.flatten <+: (whole (ps.flatten ++ piece)).take cut :=
      List.prefix_take_iff.mpr ⟨hmono, hge⟩
    have hall := @joined_eq [] ps fun hmem => hzero (hin.mem hmem)
    rw [← hlen]
    exact congrArg List.length hall

/-- A text cut in front of the first stop string has none. -/
lemma CutAt.free {stops : Stops} {text front : List UInt8} (h : CutAt stops text front) (i : ℕ) :
    ¬ stops.Occurs front i := by
  intro hi
  obtain ⟨t, rfl⟩ := h.isFront
  have hlt := hi.lt
  obtain ⟨bytes, hmem, hne, hat⟩ := hi
  have hle := h.first i ⟨bytes, hmem, hne, hat.append hne t⟩
  omega

/-- What makes an answer honest, if `front` is returned of the text and `qs` is given to somebody who
listens. -/
lemma honest_iff_front {g : Generated} {text front : List UInt8} {qs : List (List UInt8)}
    (hall : whole (bytesOf (r.run token)) = text) (hfront : front <+: text)
    (hstop : front ≠ text → r.stop.Occurs text front.length) (htext : g.text = cString front)
    (hdeltas : g.deltas = if r.onText.isSome then deltasOf [] qs else [])
    (hgiven : (0 : UInt8) ∉ front → (deltasOf [] qs).flatten = front →
      whole qs.flatten = front) :
    Honest r token g ↔ (∀ i, r.stop.Occurs text i → front.length ≤ i) ∧ (0 : UInt8) ∉ front ∧
      (r.onText.isSome = true → whole qs.flatten = front) := by
  constructor
  · intro hhonest
    obtain ⟨hcut, hzero⟩ := (cutAt_cString_iff hfront).mp (htext ▸ hall ▸ hhonest.text)
    refine ⟨hcut.first, hzero, fun hsome => hgiven hzero ?_⟩
    have hjoined := hhonest.joined hsome
    rwa [htext, cString_eq_self hzero, hdeltas, if_pos hsome] at hjoined
  · rintro ⟨hfirst, hzero, hwhole⟩
    rw [cString_eq_self hzero] at htext
    have hcut : CutAt r.stop text g.text := htext.symm ▸ ⟨hfront, hfirst, hstop⟩
    refine ⟨hall.symm ▸ hcut, hcut.free, fun hsome => ?_, fun hsome hvalid => ?_⟩
    · rw [hdeltas, if_pos hsome, htext, ← hwhole hsome]
      rw [← hwhole hsome] at hzero
      exact @joined_eq [] qs hzero
    · rw [htext, ← hwhole hsome] at hvalid
      rw [← hwhole hsome] at hzero
      rw [hdeltas, if_pos hsome]
      exact @valid_deltas [] qs hzero hvalid

/-- An answer is honest exactly where the stop strings fall on the pieces. -/
theorem honest_iff (hfirst : r.first = .ok token) {g : Generated} (h : generate r = .ok g) :
    Honest r token g ↔ Aligned r.stop r.onText.isSome (r.pieces token) := by
  obtain ⟨htext, hdeltas⟩ := generate_eq hfirst h
  rcases run_cases r token with ⟨hfree, hhalt, hnone⟩ | ⟨qs, piece, s, hmeets, hrun⟩
  · obtain ⟨heq, hbytes, hgiven⟩ := textOf_eq (r := r) hhalt
    have hpieces : decoded (r.run token) = r.pieces token := congrArg decoded hfree
    rw [hpieces] at heq hbytes hgiven
    rw [honest_iff_front (congrArg whole hbytes) List.prefix_rfl (fun hne => absurd rfl hne)
      (heq ▸ htext) (hdeltas.trans hgiven) fun _ _ => rfl]
    constructor
    · rintro ⟨hplace, hzero, -⟩
      refine ⟨fun _ => ⟨fun i hi => absurd hi.lt (not_lt.mpr (hplace i hi)), hzero⟩,
        fun qs piece s hmeets => ?_⟩
      exact absurd (hnone _ hmeets.isFront) hmeets.not_none
    · intro haligned
      obtain ⟨hplace, hzero⟩ := haligned.never hnone
      exact ⟨fun i hi => absurd hi (hplace i), hzero, fun _ => rfl⟩
  · have hstop := ending_occurs hmeets.ending
    have hmono := whole_mono qs.flatten piece
    have hlen := front_of_cut hstop
    have hsuffix := (ending_suffix hmeets.ending).2.length_le
    have hwhole : whole qs.flatten = (whole (qs.flatten ++ piece)).take
          ((whole (qs.flatten ++ piece)).length - s.length) ↔
        (whole qs.flatten).length + s.length = (whole (qs.flatten ++ piece)).length := by
      constructor
      · intro heq
        have hcut := congrArg List.length heq
        omega
      · intro heq
        rw [← heq, Nat.add_sub_cancel]
        exact List.prefix_iff_eq_take.mp hmono
    rw [hrun] at htext hdeltas
    rw [honest_iff_front (by rw [hrun]; rfl) (List.take_prefix _ _)
      (fun _ => hlen.symm ▸ hstop) htext hdeltas fun hzero hjoined => hwhole.mpr ?_, hlen, hwhole]
    · constructor
      · rintro ⟨hplace, hzero, hgiven⟩
        refine ⟨fun hnone => absurd (hnone _ hmeets.isFront) hmeets.not_none, ?_⟩
        intro qs' piece' s' hmeets'
        obtain ⟨rfl, rfl, rfl⟩ := hmeets.unique hmeets'
        exact ⟨fun i hi => Nat.sub_le_iff_le_add.mp (hplace i hi), hzero, hgiven⟩
      · intro haligned
        obtain ⟨hplace, hzero, hgiven⟩ := haligned.meets qs piece s hmeets
        exact ⟨fun i hi => Nat.sub_le_iff_le_add.mpr (hplace i hi), hzero, hgiven⟩
    · have hcut := cut_eq_of_joined hstop hzero hjoined
      omega

end Answer

/-- A generation of the tokens 1 and 2 and an end token, that stops at `A` and is listened to. -/
def listened (piece : ℕ → List UInt8) : Generation ℕ where
  cpuOnly := false
  maxTokens := 8
  seqLen := 1
  window := 0
  ends := fun t => t == 0
  piece := fun t => .ok (piece t)
  stop := ⟨[some [0x41]], by simp⟩
  first := .ok 1
  steps := fun k => ⟨.ok (), .ok (), .ok (if k = 0 then 2 else 0)⟩
  pushes := fun _ => (true, true)
  onText := some fun _ => true
  textAlloc := true

/-- A stop string that is a token of its own is cut off. -/
theorem honest_token : let r := listened fun t => if t = 1 then [0x42] else [0x41]
    Honest r 1 ⟨[0x42], 2, .stop, [[0x42]]⟩ := by
  have hmeets : ((⟨[some [0x41]], by simp⟩ : Stops)).MeetsAt [[0x42], [0x41]] [[0x42]] [0x41] [0x41] :=
    ⟨List.prefix_rfl, rfl, fun front hfront => by
      rcases List.prefix_concat_iff.mp (show front <+: [] ++ [_] from hfront) with rfl | hfront
      · rfl
      · obtain rfl := List.prefix_nil.mp hfront
        rfl⟩
  refine (honest_iff rfl rfl).mpr ⟨fun hnone => ?_, fun qs piece s h => ?_⟩
  · exact absurd (hnone _ hmeets.isFront) hmeets.not_none
  · obtain ⟨rfl, rfl, rfl⟩ := hmeets.unique h
    refine ⟨fun i hi => ?_, by decide, fun _ => rfl⟩
    obtain ⟨bytes, hmem, -, hat⟩ := hi
    obtain rfl := Option.some.inj (List.mem_singleton.mp hmem)
    by_contra hlt
    obtain rfl : i = 0 := by
      have : (whole [0x42, 0x41]).length = 2 := rfl
      simp at hlt
      omega
    exact absurd hat (by decide)

/-- A stop string in the middle of a token is missed; behind the start of one, what stands in front
of it is not given. -/
theorem stop_in_token_missed :
    generate (listened fun t => if t = 1 then [0x42, 0x41, 0x42] else [0x43]) =
      .ok ⟨[0x42, 0x41, 0x42, 0x43], 2, .stop, [[0x42, 0x41, 0x42], [0x43]]⟩ ∧
    (listened fun _ => []).stop.Occurs [0x42, 0x41, 0x42, 0x43] 1 ∧
    generate (listened fun t => if t = 1 then [0x42] else [0x43, 0x41]) =
      .ok ⟨[0x42, 0x43], 2, .stop, [[0x42]]⟩ := by
  refine ⟨rfl, ⟨[0x41], List.mem_singleton.mpr rfl, List.cons_ne_nil _ _, ?_⟩, rfl⟩
  decide

end VibeVoice.Decode
