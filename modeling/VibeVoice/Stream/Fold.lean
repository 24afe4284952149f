import VibeVoice.Stream.Events
import VibeVoice.Stream.Lockstep

/-!
Folding the chunk end is invisible.

Two sessions on the same backend get the same calls.  One folds the chunk end into the next
prefill, the other one appends it.  The backend answers from the rows it was fed, so the sessions
run in lockstep: what they show is the same (`face`), and the rows of the one with its pending
chunk end are the rows of the other (`Owing`).

* `fold_invisible`: the same statuses, the same events, and the same rows up to one chunk end.
-/

namespace VibeVoice.Stream

open Prog Machine

/-- A position of the cache: a token, or a frame of the features of a window. -/
inductive Row (α : Type)
  | token (id : ℤ)
  | feature (index start nValid : ℕ) (samples : List α) (frame : ℕ)

/-- The rows of a prefill: its layout with the features in place. -/
def chunkFeed {α : Type} (c : Chunk α) : List (Row α) :=
  (c.rows.take c.featOffset).map .token ++
    (List.range c.nFrames.toNat).map (.feature c.index c.startSample c.nValid c.samples) ++
      (c.rows.drop (c.featOffset + c.nFrames.toNat)).map .token

/-- A deterministic backend: it answers from the rows it was fed, the new ones included.  An
`append_tokens`, if there is one, does not fail; the encoder works on windows only; a backend that
knows its capacity knows its length. -/
structure RowBackend (α : Type) where
  encodeText : String → Except Status (List ℤ)
  tokenBytes : List (Row α) → ℤ → Except Status (List UInt8)
  prompt : List (Row α) → Except Status Unit
  prefill : List (Row α) → Except Status ℤ
  step : List (Row α) → Except Status ℤ
  encodeAhead : Option (ℕ → List (List α) → Except Status Unit)
  appends : Bool
  counts : Bool
  capacity : Option ℤ
  counted : capacity.isSome = true → counts = true

/-- What the allocator, the other threads and the callback answer to the `k`-th question. -/
structure Surroundings (α : Type) where
  alloc : ℕ → Bool
  block : ℕ → Block α
  cancelArrives : ℕ → Bool
  onEvent : ℕ → Bool

/-- The rows fed so far, and the number of questions asked. -/
structure Fed (α : Type) where
  rows : List (Row α)
  asked : ℕ

variable {α β : Type}

/-- Feed rows; a call that fails feeds none. -/
def feedRows (rows : List (Row α)) (answer : List (Row α) → Except Status β) :
    Program Status (Fed α) β :=
  fun w =>
    match answer (w.rows ++ rows) with
    | .ok a => (.ok a, { w with rows := w.rows ++ rows })
    | .error e => (.error e, w)

lemma exec_feedRows (rows : List (Row α)) (answer : List (Row α) → Except Status β) (w : Fed α) :
    exec (feedRows rows answer) w =
      match answer (w.rows ++ rows) with
      | .ok a => (.ok a, { w with rows := w.rows ++ rows })
      | .error e => (.error e, w) := rfl

/-- A question to the surroundings. -/
def ask {γ : Type} (answers : ℕ → γ) (w : Fed α) : γ × Fed α :=
  (answers w.asked, { w with asked := w.asked + 1 })

/-- The world of such a backend. -/
def rowEnv (B : RowBackend α) (M : Surroundings α) : Env α (Fed α) where
  encodeText text w := (B.encodeText text, w)
  tokenBytes tok w := (B.tokenBytes w.rows tok, w)
  prefillPrompt ids := feedRows (ids.map .token) B.prompt
  prefillChunk c := feedRows (chunkFeed c) B.prefill
  decodeStep tok := feedRows [.token tok] B.step
  encodeAhead := B.encodeAhead.map fun f first ws w => (f first ws, w)
  appendTokens :=
    if B.appends then some fun ids => feedRows (ids.map .token) fun _ => .ok () else none
  kvLen := if B.counts then some fun w => w.rows.length else none
  kvCapacity := B.capacity.map fun cap _ => cap
  alloc := ask M.alloc
  block := ask M.block
  cancelArrives := ask M.cancelArrives
  onEvent _ := ask M.onEvent

/-- An event without the length of the cache. -/
def Event.quiet : Event → Event
  | .chunk index text nTokens stop lo hi _ => .chunk index text nTokens stop lo hi 0
  | ev => ev

/-- What a session shows, and what it works on besides the cache. -/
structure Face where
  text : Text
  chunkText : List UInt8
  transcript : List UInt8
  failed : Option Status
  done : Bool
  cancel : Bool
  chunks : ℕ
  tokens : ℕ
  asked : ℕ
  events : List Event

/-- The face of a core. -/
def face (s : Core α (Fed α)) : Face where
  text := s.text
  chunkText := s.chunkText
  transcript := s.transcript
  failed := s.failed
  done := s.done
  cancel := s.cancel
  chunks := s.chunks
  tokens := s.tokens
  asked := s.world.asked
  events := (events s.log).map Event.quiet

/-- The rows of the cache and the pending chunk end. -/
def cache (s : Core α (Fed α)) : List (Row α) × ℤ := (s.world.rows, s.pendingLead)

/-- Two cores with one face and caches related by `N`. -/
def Facing (N : List (Row α) × ℤ → List (Row α) × ℤ → Prop) (s t : Core α (Fed α)) : Prop :=
  face s = face t ∧ N (cache s) (cache t)

/-- The same parameters with or without folding. -/
def withFold (p : Params) (fold : Bool) : Params := { p with foldChunkEnd := fold }

/-- The rows with the pending chunk end. -/
def withPending (c : List (Row α) × ℤ) : List (Row α) := c.1 ++ (leadRows c.2).map .token

/-- Between chunks: the caches are the same when the pending chunk ends are added.  A session that
appends has none; one that cannot append folds too. -/
structure Owing (B : RowBackend α) (p : Params) (c d : List (Row α) × ℤ) : Prop where
  rows : withPending c = withPending d
  folded : c.2 = -1 ∨ c.2 = p.ids.textChunkEnd
  appended : d.2 = if B.appends then -1 else c.2

/-- In a chunk: the caches are the same and nothing is pending. -/
def Level (c d : List (Row α) × ℤ) : Prop := c.1 = d.1 ∧ c.2 = -1 ∧ d.2 = -1

/-- The program does the same on both sides, and nothing to the caches. -/
def Neutral (f g : Act α (Fed α) β) : Prop :=
  ∀ N, Related (Facing N) f g (Facing N) (Facing N)

section Lockstep

variable {B : RowBackend α} {M : Surroundings α} {p : Params}

/-- A program whose result and whose effect are read off the face. -/
lemma Neutral.of_face {f g : Act α (Fed α) β} (res : Face → Except Status β) (upd : Face → Face)
    (hf : ∀ s, (exec f s).1 = res (face s) ∧ face (exec f s).2 = upd (face s) ∧
      cache (exec f s).2 = cache s)
    (hg : ∀ s, (exec g s).1 = res (face s) ∧ face (exec g s).2 = upd (face s) ∧
      cache (exec g s).2 = cache s) : Neutral f g := by
  rintro N s t ⟨hface, hcache⟩
  obtain ⟨hres, hs, hcs⟩ := hf s
  obtain ⟨hres', ht, hct⟩ := hg t
  rw [← hcs, ← hct] at hcache
  rw [← hface] at hres' ht
  rcases hes : exec f s with ⟨e | a, s'⟩ <;> rcases het : exec g t with ⟨d | b, t'⟩ <;>
    rw [hes] at hres hs hcache <;> rw [het] at hres' ht hcache <;> dsimp only at hres hres' hs ht
  · exact ⟨Except.error.inj (hres.trans hres'.symm), hs.trans ht.symm, hcache⟩
  · cases hres.trans hres'.symm
  · cases hres.trans hres'.symm
  · exact ⟨Except.ok.inj (hres.trans hres'.symm), hs.trans ht.symm, hcache⟩

lemma neutral_allocate : Neutral (allocate (rowEnv B M)) (allocate (rowEnv B M)) :=
  Neutral.of_face (fun F => if M.alloc F.asked then .ok () else .error .outOfMemory)
    (fun F => { F with asked := F.asked + 1 }) (fun _ => ⟨rfl, rfl, rfl⟩) fun _ => ⟨rfl, rfl, rfl⟩

lemma neutral_takeBlock : Neutral (takeBlock (rowEnv B M)) (takeBlock (rowEnv B M)) :=
  Neutral.of_face (fun F => .ok (M.block F.asked)) (fun F => { F with asked := F.asked + 1 })
    (fun _ => ⟨rfl, rfl, rfl⟩) fun _ => ⟨rfl, rfl, rfl⟩

lemma neutral_cancelled : Neutral (cancelled (rowEnv B M)) (cancelled (rowEnv B M)) :=
  Neutral.of_face (fun F => .ok (F.cancel || M.cancelArrives F.asked))
    (fun F => { F with asked := F.asked + 1, cancel := F.cancel || M.cancelArrives F.asked })
    (fun _ => ⟨rfl, rfl, rfl⟩) fun _ => ⟨rfl, rfl, rfl⟩

/-- Two events that differ in the length of the cache only. -/
lemma neutral_emit {ev ev' : Event} (h : ev.quiet = ev'.quiet) :
    Neutral (emit (rowEnv B M) ev) (emit (rowEnv B M) ev') := by
  refine Neutral.of_face (fun _ => .ok ()) (fun F => { F with
    asked := F.asked + 1
    cancel := F.cancel || M.onEvent F.asked
    events := F.events ++ [ev.quiet] }) (fun s => ⟨rfl, ?_, rfl⟩) fun s => ⟨rfl, ?_, rfl⟩
  · simp [face, rowEnv, ask]
  · simp [face, rowEnv, ask, h]

/-- A call that does not look at the cache. -/
lemma neutral_call {c : Call α} (r : Except Status β) :
    Neutral (call c fun w => (r, w)) (call c fun w => (r, w)) := by
  have hexec : ∀ w : Fed α, exec (fun w => (r, w) : Program Status (Fed α) β) w = (r, w) :=
    fun _ => rfl
  refine Neutral.of_face (fun _ => r) id (fun s => ⟨rfl, ?_, rfl⟩) fun s => ⟨rfl, ?_, rfl⟩ <;>
    simp [face, hexec]

/-- Cores with one face are in lockstep, whatever relates their caches. -/
lemma facing_lockstep (N : List (Row α) × ℤ → List (Row α) × ℤ → Prop) :
    Lockstep (rowEnv B M) (rowEnv B M) (Facing N) where
  progress h := congrArg (fun F : Face => (⟨F.text, F.chunkText, F.transcript, F.failed, F.done,
    F.chunks, F.tokens⟩ : Progress)) h.1
  update := by
    rintro s t u ⟨hface, hcache⟩
    have hprogress : progress s = progress t := congrArg (fun F : Face => (⟨F.text, F.chunkText,
      F.transcript, F.failed, F.done, F.chunks, F.tokens⟩ : Progress)) hface
    rw [hprogress]
    exact ⟨congrArg (fun F : Face => { F with
      text := (u (progress t)).text
      chunkText := (u (progress t)).chunkText
      transcript := (u (progress t)).transcript
      failed := (u (progress t)).failed
      done := (u (progress t)).done
      chunks := (u (progress t)).chunks
      tokens := (u (progress t)).tokens }) hface, hcache⟩
  allocate := neutral_allocate N
  cancelled := neutral_cancelled N
  emit _ := neutral_emit rfl N

/-! ### The cache -/

/-- The layout of a chunk is its own rows behind the pending chunk end. -/
lemma layoutRows_eq (p : Params) (lead : ℤ) : layoutRows p lead =
    if 0 < (windowFrames p.geom).toInt ∧ 0 ≤ p.ids.speechStart ∧ 0 ≤ p.ids.speechEnd then
      some (leadRows lead ++ chunkRows p.ids (windowFrames p.geom).toInt.toNat,
        (leadRows lead).length + 1)
    else none :=
  chunkLayout_eq le_rfl

/-- The rows a chunk feeds are the pending chunk end and rows of its own. -/
lemma chunkFeed_lead (p : Params) (w : Window α) (lead : ℤ) (own : List ℤ) (start : ℤ) :
    chunkFeed (chunkOf p w (leadRows lead ++ start :: own, (leadRows lead).length + 1)) =
      (leadRows lead).map .token ++ chunkFeed (chunkOf p w (start :: own, 1)) := by
  have htake : (leadRows lead ++ start :: own).take ((leadRows lead).length + 1) =
      leadRows lead ++ [start] := by
    rw [List.take_append, List.take_of_length_le (by omega)]
    simp
  have hdrop : ∀ n, (leadRows lead ++ start :: own).drop ((leadRows lead).length + 1 + n) =
      (start :: own).drop (1 + n) := by
    intro n
    rw [List.drop_append, List.drop_eq_nil_of_le (by omega)]
    simp [Nat.add_assoc]
  simp [chunkFeed, chunkOf, htake, hdrop]

/-- Feeding rows that end the same cache is in lockstep. -/
lemma call_related {c d : Call α} {rows rows' : List (Row α)}
    {answer : List (Row α) → Except Status β} {N : List (Row α) × ℤ → List (Row α) × ℤ → Prop}
    (hN : ∀ x y, N x y → x.1 ++ rows = y.1 ++ rows') :
    Related (Facing N) (call c (feedRows rows answer)) (call d (feedRows rows' answer))
      (fun s t => face s = face t ∧ s.world.rows = t.world.rows ∧
        ∃ x y, N x y ∧ s.pendingLead = x.2 ∧ t.pendingLead = y.2) (Facing N) := by
  rintro s t ⟨hface, hcache⟩
  have hrows : s.world.rows ++ rows = t.world.rows ++ rows' := hN _ _ hcache
  have hsame : ∀ (u : Core α (Fed α)) (c : Call α) (st : Option Status) (w w' : Fed α),
      w'.asked = u.world.asked →
      face { u with world := w', log := u.log ++ [.call c st w w'] } = face u := by
    intro u c st w w' hw
    simp [face, hw]
  rw [exec_call, exec_call, exec_feedRows, exec_feedRows, hrows]
  cases answer (t.world.rows ++ rows') with
  | error e =>
    refine ⟨rfl, ?_, hcache⟩
    exact (hsame s c _ _ _ rfl).trans (hface.trans (hsame t d _ _ _ rfl).symm)
  | ok a =>
    refine ⟨rfl, ?_, rfl, _, _, hcache, rfl, rfl⟩
    refine (hsame s c _ _ _ ?_).trans (hface.trans (hsame t d _ _ _ ?_).symm) <;> rfl

/-! ### A chunk -/

lemma kvFits_iff_of_rows {s t : Core α (Fed α)} {n m : ℤ}
    (hrows : s.world.rows.length + n = t.world.rows.length + m) (hn : n < 2 ^ 63)
    (hm : m < 2 ^ 63) :
    kvFits (rowEnv B M) s n ↔ kvFits (rowEnv B M) t m := by
  cases hcap : B.capacity with
  | some cap =>
    have hcounts : B.counts = true := B.counted (by simp [hcap])
    simp [kvFits, kvLen, kvCap, rowEnv, hcap, hcounts, hrows]
  | none =>
    cases hcounts : B.counts with
    | true => simp [kvFits, kvLen, kvCap, rowEnv, hcap, hcounts, hrows]
    | false =>
      simp [kvFits, kvLen, kvCap, rowEnv, hcap, hcounts]
      omega

/-- The same check in caches that differ by what is pending. -/
lemma checkFits_related {N : List (Row α) × ℤ → List (Row α) × ℤ → Prop} {n m : ℤ}
    (hN : ∀ x y, N x y → x.1.length + n = y.1.length + m) (hn : n < 2 ^ 63) (hm : m < 2 ^ 63) :
    Related (Facing N) (checkFits (rowEnv B M) n) (checkFits (rowEnv B M) m) (Facing N)
      (Facing N) := by
  refine Related.get_bind fun s t h => ?_
  have hfits := kvFits_iff_of_rows (B := B) (M := M) (hN _ _ h.2) hn hm
  exact Related.failIf (not_congr hfits) (fun _ _ h => h) (fun _ _ h => h) s t h

lemma windowFrames_lt (g : Geom) : (windowFrames g).toInt < 2 ^ 31 :=
  Int32.toInt_lt _

/-- The rows of a chunk fit into the type of their count. -/
lemma length_layout_lt (p : Params) (lead : ℤ) :
    ((leadRows lead ++ chunkRows p.ids (windowFrames p.geom).toInt.toNat).length : ℤ) + 1 <
      2 ^ 63 := by
  have hframes := windowFrames_lt p.geom
  have hlead : (leadRows lead).length ≤ 1 := by
    rw [leadRows]
    split_ifs <;> simp
  rw [List.length_append, length_chunkRows]
  omega

/-- **The prefill** pays the pending chunk end: its rows end the same cache on both sides. -/
lemma prefill_related (w : Window α) :
    Related (Facing (Owing B p)) (prefill (rowEnv B M) (withFold p true) w)
      (prefill (rowEnv B M) (withFold p false) w) (Facing Level) (Facing (Owing B p)) := by
  refine Related.get_bind fun s t h => ?_
  by_cases hvalid : 0 < (windowFrames p.geom).toInt ∧ 0 ≤ p.ids.speechStart ∧ 0 ≤ p.ids.speechEnd
  · have hlayout : ∀ b lead, layoutRows (withFold p b) lead = some (leadRows lead ++
        chunkRows p.ids (windowFrames p.geom).toInt.toNat, (leadRows lead).length + 1) :=
      fun _ lead => (layoutRows_eq p lead).trans (if_pos hvalid)
    rw [hlayout, hlayout]
    let N : List (Row α) × ℤ → List (Row α) × ℤ → Prop := fun x y =>
      Owing B p x y ∧ x.2 = s.pendingLead ∧ y.2 = t.pendingLead
    have hrows : ∀ x y, N x y → x.1 ++ (leadRows s.pendingLead).map .token =
        y.1 ++ (leadRows t.pendingLead).map .token := by
      rintro x y ⟨hxy, hx, hy⟩
      rw [← hx, ← hy]
      exact hxy.rows
    have hlength : ∀ x y, N x y →
        (x.1.length : ℤ) + (leadRows s.pendingLead).length =
          y.1.length + (leadRows t.pendingLead).length := by
      intro x y hxy
      have hlen := congrArg List.length (hrows x y hxy)
      simp only [List.length_append, List.length_map] at hlen
      omega
    refine Related.conseq (?_ : Related (Facing N) _ _ (Facing Level) (Facing N))
      (fun _ _ => id) (fun _ _ => id) (fun _ _ hN => ⟨hN.1, hN.2.1⟩) s t ⟨h.1, h.2, rfl, rfl⟩
    refine Related.bind (facing_lockstep N).checkCancelled fun _ => ?_
    refine Related.bind (checkFits_related (fun x y hxy => ?_) (length_layout_lt p _)
      (length_layout_lt p _)) fun _ => ?_
    · have hlen := hlength x y hxy
      simp only [List.length_append]
      omega
    · refine Related.bind (call_related fun x y hxy => ?_) fun tok => ?_
      · rw [chunkRows, chunkFeed_lead, chunkFeed_lead, ← List.append_assoc, ← List.append_assoc,
          hrows x y hxy]
        rfl
      · refine Related.bind (S := Facing Level) (Related.modify ?_)
          fun _ => Related.pure fun _ _ h => h
        rintro u v ⟨hface, hsame, -⟩
        exact ⟨congrArg (fun F : Face => { F with chunkText := [] }) hface, hsame, rfl, rfl⟩
  · have hlayout : ∀ b lead, layoutRows (withFold p b) lead = none :=
      fun _ lead => (layoutRows_eq p lead).trans (if_neg hvalid)
    rw [hlayout, hlayout]
    exact ⟨rfl, h⟩

/-- A level cache is a cache with nothing pending. -/
lemma Level.owing {c d : List (Row α) × ℤ} (h : Level c d) : Owing B p c d := by
  obtain ⟨hrows, hc, hd⟩ := h
  refine ⟨?_, .inl hc, ?_⟩
  · rw [withPending, withPending, hrows, hc, hd]
  · rw [hc, hd, ite_self]

lemma Facing.owing {s t : Core α (Fed α)} (h : Facing Level s t) : Facing (Owing B p) s t :=
  ⟨h.1, h.2.owing⟩

/-- A failure in a chunk leaves nothing pending. -/
lemma level_fails {f g : Act α (Fed α) β}
    (h : Related (Facing Level) f g (Facing Level) (Facing Level)) :
    Related (Facing Level) f g (Facing Level) (Facing (Owing B p)) :=
  h.conseq (fun _ _ => id) (fun _ _ => id) fun _ _ => Facing.owing

/-- A call that only reads the cache. -/
lemma call_reads {c : Call α} {r : List (Row α) → Except Status β} :
    Related (Facing Level) (call c fun w => (r w.rows, w)) (call c fun w => (r w.rows, w))
      (Facing Level) (Facing Level) := by
  intro s t h
  have hrows : s.world.rows = t.world.rows := h.2.1
  have hs : exec (call c fun w : Fed α => (r w.rows, w)) s =
      exec (call c fun w => (r s.world.rows, w)) s := rfl
  have ht : exec (call c fun w : Fed α => (r w.rows, w)) t =
      exec (call c fun w => (r s.world.rows, w)) t := by
    rw [hrows]
    rfl
  rw [hs, ht]
  exact neutral_call (r s.world.rows) Level s t h

/-- A call that feeds the same rows to level caches. -/
lemma call_level {c d : Call α} {rows : List (Row α)} {answer : List (Row α) → Except Status β} :
    Related (Facing Level) (call c (feedRows rows answer)) (call d (feedRows rows answer))
      (Facing Level) (Facing Level) := by
  refine (call_related (N := Level) fun x y hxy => by rw [hxy.1]).conseq (fun _ _ => id)
    ?_ fun _ _ => id
  rintro u v ⟨hface, hsame, x, y, hxy, hu, hv⟩
  exact ⟨hface, hsame, hu.trans hxy.2.1, hv.trans hxy.2.2⟩

/-- In a chunk the caches are the same, and so is what the model answers. -/
lemma level_lockstep : LockstepModel (rowEnv B M) (rowEnv B M) (Facing Level) where
  toLockstep := facing_lockstep Level
  tokenBytes tok := call_reads (r := fun rows => B.tokenBytes rows tok)
  decodeStep _ := call_level
  kvLen := by
    rintro s t ⟨_, hrows, _⟩
    have hrows : s.world.rows = t.world.rows := hrows
    cases hcounts : B.counts <;> simp [kvLen, rowEnv, hcounts, hrows]
  kvCap := by
    rintro s t _
    cases hcap : B.capacity <;> simp [kvCap, rowEnv, hcap]

/-- **The chunk end** is held on one side and fed on the other. -/
lemma endChunk_related (htce : 0 ≤ p.ids.textChunkEnd) :
    Related (Facing Level) (endChunk (rowEnv B M) (withFold p true))
      (endChunk (rowEnv B M) (withFold p false)) (Facing (Owing B p)) (Facing (Owing B p)) := by
  rw [endChunk, endChunk]
  cases happends : B.appends with
  | false =>
    simp only [rowEnv, happends, Bool.false_eq_true, if_false]
    refine Related.modify fun s t h => ⟨h.1, ?_, .inr rfl, ?_⟩
    · exact congrArg (· ++ (leadRows p.ids.textChunkEnd).map Row.token) h.2.1
    · rw [happends]
      rfl
  | true =>
    simp only [rowEnv, happends, if_true]
    rintro s t ⟨hface, hrows, hs, ht⟩
    refine ⟨rfl, ?_, ?_, .inr rfl, ?_⟩
    · refine Eq.trans hface ?_
      simp [face, exec_feedRows, withFold]
    · have hpending : s.world.rows ++ (leadRows p.ids.textChunkEnd).map Row.token =
          t.world.rows ++ [Row.token p.ids.textChunkEnd] ++
            (leadRows t.pendingLead).map Row.token := by
        rw [leadRows_of_nonneg htce, show t.pendingLead = -1 from ht,
          show s.world.rows = t.world.rows from hrows]
        simp
      exact hpending
    · rw [happends]
      exact ht

/-- The end of a chunk; the events differ in the length of the cache only. -/
lemma commitChunk_related (w : Window α) (r : ℕ × Stop) :
    Related (Facing (Owing B p)) (commitChunk (rowEnv B M) (withFold p true) w r)
      (commitChunk (rowEnv B M) (withFold p false) w r) (Facing (Owing B p))
      (Facing (Owing B p)) := by
  have hlock := facing_lockstep (B := B) (M := M) (Owing B p)
  refine Related.bind hlock.allocate fun _ => ?_
  refine Related.bind (hlock.modify fun F => { F with
    transcript := F.transcript ++ F.chunkText, chunks := F.chunks + 1 }) fun _ => ?_
  refine Related.get_bind fun s t h => ?_
  have htext : s.chunkText = t.chunkText := congrArg Face.chunkText h.1
  refine Related.bind (neutral_emit ?_ _) (fun _ => hlock.checkCancelled) s t h
  rw [htext]
  rfl

/-- **A chunk** runs in lockstep. -/
lemma runChunk_related (htce : 0 ≤ p.ids.textChunkEnd) (w : Window α) :
    Related (Facing (Owing B p)) (runChunk (rowEnv B M) (withFold p true) w)
      (runChunk (rowEnv B M) (withFold p false) w) (Facing (Owing B p)) (Facing (Owing B p)) := by
  have hids : (withFold p true).ids = (withFold p false).ids := rfl
  refine (facing_lockstep _).report (Related.bind (prefill_related w) fun tok => ?_) w.index
  refine Related.bind (level_fails (level_lockstep.decode hids w.index _ tok 0 256)) fun r => ?_
  refine Related.bind (level_fails (level_lockstep.stepText w.index textFlush)) fun _ => ?_
  exact Related.bind (endChunk_related htce) fun _ => commitChunk_related w r

lemma runChunks_related (htce : 0 ≤ p.ids.textChunkEnd) (ws : List (Window α)) :
    Related (Facing (Owing B p)) (runChunks (rowEnv B M) (withFold p true) ws)
      (runChunks (rowEnv B M) (withFold p false) ws) (Facing (Owing B p))
      (Facing (Owing B p)) := by
  induction ws with
  | nil => exact Related.pure fun _ _ h => h
  | cons w ws ih => exact Related.bind (runChunk_related htce w) fun _ => ih

/-! ### The session -/

/-- Two sessions in lockstep, between chunks. -/
structure Paired (B : RowBackend α) (p : Params) (s t : Session α (Fed α)) : Prop where
  core : Facing (Owing B p) s.core t.core
  chunker : s.chunker = t.chunker
  ahead : s.ahead = t.ahead

lemma onCore_related {f g : Act α (Fed α) β} (h : Related (Facing (Owing B p)) f g
    (Facing (Owing B p)) (Facing (Owing B p))) :
    Related (Paired B p) (onCore f) (onCore g) (Paired B p) (Paired B p) := by
  rintro s t ⟨hcore, hchunker, hahead⟩
  have hpost := h s.core t.core hcore
  rw [onCore, onCore, exec_zoom, exec_zoom]
  revert hpost
  rcases exec f s.core with ⟨e | a, s'⟩ <;> rcases exec g t.core with ⟨d | b, t'⟩
  · exact fun hpost => ⟨hpost.1, hpost.2, hchunker, hahead⟩
  · exact False.elim
  · exact False.elim
  · exact fun hpost => ⟨hpost.1, hpost.2, hchunker, hahead⟩

/-- A program on the core with its failures reported. -/
lemma reported_related {f g : Act α (Fed α) β} (h : Related (Facing (Owing B p)) f g
    (Facing (Owing B p)) (Facing (Owing B p))) (chunk : ℤ) :
    Related (Paired B p) (onCore (report (rowEnv B M) chunk f))
      (onCore (report (rowEnv B M) chunk g)) (Paired B p) (Paired B p) :=
  onCore_related ((facing_lockstep _).report h chunk)

section Drain

variable [Zero α]

lemma drainOne_related (htce : 0 ≤ p.ids.textChunkEnd) :
    Related (Paired B p) (drainOne (rowEnv B M) (withFold p true))
      (drainOne (rowEnv B M) (withFold p false)) (Paired B p) (Paired B p) := by
  refine Related.get_bind fun s t h => ?_
  rw [h.chunker]
  cases chunkerNext t.chunker with
  | none => exact ⟨rfl, h⟩
  | some r =>
    refine Related.bind (S := Paired B p) (R := fun u v => u = s ∧ v = t) (Related.modify ?_)
      (fun _ => onCore_related (runChunk_related htce r.1)) s t ⟨rfl, rfl⟩
    rintro _ _ ⟨rfl, rfl⟩
    exact ⟨h.core, rfl, h.ahead⟩

lemma drainRound_related (htce : 0 ≤ p.ids.textChunkEnd) (ready : ℕ) :
    Related (Paired B p) (drainRound (rowEnv B M) (withFold p true) ready)
      (drainRound (rowEnv B M) (withFold p false) ready) (Paired B p) (Paired B p) := by
  rw [drainRound, drainRound]
  cases hahead : B.encodeAhead with
  | none =>
    have henv : (rowEnv B M).encodeAhead = none := congrArg (Option.map _) hahead
    rw [henv]
    exact drainOne_related htce
  | some encode =>
    have henv : (rowEnv B M).encodeAhead = some fun first ws w => (encode first ws, w) :=
      congrArg (Option.map _) hahead
    rw [henv]
    refine Related.ite Iff.rfl (fun _ => ?_) fun _ => drainOne_related htce
    refine Related.bind (S := Paired B p) (Related.get_bind fun s t h => ?_) fun _ =>
      Related.get_bind fun s t h => ?_
    · rw [h.ahead]
      refine Related.ite (R := Paired B p) Iff.rfl (fun _ => Related.pure fun _ _ h => h)
        (fun _ => ?_) s t h
      refine Related.bind (reported_related (neutral_allocate _) (-1)) fun _ =>
        Related.modify fun u v h => ?_
      exact ⟨h.core, h.chunker, rfl⟩
    · rw [h.chunker]
      refine Related.bind (S := Paired B p) (R := fun u v => u = s ∧ v = t) (Related.modify ?_)
        (fun _ => ?_) s t ⟨rfl, rfl⟩
      · rintro _ _ ⟨rfl, rfl⟩
        exact ⟨h.core, congrArg (fun c => (popUpTo aheadMax c).2) h.chunker, h.ahead⟩
      · exact Related.bind (reported_related (neutral_call _ _) _) fun _ =>
          onCore_related (runChunks_related htce _)

lemma drain_related (htce : 0 ≤ p.ids.textChunkEnd) :
    Related (Paired B p) (drain (rowEnv B M) (withFold p true))
      (drain (rowEnv B M) (withFold p false)) (Paired B p) (Paired B p) := by
  have hloop : ∀ n, Related (Paired B p) (drainLoop (rowEnv B M) (withFold p true) n)
      (drainLoop (rowEnv B M) (withFold p false) n) (Paired B p) (Paired B p) := by
    intro n
    induction n with
    | zero => exact Related.pure fun _ _ h => h
    | succ n ih =>
      refine Related.get_bind fun s t h => ?_
      rw [h.chunker]
      refine Related.ite (R := Paired B p) Iff.rfl (fun _ => Related.pure fun _ _ h => h)
        (fun _ => ?_) s t h
      exact Related.bind (reported_related (facing_lockstep _).checkCancelled (-1)) fun _ =>
        Related.bind (drainRound_related htce _) fun _ => ih
  refine Related.get_bind fun s t h => ?_
  rw [h.chunker]
  exact hloop _ s t h

lemma push_related (htce : 0 ≤ p.ids.textChunkEnd) (pcm : Option (List α)) :
    Related (Paired B p) (push (rowEnv B M) (withFold p true) pcm)
      (push (rowEnv B M) (withFold p false) pcm) (Paired B p) (Paired B p) := by
  refine Related.get_bind fun s t h => ?_
  rw [show t.core.failed = s.core.failed from (congrArg Face.failed h.core.1).symm]
  cases s.core.failed with
  | some e => exact ⟨rfl, h⟩
  | none =>
    have hdone : s.core.done = t.core.done := congrArg Face.done h.core.1
    rw [h.chunker, hdone]
    refine Related.bind (reported_related (facing_lockstep _).checkCancelled (-1))
      (fun _ => ?_) s t h
    refine Related.bind (S := Paired B p) (Related.failIf Iff.rfl (fun _ _ h => h)
      fun _ _ h => h) fun _ => ?_
    refine Related.bind (onCore_related (neutral_takeBlock _)) fun mem => ?_
    cases chunkerPush t.chunker pcm mem with
    | error st => exact reported_related (Related.throw fun _ _ h => h) (-1)
    | ok c =>
      refine Related.bind (S := Paired B p) (Related.modify fun u v h => ?_)
        fun _ => drain_related htce
      exact ⟨h.core, rfl, h.ahead⟩

lemma finish_related (htce : 0 ≤ p.ids.textChunkEnd) :
    Related (Paired B p) (finish (rowEnv B M) (withFold p true))
      (finish (rowEnv B M) (withFold p false)) (Paired B p) (Paired B p) := by
  refine Related.get_bind fun s t h => ?_
  rw [show t.core.failed = s.core.failed from (congrArg Face.failed h.core.1).symm]
  cases s.core.failed with
  | some e => exact ⟨rfl, h⟩
  | none =>
    rw [show t.core.done = s.core.done from (congrArg Face.done h.core.1).symm]
    refine Related.ite (R := Paired B p) Iff.rfl (fun _ => Related.pure fun _ _ h => h)
      (fun _ => ?_) s t h
    refine Related.bind (reported_related (facing_lockstep _).checkCancelled (-1)) fun _ => ?_
    refine Related.bind (S := Paired B p) (Related.modify fun u v h => ?_) fun _ => ?_
    · exact ⟨h.core, congrArg chunkerFinish h.chunker, h.ahead⟩
    · refine Related.bind (drain_related htce) fun _ => Related.get_bind fun u v h => ?_
      rw [h.chunker]
      refine onCore_related (Related.bind ((facing_lockstep (B := B) (M := M) _).modify fun F =>
        { F with done := true }) fun _ => Related.get_bind fun a b h => ?_) u v h
      have hchunks : a.chunks = b.chunks := congrArg Face.chunks h.1
      have htranscript : a.transcript = b.transcript := congrArg Face.transcript h.1
      rw [hchunks, htranscript]
      exact neutral_emit rfl _ a b h

/-- **A call** is answered alike. -/
lemma sessionStep_related (htce : 0 ≤ p.ids.textChunkEnd) {s t : Session α (Fed α)}
    (h : Paired B p s t) (o : SessionOp α) :
    Option.Rel (fun x y => x.1 = y.1 ∧ Paired B p x.2 y.2)
      (sessionStep (rowEnv B M) (withFold p true) s o)
      (sessionStep (rowEnv B M) (withFold p false) t o) := by
  have hlift : ∀ {f g : Program Status (Session α (Fed α)) Unit},
      Related (Paired B p) f g (Paired B p) (Paired B p) →
        Option.Rel (fun x y => x.1 = y.1 ∧ Paired B p x.2 y.2) (some (exec f s))
          (some (exec g t)) := by
    intro f g hfg
    have hpost := hfg s t h
    revert hpost
    rcases exec f s with ⟨e | a, s'⟩ <;> rcases exec g t with ⟨d | b, t'⟩
    · exact fun hpost => .some ⟨congrArg Except.error hpost.1, hpost.2⟩
    · exact False.elim
    · exact False.elim
    · exact fun hpost => .some ⟨congrArg Except.ok hpost.1, hpost.2⟩
  cases o with
  | push pcm => exact hlift (push_related htce pcm)
  | finish => exact hlift (finish_related htce)
  | cancel =>
    exact .some ⟨rfl, ⟨congrArg (fun F : Face => { F with cancel := true }) h.core.1, h.core.2⟩,
      h.chunker, h.ahead⟩

end Drain

/-! ### Opening -/

/-- A session opens with nothing pending. -/
lemma openBackend_pending {w : Fed α} {s : Session α (Fed α)}
    (h : openBackend (rowEnv B M) p w = .ok s) : s.core.pendingLead = -1 := by
  have hprompt : Keeps Core.pendingLead (openPrompt (rowEnv B M) p) :=
    Keeps.bind (fun _ => rfl) fun ids => Keeps.get_bind fun _ => Keeps.failIf.bind fun _ =>
      Keeps.bind (fun _ => rfl) fun _ => Keeps.modify fun _ => rfl
  exact openBackend_post (rowEnv B M) p (P := fun t => t.pendingLead = -1) (fun _ ht => ht)
    (fun _ ht => ht) (hprompt.weaken (P := (· = -1)) fun _ _ => trivial) rfl h

/-! ### Every run -/

/-- What a session `s` that folds and a session `t` that does not have in common: the events up to
the length of the cache, and the rows up to the chunk end that `s` still holds. -/
structure FoldedAlike (p : Params) (s t : Session α (Fed α)) : Prop where
  events : (events s.core.log).map Event.quiet = (events t.core.log).map Event.quiet
  rows : t.core.world.rows = s.core.world.rows ∨
    t.core.world.rows = s.core.world.rows ++ [.token p.ids.textChunkEnd] ∧
      s.core.pendingLead = p.ids.textChunkEnd

lemma Paired.foldedAlike (htce : 0 ≤ p.ids.textChunkEnd) {s t : Session α (Fed α)}
    (h : Paired B p s t) : FoldedAlike p s t := by
  obtain ⟨hrows, hfolded, happended⟩ := h.core.2
  refine ⟨congrArg Face.events h.core.1, ?_⟩
  have hrows : s.core.world.rows ++ (leadRows s.core.pendingLead).map .token =
      t.core.world.rows ++ (leadRows t.core.pendingLead).map .token := hrows
  have happended : t.core.pendingLead = if B.appends then -1 else s.core.pendingLead := happended
  cases happends : B.appends with
  | false =>
    rw [happends] at happended
    rw [show t.core.pendingLead = s.core.pendingLead from happended] at hrows
    exact .inl (List.append_cancel_right hrows).symm
  | true =>
    rw [happends] at happended
    rw [show t.core.pendingLead = -1 from happended] at hrows
    rcases hfolded with hlead | hlead
    · rw [show s.core.pendingLead = -1 from hlead] at hrows
      exact .inl (by simpa using hrows.symm)
    · have hlead : s.core.pendingLead = p.ids.textChunkEnd := hlead
      rw [hlead, leadRows_of_nonneg htce] at hrows
      exact .inr ⟨by simpa using hrows.symm, hlead⟩

/-- Opening a session does not look at the folding. -/
lemma openBackend_withFold (w : Fed α) (fold : Bool) :
    openBackend (rowEnv B M) (withFold p fold) w = openBackend (rowEnv B M) p w := by
  have hbody : openBody (rowEnv B M) (withFold p fold) = openBody (rowEnv B M) p := rfl
  simp only [openBackend, hbody]
  rfl

/-- **Folding the chunk end is invisible**, for every backend that answers from its rows, every
audio and every sequence of calls, with the same answers of the allocator, of the threads that
cancel and of the callback. -/
theorem fold_invisible [Zero α] (B : RowBackend α) (M : Surroundings α) (p : Params) (w : Fed α)
    (ops : List (SessionOp α)) :
    sessionAnswers (rowEnv B M) (withFold p true) w ops =
        sessionAnswers (rowEnv B M) (withFold p false) w ops ∧
      Option.Rel (FoldedAlike p) (sessionRun (rowEnv B M) (withFold p true) w ops)
        (sessionRun (rowEnv B M) (withFold p false) w ops) := by
  rw [sessionAnswers, sessionAnswers, sessionRun, sessionRun, openBackend_withFold,
    openBackend_withFold]
  cases hopen : openBackend (rowEnv B M) p w with
  | error e =>
    simp only [Except.map, Except.toOption, Option.bind_none, true_and]
    exact .none
  | ok s =>
    obtain ⟨_, ⟨htce, _⟩, _⟩ := openBackend_ok (rowEnv B M) p hopen
    have hlead := openBackend_pending hopen
    have hpaired : Paired B p s s :=
      ⟨⟨rfl, rfl, .inl hlead, by rw [show (cache s.core).2 = -1 from hlead, ite_self]⟩, rfl, rfl⟩
    obtain ⟨hrel, houts⟩ := run_rel (R := Paired B p)
      (fun _ _ o h => sessionStep_related (M := M) htce h o) hpaired ops
    simp only [Except.map, Except.toOption, Option.bind_some]
    exact ⟨congrArg Except.ok houts, rel_mono (fun _ _ h => h.foldedAlike htce) hrel⟩

end Lockstep

end VibeVoice.Stream
