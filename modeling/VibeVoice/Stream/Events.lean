import VibeVoice.Stream.Protocol

/-!
A session keeps to the event protocol, whatever the backend, the allocator, the callback and
the threads that cancel do.

`Consistent` relates the core of a session to the listener of its events.  Every step of a chunk
keeps it; while a chunk runs, the text of the chunk is what the listener has heard of it.

* `session_protocol`: the events of every session in every order of calls.
-/

namespace VibeVoice.Stream

open Prog Machine

variable {α σ β : Type} {env : Env α σ} {p : Params}

/-- The event of an entry. -/
def Entry.event? : Entry α σ → Option Event
  | .event ev _ => some ev
  | .call .. => none

/-- The events emitted. -/
def events (log : List (Entry α σ)) : List Event := log.filterMap Entry.event?

@[simp] lemma events_call (log : List (Entry α σ)) (c : Call α) (st : Option Status) (b a : σ) :
    events (log ++ [.call c st b a]) = events log := by
  simp [events, Entry.event?]

@[simp] lemma events_event (log : List (Entry α σ)) (ev : Event) (w : σ) :
    events (log ++ [.event ev w]) = events log ++ [ev] := by
  simp [events, Entry.event?]

/-- The part of the core that the event protocol is about. -/
structure Ledger where
  events : List Event
  chunkText : List UInt8
  transcript : List UInt8
  chunks : ℕ
  failed : Option Status
  done : Bool

/-- The ledger of a core. -/
def ledger (s : Core α σ) : Ledger where
  events := events s.log
  chunkText := s.chunkText
  transcript := s.transcript
  chunks := s.chunks
  failed := s.failed
  done := s.done

/-- The listener of the events knows what the session has recorded. -/
structure Consistent (s : Ledger) (l : Listener) : Prop where
  follows : l.Follows s.events
  chunks : s.chunks = l.chunks.length
  transcript : s.transcript = l.chunks.flatten
  ended : l.ended = true ↔ s.done = true ∨ ∃ st, s.failed = some st ∧ st ≠ .cancelled
  errors : ∀ i st text, .error i st text ∈ s.events → s.failed = some st

/-- The session still runs. -/
def Live (s : Ledger) (l : Listener) : Prop := Consistent s l ∧ s.failed = none ∧ s.done = false

/-- The session runs and `n` chunks are complete. -/
def Idle (n : ℕ) (s : Ledger) : Prop := ∃ l, Live s l ∧ l.current = [] ∧ s.chunks = n

/-- Chunk `n` is in progress, and what the listener has heard of it is its text. -/
def InChunk (n : ℕ) (s : Ledger) : Prop := ∃ l, Live s l ∧ l.current = s.chunkText ∧ s.chunks = n

/-- The session runs, but the chunk in progress has failed. -/
def Broken (s : Ledger) : Prop := ∃ l, Live s l

/-- The session has failed with `st`. -/
def Over (st : Status) (s : Ledger) : Prop := s.failed = some st ∧ ∃ l, Consistent s l

lemma Idle.broken {n : ℕ} {s : Ledger} (h : Idle n s) : Broken s := by
  obtain ⟨l, hl, _⟩ := h
  exact ⟨l, hl⟩

lemma InChunk.broken {n : ℕ} {s : Ledger} (h : InChunk n s) : Broken s := by
  obtain ⟨l, hl, _⟩ := h
  exact ⟨l, hl⟩

lemma Live.open_ {s : Ledger} {l : Listener} (h : Live s l) : l.ended = false := by
  obtain ⟨hcons, hfail, hdone⟩ := h
  rw [← Bool.not_eq_true, hcons.ended, hdone, hfail]
  simp

/-- A running session has reported no error. -/
lemma Live.not_error {s : Ledger} {l : Listener} (h : Live s l) {i : ℤ} {st : Status}
    {text : String} : .error i st text ∉ s.events := by
  intro hmem
  have hfail := h.1.errors i st text hmem
  rw [h.2.1] at hfail
  cases hfail

/-- An event that is not the last one reports no error. -/
lemma errors_snoc {evs : List Event} {ev : Event} {failed : Option Status}
    (h : ∀ i st text, .error i st text ∈ evs → failed = some st) (hquiet : ev.terminal = false) :
    ∀ i st text, .error i st text ∈ evs ++ [ev] → failed = some st := by
  intro i st text hmem
  rcases List.mem_append.mp hmem with hmem | hmem
  · exact h i st text hmem
  · rw [← List.mem_singleton.mp hmem] at hquiet
    cases hquiet

/-! ### What emits nothing -/

lemma keeps_call (c : Call α) (f : Program Status σ β) : Keeps ledger (call c f) := by
  intro s
  simp [ledger]

lemma keeps_onWorld (f : Program Status σ β) : Keeps (ledger (α := α)) (onWorld f) :=
  fun _ => rfl

lemma keeps_cancelled : Keeps ledger (cancelled env) := fun _ => rfl

lemma keeps_allocate : Keeps ledger (allocate env) := fun _ => rfl

lemma keeps_checkCancelled : Keeps ledger (checkCancelled env) :=
  keeps_cancelled.bind fun _ => Keeps.failIf

lemma keeps_checkFits (n : ℤ) : Keeps ledger (checkFits env n) :=
  Keeps.get_bind fun _ => Keeps.failIf

lemma keeps_growGen (nGen genCap : ℕ) : Keeps ledger (growGen env nGen genCap) :=
  Keeps.ite (keeps_allocate.bind fun _ => Keeps.pure _) (Keeps.pure _)

lemma keeps_endChunk : Keeps ledger (endChunk env p) := by
  rw [endChunk]
  cases env.appendTokens with
  | none => exact Keeps.modify fun _ => rfl
  | some append => exact Keeps.ite (Keeps.modify fun _ => rfl) (keeps_call _ _)

/-! ### A chunk -/

/-- An event that the listener of a running session accepts. -/
lemma Live.hear {s : Ledger} {l l' : Listener} {ev : Event} (h : Live s l)
    (hev : l.hear ev = some ((), l')) (hchunks : l'.chunks = l.chunks)
    (hopen : l'.ended = false) (hquiet : ev.terminal = false) :
    Live { s with events := s.events ++ [ev] } l' := by
  obtain ⟨hcons, hfail, hdone⟩ := h
  refine ⟨⟨hcons.follows.snoc hev, ?_, ?_, ?_, errors_snoc hcons.errors hquiet⟩, hfail, hdone⟩
  · rw [hchunks]
    exact hcons.chunks
  · rw [hchunks]
    exact hcons.transcript
  · simp [hopen, hfail, hdone]

lemma emit_triple {ev : Event} {P Q : Ledger → Prop} {E : Status → Core α σ → Prop}
    (h : ∀ s, P s → Q { s with events := s.events ++ [ev] }) :
    Triple (fun s => P (ledger s)) (emit env ev) (fun _ s => Q (ledger s)) E := by
  intro s hs
  have hQ := h (ledger s) hs
  simpa [Post, ledger] using hQ

/-- A delta reaches the listener together with the text of the chunk. -/
lemma emitDelta_triple (n : ℕ) (d : List UInt8) :
    Triple (fun s => InChunk n (ledger s)) (emitDelta env n d) (fun _ s => InChunk n (ledger s))
      fun _ s => Broken (ledger s) := by
  refine Triple.ite (fun _ => Triple.pure fun _ hs => hs) fun _ => ?_
  refine Triple.bind (keeps_allocate.weaken fun _ => InChunk.broken) fun _ => ?_
  let P : Ledger → Prop := fun s => ∃ l, Live s l ∧ s.chunkText = l.current ++ d ∧ s.chunks = n
  refine Triple.bind (R := fun _ s => P (ledger s)) (Triple.modify ?_) fun _ => ?_
  · rintro s ⟨l, ⟨hcons, hfail, hdone⟩, hcur, hn⟩
    exact ⟨l, ⟨⟨hcons.follows, hcons.chunks, hcons.transcript, hcons.ended, hcons.errors⟩, hfail,
      hdone⟩, congrArg (· ++ d) hcur.symm, hn⟩
  · refine emit_triple (P := P) (Q := InChunk n) ?_
    rintro s ⟨l, hl, hcur, hn⟩
    have hev : l.hear (.delta n d) = some ((), { l with current := l.current ++ d }) :=
      if_pos ⟨hl.open_, hn.symm.trans hl.1.chunks⟩
    exact ⟨_, hl.hear hev rfl hl.open_ rfl, hcur.symm, hn⟩

lemma stepText_triple (n : ℕ) (step : Text → Text) :
    Triple (fun s => InChunk n (ledger s)) (stepText env n step) (fun _ s => InChunk n (ledger s))
      fun _ s => Broken (ledger s) := by
  refine Triple.bind (keeps_allocate.weaken fun _ => InChunk.broken) fun _ => ?_
  refine Triple.bind (R := fun _ s => InChunk n (ledger s)) (Triple.modify fun _ hs => hs)
    fun _ => Triple.get_bind fun s hs => ?_
  exact emitDelta_triple n s.text.out s hs

/-- A chunk starts with no text. -/
lemma prefillRows_triple (n : ℕ) (w : Window α) (r : List ℤ × ℕ) :
    Triple (fun s => Idle n (ledger s)) (prefillRows env p w r) (fun _ s => InChunk n (ledger s))
      fun _ s => Broken (ledger s) := by
  refine Triple.bind (keeps_checkCancelled.weaken fun _ => Idle.broken) fun _ => ?_
  refine Triple.bind ((keeps_checkFits _).weaken fun _ => Idle.broken) fun _ => ?_
  refine Triple.bind ((keeps_call _ _).weaken fun _ => Idle.broken) fun tok => ?_
  refine Triple.bind (R := fun _ s => InChunk n (ledger s)) (Triple.modify ?_)
    fun _ => Triple.pure fun _ hs => hs
  rintro s ⟨l, ⟨hcons, hfail, hdone⟩, hcur, hn⟩
  exact ⟨l, ⟨⟨hcons.follows, hcons.chunks, hcons.transcript, hcons.ended, hcons.errors⟩, hfail,
    hdone⟩, hcur, hn⟩

lemma prefill_triple (n : ℕ) (w : Window α) :
    Triple (fun s => Idle n (ledger s)) (prefill env p w) (fun _ s => InChunk n (ledger s))
      fun _ s => Broken (ledger s) := by
  refine Triple.get_bind fun s hs => ?_
  cases layoutRows p s.pendingLead with
  | none => exact hs.broken
  | some r => exact prefillRows_triple n w r s hs

lemma feedToken_triple (n : ℕ) (tok : ℤ) :
    Triple (fun s => InChunk n (ledger s)) (feedToken env n tok) (fun _ s => InChunk n (ledger s))
      fun _ s => Broken (ledger s) := by
  refine Triple.bind (R := fun _ s => InChunk n (ledger s)) (Triple.modify fun _ hs => hs)
    fun _ => ?_
  refine Triple.bind ((keeps_call _ _).weaken fun _ => InChunk.broken) fun bytes => ?_
  refine Triple.bind (stepText_triple n _) fun _ => ?_
  refine Triple.bind (keeps_checkCancelled.weaken fun _ => InChunk.broken) fun _ => ?_
  refine Triple.bind ((keeps_checkFits _).weaken fun _ => InChunk.broken) fun _ => ?_
  exact (keeps_call _ _).weaken fun _ => InChunk.broken

lemma decode_triple (n left : ℕ) (tok : ℤ) (nGen genCap : ℕ) :
    Triple (fun s => InChunk n (ledger s)) (decode env p n left tok nGen genCap)
      (fun _ s => InChunk n (ledger s)) fun _ s => Broken (ledger s) := by
  induction left generalizing tok nGen genCap with
  | zero => exact Triple.pure fun _ hs => hs
  | succ left ih =>
    refine Triple.ite (fun _ => Triple.pure fun _ hs => hs) fun _ => ?_
    refine Triple.ite (fun _ => Triple.pure fun _ hs => hs) fun _ => ?_
    refine Triple.bind ((keeps_growGen _ _).weaken fun _ => InChunk.broken) fun genCap => ?_
    exact Triple.bind (feedToken_triple n tok) fun next => ih next _ genCap

/-- Chunk `n` is in the records of the session, and the listener is about to hear of it. -/
structure Recorded (n : ℕ) (s : Ledger) (l : Listener) : Prop where
  follows : l.Follows s.events
  ended : l.ended = false
  heard : l.chunks.length = n
  current : l.current = s.chunkText
  chunks : s.chunks = n + 1
  transcript : s.transcript = (l.chunks ++ [s.chunkText]).flatten
  failed : s.failed = none
  done : s.done = false
  errors : ∀ i st text, .error i st text ∈ s.events → s.failed = some st

/-- The `CHUNK` event of a recorded chunk. -/
lemma Recorded.idle {n k : ℕ} {s : Ledger} {l : Listener} {stop : Stop} {lo hi kv : ℤ}
    (h : Recorded n s l) :
    Idle (n + 1) { s with events := s.events ++ [.chunk n s.chunkText k stop lo hi kv] } := by
  have hev : l.hear (.chunk n s.chunkText k stop lo hi kv) =
      some ((), { l with chunks := l.chunks ++ [s.chunkText], current := [] }) :=
    if_pos ⟨h.ended, h.heard.symm, h.current.symm⟩
  refine ⟨_, ⟨⟨h.follows.snoc hev, ?_, h.transcript, ?_, errors_snoc h.errors rfl⟩, h.failed,
    h.done⟩, rfl, h.chunks⟩
  · rw [List.length_append, h.heard]
    exact h.chunks
  · simp [h.ended, h.failed, h.done]

/-- The `CHUNK` event carries the text that the listener has heard, which joins the
transcript. -/
lemma commitChunk_triple (w : Window α) (r : ℕ × Stop) :
    Triple (fun s => InChunk w.index (ledger s)) (commitChunk env p w r)
      (fun _ s => Idle (w.index + 1) (ledger s)) fun _ s => Broken (ledger s) := by
  refine Triple.bind (keeps_allocate.weaken fun _ => InChunk.broken) fun _ => ?_
  refine Triple.bind (R := fun _ s => ∃ l, Recorded w.index (ledger s) l)
    (Triple.modify ?_) fun _ => Triple.get_bind fun s hs => ?_
  · rintro s ⟨l, hl, hcur, hn⟩
    obtain ⟨hcons, hfail, hdone⟩ := id hl
    refine ⟨l, hcons.follows, hl.open_, hcons.chunks.symm.trans hn, hcur, congrArg (· + 1) hn, ?_,
      hfail, hdone, hcons.errors⟩
    rw [List.flatten_append, List.flatten_singleton, ← hcons.transcript]
    rfl
  · obtain ⟨l, hl⟩ := hs
    refine Triple.bind (emit_triple (P := (· = ledger s)) (Q := Idle (w.index + 1)) ?_)
      (fun _ => keeps_checkCancelled.weaken fun _ => Idle.broken) s rfl
    rintro _ rfl
    exact hl.idle

/-- The session ends with a failure, which the listener hears of unless it is a cancel. -/
lemma fail_triple (st : Status) (chunk : ℤ) :
    Triple (fun s => Broken (ledger s)) (fail env st chunk : Act α σ β) (fun _ _ => False)
      fun e s => Over e (ledger s) := by
  refine Triple.get_bind fun s hs => ?_
  obtain ⟨l, hl⟩ := hs
  obtain ⟨hcons, hfail, hdone⟩ := id hl
  rw [show s.failed = none from hfail]
  dsimp only
  by_cases hst : st = .cancelled
  · subst hst
    refine ⟨rfl, l, hcons.follows, hcons.chunks, hcons.transcript, ?_,
      fun i st text hmem => (hl.not_error hmem).elim⟩
    rw [hl.open_]
    simpa [ledger] using hdone
  · have hev : l.hear (.error chunk st (statusStr st)) = some ((), { l with ended := true }) :=
      if_pos ⟨hl.open_, hst⟩
    rw [if_neg hst]
    refine ⟨rfl, { l with ended := true }, ?_, hcons.chunks, hcons.transcript, ?_, ?_⟩
    · simpa [ledger] using hcons.follows.snoc hev
    · simp [ledger, hst]
    · intro i st' text hmem
      simp only [ledger, events_event, List.mem_append, List.mem_singleton] at hmem
      rcases hmem with hmem | hmem
      · exact (hl.not_error hmem).elim
      · cases hmem
        rfl

lemma report_triple {act : Act α σ β} {chunk : ℤ} {P : Core α σ → Prop} {Q : β → Core α σ → Prop}
    (h : Triple P act Q fun _ s => Broken (ledger s)) :
    Triple P (report env chunk act) Q fun e s => Over e (ledger s) :=
  Triple.tryCatch h fun st =>
    (fail_triple st chunk).conseq (fun _ => id) (fun _ _ => False.elim) fun _ _ => id

/-- **A chunk**: it is completed, or the session is over. -/
lemma runChunk_triple (w : Window α) :
    Triple (fun s => Idle w.index (ledger s)) (runChunk env p w)
      (fun _ s => Idle (w.index + 1) (ledger s)) fun e s => Over e (ledger s) := by
  refine report_triple (Triple.bind (prefill_triple w.index w) fun tok => ?_)
  refine Triple.bind (decode_triple w.index _ tok 0 256) fun r => ?_
  refine Triple.bind (stepText_triple w.index textFlush) fun _ => ?_
  refine Triple.bind (keeps_endChunk.weaken fun _ => InChunk.broken) fun _ => ?_
  exact commitChunk_triple w r

/-- Windows encoded together run in order. -/
lemma runChunks_triple (n : ℕ) (ws : List (Window α))
    (hws : ws.map Window.index = List.range' n ws.length) :
    Triple (fun s => Idle n (ledger s)) (runChunks env p ws)
      (fun _ s => Idle (n + ws.length) (ledger s)) fun e s => Over e (ledger s) := by
  induction ws generalizing n with
  | nil => exact Triple.pure fun _ hs => hs
  | cons w ws ih =>
    rw [List.map_cons, List.length_cons, List.range'_succ, List.cons.injEq] at hws
    obtain ⟨rfl, hws⟩ := hws
    refine Triple.bind (runChunk_triple w) fun _ => ?_
    rw [List.length_cons, Nat.add_comm ws.length, ← Nat.add_assoc]
    exact ih (w.index + 1) hws

/-! ### The session -/

/-- The session runs, and as many chunks are complete as windows were taken. -/
def Waiting (s : Session α σ) : Prop := Idle s.chunker.nextIdx (ledger s.core)

/-- A program that emits nothing and whose failures are reported. -/
lemma onCore_report_triple {act : Act α σ β} {chunk : ℤ} (h : Keeps ledger act) :
    Triple Waiting (onCore (report env chunk act)) (fun _ => Waiting)
      fun e s => Over e (ledger s.core) :=
  fun s hs => onCore_post (report_triple (h.weaken fun _ => Idle.broken) s.core hs)

section Drain

variable [Zero α]

omit [Zero α] in
/-- Chunks of windows just taken from the chunker. -/
lemma onCore_chunks_triple {act : Act α σ Unit} (n k : ℕ)
    (h : Triple (fun s => Idle n (ledger s)) act (fun _ s => Idle (n + k) (ledger s))
      fun e s => Over e (ledger s)) :
    Triple (fun s : Session α σ => Idle n (ledger s.core) ∧ s.chunker.nextIdx = n + k) (onCore act)
      (fun _ => Waiting) fun e s => Over e (ledger s.core) := by
  rintro s ⟨hidle, hnext⟩
  have hpost := h s.core hidle
  rw [← hnext] at hpost
  exact onCore_post hpost

lemma drainOne_triple :
    Triple Waiting (drainOne env p) (fun _ => Waiting) fun e s => Over e (ledger s.core) := by
  refine Triple.get_bind fun s hs => ?_
  cases hnext : chunkerNext s.chunker with
  | none => exact hs
  | some r =>
    obtain ⟨hw, hc⟩ := chunkerNext_index hnext
    have hidle : Idle r.1.index (ledger s.core) := hw ▸ hs
    have hnextIdx : r.2.nextIdx = r.1.index + 1 := hw ▸ hc
    exact onCore_chunks_triple r.1.index 1 (runChunk_triple r.1) { s with chunker := r.2 }
      ⟨hidle, hnextIdx⟩

omit [Zero α] in
lemma aheadBuffer_triple :
    Triple Waiting (aheadBuffer env) (fun _ => Waiting) fun e s => Over e (ledger s.core) := by
  refine Triple.get_bind fun s hs => ?_
  cases hahead : s.ahead with
  | true => exact hs
  | false =>
    exact Triple.bind (onCore_report_triple keeps_allocate)
      (fun _ => Triple.modify fun _ hs => hs) s hs

lemma drainAhead_triple (encode : ℕ → List (List α) → Program Status σ Unit) :
    Triple Waiting (drainAhead env p encode) (fun _ => Waiting)
      fun e s => Over e (ledger s.core) := by
  refine Triple.bind aheadBuffer_triple fun _ => Triple.get_bind fun s hs => ?_
  obtain ⟨hws, hnext⟩ := popUpTo_index aheadMax s.chunker
  refine Triple.bind (P := (· = s))
    (R := fun _ t => Idle s.chunker.nextIdx (ledger t.core) ∧
      t.chunker.nextIdx = s.chunker.nextIdx + (popUpTo aheadMax s.chunker).1.length)
    (Triple.modify ?_) (fun _ => ?_) s rfl
  · rintro _ rfl
    exact ⟨hs, hnext⟩
  · refine Triple.bind ?_ fun _ => onCore_chunks_triple _ _ (runChunks_triple _ _ hws)
    rintro t ⟨hidle, ht⟩
    refine onCore_post ((report_triple ((keeps_call _ _).weaken fun _ => Idle.broken)).conseq
      (fun _ => id) (fun _ _ hs => ⟨hs, ht⟩) (fun _ _ => id) t.core hidle)

lemma drainRound_triple (ready : ℕ) :
    Triple Waiting (drainRound env p ready) (fun _ => Waiting)
      fun e s => Over e (ledger s.core) := by
  rw [drainRound]
  cases env.encodeAhead with
  | none => exact drainOne_triple
  | some encode =>
    exact Triple.ite (fun _ => drainAhead_triple encode) fun _ => drainOne_triple

lemma drainLoop_triple (n : ℕ) :
    Triple Waiting (drainLoop env p n) (fun _ => Waiting) fun e s => Over e (ledger s.core) := by
  induction n with
  | zero => exact Triple.pure fun _ hs => hs
  | succ n ih =>
    refine Triple.get_bind fun s hs => ?_
    by_cases hready : chunkerReady s.chunker = 0
    · rw [if_pos hready]
      exact hs
    · rw [if_neg hready]
      refine Triple.bind (onCore_report_triple keeps_checkCancelled) (fun _ => ?_) s hs
      exact Triple.bind (drainRound_triple _) fun _ => ih

lemma drain_triple :
    Triple Waiting (drain env p) (fun _ => Waiting) fun e s => Over e (ledger s.core) :=
  Triple.get_bind fun s hs => drainLoop_triple (chunkerReady s.chunker) s hs

/-! ### The calls -/

omit [Zero α] in
/-- What holds between the calls. -/
def Kept (s : Session α σ) : Prop :=
  ∃ l, Consistent (ledger s.core) l ∧ (s.core.failed = none → s.core.done = false →
    l.current = [] ∧ s.core.chunks = s.chunker.nextIdx)

omit [Zero α] in
lemma Waiting.kept {s : Session α σ} (h : Waiting s) : Kept s := by
  obtain ⟨l, hl, hcur, hn⟩ := h
  exact ⟨l, hl.1, fun _ _ => ⟨hcur, hn⟩⟩

omit [Zero α] in
lemma Kept.waiting {s : Session α σ} (h : Kept s) (hfail : s.core.failed = none)
    (hdone : s.core.done = false) : Waiting s := by
  obtain ⟨l, hcons, hrest⟩ := h
  obtain ⟨hcur, hn⟩ := hrest hfail hdone
  exact ⟨l, ⟨hcons, hfail, hdone⟩, hcur, hn⟩

omit [Zero α] in
lemma Over.kept {s : Session α σ} {e : Status} (h : Over e (ledger s.core)) : Kept s := by
  obtain ⟨hfail, l, hcons⟩ := h
  refine ⟨l, hcons, fun hnone => ?_⟩
  rw [show s.core.failed = some e from hfail] at hnone
  cases hnone

omit [Zero α] in
/-- The check for a cancel at the start of a call. -/
lemma poll_triple {s : Session α σ} (hfail : s.core.failed = none) (chunk : ℤ) :
    Triple (fun t => Kept t ∧ t = s) (onCore (report env chunk (checkCancelled env)))
      (fun _ t => Kept t ∧ t.core.failed = none ∧ t.core.done = s.core.done ∧
        t.chunker = s.chunker)
      fun e t => Kept t ∧ t.core.failed = some e := by
  rintro _ ⟨⟨l, hcons, hrest⟩, rfl⟩
  refine onCore_post ?_
  rw [exec_report_checkCancelled env hfail]
  split_ifs
  · refine ⟨⟨l, ⟨hcons.follows, hcons.chunks, hcons.transcript, ?_, ?_⟩, fun hnone => ?_⟩, rfl⟩
    · rw [hcons.ended]
      simp [ledger, hfail]
    · intro i st text hmem
      have hst := hcons.errors i st text hmem
      rw [show (ledger _).failed = none from hfail] at hst
      cases hst
    · cases hnone
  · exact ⟨⟨l, ⟨hcons.follows, hcons.chunks, hcons.transcript, hcons.ended, hcons.errors⟩, hrest⟩,
      hfail, rfl, rfl⟩

variable (env p) in
/-- **A push** keeps the protocol, and fails with the status of the session, unless it came after
`DONE`. -/
lemma push_post {s : Session α σ} (hs : Kept s) (pcm : Option (List α)) :
    Post (fun _ => Kept)
      (fun e t => Kept t ∧ (t.core.failed = some e ∨ s.core.failed = none ∧ s.core.done = true))
      (exec (push env p pcm) s) := by
  refine Triple.get_bind (P := (· = s)) (fun s' hs' => ?_) s rfl
  subst hs'
  cases hfail : s'.core.failed with
  | some e => exact ⟨hs, .inl hfail⟩
  | none =>
    refine Triple.bind ((poll_triple hfail (-1)).conseq (fun _ => id) (fun _ _ => id)
      fun _ _ h => ⟨h.1, .inl h.2⟩) (fun _ => ?_) s' ⟨hs, rfl⟩
    refine Triple.bind (R := fun _ t => Waiting t ∧ t.chunker = s'.chunker)
      (Triple.failIf ?_ ?_) fun _ => ?_
    · rintro hdone t ⟨ht, -⟩
      exact ⟨ht, .inr ⟨rfl, hdone⟩⟩
    · rintro hdone t ⟨ht, hnone, htdone, hchunker⟩
      exact ⟨ht.waiting hnone (htdone.trans (Bool.not_eq_true _ ▸ hdone)), hchunker⟩
    · refine Triple.bind (R := fun _ t => Waiting t ∧ t.chunker = s'.chunker) ?_ fun mem => ?_
      · rintro t ⟨ht, hchunker⟩
        exact onCore_post ⟨ht, hchunker⟩
      · cases hpush : chunkerPush s'.chunker pcm mem with
        | error st =>
          rintro t ⟨ht, -⟩
          refine onCore_post ?_
          exact (report_triple (Triple.throw fun _ => Idle.broken)).conseq (fun _ => id)
            (fun _ _ hs => Waiting.kept hs) (fun _ _ hs => ⟨Over.kept hs, .inl hs.1⟩)
            t.core ht
        | ok c =>
          refine Triple.bind (R := fun _ => Waiting) (Triple.modify ?_) fun _ =>
            drain_triple.conseq (fun _ => id) (fun _ _ => Waiting.kept)
              fun _ _ h => ⟨h.kept, .inl h.1⟩
          rintro t ⟨ht, hchunker⟩
          rw [Waiting, hchunker, ← chunkerPush_nextIdx hpush] at ht
          exact ht

omit [Zero α] in
/-- The `DONE` event carries the transcript. -/
lemma emitDone_triple (n total : ℕ) :
    Triple (fun s => Idle n (ledger s)) (emitDone env total)
      (fun _ (s : Core α σ) => (∃ l, Consistent (ledger s) l) ∧ s.failed = none ∧ s.done = true)
      fun _ _ => False := by
  refine Triple.bind (P := fun s => Idle n (ledger s))
    (R := fun _ s => ∃ l, Live { ledger s with done := false } l ∧ l.current = [] ∧
      s.done = true) (Triple.modify ?_) fun _ => Triple.get_bind fun s hs => ?_
  · rintro s ⟨l, hl, hcur, -⟩
    have hsame : { ledger s with done := false } = ledger s := by
      rw [← hl.2.2]
    exact ⟨l, hsame.symm ▸ hl, hcur, rfl⟩
  · obtain ⟨l, hl, hcur, hdone⟩ := hs
    have hev : l.hear (.done s.chunks s.transcript total) = some ((), { l with ended := true }) :=
      if_pos ⟨hl.open_, hcur, hl.1.chunks, hl.1.transcript⟩
    refine ⟨⟨{ l with ended := true }, ?_, hl.1.chunks, hl.1.transcript, ?_, ?_⟩, hl.2.1, hdone⟩
    · simpa [ledger] using hl.1.follows.snoc hev
    · simp [ledger, hdone]
    · intro i st text hmem
      simp only [ledger, events_event, List.mem_append, List.mem_singleton] at hmem
      rcases hmem with hmem | hmem
      · exact (hl.not_error hmem).elim
      · cases hmem

/-- **A finish** keeps the protocol, and the session has ended when it succeeds. -/
lemma finish_triple :
    Triple Kept (finish env p)
      (fun _ s => Kept s ∧ s.core.failed = none ∧ s.core.done = true)
      fun e s => Kept s ∧ s.core.failed = some e := by
  refine Triple.get_bind fun s hs => ?_
  cases hfail : s.core.failed with
  | some e => exact ⟨hs, hfail⟩
  | none =>
    cases hdone : s.core.done with
    | true => exact ⟨hs, hfail, hdone⟩
    | false =>
      refine Triple.bind (poll_triple hfail (-1)) (fun _ => ?_) s ⟨hs, rfl⟩
      refine Triple.bind (R := fun _ => Waiting) (Triple.modify ?_) fun _ => ?_
      · rintro t ⟨ht, hnone, htdone, -⟩
        exact ht.waiting hnone (htdone.trans hdone)
      · refine Triple.bind (drain_triple.conseq (fun _ => id) (fun _ _ => id)
          fun _ _ h => ⟨h.kept, h.1⟩) fun _ => Triple.get_bind fun t ht => onCore_post ?_
        refine (emitDone_triple t.chunker.nextIdx t.chunker.total).conseq (fun _ => id)
          (fun _ u hu => ?_) (fun _ _ => False.elim) t.core ht
        obtain ⟨⟨l, hcons⟩, hu⟩ := hu
        refine ⟨⟨l, hcons, fun _ hfalse => ?_⟩, hu⟩
        rw [show u.done = true from hu.2] at hfalse
        cases hfalse

end Drain

/-! ### Opening -/

lemma keeps_openPrompt : Keeps ledger (openPrompt env p) := by
  refine (keeps_onWorld _).bind fun ids => Keeps.get_bind fun s => ?_
  refine Keeps.failIf.bind fun _ => (keeps_call _ _).bind fun _ => Keeps.modify fun _ => rfl

/-- A session opens silently. -/
lemma open_waiting {w : σ} {s : Session α σ} (h : openBackend env p w = .ok s) : Waiting s := by
  obtain ⟨mem, hcreate⟩ := openBackend_chunker env p h
  have hledger : ledger s.core = ledger (Core.fresh w : Core α σ) :=
    openBackend_post env p (P := fun t => ledger t = ledger (Core.fresh w : Core α σ))
      (fun _ ht => ht) (fun _ ht => ht)
      (keeps_openPrompt.weaken (P := (· = ledger (Core.fresh w : Core α σ)))
        fun _ _ => trivial) rfl h
  rw [Waiting, chunkerCreate_nextIdx hcreate, hledger]
  exact ⟨Listener.start, ⟨⟨Listener.Follows.nil, rfl, rfl,
    by simp [Listener.start, ledger, Core.fresh], by simp [ledger, Core.fresh, events]⟩, rfl, rfl⟩,
    rfl, rfl⟩

/-! ### Every run -/

section Run

variable [Zero α]

lemma Kept.step {s s' : Session α σ} {o : SessionOp α} {r : Except Status Unit} (h : Kept s)
    (hstep : sessionStep env p s o = some (r, s')) : Kept s' := by
  cases o with
  | push pcm =>
    have hpost := push_post env p h pcm
    rw [Option.some.inj hstep] at hpost
    cases r with
    | error e => exact hpost.1
    | ok u => exact hpost
  | finish =>
    have hpost := (finish_triple : Triple _ (finish env p) _ _) s h
    rw [Option.some.inj hstep] at hpost
    cases r with
    | error e => exact hpost.1
    | ok u => exact hpost.1
  | cancel =>
    cases hstep
    obtain ⟨l, hcons, hrest⟩ := h
    exact ⟨l, hcons, hrest⟩

lemma Kept.reachable {w : σ} {s₀ s : Session α σ} (hopen : openBackend env p w = .ok s₀)
    (hr : Reachable (sessionStep env p) s₀ s) : Kept s :=
  hr.induct (open_waiting hopen).kept fun _ _ _ _ h hstep => h.step hstep

/-- A push or a finish, not a cancel. -/
def SessionOp.Feeds : SessionOp α → Prop
  | .cancel => False
  | _ => True

/-- A failed session answers every push and every finish with its status, and does nothing. -/
lemma sessionStep_failed {s : Session α σ} {e : Status} (h : s.core.failed = some e)
    {o : SessionOp α} (ho : o.Feeds) : sessionStep env p s o = some (.error e, s) := by
  cases o with
  | push pcm => simp [sessionStep, push, h]
  | finish => simp [sessionStep, finish, h]
  | cancel => cases ho

/-- A failed session stays as it is, but for the cancel flag. -/
lemma run_failed {s t : Session α σ} {e : Status} {ops : List (SessionOp α)}
    (h : s.core.failed = some e) (hrun : run (sessionStep env p) s ops = some t) :
    t.core.failed = some e ∧ t.core.log = s.core.log := by
  have hr : Reachable (sessionStep env p) s t := ⟨ops, hrun⟩
  refine hr.induct (P := fun t => t.core.failed = some e ∧ t.core.log = s.core.log) ⟨h, rfl⟩ ?_
  rintro u o r u' ⟨hu, hlog⟩ hstep
  by_cases ho : o.Feeds
  · rw [sessionStep_failed hu ho] at hstep
    cases hstep
    exact ⟨hu, hlog⟩
  · cases o with
    | cancel =>
      cases hstep
      exact ⟨hu, hlog⟩
    | _ => exact absurd trivial ho

/-- A push after `DONE` is refused, and only asks whether the session is cancelled. -/
lemma sessionStep_done {s : Session α σ} (hfail : s.core.failed = none) (hdone : s.core.done = true)
    (hcancel : (s.core.cancel || (env.cancelArrives s.core.world).1) = false)
    (pcm : Option (List α)) : sessionStep env p s (.push pcm) = some (.error .invalidArg,
      { s with core := { s.core with
        world := (env.cancelArrives s.core.world).2
        cancel := false } }) := by
  have hpoll := exec_report_checkCancelled env hfail (-1)
  rw [hcancel] at hpoll
  simp [sessionStep, push, hfail, onCore, hpoll, hdone, failIf]

variable (env p) in
/-- A cancel that is noticed ends the session without an event. -/
lemma sessionStep_cancelled {s : Session α σ} (hfail : s.core.failed = none)
    (hcancel : (s.core.cancel || (env.cancelArrives s.core.world).1) = true)
    {o : SessionOp α} (ho : o.Feeds)
    (hdone : o = .finish → s.core.done = false) :
    ∃ s', sessionStep env p s o = some (.error .cancelled, s') ∧ s'.core.log = s.core.log ∧
      s'.core.failed = some .cancelled := by
  have hpoll := exec_report_checkCancelled env hfail (-1)
  rw [hcancel, if_pos rfl] at hpoll
  refine ⟨{ s with core := { s.core with
    world := (env.cancelArrives s.core.world).2
    cancel := true
    failed := some .cancelled } }, ?_, rfl, rfl⟩
  cases o with
  | push pcm => simp [sessionStep, push, hfail, onCore, hpoll]
  | finish => simp [sessionStep, finish, hfail, onCore, hpoll, hdone rfl]
  | cancel => cases ho

/-- What a session promises to its listener and to its caller, in a state `s`. -/
structure EventProtocol (env : Env α σ) (p : Params) (s : Session α σ) : Prop where
  /-- `CHUNK` events carry the indices `0, 1, 2, …`. -/
  indices : (events s.core.log).filterMap Event.chunkIndex = List.range s.core.chunks
  /-- The deltas of a completed chunk join to its text. -/
  deltas : ∀ i text n stop lo hi kv, .chunk i text n stop lo hi kv ∈ events s.core.log →
    ((events s.core.log).filterMap (Event.deltaText i)).flatten = text
  /-- `DONE` carries all the texts of the chunks, which is the transcript. -/
  done : ∀ n text total, .done n text total ∈ events s.core.log →
    text = ((events s.core.log).filterMap Event.chunkText).flatten ∧ text = s.core.transcript
  /-- Nothing follows a `DONE` or an `ERROR`. -/
  terminal : ∀ pre e post, events s.core.log = pre ++ e :: post → e.terminal = true → post = []
  /-- A failure is final, unless a push came after `DONE`. -/
  failure : ∀ o e s', sessionStep env p s o = some (.error e, s') →
    (∀ ops t, run (sessionStep env p) s' ops = some t → t.core.log = s'.core.log ∧
      ∀ o', o'.Feeds → sessionStep env p t o' = some (.error e, t)) ∨
    (s.core.failed = none ∧ s.core.done = true ∧ (∃ pcm, o = .push pcm) ∧ e = .invalidArg ∧
      ∃ w, s' = { s with core := { s.core with world := w, cancel := false } })
  /-- An `ERROR` carries the status of the session, which is not a cancel. -/
  error : ∀ i st text, .error i st text ∈ events s.core.log →
    s.core.failed = some st ∧ st ≠ .cancelled
  /-- A cancel emits nothing. -/
  cancel : s.core.failed = none → s.core.cancel = true → ∀ o, o.Feeds →
    (o = .finish → s.core.done = false) → ∃ s',
      sessionStep env p s o = some (.error .cancelled, s') ∧ s'.core.log = s.core.log
  /-- Finishing again changes nothing, also when a cancel comes in between. -/
  finish : ∀ r s' ops t, sessionStep env p s .finish = some (r, s') → (∀ o ∈ ops, o = .cancel) →
    run (sessionStep env p) s' ops = some t → sessionStep env p t .finish = some (r, t)

/-- The state after a finish answers the next one alike. -/
lemma sessionStep_finished {s : Session α σ} (hfail : s.core.failed = none)
    (hdone : s.core.done = true) : sessionStep env p s .finish = some (.ok (), s) := by
  simp [sessionStep, finish, hfail, hdone]

/-- A call that fails ends the session with its status, unless it is a push after `DONE`. -/
lemma Kept.failure {s s' : Session α σ} {o : SessionOp α} {e : Status} (h : Kept s)
    (hstep : sessionStep env p s o = some (.error e, s')) :
    s'.core.failed = some e ∨
    (s.core.failed = none ∧ s.core.done = true ∧ (∃ pcm, o = .push pcm) ∧ e = .invalidArg ∧
      ∃ w, s' = { s with core := { s.core with world := w, cancel := false } }) := by
  cases o with
  | push pcm =>
    have hpost := push_post env p h pcm
    rw [Option.some.inj hstep] at hpost
    obtain ⟨-, hfailed | ⟨hfail, hdone⟩⟩ := hpost
    · exact .inl hfailed
    · cases hcancel : s.core.cancel || (env.cancelArrives s.core.world).1 with
      | true =>
        obtain ⟨t, ht, -, hfailed⟩ :=
          sessionStep_cancelled env p hfail hcancel (o := .push pcm) trivial (by simp)
        rw [ht] at hstep
        cases hstep
        exact .inl hfailed
      | false =>
        rw [sessionStep_done hfail hdone hcancel] at hstep
        cases hstep
        exact .inr ⟨hfail, hdone, ⟨pcm, rfl⟩, rfl, _, rfl⟩
  | finish =>
    have hpost := (finish_triple : Triple _ (finish env p) _ _) s h
    rw [Option.some.inj hstep] at hpost
    exact .inl hpost.2
  | cancel => cases hstep

/-- Cancels between the calls change nothing but the flag. -/
lemma run_cancels {s t : Session α σ} {ops : List (SessionOp α)} (hops : ∀ o ∈ ops, o = .cancel)
    (hrun : run (sessionStep env p) s ops = some t) :
    t.core.failed = s.core.failed ∧ t.core.done = s.core.done := by
  induction ops generalizing s with
  | nil =>
    cases hrun
    exact ⟨rfl, rfl⟩
  | cons o ops ih =>
    rw [hops o (by simp)] at hrun
    rw [run_cons, sessionStep, Option.bind_some] at hrun
    have hrest := ih (fun o ho => hops o (by simp [ho])) hrun
    exact hrest

/-- **The event protocol of a session**: for every backend, allocator, callback and sequence of
calls. -/
theorem session_protocol {w : σ} {ops : List (SessionOp α)} {s : Session α σ}
    (h : sessionRun env p w ops = some s) : EventProtocol env p s := by
  obtain ⟨s₀, hopen, hrun⟩ := (sessionRun_eq_some env p).mp h
  have hkept := Kept.reachable hopen ⟨ops, hrun⟩
  obtain ⟨l, hcons, hrest⟩ := id hkept
  have hheard : Heard (events s.core.log) l := Heard.of_follows hcons.follows
  have hchunks : s.core.chunks = l.chunks.length := hcons.chunks
  have htranscript : s.core.transcript = l.chunks.flatten := hcons.transcript
  constructor
  · rw [hheard.indices, hchunks]
  · intro i text n stop lo hi kv hmem
    have hi := hheard.chunk i text n stop lo hi kv hmem
    rw [hheard.deltas, List.getElem?_append_left (List.getElem?_eq_some_iff.mp hi).1, hi]
    rfl
  · intro n text total hmem
    obtain ⟨-, htext⟩ := hheard.done n text total hmem
    exact ⟨by rw [hheard.texts, htext], by rw [htranscript, htext]⟩
  · exact hheard.last
  · intro o e s' hstep
    refine (hkept.failure hstep).imp_left fun hfailed ops t hrun => ?_
    obtain ⟨ht, hlog⟩ := run_failed hfailed hrun
    exact ⟨hlog, fun o' ho' => sessionStep_failed ht ho'⟩
  · exact fun i st text hmem => ⟨hcons.errors i st text hmem, hheard.errors i st text hmem⟩
  · intro hfail hcancel o ho hdone
    obtain ⟨s', hstep, hlog, -⟩ :=
      sessionStep_cancelled env p hfail (by rw [hcancel, Bool.true_or]) ho hdone
    exact ⟨s', hstep, hlog⟩
  · intro r s' ops t hstep hops hrun
    obtain ⟨htfail, htdone⟩ := run_cancels hops hrun
    have hpost := (finish_triple : Triple _ (finish env p) _ _) s hkept
    rw [Option.some.inj hstep] at hpost
    cases r with
    | error e => exact sessionStep_failed (htfail.trans hpost.2) trivial
    | ok u => exact sessionStep_finished (htfail.trans hpost.2.1) (htdone.trans hpost.2.2)

end Run

/-- Two chunks in a cache of twenty positions. -/
theorem session_protocol_counting :
    ∃ s, sessionRun (countingEnv 20 true false) (smallParams true) 0
        [.push (some [5, 6, 7]), .finish] = some s ∧ s.core.chunks = 2 ∧
      EventProtocol (countingEnv 20 true false) (smallParams true) s := by
  have hrun : (sessionRun (countingEnv 20 true false) (smallParams true) 0
      [.push (some [5, 6, 7]), .finish]).map (·.core.chunks) = some 2 := by decide +kernel
  obtain ⟨s, hs, hchunks⟩ := Option.map_eq_some_iff.mp hrun
  exact ⟨s, hs, hchunks, session_protocol hs⟩

/-- A push after `DONE` fails, and the finish after it does not. -/
theorem push_after_done :
    sessionAnswers (countingEnv 20 true false) (smallParams true) 0
      [.finish, .push (some [5]), .finish] = .ok [.ok (), .error .invalidArg, .ok ()] := by
  decide +kernel

end VibeVoice.Stream
