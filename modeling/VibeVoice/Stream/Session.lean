import VibeVoice.Lib.Machine
import VibeVoice.Lib.Prog
import VibeVoice.Stream.Chunker
import VibeVoice.Stream.Layout
import VibeVoice.Stream.Text

/-!
A streaming session (`stream.c`): windows come out of the chunker, each one is prefilled and
decoded to a stop, and the events go to the callback.

Everything outside of the session answers from a world of type `σ`: the backend, the allocator,
the threads that may call `vv_stream_cancel`, and the callback, which may call it too.  The
functions of the source are programs over the state of the session; an early `return` with a
status is a failure of the program.  Times are left out, and the seconds of an event are kept
as sample counts.

* `openBackend`, `push`, `finish`: the entry points.
* `sessionStep`: the machine of the calls on an open session.
* `Core.log`: what the session did, in order, with the world around every backend call.
-/

namespace VibeVoice.Stream

open Prog

/-- `vv_stream_stop_t`. -/
inductive Stop
  | chunkEnd | eos | maxTokens
  deriving DecidableEq, Repr

/-- `vv_stream_event_t`. -/
inductive Event
  | delta (chunk : ℕ) (text : List UInt8)
  | chunk (index : ℕ) (text : List UInt8) (nTokens : ℕ) (stop : Stop)
      (audioStart audioEnd kvLen : ℤ)
  | done (chunks : ℕ) (text : List UInt8) (total : ℕ)
  | error (chunk : ℤ) (status : Status) (text : String)
  deriving DecidableEq, Repr

/-- `vv_stream_chunk_t`, with the samples of the window. -/
structure Chunk (α : Type) where
  index : ℕ
  startSample : ℕ
  nValid : ℕ
  nFrames : ℤ
  rows : List ℤ
  featOffset : ℕ
  samples : List α

/-- A call of a backend function. -/
inductive Call (α : Type)
  | tokenBytes (tok : ℤ)
  | prefillPrompt (ids : List ℤ)
  | prefillChunk (chunk : Chunk α)
  | decodeStep (tok : ℤ)
  | encodeAhead (first : ℕ) (windows : List (List α))
  | appendTokens (ids : List ℤ)

/-- `vv_stream_backend_t`; the last four functions may be missing. -/
structure Backend (α σ : Type) where
  encodeText : String → Program Status σ (List ℤ)
  tokenBytes : ℤ → Program Status σ (List UInt8)
  prefillPrompt : List ℤ → Program Status σ Unit
  prefillChunk : Chunk α → Program Status σ ℤ
  decodeStep : ℤ → Program Status σ ℤ
  encodeAhead : Option (ℕ → List (List α) → Program Status σ Unit)
  appendTokens : Option (List ℤ → Program Status σ Unit)
  kvLen : Option (σ → ℤ)
  kvCapacity : Option (σ → ℤ)

/-- The world of a session: the backend, whether an allocation succeeds, the block that a
growing audio buffer gets, whether another thread has cancelled by now, and whether the callback
cancels when it is given an event. -/
structure Env (α σ : Type) extends Backend α σ where
  alloc : σ → Bool × σ
  block : σ → Block α × σ
  cancelArrives : σ → Bool × σ
  onEvent : Event → σ → Bool × σ

/-- What a session did: it emitted an event, or called the backend and got a status (`none` for
`VV_OK`). -/
inductive Entry (α σ : Type)
  | event (ev : Event) (world : σ)
  | call (c : Call α) (status : Option Status) (before after : σ)

/-- The part of `vv_stream` that a chunk works on, the counters of `vv_stream_stats_t` and the
log. -/
structure Core (α σ : Type) where
  world : σ
  text : Text
  chunkText : List UInt8
  transcript : List UInt8
  pendingLead : ℤ
  failed : Option Status
  done : Bool
  cancel : Bool
  chunks : ℕ
  tokens : ℕ
  prefillRows : ℕ
  promptTokens : ℕ
  log : List (Entry α σ)

/-- `vv_stream`: the chunker, and whether the buffer for windows ahead is there. -/
structure Session (α σ : Type) where
  core : Core α σ
  chunker : Chunker α
  ahead : Bool

/-- A program on the core of a session. -/
abbrev Act (α σ β : Type) := Program Status (Core α σ) β

variable {α σ β : Type} (env : Env α σ) (p : Params)

/-! ### The world -/

/-- The status of a call. -/
def statusOf : Except Status β → Option Status
  | .ok _ => none
  | .error e => some e

/-- A program on the world. -/
def onWorld (f : Program Status σ β) : Act α σ β :=
  zoom Core.world (fun w s => { s with world := w }) f

/-- A call of a backend function, with its entry in the log. -/
def call (c : Call α) (f : Program Status σ β) : Act α σ β :=
  fun s => ((exec f s.world).1, { s with
    world := (exec f s.world).2
    log := s.log ++ [.call c (statusOf (exec f s.world).1) s.world (exec f s.world).2] })

/-- `emit`. -/
def emit (ev : Event) : Act α σ Unit :=
  fun s => (.ok (), { s with
    world := (env.onEvent ev s.world).2
    cancel := s.cancel || (env.onEvent ev s.world).1
    log := s.log ++ [.event ev s.world] })

/-- `cancelled`. -/
def cancelled : Act α σ Bool :=
  fun s => (.ok (s.cancel || (env.cancelArrives s.world).1), { s with
    world := (env.cancelArrives s.world).2
    cancel := s.cancel || (env.cancelArrives s.world).1 })

/-- An allocation, `VV_ERR_OUT_OF_MEMORY` when it fails. -/
def allocate : Act α σ Unit :=
  fun s => (if (env.alloc s.world).1 then .ok () else .error .outOfMemory,
    { s with world := (env.alloc s.world).2 })

/-- The block an audio buffer gets. -/
def takeBlock : Act α σ (Block α) :=
  fun s => (.ok (env.block s.world).1, { s with world := (env.block s.world).2 })

@[simp] lemma exec_call (c : Call α) (f : Program Status σ β) (s : Core α σ) :
    exec (call c f) s = ((exec f s.world).1, { s with
      world := (exec f s.world).2
      log := s.log ++ [.call c (statusOf (exec f s.world).1) s.world (exec f s.world).2] }) := rfl

@[simp] lemma exec_emit (ev : Event) (s : Core α σ) :
    exec (emit env ev) s = (.ok (), { s with
      world := (env.onEvent ev s.world).2
      cancel := s.cancel || (env.onEvent ev s.world).1
      log := s.log ++ [.event ev s.world] }) := rfl

@[simp] lemma exec_cancelled (s : Core α σ) :
    exec (cancelled env) s = (.ok (s.cancel || (env.cancelArrives s.world).1), { s with
      world := (env.cancelArrives s.world).2
      cancel := s.cancel || (env.cancelArrives s.world).1 }) := rfl

@[simp] lemma exec_allocate (s : Core α σ) :
    exec (allocate env) s = (if (env.alloc s.world).1 then .ok () else .error .outOfMemory,
      { s with world := (env.alloc s.world).2 }) := rfl

@[simp] lemma exec_takeBlock (s : Core α σ) :
    exec (takeBlock env) s =
      (.ok (env.block s.world).1, { s with world := (env.block s.world).2 }) := rfl

/-- `kv_len`. -/
def kvLen (s : Core α σ) : ℤ := (env.kvLen.map fun f => f s.world).getD 0

/-- `kv_cap`. -/
def kvCap (s : Core α σ) : ℤ := (env.kvCapacity.map fun f => f s.world).getD (2 ^ 63 - 1)

/-- `kv_fits`. -/
def kvFits (s : Core α σ) (n : ℤ) : Prop := kvLen env s + n ≤ kvCap env s

instance (s : Core α σ) (n : ℤ) : Decidable (kvFits env s n) := inferInstanceAs (Decidable (_ ≤ _))

/-! ### A chunk -/

/-- `fail`. -/
def fail (st : Status) (chunk : ℤ) : Act α σ β := do
  let s ← get
  match s.failed with
  | some e => throw e
  | none =>
    modify fun s => { s with failed := some st }
    if st = .cancelled then throw st
    else
      emit env (.error chunk st (statusStr st))
      throw st

/-- `if (cancelled(s))`. -/
def checkCancelled : Act α σ Unit := do
  let c ← cancelled env
  failIf (c = true) .cancelled

/-- `if (!kv_fits(s, n))`. -/
def checkFits (n : ℤ) : Act α σ Unit := do
  let s ← get
  failIf (¬ kvFits env s n) .overflow

/-- `emit_delta`. -/
def emitDelta (chunk : ℕ) (d : List UInt8) : Act α σ Unit :=
  if d = [] then pure ()
  else do
    allocate env
    modify fun s => { s with chunkText := s.chunkText ++ d }
    emit env (.delta chunk d)

/-- A step of the text emitter, which allocates, and the event for its delta. -/
def stepText (chunk : ℕ) (step : Text → Text) : Act α σ Unit := do
  allocate env
  modify fun s => { s with text := step s.text }
  let s ← get
  emitDelta env chunk s.text.out

/-- The layout of a chunk, with the row buffer of the session. -/
def layoutRows (lead : ℤ) : Option (List ℤ × ℕ) :=
  chunkLayout p.ids lead (windowFrames p.geom).toInt ((windowFrames p.geom).toInt + 3)

/-- What `run_chunk` hands to the backend. -/
def chunkOf (w : Window α) (r : List ℤ × ℕ) : Chunk α where
  index := w.index
  startSample := w.start
  nValid := w.nValid
  nFrames := (windowFrames p.geom).toInt
  rows := r.1
  featOffset := r.2
  samples := w.samples

/-- `run_chunk` from the layout of its rows to the first token. -/
def prefillRows (w : Window α) (r : List ℤ × ℕ) : Act α σ ℤ := do
  checkCancelled env
  -- the rows, and the chunk end that has to follow them
  checkFits env (r.1.length + 1)
  let tok ← call (.prefillChunk (chunkOf p w r)) (env.prefillChunk (chunkOf p w r))
  modify fun s => { s with
    pendingLead := -1
    prefillRows := s.prefillRows + r.1.length
    chunkText := [] }
  pure tok

/-- `run_chunk` up to the first token. -/
def prefill (w : Window α) : Act α σ ℤ := do
  let s ← get
  match layoutRows p s.pendingLead with
  | none => throw .invalidArg
  | some r => prefillRows env p w r

/-- The growth of the id buffer, which starts on the stack with 256 cells. -/
def growGen (nGen genCap : ℕ) : Act α σ ℕ :=
  if nGen = genCap then do
    allocate env
    pure (genCap * 2)
  else pure genCap

/-- One generated token: its text goes out, then it is fed. -/
def feedToken (chunk : ℕ) (tok : ℤ) : Act α σ ℤ := do
  modify fun s => { s with tokens := s.tokens + 1 }
  let bytes ← call (.tokenBytes tok) (env.tokenBytes tok)
  stepText env chunk (textPush · bytes)
  checkCancelled env
  checkFits env 2
  call (.decodeStep tok) (env.decodeStep tok)

/-- The decode loop: the number of ids generated and why it stopped. -/
def decode (chunk : ℕ) : ℕ → ℤ → ℕ → ℕ → Act α σ (ℕ × Stop)
  | 0, _, nGen, _ => pure (nGen, .maxTokens)
  | left + 1, tok, nGen, genCap =>
    if tok = p.ids.textChunkEnd then pure (nGen, .chunkEnd)
    else if tok = p.ids.eos then pure (nGen, .eos)
    else do
      let genCap ← growGen env nGen genCap
      let next ← feedToken env chunk tok
      decode chunk left next (nGen + 1) genCap

/-- The chunk end: fed now, or held for the next chunk. -/
def endChunk : Act α σ Unit :=
  match env.appendTokens with
  | none => modify fun s => { s with pendingLead := p.ids.textChunkEnd }
  | some append =>
    if p.foldChunkEnd then modify fun s => { s with pendingLead := p.ids.textChunkEnd }
    else call (.appendTokens [p.ids.textChunkEnd]) (append [p.ids.textChunkEnd])

/-- The end of `run_chunk`: the transcript, the counters and the event. -/
def commitChunk (w : Window α) (r : ℕ × Stop) : Act α σ Unit := do
  allocate env
  modify fun s => { s with transcript := s.transcript ++ s.chunkText, chunks := s.chunks + 1 }
  let s ← get
  emit env (.chunk w.index s.chunkText r.1 r.2 w.start (w.start + chunkSamples p.geom)
    (kvLen env s))
  checkCancelled env

/-- `run_chunk` with its failures still to be reported. -/
def chunkBody (w : Window α) : Act α σ Unit := do
  let tok ← prefill env p w
  let r ← decode env p w.index p.maxNewTokens.toNat tok 0 256
  stepText env w.index textFlush
  endChunk env p
  commitChunk env p w r

/-- `return fail(s, st, chunk)` for the failures of a program. -/
def report (chunk : ℤ) (act : Act α σ β) : Act α σ β := tryCatch act fun st => fail env st chunk

/-- A cancel that is noticed between chunks ends the session, without an event. -/
lemma exec_report_checkCancelled {s : Core α σ} (h : s.failed = none) (chunk : ℤ) :
    exec (report env chunk (checkCancelled env)) s =
      if s.cancel || (env.cancelArrives s.world).1 then
        (.error .cancelled, { s with
          world := (env.cancelArrives s.world).2
          cancel := true
          failed := some .cancelled })
      else (.ok (), { s with world := (env.cancelArrives s.world).2, cancel := false }) := by
  cases hflag : s.cancel || (env.cancelArrives s.world).1 <;>
    simp [report, checkCancelled, failIf, fail, h, hflag]

/-- `run_chunk`. -/
def runChunk (w : Window α) : Act α σ Unit := report env w.index (chunkBody env p w)

/-- The chunks of windows encoded together. -/
def runChunks : List (Window α) → Act α σ Unit
  | [] => pure ()
  | w :: ws => do
      runChunk env p w
      runChunks ws

/-! ### The session -/

/-- A program on the core. -/
def onCore (act : Act α σ β) : Program Status (Session α σ) β :=
  zoom Session.core (fun c s => { s with core := c }) act

/-- A program on the core leaves the chunker as it is. -/
lemma onCore_post {act : Act α σ β} {s : Session α σ} {Q : β → Session α σ → Prop}
    {E : Status → Session α σ → Prop}
    (h : Post (fun a t => Q a { s with core := t }) (fun e t => E e { s with core := t })
      (exec act s.core)) : Post Q E (exec (onCore act) s) := by
  rw [onCore, exec_zoom]
  revert h
  rcases exec act s.core with ⟨e | a, t⟩ <;> exact id

/-- `VV_STREAM_AHEAD_MAX`. -/
def aheadMax : ℕ := 8

/-- The buffer for windows ahead, allocated when it is first needed. -/
def aheadBuffer : Program Status (Session α σ) Unit := do
  let s ← get
  if s.ahead then pure ()
  else
    onCore (report env (-1) (allocate env))
    modify fun s => { s with ahead := true }

/-- Several windows at once: they are encoded together, then their chunks run. -/
def drainAhead [Zero α] (encode : ℕ → List (List α) → Program Status σ Unit) :
    Program Status (Session α σ) Unit := do
  aheadBuffer env
  let s ← get
  let ws := (popUpTo aheadMax s.chunker).1
  let first := (ws.head?.map Window.index).getD 0
  modify fun s => { s with chunker := (popUpTo aheadMax s.chunker).2 }
  onCore (report env first (call (.encodeAhead first (ws.map Window.samples))
    (encode first (ws.map Window.samples))))
  onCore (runChunks env p ws)

/-- One window. -/
def drainOne [Zero α] : Program Status (Session α σ) Unit := do
  let s ← get
  match chunkerNext s.chunker with
  | none => pure ()
  | some (w, c) =>
    modify fun s => { s with chunker := c }
    onCore (runChunk env p w)

/-- A round of `drain`, with `ready` windows. -/
def drainRound [Zero α] (ready : ℕ) : Program Status (Session α σ) Unit :=
  match env.encodeAhead with
  | none => drainOne env p
  | some encode => if 2 ≤ ready then drainAhead env p encode else drainOne env p

/-- The loop of `drain`; a round takes at least one window, so there are as many rounds as ready
windows at most. -/
def drainLoop [Zero α] : ℕ → Program Status (Session α σ) Unit
  | 0 => pure ()
  | n + 1 => do
      let s ← get
      if chunkerReady s.chunker = 0 then pure ()
      else
        onCore (report env (-1) (checkCancelled env))
        drainRound env p (chunkerReady s.chunker)
        drainLoop n

/-- `drain`. -/
def drain [Zero α] : Program Status (Session α σ) Unit := do
  let s ← get
  drainLoop env p (chunkerReady s.chunker)

/-- `vv_stream_push`. -/
def push [Zero α] (pcm : Option (List α)) : Program Status (Session α σ) Unit := do
  let s ← get
  match s.core.failed with
  | some e => throw e
  | none =>
    onCore (report env (-1) (checkCancelled env))
    failIf (s.core.done = true) .invalidArg
    let mem ← onCore (takeBlock env)
    match chunkerPush s.chunker pcm mem with
    | .error st => onCore (report env (-1) (throw st))
    | .ok c =>
      modify fun s => { s with chunker := c }
      drain env p

/-- The end of `vv_stream_finish`. -/
def emitDone (total : ℕ) : Act α σ Unit := do
  modify fun s => { s with done := true }
  let s ← get
  emit env (.done s.chunks s.transcript total)

/-- `vv_stream_finish`. -/
def finish [Zero α] : Program Status (Session α σ) Unit := do
  let s ← get
  match s.core.failed with
  | some e => throw e
  | none =>
    if s.core.done then pure ()
    else
      onCore (report env (-1) (checkCancelled env))
      modify fun s => { s with chunker := chunkerFinish s.chunker }
      drain env p
      let s ← get
      onCore (emitDone env s.chunker.total)

/-- The state `vv_stream_open_backend` starts to fill. -/
def Core.fresh (w : σ) : Core α σ where
  world := w
  text := textCreate
  chunkText := []
  transcript := []
  pendingLead := -1
  failed := none
  done := false
  cancel := false
  chunks := 0
  tokens := 0
  prefillRows := 0
  promptTokens := 0
  log := []

/-- `n` allocations. -/
def allocateAll : ℕ → Act α σ Unit
  | 0 => pure ()
  | n + 1 => do
      allocate env
      allocateAll n

/-- The chunker of a session. -/
def openChunker : Act α σ (Chunker α) := do
  let mem ← takeBlock env
  match chunkerCreate p.geom mem with
  | .error st => throw st
  | .ok c => pure c

/-- The prompt of `vv_stream_open_backend`. -/
def openPrompt : Act α σ Unit := do
  let ids ← onWorld (env.encodeText (promptText p.contextInfo))
  let s ← get
  failIf (env.kvCapacity.isSome ∧ kvCap env s < ids.length + 1) .overflow
  call (.prefillPrompt ids) (env.prefillPrompt ids)
  modify fun s => { s with promptTokens := ids.length }

/-- The allocations and the prompt of `vv_stream_open_backend`. -/
def openBody : Act α σ (Chunker α) := do
  -- the session and the copy of the context
  allocateAll env (if p.contextInfo.isSome then 2 else 1)
  let c ← openChunker env p
  -- the text emitter, the window, the rows, the two string buffers, the prompt
  allocateAll env 6
  openPrompt env p
  pure c

/-- `vv_stream_open_backend`. -/
def openBackend (w : σ) : Except Status (Session α σ) :=
  if p.maxNewTokens ≤ 0 then .error .invalidArg
  else if p.ids.textChunkEnd < 0 ∨ p.ids.speechStart < 0 ∨ p.ids.speechEnd < 0 then
    .error .invalidArg
  else
    match geomValidate p.geom with
    | .error st => .error st
    | .ok () =>
      match exec (openBody env p) (Core.fresh w) with
      | (.error st, _) => .error st
      | (.ok c, core) => .ok { core := core, chunker := c, ahead := false }

/-- What opening a session checks. -/
lemma openBackend_ok {w : σ} {s : Session α σ} (h : openBackend env p w = .ok s) :
    0 < p.maxNewTokens ∧ (0 ≤ p.ids.textChunkEnd ∧ 0 ≤ p.ids.speechStart ∧ 0 ≤ p.ids.speechEnd) ∧
      geomValidate p.geom = .ok () ∧
      exec (openBody env p) (Core.fresh w) = (.ok s.chunker, s.core) ∧ s.ahead = false := by
  simp only [openBackend] at h
  split_ifs at h with htokens hids
  cases hgeom : geomValidate p.geom with
  | error st =>
    rw [hgeom] at h
    cases h
  | ok u =>
    rw [hgeom] at h
    rcases hexec : exec (openBody env p) (Core.fresh w) with ⟨st | c, core⟩
    · rw [hexec] at h
      cases h
    · rw [hexec] at h
      cases h
      simp only [not_or, not_lt] at hids
      exact ⟨not_le.mp htokens, hids, rfl, rfl, rfl⟩

/-- The chunker of an open session is a new one. -/
lemma openBackend_chunker {w : σ} {s : Session α σ} (h : openBackend env p w = .ok s) :
    ∃ mem, chunkerCreate p.geom mem = .ok s.chunker := by
  obtain ⟨_, _, _, hexec, _⟩ := openBackend_ok env p h
  have hbody : Triple (fun _ => True) (openBody env p)
      (fun c _ => ∃ mem, chunkerCreate p.geom mem = .ok c) fun _ _ => True := by
    refine Triple.bind (Triple.true _) fun _ => ?_
    refine Triple.bind (R := fun c _ => ∃ mem, chunkerCreate p.geom mem = .ok c) ?_ fun c t hc => ?_
    · intro t _
      rw [openChunker, exec_bind, exec_takeBlock]
      cases hcreate : chunkerCreate p.geom (env.block t.world).1 with
      | error st => simp [hcreate]
      | ok c => simpa [hcreate] using ⟨_, hcreate⟩
    · refine Triple.bind (P := fun _ => True) (Triple.true _) (fun _ => ?_) t trivial
      exact Triple.bind (Triple.true _) fun _ => Triple.pure fun _ _ => hc
  have hpost := hbody (Core.fresh w) trivial
  rwa [hexec] at hpost

/-- The rule of opening: the core ends as the prompt leaves it, when the allocations keep what the
prompt starts from. -/
lemma openBackend_post {P Q : Core α σ → Prop} {w : σ} {s : Session α σ}
    (halloc : ∀ t, P t → P { t with world := (env.alloc t.world).2 })
    (hblock : ∀ t, P t → P { t with world := (env.block t.world).2 })
    (hprompt : Triple P (openPrompt env p) (fun _ => Q) fun _ _ => True)
    (hfresh : P (Core.fresh w)) (h : openBackend env p w = .ok s) : Q s.core := by
  obtain ⟨_, _, _, hexec, _⟩ := openBackend_ok env p h
  have hall : ∀ n, Triple P (allocateAll env n) (fun _ => P) fun _ _ => True := by
    intro n
    induction n with
    | zero => exact Triple.pure fun _ ht => ht
    | succ n ih =>
      refine Triple.bind (R := fun _ => P) (fun t ht => ?_) fun _ => ih
      rw [exec_allocate]
      split_ifs
      · exact halloc t ht
      · trivial
  have hchunker : Triple P (openChunker env p) (fun _ => P) fun _ _ => True := by
    refine Triple.bind (R := fun _ => P) (fun t ht => hblock t ht) fun mem => ?_
    cases chunkerCreate p.geom mem with
    | error st => exact Triple.throw fun _ _ => trivial
    | ok c => exact Triple.pure fun _ ht => ht
  have hbody : Triple P (openBody env p) (fun _ => Q) fun _ _ => True :=
    Triple.bind (hall _) fun _ => Triple.bind hchunker fun _ => Triple.bind (hall 6) fun _ =>
      Triple.bind hprompt fun _ => Triple.pure fun _ ht => ht
  have hpost := hbody (Core.fresh w) hfresh
  rwa [hexec] at hpost

/-- A call on an open session. -/
inductive SessionOp (α : Type)
  | push (pcm : Option (List α))
  | finish
  | cancel

/-- The machine of the calls on a session; every call is answered. -/
def sessionStep [Zero α] (s : Session α σ) : SessionOp α →
    Option (Except Status Unit × Session α σ)
  | .push pcm => some (exec (push env p pcm) s)
  | .finish => some (exec (finish env p) s)
  | .cancel => some (.ok (), { s with core := { s.core with cancel := true } })

/-- Open a session and make some calls. -/
def sessionRun [Zero α] (w : σ) (ops : List (SessionOp α)) : Option (Session α σ) :=
  (openBackend env p w).toOption.bind fun s => Machine.run (sessionStep env p) s ops

lemma sessionRun_eq_some [Zero α] {w : σ} {ops : List (SessionOp α)} {s : Session α σ} :
    sessionRun env p w ops = some s ↔
      ∃ s₀, openBackend env p w = .ok s₀ ∧ Machine.run (sessionStep env p) s₀ ops = some s := by
  rw [sessionRun]
  cases openBackend env p w with
  | error e => simp [Except.toOption]
  | ok s₀ => simp [Except.toOption]

/-- Open a session and collect the statuses of some calls. -/
def sessionAnswers [Zero α] (w : σ) (ops : List (SessionOp α)) :
    Except Status (List (Except Status Unit)) :=
  (openBackend env p w).map fun s => Machine.outputs (sessionStep env p) s ops

/-! ### A session to try -/

/-- A backend whose world is the number of positions in its cache.  Every chunk says `A`, and the
cache holds `cap` positions. -/
def countingEnv (cap : ℤ) (batched appends : Bool) : Env ℤ ℕ where
  encodeText _ := pure [7]
  tokenBytes _ := pure [0x41]
  prefillPrompt ids := modify (· + ids.length)
  prefillChunk c := do
    modify (· + c.rows.length)
    pure 65
  decodeStep _ := do
    modify (· + 1)
    pure 3
  encodeAhead := if batched then some fun _ _ => pure () else none
  appendTokens := if appends then some fun ids => modify (· + ids.length) else none
  kvLen := some fun n => n
  kvCapacity := some fun _ => cap
  alloc n := (true, n)
  block n := (some fun _ => 0, n)
  cancelArrives n := (false, n)
  onEvent _ n := (false, n)

/-- Chunks of two samples with one of lookahead. -/
def smallParams (fold : Bool) : Params where
  geom := ⟨1, 1, 2, 1, false⟩
  ids := ⟨1, 2, 3, 4⟩
  contextInfo := none
  maxNewTokens := 4
  foldChunkEnd := fold

end VibeVoice.Stream
