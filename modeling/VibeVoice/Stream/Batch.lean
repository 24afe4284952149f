import VibeVoice.Stream.Events
import VibeVoice.Stream.Lockstep

/-!
How a stream is pushed, and how many windows are encoded together, does not show.

The reference is the upstream loop over the whole stream: every window is encoded in its own
prefill, one after another.  A session that encodes ahead keeps what the encoder made of the windows
of a batch; apart from that its core is the one of the loop (`seen`), chunk by chunk.

* `session_upstream`: a finished session ends as the upstream loop over the stream it was pushed.
* `push_split_invisible`: two splittings, with or without encode-ahead, end alike.
-/

namespace VibeVoice.Stream

open Prog Machine

/-- A deterministic backend with states in `κ`, and the callback.  The encoder works on one window;
what it makes of it, features or a failure, goes into the prefill. -/
structure EncodingBackend (α κ φ : Type) where
  encodeText : String → Program Status κ (List ℤ)
  tokenBytes : ℤ → Program Status κ (List UInt8)
  prefillPrompt : List ℤ → Program Status κ Unit
  encode : List α → φ
  prefill : Chunk α → φ → Program Status κ ℤ
  decodeStep : ℤ → Program Status κ ℤ
  appendTokens : Option (List ℤ → Program Status κ Unit)
  kvLen : Option (κ → ℤ)
  kvCapacity : Option (κ → ℤ)
  onEvent : Event → κ → Bool × κ

/-- What `encode_ahead` left for the chunks from `first` on. -/
structure Encoded (φ : Type) where
  first : ℕ
  features : List φ

/-- The world of a backend that can encode ahead. -/
structure Ahead (κ φ : Type) where
  model : κ
  encoded : Encoded φ

variable {α β κ φ : Type}

/-- What is held for a chunk. -/
def Encoded.lookup (e : Encoded φ) (index : ℕ) : Option φ :=
  if e.first ≤ index then e.features[index - e.first]? else none

/-- A program on the model. -/
def onModel (f : Program Status κ β) : Program Status (Ahead κ φ) β :=
  zoom Ahead.model (fun m w => { w with model := m }) f

/-- The backend with encode-ahead if it is `batched`: a batched encode makes of each window what the
single encode would, and the prefills that follow use it.  Memory does not run out and nobody else
cancels; new cells of a buffer hold `cell`. -/
def aheadEnv (B : EncodingBackend α κ φ) (batched : Bool) (cell : ℕ → α) : Env α (Ahead κ φ) where
  encodeText text := onModel (B.encodeText text)
  tokenBytes tok := onModel (B.tokenBytes tok)
  prefillPrompt ids := onModel (B.prefillPrompt ids)
  prefillChunk c := do
    let w ← get
    onModel (B.prefill c ((w.encoded.lookup c.index).getD (B.encode c.samples)))
  decodeStep tok := onModel (B.decodeStep tok)
  encodeAhead :=
    if batched then
      some fun first ws => modify fun w => { w with encoded := ⟨first, ws.map B.encode⟩ }
    else none
  appendTokens := B.appendTokens.map fun f ids => onModel (f ids)
  kvLen := B.kvLen.map fun f w => f w.model
  kvCapacity := B.kvCapacity.map fun f w => f w.model
  alloc w := (true, w)
  block w := (some cell, w)
  cancelArrives w := (false, w)
  onEvent ev w := ((B.onEvent ev w.model).1, { w with model := (B.onEvent ev w.model).2 })

/-- The backend without encode-ahead. -/
def upstreamEnv [Zero α] (B : EncodingBackend α κ φ) : Env α κ where
  encodeText := B.encodeText
  tokenBytes := B.tokenBytes
  prefillPrompt := B.prefillPrompt
  prefillChunk c := B.prefill c (B.encode c.samples)
  decodeStep := B.decodeStep
  encodeAhead := none
  appendTokens := B.appendTokens
  kvLen := B.kvLen
  kvCapacity := B.kvCapacity
  alloc w := (true, w)
  block w := (some fun _ => 0, w)
  cancelArrives w := (false, w)
  onEvent := B.onEvent

/-- The first `n` windows of the upstream loop. -/
def upstreamWindows [Zero α] (g : Geom) (xs : List α) (n : ℕ) : List (Window α) :=
  (List.range n).map fun i =>
    upstreamWindow (chunkSamples g).toNat (windowSamples g).toNat xs i false

/-- The number of windows of a stream. -/
def windowCount (g : Geom) (xs : List α) : ℕ := xs.length ⌈/⌉ (chunkSamples g).toNat

/-- The upstream loop over a whole stream: a chunk for every window, then `DONE`. -/
def upstreamLoop [Zero α] (B : EncodingBackend α κ φ) (p : Params) (xs : List α) :
    Act α κ Unit := do
  runChunks (upstreamEnv B) p (upstreamWindows p.geom xs (windowCount p.geom xs))
  emitDone (upstreamEnv B) xs.length

/-- The upstream loop on a new session. -/
def upstreamSession [Zero α] (B : EncodingBackend α κ φ) (p : Params) (k : κ) (xs : List α) :
    Option (Core α κ) :=
  (openBackend (upstreamEnv B) p k).toOption.map fun s => (exec (upstreamLoop B p xs) s.core).2

/-! ### What is seen of a core -/

/-- An entry of the log without what is encoded ahead; a batched encode is not seen. -/
def Entry.seen : Entry α (Ahead κ φ) → Option (Entry α κ)
  | .event ev w => some (.event ev w.model)
  | .call (.encodeAhead _ _) _ _ _ => none
  | .call c st w w' => some (.call c st w.model w'.model)

/-- A core without what is encoded ahead: the events, the calls that feed the model and its states
around them, and the rest of the core. -/
def seen (s : Core α (Ahead κ φ)) : Core α κ where
  world := s.world.model
  text := s.text
  chunkText := s.chunkText
  transcript := s.transcript
  pendingLead := s.pendingLead
  failed := s.failed
  done := s.done
  cancel := s.cancel
  chunks := s.chunks
  tokens := s.tokens
  prefillRows := s.prefillRows
  promptTokens := s.promptTokens
  log := s.log.filterMap Entry.seen

/-- `t` is seen of `s`, which holds `e`. -/
def Shows (e : Encoded φ) (s : Core α (Ahead κ φ)) (t : Core α κ) : Prop :=
  seen s = t ∧ s.world.encoded = e

section Chunks

variable {B : EncodingBackend α κ φ} {p : Params} {b : Bool} {m : ℕ → α} {e : Encoded φ}

/-- A call on the model. -/
lemma call_shows {c : Call α} {f : Program Status κ β} {g : Program Status (Ahead κ φ) β}
    (hcall : ∀ st (w w' : Ahead κ φ),
      (Entry.call c st w w').seen = some (.call c st w.model w'.model))
    (hexec : ∀ w, w.encoded = e → exec g w = exec (onModel f) w) :
    Related (Shows e) (call c g) (call c f) (Shows e) (Shows e) := by
  rintro s _ ⟨rfl, he⟩
  have hworld := hexec s.world he
  rw [onModel, exec_zoom] at hworld
  rw [exec_call, exec_call, hworld]
  have hlog : ∀ st w', seen { s with world := w', log := s.log ++ [.call c st s.world w'] } =
      { seen s with
        world := w'.model
        log := (seen s).log ++ [.call c st s.world.model w'.model] } := by
    intro st w'
    simp [seen, hcall]
  dsimp only [seen] at hlog ⊢
  cases hres : (exec f s.world.model).1 with
  | error d => exact ⟨rfl, hlog _ _, he⟩
  | ok a => exact ⟨rfl, hlog _ _, he⟩

variable [Zero α]

/-- A core and what is seen of it are in lockstep. -/
lemma shows_lockstep :
    LockstepModel (aheadEnv B b m) (upstreamEnv B) (Shows e) where
  progress := by
    rintro s _ ⟨rfl, _⟩
    rfl
  update := by
    rintro s _ u ⟨rfl, he⟩
    exact ⟨rfl, he⟩
  allocate := by
    rintro s _ ⟨rfl, he⟩
    exact ⟨rfl, rfl, he⟩
  cancelled := by
    rintro s _ ⟨rfl, he⟩
    exact ⟨rfl, rfl, he⟩
  emit := by
    rintro ev s _ ⟨rfl, he⟩
    refine ⟨rfl, ?_, he⟩
    simp [seen, Entry.seen, aheadEnv, upstreamEnv]
  tokenBytes _ := call_shows (fun _ _ _ => rfl) fun _ _ => rfl
  decodeStep _ := call_shows (fun _ _ _ => rfl) fun _ _ => rfl
  kvLen := by
    rintro s _ ⟨rfl, _⟩
    cases hlen : B.kvLen <;> simp [kvLen, aheadEnv, upstreamEnv, hlen, seen]
  kvCap := by
    rintro s _ ⟨rfl, _⟩
    cases hcap : B.kvCapacity <;> simp [kvCap, aheadEnv, upstreamEnv, hcap, seen]

/-- The prefill finds the features it would make. -/
lemma prefill_shows {w : Window α}
    (hw : (e.lookup w.index).getD (B.encode w.samples) = B.encode w.samples) :
    Related (Shows e) (prefill (aheadEnv B b m) p w) (prefill (upstreamEnv B) p w)
      (Shows e) (Shows e) := by
  have hlock := shows_lockstep (B := B) (e := e) (b := b) (m := m)
  refine Related.get_bind fun s t hst => ?_
  rw [show t.pendingLead = s.pendingLead from hst.1 ▸ rfl]
  cases layoutRows p s.pendingLead with
  | none => exact ⟨rfl, hst⟩
  | some r =>
    refine Related.bind hlock.checkCancelled (fun _ => ?_) s t hst
    refine Related.bind (hlock.checkFits _) fun _ => ?_
    refine Related.bind (call_shows (fun _ _ _ => rfl) fun w' he => ?_) fun tok => ?_
    · show exec (onModel (B.prefill (chunkOf p w r)
        ((w'.encoded.lookup w.index).getD (B.encode w.samples)))) w' = _
      rw [he, hw]
      rfl
    · refine Related.bind (S := Shows e) (Related.modify ?_) fun _ => Related.pure fun _ _ h => h
      rintro u _ ⟨rfl, he⟩
      exact ⟨rfl, he⟩

lemma endChunk_shows : Related (Shows e) (endChunk (aheadEnv B b m) p)
    (endChunk (upstreamEnv B) p) (Shows e) (Shows e) := by
  have hhold : Related (Shows e)
      (modify fun s => { s with pendingLead := p.ids.textChunkEnd } : Act α (Ahead κ φ) PUnit)
      (modify fun s => { s with pendingLead := p.ids.textChunkEnd }) (Shows e) (Shows e) := by
    refine Related.modify ?_
    rintro s _ ⟨rfl, he⟩
    exact ⟨rfl, he⟩
  rw [endChunk, endChunk]
  cases happend : B.appendTokens with
  | none =>
    have hahead : (aheadEnv B b m).appendTokens = none := congrArg (Option.map _) happend
    have hupstream : (upstreamEnv B).appendTokens = none := happend
    rw [hahead, hupstream]
    exact hhold
  | some append =>
    have hahead : (aheadEnv B b m).appendTokens = some fun ids => onModel (append ids) :=
      congrArg (Option.map _) happend
    have hupstream : (upstreamEnv B).appendTokens = some append := happend
    rw [hahead, hupstream]
    exact Related.ite Iff.rfl (fun _ => hhold) fun _ =>
      call_shows (fun _ _ _ => rfl) fun _ _ => rfl

lemma commitChunk_shows (w : Window α) (r : ℕ × Stop) :
    Related (Shows e) (commitChunk (aheadEnv B b m) p w r)
      (commitChunk (upstreamEnv B) p w r) (Shows e) (Shows e) := by
  have hlock := shows_lockstep (B := B) (e := e) (b := b) (m := m)
  refine Related.bind hlock.allocate fun _ => ?_
  refine Related.bind (hlock.modify fun F => { F with
    transcript := F.transcript ++ F.chunkText, chunks := F.chunks + 1 }) fun _ => ?_
  refine Related.get_bind fun s t hst => ?_
  rw [← hlock.kvLen hst, show t.chunkText = s.chunkText from hst.1 ▸ rfl]
  exact Related.bind (hlock.emit _) (fun _ => hlock.checkCancelled) s t hst

/-- **A chunk** is seen as the upstream one, whether its window was encoded ahead or not. -/
lemma runChunk_shows {w : Window α}
    (hw : (e.lookup w.index).getD (B.encode w.samples) = B.encode w.samples) :
    Related (Shows e) (runChunk (aheadEnv B b m) p w) (runChunk (upstreamEnv B) p w)
      (Shows e) (Shows e) := by
  have hlock := shows_lockstep (B := B) (e := e) (b := b) (m := m)
  refine hlock.report (Related.bind (prefill_shows hw) fun tok => ?_) w.index
  refine Related.bind (hlock.decode rfl w.index _ tok 0 256) fun r => ?_
  refine Related.bind (hlock.stepText w.index textFlush) fun _ => ?_
  exact Related.bind endChunk_shows fun _ => commitChunk_shows w r

end Chunks

/-! ### The windows in order -/

lemma runChunks_append {σ : Type} (env : Env α σ) (p : Params) (ws vs : List (Window α))
    (s : Core α σ) : exec (runChunks env p (ws ++ vs)) s =
      exec (do runChunks env p ws; runChunks env p vs) s := by
  induction ws generalizing s with
  | nil => rfl
  | cons w ws ih =>
    simp only [List.cons_append, runChunks, exec_bind]
    rcases exec (runChunk env p w) s with ⟨e | _, t⟩
    · rfl
    · simpa using ih t

/-- A chunk that succeeds has seen no cancel. -/
lemma runChunk_cancel {σ : Type} (env : Env α σ) (p : Params) (w : Window α) (s : Core α σ) :
    Post (fun _ t => t.cancel = false) (fun _ _ => True) (exec (runChunk env p w) s) := by
  have hcheck : Triple (fun _ => True) (checkCancelled env)
      (fun _ (t : Core α σ) => t.cancel = false) fun _ _ => True := by
    intro t _
    rw [checkCancelled, exec_bind, exec_cancelled]
    cases hflag : t.cancel || (env.cancelArrives t.world).1 <;> simp [failIf]
  have hfail : ∀ st, Triple (fun _ => True) (fail env st w.index : Act α σ Unit)
      (fun _ t => t.cancel = false) fun _ _ => True := by
    intro st
    refine Triple.get_bind fun t _ => ?_
    cases t.failed with
    | some e => trivial
    | none =>
      refine Triple.bind (P := fun _ => True) (Triple.true _) (fun _ => ?_) t trivial
      exact Triple.ite (fun _ => Triple.throw fun _ _ => trivial) fun _ =>
        Triple.bind (Triple.true _) fun _ => Triple.throw fun _ _ => trivial
  refine Triple.tryCatch (P := fun _ => True) (E := fun _ _ => True) ?_ hfail s trivial
  refine Triple.bind (Triple.true _) fun tok => Triple.bind (Triple.true _) fun r => ?_
  refine Triple.bind (Triple.true _) fun _ => Triple.bind (Triple.true _) fun _ => ?_
  refine Triple.bind (Triple.true _) fun _ => Triple.bind (Triple.true _) fun _ => ?_
  exact Triple.get_bind fun t _ =>
    Triple.bind (P := fun _ => True) (Triple.true _) (fun _ => hcheck) t trivial

lemma runChunks_cancel {σ : Type} (env : Env α σ) (p : Params) (ws : List (Window α)) :
    Triple (fun t => t.cancel = false) (runChunks env p ws) (fun _ t => t.cancel = false)
      fun _ _ => True := by
  induction ws with
  | nil => exact Triple.pure fun _ ht => ht
  | cons w ws ih => exact Triple.bind (fun s _ => runChunk_cancel env p w s) fun _ => ih

section Loop

variable [Zero α] {B : EncodingBackend α κ φ} {p : Params} {b : Bool} {m : ℕ → α}
  {t₀ : Core α κ} {xs : List α} {i n : ℕ}

variable (B p t₀ xs) in
/-- The upstream loop runs `i` chunks from `t₀`, and that is seen of `s`. -/
def Reached (i : ℕ) (s : Core α (Ahead κ φ)) : Prop :=
  exec (runChunks (upstreamEnv B) p (upstreamWindows p.geom xs i)) t₀ = (.ok (), seen s)

variable (B p t₀ xs) in
/-- The upstream loop fails with `e` in one of the first `n` chunks, and that is seen of `s`. -/
def FailedBy (n : ℕ) (e : Status) (s : Core α (Ahead κ φ)) : Prop :=
  exec (runChunks (upstreamEnv B) p (upstreamWindows p.geom xs n)) t₀ = (.error e, seen s)

/-- After a failure no other chunk runs. -/
lemma FailedBy.mono {e : Status} {s : Core α (Ahead κ φ)} (h : FailedBy B p t₀ xs i e s)
    (hn : i ≤ n) : FailedBy B p t₀ xs n e s := by
  obtain ⟨k, rfl⟩ := Nat.exists_eq_add_of_le hn
  rw [FailedBy, upstreamWindows, List.range_add, List.map_append, runChunks_append, exec_bind,
    ← upstreamWindows, show exec _ _ = _ from h]

/-- Window `i` of the loop, however it is marked. -/
abbrev windowAt (p : Params) (xs : List α) (i : ℕ) (isLast : Bool) : Window α :=
  upstreamWindow (chunkSamples p.geom).toNat (windowSamples p.geom).toNat xs i isLast

/-- The loop goes on with the next window. -/
lemma Reached.next {s : Core α (Ahead κ φ)} (h : Reached B p t₀ xs i s) :
    exec (runChunks (upstreamEnv B) p (upstreamWindows p.geom xs (i + 1))) t₀ =
      exec (runChunk (upstreamEnv B) p (windowAt p xs i false)) (seen s) := by
  rw [upstreamWindows, List.range_succ, List.map_append, runChunks_append, exec_bind,
    ← upstreamWindows, show exec _ _ = _ from h]
  show exec (do runChunk (upstreamEnv B) p (windowAt p xs i false); pure ()) (seen s) = _
  rw [exec_bind]
  rcases exec (runChunk (upstreamEnv B) p (windowAt p xs i false)) (seen s) with ⟨e | _, t⟩ <;> rfl

/-- **A chunk** of the session is the next chunk of the loop. -/
lemma Reached.chunk {s : Core α (Ahead κ φ)} (h : Reached B p t₀ xs i s) (isLast : Bool)
    (hw : (s.world.encoded.lookup i).getD (B.encode (windowAt p xs i isLast).samples) =
      B.encode (windowAt p xs i isLast).samples) :
    Post (fun _ t => Reached B p t₀ xs (i + 1) t ∧ t.world.encoded = s.world.encoded)
      (FailedBy B p t₀ xs (i + 1))
      (exec (runChunk (aheadEnv B b m) p (windowAt p xs i isLast)) s) := by
  have hshow : Agree (Shows s.world.encoded) (Shows s.world.encoded)
      (exec (runChunk (aheadEnv B b m) p (windowAt p xs i isLast)) s)
      (exec (runChunk (upstreamEnv B) p (windowAt p xs i false)) (seen s)) :=
    runChunk_shows (w := windowAt p xs i isLast) hw s (seen s) ⟨rfl, rfl⟩
  rw [← h.next] at hshow
  rcases hahead : exec (runChunk (aheadEnv B b m) p (windowAt p xs i isLast)) s
    with ⟨e | _, s'⟩ <;>
  rcases hloop : exec (runChunks (upstreamEnv B) p (upstreamWindows p.geom xs (i + 1))) t₀
    with ⟨d | _, t⟩ <;>
  rw [hahead, hloop] at hshow
  · obtain ⟨rfl, rfl, -⟩ := hshow
    exact hloop
  · exact hshow.elim
  · exact hshow.elim
  · obtain ⟨-, rfl, he⟩ := hshow
    exact ⟨hloop, he⟩

/-- Windows encoded together run as the next chunks of the loop. -/
lemma Reached.chunks {k : ℕ} {s : Core α (Ahead κ φ)} {mark : ℕ → Bool}
    (h : Reached B p t₀ xs i s)
    (hw : ∀ j, i ≤ j → j < i + k →
      (s.world.encoded.lookup j).getD (B.encode (windowAt p xs j false).samples) =
        B.encode (windowAt p xs j false).samples) :
    Post (fun _ t => Reached B p t₀ xs (i + k) t ∧ t.world.encoded = s.world.encoded)
      (FailedBy B p t₀ xs (i + k))
      (exec (runChunks (aheadEnv B b m) p
        ((List.range' i k).map fun j => windowAt p xs j (mark j))) s) := by
  induction k generalizing i s with
  | zero => exact ⟨h, rfl⟩
  | succ k ih =>
    have hchunk := h.chunk (b := b) (m := m) (mark i)
      (hw i le_rfl (by omega))
    have hsucc : i + (k + 1) = i + 1 + k := by omega
    rw [List.range'_succ, List.map_cons, runChunks, exec_bind, hsucc]
    revert hchunk
    rcases exec (runChunk (aheadEnv B b m) p (windowAt p xs i (mark i))) s
      with ⟨e | _, t⟩
    · exact fun hfail => FailedBy.mono hfail (by omega)
    · rintro ⟨hreached, hencoded⟩
      have hrest := ih hreached fun j hij hj => by
        rw [hencoded]
        exact hw j (by omega) (by omega)
      rwa [hencoded] at hrest

/-- A new session. -/
def Ready (t : Core α κ) : Prop := Idle 0 (ledger t) ∧ t.cancel = false

lemma map_index_upstreamWindows (g : Geom) (xs : List α) (n : ℕ) :
    (upstreamWindows g xs n).map Window.index = List.range' 0 (upstreamWindows g xs n).length := by
  simp [upstreamWindows, Function.comp_def, upstreamWindow, List.range_eq_range']

/-- Between chunks the session runs, and nobody has cancelled it. -/
lemma Reached.running {s : Core α (Ahead κ φ)} (h : Reached B p t₀ xs i s) (h₀ : Ready t₀) :
    s.failed = none ∧ s.done = false ∧ s.cancel = false := by
  have hloop : Triple _ (runChunks (upstreamEnv B) p (upstreamWindows p.geom xs i)) _ _ :=
    runChunks_triple 0 _ (map_index_upstreamWindows p.geom xs i)
  have hidle := hloop t₀ h₀.1
  have hcancel := runChunks_cancel (upstreamEnv B) p (upstreamWindows p.geom xs i) t₀ h₀.2
  rw [show exec _ _ = _ from h] at hidle hcancel
  obtain ⟨l, ⟨_, hfailed, hdone⟩, _⟩ := hidle
  exact ⟨hfailed, hdone, hcancel⟩

/-- A failure of a chunk is the status of the session. -/
lemma FailedBy.failed {e : Status} {s : Core α (Ahead κ φ)} (h : FailedBy B p t₀ xs n e s)
    (h₀ : Ready t₀) : s.failed = some e := by
  have hloop : Triple _ (runChunks (upstreamEnv B) p (upstreamWindows p.geom xs n)) _ _ :=
    runChunks_triple 0 _ (map_index_upstreamWindows p.geom xs n)
  have hover := hloop t₀ h₀.1
  rw [show exec _ _ = _ from h] at hover
  exact hover.1

/-! ### The rounds -/

variable (B p t₀ xs) in
/-- A session between chunks: the chunker has popped the windows of the chunks that have run, and
the features held are of these. -/
structure Running (i : ℕ) (s : Session α (Ahead κ φ)) : Prop where
  tracks : Tracks (chunkSamples p.geom).toNat (windowSamples p.geom).toNat s.chunker xs i
  reached : Reached B p t₀ xs i s.core
  encoded : s.core.world.encoded.first + s.core.world.encoded.features.length ≤ i

variable (B p t₀ xs) in
/-- What a round makes of a session with `i` chunks done and `ready` windows: some chunks more, or
a failure in one of them. -/
def Round (i ready : ℕ) (fin : Bool) : Except Status Unit × Session α (Ahead κ φ) → Prop :=
  Post (fun _ t => ∃ k, 0 < k ∧ Running B p t₀ xs (i + k) t ∧ t.chunker.finished = fin ∧
      chunkerReady t.chunker + k = ready)
    fun e t => FailedBy B p t₀ xs (i + ready) e t.core

/-- Nothing is held for a window that has not been popped. -/
lemma Running.lookup {s : Session α (Ahead κ φ)} (h : Running B p t₀ xs i s) :
    s.core.world.encoded.lookup i = none := by
  have hle := h.encoded
  rw [Encoded.lookup, if_pos (by omega), List.getElem?_eq_none (by omega)]

lemma Running.drainOne {s : Session α (Ahead κ φ)} (h : Running B p t₀ xs i s)
    (hready : chunkerReady s.chunker ≠ 0) :
    Round B p t₀ xs i (chunkerReady s.chunker) s.chunker.finished
      (exec (drainOne (aheadEnv B b m) p) s) := by
  obtain ⟨c, hnext, htracks, hfin, hcount⟩ := h.tracks.next hready
  have hchunk := h.reached.chunk (b := b) (m := m)
    (s.chunker.finished && decide (xs.length ≤ i * (chunkSamples p.geom).toNat +
      (chunkSamples p.geom).toNat)) (by rw [h.lookup]; rfl)
  refine Triple.get_bind (P := (· = s)) (fun t ht => ?_) s rfl
  subst ht
  rw [hnext]
  refine onCore_post (s := { t with chunker := c }) ?_
  revert hchunk
  rcases exec (runChunk (aheadEnv B b m) p _) t.core with ⟨e | _, core⟩
  · exact fun hfail => FailedBy.mono hfail (by omega)
  · rintro ⟨hreached, hencoded⟩
    refine ⟨1, one_pos, ⟨htracks, hreached, ?_⟩, hfin, hcount⟩
    have hle := h.encoded
    show core.world.encoded.first + core.world.encoded.features.length ≤ i + 1
    rw [hencoded]
    omega

/-- A batched encode is not seen. -/
lemma Reached.encodeAhead {s : Core α (Ahead κ φ)} (h : Reached B p t₀ xs i s) (first : ℕ)
    (ws : List (List α)) :
    Post (fun _ t => Reached B p t₀ xs i t ∧ t.world.encoded = ⟨first, ws.map B.encode⟩)
      (fun _ _ => False)
      (exec (report (aheadEnv B b m) first (call (.encodeAhead first ws)
        (modify fun w => { w with encoded := ⟨first, ws.map B.encode⟩ }))) s) := by
  rw [report, exec_tryCatch, exec_call, exec_modify]
  refine ⟨Eq.trans h ?_, rfl⟩
  simp [seen, Entry.seen]

/-- The windows of a batch find their features. -/
lemma lookup_batch {first k j : ℕ} {mark : ℕ → Bool} (hj : first ≤ j) (hk : j < first + k) :
    (Encoded.mk first ((((List.range' first k).map fun i => windowAt p xs i (mark i)).map
      Window.samples).map B.encode)).lookup j =
        some (B.encode (windowAt p xs j false).samples) := by
  obtain ⟨d, rfl⟩ := Nat.exists_eq_add_of_le hj
  have hd : d < k := by omega
  simp [Encoded.lookup, hd, upstreamWindow]

omit [Zero α] in
lemma aheadBuffer_post (s : Session α (Ahead κ φ)) :
    Post (fun _ t => t.core = s.core ∧ t.chunker = s.chunker) (fun _ _ => False)
      (exec (aheadBuffer (aheadEnv B b m)) s) := by
  refine Triple.get_bind (P := (· = s)) (fun t ht => ?_) s rfl
  subst ht
  split_ifs
  · exact ⟨rfl, rfl⟩
  · exact ⟨rfl, rfl⟩

lemma Running.drainAhead {s : Session α (Ahead κ φ)} (h : Running B p t₀ xs i s)
    (hready : chunkerReady s.chunker ≠ 0) :
    Round B p t₀ xs i (chunkerReady s.chunker) s.chunker.finished
      (exec (drainAhead (aheadEnv B b m) p fun first ws =>
        modify fun w => { w with encoded := ⟨first, ws.map B.encode⟩ }) s) := by
  obtain ⟨hpop, htracks, hfin⟩ := h.tracks.popUpTo aheadMax
  have hcount := h.tracks.ready_popUpTo aheadMax
  have hmax : 0 < aheadMax := by decide
  obtain ⟨k, hk⟩ : ∃ k, min aheadMax (chunkerReady s.chunker) = k + 1 :=
    Nat.exists_eq_succ_of_ne_zero (by omega)
  rw [hk] at hpop htracks hcount
  have hfirst : ((popUpTo aheadMax s.chunker).1.head?.map Window.index).getD 0 = i := by
    rw [hpop, List.range'_succ]
    rfl
  refine Triple.bind (P := (· = s)) (R := fun _ t => t.core = s.core ∧ t.chunker = s.chunker) ?_
    (fun _ => Triple.get_bind fun t ht => ?_) s rfl
  · rintro t ht
    rw [ht]
    exact (aheadBuffer_post s).mono (fun _ _ => id) fun _ _ => False.elim
  · obtain ⟨hcore, hchunker⟩ := ht
    rw [hchunker]
    dsimp only
    rw [hfirst]
    refine Triple.bind (P := (· = t)) (R := fun _ u => u.core = s.core ∧
      u.chunker = (popUpTo aheadMax s.chunker).2) (Triple.modify ?_) (fun _ => ?_) t rfl
    · rintro _ rfl
      exact ⟨hcore, congrArg (fun c => (popUpTo aheadMax c).2) hchunker⟩
    · refine Triple.bind (R := fun _ u => Reached B p t₀ xs i u.core ∧
        u.core.world.encoded =
          ⟨i, ((popUpTo aheadMax s.chunker).1.map Window.samples).map B.encode⟩ ∧
        u.chunker = (popUpTo aheadMax s.chunker).2) ?_ fun _ => ?_
      · rintro u ⟨hu, hc⟩
        refine onCore_post ?_
        rw [hu]
        exact (h.reached.encodeAhead i _).mono (fun _ _ hr => ⟨hr.1, hr.2, hc⟩)
          fun _ _ => False.elim
      · rintro u ⟨hreached, hencoded, hc⟩
        refine onCore_post ?_
        rw [hpop] at hencoded ⊢
        have hle : k + 1 ≤ chunkerReady s.chunker := hk ▸ min_le_right _ _
        refine (hreached.chunks (k := k + 1) fun j hij hj => ?_).mono (fun _ v hv => ?_)
          fun _ _ hv => FailedBy.mono hv (by omega)
        · rw [hencoded, lookup_batch hij hj]
          rfl
        · obtain ⟨hreached, hkeep⟩ := hv
          refine ⟨k + 1, Nat.succ_pos k, ⟨hc ▸ htracks, hreached, ?_⟩, hc ▸ hfin, hc ▸ hcount⟩
          show v.world.encoded.first + v.world.encoded.features.length ≤ i + (k + 1)
          rw [hkeep, hencoded]
          simp

lemma Running.drainRound {s : Session α (Ahead κ φ)} (h : Running B p t₀ xs i s)
    (hready : chunkerReady s.chunker ≠ 0) :
    Round B p t₀ xs i (chunkerReady s.chunker) s.chunker.finished
      (exec (drainRound (aheadEnv B b m) p (chunkerReady s.chunker)) s) := by
  cases b with
  | false => exact h.drainOne hready
  | true =>
    have henv : (aheadEnv B true m).encodeAhead = some fun first ws =>
      modify fun w => { w with encoded := ⟨first, ws.map B.encode⟩ } := rfl
    rw [Stream.drainRound, henv]
    dsimp only
    split_ifs
    · exact h.drainAhead hready
    · exact h.drainOne hready

omit [Zero α] in
/-- A check for a cancel that is not there. -/
lemma exec_poll {s : Session α (Ahead κ φ)} (hfailed : s.core.failed = none)
    (hcancel : s.core.cancel = false) :
    exec (onCore (report (aheadEnv B b m) (-1) (checkCancelled (aheadEnv B b m)))) s =
      (.ok (), s) := by
  have hflag : (s.core.cancel || ((aheadEnv B b m).cancelArrives s.core.world).1) = false := by
    rw [hcancel]
    rfl
  rw [onCore, exec_zoom, exec_report_checkCancelled _ hfailed, hflag, if_neg Bool.false_ne_true,
    ← hcancel]
  rfl

/-- **The loop of `drain`** runs the chunks of all windows that are ready. -/
lemma Running.drainLoop (h₀ : Ready t₀) {s : Session α (Ahead κ φ)} (h : Running B p t₀ xs i s)
    {fuel : ℕ} (hfuel : chunkerReady s.chunker ≤ fuel) :
    Post (fun _ t => Running B p t₀ xs (i + chunkerReady s.chunker) t ∧
        t.chunker.finished = s.chunker.finished)
      (fun e t => FailedBy B p t₀ xs (i + chunkerReady s.chunker) e t.core)
      (exec (drainLoop (aheadEnv B b m) p fuel) s) := by
  induction fuel generalizing i s with
  | zero =>
    rw [Nat.le_zero.mp hfuel]
    exact ⟨h, rfl⟩
  | succ fuel ih =>
    rw [Stream.drainLoop, exec_bind, exec_get]
    dsimp only
    by_cases hready : chunkerReady s.chunker = 0
    · rw [if_pos hready, hready]
      exact ⟨h, rfl⟩
    · obtain ⟨hfailed, _, hcancel⟩ := h.reached.running h₀
      have hround := h.drainRound (b := b) (m := m) hready
      rw [if_neg hready, exec_bind, exec_poll hfailed hcancel]
      dsimp only
      rw [exec_bind]
      revert hround
      rcases exec (Stream.drainRound (aheadEnv B b m) p (chunkerReady s.chunker)) s
        with ⟨e | _, t⟩
      · exact id
      · rintro ⟨k, hk, hrunning, hfin, hcount⟩
        have hrest := ih hrunning (by omega)
        rwa [hfin, show i + k + chunkerReady t.chunker = i + chunkerReady s.chunker by omega]
          at hrest

lemma Running.drain (h₀ : Ready t₀) {s : Session α (Ahead κ φ)} (h : Running B p t₀ xs i s) :
    Post (fun _ t => Running B p t₀ xs (i + chunkerReady s.chunker) t ∧
        t.chunker.finished = s.chunker.finished)
      (fun e t => FailedBy B p t₀ xs (i + chunkerReady s.chunker) e t.core)
      (exec (drain (aheadEnv B b m) p) s) :=
  h.drainLoop h₀ le_rfl

/-! ### The calls -/

/-- The first `n` windows lie inside the stream. -/
def Arrived (p : Params) (xs : List α) (n : ℕ) : Prop :=
  ∀ j < n, j * (chunkSamples p.geom).toNat + (windowSamples p.geom).toNat ≤ xs.length

variable (B p t₀ xs) in
/-- Before finish: the chunks of the windows that have arrived have run, or one of them has
failed. -/
inductive Pushed (s : Session α (Ahead κ φ)) : Prop
  | running (i : ℕ) (running : Running B p t₀ xs i s) (unfinished : s.chunker.finished = false)
      (arrived : Arrived p xs i)
  | failed (n : ℕ) (e : Status) (failed : FailedBy B p t₀ xs n e s.core)
      (arrived : Arrived p xs n)

omit [Zero α] in
lemma Arrived.append (h : Arrived p xs n) (ys : List α) : Arrived p (xs ++ ys) n := by
  intro j hj
  rw [List.length_append]
  exact Nat.le_add_right_of_le (h j hj)

/-- The windows that have arrived stay as they are. -/
lemma Arrived.windows (h : Arrived p xs n) (ys : List α) :
    upstreamWindows p.geom (xs ++ ys) n = upstreamWindows p.geom xs n :=
  List.map_congr_left fun j hj => upstreamWindow_append (h j (List.mem_range.mp hj)) ys false

/-- A push on a running session that accepts its samples. -/
lemma exec_push {s : Session α (Ahead κ φ)} {c : Chunker α} {ys : List α}
    (hfailed : s.core.failed = none) (hdone : s.core.done = false) (hcancel : s.core.cancel = false)
    (hpush : chunkerPush s.chunker (some ys) (some m) = .ok c) :
    exec (push (aheadEnv B b m) p (some ys)) s =
      exec (drain (aheadEnv B b m) p) { s with chunker := c } := by
  have hblock : exec (onCore (takeBlock (aheadEnv B b m))) s = (.ok (some m), s) := rfl
  rw [push, exec_bind, exec_get]
  dsimp only
  rw [hfailed]
  dsimp only
  rw [exec_bind, exec_poll hfailed hcancel]
  dsimp only
  rw [exec_bind, failIf, if_neg (by rw [hdone]; exact Bool.false_ne_true), exec_pure]
  dsimp only
  rw [exec_bind, hblock]
  dsimp only
  rw [hpush]
  rfl

/-- **A push** runs the chunks that have become ready. -/
lemma Pushed.push (h₀ : Ready t₀) {s : Session α (Ahead κ φ)} (h : Pushed B p t₀ xs s)
    (ys : List α) :
    Pushed B p t₀ (xs ++ ys) (exec (push (aheadEnv B b m) p (some ys)) s).2 := by
  cases h with
  | failed n e hfailed harrived =>
    have hexec : exec (Stream.push (aheadEnv B b m) p (some ys)) s = (.error e, s) := by
      rw [Stream.push, exec_bind, exec_get]
      dsimp only
      rw [hfailed.failed h₀]
      rfl
    rw [hexec]
    exact .failed n e (by rw [FailedBy, harrived.windows ys]; exact hfailed) (harrived.append ys)
  | running i hrunning hunfinished harrived =>
    obtain ⟨hfailed, hdone, hcancel⟩ := hrunning.reached.running h₀
    obtain ⟨c, hpush⟩ := chunkerPush_ok hunfinished ys m
    obtain ⟨zs, hzs, htracks, hfin⟩ := hrunning.tracks.push hpush
    cases hzs
    have hrunning' : Running B p t₀ (xs ++ ys) i { s with chunker := c } :=
      ⟨htracks, by rw [Reached, harrived.windows ys]; exact hrunning.reached, hrunning.encoded⟩
    have hready := htracks.lt_ready_iff (hfin.trans hunfinished) (harrived.append ys)
    have hdrain := hrunning'.drain (b := b) (m := m) h₀
    rw [exec_push hfailed hdone hcancel hpush]
    revert hdrain
    rcases exec (drain (aheadEnv B b m) p) { s with chunker := c } with ⟨e | _, t⟩
    · exact fun hdrain => .failed _ e hdrain fun j hj => (hready j).mp hj
    · rintro ⟨hdrain, hflag⟩
      exact .running _ hdrain (hflag.trans (hfin.trans hunfinished)) fun j hj => (hready j).mp hj

omit [Zero α] in
/-- A window inside the stream is one of its windows. -/
lemma Arrived.le_windowCount (h : Arrived p xs n) (hpos : 0 < (chunkSamples p.geom).toNat)
    (hle : (chunkSamples p.geom).toNat ≤ (windowSamples p.geom).toNat) :
    n ≤ windowCount p.geom xs := by
  by_contra hlt
  have hcount : windowCount p.geom xs ≤ n - 1 := by omega
  have hlast := h (n - 1) (by omega)
  rw [windowCount, ceilDiv_le_iff_le_smul hpos, smul_eq_mul, mul_comm] at hcount
  omega

lemma emitDone_shows {e : Encoded φ} (total : ℕ) :
    Related (Shows e) (emitDone (aheadEnv B b m) total) (emitDone (upstreamEnv B) total) (Shows e)
      (Shows e) := by
  have hlock := shows_lockstep (B := B) (e := e) (b := b) (m := m)
  refine Related.bind (hlock.modify fun F => { F with done := true }) fun _ =>
    Related.get_bind fun s t hst => ?_
  rw [show t.chunks = s.chunks from hst.1 ▸ rfl,
    show t.transcript = s.transcript from hst.1 ▸ rfl]
  exact hlock.emit _ s t hst

/-- A finish on a running session. -/
lemma exec_finish {s : Session α (Ahead κ φ)} (hfailed : s.core.failed = none)
    (hdone : s.core.done = false) (hcancel : s.core.cancel = false) :
    exec (finish (aheadEnv B b m) p) s =
      exec (do
        drain (aheadEnv B b m) p
        let t ← get
        onCore (emitDone (aheadEnv B b m) t.chunker.total))
          { s with chunker := chunkerFinish s.chunker } := by
  rw [finish, exec_bind, exec_get]
  dsimp only
  rw [hfailed]
  dsimp only
  rw [if_neg (by rw [hdone]; exact Bool.false_ne_true), exec_bind, exec_poll hfailed hcancel]
  rfl

/-- **A finish** runs the rest of the loop. -/
lemma Pushed.finish (h₀ : Ready t₀) {s : Session α (Ahead κ φ)} (h : Pushed B p t₀ xs s)
    (hpos : 0 < (chunkSamples p.geom).toNat)
    (hle : (chunkSamples p.geom).toNat ≤ (windowSamples p.geom).toNat) :
    seen (exec (finish (aheadEnv B b m) p) s).2.core = (exec (upstreamLoop B p xs) t₀).2 := by
  rw [upstreamLoop, exec_bind]
  cases h with
  | failed n e hfailed harrived =>
    have hexec : exec (Stream.finish (aheadEnv B b m) p) s = (.error e, s) := by
      rw [Stream.finish, exec_bind, exec_get]
      dsimp only
      rw [hfailed.failed h₀]
      rfl
    have hloop := FailedBy.mono hfailed (harrived.le_windowCount hpos hle)
    rw [hexec, show exec _ _ = _ from hloop]
  | running i hrunning hunfinished harrived =>
    obtain ⟨hfailed, hdone, hcancel⟩ := hrunning.reached.running h₀
    have hrunning' : Running B p t₀ xs i { s with chunker := chunkerFinish s.chunker } :=
      ⟨hrunning.tracks.finish, hrunning.reached, hrunning.encoded⟩
    have hcount : i + chunkerReady (chunkerFinish s.chunker) = windowCount p.geom xs := by
      have hi := harrived.le_windowCount hpos hle
      rw [hrunning.tracks.finish.ready_finished rfl]
      exact Nat.add_sub_cancel' hi
    have hdrain := hrunning'.drain (b := b) (m := m) h₀
    rw [exec_finish hfailed hdone hcancel, exec_bind]
    dsimp only at hdrain
    rw [hcount] at hdrain
    revert hdrain
    rcases exec (Stream.drain (aheadEnv B b m) p)
      { s with chunker := chunkerFinish s.chunker } with ⟨e | _, t⟩
    · intro hdrain
      rw [show exec _ _ = _ from hdrain]
    · rintro ⟨hdrain, -⟩
      have hend := emitDone_shows (B := B) (b := b) (m := m) xs.length t.core (seen t.core)
        ⟨rfl, rfl⟩
      rw [show exec _ _ = _ from hdrain.reached]
      dsimp only
      rw [exec_bind, exec_get]
      dsimp only
      rw [hdrain.tracks.total, onCore, exec_zoom]
      dsimp only
      revert hend
      rcases exec (emitDone (aheadEnv B b m) xs.length) t.core with ⟨e | _, u⟩ <;>
        rcases exec (emitDone (upstreamEnv B) xs.length) (seen t.core) with ⟨d | _, v⟩
      · exact fun hend => hend.2.1
      · exact False.elim
      · exact False.elim
      · exact fun hend => hend.2.1

/-! ### Opening -/

omit [Zero α] in
lemma exec_allocateAll {σ : Type} {env : Env α σ} (halloc : ∀ w, env.alloc w = (true, w)) (n : ℕ)
    (s : Core α σ) : exec (allocateAll env n) s = (.ok (), s) := by
  induction n with
  | zero => rfl
  | succ n ih =>
    rw [allocateAll, exec_bind, exec_allocate, halloc]
    exact ih

omit [Zero α] in
/-- When memory does not run out, opening a valid session is the prompt. -/
lemma exec_openBody {σ : Type} (env : Env α σ) (halloc : ∀ w, env.alloc w = (true, w))
    (hblock : ∀ w, env.block w = (some m, w)) (hv : geomValidate p.geom = .ok ()) :
    ∃ c, chunkerCreate p.geom (some m) = .ok c ∧ ∀ s, exec (openBody env p) s =
      exec (do openPrompt env p; pure c) s := by
  obtain ⟨c, hc⟩ : ∃ c, chunkerCreate p.geom (some m) = .ok c := by
    simp only [chunkerCreate, hv]
    exact ⟨_, rfl⟩
  refine ⟨c, hc, fun s => ?_⟩
  have hchunker : exec (openChunker env p) s = (.ok c, s) := by
    rw [openChunker, exec_bind, exec_takeBlock, hblock]
    dsimp only
    rw [hc]
    rfl
  rw [openBody, exec_bind, exec_allocateAll halloc]
  dsimp only
  rw [exec_bind, hchunker]
  dsimp only
  rw [exec_bind, exec_allocateAll halloc]

/-- A new session, whatever its backend. -/
lemma openBackend_ready {k : κ} {s : Session α κ} (h : openBackend (upstreamEnv B) p k = .ok s) :
    Ready s.core := by
  obtain ⟨mem, hcreate⟩ := openBackend_chunker _ p h
  have hidle := open_waiting h
  rw [Waiting, chunkerCreate_nextIdx hcreate] at hidle
  have hprompt : Keeps Core.cancel (openPrompt (upstreamEnv B) p) :=
    Keeps.bind (fun _ => rfl) fun ids => Keeps.get_bind fun _ => Keeps.failIf.bind fun _ =>
      Keeps.bind (fun _ => rfl) fun _ => Keeps.modify fun _ => rfl
  exact ⟨hidle, openBackend_post _ p (P := fun t => t.cancel = false) (fun _ ht => ht)
    (fun _ ht => ht) (hprompt.weaken (P := (· = false)) fun _ _ => trivial) rfl h⟩

/-- The prompt is fed alike. -/
lemma openPrompt_shows {e : Encoded φ} :
    Related (Shows e) (openPrompt (aheadEnv B b m) p) (openPrompt (upstreamEnv B) p) (Shows e)
      (Shows e) := by
  have hlock := shows_lockstep (B := B) (e := e) (b := b) (m := m)
  have htext : Related (Shows e) (onWorld (onModel (B.encodeText (promptText p.contextInfo))))
      (onWorld (B.encodeText (promptText p.contextInfo)) : Act α κ (List ℤ)) (Shows e)
      (Shows e) := by
    rintro s _ ⟨rfl, he⟩
    rw [onWorld, onWorld, exec_zoom, exec_zoom, onModel, exec_zoom]
    show Agree _ _ ((exec (B.encodeText (promptText p.contextInfo)) s.world.model).1, _)
      ((exec (B.encodeText (promptText p.contextInfo)) s.world.model).1, _)
    cases (exec (B.encodeText (promptText p.contextInfo)) s.world.model).1 with
    | error d => exact ⟨rfl, rfl, he⟩
    | ok ids => exact ⟨rfl, rfl, he⟩
  refine Related.bind htext fun ids => Related.get_bind fun s t hst => ?_
  rw [hlock.kvCap hst]
  refine Related.bind (S := Shows e) (Related.failIf ?_ (fun _ _ h => h) fun _ _ h => h)
    (fun _ => ?_) s t hst
  · simp [aheadEnv, upstreamEnv]
  · refine Related.bind (call_shows (fun _ _ _ => rfl) fun _ _ => rfl) fun _ => Related.modify ?_
    rintro u _ ⟨rfl, he⟩
    exact ⟨rfl, he⟩

/-- **A session opens** alike. -/
lemma openBackend_shows (k : κ) (e : Encoded φ) :
    Option.Rel (fun s t => Shows e s.core t.core ∧ chunkerCreate p.geom (some m) = .ok s.chunker)
      (openBackend (aheadEnv B b m) p ⟨k, e⟩).toOption
      (openBackend (upstreamEnv B) p k).toOption := by
  rw [openBackend, openBackend]
  split_ifs
  · exact .none
  · exact .none
  · cases hv : geomValidate p.geom with
    | error st => exact .none
    | ok u =>
      obtain ⟨c, hc, hahead⟩ := exec_openBody (aheadEnv B b m) (m := m) (fun _ => rfl)
        (fun _ => rfl) hv
      obtain ⟨d, hd, hupstream⟩ := exec_openBody (upstreamEnv B) (fun _ => rfl)
        (fun _ => rfl) hv
      have hprompt := openPrompt_shows (B := B) (p := p) (b := b) (m := m) (e := e)
        (Core.fresh ⟨k, e⟩) (Core.fresh k) ⟨rfl, rfl⟩
      dsimp only
      rw [hahead, hupstream, exec_bind, exec_bind]
      revert hprompt
      rcases exec (openPrompt (aheadEnv B b m) p) (Core.fresh ⟨k, e⟩) with ⟨_ | _, s⟩ <;>
        rcases exec (openPrompt (upstreamEnv B) p) (Core.fresh k) with ⟨_ | _, t⟩
      · exact fun _ => .none
      · exact False.elim
      · exact False.elim
      · exact fun hprompt => .some ⟨hprompt.2, hc⟩

/-! ### Every run -/

/-- Push a stream in pieces, then finish. -/
def pushAll (pieces : List (List α)) : List (SessionOp α) :=
  pieces.map (fun ys => .push (some ys)) ++ [.finish]

lemma Pushed.run (h₀ : Ready t₀) {s : Session α (Ahead κ φ)} (h : Pushed B p t₀ xs s)
    (pieces : List (List α)) :
    ∃ t, run (sessionStep (aheadEnv B b m) p) s (pieces.map fun ys => .push (some ys)) = some t ∧
      Pushed B p t₀ (xs ++ pieces.flatten) t := by
  induction pieces generalizing xs s with
  | nil =>
    rw [List.flatten_nil, List.append_nil]
    exact ⟨s, rfl, h⟩
  | cons ys pieces ih =>
    rw [List.flatten_cons, ← List.append_assoc]
    exact ih (h.push h₀ ys)

/-- **The session is the upstream loop**: however the stream is pushed, and with or without
encode-ahead. -/
theorem session_upstream (hw : p.geom.NoWrap) (k : κ) (pieces : List (List α)) :
    (sessionRun (aheadEnv B b m) p ⟨k, ⟨0, []⟩⟩ (pushAll pieces)).map (fun s => seen s.core) =
      upstreamSession B p k pieces.flatten := by
  have hopen := openBackend_shows (B := B) (p := p) (b := b) (m := m) k ⟨0, []⟩
  rw [sessionRun, upstreamSession]
  cases hup : openBackend (upstreamEnv B) p k with
  | error e =>
    rw [hup] at hopen
    cases hahead : openBackend (aheadEnv B b m) p ⟨k, ⟨0, []⟩⟩ with
    | error d => rfl
    | ok s =>
      rw [hahead] at hopen
      cases hopen
  | ok t =>
    rw [hup] at hopen
    cases hahead : openBackend (aheadEnv B b m) p ⟨k, ⟨0, []⟩⟩ with
    | error d =>
      rw [hahead] at hopen
      cases hopen
    | ok s =>
      rw [hahead] at hopen
      obtain ⟨⟨hseen, hencoded⟩, hcreate⟩ : Shows ⟨0, []⟩ s.core t.core ∧
          chunkerCreate p.geom (some m) = .ok s.chunker := by
        cases hopen with
        | some h => exact h
      obtain ⟨_, _, hv, _⟩ := openBackend_ok _ p hup
      have hpos := chunkSamples_pos hv
      have hle := chunkSamples_le_windowSamples hv hw
      have h₀ := openBackend_ready hup
      obtain ⟨htracks, hfin⟩ := Tracks.create hw hcreate
      have hnew : Pushed B p t.core [] s := by
        refine .running 0 ⟨htracks, ?_, ?_⟩ hfin fun j hj => absurd hj (Nat.not_lt_zero j)
        · rw [Reached, hseen]
          rfl
        · rw [hencoded]
          exact le_rfl
      obtain ⟨u, hrun, hu⟩ := hnew.run (b := b) (m := m) h₀ pieces
      have hfinish := hu.finish (b := b) (m := m) h₀ (by omega) (by omega)
      have hall : run (sessionStep (aheadEnv B b m) p) s (pushAll pieces) =
          some (exec (finish (aheadEnv B b m) p) u).2 := by
        rw [pushAll, run_append, hrun]
        rfl
      simp only [Except.toOption, Option.bind_some, Option.map_some]
      rw [hall, Option.map_some, hfinish]
      rfl

/-- **Push-split and encode-ahead invariance**: for every backend whose batched encode makes of each
window what the single encode would, two splittings of a stream into pushes, each with or
without encode-ahead, end in the same core: the same events and the same calls of the model, in
the same order and from the same states of the model. -/
theorem push_split_invisible (B : EncodingBackend α κ φ) (p : Params) (hw : p.geom.NoWrap) (k : κ)
    (batched batched' : Bool) (cell cell' : ℕ → α) (pieces pieces' : List (List α))
    (h : pieces.flatten = pieces'.flatten) :
    (sessionRun (aheadEnv B batched cell) p ⟨k, ⟨0, []⟩⟩ (pushAll pieces)).map
        (fun s => seen s.core) =
      (sessionRun (aheadEnv B batched' cell') p ⟨k, ⟨0, []⟩⟩ (pushAll pieces')).map
        fun s => seen s.core := by
  rw [session_upstream hw, session_upstream hw, h]

end Loop

/-- A backend that remembers what it was fed.  The features of a window are the sum of its samples,
and every chunk says `A`. -/
def summingBackend : EncodingBackend ℤ (List ℤ) ℤ where
  encodeText _ := pure [7]
  tokenBytes _ := pure [0x41]
  prefillPrompt ids := modify (· ++ ids)
  encode := List.sum
  prefill c feature := do
    modify (· ++ c.rows ++ [feature])
    pure 65
  decodeStep tok := do
    modify (· ++ [tok])
    pure 3
  appendTokens := some fun ids => modify (· ++ ids)
  kvLen := some fun fed => fed.length
  kvCapacity := some fun _ => 100
  onEvent _ fed := (false, fed)

/-- Five samples make three chunks, pushed at once with the windows encoded together or one by one
without. -/
theorem push_split_invisible_summing :
    (sessionRun (aheadEnv summingBackend true fun _ => 9) (smallParams false) ⟨[], ⟨0, []⟩⟩
        (pushAll [[1, 2, 3, 4, 5]])).map (fun s => seen s.core) =
      (sessionRun (aheadEnv summingBackend false fun _ => 8) (smallParams false) ⟨[], ⟨0, []⟩⟩
        (pushAll [[1], [2, 3], [], [4], [5]])).map (fun s => seen s.core) ∧
    (sessionRun (aheadEnv summingBackend true fun _ => 9) (smallParams false) ⟨[], ⟨0, []⟩⟩
        (pushAll [[1, 2, 3, 4, 5]])).map (fun s => (s.core.chunks, s.core.done)) =
      some (3, true) :=
  ⟨push_split_invisible summingBackend (smallParams false) (by decide) [] true false (fun _ => 9)
    (fun _ => 8) [[1, 2, 3, 4, 5]] [[1], [2, 3], [], [4], [5]] rfl, by decide +kernel⟩

end VibeVoice.Stream
