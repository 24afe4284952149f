import VibeVoice.Stream.Session

/-!
A session never writes past its KV capacity.

The backend keeps a contract: a call that succeeds adds its rows to the cache, one that fails
adds no more than these, nothing else adds any, and the length and the capacity it reports are
true.  `Room n` says that `n` more positions are free; the checks of the session are what makes
room, and a chunk starts by making room for its rows and for the chunk end after them.

* `session_capacity`: every call of every session fits, and a chunk that does not fit is refused
  before it is fed.
-/

namespace VibeVoice.Stream

open Prog Machine

variable {α σ β : Type}

/-- The program adds `n` positions, or fails and adds at most `n`. -/
def Feeds (len : σ → ℤ) (f : Program Status σ β) (n : ℤ) : Prop :=
  ∀ w, Post (fun _ w' => len w' = len w + n) (fun _ w' => len w' ≤ len w + n) (exec f w)

/-- The backend counts its `len w` positions of `cap` truthfully, and nothing else in the world
touches them. -/
structure Contract (env : Env α σ) (len : σ → ℤ) (cap : ℤ) : Prop where
  kvLen : env.kvLen = some len
  kvCapacity : env.kvCapacity = some fun _ => cap
  encodeText : ∀ text, Keeps len (env.encodeText text)
  tokenBytes : ∀ tok, Keeps len (env.tokenBytes tok)
  prefillPrompt : ∀ ids, Feeds len (env.prefillPrompt ids) ids.length
  prefillChunk : ∀ c, Feeds len (env.prefillChunk c) c.rows.length
  decodeStep : ∀ tok, Feeds len (env.decodeStep tok) 1
  encodeAhead : ∀ f ∈ env.encodeAhead, ∀ first ws, Keeps len (f first ws)
  appendTokens : ∀ f ∈ env.appendTokens, ∀ ids, Feeds len (f ids) ids.length
  alloc : ∀ w, len (env.alloc w).2 = len w
  block : ∀ w, len (env.block w).2 = len w
  cancelArrives : ∀ w, len (env.cancelArrives w).2 = len w
  onEvent : ∀ ev w, len (env.onEvent ev w).2 = len w

/-- The positions that are free before a call: the ones it fills, and the one that has to stay
free for the chunk end. -/
def Call.room : Call α → ℤ
  | .tokenBytes _ => 0
  | .prefillPrompt ids => ids.length + 1
  | .prefillChunk c => c.rows.length + 1
  | .decodeStep _ => 2
  | .encodeAhead _ _ => 0
  | .appendTokens ids => ids.length

/-- The positions still owed after a chunk: its chunk end, when that is folded. -/
def owed (env : Env α σ) (p : Params) : ℤ :=
  if p.foldChunkEnd = true ∨ env.appendTokens.isNone then 1 else 0

/-- What an entry of the log says about the cache. -/
def Entry.Within (len : σ → ℤ) (cap owed : ℤ) : Entry α σ → Prop
  | .event ev w => len w ≤ cap ∧
      ∀ i text n stop lo hi kv, ev = .chunk i text n stop lo hi kv → kv = len w ∧ len w + owed ≤ cap
  | .call c _ before after => len before + c.room ≤ cap ∧ len before ≤ cap ∧ len after ≤ cap

/-- The part of the core that the capacity is about. -/
def gauge (len : σ → ℤ) (s : Core α σ) : ℤ × List (Entry α σ) := (len s.world, s.log)

/-- `n` positions are free, and so far every call has fitted. -/
def Room (len : σ → ℤ) (cap owed n : ℤ) (g : ℤ × List (Entry α σ)) : Prop :=
  g.1 + n ≤ cap ∧ ∀ e ∈ g.2, e.Within len cap owed

lemma Room.mono {len : σ → ℤ} {cap o n m : ℤ} {g : ℤ × List (Entry α σ)}
    (h : Room len cap o n g) (hm : m ≤ n) : Room len cap o m g := by
  obtain ⟨hfree, hlog⟩ := h
  exact ⟨by omega, hlog⟩

lemma Room.snoc {len : σ → ℤ} {cap o n m k : ℤ} {g : ℤ × List (Entry α σ)} {e : Entry α σ}
    (h : Room len cap o n g) (hk : k + m ≤ cap) (he : e.Within len cap o) :
    Room len cap o m (k, g.2 ++ [e]) := by
  refine ⟨hk, fun e' he' => ?_⟩
  rcases List.mem_append.mp he' with he' | he'
  · exact h.2 e' he'
  · rw [List.mem_singleton.mp he']
    exact he

/-- From within the capacity to within the capacity, whatever happens. -/
abbrev Bounded {τ : Type} (len : σ → ℤ) (cap o : ℤ) (core : τ → Core α σ)
    (f : Program Status τ β) : Prop :=
  Triple (fun t => Room len cap o 0 (gauge len (core t))) f
    (fun _ t => Room len cap o 0 (gauge len (core t)))
    fun _ t => Room len cap o 0 (gauge len (core t))

section Calls

variable {env : Env α σ} {p : Params} {len : σ → ℤ} {cap o : ℤ}

/-! ### What fills no position -/

lemma Contract.kvFits_iff (hc : Contract env len cap) (s : Core α σ) (n : ℤ) :
    kvFits env s n ↔ len s.world + n ≤ cap := by
  simp [kvFits, Stream.kvLen, kvCap, hc.kvLen, hc.kvCapacity]

lemma Contract.allocate (hc : Contract env len cap) : Keeps (gauge len) (allocate env) := by
  intro s
  simp [gauge, hc.alloc]

lemma Contract.takeBlock (hc : Contract env len cap) : Keeps (gauge len) (takeBlock env) := by
  intro s
  simp [gauge, hc.block]

lemma Contract.checkCancelled (hc : Contract env len cap) :
    Keeps (gauge len) (checkCancelled env) := by
  have hpoll : Keeps (gauge len) (cancelled env) := by
    intro s
    simp [gauge, hc.cancelArrives]
  exact hpoll.bind fun _ => Keeps.failIf

lemma Contract.growGen (hc : Contract env len cap) (nGen genCap : ℕ) :
    Keeps (gauge len) (growGen env nGen genCap) :=
  Keeps.ite (hc.allocate.bind fun _ => Keeps.pure _) (Keeps.pure _)

lemma keeps_onWorld_gauge {f : Program Status σ β} (hf : Keeps len f) :
    Keeps (gauge (α := α) len) (onWorld f) := by
  intro s
  have hlen := hf s.world
  simp [onWorld, gauge, hlen]

/-- The check of the session. -/
lemma Contract.checkFits (hc : Contract env len cap) (n : ℤ) :
    Triple (fun s => Room len cap o 0 (gauge len s)) (checkFits env n)
      (fun _ s => Room len cap o n (gauge len s)) fun _ s => Room len cap o 0 (gauge len s) := by
  refine Triple.get_bind fun s hs => ?_
  refine Triple.failIf (fun _ _ ht => ?_) (fun hfits t ht => ?_) s rfl
  · exact ht ▸ hs
  · exact ht ▸ ⟨(hc.kvFits_iff s n).mp (not_not.mp hfits), hs.2⟩

/-! ### Calls and events -/

/-- The room after a call that had room and left room. -/
lemma Room.call {s : Core α σ} {c : Call α} {st : Option Status} {w : σ} {m k : ℤ}
    (h : Room len cap o m (gauge len s)) (hm : 0 ≤ m) (hroom : c.room ≤ m) (hk : 0 ≤ k)
    (hw : len w + k ≤ cap) :
    Room len cap o k (gauge len { s with world := w, log := s.log ++ [.call c st s.world w] }) := by
  have hfree : len s.world + m ≤ cap := h.1
  have hcall : Entry.Within len cap o (.call c st s.world w : Entry α σ) :=
    ⟨by omega, by omega, by omega⟩
  exact h.snoc hw hcall

/-- A call that fills positions. -/
lemma call_feeds {c : Call α} {f : Program Status σ β} {n m : ℤ} (hf : Feeds len f n)
    (hn : 0 ≤ n) (hnm : n ≤ m) (hroom : c.room ≤ m) :
    Triple (fun s => Room len cap o m (gauge len s)) (call c f)
      (fun _ s => Room len cap o (m - n) (gauge len s))
      fun _ s => Room len cap o 0 (gauge len s) := by
  intro s hs
  have hfree : len s.world + m ≤ cap := hs.1
  have hpost := hf s.world
  rw [exec_call]
  revert hpost
  rcases exec f s.world with ⟨e | a, w⟩
  · intro hw
    have hw : len w ≤ len s.world + n := hw
    have hafter : len w + 0 ≤ cap := by omega
    exact hs.call (by omega) hroom le_rfl hafter
  · intro hw
    have hw : len w = len s.world + n := hw
    have hafter : len w + (m - n) ≤ cap := by omega
    exact hs.call (by omega) hroom (by omega) hafter

/-- A call that fills none. -/
lemma call_keeps {c : Call α} {f : Program Status σ β} {m : ℤ} (hf : Keeps len f)
    (hm : 0 ≤ m) (hroom : c.room = 0) :
    Triple (fun s => Room len cap o m (gauge len s)) (call c f)
      (fun _ s => Room len cap o m (gauge len s)) fun _ s => Room len cap o 0 (gauge len s) := by
  have hfeeds : Feeds len f 0 := by
    intro w
    have hw := hf w
    revert hw
    rcases exec f w with ⟨e | a, w'⟩
    · exact fun hw => hw.trans_le (by omega)
    · exact fun hw => hw.trans (by omega)
  nth_rewrite 2 [← sub_zero m]
  exact call_feeds hfeeds le_rfl hm (by omega)

/-- An event; a `CHUNK` event reports the length and leaves room for what is owed. -/
lemma Contract.emit (hc : Contract env len cap) {ev : Event} {m : ℤ} (hm : 0 ≤ m)
    {P : Core α σ → Prop} {E : Status → Core α σ → Prop}
    (hP : ∀ s, P s → Room len cap o m (gauge len s) ∧
      ∀ i text n stop lo hi kv, ev = .chunk i text n stop lo hi kv → kv = len s.world ∧ o ≤ m) :
    Triple P (emit env ev) (fun _ s => Room len cap o m (gauge len s)) E := by
  intro s hs
  obtain ⟨hroom, hchunk⟩ := hP s hs
  have hfree : len s.world + m ≤ cap := hroom.1
  have hlen := hc.onEvent ev s.world
  have hevent : Entry.Within len cap o (.event ev s.world : Entry α σ) := by
    refine ⟨by omega, fun i text n stop lo hi kv hev => ?_⟩
    obtain ⟨hkv, ho⟩ := hchunk i text n stop lo hi kv hev
    exact ⟨hkv, by omega⟩
  have hafter : len (env.onEvent ev s.world).2 + m ≤ cap := by omega
  exact hroom.snoc hafter hevent

/-! ### A chunk -/

lemma Contract.stepText (hc : Contract env len cap) {m : ℤ} (hm : 0 ≤ m) (n : ℕ)
    (step : Text → Text) :
    Triple (fun s => Room len cap o m (gauge len s)) (stepText env n step)
      (fun _ s => Room len cap o m (gauge len s)) fun _ s => Room len cap o 0 (gauge len s) := by
  have hdelta : ∀ d, Triple (fun s => Room len cap o m (gauge len s)) (emitDelta env n d)
      (fun _ s => Room len cap o m (gauge len s)) fun _ s => Room len cap o 0 (gauge len s) := by
    intro d
    refine Triple.ite (fun _ => Triple.pure fun _ hs => hs) fun _ => ?_
    refine Triple.bind (hc.allocate.weaken fun _ hg => hg.mono hm) fun _ => ?_
    refine Triple.bind (R := fun _ s => Room len cap o m (gauge len s))
      (Triple.modify fun _ hs => hs) fun _ => hc.emit hm fun s hs => ⟨hs, ?_⟩
    rintro _ _ _ _ _ _ _ ⟨⟩
  refine Triple.bind (hc.allocate.weaken fun _ hg => hg.mono hm) fun _ => ?_
  refine Triple.bind (R := fun _ s => Room len cap o m (gauge len s))
    (Triple.modify fun _ hs => hs) fun _ => Triple.get_bind fun s hs => ?_
  exact hdelta s.text.out s hs

/-- The prefill takes its rows and leaves the place for the chunk end. -/
lemma Contract.prefill (hc : Contract env len cap) (w : Window α) :
    Triple (fun s => Room len cap o 0 (gauge len s)) (prefill env p w)
      (fun _ s => Room len cap o 1 (gauge len s)) fun _ s => Room len cap o 0 (gauge len s) := by
  have hrows : ∀ r : List ℤ × ℕ, Triple (fun s => Room len cap o 0 (gauge len s))
      (prefillRows env p w r) (fun _ s => Room len cap o 1 (gauge len s))
      fun _ s => Room len cap o 0 (gauge len s) := by
    intro r
    refine Triple.bind (hc.checkCancelled.weaken fun _ => id) fun _ => ?_
    refine Triple.bind (hc.checkFits (r.1.length + 1)) fun _ => ?_
    refine Triple.bind (call_feeds (hc.prefillChunk _) (Int.natCast_nonneg _) (by simp [chunkOf])
      le_rfl) fun tok => ?_
    refine Triple.bind (R := fun _ s => Room len cap o 1 (gauge len s)) (Triple.modify ?_)
      fun _ => Triple.pure fun _ hs => hs
    intro s hs
    exact hs.mono (by simp [chunkOf])
  refine Triple.get_bind fun s hs => ?_
  cases layoutRows p s.pendingLead with
  | none => exact hs
  | some r => exact hrows r s hs

/-- A token takes one position, and the place for the chunk end stays free. -/
lemma Contract.feedToken (hc : Contract env len cap) (n : ℕ) (tok : ℤ) :
    Triple (fun s => Room len cap o 1 (gauge len s)) (feedToken env n tok)
      (fun _ s => Room len cap o 1 (gauge len s)) fun _ s => Room len cap o 0 (gauge len s) := by
  have hweak : ∀ g : ℤ × List (Entry α σ), Room len cap o 1 g → Room len cap o 0 g :=
    fun _ hg => hg.mono zero_le_one
  refine Triple.bind (R := fun _ s => Room len cap o 1 (gauge len s)) (Triple.modify fun _ hs => hs)
    fun _ => ?_
  refine Triple.bind (call_keeps (hc.tokenBytes tok) zero_le_one rfl) fun bytes => ?_
  refine Triple.bind (hc.stepText zero_le_one n _) fun _ => ?_
  refine Triple.bind (hc.checkCancelled.weaken hweak) fun _ => ?_
  refine Triple.bind ((hc.checkFits 2).conseq (fun s => hweak _) (fun _ _ => id) fun _ _ => id)
    fun _ => ?_
  exact (call_feeds (hc.decodeStep tok) zero_le_one one_le_two le_rfl)

lemma Contract.decode (hc : Contract env len cap) (n left : ℕ) (tok : ℤ) (nGen genCap : ℕ) :
    Triple (fun s => Room len cap o 1 (gauge len s)) (decode env p n left tok nGen genCap)
      (fun _ s => Room len cap o 1 (gauge len s)) fun _ s => Room len cap o 0 (gauge len s) := by
  induction left generalizing tok nGen genCap with
  | zero => exact Triple.pure fun _ hs => hs
  | succ left ih =>
    refine Triple.ite (fun _ => Triple.pure fun _ hs => hs) fun _ => ?_
    refine Triple.ite (fun _ => Triple.pure fun _ hs => hs) fun _ => ?_
    refine Triple.bind ((hc.growGen _ _).weaken fun _ hg => hg.mono zero_le_one) fun genCap => ?_
    exact Triple.bind (hc.feedToken n tok) fun next => ih next _ genCap

/-- The chunk end takes the place that was kept for it, now or later. -/
lemma Contract.endChunk (hc : Contract env len cap) :
    Triple (fun s => Room len cap o 1 (gauge len s)) (endChunk env p)
      (fun _ s => Room len cap o (owed env p) (gauge len s))
      fun _ s => Room len cap o 0 (gauge len s) := by
  rw [Stream.endChunk]
  cases happend : env.appendTokens with
  | none =>
    have howed : owed env p = 1 := by simp [owed, happend]
    rw [howed]
    exact Triple.modify fun _ hs => hs
  | some append =>
    refine Triple.ite (fun hfold => ?_) fun hfold => ?_
    · have howed : owed env p = 1 := by simp [owed, hfold]
      rw [howed]
      exact Triple.modify fun _ hs => hs
    · have howed : owed env p = 0 := by simp [owed, hfold, happend]
      rw [howed]
      exact call_feeds (hc.appendTokens append happend _) zero_le_one le_rfl le_rfl

lemma owed_nonneg : 0 ≤ owed env p := by
  rw [owed]
  split_ifs <;> decide

/-- The `CHUNK` event. -/
lemma Contract.commitChunk (hc : Contract env len cap) (w : Window α) (r : ℕ × Stop) :
    Triple (fun s => Room len cap (owed env p) (owed env p) (gauge len s)) (commitChunk env p w r)
      (fun _ s => Room len cap (owed env p) 0 (gauge len s))
      fun _ s => Room len cap (owed env p) 0 (gauge len s) := by
  refine Triple.bind (hc.allocate.weaken fun _ hg => hg.mono owed_nonneg) fun _ => ?_
  refine Triple.bind (R := fun _ s => Room len cap (owed env p) (owed env p) (gauge len s))
    (Triple.modify fun _ hs => hs) fun _ => Triple.get_bind fun s hs => ?_
  refine Triple.bind (R := fun _ s => Room len cap (owed env p) (owed env p) (gauge len s))
    (hc.emit (P := (· = s)) owed_nonneg ?_) (fun _ => ?_) s rfl
  · rintro _ rfl
    refine ⟨hs, ?_⟩
    rintro _ _ _ _ _ _ _ ⟨⟩
    exact ⟨by simp [Stream.kvLen, hc.kvLen], le_rfl⟩
  · exact (hc.checkCancelled.triple _).conseq (fun _ => id)
      (fun _ _ hg => hg.mono owed_nonneg) fun _ _ hg => hg.mono owed_nonneg

/-- Reporting a failure needs no room. -/
lemma Contract.report (hc : Contract env len cap) {act : Act α σ β} {chunk : ℤ}
    {P : Core α σ → Prop} {Q : β → Core α σ → Prop}
    (h : Triple P act Q fun _ s => Room len cap o 0 (gauge len s)) :
    Triple P (report env chunk act) Q fun _ s => Room len cap o 0 (gauge len s) := by
  refine Triple.tryCatch h fun st => Triple.get_bind fun s hs => ?_
  cases s.failed with
  | some e => exact hs
  | none =>
    refine Triple.bind (P := (· = s)) (R := fun _ t => Room len cap o 0 (gauge len t))
      (Triple.modify ?_) (fun _ => ?_) s rfl
    · rintro _ rfl
      exact hs
    · refine Triple.ite (fun _ => Triple.throw fun _ ht => ht) fun _ => ?_
      refine Triple.bind (hc.emit le_rfl fun t ht => ⟨ht, ?_⟩) fun _ =>
        Triple.throw fun _ ht => ht
      rintro _ _ _ _ _ _ _ ⟨⟩

/-- **A chunk** stays within the capacity. -/
lemma Contract.runChunk (hc : Contract env len cap) (w : Window α) :
    Bounded len cap (owed env p) id (runChunk env p w) := by
  refine hc.report (Triple.bind (hc.prefill w) fun tok => ?_)
  refine Triple.bind (hc.decode w.index _ tok 0 256) fun r => ?_
  refine Triple.bind (hc.stepText zero_le_one w.index textFlush) fun _ => ?_
  exact Triple.bind hc.endChunk fun _ => hc.commitChunk w r

lemma Contract.runChunks (hc : Contract env len cap) (ws : List (Window α)) :
    Bounded len cap (owed env p) id (runChunks env p ws) := by
  induction ws with
  | nil => exact Triple.pure fun _ hs => hs
  | cons w ws ih => exact Triple.bind (hc.runChunk w) fun _ => ih

/-! ### The session -/

/-- A program on the core of a session that stays within the capacity. -/
lemma onCore_bounded {act : Act α σ β} (h : Bounded len cap o id act) :
    Bounded len cap o Session.core (onCore act) :=
  fun s hs => onCore_post (h s.core hs)

lemma Contract.poll (hc : Contract env len cap) (chunk : ℤ) :
    Bounded len cap o Session.core
      (onCore (Stream.report env chunk (Stream.checkCancelled env))) :=
  onCore_bounded (hc.report (hc.checkCancelled.weaken fun _ => id))

lemma Contract.aheadBuffer (hc : Contract env len cap) :
    Bounded len cap o Session.core (aheadBuffer env) := by
  refine Triple.get_bind fun s hs => ?_
  cases s.ahead with
  | true => exact hs
  | false =>
    exact Triple.bind (onCore_bounded (hc.report (hc.allocate.weaken fun _ => id)))
      (fun _ => Triple.modify fun _ ht => ht) s hs

lemma Contract.emitDone (hc : Contract env len cap) (total : ℕ) :
    Bounded len cap o id (emitDone env total) := by
  refine Triple.bind (R := fun _ s => Room len cap o 0 (gauge len s)) (Triple.modify fun _ hs => hs)
    fun _ => Triple.get_bind fun s hs => ?_
  refine hc.emit (P := (· = s)) le_rfl ?_ s rfl
  rintro _ rfl
  refine ⟨hs, ?_⟩
  rintro _ _ _ _ _ _ _ ⟨⟩

section Drain

variable [Zero α]

lemma Contract.drainOne (hc : Contract env len cap) :
    Bounded len cap (owed env p) Session.core (drainOne env p) := by
  refine Triple.get_bind fun s hs => ?_
  cases chunkerNext s.chunker with
  | none => exact hs
  | some r => exact onCore_bounded (hc.runChunk r.1) { s with chunker := r.2 } hs

lemma Contract.drainRound (hc : Contract env len cap) (ready : ℕ) :
    Bounded len cap (owed env p) Session.core (drainRound env p ready) := by
  rw [Stream.drainRound]
  cases hahead : env.encodeAhead with
  | none => exact hc.drainOne
  | some encode =>
    refine Triple.ite (fun _ => ?_) fun _ => hc.drainOne
    refine Triple.bind hc.aheadBuffer fun _ => Triple.get_bind fun s hs => ?_
    have hencode : ∀ first ws, Bounded len cap (owed env p) id
        (call (.encodeAhead first ws) (encode first ws)) :=
      fun first ws => call_keeps (hc.encodeAhead encode hahead first ws) le_rfl rfl
    exact Triple.bind (onCore_bounded (hc.report (hencode _ _)))
      (fun _ => onCore_bounded (hc.runChunks _))
      { s with chunker := (popUpTo aheadMax s.chunker).2 } hs

lemma Contract.drain (hc : Contract env len cap) :
    Bounded len cap (owed env p) Session.core (drain env p) := by
  have hloop : ∀ n, Bounded len cap (owed env p) Session.core (drainLoop env p n) := by
    intro n
    induction n with
    | zero => exact Triple.pure fun _ hs => hs
    | succ n ih =>
      refine Triple.get_bind fun s hs => ?_
      by_cases hready : chunkerReady s.chunker = 0
      · rw [if_pos hready]
        exact hs
      · rw [if_neg hready]
        exact Triple.bind (hc.poll (-1)) (fun _ => Triple.bind (hc.drainRound _) fun _ => ih) s hs
  exact Triple.get_bind fun s hs => hloop _ s hs

lemma Contract.push (hc : Contract env len cap) (pcm : Option (List α)) :
    Bounded len cap (owed env p) Session.core (push env p pcm) := by
  refine Triple.get_bind fun s hs => ?_
  cases s.core.failed with
  | some e => exact hs
  | none =>
    refine Triple.bind (hc.poll (-1)) (fun _ => ?_) s hs
    refine Triple.bind (R := fun _ s => Room len cap (owed env p) 0 (gauge len s.core))
      (Triple.failIf (fun _ _ ht => ht) fun _ _ ht => ht) fun _ => ?_
    refine Triple.bind (onCore_bounded (hc.takeBlock.weaken fun _ => id)) fun mem => ?_
    cases chunkerPush s.chunker pcm mem with
    | error st => exact onCore_bounded (hc.report (Triple.throw fun _ ht => ht))
    | ok c =>
      exact Triple.bind (R := fun _ s => Room len cap (owed env p) 0 (gauge len s.core))
        (Triple.modify fun _ ht => ht) fun _ => hc.drain

lemma Contract.finish (hc : Contract env len cap) :
    Bounded len cap (owed env p) Session.core (finish env p) := by
  refine Triple.get_bind fun s hs => ?_
  cases s.core.failed with
  | some e => exact hs
  | none =>
    cases s.core.done with
    | true => exact hs
    | false =>
      refine Triple.bind (hc.poll (-1)) (fun _ => ?_) s hs
      refine Triple.bind (R := fun _ s => Room len cap (owed env p) 0 (gauge len s.core))
        (Triple.modify fun _ ht => ht) fun _ => ?_
      refine Triple.bind hc.drain fun _ => Triple.get_bind fun t ht => ?_
      exact onCore_bounded (hc.emitDone t.chunker.total) t ht

/-- **A call** on a session stays within the capacity. -/
lemma Contract.step (hc : Contract env len cap) {s s' : Session α σ} {op : SessionOp α}
    {r : Except Status Unit} (hs : Room len cap (owed env p) 0 (gauge len s.core))
    (hstep : sessionStep env p s op = some (r, s')) :
    Room len cap (owed env p) 0 (gauge len s'.core) := by
  have hexec : ∀ {f : Program Status (Session α σ) Unit},
      Bounded len cap (owed env p) Session.core f → exec f s = (r, s') →
        Room len cap (owed env p) 0 (gauge len s'.core) := by
    intro f hf hexec
    have hpost := hf s hs
    rw [hexec] at hpost
    cases r with
    | error e => exact hpost
    | ok u => exact hpost
  cases op with
  | push pcm => exact hexec (hc.push pcm) (Option.some.inj hstep)
  | finish => exact hexec hc.finish (Option.some.inj hstep)
  | cancel =>
    cases hstep
    exact hs

end Drain

/-! ### Opening -/

/-- The prompt goes into an empty cache, and leaves a place. -/
lemma Contract.openPrompt (hc : Contract env len cap) :
    Triple (fun s => gauge len s = (0, [])) (openPrompt env p)
      (fun _ s => Room len cap o 0 (gauge len s)) fun _ _ => True := by
  refine Triple.bind ((keeps_onWorld_gauge (hc.encodeText _)).weaken (P := (· = (0, [])))
    fun _ _ => trivial) fun ids => Triple.get_bind fun s hs => ?_
  refine Triple.bind (P := (· = s)) (R := fun _ t => Room len cap o (ids.length + 1) (gauge len t))
    (Triple.failIf (fun _ _ _ => trivial) ?_) (fun _ => ?_) s rfl
  · rintro hfits _ rfl
    rw [hs]
    simp [hc.kvCapacity, kvCap] at hfits
    exact ⟨by omega, by simp⟩
  · refine Triple.bind ((call_feeds (m := ids.length + 1) (hc.prefillPrompt ids)
      (Int.natCast_nonneg _) (by omega) le_rfl).conseq (fun _ => id) (fun _ _ => id)
        fun _ _ _ => trivial) fun _ => Triple.modify ?_
    intro t ht
    exact ht.mono (by omega)

lemma Contract.open_ (hc : Contract env len cap) {w : σ} (hempty : len w = 0) {s : Session α σ}
    (h : openBackend env p w = .ok s) : Room len cap o 0 (gauge len s.core) := by
  refine openBackend_post env p (P := fun t => gauge len t = (0, []))
    (Q := fun t => Room len cap o 0 (gauge len t)) (fun t ht => ?_) (fun t ht => ?_) hc.openPrompt
    (by simp [gauge, Core.fresh, hempty]) h
  · exact (hc.allocate t).trans ht
  · exact (hc.takeBlock t).trans ht

/-! ### Every run -/

/-- A chunk that does not fit is refused before any of its rows is fed. -/
lemma Contract.runChunk_overflow (hc : Contract env len cap) {s : Core α σ} {w : Window α}
    {r : List ℤ × ℕ} (hrows : layoutRows p s.pendingLead = some r) (hfail : s.failed = none)
    (hcancel : (s.cancel || (env.cancelArrives s.world).1) = false)
    (hfull : cap < len s.world + r.1.length + 1) :
    ∃ s', exec (Stream.runChunk env p w) s = (.error .overflow, s') ∧ s'.failed = some .overflow ∧
      ∃ world, s'.log =
        s.log ++ [.event (.error w.index .overflow (statusStr .overflow)) world] := by
  obtain ⟨hflag, harrives⟩ := Bool.or_eq_false_iff.mp hcancel
  have hlen := hc.cancelArrives s.world
  let t : Core α σ := { s with world := (env.cancelArrives s.world).2, cancel := false }
  have hfits : ¬ kvFits env t (r.1.length + 1) := by
    rw [hc.kvFits_iff, hlen]
    omega
  have hbody : exec (chunkBody env p w) s = (.error .overflow, t) := by
    simp [chunkBody, Stream.prefill, prefillRows, hrows, Stream.checkCancelled, Stream.checkFits,
      failIf, hflag, harrives, hfits, t]
  rw [Stream.runChunk, Stream.report, exec_tryCatch, hbody]
  simp [fail, t, hfail]

/-- The cache of a session and the log of its calls and events. -/
structure WithinCapacity (env : Env α σ) (p : Params) (len : σ → ℤ) (cap : ℤ)
    (s : Session α σ) : Prop where
  state : len s.core.world ≤ cap
  log : ∀ e ∈ s.core.log, e.Within len cap (owed env p)

/-- **Capacity**: every call of every session fits into the cache with the place for the chunk end,
every `CHUNK` event leaves that place if it is still owed, and a chunk that does not fit is
refused before it is fed. -/
theorem session_capacity [Zero α] (hc : Contract env len cap) {w : σ} (hempty : len w = 0)
    {ops : List (SessionOp α)} {s : Session α σ} (h : sessionRun env p w ops = some s) :
    WithinCapacity env p len cap s ∧
      ∀ (c : Core α σ) (w : Window α) (r : List ℤ × ℕ), layoutRows p c.pendingLead = some r →
        c.failed = none → (c.cancel || (env.cancelArrives c.world).1) = false →
        cap < len c.world + r.1.length + 1 →
        ∃ c', exec (runChunk env p w) c = (.error .overflow, c') ∧ c'.failed = some .overflow ∧
          ∃ world, c'.log =
            c.log ++ [.event (.error w.index .overflow (statusStr .overflow)) world] := by
  obtain ⟨s₀, hopen, hrun⟩ := (sessionRun_eq_some env p).mp h
  have hr : Reachable (sessionStep env p) s₀ s := ⟨ops, hrun⟩
  have hroom : Room len cap (owed env p) 0 (gauge len s.core) :=
    hr.induct (P := fun s => Room len cap (owed env p) 0 (gauge len s.core))
      (hc.open_ hempty hopen) fun _ _ _ _ hs hstep => hc.step hs hstep
  refine ⟨⟨?_, hroom.2⟩, fun c w r hrows hfail hcancel hfull =>
    hc.runChunk_overflow hrows hfail hcancel hfull⟩
  have hfree := hroom.1
  simpa [gauge] using hfree

/-- The counting backend keeps the contract. -/
lemma countingEnv_contract (cap : ℤ) (batched appends : Bool) :
    Contract (countingEnv cap batched appends) (fun n => (n : ℤ)) cap where
  kvLen := rfl
  kvCapacity := rfl
  encodeText _ _ := rfl
  tokenBytes _ _ := rfl
  prefillPrompt ids n := Int.natCast_add n ids.length
  prefillChunk c n := Int.natCast_add n c.rows.length
  decodeStep _ n := Int.natCast_add n 1
  encodeAhead f hf first ws n := by
    cases batched <;> cases hf
    rfl
  appendTokens f hf ids n := by
    cases appends <;> cases hf
    exact Int.natCast_add n ids.length
  alloc _ := rfl
  block _ := rfl
  cancelArrives _ := rfl
  onEvent _ _ := rfl

end Calls

/-- Of a cache of thirteen positions the prompt and the first chunk take eight, and the second
chunk, five rows and the chunk end, is refused. -/
theorem session_capacity_counting :
    ∃ s, sessionRun (countingEnv 13 true true) (smallParams false) 0
        [.push (some [5, 6, 7]), .finish] = some s ∧ s.core.failed = some .overflow ∧
      WithinCapacity (countingEnv 13 true true) (smallParams false) (fun n => (n : ℤ)) 13 s := by
  have hrun : (sessionRun (countingEnv 13 true true) (smallParams false) 0
      [.push (some [5, 6, 7]), .finish]).map (·.core.failed) = some (some .overflow) := by
    decide +kernel
  obtain ⟨s, hs, hfailed⟩ := Option.map_eq_some_iff.mp hrun
  exact ⟨s, hs, hfailed, (session_capacity (countingEnv_contract 13 true true) rfl hs).1⟩

end VibeVoice.Stream
