import VibeVoice.Engine.Requests

/-!
What a call of the engine owes to the slot it takes: it is given back with no page and with
`no_wait` off, whichever call on the way fails.

* `slotContract`: when a call is allowed, by what the request knows of its slot.
* `TakesPages`, `Inside`: the parts of a request that keep to the slot they are given.
* `gpuDestroy_meets`, `streamOpen_meets`, `inferenceTranscribe_meets`,
  `inferenceGenerate_meets`: each path cleans up after itself.
* `Entry.meets`: a call that starts without a slot ends without one, unless it opens a stream.
-/

namespace VibeVoice.Engine

open Calls Fallible

/-- What a request knows of the slot it holds: whether its cache may own pages, and `no_wait`. -/
structure Lease where
  pages : Bool
  noWait : Bool
  deriving DecidableEq, Repr

/-- A slot as `acquire_slot_wait` hands it out, and as `release_slot` has to get it back. -/
def Lease.clean : Lease := { pages := false, noWait := false }

/-- What a call and its answer make of it; `none` without a slot. -/
def after : Call → Answer → Option Lease → Option Lease
  | .op _, _, s => s
  | .reservePages _, .ok (), s => s.map fun l => { l with pages := true }
  | .reservePages _, .error _, s => s
  | .kvCacheRelease, _, s => s.map fun l => { l with pages := false }
  | .kvCacheReset, _, s => s.map fun l => { l with pages := false }
  | .setNoWait on, _, s => s.map fun l => { l with noWait := on }
  | .acquireSlot _, .ok (), _ => some .clean
  | .acquireSlot _, .error _, _ => none
  | .releaseSlot _, _, _ => none

/-- A request takes a slot when it has none, works on the slot it has, and gives it back clean. -/
def Allowed : Call → Option Lease → Prop
  | .op _, _ => True
  | .acquireSlot _, s => s = none
  | .releaseSlot _, s => s = some .clean
  | _, s => s.isSome

/-- The two together. -/
def slotContract : Contract Call Answer (Option Lease) where
  pre := Allowed
  post c s r s' := s' = after c r s

/-! ### Rules -/

section Rules

variable {α : Type} {Q : Except Status α → Option Lease → Prop} {s : Option Lease}

/-- A call, and the two ways to go on. -/
lemma meets_perform {c : Call} {f : Unit → Request α} (hc : Allowed c s)
    (herr : ∀ e, Q (.error e) (after c (.error e) s))
    (hok : Meets slotContract Q (f ()) (after c (.ok ()) s)) :
    Meets slotContract Q (perform c >>= f) s := by
  refine ⟨hc, fun r s' hs' => ?_⟩
  obtain rfl : s' = after c r s := hs'
  cases r with
  | ok u => exact hok
  | error e => exact herr e

/-- What touches no slot leaves what is known of it. -/
lemma meets_op {o : Op} {f : Unit → Request α} (herr : ∀ e, Q (.error e) s)
    (hok : Meets slotContract Q (f ()) s) : Meets slotContract Q (op o >>= f) s :=
  meets_perform trivial herr hok

end Rules

/-! ### The parts that keep to their slot -/

/-- The calls of a request that wants its pages and waits for them. -/
def TakesPages : Call → Prop
  | .op _ | .reservePages _ | .kvCacheRelease | .kvCacheReset => True
  | _ => False

/-- The calls that keep the slot. -/
def Inside : Call → Prop
  | .acquireSlot _ | .releaseSlot _ => False
  | _ => True

lemma TakesPages.inside : ∀ c, TakesPages c → Inside c
  | .op _, _ | .reservePages _, _ | .kvCacheRelease, _ | .kvCacheReset, _ => trivial

lemma uses_perform {P : Call → Prop} {c : Call} (h : P c) : Uses P (perform c) := Code.uses_ask h

lemma op_uses (o : Op) : Uses TakesPages (op o) := uses_perform trivial

lemma test_uses : Uses TakesPages test := uses_bind (uses_attempt (op_uses _)) fun _ => trivial

lemma kvCacheReserve_uses : Uses TakesPages kvCacheReserve := uses_perform trivial

lemma kvCacheReserveWait_uses : Uses TakesPages kvCacheReserveWait := uses_perform trivial

lemma pipelineKvReset_uses : Uses TakesPages pipelineKvReset :=
  uses_bind (uses_ignore (uses_perform trivial)) fun _ => uses_ignore (op_uses _)

lemma decoderPrefill_uses : Uses TakesPages decoderPrefill :=
  uses_bind (op_uses _) fun _ => uses_bind kvCacheReserve_uses fun _ =>
    uses_bind (op_uses _) fun _ => op_uses _

lemma decoderStep_uses : Uses TakesPages decoderStep :=
  uses_bind (op_uses _) fun _ => uses_bind kvCacheReserve_uses fun _ =>
    uses_bind (op_uses _) fun _ => uses_bind (op_uses _) fun _ => op_uses _

lemma captureStep_uses : Uses TakesPages captureStep := by
  refine uses_bind (uses_attempt (op_uses _)) fun r => ?_
  cases r with
  | error e => trivial
  | ok u =>
    exact uses_bind (uses_attempt decoderStep_uses) fun _ =>
      uses_bind (uses_attempt (op_uses _)) fun _ => trivial

lemma replayStep_uses : Uses TakesPages replayStep := by
  refine uses_bind test_uses fun captured => ?_
  split_ifs
  · exact op_uses _
  · refine uses_bind captureStep_uses fun launch => ?_
    split_ifs
    · exact op_uses _
    · exact decoderStep_uses

lemma stepSlice_uses : Uses TakesPages stepSlice := by
  refine uses_bind (op_uses _) fun _ => uses_bind kvCacheReserveWait_uses fun _ =>
    uses_bind test_uses fun graph => ?_
  split_ifs
  · exact replayStep_uses
  · exact decoderStep_uses

section Loops

variable {before next : Request Unit}

lemma decodeTurn_uses (hbefore : Uses TakesPages before) (hnext : Uses TakesPages next) :
    Uses TakesPages (decodeTurn before next) := by
  refine uses_bind hbefore fun _ => uses_bind (uses_attempt stepSlice_uses) fun r => ?_
  rcases r with e | u
  · cases e <;> trivial
  · exact uses_bind hnext fun _ => trivial

lemma decodeLoop_uses (hbefore : Uses TakesPages before) (hnext : Uses TakesPages next) (n : ℕ) :
    Uses TakesPages (decodeLoop before next n) := by
  induction n with
  | zero => trivial
  | succ n ih =>
    refine uses_bind test_uses fun stop => ?_
    split_ifs
    · trivial
    · refine uses_bind (decodeTurn_uses hbefore hnext) fun more => ?_
      split_ifs
      · exact ih
      · trivial

end Loops

lemma transcribeGpu_uses (n : ℕ) : Uses TakesPages (transcribeGpu n) := by
  have hloop : Uses TakesPages (decodeLoop (op .embedding) (do op .head; op .alloc) n) :=
    decodeLoop_uses (op_uses _) (uses_bind (op_uses _) fun _ => op_uses _) n
  refine uses_bind (op_uses _) fun _ => uses_bind pipelineKvReset_uses fun _ =>
    uses_bind (op_uses _) fun _ => uses_bind (op_uses _) fun _ =>
    uses_bind kvCacheReserveWait_uses fun _ => ?_
  refine uses_bind (op_uses _) fun _ => uses_bind (op_uses _) fun _ =>
    uses_bind (op_uses _) fun _ => uses_bind (op_uses _) fun _ => uses_bind (op_uses _) fun _ =>
    uses_bind decoderPrefill_uses fun _ => ?_
  exact uses_bind (op_uses _) fun _ => uses_bind (op_uses _) fun _ =>
    uses_bind (op_uses _) fun _ => uses_bind hloop fun _ => op_uses _

lemma generateBody_uses (n : ℕ) : Uses TakesPages (generateBody n) := by
  have hbefore : Uses TakesPages (do op .alloc; op .callback; op .embedding) :=
    uses_bind (op_uses _) fun _ => uses_bind (op_uses _) fun _ => op_uses _
  have hnext : Uses TakesPages (do op .head; op .sample) :=
    uses_bind (op_uses _) fun _ => op_uses _
  exact uses_bind (op_uses _) fun _ => uses_bind (op_uses _) fun _ =>
    uses_bind (op_uses _) fun _ => uses_bind decoderPrefill_uses fun _ =>
    uses_bind (op_uses _) fun _ => uses_bind (op_uses _) fun _ =>
    decodeLoop_uses hbefore hnext n

/-! A session also writes `no_wait`. -/

lemma op_inside (o : Op) : Uses Inside (op o) := uses_perform trivial

lemma test_inside : Uses Inside test := test_uses.mono TakesPages.inside

lemma gpuPrefillPrompt_inside (noWait : Bool) : Uses Inside (gpuPrefillPrompt noWait) :=
  uses_bind (op_inside _) fun _ =>
    uses_bind (pipelineKvReset_uses.mono TakesPages.inside) fun _ =>
    uses_bind (uses_ignore (uses_perform trivial)) fun _ => uses_bind (op_inside _) fun _ =>
    uses_bind (uses_perform trivial) fun _ => uses_bind (op_inside _) fun _ =>
    uses_bind (decoderPrefill_uses.mono TakesPages.inside) fun _ => op_inside _

lemma gpuPrefillChunk_inside : Uses Inside gpuPrefillChunk :=
  uses_bind (op_inside _) fun _ => uses_bind (op_inside _) fun _ =>
    uses_bind (uses_perform trivial) fun _ => uses_bind (op_inside _) fun _ =>
    uses_bind (op_inside _) fun _ => uses_bind (op_inside _) fun _ =>
    uses_bind (op_inside _) fun _ =>
    uses_bind (decoderPrefill_uses.mono TakesPages.inside) fun _ => op_inside _

lemma gpuEncodeAhead_inside : Uses Inside gpuEncodeAhead :=
  uses_bind (op_inside _) fun _ => uses_bind (op_inside _) fun _ =>
    uses_bind (op_inside _) fun _ => op_inside _

lemma gpuDecodeStep_inside : Uses Inside gpuDecodeStep :=
  uses_bind (op_inside _) fun _ => uses_bind (op_inside _) fun _ =>
    uses_bind (op_inside _) fun _ =>
    uses_bind (stepSlice_uses.mono TakesPages.inside) fun _ => op_inside _

lemma chunkLoop_inside (n : ℕ) : Uses Inside (chunkLoop n) := by
  induction n with
  | zero => trivial
  | succ n ih =>
    refine uses_bind test_inside fun stop => ?_
    split_ifs
    · trivial
    · exact uses_bind (op_inside _) fun _ => uses_bind (op_inside _) fun _ =>
        uses_bind (op_inside _) fun _ => uses_bind (op_inside _) fun _ =>
        uses_bind gpuDecodeStep_inside fun _ => ih

lemma runChunk_inside (n : ℕ) : Uses Inside (runChunk n) :=
  uses_bind (op_inside _) fun _ => uses_bind gpuPrefillChunk_inside fun _ =>
    uses_bind (chunkLoop_inside n) fun _ => uses_bind (op_inside _) fun _ =>
    uses_bind (op_inside _) fun _ => uses_bind (op_inside _) fun _ =>
    uses_bind (op_inside _) fun _ => op_inside _

lemma runChunks_inside (n k : ℕ) : Uses Inside (runChunks n k) := by
  induction k with
  | zero => trivial
  | succ k ih =>
    refine uses_bind test_inside fun stop => ?_
    split_ifs
    · trivial
    · exact uses_bind (runChunk_inside n) fun _ => ih

lemma drainTurn_inside (n : ℕ) : Uses Inside (drainTurn n) := by
  refine uses_bind test_inside fun together => ?_
  split_ifs
  · exact uses_bind (op_inside _) fun _ => uses_bind gpuEncodeAhead_inside fun _ =>
      runChunks_inside n _
  · exact runChunk_inside n

lemma drain_inside (n k : ℕ) : Uses Inside (drain n k) := by
  induction k with
  | zero => trivial
  | succ k ih =>
    refine uses_bind test_inside fun stop => ?_
    split_ifs
    · trivial
    · exact uses_bind (op_inside _) fun _ => uses_bind (drainTurn_inside n) fun _ => ih

lemma streamPush_inside (n k : ℕ) : Uses Inside (streamPush n k) :=
  uses_bind (op_inside _) fun _ => uses_bind (op_inside _) fun _ => drain_inside n k

lemma streamFinish_inside (n k : ℕ) : Uses Inside (streamFinish n k) :=
  uses_bind (op_inside _) fun _ => drain_inside n k

lemma transcribeSession_inside (n k : ℕ) : Uses Inside (transcribeSession n k) :=
  uses_bind (streamPush_inside n k) fun _ => uses_bind (streamFinish_inside n k) fun _ =>
    uses_bind (op_inside _) fun _ => op_inside _

lemma openDevice_inside : Uses Inside (do op .setDevice; gpuOpen) :=
  uses_bind (op_inside _) fun _ => uses_bind (op_inside _) fun _ =>
    uses_bind (op_inside _) fun _ => op_inside _

lemma streamOpenBackend_inside (noWait : Bool) : Uses Inside (streamOpenBackend noWait) :=
  uses_bind (op_inside _) fun _ => uses_bind (op_inside _) fun _ =>
    uses_bind (op_inside _) fun _ => uses_bind (op_inside _) fun _ =>
    gpuPrefillPrompt_inside noWait

lemma finishSession_inside (n k : ℕ) : Uses Inside (finishSession n k) := by
  refine uses_bind (op_inside _) fun _ => uses_bind test_inside fun more => ?_
  split_ifs
  · exact uses_bind (streamPush_inside n k) fun _ => streamFinish_inside n k
  · exact streamFinish_inside n k

/-! ### Each path cleans up after itself -/

section Paths

variable {α : Type}

lemma inside_allowed {c : Call} (hc : Inside c) (l : Lease) : Allowed c (some l) := by
  cases c with
  | acquireSlot timed => exact hc.elim
  | releaseSlot ok => exact hc.elim
  | op o => trivial
  | _ => rfl

lemma inside_after {c : Call} (hc : Inside c) (r : Answer) (l : Lease) :
    ∃ l', after c r (some l) = some l' := by
  cases c with
  | acquireSlot timed => exact hc.elim
  | releaseSlot ok => exact hc.elim
  | reservePages wait => rcases r with e | u <;> exact ⟨_, rfl⟩
  | _ => exact ⟨_, rfl⟩

lemma takesPages_after {c : Call} (hc : TakesPages c) (r : Answer) (l : Lease) :
    ∃ l', after c r (some l) = some l' ∧ l'.noWait = l.noWait := by
  cases c with
  | acquireSlot timed => exact hc.elim
  | releaseSlot ok => exact hc.elim
  | setNoWait on => exact hc.elim
  | reservePages wait => rcases r with e | u <;> exact ⟨_, rfl, rfl⟩
  | _ => exact ⟨_, rfl, rfl⟩

/-- Code that keeps its slot still holds it at the end. -/
lemma inside_meets {p : Request α} (hp : Uses Inside p) (l : Lease) :
    Meets slotContract (fun _ s => ∃ l, s = some l) p (some l) := by
  refine hp.meets (I := fun s => ∃ l, s = some l) (fun c s hc hs => ?_) ⟨l, rfl⟩
  obtain ⟨l, rfl⟩ := hs
  refine ⟨inside_allowed hc l, fun r s' hs' => ?_⟩
  obtain rfl : s' = after c r (some l) := hs'
  exact inside_after hc r l

/-- And code that never writes `no_wait` leaves it off. -/
lemma takesPages_meets {p : Request α} (hp : Uses TakesPages p) {l : Lease}
    (hl : l.noWait = false) :
    Meets slotContract (fun _ s => ∃ l : Lease, s = some l ∧ l.noWait = false) p (some l) := by
  refine hp.meets (I := fun s => ∃ l : Lease, s = some l ∧ l.noWait = false)
    (fun c s hc hs => ?_) ⟨l, rfl, hl⟩
  obtain ⟨l, rfl, hl⟩ := hs
  refine ⟨inside_allowed (hc.inside c) l, fun r s' hs' => ?_⟩
  obtain rfl : s' = after c r (some l) := hs'
  obtain ⟨l', hl', hno⟩ := takesPages_after hc r l
  exact ⟨l', hl', hno.trans hl⟩

/-- A call nobody asks the outcome of, when both outcomes leave the same. -/
lemma ignore_perform {c : Call} {s t : Option Lease} (hc : Allowed c s)
    (h : ∀ r, after c r s = t) :
    Meets slotContract (fun r s' => r = .ok () ∧ s' = t) (ignore (perform c)) s :=
  ignore_meets ⟨hc, fun r s' hs' => by
    obtain rfl : s' = after c r s := hs'
    exact h r⟩

/-- `vv_pipeline_kv_release` gives the pages back. -/
lemma pipelineKvRelease_meets (l : Lease) :
    Meets slotContract (fun r s => r = .ok () ∧ s = some { l with pages := false })
      pipelineKvRelease (some l) :=
  meets_then (ignore_perform trivial fun _ => rfl) <|
    meets_then (ignore_perform rfl fun _ => rfl) <|
    ignore_perform trivial fun _ => rfl

/-- `gpu_destroy` leaves the slot as it was handed out. -/
lemma gpuDestroy_meets (l : Lease) :
    Meets slotContract (fun r s => r = .ok () ∧ s = some .clean) gpuDestroy (some l) :=
  meets_then (ignore_perform trivial fun _ => rfl) <|
    meets_then (ignore_perform trivial fun _ => rfl) <|
    meets_then (pipelineKvRelease_meets l) <|
    ignore_perform rfl fun _ => rfl

/-- What keeps the slot, and is undone by `gpu_destroy` when it fails. -/
lemma onFailure_meets {p : Request Unit} (hp : Uses Inside p) (l : Lease) :
    Meets slotContract (fun r s => match r with
      | .ok _ => ∃ l, s = some l
      | .error _ => s = some .clean) (onFailure p gpuDestroy) (some l) := by
  refine meets_attempt ((inside_meets hp l).mono fun r s hs => ?_)
  obtain ⟨l, rfl⟩ := hs
  cases r with
  | ok u => exact ⟨l, rfl⟩
  | error e => exact meets_then (gpuDestroy_meets l) rfl

/-- A session that does not open leaves nothing behind. -/
lemma streamOpen_meets (noWait : Bool) :
    Meets slotContract (fun r s => match r with
      | .ok _ => ∃ l, s = some l
      | .error _ => s = some .clean) (streamOpen noWait) (some .clean) := by
  refine meets_op (fun _ => rfl) <| meets_op (fun _ => rfl) <| meets_op (fun _ => rfl) <|
    meets_bind ((onFailure_meets openDevice_inside _).mono fun r s hs => ?_)
  cases r with
  | error e => exact hs
  | ok u =>
    obtain ⟨l, rfl⟩ := hs
    exact onFailure_meets (streamOpenBackend_inside noWait) l

/-- A whole clip through a session: closed however it went, once it was open. -/
lemma streamTranscribe_meets (n k : ℕ) :
    Meets slotContract (fun _ s => s = some .clean) (streamTranscribe n k) (some .clean) := by
  refine meets_op (fun _ => rfl) <|
    meets_bind ((streamOpen_meets false).mono fun r s hs => ?_)
  cases r with
  | error e => exact hs
  | ok u =>
    obtain ⟨l, rfl⟩ := hs
    refine meets_attempt ((inside_meets (transcribeSession_inside n k) l).mono fun r s hs => ?_)
    obtain ⟨l, rfl⟩ := hs
    exact meets_then (gpuDestroy_meets l) rfl

lemma inferenceTranscribe_meets (chunked : Bool) (n k : ℕ) :
    Meets slotContract (fun _ s => s = some .clean) (inferenceTranscribe chunked n k)
      (some .clean) := by
  refine meets_op (fun _ => rfl) <| meets_op (fun _ => rfl) ?_
  split_ifs
  · exact streamTranscribe_meets n k
  · refine meets_attempt ((takesPages_meets (transcribeGpu_uses n) rfl).mono fun r s hs => ?_)
    obtain ⟨⟨pages, noWait⟩, rfl, rfl⟩ := hs
    exact meets_then (ignore_perform trivial fun _ => rfl) <|
      meets_then (ignore_perform rfl fun _ => rfl) rfl

/-- A reservation that fails has kept nothing, so `vv_inference_generate` may return there. -/
lemma inferenceGenerate_meets (n : ℕ) :
    Meets slotContract (fun _ s => s = some .clean) (inferenceGenerate n) (some .clean) := by
  have hreset : Meets slotContract (fun r s => r = .ok () ∧ s = some .clean) pipelineKvReset
      (some .clean) :=
    meets_then (ignore_perform rfl fun _ => rfl) (ignore_perform trivial fun _ => rfl)
  refine meets_op (fun _ => rfl) <| meets_op (fun _ => rfl) <| meets_op (fun _ => rfl) <|
    meets_op (fun _ => rfl) <| meets_then hreset <| meets_perform rfl (fun _ => rfl) ?_
  refine meets_attempt ((takesPages_meets (generateBody_uses n) rfl).mono fun r s hs => ?_)
  obtain ⟨⟨pages, noWait⟩, rfl, rfl⟩ := hs
  refine meets_then (pipelineKvRelease_meets _) ?_
  cases r with
  | error e => rfl
  | ok u => exact ⟨trivial, fun r s' hs' => hs'⟩

/-- `release_slot` after a request that has left its slot clean. -/
lemma holdingSlot_meets {p : Request Unit}
    (hp : Meets slotContract (fun _ s => s = some .clean) p (some .clean)) :
    Meets slotContract (fun _ s => s = none) (holdingSlot p) (some .clean) := by
  refine meets_attempt (hp.mono fun r s hs => ?_)
  obtain rfl := hs
  exact meets_then (ignore_perform rfl fun _ => rfl) rfl

lemma engineTranscribe_meets (chunked : Bool) (n k : ℕ) :
    Meets slotContract (fun _ s => s = none) (engineTranscribe chunked n k) none :=
  meets_op (fun _ => rfl) <| meets_op (fun _ => rfl) <| meets_perform rfl (fun _ => rfl) <|
    holdingSlot_meets (inferenceTranscribe_meets chunked n k)

lemma engineGenerate_meets (n : ℕ) :
    Meets slotContract (fun _ s => s = none) (engineGenerate n) none :=
  meets_op (fun _ => rfl) <| meets_perform rfl (fun _ => rfl) <|
    holdingSlot_meets (inferenceGenerate_meets n)

/-! ### Streams of the engine -/

/-- A client has a slot when it has a stream, which has its session. -/
def Settled : Option EngineStream → Option Lease → Prop
  | none, s => s = none
  | some st, s => st.slot = true ∧ st.st = true ∧ ∃ l, s = some l

lemma engineStreamClose_meets {st : EngineStream} (hslot : st.slot = true) (hst : st.st = true)
    (l : Lease) :
    Meets slotContract (fun _ s => s = none) (engineStreamClose st) (some l) := by
  rw [engineStreamClose, if_pos hst, if_pos hslot]
  have hrelease : Meets slotContract (fun r s => r = .ok () ∧ s = none)
      (ignore (perform (.releaseSlot st.ok))) (some .clean) := ignore_perform rfl fun _ => rfl
  exact meets_then (gpuDestroy_meets l) (hrelease.mono fun _ _ h => h.2)

lemma openSession_meets (noWait : Bool) :
    Meets slotContract (fun r s => match r with
      | .ok st => Settled (some st) s
      | .error _ => s = none) (openSession noWait) (some .clean) := by
  have hopen : Meets slotContract (fun r s => match r with
      | .ok _ => ∃ l, s = some l
      | .error _ => s = some .clean) (do op .setDevice; streamOpen noWait) (some .clean) :=
    meets_op (fun _ => rfl) (streamOpen_meets noWait)
  refine meets_bind (meets_attempt (hopen.mono fun r s hs => ?_))
  cases r with
  | ok u => exact ⟨rfl, rfl, hs⟩
  | error e =>
    obtain rfl : s = some .clean := hs
    exact meets_then (ignore_perform (t := none) rfl fun _ => rfl) rfl

lemma engineStreamOpenEx_meets (timed noWait : Bool) :
    Meets slotContract (fun r s => match r with
      | .ok st => Settled (some st) s
      | .error _ => s = none) (engineStreamOpenEx timed noWait) none := by
  refine meets_op (fun _ => rfl) <| meets_op (fun _ => rfl) <| meets_op (fun _ => rfl) <|
    meets_attempt ⟨rfl, fun r s' hs' => ?_⟩
  obtain rfl : s' = after (.acquireSlot timed) r none := hs'
  cases r with
  | ok u => exact openSession_meets noWait
  | error e => rfl

/-- The stream a client has after a call is the one it returns, or else the one before. -/
lemma leaving_meets {before : Option EngineStream} {p : Request (Option EngineStream)}
    {s : Option Lease}
    (h : Meets slotContract (fun r s => match r with
      | .ok st => Settled st s
      | .error _ => Settled before s) p s) :
    Code.Meets slotContract Settled (leaving before p) s := by
  refine Code.Meets.bind (h.mono fun r s hr => ?_)
  cases r with
  | ok st => exact hr
  | error e => exact hr

/-- **A call of the engine keeps to the contract**: without a stream it starts and ends with no
slot, and with one in hand it keeps the slot until the stream is closed. -/
theorem Entry.meets {entry : Entry} {before : Option EngineStream} {code : Client}
    (hcode : entry.code before = some code) {s : Option Lease} (hs : Settled before s) :
    Code.Meets slotContract Settled code s := by
  cases before with
  | none =>
    obtain rfl : s = none := hs
    cases entry <;> simp only [Entry.code, Option.some.injEq, reduceCtorEq] at hcode <;>
      subst hcode
    case transcribe chunked n k =>
      refine leaving_meets (meets_bind ((engineTranscribe_meets chunked n k).mono ?_))
      rintro (e | u) s rfl <;> rfl
    case generate n =>
      refine leaving_meets (meets_bind ((engineGenerate_meets n).mono ?_))
      rintro (e | u) s rfl <;> rfl
    case streamOpenEx timed noWait =>
      refine leaving_meets (meets_bind ((engineStreamOpenEx_meets timed noWait).mono ?_))
      rintro (e | st) s hst <;> exact hst
  | some st =>
    obtain ⟨hslot, hst, l, rfl⟩ := hs
    cases entry <;> simp only [Entry.code, Option.some.injEq, reduceCtorEq] at hcode <;>
      subst hcode
    case push n k =>
      have hpush : Uses Inside (engineStreamPush n k) :=
        uses_bind (op_inside _) fun _ => streamPush_inside n k
      refine leaving_meets (meets_bind ((inside_meets hpush l).mono ?_))
      rintro (e | u) s hs <;> exact ⟨hslot, hst, hs⟩
    case finish n k =>
      refine leaving_meets (meets_bind (meets_attempt
        ((inside_meets (finishSession_inside n k) l).mono ?_)))
      rintro (e | u) s hs <;> exact ⟨hslot, hst, hs⟩
    case cancel => exact leaving_meets ⟨hslot, hst, l, rfl⟩
    case close =>
      refine leaving_meets (meets_bind ((engineStreamClose_meets hslot hst l).mono ?_))
      rintro (e | u) s rfl <;> rfl

end Paths

end VibeVoice.Engine
