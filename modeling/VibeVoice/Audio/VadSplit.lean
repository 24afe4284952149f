import VibeVoice.Lib.Pieces
import VibeVoice.Audio.Vad
import VibeVoice.Audio.Wav

/-!
The voice activity detector fed in pushes of any size.  Counts are whole numbers here too, the
product that gives the frame among them: the rates are those at which an `int` has room for it.

* `vvVadCreate`: the constructor; a detector it hands out has a frame of at least one sample, as
  `vv_alloc` hands out no empty block.
* `drainLoop`: the loop of `drain` on the FIFO as it lies in memory, compacted by `inPush`; with
  a frame of no sample it need not end.
* `drainLoop_ends`: it does end where the constructor was content, and does what `drain` does.
* `drainAll_eq`, `feedAll_eq`: what a client gets who drains after every push is one run over the
  frames of the whole stream.
* `split_invariant`: so the segments do not depend on the pushes.
-/

namespace VibeVoice.Vad

open Pieces

variable {σ γ α : Type} {cfg : Config}

/-! ### The constructor -/

/-- `vv_vad_params_t` as the calls use it: the rate, and the durations in samples. -/
structure Params where
  sampleRate : ℤ
  preRoll : ℤ
  minSpeech : ℤ
  hangover : ℤ
  maxSeg : ℤ

/-- `(size_t)n * sizeof(float)`. -/
def floatBytes (n : ℤ) : ℕ := (4 * n % 2 ^ 64).toNat

/-- `p.sample_rate * FRAME_MS / 1000`, where the rate is positive. -/
def frameOf (sampleRate : ℤ) : ℕ := (sampleRate * 20 / 1000).toNat

lemma frameOf_pos {alloc : Wav.Alloc} {rate : ℤ}
    (h : Wav.vvAlloc alloc (floatBytes (frameOf rate)) = true) : 0 < frameOf rate := by
  refine Nat.pos_of_ne_zero fun h0 => ?_
  rw [h0] at h
  exact Bool.false_ne_true h

/-- `vv_vad_create`, with the size of its struct. -/
def vvVadCreate (alloc : Wav.Alloc) (vadBytes : ℕ) (p : Params) : Except Status Config :=
  if p.sampleRate ≤ 0 then .error .invalidArg
  else if Wav.vvAlloc alloc vadBytes = false then .error .outOfMemory
  else if hacc : Wav.vvAlloc alloc (floatBytes (frameOf p.sampleRate)) = true then
    if Wav.vvAlloc alloc (floatBytes (p.preRoll + 1)) = true then
      .ok ⟨frameOf p.sampleRate, p.minSpeech, p.hangover, p.maxSeg, frameOf_pos hacc⟩
    else .error .outOfMemory
  else .error .outOfMemory

/-! ### The FIFO -/

/-- `in[0 .. in_len)` and `in_pos`. -/
structure Fifo (α : Type) where
  buf : List α
  pos : ℕ

/-- What was not taken out yet. -/
def Fifo.rest (q : Fifo α) : List α := q.buf.drop q.pos

/-- `in_push`: what was consumed is dropped first. -/
def inPush (q : Fifo α) (pcm : List α) : Fifo α :=
  if 0 < q.pos then ⟨q.buf.drop q.pos ++ pcm, 0⟩ else ⟨q.buf ++ pcm, q.pos⟩

lemma inPush_rest (q : Fifo α) (pcm : List α) : (inPush q pcm).rest = q.rest ++ pcm := by
  rw [inPush]
  split_ifs with hpos
  · rfl
  · have h0 : q.pos = 0 := by omega
    rw [Fifo.rest, Fifo.rest, h0]
    rfl

/-- What the loop of `drain` works on: the partial frame, the FIFO, and the rest of the
detector. -/
structure Cutter (σ α : Type) where
  state : σ
  acc : List α
  fifo : Fifo α

/-- `drain`, as many rounds of it as `fuel` says; `none` is a loop that is still running. -/
def drainLoop (process : σ → List α → σ × Option (List α)) (frame : ℕ) :
    ℕ → Cutter σ α → Option (Cutter σ α × Option (List α))
  | 0, _ => none
  | fuel + 1, c =>
    if c.fifo.pos < c.fifo.buf.length then
      let need := frame - c.acc.length
      let avail := c.fifo.buf.length - c.fifo.pos
      let take := if avail < need then avail else need
      let acc := c.acc ++ (c.fifo.buf.drop c.fifo.pos).take take
      let fifo := { c.fifo with pos := c.fifo.pos + take }
      if acc.length < frame then some (⟨c.state, acc, fifo⟩, none)
      else
        match process c.state acc with
        | (state, some seg) => some (⟨state, [], fifo⟩, some seg)
        | (state, none) => drainLoop process frame fuel ⟨state, [], fifo⟩
    else some (c, none)

/-- `vv_vad_push`. -/
def pushLoop (process : σ → List α → σ × Option (List α)) (frame fuel : ℕ) (c : Cutter σ α)
    (pcm : List α) : Option (Cutter σ α × Option (List α)) :=
  if pcm = [] then some (c, none)
  else drainLoop process frame fuel { c with fifo := inPush c.fifo pcm }

/-! ### A call of `drain` -/

lemma emit_emptied (v : Detector cfg γ α) (inp : List α) :
    emit (v.emptied inp) = ((emit v).1.emptied inp, (emit v).2) := by
  by_cases h0 : v.seg = []
  · simp [emit, Detector.emptied, h0]
  · simp [emit, Detector.emptied, h0]

lemma processActive_emptied (v : Detector cfg γ α) (inp : List α) (d : Decision) (f : List α) :
    processActive (v.emptied inp) d f =
      ((processActive v d f).1.emptied inp, (processActive v d f).2) := by
  have hemit : ∀ run, emit { v.emptied inp with seg := v.seg ++ f, silenceRun := run } =
      ((emit { v with seg := v.seg ++ f, silenceRun := run }).1.emptied inp,
        (emit { v with seg := v.seg ++ f, silenceRun := run }).2) := fun run =>
    emit_emptied { v with seg := v.seg ++ f, silenceRun := run } inp
  simp only [processActive]
  by_cases hquiet : d.quiet = true
  · by_cases hhang : cfg.hangover ≤ v.silenceRun + f.length
    · simp only [hquiet, if_true, Detector.emptied, hhang]
      exact hemit _
    · by_cases hmax : cfg.maxSeg ≤ (v.seg ++ f).length
      · simp only [hquiet, if_true, Detector.emptied, hhang, if_false, hmax]
        exact hemit _
      · simp only [hquiet, if_true, Detector.emptied, hhang, if_false, hmax]
  · by_cases hmax : cfg.maxSeg ≤ (v.seg ++ f).length
    · simp only [hquiet, Bool.false_eq_true, if_false, Detector.emptied, hmax, if_true]
      exact hemit _
    · simp only [hquiet, Bool.false_eq_true, if_false, Detector.emptied, hmax]

lemma processIdle_emptied (v : Detector cfg γ α) (inp : List α) (d : Decision) (f : List α) :
    processIdle (v.emptied inp) d f = (processIdle v d f).emptied inp := by
  by_cases hloud : d.loud = true
  · by_cases hrun : cfg.minSpeech ≤ v.speechRun + f.length
    · simp [processIdle, Detector.emptied, hloud, hrun]
    · simp [processIdle, Detector.emptied, hloud, hrun]
  · simp [processIdle, Detector.emptied, hloud]

/-- A frame neither looks at the FIFO nor changes it. -/
lemma processFrame_emptied (gate : Gate γ α) (v : Detector cfg γ α) (inp f : List α) :
    processFrame gate (v.emptied inp) f =
      ((processFrame gate v f).1.emptied inp, (processFrame gate v f).2) := by
  by_cases hactive : v.active = true
  · rw [processFrame_active gate hactive, processFrame_active gate (v := v.emptied inp) hactive]
    exact processActive_emptied { v with gate := (gate v.gate true f).2 } inp _ f
  · have hidle := Bool.eq_false_of_not_eq_true hactive
    rw [processFrame_idle gate hidle, processFrame_idle gate (v := v.emptied inp) hidle]
    exact congrArg (·, none) (processIdle_emptied { v with gate := (gate v.gate false f).2 } inp _ f)

/-- A detector with a partial frame and nothing in its FIFO. -/
def Detector.settled (v : Detector cfg γ α) (acc : List α) (h : acc.length < cfg.frame) :
    Detector cfg γ α :=
  { v with acc := acc, inp := [], acc_lt := h }

/-- Too little for a frame: all of it is kept. -/
lemma drain_short (gate : Gate γ α) {v : Detector cfg γ α}
    (h : (v.acc ++ v.inp).length < cfg.frame) :
    drain gate v = (v.settled (v.acc ++ v.inp) h, none) := by
  have hlen := h
  rw [List.length_append] at hlen
  have hcut (hlt : ¬(v.acc ++ v.inp.take (min v.inp.length (cfg.frame - v.acc.length))).length <
      cfg.frame) : False := by
    rw [(show min v.inp.length (cfg.frame - v.acc.length) = v.inp.length by omega),
      List.take_length] at hlt
    exact hlt h
  fun_cases drain gate v with
  | case1 hinp =>
    have happ : v.acc ++ v.inp = v.acc := by rw [hinp, List.append_nil]
    simp only [Detector.settled, happ, ← hinp]
  | case2 hinp take acc inp hlt =>
    have htake : take = v.inp.length := by
      change min v.inp.length (cfg.frame - v.acc.length) = _
      omega
    have hacc : acc = v.acc ++ v.inp := by
      change v.acc ++ v.inp.take take = _
      rw [htake, List.take_length]
    have hinp : inp = [] := by
      change v.inp.drop take = _
      rw [htake, List.drop_length]
    simp only [Detector.settled, hacc, hinp]
  | case3 hinp take acc inp hlt v' seg hframe => exact (hcut hlt).elim
  | case4 hinp take acc inp hlt v' hframe => exact (hcut hlt).elim

/-- A whole frame: it is judged, and the loop runs on unless it closes a segment. -/
lemma drain_long (gate : Gate γ α) {v : Detector cfg γ α}
    (h : cfg.frame ≤ (v.acc ++ v.inp).length) :
    drain gate v =
      match processFrame gate (v.emptied ((v.acc ++ v.inp).drop cfg.frame))
        ((v.acc ++ v.inp).take cfg.frame) with
      | (v', some seg) => (v', some seg)
      | (v', none) => drain gate v' := by
  have hv := v.acc_lt
  have hlen := h
  rw [List.length_append] at hlen
  have hmin : min v.inp.length (cfg.frame - v.acc.length) = cfg.frame - v.acc.length := by omega
  have htake : v.acc ++ v.inp.take (min v.inp.length (cfg.frame - v.acc.length)) =
      (v.acc ++ v.inp).take cfg.frame := by
    rw [hmin, List.take_append, List.take_of_length_le hv.le]
  have hdrop : v.inp.drop (min v.inp.length (cfg.frame - v.acc.length)) =
      (v.acc ++ v.inp).drop cfg.frame := by
    rw [hmin, List.drop_append, List.drop_of_length_le hv.le, List.nil_append]
  rw [← htake, ← hdrop]
  fun_cases drain gate v with
  | case1 hinp =>
    rw [hinp, List.length_nil] at hlen
    omega
  | case2 hinp take acc inp hlt =>
    change (v.acc ++ v.inp.take (min v.inp.length (cfg.frame - v.acc.length))).length < _ at hlt
    rw [htake, List.length_take] at hlt
    omega
  | case3 hinp take acc inp hlt v' seg hframe =>
    change processFrame gate (v.emptied (v.inp.drop (min v.inp.length _)))
      (v.acc ++ v.inp.take (min v.inp.length _)) = _ at hframe
    rw [hframe]
  | case4 hinp take acc inp hlt v' hframe =>
    change processFrame gate (v.emptied (v.inp.drop (min v.inp.length _)))
      (v.acc ++ v.inp.take (min v.inp.length _)) = _ at hframe
    rw [hframe]

/-- `drain` hands a segment out only where it took a frame out of the FIFO. -/
lemma drain_inp_lt (gate : Gate γ α) {v v' : Detector cfg γ α} {seg : List α}
    (h : drain gate v = (v', some seg)) : v'.inp.length < v.inp.length := by
  fun_induction drain gate v with
  | case1 v hne => cases h
  | case2 v hne take acc inp hlt => cases h
  | case3 v hne take acc inp hlt w seg' hframe =>
    cases h
    have hinp : v'.inp = inp :=
      (congrArg (fun r => r.1.inp) hframe).symm.trans (processFrame_inp ..)
    have hpos : 0 < v.inp.length := List.length_pos_of_ne_nil hne
    have hacc := v.acc_lt
    change v'.inp = v.inp.drop (min v.inp.length (cfg.frame - v.acc.length)) at hinp
    rw [hinp, List.length_drop]
    omega
  | case4 v hne take acc inp hlt w hframe ih =>
    have hinp : w.inp = inp :=
      (congrArg (fun r => r.1.inp) hframe).symm.trans (processFrame_inp ..)
    change w.inp = v.inp.drop (min v.inp.length (cfg.frame - v.acc.length)) at hinp
    calc v'.inp.length < w.inp.length := ih h
      _ ≤ v.inp.length := by rw [hinp, List.length_drop]; omega

/-! ### A client -/

/-- A client who calls `vv_vad_drain` until it hands nothing out. -/
def drainAll (gate : Gate γ α) (v : Detector cfg γ α) : Detector cfg γ α × List (List α) :=
  match _h : drain gate v with
  | (v', none) => (v', [])
  | (v', some seg) =>
    let r := drainAll gate v'
    (r.1, seg :: r.2)
termination_by v.inp.length
decreasing_by exact drain_inp_lt gate _h

/-- A push, drained behind. -/
def feed (gate : Gate γ α) (v : Detector cfg γ α) (pcm : List α) :
    Detector cfg γ α × List (List α) :=
  let r := push gate v pcm
  let r' := drainAll gate r.1
  (r'.1, r.2.toList ++ r'.2)

/-- Pushes, each of them drained behind. -/
def feedAll (gate : Gate γ α) : Detector cfg γ α → List (List α) → Detector cfg γ α × List (List α)
  | v, [] => (v, [])
  | v, pcm :: pushes =>
    let r := feed gate v pcm
    let r' := feedAll gate r.1 pushes
    (r'.1, r.2 ++ r'.2)

/-- All the client is handed out, the segment of the flush last. -/
def handedOut (gate : Gate γ α) (v : Detector cfg γ α) (pushes : List (List α)) : List (List α) :=
  (feedAll gate v pushes).2 ++ (flush (feedAll gate v pushes).1).2.toList

/-! ### The frames of a stream -/

/-- The state machine over frames that are cut already. -/
def processAll (gate : Gate γ α) : Detector cfg γ α → List (List α) →
    Detector cfg γ α × List (List α)
  | v, [] => (v, [])
  | v, f :: fs =>
    let r := processFrame gate v f
    let r' := processAll gate r.1 fs
    (r'.1, r.2.toList ++ r'.2)

lemma processAll_append (gate : Gate γ α) (v : Detector cfg γ α) (fs fs' : List (List α)) :
    processAll gate v (fs ++ fs') =
      ((processAll gate (processAll gate v fs).1 fs').1,
        (processAll gate v fs).2 ++ (processAll gate (processAll gate v fs).1 fs').2) := by
  induction fs generalizing v with
  | nil => rfl
  | cons f fs ih => simp only [List.cons_append, processAll, ih, List.append_assoc]

lemma processAll_emptied (gate : Gate γ α) (v : Detector cfg γ α) (inp : List α)
    (fs : List (List α)) :
    processAll gate (v.emptied inp) fs =
      ((processAll gate v fs).1.emptied inp, (processAll gate v fs).2) := by
  induction fs generalizing v with
  | nil => rfl
  | cons f fs ih => simp only [processAll, processFrame_emptied gate v inp, ih]

lemma drainAll_none {gate : Gate γ α} {v v' : Detector cfg γ α} (h : drain gate v = (v', none)) :
    drainAll gate v = (v', []) := by
  rw [drainAll, h]

lemma drainAll_some {gate : Gate γ α} {v v' : Detector cfg γ α} {seg : List α}
    (h : drain gate v = (v', some seg)) :
    drainAll gate v = ((drainAll gate v').1, seg :: (drainAll gate v').2) := by
  rw [drainAll, h]

lemma drainAll_congr (gate : Gate γ α) {v v' : Detector cfg γ α}
    (h : drain gate v = drain gate v') : drainAll gate v = drainAll gate v' := by
  rw [drainAll, drainAll, h]

/-- A whole frame in front of what is drained. -/
lemma drainAll_long (gate : Gate γ α) {v : Detector cfg γ α}
    (h : cfg.frame ≤ (v.acc ++ v.inp).length) :
    drainAll gate v =
      let r := processFrame gate v ((v.acc ++ v.inp).take cfg.frame)
      let r' := drainAll gate (r.1.emptied ((v.acc ++ v.inp).drop cfg.frame))
      (r'.1, r.2.toList ++ r'.2) := by
  have hdrain := drain_long gate h
  rw [processFrame_emptied] at hdrain
  revert hdrain
  rcases processFrame gate v ((v.acc ++ v.inp).take cfg.frame) with ⟨v', _ | seg⟩
  · intro hdrain
    exact drainAll_congr gate hdrain
  · intro hdrain
    exact drainAll_some hdrain

/-- **A client who drains gets one run over the frames.** -/
lemma drainAll_eq (gate : Gate γ α) (v : Detector cfg γ α) :
    drainAll gate v =
      ((processAll gate (v.emptied []) (pieces cfg.frame (v.acc ++ v.inp))).1.settled
          (leftover cfg.frame (v.acc ++ v.inp)) (length_leftover cfg.frame_pos _),
        (processAll gate (v.emptied []) (pieces cfg.frame (v.acc ++ v.inp))).2) := by
  generalize hs : v.acc ++ v.inp = s
  induction s using piece_induct cfg.frame_pos generalizing v with
  | short s hlt =>
    subst hs
    rw [drainAll, drain_short gate hlt, pieces_short hlt]
    simp only [leftover_short hlt, processAll]
    rfl
  | long s hle ih =>
    subst hs
    rw [drainAll_long gate hle, pieces_eq_cons cfg.frame_pos hle]
    simp only [processAll, leftover_drop cfg.frame_pos hle, processFrame_emptied gate v [],
      ih ((processFrame gate v ((v.acc ++ v.inp).take cfg.frame)).1.emptied
        ((v.acc ++ v.inp).drop cfg.frame)) rfl]
    rfl

lemma drain_nil (gate : Gate γ α) {v : Detector cfg γ α} (h : v.inp = []) :
    drain gate v = (v, none) := by
  rw [drain, dif_pos h]

/-- `drain` hands nothing out only where it emptied the FIFO. -/
lemma drain_none_inp (gate : Gate γ α) {v v' : Detector cfg γ α} (h : drain gate v = (v', none)) :
    v'.inp = [] := by
  fun_induction drain gate v with
  | case1 v hne => cases h; exact hne
  | case2 v hne take acc inp hlt =>
    cases h
    change (v.acc ++ v.inp.take take).length < cfg.frame at hlt
    have htake : take = min v.inp.length (cfg.frame - v.acc.length) := rfl
    rw [List.length_append, List.length_take] at hlt
    exact List.drop_eq_nil_iff.mpr (by omega)
  | case3 v hne take acc inp hlt w seg' hframe => cases h
  | case4 v hne take acc inp hlt w hframe ih => exact ih h

/-- A push that is drained behind is a drain of the samples that wait and the new ones. -/
lemma feed_eq (gate : Gate γ α) {v : Detector cfg γ α} (h : v.inp = []) (pcm : List α) :
    feed gate v pcm = drainAll gate { v with inp := pcm } := by
  by_cases hpcm : pcm = []
  · have hv : ({ v with inp := pcm } : Detector cfg γ α) = v := by rw [hpcm, ← h]
    rw [feed, push, if_pos hpcm, hv]
    rfl
  · rw [feed, push, if_neg hpcm, h, List.nil_append]
    rcases hdrain : drain gate { v with inp := pcm } with ⟨v', _ | seg⟩
    · have hnone := drainAll_none (drain_nil gate (drain_none_inp gate hdrain))
      rw [drainAll_none hdrain, hnone]
      rfl
    · rw [drainAll_some hdrain]
      rfl

/-- **Pushes of any size are one run over the frames of the whole stream**, with the rest of it
left in the partial frame. -/
lemma feedAll_eq (gate : Gate γ α) {v : Detector cfg γ α} (h : v.inp = [])
    (pushes : List (List α)) :
    feedAll gate v pushes =
      ((processAll gate (v.emptied []) (pieces cfg.frame (v.acc ++ pushes.flatten))).1.settled
          (leftover cfg.frame (v.acc ++ pushes.flatten)) (length_leftover cfg.frame_pos _),
        (processAll gate (v.emptied []) (pieces cfg.frame (v.acc ++ pushes.flatten))).2) := by
  induction pushes generalizing v with
  | nil =>
    simp only [feedAll, List.flatten_nil, List.append_nil, pieces_short v.acc_lt,
      leftover_short v.acc_lt, processAll]
    obtain ⟨acc, inp, pre, seg, active, silenceRun, speechRun, g, hacc⟩ := v
    cases h
    rfl
  | cons pcm pushes ih =>
    have hcut := pieces_append cfg.frame_pos (v.acc ++ pcm) pushes.flatten
    have hleft := leftover_append cfg.frame_pos (v.acc ++ pcm) pushes.flatten
    rw [List.append_assoc] at hcut hleft
    have hbetween :
        (processAll gate (v.emptied []) (pieces cfg.frame (v.acc ++ pcm))).1.emptied [] =
          (processAll gate (v.emptied []) (pieces cfg.frame (v.acc ++ pcm))).1 := by
      rw [processAll_emptied]
      rfl
    rw [feedAll, feed_eq gate h, drainAll_eq, List.flatten_cons]
    simp only [hcut, hleft, processAll_append]
    rw [ih rfl]
    change (((processAll gate ((processAll gate (v.emptied []) _).1.emptied []) _).1.settled _ _),
      (_ ++ (processAll gate ((processAll gate (v.emptied []) _).1.emptied []) _).2)) = _
    rw [hbetween]
    rfl

/-! ### The loop on the FIFO -/

/-- The cutter holds the detector: its partial frame, its FIFO, and the rest of it. -/
structure Holds (c : Cutter (Detector cfg γ α) α) (v : Detector cfg γ α) : Prop where
  acc : c.acc = v.acc
  fifo : c.fifo.rest = v.inp
  state : c.state.emptied [] = v.emptied []

/-- `in_push` appends to what the detector has in its FIFO. -/
lemma Holds.inPush {c : Cutter (Detector cfg γ α) α} {v : Detector cfg γ α} (h : Holds c v)
    (pcm : List α) :
    Holds { c with fifo := Vad.inPush c.fifo pcm } { v with inp := v.inp ++ pcm } :=
  ⟨h.acc, by rw [inPush_rest, h.fifo], h.state⟩

/-- The loop judges a frame as `drain` does. -/
lemma Holds.frame (gate : Gate γ α) {c : Cutter (Detector cfg γ α) α} {v : Detector cfg γ α}
    (h : Holds c v) (q : Fifo α) (f : List α) :
    (processFrame gate c.state f).2 = (processFrame gate (v.emptied q.rest) f).2 ∧
      Holds ⟨(processFrame gate c.state f).1, [], q⟩
        (processFrame gate (v.emptied q.rest) f).1 := by
  have hc := processFrame_emptied gate c.state [] f
  have hv := processFrame_emptied gate v [] f
  rw [h.state, hv, Prod.mk.injEq] at hc
  rw [processFrame_emptied]
  exact ⟨hc.2.symm, rfl, rfl, hc.1.symm⟩

/-- One round of the loop, on what the detector holds. -/
lemma drainLoop_succ (gate : Gate γ α) {c : Cutter (Detector cfg γ α) α} {v : Detector cfg γ α}
    (h : Holds c v) (fuel : ℕ) :
    drainLoop (processFrame gate) cfg.frame (fuel + 1) c =
      if v.inp = [] then some (c, none)
      else
        let take := min v.inp.length (cfg.frame - v.acc.length)
        let acc := v.acc ++ v.inp.take take
        let fifo := { c.fifo with pos := c.fifo.pos + take }
        if acc.length < cfg.frame then some (⟨c.state, acc, fifo⟩, none)
        else
          match processFrame gate c.state acc with
          | (state, some seg) => some (⟨state, [], fifo⟩, some seg)
          | (state, none) => drainLoop (processFrame gate) cfg.frame fuel ⟨state, [], fifo⟩ := by
  have hlength : v.inp.length = c.fifo.buf.length - c.fifo.pos := by
    rw [← h.fifo, Fifo.rest, List.length_drop]
  have hmin (a b : ℕ) : (if a < b then a else b) = min a b := by
    split_ifs <;> omega
  have hdrop : c.fifo.buf.drop c.fifo.pos = v.inp := h.fifo
  by_cases hinp : v.inp = []
  · rw [if_pos hinp, drainLoop, if_neg (by rw [hinp, List.length_nil] at hlength; omega)]
  · have hpos := List.length_pos_of_ne_nil hinp
    rw [if_neg hinp, drainLoop, if_pos (by omega)]
    simp only [hmin, hdrop, h.acc, ← hlength]
    rcases processFrame gate c.state
      (v.acc ++ v.inp.take (min v.inp.length (cfg.frame - v.acc.length))) with ⟨s, _ | seg⟩ <;> rfl

/-- What is left behind `n` samples. -/
lemma Holds.rest_drop {c : Cutter (Detector cfg γ α) α} {v : Detector cfg γ α} (h : Holds c v)
    (n : ℕ) : ({ c.fifo with pos := c.fifo.pos + n } : Fifo α).rest = v.inp.drop n := by
  rw [← h.fifo, Fifo.rest, Fifo.rest, List.drop_drop]

/-- **The loop ends, and does what `drain` does.** -/
lemma drainLoop_ends (gate : Gate γ α) {c : Cutter (Detector cfg γ α) α} {v : Detector cfg γ α}
    (h : Holds c v) :
    ∃ fuel c', drainLoop (processFrame gate) cfg.frame fuel c = some (c', (drain gate v).2) ∧
      Holds c' (drain gate v).1 := by
  fun_induction drain gate v generalizing c with
  | case1 v hne => exact ⟨1, c, by rw [drainLoop_succ gate h, if_pos hne], h⟩
  | @case2 v hne take acc inp hlt =>
    refine ⟨1, ⟨c.state, acc, { c.fifo with pos := c.fifo.pos + take }⟩, ?_,
      rfl, h.rest_drop take, h.state⟩
    rw [drainLoop_succ gate h, if_neg hne]
    exact if_pos hlt
  | @case3 v hne take acc inp hlt w seg hframe =>
    obtain ⟨hout, hnext⟩ := h.frame gate { c.fifo with pos := c.fifo.pos + take } acc
    rw [h.rest_drop take, hframe] at hout hnext
    refine ⟨1, _, ?_, hnext⟩
    rw [drainLoop_succ gate h, if_neg hne]
    refine (if_neg hlt).trans ?_
    change (match processFrame gate c.state acc with
      | (state, some seg) => _
      | (state, none) => _) = _
    rw [← Prod.mk.eta (p := processFrame gate c.state acc), hout]
  | @case4 v hne take acc inp hlt w hframe ih =>
    obtain ⟨hout, hnext⟩ := h.frame gate { c.fifo with pos := c.fifo.pos + take } acc
    rw [h.rest_drop take, hframe] at hout hnext
    obtain ⟨fuel, c', hloop, hheld⟩ := ih hnext
    refine ⟨fuel + 1, c', ?_, hheld⟩
    rw [drainLoop_succ gate h, if_neg hne]
    refine (if_neg hlt).trans ?_
    change (match processFrame gate c.state acc with
      | (state, some seg) => _
      | (state, none) => _) = _
    rw [← Prod.mk.eta (p := processFrame gate c.state acc), hout]
    exact hloop

lemma pushLoop_ends (gate : Gate γ α) {c : Cutter (Detector cfg γ α) α} {v : Detector cfg γ α}
    (h : Holds c v) (pcm : List α) :
    ∃ fuel c', pushLoop (processFrame gate) cfg.frame fuel c pcm =
        some (c', (push gate v pcm).2) ∧ Holds c' (push gate v pcm).1 := by
  rw [push]
  split_ifs with hpcm
  · exact ⟨0, c, if_pos hpcm, h⟩
  · obtain ⟨fuel, c', hloop, hheld⟩ := drainLoop_ends gate (h.inPush pcm)
    exact ⟨fuel, c', (if_neg hpcm).trans hloop, hheld⟩

/-! ### The segments of a stream -/

lemma create_frame {alloc : Wav.Alloc} {vadBytes : ℕ} {p : Params}
    (h : vvVadCreate alloc vadBytes p = .ok cfg) : cfg.frame = frameOf p.sampleRate := by
  rw [vvVadCreate] at h
  split_ifs at h
  cases h
  rfl

/-- The pushes matter to what is handed out by their samples only. -/
lemma handedOut_eq (gate : Gate γ α) {v : Detector cfg γ α} (h : v.inp = [])
    (pushes : List (List α)) : handedOut gate v pushes = handedOut gate v [pushes.flatten] := by
  simp only [handedOut, feedAll_eq gate h, List.flatten_cons, List.flatten_nil, List.append_nil]

/-- **A detector that was handed out ends every call, and hands out the same segments however the
stream is split into pushes**, each of them drained behind, the flush last. -/
theorem split_invariant (alloc : Wav.Alloc) (vadBytes : ℕ) (p : Params)
    (hcfg : vvVadCreate alloc vadBytes p = .ok cfg) (gate : Gate γ α) (g : γ) (memory : List α)
    (hmem : 0 < memory.length) :
    (∀ (c : Cutter (Detector cfg γ α) α) (v : Detector cfg γ α), Holds c v →
      (∃ fuel c', drainLoop (processFrame gate) (frameOf p.sampleRate) fuel c =
          some (c', (drain gate v).2) ∧ Holds c' (drain gate v).1) ∧
        ∀ pcm, ∃ fuel c', pushLoop (processFrame gate) (frameOf p.sampleRate) fuel c pcm =
          some (c', (push gate v pcm).2) ∧ Holds c' (push gate v pcm).1) ∧
      ∀ pushes pushes' : List (List α), pushes.flatten = pushes'.flatten →
        handedOut gate (create cfg g memory hmem) pushes =
          handedOut gate (create cfg g memory hmem) pushes' := by
  rw [← create_frame hcfg]
  constructor
  · intro c v h
    exact ⟨drainLoop_ends gate h, pushLoop_ends gate h⟩
  · intro pushes pushes' hsame
    calc handedOut gate (create cfg g memory hmem) pushes
        = handedOut gate (create cfg g memory hmem) [pushes.flatten] := handedOut_eq gate rfl pushes
      _ = handedOut gate (create cfg g memory hmem) [pushes'.flatten] := by rw [hsame]
      _ = handedOut gate (create cfg g memory hmem) pushes' :=
          (handedOut_eq gate rfl pushes').symm

/-- The lowest rate that is accepted, where a frame is one sample: three samples in two pushes,
the other way round. -/
theorem split_invariant_lowest :
    handedOut loudGate (create sampleConfig () [0] Nat.one_pos) [[1], [2, 3]] =
      handedOut loudGate (create sampleConfig () [0] Nat.one_pos) [[1, 2], [3]] :=
  (split_invariant (fun _ => true) 1 ⟨50, 0, 0, 0, 1000⟩ rfl loudGate () [0] Nat.one_pos).2
    [[1], [2, 3]] [[1, 2], [3]] rfl

end VibeVoice.Vad
