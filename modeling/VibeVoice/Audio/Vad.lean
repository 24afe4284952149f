import VibeVoice.Lib.Machine
import VibeVoice.Lib.Ring

/-!
The voice activity detector of `vad.c`.

The detector moves samples and looks at them only through the level of a frame: how a frame is
judged is a parameter (`Gate`), with the state it keeps in `γ`.  Counts are whole numbers and every
allocation succeeds.

* `push`, `drain`, `flush`: the calls.
* `Feed`: a detector fed with a stream, its samples known by their position.
* `emitted_repeats`: every segment holds a sample twice.
* `slices_iff`: the segments of a stream are slices of it exactly when no frame opens one.
-/

namespace VibeVoice.Vad

/-- What a frame is judged to be: above the level that opens a segment, below the one that closes
it. -/
structure Decision where
  loud : Bool
  quiet : Bool

/-- The level of a frame against the two thresholds; the floor that is tracked depends on whether
a segment is open. -/
abbrev Gate (γ α : Type) := γ → Bool → List α → Decision × γ

/-- The numbers `vv_vad_create` and `process_frame` take from the parameters. -/
structure Config where
  frame : ℕ
  minSpeech : ℤ
  hangover : ℤ
  maxSeg : ℤ
  frame_pos : 0 < frame

/-- `vv_vad_t`; `inp` is what is left of the FIFO. -/
structure Detector (cfg : Config) (γ α : Type) where
  acc : List α
  inp : List α
  pre : Ring α
  seg : List α
  active : Bool
  silenceRun : ℤ
  speechRun : ℤ
  gate : γ
  acc_lt : acc.length < cfg.frame

variable {cfg : Config} {γ α : Type}

/-- `vv_vad_create`, with what the memory of the pre-roll holds. -/
def create (cfg : Config) (g : γ) (memory : List α) (h : 0 < memory.length) : Detector cfg γ α where
  acc := []
  inp := []
  pre := ⟨memory, 0, 0, h, Nat.zero_le _⟩
  seg := []
  active := false
  silenceRun := 0
  speechRun := 0
  gate := g
  acc_lt := cfg.frame_pos

/-- `emit`. -/
def emit (v : Detector cfg γ α) : Detector cfg γ α × Option (List α) :=
  if v.seg = [] then ({ v with active := false }, none)
  else ({ v with seg := [], active := false, silenceRun := 0, speechRun := 0 }, some v.seg)

/-- `process_frame` where no segment is open. -/
def processIdle (v : Detector cfg γ α) (d : Decision) (f : List α) : Detector cfg γ α :=
  let pre := v.pre.pushAll f
  if d.loud then
    let speechRun := v.speechRun + f.length
    if cfg.minSpeech ≤ speechRun then
      -- the pre-roll, which ends with this frame, and the frame behind it
      { v with
        pre := pre.clear, seg := v.seg ++ pre.toList ++ f, active := true, silenceRun := 0,
        speechRun := speechRun }
    else { v with pre := pre, speechRun := speechRun }
  else { v with pre := pre, speechRun := 0 }

/-- `process_frame` where a segment is open. -/
def processActive (v : Detector cfg γ α) (d : Decision) (f : List α) : Detector cfg γ α × Option (List α) :=
  let v := { v with seg := v.seg ++ f }
  if d.quiet then
    let v := { v with silenceRun := v.silenceRun + f.length }
    if cfg.hangover ≤ v.silenceRun then emit v
    else if cfg.maxSeg ≤ v.seg.length then emit v
    else (v, none)
  else
    let v := { v with silenceRun := 0 }
    if cfg.maxSeg ≤ v.seg.length then emit v else (v, none)

/-- `process_frame`. -/
def processFrame (gate : Gate γ α) (v : Detector cfg γ α) (f : List α) :
    Detector cfg γ α × Option (List α) :=
  let (d, g) := gate v.gate v.active f
  let v := { v with gate := g }
  if v.active then processActive v d f else (processIdle v d f, none)

lemma emit_inp (v : Detector cfg γ α) : (emit v).1.inp = v.inp := by
  rw [emit]
  split_ifs <;> rfl

/-- A frame leaves the FIFO as it is. -/
lemma processFrame_inp (gate : Gate γ α) (v : Detector cfg γ α) (f : List α) :
    (processFrame gate v f).1.inp = v.inp := by
  rw [processFrame]
  dsimp only
  split_ifs
  · rw [processActive]
    dsimp only
    split_ifs <;> first | rfl | exact emit_inp _
  · rw [processIdle]
    dsimp only
    split_ifs <;> rfl

/-- The detector with its frame taken out, and `inp` left in the FIFO. -/
def Detector.emptied (v : Detector cfg γ α) (inp : List α) : Detector cfg γ α :=
  { v with acc := [], inp := inp, acc_lt := cfg.frame_pos }

/-- `drain`: whole frames out of the FIFO until one closes a segment. -/
def drain (gate : Gate γ α) (v : Detector cfg γ α) : Detector cfg γ α × Option (List α) :=
  if _hne : v.inp = [] then (v, none)
  else
    let take := min v.inp.length (cfg.frame - v.acc.length)
    let acc := v.acc ++ v.inp.take take
    let inp := v.inp.drop take
    if hlt : acc.length < cfg.frame then ({ v with acc := acc, inp := inp, acc_lt := hlt }, none)
    else
      match _h : processFrame gate (v.emptied inp) acc with
      | (v', some seg) => (v', some seg)
      | (v', none) => drain gate v'
termination_by v.inp.length
decreasing_by
  have hinp : v'.inp = v.inp.drop (min v.inp.length (cfg.frame - v.acc.length)) :=
    (congrArg (fun r => r.1.inp) _h).symm.trans (processFrame_inp ..)
  have hpos : 0 < v.inp.length := List.length_pos_of_ne_nil _hne
  have hacc := v.acc_lt
  rw [hinp, List.length_drop]
  omega

/-- `vv_vad_push`. -/
def push (gate : Gate γ α) (v : Detector cfg γ α) (pcm : List α) : Detector cfg γ α × Option (List α) :=
  if pcm = [] then (v, none) else drain gate { v with inp := v.inp ++ pcm }

/-- `vv_vad_flush`. -/
def flush (v : Detector cfg γ α) : Detector cfg γ α × Option (List α) :=
  let seg := if v.active then v.seg ++ v.acc else v.seg
  let v := { v with seg := seg, acc := [], acc_lt := cfg.frame_pos }
  if v.seg = [] then (v, none) else emit v

/-! ### A stream -/

/-- A call; a push takes the next `n` samples of the stream. -/
inductive Call
  | push (n : ℕ)
  | drain
  | flush

/-- A detector and how many samples of the stream it was given.  A sample is its position. -/
structure Feed (cfg : Config) (γ : Type) where
  vad : Detector cfg γ ℕ
  pushed : ℕ

/-- One call on a stream, with the segment it hands out. -/
def step (gate : Gate γ ℕ) (s : Feed cfg γ) (c : Call) : Option (Option (List ℕ) × Feed cfg γ) :=
  match c with
  | .push n =>
    let r := push gate s.vad (List.range' s.pushed n)
    some (r.2, ⟨r.1, s.pushed + n⟩)
  | .drain =>
    let r := Vad.drain gate s.vad
    some (r.2, ⟨r.1, s.pushed⟩)
  | .flush =>
    let r := Vad.flush s.vad
    some (r.2, ⟨r.1, s.pushed⟩)

/-- The segments the calls hand out, in order. -/
def segments (gate : Gate γ ℕ) (s : Feed cfg γ) (cs : List Call) : List (List ℕ) :=
  (Machine.outputs (step gate) s cs).filterMap id

/-- How many samples the calls push. -/
def pushed (cs : List Call) : ℕ :=
  (cs.map fun
    | .push n => n
    | _ => 0).sum

/-- Segments that are slices of a stream of `n` samples, ordered and disjoint. -/
structure Slices (n : ℕ) (segs : List (List ℕ)) : Prop where
  slice : ∀ seg ∈ segs, ∃ start len, seg = List.range' start len ∧ start + len ≤ n
  ordered : segs.Pairwise fun seg seg' => ∀ p ∈ seg, ∀ q ∈ seg', p < q

/-- Some frame of the samples at hand opens a segment. -/
def opens (cfg : Config) (gate : Gate γ α) (g : γ) (speechRun : ℤ) (samples : List α) : Bool :=
  if _h : samples.length < cfg.frame then false
  else
    let f := samples.take cfg.frame
    let (d, g) := gate g false f
    if d.loud then
      cfg.minSpeech ≤ speechRun + f.length ||
        opens cfg gate g (speechRun + f.length) (samples.drop cfg.frame)
    else opens cfg gate g 0 (samples.drop cfg.frame)
termination_by samples.length
decreasing_by
  all_goals
    have hpos := cfg.frame_pos
    rw [List.length_drop]
    omega

/-- The samples a call works on. -/
def atHand (s : Feed cfg γ) : Call → List ℕ
  | .push n => if n = 0 then [] else s.vad.acc ++ (s.vad.inp ++ List.range' s.pushed n)
  | .drain => s.vad.acc ++ s.vad.inp
  | .flush => []

/-- No segment is open, and none of the frames a call completes opens one. -/
def StaysIdle (gate : Gate γ ℕ) (s : Feed cfg γ) (c : Call) : Prop :=
  s.vad.active = false ∧ opens cfg gate s.vad.gate s.vad.speechRun (atHand s c) = false

lemma processFrame_idle (gate : Gate γ α) {v : Detector cfg γ α} (h : v.active = false)
    (f : List α) :
    processFrame gate v f = (processIdle { v with gate := (gate v.gate false f).2 }
      (gate v.gate false f).1 f, none) := by
  simp only [processFrame, h, Bool.false_eq_true, if_false]

lemma processFrame_active (gate : Gate γ α) {v : Detector cfg γ α} (h : v.active = true)
    (f : List α) :
    processFrame gate v f = processActive { v with gate := (gate v.gate true f).2 }
      (gate v.gate true f).1 f := by
  simp only [processFrame, h, if_true]

lemma flush_idle {v : Detector cfg γ α} (hactive : v.active = false) (hseg : v.seg = []) :
    flush v = ({ v with acc := [], acc_lt := cfg.frame_pos }, none) := by
  simp only [flush, hactive, hseg, Bool.false_eq_true, if_false, if_true]

lemma flush_active {v : Detector cfg γ α} (hactive : v.active = true) (hseg : v.seg ≠ []) :
    flush v = emit { v with seg := v.seg ++ v.acc, acc := [], acc_lt := cfg.frame_pos } := by
  have hne : v.seg ++ v.acc ≠ [] := List.append_ne_nil_of_left_ne_nil hseg v.acc
  simp only [flush, hactive, if_true, if_neg hne]

/-! ### A segment repeats a sample -/

/-- No segment is open, or the open one holds a sample twice. -/
def Repeats (v : Detector cfg γ α) : Prop :=
  v.active = false ∧ v.seg = [] ∨ v.active = true ∧ ¬v.seg.Nodup

lemma not_nodup_append {xs : List α} (h : ¬xs.Nodup) (ys : List α) : ¬(xs ++ ys).Nodup :=
  fun hn => h (List.nodup_append.mp hn).1

lemma emit_repeats {v : Detector cfg γ α} (h : ¬v.seg.Nodup) :
    Repeats (emit v).1 ∧ ∀ seg ∈ (emit v).2, ¬seg.Nodup := by
  have hne : v.seg ≠ [] := fun h0 => h (h0 ▸ List.nodup_nil)
  rw [emit, if_neg hne]
  refine ⟨.inl ⟨rfl, rfl⟩, fun seg hseg => ?_⟩
  cases hseg
  exact h

lemma processActive_repeats {v : Detector cfg γ α} (hactive : v.active = true)
    (h : ¬v.seg.Nodup) (d : Decision) (f : List α) :
    Repeats (processActive v d f).1 ∧ ∀ seg ∈ (processActive v d f).2, ¬seg.Nodup := by
  have hseg := not_nodup_append h f
  have hgo : ∀ run, Repeats { v with seg := v.seg ++ f, silenceRun := run } := fun run =>
    .inr ⟨hactive, hseg⟩
  rw [processActive]
  dsimp only
  split_ifs
  · exact emit_repeats hseg
  · exact emit_repeats hseg
  · exact ⟨hgo _, nofun⟩
  · exact emit_repeats hseg
  · exact ⟨hgo _, nofun⟩

/-- The frame that opens a segment is in the pre-roll already, and is put behind it once more. -/
lemma processIdle_repeats {v : Detector cfg γ α} (hactive : v.active = false) (hseg : v.seg = [])
    (d : Decision) {f : List α} (hf : f ≠ []) : Repeats (processIdle v d f) := by
  rw [processIdle]
  dsimp only
  split_ifs
  · refine .inr ⟨rfl, fun hn => ?_⟩
    obtain ⟨x, hx⟩ := List.getLast?_isSome.mpr hf |> Option.isSome_iff_exists.mp
    have hpre : x ∈ v.seg ++ (v.pre.pushAll f).toList :=
      List.mem_append_right _ (Ring.mem_pushAll hx)
    exact (List.nodup_append.mp hn).2.2 x hpre x (List.mem_of_getLast? hx) rfl
  · exact .inl ⟨hactive, hseg⟩
  · exact .inl ⟨hactive, hseg⟩

lemma processFrame_repeats (gate : Gate γ α) {v : Detector cfg γ α} (h : Repeats v) {f : List α}
    (hf : f ≠ []) :
    Repeats (processFrame gate v f).1 ∧ ∀ seg ∈ (processFrame gate v f).2, ¬seg.Nodup := by
  rcases h with ⟨hactive, hseg⟩ | ⟨hactive, hseg⟩
  · rw [processFrame_idle gate hactive]
    exact ⟨processIdle_repeats (v := { v with gate := (gate v.gate false f).2 }) hactive hseg _ hf,
      nofun⟩
  · rw [processFrame_active gate hactive]
    exact processActive_repeats (v := { v with gate := (gate v.gate true f).2 }) hactive hseg _ f

lemma drain_repeats (gate : Gate γ α) {v : Detector cfg γ α} (h : Repeats v) :
    Repeats (drain gate v).1 ∧ ∀ seg ∈ (drain gate v).2, ¬seg.Nodup := by
  fun_induction drain gate v with
  | case1 v hne => exact ⟨h, nofun⟩
  | case2 v hne take acc inp hlt => exact ⟨h, nofun⟩
  | case3 v hne take acc inp hlt v' seg hframe =>
    have hpos : acc ≠ [] := fun h0 => hlt (by rw [h0]; exact cfg.frame_pos)
    have hstep := processFrame_repeats gate (v := v.emptied inp) h hpos
    rwa [hframe] at hstep
  | case4 v hne take acc inp hlt v' hframe ih =>
    have hpos : acc ≠ [] := fun h0 => hlt (by rw [h0]; exact cfg.frame_pos)
    have hstep := processFrame_repeats gate (v := v.emptied inp) h hpos
    rw [hframe] at hstep
    exact ih hstep.1

lemma flush_repeats {v : Detector cfg γ α} (h : Repeats v) :
    Repeats (flush v).1 ∧ ∀ seg ∈ (flush v).2, ¬seg.Nodup := by
  rcases h with ⟨hactive, hseg⟩ | ⟨hactive, hseg⟩
  · rw [flush_idle hactive hseg]
    exact ⟨.inl ⟨hactive, hseg⟩, nofun⟩
  · rw [flush_active hactive fun h0 => hseg (h0 ▸ List.nodup_nil)]
    exact emit_repeats (not_nodup_append hseg v.acc)

lemma step_repeats (gate : Gate γ ℕ) {s s' : Feed cfg γ} {c : Call} {o : Option (List ℕ)}
    (h : Repeats s.vad) (hs : step gate s c = some (o, s')) :
    Repeats s'.vad ∧ ∀ seg ∈ o, ¬seg.Nodup := by
  cases c with
  | push n =>
    cases hs
    rw [push]
    split_ifs
    · exact ⟨h, nofun⟩
    · exact drain_repeats gate h
  | drain =>
    cases hs
    exact drain_repeats gate h
  | flush =>
    cases hs
    exact flush_repeats h

/-- **Every segment that is handed out holds a sample twice.** -/
theorem emitted_repeats (gate : Gate γ ℕ) {s : Feed cfg γ} (h : Repeats s.vad) (cs : List Call) :
    ∀ seg ∈ segments gate s cs, ¬seg.Nodup := by
  induction cs generalizing s with
  | nil => exact fun seg hseg => nomatch hseg
  | cons c cs ih =>
    intro seg hseg
    rw [segments, Machine.outputs] at hseg
    cases hs : step gate s c with
    | none => rw [hs] at hseg; cases hseg
    | some r =>
      obtain ⟨o, s'⟩ := r
      obtain ⟨hnext, hout⟩ := step_repeats gate h hs
      rw [hs] at hseg
      dsimp only at hseg
      rw [List.filterMap_cons] at hseg
      cases o with
      | none => exact ih hnext seg hseg
      | some seg' =>
        rcases List.mem_cons.mp hseg with rfl | hrest
        · exact hout seg rfl
        · exact ih hnext seg hrest

/-! ### No frame opens a segment -/

lemma opens_short (gate : Gate γ α) (g : γ) (run : ℤ) {samples : List α}
    (h : samples.length < cfg.frame) : opens cfg gate g run samples = false := by
  rw [opens, dif_pos h]

lemma opens_nil (gate : Gate γ α) (g : γ) (run : ℤ) : opens cfg gate g run [] = false :=
  opens_short gate g run cfg.frame_pos

lemma opens_frame (gate : Gate γ α) (g : γ) (run : ℤ) {f : List α} (hf : f.length = cfg.frame)
    (rest : List α) :
    opens cfg gate g run (f ++ rest) =
      if (gate g false f).1.loud then
        decide (cfg.minSpeech ≤ run + f.length) ||
          opens cfg gate (gate g false f).2 (run + f.length) rest
      else opens cfg gate (gate g false f).2 0 rest := by
  have hlen : ¬(f ++ rest).length < cfg.frame := by
    rw [List.length_append]
    omega
  rw [opens, dif_neg hlen, List.take_left' hf, List.drop_left' hf]

/-- The frame `drain` completes, and what is left behind it. -/
lemma drain_frame {v : Detector cfg γ α}
    (hlt : ¬(v.acc ++ v.inp.take (min v.inp.length (cfg.frame - v.acc.length))).length < cfg.frame) :
    (v.acc ++ v.inp.take (min v.inp.length (cfg.frame - v.acc.length))).length = cfg.frame ∧
      v.acc ++ v.inp = v.acc ++ v.inp.take (min v.inp.length (cfg.frame - v.acc.length)) ++
        v.inp.drop (min v.inp.length (cfg.frame - v.acc.length)) := by
  constructor
  · rw [List.length_append, List.length_take] at hlt ⊢
    have hacc := v.acc_lt
    omega
  · rw [List.append_assoc, List.take_append_drop]

/-- Idle and without a segment. -/
def Idle (v : Detector cfg γ α) : Prop := v.active = false ∧ v.seg = []

/-- What a frame does where no segment is open. -/
lemma processFrame_opens (gate : Gate γ α) {v : Detector cfg γ α} (h : Idle v) (f : List α) :
    (processFrame gate v f).2 = none ∧
      if (gate v.gate false f).1.loud ∧ cfg.minSpeech ≤ v.speechRun + f.length then
        (processFrame gate v f).1.active = true
      else
        Idle (processFrame gate v f).1 ∧ (processFrame gate v f).1.acc = v.acc ∧
          (processFrame gate v f).1.inp = v.inp ∧
          (processFrame gate v f).1.gate = (gate v.gate false f).2 ∧
          (processFrame gate v f).1.speechRun =
            if (gate v.gate false f).1.loud then v.speechRun + f.length else 0 := by
  rw [processFrame_idle gate h.1]
  refine ⟨rfl, ?_⟩
  rw [processIdle]
  dsimp only
  by_cases hloud : (gate v.gate false f).1.loud = true
  · by_cases hrun : cfg.minSpeech ≤ v.speechRun + f.length
    · rw [if_pos ⟨hloud, hrun⟩, if_pos hloud, if_pos hrun]
    · rw [if_neg fun hc => hrun hc.2, if_pos hloud, if_neg hrun, if_pos hloud]
      exact ⟨h, rfl, rfl, rfl, rfl⟩
  · rw [if_neg fun hc => hloud hc.1, if_neg hloud, if_neg hloud]
    exact ⟨h, rfl, rfl, rfl, rfl⟩

/-- An open segment stays open until it is handed out. -/
lemma processFrame_stays (gate : Gate γ α) {v : Detector cfg γ α} (h : v.active = true)
    {f : List α} (hf : f ≠ []) :
    (processFrame gate v f).2.isSome ∨ (processFrame gate v f).1.active = true := by
  have hemit : ∀ w : Detector cfg γ α, w.seg = v.seg ++ f → (emit w).2.isSome := by
    intro w hw
    rw [emit, if_neg (by rw [hw]; exact List.append_ne_nil_of_right_ne_nil _ hf)]
    rfl
  rw [processFrame_active gate h, processActive]
  dsimp only
  split_ifs
  · exact .inl (hemit _ rfl)
  · exact .inl (hemit _ rfl)
  · exact .inr h
  · exact .inl (hemit _ rfl)
  · exact .inr h

lemma drain_stays (gate : Gate γ α) {v : Detector cfg γ α} (h : v.active = true) :
    (drain gate v).2.isSome ∨ (drain gate v).1.active = true := by
  fun_induction drain gate v with
  | case1 v hne => exact .inr h
  | case2 v hne take acc inp hlt => exact .inr h
  | case3 v hne take acc inp hlt v' seg hframe => exact .inl rfl
  | case4 v hne take acc inp hlt v' hframe ih =>
    have hpos : acc ≠ [] := fun h0 => hlt (by rw [h0]; exact cfg.frame_pos)
    have hstep := processFrame_stays gate (v := v.emptied inp) h hpos
    rw [hframe] at hstep
    exact ih (hstep.resolve_left Bool.false_ne_true)

/-- What `drain` does where no segment is open: nothing is handed out and none is opened, or one
is opened, which is open still or was handed out. -/
lemma drain_idle (gate : Gate γ α) {v : Detector cfg γ α} (h : Idle v) :
    if opens cfg gate v.gate v.speechRun (v.acc ++ v.inp) then
      (drain gate v).2.isSome ∨ (drain gate v).1.active = true
    else (drain gate v).2 = none ∧ Idle (drain gate v).1 := by
  fun_induction drain gate v with
  | case1 v hne =>
    have hinp : v.inp = [] := hne
    rw [hinp, List.append_nil, opens_short gate _ _ v.acc_lt]
    exact ⟨rfl, h⟩
  | case2 v hne take acc inp hlt =>
    have hshort : (v.acc ++ v.inp).length < cfg.frame := by
      have hlen : v.acc.length + (v.inp.take take).length < cfg.frame := by
        rwa [← List.length_append]
      have hpos : 0 < v.inp.length := List.length_pos_of_ne_nil hne
      rw [List.length_take] at hlen
      rw [List.length_append]
      omega
    rw [opens_short gate _ _ hshort]
    exact ⟨rfl, h⟩
  | case3 v hne take acc inp hlt v' seg hframe =>
    have hnone := (processFrame_opens gate (v := v.emptied inp) h acc).1
    rw [hframe] at hnone
    cases hnone
  | case4 v hne take acc inp hlt v' hframe ih =>
    obtain ⟨hlen, happ⟩ := drain_frame hlt
    change v.acc ++ v.inp = acc ++ inp at happ
    change acc.length = cfg.frame at hlen
    have hstep := (processFrame_opens gate (v := v.emptied inp) h acc).2
    rw [hframe] at hstep
    change if (gate v.gate false acc).1.loud ∧ cfg.minSpeech ≤ v.speechRun + acc.length then
      v'.active = true else Idle v' ∧ v'.acc = [] ∧ v'.inp = inp ∧
        v'.gate = (gate v.gate false acc).2 ∧
        v'.speechRun = if (gate v.gate false acc).1.loud then v.speechRun + acc.length else 0
      at hstep
    rw [happ, opens_frame gate _ _ hlen]
    by_cases hopen : (gate v.gate false acc).1.loud = true ∧
        cfg.minSpeech ≤ v.speechRun + acc.length
    · -- the frame opens a segment
      rw [if_pos hopen] at hstep
      rw [if_pos hopen.1, decide_eq_true hopen.2, Bool.true_or, if_pos rfl]
      exact drain_stays gate hstep
    · rw [if_neg hopen] at hstep
      obtain ⟨hidle, hacc, hinp, hgate, hrun⟩ := hstep
      have hrest := ih hidle
      rw [hacc, hinp, hgate, hrun, List.nil_append] at hrest
      by_cases hloud : (gate v.gate false acc).1.loud = true
      · rw [if_pos hloud] at hrest ⊢
        rwa [decide_eq_false fun hle => hopen ⟨hloud, hle⟩, Bool.false_or]
      · rwa [if_neg hloud] at hrest ⊢

/-- A call on a detector without an open segment keeps it so and hands nothing out, or one of its
frames opens a segment, which is open still or was handed out. -/
lemma step_idle (gate : Gate γ ℕ) {s : Feed cfg γ} (h : Idle s.vad) (c : Call) :
    ∃ o s', step gate s c = some (o, s') ∧
      if opens cfg gate s.vad.gate s.vad.speechRun (atHand s c) then
        o.isSome ∨ s'.vad.active = true
      else o = none ∧ Idle s'.vad := by
  cases c with
  | push n =>
    refine ⟨_, _, rfl, ?_⟩
    rw [push, atHand]
    cases n with
    | zero =>
      rw [List.range'_zero, if_pos rfl, if_pos rfl, opens_nil]
      exact ⟨rfl, h⟩
    | succ n =>
      rw [if_neg (Nat.succ_ne_zero n),
        if_neg (List.ne_nil_of_length_pos (by rw [List.length_range']; omega))]
      exact drain_idle gate (v := { s.vad with
        inp := s.vad.inp ++ List.range' s.pushed (n + 1) }) h
  | drain => exact ⟨_, _, rfl, drain_idle gate h⟩
  | flush =>
    refine ⟨_, _, rfl, ?_⟩
    rw [atHand, opens_nil, flush_idle h.1 h.2]
    exact ⟨rfl, h⟩

lemma step_stays (gate : Gate γ ℕ) {s : Feed cfg γ} (hrep : Repeats s.vad)
    (h : s.vad.active = true) (c : Call) :
    ∃ o s', step gate s c = some (o, s') ∧ Repeats s'.vad ∧
      (o.isSome ∨ c ≠ .flush ∧ s'.vad.active = true) := by
  have hseg : s.vad.seg ≠ [] := by
    rcases hrep with ⟨hidle, -⟩ | ⟨-, hdup⟩
    · rw [hidle] at h
      cases h
    · exact fun h0 => hdup (h0 ▸ List.nodup_nil)
  obtain ⟨o, s', hs⟩ : ∃ o s', step gate s c = some (o, s') := by
    cases c <;> exact ⟨_, _, rfl⟩
  refine ⟨o, s', hs, (step_repeats gate hrep hs).1, ?_⟩
  cases c with
  | push n =>
    cases hs
    rw [push]
    split_ifs
    · exact .inr ⟨nofun, h⟩
    · exact (drain_stays gate (v := { s.vad with
        inp := s.vad.inp ++ List.range' s.pushed n }) h).imp_right fun ha => ⟨nofun, ha⟩
  | drain =>
    cases hs
    exact (drain_stays gate h).imp_right fun ha => ⟨nofun, ha⟩
  | flush =>
    cases hs
    rw [flush_active h hseg, emit, if_neg (List.append_ne_nil_of_left_ne_nil hseg _)]
    exact .inl rfl

lemma segments_cons {gate : Gate γ ℕ} {s s' : Feed cfg γ} {c : Call} {o : Option (List ℕ)}
    (h : step gate s c = some (o, s')) (cs : List Call) :
    segments gate s (c :: cs) = o.toList ++ segments gate s' cs := by
  rw [segments, Machine.outputs, h]
  cases o <;> rfl

lemma segments_cons_ne_nil {gate : Gate γ ℕ} {s s' : Feed cfg γ} {c : Call}
    {o : Option (List ℕ)} (h : step gate s c = some (o, s')) (ho : o.isSome) (cs : List Call) :
    segments gate s (c :: cs) ≠ [] := by
  obtain ⟨seg, rfl⟩ := Option.isSome_iff_exists.mp ho
  rw [segments_cons h]
  exact List.cons_ne_nil _ _

/-- An open segment is handed out by the flush at the latest. -/
lemma segments_ne_nil (gate : Gate γ ℕ) {s : Feed cfg γ} (hrep : Repeats s.vad)
    (h : s.vad.active = true) (cs : List Call) : segments gate s (cs ++ [.flush]) ≠ [] := by
  induction cs generalizing s with
  | nil =>
    obtain ⟨o, s', hs, -, hout | ⟨hne, -⟩⟩ := step_stays gate hrep h .flush
    · exact segments_cons_ne_nil hs hout []
    · exact absurd rfl hne
  | cons c cs ih =>
    obtain ⟨o, s', hs, hrep', hout | ⟨-, hactive⟩⟩ := step_stays gate hrep h c
    · exact segments_cons_ne_nil hs hout _
    · rw [List.cons_append, segments_cons hs]
      exact List.append_ne_nil_of_right_ne_nil _ (ih hrep' hactive)

/-- A stream is handed out in no segment exactly when none of its frames opens one. -/
lemma segments_eq_nil_iff (gate : Gate γ ℕ) {s : Feed cfg γ} (h : Idle s.vad) (cs : List Call) :
    segments gate s (cs ++ [.flush]) = [] ↔ Machine.Guarded (step gate) (StaysIdle gate) s cs := by
  induction cs generalizing s with
  | nil =>
    refine ⟨fun _ => Machine.guarded_nil _ s, fun _ => ?_⟩
    obtain ⟨o, s', hs, hcases⟩ := step_idle gate h .flush
    rw [atHand, opens_nil] at hcases
    rw [List.nil_append, segments_cons hs, hcases.1]
    rfl
  | cons c cs ih =>
    obtain ⟨o, s', hs, hcases⟩ := step_idle gate h c
    rw [Machine.guarded_cons, List.cons_append, segments_cons hs]
    by_cases hopen : opens cfg gate s.vad.gate s.vad.speechRun (atHand s c) = true
    · rw [if_pos hopen] at hcases
      refine iff_of_false (fun h0 => ?_) fun hG => ?_
      · obtain ⟨ho, hrest⟩ := List.append_eq_nil_iff.mp h0
        rcases hcases with hsome | hactive
        · obtain ⟨seg, rfl⟩ := Option.isSome_iff_exists.mp hsome
          cases ho
        · exact segments_ne_nil gate (step_repeats gate (.inl h) hs).1 hactive cs hrest
      · rw [hG.1.2] at hopen
        cases hopen
    · rw [if_neg hopen] at hcases
      obtain ⟨rfl, hidle⟩ := hcases
      have hstays : StaysIdle gate s c := ⟨h.1, Bool.eq_false_of_not_eq_true hopen⟩
      rw [Option.toList_none, List.nil_append, ih hidle]
      refine ⟨fun hG => ⟨hstays, fun r hr => ?_⟩, fun hG => hG.2 _ hs⟩
      rw [hs] at hr
      cases hr
      exact hG

/-- A fresh detector. -/
def start (cfg : Config) (g : γ) (memory : List ℕ) (h : 0 < memory.length) : Feed cfg γ :=
  ⟨create cfg g memory h, 0⟩

/-- Slices hold no sample twice. -/
lemma slices_iff_eq_nil (gate : Gate γ ℕ) {s : Feed cfg γ} (h : Repeats s.vad) (n : ℕ)
    (cs : List Call) : Slices n (segments gate s cs) ↔ segments gate s cs = [] := by
  constructor
  · intro hslices
    refine List.eq_nil_iff_forall_not_mem.mpr fun seg hseg => ?_
    obtain ⟨a, len, rfl, -⟩ := hslices.slice seg hseg
    exact emitted_repeats gate h cs _ hseg List.nodup_range'
  · intro h0
    rw [h0]
    exact ⟨nofun, List.Pairwise.nil⟩

/-- More calls hand out more segments behind. -/
lemma segments_append (gate : Gate γ ℕ) (s : Feed cfg γ) (cs ds : List Call) :
    segments gate s cs <+: segments gate s (cs ++ ds) := by
  induction cs generalizing s with
  | nil => exact List.nil_prefix
  | cons c cs ih =>
    obtain ⟨o, s', hs⟩ : ∃ o s', step gate s c = some (o, s') := by
      cases c <;> exact ⟨_, _, rfl⟩
    rw [List.cons_append, segments_cons hs, segments_cons hs]
    exact List.prefix_append_right_inj _ |>.mpr (ih s')

/-- **The segments of a stream are slices of it, ordered and disjoint, as long as no frame opens a
segment; and for a stream closed by a flush only then**: the frame that opens a segment is handed
out twice. -/
theorem slices_iff (cfg : Config) (gate : Gate γ ℕ) (g : γ) (memory : List ℕ)
    (h : 0 < memory.length) (cs : List Call) :
    (Machine.Guarded (step gate) (StaysIdle gate) (start cfg g memory h) cs →
        Slices (pushed cs) (segments gate (start cfg g memory h) cs)) ∧
      (Slices (pushed cs) (segments gate (start cfg g memory h) (cs ++ [.flush])) ↔
        Machine.Guarded (step gate) (StaysIdle gate) (start cfg g memory h) cs) := by
  have hidle : Idle (start cfg g memory h).vad := ⟨rfl, rfl⟩
  have hiff := segments_eq_nil_iff gate hidle cs
  constructor
  · intro hG
    refine (slices_iff_eq_nil gate (.inl hidle) _ _).mpr (List.prefix_nil.mp ?_)
    exact hiff.mpr hG ▸ segments_append gate _ cs [.flush]
  · exact (slices_iff_eq_nil gate (.inl hidle) _ _).trans hiff

/-- One sample a frame, and any loud frame opens a segment. -/
def sampleConfig : Config := ⟨1, 0, 0, 1000, by decide⟩

/-- Every frame is loud. -/
def loudGate : Gate Unit ℕ := fun _ _ _ => (⟨true, false⟩, ())

/-- No frame is loud. -/
def quietGate : Gate Unit ℕ := fun _ _ _ => (⟨false, true⟩, ())

/-- A quiet sample and the flush. -/
theorem slices_iff_sample :
    Slices 1 (segments quietGate (start sampleConfig () [0] Nat.one_pos) [.push 1, .flush]) := by
  refine (slices_iff sampleConfig quietGate () [0] Nat.one_pos [.push 1]).2.mpr ?_
  refine Machine.guarded_cons.mpr ⟨⟨rfl, ?_⟩, fun _ _ => Machine.guarded_nil _ _⟩
  change opens sampleConfig quietGate () 0 ([0] ++ []) = false
  rw [opens_frame quietGate () 0 rfl []]
  exact opens_nil quietGate () 0

/-- One loud sample and the flush: the segment holds the sample twice. -/
theorem opening_frame_repeated :
    ¬∀ (cfg : Config) (gate : Gate Unit ℕ) (memory : List ℕ) (h : 0 < memory.length)
      (cs : List Call), Slices (pushed cs) (segments gate (start cfg () memory h) cs) := by
  intro hall
  have hslices := hall sampleConfig loudGate [0] Nat.one_pos [.push 1, .flush]
  have hopens : opens sampleConfig loudGate () 0 ([0] ++ []) = true := by
    rw [opens_frame loudGate () 0 rfl []]
    rfl
  have hnil := (slices_iff_eq_nil loudGate (.inl ⟨rfl, rfl⟩) _ _).mp hslices
  have hguarded := (segments_eq_nil_iff loudGate
    (s := start sampleConfig () [0] Nat.one_pos) ⟨rfl, rfl⟩ [.push 1]).mp hnil
  have hidle := (Machine.guarded_cons.mp hguarded).1.2
  exact Bool.false_ne_true (hidle.symm.trans hopens)

end VibeVoice.Vad
