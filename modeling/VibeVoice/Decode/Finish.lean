import VibeVoice.Decode.StopStrings

/-!
How a text generation ends and what it reports (`vv_inference_generate` of `pipeline.c`).

* `EndsOnToken`, `EndsOnStop`, `Cancels`, `Cut`: the ways a run of a request ends, the last one where
  the token limit or the window has been reached.
* `Generation.answer`, `generate_on`: what each device returns.
* `Settled`: the devices agree, nothing overflows, the cache has room, and the reason that is
  reported is the one the answer ended for.
* `settled_iff`: the requests that are.
-/

namespace VibeVoice.Decode

section Ends

variable {α : Type} (r : Generation α)

/-- The request on the host, or on the accelerator. -/
def Generation.on (cpuOnly : Bool) : Generation α := { r with cpuOnly := cpuOnly }

/-- The tokens that are asked for. -/
def Generation.asked : ℕ := if 0 < r.maxTokens then r.maxTokens.toNat else 512

/-- The sum that is compared with the window is an `int`. -/
def Generation.SumFits : Prop := r.seqLen + r.asked < 2 ^ 31

/-- The token behind `n` pieces, if the step that brings it does. -/
def Generation.tokenAt (token : α) : ℕ → Option α
  | 0 => some token
  | k + 1 => (r.steps k).head.toOption

variable (token : α)

/-- The lengths of the cache: a step follows each piece that is neither cut nor broken off. -/
def Generation.cacheLens : List ℕ :=
  (List.range ((r.run token).1.length + 1)).map (r.seqLen + ·)

/-- With tokens left, the next one is an end token. -/
def EndsOnToken : Prop :=
  ∃ ps t, r.run token = (ps, .ended) ∧ ps.length < r.maxNew ∧
    r.tokenAt token ps.length = some t ∧ r.ends t = true

/-- The text ends with a stop string behind one of the pieces. -/
def EndsOnStop : Prop := ∃ qs piece s, r.stop.MeetsAt (r.pieces token) qs piece s

/-- The callback answers with `false`. -/
def Cancels : Prop := ∃ ps piece, r.run token = (ps, .cancelled piece)

/-- No token is left, or no room. -/
def Cut : Prop :=
  ∃ ps, (r.run token = (ps, .ended) ∧ ps.length = r.maxNew) ∨ r.run token = (ps, .full)

/-- What a generation reports is how it ended. -/
structure Reported (g : Generated) : Prop where
  tokens : g.completionTokens = (decoded (r.run token)).length
  le_asked : g.completionTokens ≤ r.asked
  stop : g.finishReason = .stop ↔ EndsOnToken r token ∨ EndsOnStop r token
  cancelled : g.finishReason = .cancelled ↔ Cancels r token
  length : g.finishReason = .length ↔ Cut r token

/-- The devices give the same answer, or fail alike, no sum overflows, the cache stays in the window,
and the reason is the right one. -/
structure Settled : Prop where
  same : generate (r.on true) = generate (r.on false)
  sum_fits : r.SumFits
  room : ∀ token, r.first = .ok token → ∀ n ∈ r.cacheLens token, n ≤ r.window
  reported : ∀ token, r.first = .ok token → ∀ cpuOnly g, generate (r.on cpuOnly) = .ok g →
    Reported r token g

/-- The sum fits, no step reports an overflow, and no stop string is completed by the last token that
is permitted. -/
structure Plain : Prop where
  sum_fits : r.SumFits
  not_full : ∀ token, r.first = .ok token → ∀ ps, r.run token ≠ (ps, .full)
  stopped : ∀ token, r.first = .ok token → ∀ qs piece s,
    r.stop.MeetsAt (r.pieces token) qs piece s → qs.length + 1 < r.maxNew

end Ends

section Runs

variable {α : Type} {r : Generation α} {token : α}

lemma outcome_token {s : Step α} {t : α} (h : s.outcome = .token t) : s.head = .ok t := by
  obtain ⟨embed, layers, head⟩ := s
  cases embed with
  | error e => cases h
  | ok u =>
    cases layers with
    | error e => cases e <;> cases h
    | ok v =>
      cases head with
      | error e => cases h
      | ok t' =>
        cases h
        rfl

/-- A run is stopped behind the first piece at which a stop string ends the text. -/
lemma run_stopped_iff {ps : List (List UInt8)} :
    (∃ piece cut, r.run token = (ps, .stopped piece cut)) ↔
      ∃ piece s, r.stop.MeetsAt (r.pieces token) ps piece s := by
  rcases run_cases r token with ⟨-, hhalt, hnone⟩ | ⟨qs, piece, s, hmeets, hrun⟩
  · refine ⟨fun ⟨piece, cut, h⟩ => absurd (congrArg Prod.snd h) (hhalt piece cut), ?_⟩
    rintro ⟨piece, s, h⟩
    exact absurd (hnone _ h.isFront) h.not_none
  · constructor
    · rintro ⟨piece', cut, h⟩
      obtain rfl := (Prod.mk.inj (hrun.symm.trans h)).1
      exact ⟨piece, s, hmeets⟩
    · rintro ⟨piece', s', h⟩
      obtain ⟨rfl, -⟩ := hmeets.unique h
      exact ⟨piece, _, hrun⟩

lemma endsOnStop_iff :
    EndsOnStop r token ↔ ∃ ps piece cut, r.run token = (ps, .stopped piece cut) :=
  exists_congr fun _ => run_stopped_iff.symm

/-- What a token does to a run: it ends it, with the token's piece or without, or brings the next. -/
lemma genFollow_cases (left : ℕ) (token' : α) (ps : List (List UInt8)) :
    (r.ends token' = true ∧ genFollow r (left + 1) token' ps = (ps, .ended)) ∨
    genFollow r (left + 1) token' ps = (ps, .noMemory) ∨
    (∃ piece cut, genFollow r (left + 1) token' ps = (ps, .stopped piece cut)) ∨
    r.goOn token' ps = .error (genFollow r (left + 1) token' ps) ∨
    ∃ t, r.goOn token' ps = .ok t ∧
      genFollow r (left + 1) token' ps = genFollow r left t (ps ++ [r.pieceOf token']) := by
  rw [genFollow]
  split_ifs with hends
  · exact .inl ⟨hends, rfl⟩
  · exact .inr (.inl rfl)
  refine .inr (.inr ?_)
  cases stopCut (whole (ps.flatten ++ r.pieceOf token')) r.stop.list with
  | some cut => exact .inl ⟨_, cut, rfl⟩
  | none =>
    refine .inr ?_
    cases hgo : r.goOn token' ps with
    | error run => exact .inl rfl
    | ok t => exact .inr ⟨t, rfl, rfl⟩

/-- The next token comes from the step behind its pieces. -/
lemma head_of_goOn {token' t : α} {ps : List (List UInt8)} (h : r.goOn token' ps = .ok t) :
    (r.steps ps.length).head = .ok t := by
  rw [Generation.goOn] at h
  split_ifs at h
  cases hout : (r.steps ps.length).outcome with
  | token t' =>
    rw [hout] at h
    obtain rfl := Except.ok.inj h
    exact outcome_token hout
  | _ =>
    rw [hout] at h
    cases h

/-- A run has no more pieces than it may. -/
lemma decoded_genFollow_le (left : ℕ) (token' : α) (ps : List (List UInt8)) :
    (decoded (genFollow r left token' ps)).length ≤ ps.length + left ∧
      (genFollow r left token' ps).1.length ≤ ps.length + left := by
  induction left generalizing token' ps with
  | zero => exact ⟨le_rfl, le_rfl⟩
  | succ left ih =>
    have hmore : ∀ piece : List UInt8, (ps ++ [piece]).length ≤ ps.length + (left + 1) :=
      fun piece => by
        rw [List.length_append, List.length_singleton]
        omega
    have hps : ps.length ≤ ps.length + (left + 1) := Nat.le_add_right ..
    rcases genFollow_cases (r := r) left token' ps with ⟨-, h⟩ | h | ⟨piece, cut, h⟩ | h |
      ⟨t, -, h⟩
    · exact h ▸ ⟨hps, hps⟩
    · exact h ▸ ⟨hps, hps⟩
    · exact h ▸ ⟨hmore piece, hps⟩
    · obtain ⟨hdecoded, hfront, -⟩ := goOn_error h
      rw [hdecoded] at hfront ⊢
      exact ⟨hmore _, hfront.length_le.trans (hmore _)⟩
    · have hrest := ih t (ps ++ [r.pieceOf token'])
      rw [List.length_append, List.length_singleton, Nat.add_assoc, Nat.add_comm 1 left] at hrest
      exact h ▸ hrest

/-- A run that ends with tokens left ends on an end token. -/
lemma ended_genFollow {left : ℕ} {token' : α} {ps qs : List (List UInt8)}
    (htoken : r.tokenAt token ps.length = some token')
    (h : genFollow r left token' ps = (qs, .ended)) :
    qs.length = ps.length + left ∨
      ∃ t, r.tokenAt token qs.length = some t ∧ r.ends t = true := by
  induction left generalizing token' ps with
  | zero =>
    obtain rfl := (Prod.mk.inj h).1
    exact .inl rfl
  | succ left ih =>
    rcases genFollow_cases (r := r) left token' ps with ⟨hends, h'⟩ | h' | ⟨piece, cut, h'⟩ | h' |
      ⟨t, hgo, h'⟩
    · rw [h'] at h
      obtain rfl := (Prod.mk.inj h).1
      exact .inr ⟨token', htoken, hends⟩
    · exact nomatch h'.symm.trans h
    · exact nomatch h'.symm.trans h
    · exact absurd (congrArg Prod.snd h) (goOn_error h').2.2.1
    · have hlen : (ps ++ [r.pieceOf token']).length = ps.length + 1 := by simp
      have hnext : r.tokenAt token (ps ++ [r.pieceOf token']).length = some t := by
        rw [hlen, Generation.tokenAt, head_of_goOn hgo]
        rfl
      have hrest := ih hnext (h' ▸ h)
      rw [hlen, Nat.add_assoc, Nat.add_comm 1 left] at hrest
      exact hrest

/-- The reason behind a run, where the host does not fail. -/
def Generation.finishOf (r : Generation α) : List (List UInt8) × Halt → Finish
  | (_, .cancelled _) => .cancelled
  | (_, .full) => .length
  | run => if r.maxNew ≤ (decoded run).length then .length else .stop

/-- What is made of a run, except on the host where a step reports an overflow. -/
def Generation.answer (r : Generation α) (run : List (List UInt8) × Halt) :
    Except Status Generated :=
  match run.2 with
  | .failed e => .error e
  | .noMemory => .error .outOfMemory
  | _ =>
    if (r.leftOf run).st.pushed = false ∧ r.textAlloc = false then .error .outOfMemory
    else .ok ⟨cString (textOf run), (decoded run).length, r.finishOf run, r.deltas run⟩

lemma genFollow_on (cpuOnly : Bool) (left : ℕ) (token' : α) (ps : List (List UInt8)) :
    genFollow (r.on cpuOnly) left token' ps = genFollow r left token' ps := by
  induction left generalizing token' ps with
  | zero => rfl
  | succ left ih =>
    simp only [genFollow, ih]
    rfl

/-- The run does not depend on the device. -/
lemma run_on (cpuOnly : Bool) : (r.on cpuOnly).run token = r.run token :=
  genFollow_on cpuOnly r.maxNew token []

/-- What each device returns. -/
lemma generate_on (hfits : r.seqLen < r.window) (hfirst : r.first = .ok token) (cpuOnly : Bool) :
    generate (r.on cpuOnly) =
      match cpuOnly, (r.run token).2 with
      | true, .full => .error .overflow
      | _, _ => r.answer (r.run token) := by
  have hroom : ¬(0 < (r.on cpuOnly).window ∧ (r.on cpuOnly).window ≤ (r.on cpuOnly).seqLen) :=
    fun h => absurd h.2 (not_le.mpr hfits)
  have hfirst' : (r.on cpuOnly).first = .ok token := hfirst
  rw [generate, if_neg hroom, hfirst']
  change (do
    let l := if (r.on cpuOnly).cpuOnly then hostLoop (r.on cpuOnly) (r.on cpuOnly).maxNew 0 token
      ⟨[], [], false, 0, []⟩ else deviceLoop (r.on cpuOnly) (r.on cpuOnly).maxNew 0 token
      ⟨[], [], false, 0, []⟩
    l.status
    if l.st.pushed = false ∧ r.textAlloc = false then throw .outOfMemory
    else pure ⟨cString l.st.text, l.n, if l.cancelled then .cancelled else
      if r.maxNew ≤ l.n then .length else l.finish, l.st.deltas⟩ : Except Status Generated) = _
  rw [loop_eq, run_on]
  generalize r.run token = run
  obtain ⟨ps, halt⟩ := run
  cases halt with
  | full =>
    cases cpuOnly with
    | true => rfl
    | false =>
      have hlength : (if r.maxNew ≤ ps.length then .length else .length : Finish) = .length :=
        ite_self _
      change (if (r.state ps).pushed = false ∧ r.textAlloc = false then
        (Except.error .outOfMemory : Except Status Generated)
        else .ok ⟨cString (whole ps.flatten), ps.length,
          if r.maxNew ≤ ps.length then .length else .length, (r.state ps).deltas⟩) = _
      rw [hlength]
      rfl
  | ended => cases cpuOnly <;> rfl
  | stopped piece cut =>
    have hlen : (ps ++ [piece]).length = ps.length + 1 := by simp
    have hanswer : r.answer (ps, .stopped piece cut) =
        if decide (whole (ps.flatten ++ piece) ≠ []) = false ∧ r.textAlloc = false then
          .error .outOfMemory
        else .ok ⟨cString ((whole (ps.flatten ++ piece)).take cut), (ps ++ [piece]).length,
          if r.maxNew ≤ (ps ++ [piece]).length then .length else .stop, _⟩ := rfl
    rw [hlen] at hanswer
    cases cpuOnly <;> exact hanswer.symm
  | cancelled piece =>
    have hlen : (ps ++ [piece]).length = ps.length + 1 := by simp
    have hanswer : r.answer (ps, .cancelled piece) =
        if (r.state (ps ++ [piece])).pushed = false ∧ r.textAlloc = false then
          .error .outOfMemory
        else .ok ⟨cString (whole (ps.flatten ++ piece)), (ps ++ [piece]).length,
          .cancelled, _⟩ := rfl
    rw [hlen, ← List.flatten_concat] at hanswer
    cases cpuOnly <;> exact hanswer.symm
  | failed e => cases cpuOnly <;> rfl
  | noMemory => cases cpuOnly <;> rfl

/-- An answer is that of a run that neither fails nor lacks memory. -/
lemma answer_eq_ok {run : List (List UInt8) × Halt} {g : Generated} (h : r.answer run = .ok g) :
    g.completionTokens = (decoded run).length ∧ g.finishReason = r.finishOf run ∧
      (∀ e, run.2 ≠ .failed e) ∧ run.2 ≠ .noMemory := by
  obtain ⟨ps, halt⟩ := run
  rw [Generation.answer] at h
  cases halt with
  | failed e => cases h
  | noMemory => cases h
  | _ =>
    dsimp only at h
    split at h
    · cases h
    · cases h
      exact ⟨rfl, rfl, nofun, nofun⟩

lemma maxNew_le (hfits : r.seqLen < r.window) :
    r.maxNew ≤ r.asked ∧ r.seqLen + r.maxNew ≤ r.window := by
  have hmaxNew : r.maxNew = if 0 < r.window ∧ r.window < r.seqLen + r.asked
      then r.window - r.seqLen else r.asked := rfl
  rw [hmaxNew]
  split_ifs <;> omega

/-- What an answer reports, where its run is neither full nor stopped at the last token. -/
lemma reported_of_plain (hfits : r.seqLen < r.window) (hfull : ∀ ps, r.run token ≠ (ps, .full))
    (hstopped : ∀ qs piece s, r.stop.MeetsAt (r.pieces token) qs piece s → qs.length + 1 < r.maxNew)
    {g : Generated} (h : r.answer (r.run token) = .ok g) : Reported r token g := by
  obtain ⟨htokens, hfinish, hfailed, hmemory⟩ := answer_eq_ok h
  have hle := (decoded_genFollow_le (r := r) r.maxNew token []).1
  have hended : ∀ qs, genFollow r r.maxNew token [] = (qs, .ended) → _ :=
    fun _ h => ended_genFollow rfl h
  rw [List.length_nil, Nat.zero_add] at hle
  simp only [List.length_nil, Nat.zero_add] at hended
  change (decoded (r.run token)).length ≤ r.maxNew at hle
  change ∀ qs, r.run token = (qs, .ended) → _ at hended
  have hasked : g.completionTokens ≤ r.asked := by
    rw [htokens]
    exact hle.trans (maxNew_le hfits).1
  cases hrun : r.run token with
  | mk ps halt =>
  rw [hrun] at htokens hfinish hle hfailed hmemory
  cases halt with
  | failed e => exact absurd rfl (hfailed e)
  | noMemory => exact absurd rfl hmemory
  | full => exact absurd hrun (hfull ps)
  | cancelled piece =>
    refine ⟨hrun ▸ htokens, hasked, ?_, ?_, ?_⟩ <;> rw [hfinish]
    · simp [Generation.finishOf, EndsOnToken, endsOnStop_iff, hrun]
    · simp [Generation.finishOf, Cancels, hrun]
    · simp [Generation.finishOf, Cut, hrun]
  | stopped piece cut =>
    obtain ⟨piece', s, hmeets⟩ := run_stopped_iff.mp ⟨piece, cut, hrun⟩
    have hlt := hstopped ps piece' s hmeets
    have hstop : r.finishOf (ps, .stopped piece cut) = .stop := by
      refine if_neg (not_le.mpr ?_)
      rw [decoded, List.length_append, List.length_singleton]
      exact hlt
    refine ⟨hrun ▸ htokens, hasked, ?_, ?_, ?_⟩ <;> rw [hfinish, hstop]
    · simp [EndsOnToken, endsOnStop_iff, hrun]
    · simp [Cancels, hrun]
    · simp [Cut, hrun]
  | ended =>
    rcases Nat.eq_or_lt_of_le hle with hlen | hlt
    · have hlen : ps.length = r.maxNew := hlen
      have hlength : r.finishOf (ps, .ended) = .length := if_pos hlen.ge
      refine ⟨hrun ▸ htokens, hasked, ?_, ?_, ?_⟩ <;> rw [hfinish, hlength]
      · simp [EndsOnToken, endsOnStop_iff, hrun, hlen]
      · simp [Cancels, hrun]
      · simp [Cut, hrun, hlen]
    · have hlt : ps.length < r.maxNew := hlt
      obtain ⟨t, hat, hends⟩ := (hended ps hrun).resolve_left hlt.ne
      have hstop : r.finishOf (ps, .ended) = .stop := if_neg (not_le.mpr hlt)
      refine ⟨hrun ▸ htokens, hasked, ?_, ?_, ?_⟩ <;> rw [hfinish, hstop]
      · simpa using .inl ⟨ps, t, hrun, hlt, hat, hends⟩
      · simp [Cancels, hrun]
      · simpa [Cut, hrun] using hlt.ne

lemma room_of_fits (hfits : r.seqLen < r.window) {n : ℕ} (hn : n ∈ r.cacheLens token) :
    n ≤ r.window := by
  obtain ⟨k, hk, rfl⟩ := List.mem_map.mp hn
  have hle := (decoded_genFollow_le (r := r) r.maxNew token []).2
  have hwindow := (maxNew_le hfits).2
  rw [List.length_nil, Nat.zero_add] at hle
  rw [List.mem_range, Generation.run] at hk
  omega

/-- **How a generation ends**: the devices agree and report the reason it ended for exactly where the
sum fits, no step reports an overflow and no stop string ends with the last token permitted. -/
theorem settled_iff (hfits : r.seqLen < r.window) : Settled r ↔ Plain r := by
  constructor
  · rintro ⟨hsame, hsum, -, hreported⟩
    refine ⟨hsum, fun token hfirst ps hrun => ?_, fun token hfirst ps piece s hmeets => ?_⟩
    · -- the host fails, the accelerator answers or has no memory
      rw [generate_on hfits hfirst, generate_on hfits hfirst, hrun] at hsame
      dsimp only at hsame
      have hanswer : r.answer (ps, .full) =
          if (r.leftOf (ps, .full)).st.pushed = false ∧ r.textAlloc = false then
            .error .outOfMemory
          else .ok ⟨cString (textOf (ps, .full)), _, _, _⟩ := rfl
      rw [hanswer] at hsame
      split at hsame <;> cases hsame
    · by_contra hlast
      rcases run_cases r token with ⟨-, -, hnone⟩ | ⟨qs, piece', s', h, hrun⟩
      · exact hmeets.not_none (hnone _ hmeets.isFront)
      obtain ⟨rfl, rfl, rfl⟩ := hmeets.unique h
      -- the text is not empty before it is cut
      have hpushed : ¬(decide (whole (ps.flatten ++ piece) ≠ []) = false ∧ r.textAlloc = false) := by
        rintro ⟨hnil, -⟩
        have hlt := (ending_occurs hmeets.ending).lt
        rw [not_not.mp (of_decide_eq_false hnil)] at hlt
        exact Nat.not_lt_zero _ hlt
      generalize (whole (ps.flatten ++ piece)).length - s.length = cut at hrun
      have hanswer : generate (r.on true) = .ok ⟨cString (textOf (ps, .stopped piece cut)),
          (decoded (ps, .stopped piece cut)).length, r.finishOf (ps, .stopped piece cut),
          r.deltas (ps, .stopped piece cut)⟩ := by
        rw [generate_on hfits hfirst, hrun]
        exact if_neg hpushed
      have hstop := (hreported token hfirst true _ hanswer).stop.mpr (.inr ⟨ps, piece, s, hmeets⟩)
      have hlength : r.finishOf (ps, .stopped piece cut) = .length := by
        refine if_pos ?_
        rw [decoded, List.length_append, List.length_singleton]
        omega
      rw [hlength] at hstop
      cases hstop
  · rintro ⟨hsum, hfull, hstopped⟩
    have hboth : ∀ token, r.first = .ok token → ∀ cpuOnly,
        generate (r.on cpuOnly) = r.answer (r.run token) := by
      intro token hfirst cpuOnly
      rw [generate_on hfits hfirst]
      have hne := hfull token hfirst
      cases hrun : r.run token with
      | mk ps halt =>
      cases halt with
      | full => exact absurd hrun (hne ps)
      | _ => cases cpuOnly <;> rfl
    refine ⟨?_, hsum, fun token _ n hn => room_of_fits hfits hn, fun token hfirst cpuOnly g h => ?_⟩
    · cases hfirst : r.first with
      | ok token => rw [hboth token hfirst, hboth token hfirst]
      | error e =>
        have hroom : ¬(0 < r.window ∧ r.window ≤ r.seqLen) := fun h => absurd h.2 (not_le.mpr hfits)
        have hfails : ∀ cpuOnly, generate (r.on cpuOnly) = .error e := by
          intro cpuOnly
          have hfirst' : (r.on cpuOnly).first = .error e := hfirst
          rw [generate, if_neg (by exact hroom), hfirst']
          rfl
        rw [hfails, hfails]
    · rw [hboth token hfirst] at h
      exact reported_of_plain hfits (hfull token hfirst) (hstopped token hfirst) h

/-- Two tokens and an end token. -/
def twoTokens : Generation ℕ := { listened (fun _ => [0x42]) with window := 8 }

theorem twoTokens_settled : Settled twoTokens := by
  have hrun : ∀ token, twoTokens.first = .ok token →
      twoTokens.run token = ([[0x42], [0x42]], .ended) := by
    intro token hfirst
    obtain rfl : 1 = token := Except.ok.inj hfirst
    rfl
  have hsum : twoTokens.seqLen + twoTokens.asked = 9 := rfl
  refine (settled_iff (by decide)).mpr ⟨?_, fun token hfirst ps h => ?_,
    fun token hfirst ps piece s h => ?_⟩
  · rw [Generation.SumFits, hsum]
    norm_num
  · exact nomatch (hrun token hfirst).symm.trans h
  · obtain ⟨piece, cut, h⟩ := run_stopped_iff.mpr ⟨piece, s, h⟩
    exact nomatch (hrun token hfirst).symm.trans h

/-- One token is asked for, and it completes the stop string. -/
def lastStop : Generation ℕ :=
  { listened (fun _ => [0x41]) with maxTokens := 1, window := 8 }

theorem lastStop_unsettled : generate (lastStop.on true) = .ok ⟨[], 1, .length, []⟩ ∧
    lastStop.run 1 = ([], .stopped [0x41] 0) ∧ ¬Settled lastStop := by
  have hanswer : generate (lastStop.on true) = .ok ⟨[], 1, .length, []⟩ := rfl
  have hrun : lastStop.run 1 = ([], .stopped [0x41] 0) := rfl
  refine ⟨hanswer, hrun, fun h => ?_⟩
  have hstop := (h.reported 1 rfl true _ hanswer).stop.mpr
    (.inr (endsOnStop_iff.mpr ⟨_, _, _, hrun⟩))
  cases hstop

end Runs

end VibeVoice.Decode
