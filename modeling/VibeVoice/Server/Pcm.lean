import VibeVoice.Lib.Pieces
import VibeVoice.Lib.Words
import VibeVoice.Server.Websocket
import VibeVoice.Model.Cjson

/-!
Audio over a websocket: `ws_message`, `ws_start` and `ws_pcm` of `api.c`.

A message is handled with what the rest of the server answers while it is: whether the samples
find room, and the status of the engine call the message makes. The reading of a JSON text, the
range of a sample rate and the floats are parameters; a float has its lowest byte first. What is
sent to the client is left out, as a send that fails ends the reading between messages only.

* `wsMessage`, `run`: one message, and the messages of a connection.  A read behind a message or
  a write behind the carry is `none`.
* `decode`, `samples`: what the bytes of a sample say, and the complete samples of a stream.
* `Holds`: the session has been given the complete samples, and the carry is what is left.
* `pcm_reassembled`: however the stream is cut into messages.
-/

namespace VibeVoice.WsPcm

open Pieces

/-! ### The state of a connection -/

/-- What a connection depends on outside of its handler. -/
structure Host (δ σ : Type) where
  /-- `cJSON_ParseWithLength`. -/
  parse : List UInt8 → Option (Json δ)
  /-- `rate >= 8000.0 && rate <= 192000.0`. -/
  inRange : δ → Bool
  /-- The float with these bits. -/
  float : UInt32 → σ

/-- What is answered while a message is handled: by `vv_realloc`, and by the engine. -/
structure Answer where
  room : Bool
  status : Except Status Unit

/-- The fields of `ws_state_t` that a message can change, with what the session was given. -/
structure State (σ : Type) where
  es : Bool
  f32 : Bool
  carry : List UInt8
  pcmCap : ℕ
  samples : ℕ
  done : Bool
  closeCode : ℕ
  failed : Option Status
  pushed : List (List σ)

variable {δ σ : Type}

/-- `VV_WS_CLOSE_NORMAL`. -/
def closeNormal : ℕ := 1000

/-- `WS_CLOSE_TRY_AGAIN`. -/
def closeTryAgain : ℕ := 1013

/-- A connection before its first message. -/
def State.fresh : State σ := ⟨false, false, [], 0, 0, false, closeNormal, none, []⟩

/-- `bps`. -/
def State.bps (w : State σ) : ℕ := if w.f32 then 4 else 2

lemma State.bps_pos (w : State σ) : 0 < w.bps := by
  rw [State.bps]
  split <;> omega

lemma State.bps_le (w : State σ) : w.bps ≤ 4 := by
  rw [State.bps]
  split <;> omega

/-- `ws_fail`. -/
def wsFail (w : State σ) (s : Status) (code : ℕ) : State σ :=
  { w with failed := some s, done := true, closeCode := code }

variable [IntCast σ] [Div σ] (h : Host δ σ)

/-! ### Starting a session -/

/-- `json_str`. -/
def jsonStr (o : Json δ) (key : List UInt8) : Option (List UInt8) :=
  (o.getObjectItemCaseSensitive key).bind Json.valueString

/-- Whether the `sample_rate` of a start message is in range; there is a default. -/
def rateInRange (msg : Json δ) : Bool :=
  match msg.getObjectItemCaseSensitive (literal "sample_rate") with
  | some (.number rate) => h.inRange rate
  | _ => true

/-- The `format` of a start message: whether it is `pcm_f32le`, `none` for another. -/
def formatOf (msg : Json δ) : Option Bool :=
  match jsonStr msg (literal "format") with
  | none => some false
  | some fmt =>
    if fmt = literal "pcm_s16le" then some false
    else if fmt = literal "pcm_f32le" then some true
    else none

/-- `ws_start`. -/
def wsStart (w : State σ) (msg : Json δ) (a : Answer) : State σ :=
  if w.es then wsFail w .invalidArg 1008
  else if rateInRange h msg = false then wsFail w .invalidArg 1008
  else
    match formatOf msg with
    | none => wsFail w .invalidArg 1008
    | some f32 =>
      match a.status with
      | .ok _ => { w with f32 := f32, es := true }
      | .error s =>
        wsFail { w with f32 := f32 } s
          (if s = .kvPoolExhausted ∨ s = .busy then closeTryAgain else 1011)

/-! ### Audio -/

/-- The next `k` bytes, first of the carry and then of the message; `none` when the message has
ended. -/
def takeBytes : ℕ → List UInt8 → List UInt8 → Option (List UInt8 × List UInt8 × List UInt8)
  | 0, carry, data => some ([], carry, data)
  | k + 1, c :: carry, data => (takeBytes k carry data).map fun r => (c :: r.1, r.2)
  | k + 1, [], d :: data => (takeBytes k [] data).map fun r => (d :: r.1, r.2)
  | _ + 1, [], [] => none

/-- The bytes of a sample as a float: copied, or `(float)v / 32768.0f`. -/
def sampleOf (f32 : Bool) (b : List UInt8) : σ :=
  if f32 then h.float (Words.ofBytes fun k => b.getD k 0)
  else
    let v := ((b.getD 0 0).toUInt16 ||| ((b.getD 1 0).toUInt16 <<< 8)).toInt16
    (v.toInt : σ) / ((32768 : ℤ) : σ)

/-- The loop over `n` samples of `bps` bytes. -/
def takeSamples (f32 : Bool) (bps : ℕ) :
    ℕ → List UInt8 → List UInt8 → Option (List σ × List UInt8 × List UInt8)
  | 0, carry, data => some ([], carry, data)
  | n + 1, carry, data =>
    (takeBytes bps carry data).bind fun b =>
      (takeSamples f32 bps n b.2.1 b.2.2).map fun r => (sampleOf h f32 b.1 :: r.1, r.2)

/-- The session takes the samples, or ends. -/
def pushTo (w : State σ) (a : Answer) : State σ :=
  match a.status with
  | .ok _ => w
  | .error .cancelled => { w with done := true }
  | .error s => wsFail w s (if s = .kvPoolExhausted then closeTryAgain else 1011)

/-- `ws_pcm`. -/
def wsPcm (w : State σ) (data : List UInt8) (a : Answer) : Option (State σ) :=
  if w.es = false then some (wsFail w .invalidArg 1008)
  else
    let n := (w.carry.length + data.length) / w.bps
    if w.pcmCap < n ∧ a.room = false then some (wsFail w .outOfMemory 1011)
    else
      match takeSamples h w.f32 w.bps n w.carry data with
      | none => none
      | some (pcm, carry, rest) =>
        -- `carry` has four bytes
        if 4 < carry.length + rest.length then none
        else some (pushTo { w with
          pcmCap := max w.pcmCap n
          carry := carry ++ rest
          samples := w.samples + n
          pushed := w.pushed ++ [pcm] } a)

/-! ### Messages -/

/-- `VV_WS_OP_BINARY`. -/
def opBinary : ℕ := 0x2

/-- `VV_WS_OP_CLOSE`. -/
def opClose : ℕ := 0x8

/-- `VV_WS_OP_PING`. -/
def opPing : ℕ := 0x9

/-- `VV_WS_OP_PONG`. -/
def opPong : ℕ := 0xA

/-- The session is asked to finish. -/
def wsFinish (w : State σ) (a : Answer) : State σ :=
  if w.es = false then wsFail w .invalidArg 1008
  else
    match a.status with
    | .ok _ => { w with done := true, closeCode := closeNormal }
    | .error .cancelled => { w with done := true }
    | .error s => wsFail w s 1011

/-- A message that is read as JSON. -/
def wsText (w : State σ) (data : List UInt8) (a : Answer) : State σ :=
  match h.parse data with
  | none => wsFail w .parse 1008
  | some msg =>
    match jsonStr msg (literal "type") with
    | none => wsFail w .parse 1008
    | some type =>
      if type = literal "session.start" then wsStart h w msg a
      else if type = literal "session.finish" then wsFinish w a
      else wsFail w .invalidArg 1008

/-- `ws_message`. -/
def wsMessage (w : State σ) (m : Ws.Event) (a : Answer) : Option (State σ) :=
  if w.done then some w
  else if m.opcode = opPing then some w
  else if m.opcode = opPong then some w
  else if m.opcode = opClose then some { w with done := true, closeCode := closeNormal }
  else if m.opcode = opBinary then wsPcm h w m.data a
  else some (wsText h w m.data a)

/-- The messages of a connection. -/
def run (w : State σ) : List (Ws.Event × Answer) → Option (State σ)
  | [] => some w
  | m :: ms => (wsMessage h w m.1 m.2).bind fun w => run w ms

/-! ### Complete samples -/

/-- What the bytes of a sample say. They are digits to the base 256, the lowest first: of the bits
of a float, or of a number in two's complement, counted in parts of 32768. -/
def decode (f32 : Bool) (b : List UInt8) : σ :=
  let n := Nat.ofDigits 256 (b.map UInt8.toNat)
  if f32 then h.float (.ofNat n)
  else ((if n < 2 ^ 15 then n else n - 2 ^ 16 : ℤ) : σ) / ((2 ^ 15 : ℤ) : σ)

/-- The complete samples of a byte stream. -/
def samples (f32 : Bool) (bytes : List UInt8) : List σ :=
  (pieces (if f32 then 4 else 2) bytes).map (decode h f32)

/-- Two bytes as a signed number. -/
lemma toInt_pair (a b : UInt8) : (a.toUInt16 ||| (b.toUInt16 <<< 8)).toInt16.toInt =
    if a.toNat + 256 * b.toNat < 2 ^ 15 then (a.toNat + 256 * b.toNat : ℤ)
    else a.toNat + 256 * b.toNat - 2 ^ 16 := by
  have ha := a.toNat_lt
  have hb := b.toNat_lt
  have hword : (a.toUInt16 ||| (b.toUInt16 <<< 8)).toNat = a.toNat + 256 * b.toNat := by
    have hshift : b.toNat <<< 8 % 2 ^ 16 = b.toNat <<< 8 :=
      Nat.mod_eq_of_lt (by rw [Nat.shiftLeft_eq]; omega)
    rw [UInt16.toNat_or, UInt16.toNat_shiftLeft, UInt8.toNat_toUInt16, UInt8.toNat_toUInt16]
    change a.toNat ||| b.toNat <<< 8 % 2 ^ 16 = _
    rw [hshift, Nat.or_comm, ← Nat.shiftLeft_add_eq_or_of_lt ha, Nat.shiftLeft_eq]
    omega
  change (a.toUInt16 ||| (b.toUInt16 <<< 8)).toBitVec.toInt = _
  rw [BitVec.toInt_eq_toNat_cond, UInt16.toNat_toBitVec, hword]
  split_ifs <;> omega

/-- The bytes of a piece are read as they say. -/
lemma sampleOf_eq {f32 : Bool} {b : List UInt8} (hb : b.length = if f32 then 4 else 2) :
    sampleOf h f32 b = decode h f32 b := by
  cases f32 with
  | true =>
    obtain ⟨x₀, x₁, x₂, x₃, rfl⟩ := List.length_eq_four.mp hb
    rw [sampleOf, decode, if_pos rfl, if_pos rfl, Words.ofBytes]
    congr 2
    simp [Nat.ofDigits]
    omega
  | false =>
    obtain ⟨x₀, x₁, rfl⟩ := List.length_eq_two.mp hb
    simp only [sampleOf, decode, List.getD_cons_zero, List.getD_cons_succ, toInt_pair]
    simp [Nat.ofDigits]

/-! ### One message of audio -/

/-- As many bytes as there are: they leave the carry first, and then the message. -/
lemma takeBytes_eq (k : ℕ) (carry data : List UInt8) (hle : k ≤ (carry ++ data).length) :
    ∃ carry' data', takeBytes k carry data = some ((carry ++ data).take k, carry', data') ∧
      carry' ++ data' = (carry ++ data).drop k := by
  induction k generalizing carry data with
  | zero => exact ⟨carry, data, rfl, rfl⟩
  | succ k ih =>
    cases carry with
    | cons c carry =>
      obtain ⟨carry', data', htake, happ⟩ := ih carry data (by simpa using hle)
      exact ⟨carry', data', by rw [takeBytes, htake]; rfl, happ⟩
    | nil =>
      cases data with
      | cons d data =>
        obtain ⟨carry', data', htake, happ⟩ := ih [] data (by simpa using hle)
        exact ⟨carry', data', by rw [takeBytes, htake]; rfl, happ⟩
      | nil => simp at hle

/-- The loop decodes the complete samples of the carry and the message, and leaves the rest. -/
lemma takeSamples_eq (f32 : Bool) {bps : ℕ} (hbps : 0 < bps) (n : ℕ) (carry data : List UInt8)
    (hn : (carry ++ data).length / bps = n) :
    ∃ carry' data', takeSamples h f32 bps n carry data =
        some ((pieces bps (carry ++ data)).map (sampleOf h f32), carry', data') ∧
      carry' ++ data' = leftover bps (carry ++ data) := by
  induction n generalizing carry data with
  | zero =>
    have hlt := (Nat.div_eq_zero_iff_lt hbps).mp hn
    rw [pieces_short hlt, leftover_short hlt]
    exact ⟨carry, data, rfl, rfl⟩
  | succ n ih =>
    have hle : bps ≤ (carry ++ data).length :=
      Nat.le_of_not_lt fun hlt => by rw [Nat.div_eq_of_lt hlt] at hn; cases hn
    obtain ⟨carry₁, data₁, htake, happ⟩ := takeBytes_eq bps carry data hle
    have hdiv : (carry₁ ++ data₁).length / bps = n := by
      rw [happ, List.length_drop]
      rw [Nat.div_eq_sub_div hbps hle] at hn
      omega
    obtain ⟨carry', data', hloop, hrest⟩ := ih carry₁ data₁ hdiv
    refine ⟨carry', data', ?_, ?_⟩
    · rw [takeSamples, htake, Option.bind_some, hloop, Option.map_some, happ,
        pieces_eq_cons hbps hle, List.map_cons]
    · rw [hrest, happ, ← leftover_drop hbps hle]

/-- The session has been given the complete samples of these bytes, and the carry holds the rest;
before a session there are none. -/
structure Holds (w : State σ) (bytes : List UInt8) : Prop where
  carry : w.carry = leftover w.bps bytes
  pushed : w.pushed.flatten = samples h w.f32 bytes
  closed : w.es = false → bytes = []

lemma Holds.fresh : Holds h .fresh [] where
  carry := (leftover_short (k := 2) (s := []) Nat.two_pos).symm
  pushed := by rw [samples, pieces_short (by split <;> exact Nat.succ_pos _)]; rfl
  closed _ := rfl

variable {h}

lemma Holds.carry_lt {w : State σ} {bytes : List UInt8} (hw : Holds h w bytes) :
    w.carry.length < w.bps := hw.carry ▸ length_leftover w.bps_pos bytes

/-- What does not touch the audio keeps it. -/
lemma Holds.congr {w w' : State σ} {bytes : List UInt8} (hw : Holds h w bytes)
    (hes : w'.es = w.es) (hf32 : w'.f32 = w.f32) (hcarry : w'.carry = w.carry)
    (hpushed : w'.pushed = w.pushed) : Holds h w' bytes where
  carry := by rw [hcarry, hw.carry, State.bps, State.bps, hf32]
  pushed := by rw [hpushed, hf32, hw.pushed]
  closed hclosed := hw.closed (hes ▸ hclosed)

lemma Holds.fail {w : State σ} {bytes : List UInt8} (hw : Holds h w bytes) (s : Status)
    (code : ℕ) : Holds h (wsFail w s code) bytes := hw.congr rfl rfl rfl rfl

/-- The state with the samples of a message in it, before the session answers. -/
def taken (h : Host δ σ) (w : State σ) (data : List UInt8) : State σ :=
  let n := (w.carry.length + data.length) / w.bps
  { w with
    pcmCap := max w.pcmCap n
    carry := leftover w.bps (w.carry ++ data)
    samples := w.samples + n
    pushed := w.pushed ++ [samples h w.f32 (w.carry ++ data)] }

/-- Samples that find room: nothing is read behind the message or written behind the carry. -/
lemma wsPcm_eq (w : State σ) (data : List UInt8) (a : Answer) (hes : w.es = true)
    (hroom : ¬ (w.pcmCap < (w.carry.length + data.length) / w.bps ∧ a.room = false)) :
    wsPcm h w data a = some (pushTo (taken h w data) a) := by
  obtain ⟨carry', data', hloop, hrest⟩ := takeSamples_eq h w.f32 w.bps_pos _ w.carry data rfl
  have hpcm : (pieces w.bps (w.carry ++ data)).map (sampleOf h w.f32) =
      samples h w.f32 (w.carry ++ data) :=
    List.map_congr_left fun b hb => sampleOf_eq h (length_of_mem_pieces hb)
  have hfits : ¬ 4 < carry'.length + data'.length := by
    rw [← List.length_append, hrest, not_lt]
    exact (length_leftover w.bps_pos _).le.trans w.bps_le
  rw [wsPcm, if_neg (by rw [hes]; exact Bool.noConfusion)]
  dsimp only
  rw [if_neg hroom, ← List.length_append, hloop]
  dsimp only
  rw [if_neg hfits, taken, List.length_append, hrest, hpcm]

lemma Holds.taken {w : State σ} {bytes : List UInt8} (hw : Holds h w bytes) (hes : w.es = true)
    (data : List UInt8) : Holds h (taken h w data) (bytes ++ data) where
  carry := by
    change leftover w.bps (w.carry ++ data) = leftover w.bps (bytes ++ data)
    rw [leftover_append w.bps_pos bytes, hw.carry]
  pushed := by
    change (w.pushed ++ [samples h w.f32 (w.carry ++ data)]).flatten = samples h w.f32 _
    rw [List.flatten_append, List.flatten_singleton, hw.pushed, hw.carry]
    simp only [samples]
    rw [← State.bps, pieces_append w.bps_pos bytes, List.map_append]
  closed hclosed := by
    change w.es = false at hclosed
    rw [hes] at hclosed
    cases hclosed

lemma Holds.pushTo {w : State σ} {bytes : List UInt8} (hw : Holds h w bytes) (a : Answer) :
    Holds h (pushTo w a) bytes := by
  rw [WsPcm.pushTo]
  split
  · exact hw
  · exact hw.congr rfl rfl rfl rfl
  · exact hw.fail _ _

/-- A message has been taken, with the audio it brings, or nothing of it and no message is taken
any more. -/
def Takes (h : Host δ σ) (w' : State σ) (bytes audio : List UInt8) : Prop :=
  Holds h w' (bytes ++ audio) ∨ w'.done = true ∧ Holds h w' bytes

lemma wsPcm_takes {w : State σ} {bytes : List UInt8} (hw : Holds h w bytes) (data : List UInt8)
    (a : Answer) : ∃ w', wsPcm h w data a = some w' ∧ Takes h w' bytes data := by
  cases hes : w.es with
  | false =>
    refine ⟨_, ?_, .inr ⟨rfl, hw.fail .invalidArg 1008⟩⟩
    rw [wsPcm, if_pos hes]
  | true =>
    by_cases hroom : w.pcmCap < (w.carry.length + data.length) / w.bps ∧ a.room = false
    · refine ⟨_, ?_, .inr ⟨rfl, hw.fail .outOfMemory 1011⟩⟩
      rw [wsPcm, if_neg (by rw [hes]; exact Bool.noConfusion)]
      exact if_pos hroom
    · exact ⟨_, wsPcm_eq w data a hes hroom, .inl ((hw.taken hes data).pushTo a)⟩

/-! ### The other messages -/

lemma wsStart_holds {w : State σ} {bytes : List UInt8} (hw : Holds h w bytes) (msg : Json δ)
    (a : Answer) : Holds h (wsStart h w msg a) bytes := by
  rw [wsStart]
  split_ifs with hes
  · exact hw.fail _ _
  · exact hw.fail _ _
  obtain rfl : bytes = [] := hw.closed (by simpa using hes)
  have hcarry : w.carry = [] := by rw [hw.carry, leftover_short w.bps_pos]
  have hpushed : w.pushed.flatten = [] := by
    rw [hw.pushed, samples, pieces_short (by split <;> exact Nat.succ_pos _)]
    rfl
  -- no byte has come yet, so the format is free
  have hopen : ∀ f32 es, Holds h { w with f32 := f32, es := es } [] := fun f32 es =>
    { carry := by
        rw [leftover_short (State.bps_pos _)]
        exact hcarry
      pushed := by
        rw [samples, pieces_short (by split <;> exact Nat.succ_pos _)]
        exact hpushed
      closed := fun _ => rfl }
  cases formatOf msg with
  | none => exact hw.fail _ _
  | some f32 =>
    dsimp only
    cases a.status with
    | ok _ => exact hopen f32 true
    | error s => exact (hopen f32 w.es).fail _ _

lemma wsText_holds {w : State σ} {bytes : List UInt8} (hw : Holds h w bytes) (data : List UInt8)
    (a : Answer) : Holds h (wsText h w data a) bytes := by
  rw [wsText]
  cases h.parse data with
  | none => exact hw.fail _ _
  | some msg =>
    dsimp only
    cases jsonStr msg (literal "type") with
    | none => exact hw.fail _ _
    | some type =>
      dsimp only
      split_ifs
      · exact wsStart_holds hw msg a
      · rw [wsFinish]
        split_ifs
        · exact hw.fail _ _
        · split
          · exact hw.congr rfl rfl rfl rfl
          · exact hw.congr rfl rfl rfl rfl
          · exact hw.fail _ _
      · exact hw.fail _ _

/-- The audio a message brings. -/
def audioOf (m : Ws.Event) : List UInt8 := if m.opcode = opBinary then m.data else []

/-- One message. -/
theorem wsMessage_takes {w : State σ} {bytes : List UInt8} (hw : Holds h w bytes) (m : Ws.Event)
    (a : Answer) : ∃ w', wsMessage h w m a = some w' ∧ Takes h w' bytes (audioOf m) := by
  rw [wsMessage]
  by_cases hdone : w.done = true
  · exact ⟨w, if_pos hdone, .inr ⟨hdone, hw⟩⟩
  rw [if_neg hdone]
  by_cases hbinary : m.opcode = opBinary
  · rw [if_neg (by rw [hbinary]; decide), if_neg (by rw [hbinary]; decide),
      if_neg (by rw [hbinary]; decide), if_pos hbinary, audioOf, if_pos hbinary]
    exact wsPcm_takes hw m.data a
  · have hnone : bytes ++ audioOf m = bytes := by rw [audioOf, if_neg hbinary, List.append_nil]
    have hkeeps : ∀ w', Holds h w' bytes → Takes h w' bytes (audioOf m) := fun w' hw' =>
      .inl (hnone.symm ▸ hw')
    rw [if_neg hbinary]
    split_ifs
    · exact ⟨_, rfl, hkeeps _ hw⟩
    · exact ⟨_, rfl, hkeeps _ hw⟩
    · exact ⟨_, rfl, hkeeps _ (hw.congr rfl rfl rfl rfl)⟩
    · exact ⟨_, rfl, hkeeps _ (wsText_holds hw m.data a)⟩

/-! ### A connection -/

/-- The audio of some messages. -/
def audio (ms : List (Ws.Event × Answer)) : List UInt8 := ms.flatMap fun m => audioOf m.1

/-- Once it is done, a connection takes no message. -/
lemma run_done {w : State σ} (hdone : w.done = true) (ms : List (Ws.Event × Answer)) :
    run h w ms = some w := by
  induction ms with
  | nil => rfl
  | cons m ms ih => rw [run, wsMessage, if_pos hdone, Option.bind_some, ih]

/-- A connection takes the messages up to one of them, the last unless it is done. -/
theorem run_holds {w : State σ} {bytes : List UInt8} (hw : Holds h w bytes)
    (ms : List (Ws.Event × Answer)) :
    ∃ w' k, run h w ms = some w' ∧ k ≤ ms.length ∧ Holds h w' (bytes ++ audio (ms.take k)) ∧
      (w'.done = false → k = ms.length) := by
  induction ms generalizing w bytes with
  | nil => exact ⟨w, 0, rfl, le_rfl, by simpa [audio] using hw, fun _ => rfl⟩
  | cons m ms ih =>
    obtain ⟨w₁, hstep, htakes⟩ := wsMessage_takes hw m.1 m.2
    rw [run, hstep, Option.bind_some]
    rcases htakes with hnext | ⟨hdone, hkept⟩
    · obtain ⟨w', k, hrun, hk, hholds, hall⟩ := ih hnext
      refine ⟨w', k + 1, hrun, Nat.succ_le_succ hk, ?_, fun hd => ?_⟩
      · rw [List.append_assoc] at hholds
        exact hholds
      · rw [hall hd, List.length_cons]
    · refine ⟨w₁, 0, run_done hdone ms, Nat.zero_le _, by simpa [audio] using hkept, fun hd => ?_⟩
      rw [hdone] at hd
      cases hd

/-- A message behind which the connection goes on: a control frame, or audio that finds room and
that the session takes. -/
def Undisturbed (m : Ws.Event × Answer) : Prop :=
  m.1.opcode = opPing ∨ m.1.opcode = opPong ∨
    m.1.opcode = opBinary ∧ m.2.room = true ∧ m.2.status = .ok ()

lemma wsMessage_undisturbed {w w' : State σ} (hes : w.es = true) (hdone : w.done = false)
    {m : Ws.Event × Answer} (hm : Undisturbed m) (hstep : wsMessage h w m.1 m.2 = some w') :
    w'.es = true ∧ w'.done = false ∧ w'.f32 = w.f32 := by
  rw [wsMessage, if_neg (by rw [hdone]; exact Bool.noConfusion)] at hstep
  rcases hm with hop | hop | ⟨hop, hroom, hok⟩
  · rw [if_pos hop] at hstep
    obtain rfl := Option.some.inj hstep
    exact ⟨hes, hdone, rfl⟩
  · rw [hop, if_neg (by decide), if_pos rfl] at hstep
    obtain rfl := Option.some.inj hstep
    exact ⟨hes, hdone, rfl⟩
  · rw [hop, if_neg (by decide), if_neg (by decide), if_neg (by decide), if_pos rfl,
      wsPcm_eq w m.1.data m.2 hes (by simp [hroom]), pushTo, hok] at hstep
    obtain rfl := Option.some.inj hstep
    exact ⟨hes, hdone, rfl⟩

lemma run_undisturbed {w w' : State σ} (hes : w.es = true) (hdone : w.done = false)
    {ms : List (Ws.Event × Answer)} (hms : ∀ m ∈ ms, Undisturbed m)
    (hrun : run h w ms = some w') : w'.done = false ∧ w'.f32 = w.f32 := by
  induction ms generalizing w with
  | nil =>
    obtain rfl := Option.some.inj hrun
    exact ⟨hdone, rfl⟩
  | cons m ms ih =>
    obtain ⟨hm, hms⟩ := List.forall_mem_cons.mp hms
    obtain ⟨w₁, hstep, hrest⟩ := Option.bind_eq_some_iff.mp hrun
    obtain ⟨hes₁, hdone₁, hf32⟩ := wsMessage_undisturbed hes hdone hm hstep
    obtain ⟨hdone', hf32'⟩ := ih hes₁ hdone₁ hms hrest
    exact ⟨hdone', hf32'.trans hf32⟩

/-- A message that opens a session with a format. -/
def Opens (h : Host δ σ) (f32 : Bool) (m : Ws.Event × Answer) : Prop :=
  ∃ w, wsMessage h .fresh m.1 m.2 = some w ∧ w.es = true ∧ w.done = false ∧ w.f32 = f32

/-- It brings no audio. -/
lemma Opens.audioOf_eq_nil {f32 : Bool} {m : Ws.Event × Answer} (hm : Opens h f32 m) :
    audioOf m.1 = [] := by
  obtain ⟨w, hstep, hes, -⟩ := hm
  refine if_neg fun hbinary => ?_
  have hfail : wsMessage h .fresh m.1 m.2 = some (wsFail .fresh .invalidArg 1008) := by
    rw [wsMessage, hbinary]
    rfl
  obtain rfl := Option.some.inj (hfail.symm.trans hstep)
  cases hes

/-- However audio is cut into messages, the session is given its complete samples and the carry
holds less than one sample: up to the last message the connection takes, which is the last of all
unless it is done, and to the very last when every answer is good. -/
theorem pcm_reassembled (h : Host δ σ) :
    (∀ ms, ∃ w k, run h .fresh ms = some w ∧ k ≤ ms.length ∧
      w.pushed.flatten = samples h w.f32 (audio (ms.take k)) ∧
      w.carry = leftover w.bps (audio (ms.take k)) ∧ w.carry.length < w.bps ∧
      (w.done = false → k = ms.length)) ∧
    ∀ f32 hello ms, Opens h f32 hello → (∀ m ∈ ms, Undisturbed m) →
      ∃ w, run h .fresh (hello :: ms) = some w ∧ w.f32 = f32 ∧
        w.pushed.flatten = samples h f32 (audio ms) ∧ w.carry.length < w.bps := by
  constructor
  · intro ms
    obtain ⟨w, k, hrun, hk, hholds, hall⟩ := run_holds (Holds.fresh h) ms
    rw [List.nil_append] at hholds
    exact ⟨w, k, hrun, hk, hholds.pushed, hholds.carry, hholds.carry_lt, hall⟩
  · intro f32 hello ms hopens hms
    have hsilent := hopens.audioOf_eq_nil
    obtain ⟨w₀, hstep, hes, hdone, hf32⟩ := hopens
    obtain ⟨w, k, hrun, -, hholds, hall⟩ := run_holds (Holds.fresh h) (hello :: ms)
    have hrest : run h w₀ ms = some w := by
      rw [run, hstep, Option.bind_some] at hrun
      exact hrun
    obtain ⟨hopen, hformat⟩ := run_undisturbed hes hdone hms hrest
    have hbytes : audio ((hello :: ms).take k) = audio ms := by
      rw [hall hopen, List.take_length]
      change audioOf hello.1 ++ audio ms = audio ms
      rw [hsilent, List.nil_append]
    rw [List.nil_append, hbytes] at hholds
    rw [hf32] at hformat
    exact ⟨w, hrun, hformat, hformat ▸ hholds.pushed, hholds.carry_lt⟩

/-- A host that reads every text as the start of a session. -/
def plainHost : Host Unit ℚ where
  parse _ := some (.object [(literal "type", .string (literal "session.start"))])
  inRange _ := true
  float b := b.toNat

/-- Three bytes in two messages: one sample, and a byte left over. -/
theorem pcm_reassembled_cut :
    ∃ w, run plainHost .fresh [(⟨0x1, []⟩, ⟨true, .ok ()⟩), (⟨0x2, [0x34]⟩, ⟨true, .ok ()⟩),
        (⟨0x2, [0x12, 0xFF]⟩, ⟨true, .ok ()⟩)] = some w ∧ w.f32 = false ∧
      w.pushed.flatten = samples plainHost false [0x34, 0x12, 0xFF] ∧
      w.carry.length < w.bps := by
  refine (pcm_reassembled plainHost).2 false _ _
    ⟨_, rfl, by decide +kernel, by decide +kernel, by decide +kernel⟩ ?_
  simp [Undisturbed, opBinary]

end VibeVoice.WsPcm
