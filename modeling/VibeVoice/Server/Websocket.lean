import VibeVoice.Lib.Incremental
import VibeVoice.Status

/-!
The frame parser of `ws.c` (`vv_ws_parser_feed`) and the frame headers it answers
(`vv_ws_frame_header`).

The parser appends what it is fed to `input` and runs one pass of its loop for each whole frame in
front: a pass that breaks is `Move.wait`, one that returns through `fail` is `Move.stop`, one
that reaches the end of the loop body is `Move.take`.  Callbacks are kept as a list.  Buffer sizes
are below `2 ^ 63`, so the sums of the checks are taken in `ℕ`, and `grow` is taken to succeed.

* `readHead_append`: a header that is read, or refused, stays so when more bytes follow.
* `frames`: the passes are a decoder in the sense of `Lib.Incremental`.
* `Parser.Sound`, `Parser.Sound.feedAll`: how much a parser holds.
-/

namespace VibeVoice

open Incremental

namespace Ws

/-! ### Constants -/

/-- `VV_WS_OP_CONT`. -/
def opCont : ℕ := 0x0

/-- `VV_WS_CLOSE_PROTOCOL`. -/
def closeProtocol : ℕ := 1002

/-- `VV_WS_CLOSE_TOO_BIG`. -/
def closeTooBig : ℕ := 1009

/-! ### Frame headers -/

/-- `vv_ws_frame_header`. -/
def frameHeader (opcode : ℕ) (fin : Bool) (len : ℕ) : List UInt8 :=
  let first := (if fin then 0x80 else 0) ||| UInt8.ofNat (opcode &&& 0x0F)
  if len < 126 then
    [first, UInt8.ofNat len]
  else if len ≤ 0xFFFF then
    [first, 126, UInt8.ofNat (len >>> 8), UInt8.ofNat len]
  else
    first :: 127 :: (List.range 8).map fun i => UInt8.ofNat (len >>> (56 - 8 * i))

/-! ### The parser -/

/-- The fields of `vv_ws_parser_t` that a frame is read against: `msg` holds the fragments of
the message in progress. -/
structure Assembly where
  maxMessage : ℕ
  requireMask : Bool
  msg : List UInt8
  msgOpcode : ℕ
  deriving DecidableEq, Repr

/-- `vv_ws_parser_t`: `input` is what `in` holds. -/
structure Parser extends Assembly where
  input : List UInt8
  closeCode : ℕ
  failed : Bool
  deriving DecidableEq, Repr

/-- One call of the message callback: an opcode and the bytes. -/
structure Event where
  opcode : ℕ
  data : List UInt8
  deriving DecidableEq, Repr

/-- `vv_ws_parser_init`. -/
def parserInit (maxMessage : ℕ) : Parser where
  maxMessage := if maxMessage ≠ 0 then maxMessage else 16 <<< 20
  requireMask := true
  input := []
  msg := []
  msgOpcode := 0
  closeCode := 0
  failed := false

/-- What the header of a frame says: its first bits, the length of its payload and its own
length, the mask's key included. -/
structure Head where
  fin : Bool
  op : ℕ
  masked : Bool
  len : ℕ
  hl : ℕ
  deriving DecidableEq, Repr

/-- The outcome of reading a header, or a part of one. -/
inductive Reading (β : Type)
  | wait
  | refuse (code : ℕ)
  | found (b : β)
  deriving DecidableEq, Repr

/-- Goes on with what has been read. -/
def Reading.bind {β γ : Type} : Reading β → (β → Reading γ) → Reading γ
  | .wait, _ => .wait
  | .refuse code, _ => .refuse code
  | .found b, k => k b

/-- A big-endian number, as the loop over `f[2 + i]` reads it. -/
def bigEndian (bytes : List UInt8) : ℕ :=
  bytes.foldl (fun len b => len <<< 8 ||| b.toNat) 0

/-- The `n` length bytes behind the first two. -/
def extended (n : ℕ) (f : List UInt8) : ℕ :=
  bigEndian ((f.drop 2).take n)

/-- The length of a payload and of the header up to it, from the seven bits of the second byte
and what follows it. -/
def lengthField (len : ℕ) (f : List UInt8) : Reading (ℕ × ℕ) :=
  if len = 126 then
    if f.length < 4 then .wait
    else .found (extended 2 f, 4)
  else if len = 127 then
    if f.length < 10 then .wait
    else if extended 8 f >>> 63 ≠ 0 then .refuse closeProtocol
    else .found (extended 8 f, 10)
  else .found (len, 2)

/-- The bounds on a frame of known length, checked before its payload is there. -/
def boundFrame (p : Assembly) (fin : Bool) (op : ℕ) (masked : Bool) : ℕ × ℕ → Reading Head
  | (len, hl) =>
    if p.maxMessage < len then .refuse closeTooBig
    else if ¬8 ≤ op ∧ op = opCont ∧ p.maxMessage < p.msg.length + len then
      .refuse closeTooBig
    else .found ⟨fin, op, masked, len, bif masked then hl + 4 else hl⟩

/-- The header at the front of `f`, with every check made before its payload is there. -/
def readHead (p : Assembly) : List UInt8 → Reading Head
  | f₀ :: f₁ :: rest =>
    let fin := f₀ &&& 0x80 != 0
    let rsv := f₀ &&& 0x70
    let op := (f₀ &&& 0x0F).toNat
    let masked := f₁ &&& 0x80 != 0
    let len := (f₁ &&& 0x7F).toNat
    let control := 8 ≤ op
    if rsv ≠ 0 then .refuse closeProtocol
    else if ¬(op ≤ 2 ∨ 8 ≤ op ∧ op ≤ 10) then .refuse closeProtocol
    else if p.requireMask ∧ !masked then .refuse closeProtocol
    else if control ∧ (!fin ∨ 125 < len) then .refuse closeProtocol
    else (lengthField len (f₀ :: f₁ :: rest)).bind (boundFrame p fin op masked)
  | _ => .wait

/-- `payload[i] ^= key[i & 3]`. -/
def unmask (key payload : List UInt8) : List UInt8 :=
  payload.mapIdx fun i b => b ^^^ key.getD (i &&& 3) 0

/-- What a whole frame of `n` bytes does: a callback, a fragment kept, or a refusal. -/
def deliver (p : Assembly) (n : ℕ) (fin : Bool) (op : ℕ) (payload : List UInt8) :
    Move Assembly ℕ Event :=
  if 8 ≤ op then .take n [⟨op, payload⟩] p
  else if op = opCont then
    if p.msgOpcode = 0 then .stop closeProtocol
    else if fin then
      .take n [⟨p.msgOpcode, p.msg ++ payload⟩] { p with msg := [], msgOpcode := 0 }
    else .take n [] { p with msg := p.msg ++ payload }
  else if p.msgOpcode ≠ 0 then .stop closeProtocol
  else if fin then .take n [⟨op, payload⟩] p
  else .take n [] { p with msg := payload, msgOpcode := op }

/-- The payload behind a header, unmasked. -/
def payloadOf (h : Head) (f : List UInt8) : List UInt8 :=
  let payload := (f.drop h.hl).take h.len
  if h.masked then unmask ((f.drop (h.hl - 4)).take 4) payload else payload

/-- One pass of the loop of `vv_ws_parser_feed`, over the unparsed bytes. -/
def framePass (p : Assembly) (f : List UInt8) : Move Assembly ℕ Event :=
  match readHead p f with
  | .wait => .wait
  | .refuse code => .stop code
  | .found h =>
    if f.length < h.hl + h.len then .wait
    else deliver p (h.hl + h.len) h.fin h.op (payloadOf h f)

/-! ### Passes are stable -/

/-- Bytes that are there stay the same when more follow. -/
lemma slice_append {n m : ℕ} {f : List UInt8} (h : n + m ≤ f.length) (g : List UInt8) :
    ((f ++ g).drop n).take m = (f.drop n).take m := by
  rw [List.drop_append_of_le_length (by omega), List.take_append_of_le_length]
  rw [List.length_drop]
  omega

lemma extended_append {n : ℕ} {f : List UInt8} (h : 2 + n ≤ f.length) (g : List UInt8) :
    extended n (f ++ g) = extended n f := by
  rw [extended, slice_append h, extended]

lemma lengthField_append {len : ℕ} {f : List UInt8} (h : lengthField len f ≠ .wait)
    (g : List UInt8) : lengthField len (f ++ g) = lengthField len f := by
  have hlen : (f ++ g).length = f.length + g.length := List.length_append
  unfold lengthField at h ⊢
  by_cases h126 : len = 126
  · rw [if_pos h126] at h
    have h4 : ¬f.length < 4 := fun h4 => h (if_pos h4)
    rw [if_pos h126, if_pos h126, if_neg h4, if_neg (by omega), extended_append (by omega)]
  · rw [if_neg h126] at h
    rw [if_neg h126, if_neg h126]
    by_cases h127 : len = 127
    · rw [if_pos h127] at h
      have h10 : ¬f.length < 10 := fun h10 => h (if_pos h10)
      rw [if_pos h127, if_pos h127, if_neg h10, if_neg (by omega), extended_append (by omega)]
    · rw [if_neg h127, if_neg h127]

lemma boundFrame_ne_wait (p : Assembly) (fin : Bool) (op : ℕ) (masked : Bool) (x : ℕ × ℕ) :
    boundFrame p fin op masked x ≠ .wait := by
  obtain ⟨len, hl⟩ := x
  rw [boundFrame]
  split_ifs <;> simp

lemma Reading.bind_eq_wait {β γ : Type} {r : Reading β} {k : β → Reading γ}
    (hk : ∀ b, k b ≠ .wait) : r.bind k = .wait ↔ r = .wait := by
  cases r with
  | wait => exact iff_of_true rfl rfl
  | refuse code => simp [Reading.bind]
  | found b => simpa [Reading.bind] using hk b

/-- A header that is read, or refused, stays so when more bytes follow. -/
lemma readHead_append {p : Assembly} {f : List UInt8} (h : readHead p f ≠ .wait)
    (g : List UInt8) : readHead p (f ++ g) = readHead p f := by
  match f with
  | [] => exact absurd rfl h
  | [_] => exact absurd rfl h
  | f₀ :: f₁ :: rest =>
    simp only [readHead, List.cons_append] at h ⊢
    split_ifs at h ⊢ with hrsv hop hmask hctl <;> try rfl
    rw [ne_eq, Reading.bind_eq_wait (boundFrame_ne_wait p _ _ _)] at h
    have happ := lengthField_append h g
    rw [← List.cons_append, ← List.cons_append, happ]

/-- The lengths a header can state. -/
lemma lengthField_found {len₀ len hl : ℕ} {f : List UInt8} (hf : 2 ≤ f.length)
    (h : lengthField len₀ f = .found (len, hl)) : 2 ≤ hl ∧ hl ≤ 10 ∧ hl ≤ f.length := by
  unfold lengthField at h
  split_ifs at h with h126 h4 h127 h10 h63 <;> cases h
  · omega
  · omega
  · exact ⟨le_rfl, by omega, hf⟩

/-- What a header that is found has been checked for. -/
structure Head.Checked (p : Assembly) (h : Head) : Prop where
  two_le : 2 ≤ h.hl
  hl_le : h.hl ≤ 14
  key : h.masked = true → 6 ≤ h.hl
  len_le : h.len ≤ p.maxMessage
  cont : h.op = opCont → p.msg.length + h.len ≤ p.maxMessage

lemma readHead_found {p : Assembly} {f : List UInt8} {h : Head} (hf : readHead p f = .found h) :
    h.Checked p := by
  match f, hf with
  | f₀ :: f₁ :: rest, hf =>
    simp only [readHead] at hf
    split_ifs at hf with hrsv hop hmask hctl
    cases hlen : lengthField (f₁ &&& 0x7F).toNat (f₀ :: f₁ :: rest) with
    | wait => rw [hlen] at hf; cases hf
    | refuse code => rw [hlen] at hf; cases hf
    | found b =>
      obtain ⟨len, hl⟩ := b
      obtain ⟨h2, h10, -⟩ := lengthField_found (by simp) hlen
      rw [hlen, Reading.bind, boundFrame] at hf
      split_ifs at hf with hbig hsum
      cases hf
      refine ⟨?_, ?_, ?_, not_lt.mp hbig, fun hcont => ?_⟩
      · dsimp only
        cases f₁ &&& 0x80 != 0 <;> simp only [cond_true, cond_false] <;> omega
      · dsimp only
        cases f₁ &&& 0x80 != 0 <;> simp only [cond_true, cond_false] <;> omega
      · intro hm
        dsimp only at hm ⊢
        rw [hm, cond_true]
        omega
      · refine not_lt.mp fun hlt => hsum ⟨?_, hcont, hlt⟩
        have h0 : (f₀ &&& 0x0F).toNat = 0 := hcont
        omega

/-- A header that is not there yet fits in ten bytes. -/
lemma length_of_readHead_wait {p : Assembly} {f : List UInt8} (h : readHead p f = .wait) :
    f.length < 10 := by
  match f with
  | [] => simp
  | [_] => simp
  | f₀ :: f₁ :: rest =>
    simp only [readHead] at h
    split_ifs at h with hrsv hop hmask hctl
    rw [Reading.bind_eq_wait (boundFrame_ne_wait p _ _ _), lengthField] at h
    split_ifs at h <;> omega

lemma payloadOf_append {p : Assembly} {h : Head} {f : List UInt8} (hc : h.Checked p)
    (hle : h.hl + h.len ≤ f.length) (g : List UInt8) :
    payloadOf h (f ++ g) = payloadOf h f := by
  unfold payloadOf
  rw [slice_append hle]
  cases hm : h.masked with
  | false => rfl
  | true =>
    have h6 := hc.key hm
    rw [slice_append (by omega)]

/-- A pass that does something does the same when more bytes follow. -/
lemma framePass_append {p : Assembly} {f : List UInt8} (h : framePass p f ≠ .wait)
    (g : List UInt8) : framePass p (f ++ g) = framePass p f := by
  have hne : readHead p f ≠ .wait := fun hw => h (by rw [framePass, hw])
  rw [framePass, framePass, readHead_append hne]
  cases hr : readHead p f with
  | wait => exact absurd hr hne
  | refuse code => rfl
  | found b =>
    have hle : ¬f.length < b.hl + b.len := by
      intro hlt
      rw [framePass, hr] at h
      exact h (if_pos hlt)
    dsimp only
    rw [if_neg hle, if_neg (by rw [List.length_append]; omega),
      payloadOf_append (readHead_found hr) (not_lt.mp hle)]

/-- What a pass that takes a frame has found. -/
lemma framePass_take {p p' : Assembly} {f : List UInt8} {n : ℕ} {out : List Event}
    (h : framePass p f = .take n out p') :
    ∃ b : Head, b.Checked p ∧ b.hl + b.len ≤ f.length ∧
      deliver p (b.hl + b.len) b.fin b.op (payloadOf b f) = .take n out p' := by
  rw [framePass] at h
  cases hr : readHead p f with
  | wait => rw [hr] at h; cases h
  | refuse code => rw [hr] at h; cases h
  | found b =>
    rw [hr] at h
    dsimp only at h
    split_ifs at h with hlt
    exact ⟨b, readHead_found hr, not_lt.mp hlt, h⟩

/-- Delivering a frame takes the bytes of the frame. -/
lemma deliver_take {p p' : Assembly} {n m op : ℕ} {fin : Bool} {payload : List UInt8}
    {out : List Event} (h : deliver p n fin op payload = .take m out p') : m = n := by
  unfold deliver at h
  split_ifs at h <;> cases h <;> rfl

/-- A fragment of an open message is kept, or completes it. -/
lemma deliver_cont {p : Assembly} (hopen : p.msgOpcode ≠ 0) (n : ℕ) (fin : Bool)
    (payload : List UInt8) :
    deliver p n fin opCont payload =
      if fin then .take n [⟨p.msgOpcode, p.msg ++ payload⟩] { p with msg := [], msgOpcode := 0 }
      else .take n [] { p with msg := p.msg ++ payload } := by
  rw [deliver, if_neg (by simp [opCont]), if_pos rfl, if_neg hopen]

/-- A data frame between messages is a whole message, or opens one. -/
lemma deliver_data {p : Assembly} {op : ℕ} (hdata : ¬8 ≤ op) (hop : op ≠ opCont)
    (hidle : p.msgOpcode = 0) (n : ℕ) (fin : Bool) (payload : List UInt8) :
    deliver p n fin op payload =
      if fin then .take n [⟨op, payload⟩] p
      else .take n [] { p with msg := payload, msgOpcode := op } := by
  rw [deliver, if_neg hdata, if_neg hop, if_neg (not_not.mpr hidle)]

/-- The passes of `vv_ws_parser_feed` as a decoder. -/
def frames : Decoder UInt8 Assembly ℕ Event where
  move := framePass
  move_nil _ := rfl
  take_pos h := by
    obtain ⟨b, hc, -, hd⟩ := framePass_take h
    have h2 := hc.two_le
    rw [deliver_take hd]
    omega
  take_le h := by
    obtain ⟨b, -, hle, hd⟩ := framePass_take h
    rw [deliver_take hd]
    exact hle
  take_append h g := by rw [framePass_append (by rw [h]; simp), h]
  stop_append h g := by rw [framePass_append (by rw [h]; simp), h]

/-! ### Feeding the parser -/

/-- The status `fail` returns with a close code. -/
def failStatus (code : ℕ) : Status :=
  if code = closeTooBig then .overflow else .parse

/-- What a call of `vv_ws_parser_feed` leaves: the parser, the callbacks it made and the status
it returned. -/
structure Fed where
  parser : Parser
  events : List Event
  status : Except Status Unit

/-- `vv_ws_parser_feed`.  A feed that fails leaves its buffer as it is. -/
def parserFeed (p : Parser) (data : List UInt8) : Fed :=
  if p.failed then ⟨p, [], .error (failStatus p.closeCode)⟩
  else
    let r := frames.drain p.toAssembly (p.input ++ data)
    match r.stopped with
    | some code =>
      ⟨⟨r.state, p.input ++ data, code, true⟩, r.out, .error (failStatus code)⟩
    | none => ⟨⟨r.state, r.rest, p.closeCode, p.failed⟩, r.out, .ok ()⟩

/-- One more feed of a parser that has been fed before. -/
def Fed.feed (r : Fed) (data : List UInt8) : Fed :=
  let r' := parserFeed r.parser data
  { r' with events := r.events ++ r'.events }

/-- The pieces of a stream fed one by one: the parser at the end, every callback, and the status
of the last call. -/
def feedAll (p : Parser) (pieces : List (List UInt8)) : Fed :=
  pieces.foldl Fed.feed ⟨p, [], .ok ()⟩

/-- A parser fed by the pieces of a stream, beside the decoder of its frames. -/
structure Fed.Follows (p₀ : Parser) (r : Fed) (d : Standing UInt8 Assembly ℕ Event) : Prop where
  state : r.parser.toAssembly = d.state
  events : r.events = d.out
  running : d.stopped = none →
    r.parser.input = d.rest ∧ r.parser.failed = false ∧ r.parser.closeCode = p₀.closeCode ∧
      r.status = .ok ()
  failed : ∀ code, d.stopped = some code →
    r.parser.failed = true ∧ r.parser.closeCode = code ∧ r.status = .error (failStatus code)

lemma Fed.Follows.feed {p₀ : Parser} {r : Fed} {d : Standing UInt8 Assembly ℕ Event}
    (h : r.Follows p₀ d) (data : List UInt8) : (r.feed data).Follows p₀ (frames.feed d data) := by
  cases hd : d.stopped with
  | some code =>
    obtain ⟨hf, hc, hs⟩ := h.failed code hd
    rw [Decoder.feed_stopped hd, Fed.feed, parserFeed, if_pos hf, hc]
    refine ⟨h.state, by simp [h.events], fun hn => ?_, fun code' hc' => ?_⟩
    · rw [hd] at hn
      cases hn
    · rw [hd] at hc'
      cases hc'
      exact ⟨hf, hc, rfl⟩
  | none =>
    obtain ⟨hin, hf, hc, -⟩ := h.running hd
    rw [Decoder.feed_running hd, Fed.feed, parserFeed, if_neg (by simp [hf]), hin, h.state]
    dsimp only
    cases hr : (frames.drain d.state (d.rest ++ data)).stopped with
    | some code =>
      refine ⟨rfl, by simp [h.events], fun hn => ?_, fun code' hc' => ?_⟩
      · rw [Standing.behind_stopped, hr] at hn
        cases hn
      · rw [Standing.behind_stopped, hr] at hc'
        cases hc'
        exact ⟨rfl, rfl, rfl⟩
    | none =>
      refine ⟨rfl, by simp [h.events], fun _ => ⟨rfl, hf, hc, rfl⟩, fun code' hc' => ?_⟩
      rw [Standing.behind_stopped, hr] at hc'
      cases hc'

lemma feedAll_snoc (p : Parser) (pieces : List (List UInt8)) (piece : List UInt8) :
    feedAll p (pieces ++ [piece]) = (feedAll p pieces).feed piece := by
  rw [feedAll, List.foldl_append]
  rfl

/-- A parser set up by `vv_ws_parser_init`, with the caller's word on masks. -/
def fresh (maxMessage : ℕ) (requireMask : Bool) : Parser :=
  { parserInit maxMessage with requireMask := requireMask }

/-- Feeding a fresh parser is feeding the decoder of its frames. -/
lemma feedAll_follows (maxMessage : ℕ) (requireMask : Bool) (pieces : List (List UInt8)) :
    (feedAll (fresh maxMessage requireMask) pieces).Follows (fresh maxMessage requireMask)
      (frames.feedAll (fresh maxMessage requireMask).toAssembly pieces) := by
  induction pieces using List.reverseRecOn with
  | nil => exact ⟨rfl, rfl, fun _ => ⟨rfl, rfl, rfl, rfl⟩, fun code h => by cases h⟩
  | append_singleton pieces piece ih =>
    rw [feedAll_snoc, Decoder.feedAll_snoc]
    exact ih.feed piece

/-! ### What a parser holds -/

@[simp] lemma length_unmask (key payload : List UInt8) :
    (unmask key payload).length = payload.length := List.length_mapIdx

lemma length_payloadOf_le (h : Head) (f : List UInt8) : (payloadOf h f).length ≤ h.len := by
  unfold payloadOf
  cases h.masked <;> simp

/-- The fragments of the message in progress stay within the limit. -/
def Assembly.Bounded (limit : ℕ) (s : Assembly) : Prop :=
  s.maxMessage = limit ∧ s.msg.length ≤ limit

lemma Assembly.Bounded.pass {limit : ℕ} {s s' : Assembly} {f : List UInt8} {n : ℕ}
    {out : List Event} (hs : s.Bounded limit) (h : framePass s f = .take n out s') :
    s'.Bounded limit := by
  obtain ⟨b, hc, -, hd⟩ := framePass_take h
  obtain ⟨hmax, hmsg⟩ := hs
  have hlen := length_payloadOf_le b f
  have hle := hc.len_le
  unfold deliver at hd
  split_ifs at hd with hctl hcont hnone hfin hsome hfin <;> cases hd
  · exact ⟨hmax, hmsg⟩
  · exact ⟨hmax, Nat.zero_le _⟩
  · refine ⟨hmax, ?_⟩
    have hsum := hc.cont hcont
    rw [List.length_append]
    omega
  · exact ⟨hmax, hmsg⟩
  · exact ⟨hmax, by dsimp only; omega⟩

/-- A parser that waits holds less than one header and one payload. -/
lemma length_of_framePass_wait {p : Assembly} {f : List UInt8} (h : framePass p f = .wait) :
    f.length < 14 + p.maxMessage := by
  rw [framePass] at h
  cases hr : readHead p f with
  | wait =>
    have h10 := length_of_readHead_wait hr
    omega
  | refuse code => rw [hr] at h; cases h
  | found b =>
    rw [hr] at h
    dsimp only at h
    have hc := readHead_found hr
    have hhl := hc.hl_le
    have hlen := hc.len_le
    split_ifs at h with hlt
    · omega
    · unfold deliver at h
      split_ifs at h

/-- What a parser holds between feeds, when no feed brought more than `n` bytes. -/
structure Fed.Holds (limit n : ℕ) (r : Fed) : Prop where
  state : r.parser.Bounded limit
  running : r.parser.failed = false → r.parser.input.length < 14 + limit
  input : r.parser.input.length < 14 + limit + n

lemma Fed.Holds.feed {limit n : ℕ} {r : Fed} {data : List UInt8} (h : r.Holds limit n)
    (hdata : data.length ≤ n) : (r.feed data).Holds limit n := by
  rw [Fed.feed, parserFeed]
  by_cases hf : r.parser.failed = true
  · rw [if_pos hf]
    exact ⟨h.state, h.running, h.input⟩
  · rw [if_neg hf]
    have hin := h.running (Bool.eq_false_of_not_eq_true hf)
    have hstate : (frames.drain r.parser.toAssembly (r.parser.input ++ data)).state.Bounded
        limit := Decoder.drain_state (fun _ _ _ _ _ hs ht => hs.pass ht) h.state
    dsimp only
    cases hr : (frames.drain r.parser.toAssembly (r.parser.input ++ data)).stopped with
    | some code =>
      refine ⟨hstate, fun hfalse => Bool.noConfusion hfalse, ?_⟩
      dsimp only
      rw [List.length_append]
      omega
    | none =>
      have hw := length_of_framePass_wait (Decoder.drain_waits hr)
      rw [hstate.1] at hw
      exact ⟨hstate, fun _ => hw, Nat.lt_add_right n hw⟩

lemma feedAll_holds (maxMessage : ℕ) (requireMask : Bool) {n : ℕ} {pieces : List (List UInt8)}
    (hn : ∀ piece ∈ pieces, piece.length ≤ n) :
    (feedAll (fresh maxMessage requireMask) pieces).Holds
      (fresh maxMessage requireMask).maxMessage n := by
  induction pieces using List.reverseRecOn with
  | nil => exact ⟨⟨rfl, Nat.zero_le _⟩, fun _ => by simp [feedAll, fresh, parserInit],
      by simp [feedAll, fresh, parserInit]⟩
  | append_singleton pieces piece ih =>
    rw [feedAll_snoc]
    exact (ih fun q hq => hn q (by simp [hq])).feed (hn piece (by simp))

/-! ### Hostile input -/

/-- What a caller can tell of a parser it has fed: the callbacks, the last status, the close code
and the failed flag. -/
def Fed.face (r : Fed) : List Event × Except Status Unit × ℕ × Bool :=
  (r.events, r.status, r.parser.closeCode, r.parser.failed)

/-- A parser that has failed answers every feed with its error and calls back no more. -/
lemma Fed.feed_failed {r : Fed} (h : r.parser.failed = true) (data : List UInt8) :
    (r.feed data).events = r.events ∧ (r.feed data).parser = r.parser := by
  rw [Fed.feed, parserFeed, if_pos h]
  exact ⟨List.append_nil _, rfl⟩

lemma feedAll_failed {p : Parser} {pieces : List (List UInt8)}
    (h : (feedAll p pieces).parser.failed = true) (more : List (List UInt8)) :
    (feedAll p (pieces ++ more)).events = (feedAll p pieces).events ∧
      (feedAll p (pieces ++ more)).parser = (feedAll p pieces).parser := by
  induction more using List.reverseRecOn with
  | nil => rw [List.append_nil]; exact ⟨rfl, rfl⟩
  | append_singleton more piece ih =>
    rw [← List.append_assoc, feedAll_snoc]
    obtain ⟨hev, hp⟩ := Fed.feed_failed (ih.2 ▸ h) piece
    exact ⟨hev.trans ih.1, hp.trans ih.2⟩

/-- Every splitting of a stream shows what feeding the whole stream to the decoder shows. -/
lemma Fed.Follows.face_eq {p₀ : Parser} {r r' : Fed} {d d' : Standing UInt8 Assembly ℕ Event}
    (h : r.Follows p₀ d) (h' : r'.Follows p₀ d') (hout : d.out = d'.out)
    (hstop : d.stopped = d'.stopped) : r.face = r'.face := by
  have hev : r.events = r'.events := by rw [h.events, h'.events, hout]
  cases hd : d.stopped with
  | none =>
    obtain ⟨-, hf, hc, hs⟩ := h.running hd
    obtain ⟨-, hf', hc', hs'⟩ := h'.running (hstop.symm.trans hd)
    rw [Fed.face, Fed.face, hev, hf, hf', hc, hc', hs, hs']
  | some code =>
    obtain ⟨hf, hc, hs⟩ := h.failed code hd
    obtain ⟨hf', hc', hs'⟩ := h'.failed code (hstop.symm.trans hd)
    rw [Fed.face, Fed.face, hev, hf, hf', hc, hc', hs, hs']

/-- A feed whose first frame is refused. -/
lemma parserFeed_refused {p : Parser} {data : List UInt8} (code : ℕ) (hf : p.failed = false)
    (h : framePass p.toAssembly (p.input ++ data) = .stop code) :
    parserFeed p data =
      ⟨⟨p.toAssembly, p.input ++ data, code, true⟩, [], .error (failStatus code)⟩ := by
  have hd := Decoder.drain_stop (d := frames) h
  rw [parserFeed, if_neg (by simp [hf]), hd]

/-- **Hostile input, cut anywhere**: two splittings of a stream show the same callbacks, last
status, close code and failed flag; after a failure nothing more is called back; a parser that
has not failed holds less than a header and a payload of input and at most one message; and a
failed one at most the bytes of one feed more. -/
theorem feed_split_invisible (maxMessage : ℕ) (requireMask : Bool)
    (pieces pieces' : List (List UInt8)) (h : pieces.flatten = pieces'.flatten) :
    (feedAll (fresh maxMessage requireMask) pieces).face =
        (feedAll (fresh maxMessage requireMask) pieces').face ∧
      ((feedAll (fresh maxMessage requireMask) pieces).parser.failed = true → ∀ more,
        (feedAll (fresh maxMessage requireMask) (pieces ++ more)).events =
          (feedAll (fresh maxMessage requireMask) pieces).events) ∧
      ∀ n, (∀ piece ∈ pieces, piece.length ≤ n) →
        (feedAll (fresh maxMessage requireMask) pieces).Holds
          (fresh maxMessage requireMask).maxMessage n := by
  refine ⟨?_, fun hf more => (feedAll_failed hf more).1,
    fun n hn => feedAll_holds maxMessage requireMask hn⟩
  obtain ⟨-, hout, hstop, -⟩ :=
    Decoder.feedAll_drain (d := frames) (fresh maxMessage requireMask).toAssembly pieces
  obtain ⟨-, hout', hstop', -⟩ :=
    Decoder.feedAll_drain (d := frames) (fresh maxMessage requireMask).toAssembly pieces'
  rw [← h] at hout' hstop'
  exact (feedAll_follows maxMessage requireMask pieces).face_eq
    (feedAll_follows maxMessage requireMask pieces') (hout.trans hout'.symm)
    (hstop.trans hstop'.symm)

/-- A stream with reserved bits set, cut inside its header and whole. -/
theorem feed_split_invisible_reserved :
    (feedAll (fresh 1 true) [[0xC1], [0x80]]).face = (feedAll (fresh 1 true) [[0xC1, 0x80]]).face ∧
      (feedAll (fresh 1 true) ([[0xC1, 0x80]] ++ [[0x89]])).events =
        (feedAll (fresh 1 true) [[0xC1, 0x80]]).events ∧
      (feedAll (fresh 1 true) [[0xC1, 0x80]]).Holds (fresh 1 true).maxMessage 2 := by
  have hcut := feed_split_invisible 1 true [[0xC1], [0x80]] [[0xC1, 0x80]] rfl
  have hwhole := feed_split_invisible 1 true [[0xC1, 0x80]] [[0xC1, 0x80]] rfl
  have hfails : (feedAll (fresh 1 true) [[0xC1, 0x80]]).parser.failed = true := by
    change (Fed.feed ⟨fresh 1 true, [], .ok ()⟩ [0xC1, 0x80]).parser.failed = true
    rw [Fed.feed, parserFeed_refused closeProtocol rfl rfl]
  exact ⟨hcut.1, hwhole.2.1 hfails [[0x89]], hwhole.2.2 2 (by simp)⟩

/-- A feed that fails keeps all its bytes, so no bound from the limit alone holds for what the
parser buffers. -/
theorem failed_feed_unbounded :
    ¬∃ bound : ℕ → ℕ, ∀ maxMessage requireMask pieces,
      (feedAll (fresh maxMessage requireMask) pieces).parser.input.length ≤ bound maxMessage := by
  rintro ⟨bound, h⟩
  have hle := h 1 true [0xC1 :: 0x80 :: List.replicate (bound 1) 0]
  change (Fed.feed ⟨fresh 1 true, [], .ok ()⟩ (0xC1 :: 0x80 ::
    List.replicate (bound 1) 0)).parser.input.length ≤ bound 1 at hle
  rw [Fed.feed, parserFeed_refused closeProtocol rfl rfl] at hle
  simp [fresh, parserInit] at hle

end Ws

end VibeVoice
