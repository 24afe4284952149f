import VibeVoice.Server.Websocket

/-!
What a parser makes of the frames a peer writes.

A peer writes data messages, each in one or more fragments, with control frames between them and
between fragments.  A frame is the header of `vv_ws_frame_header` and the payload; a client sets
the mask bit, adds its key and masks the payload.

* `framePass_encode`: one pass over a frame that was written delivers it.
* `item_parses`: a message takes the parser from between messages to between messages.
* `stream_round_trip`: cut anywhere, a stream of messages is called back as it was written.
-/

namespace VibeVoice

open Incremental

namespace Ws

/-! ### Frames on the wire -/

/-- A frame as it is written; no payload is as long as `2 ^ 63` bytes. -/
structure Frame where
  fin : Bool
  op : ℕ
  key : Option (Vector UInt8 4)
  payload : List UInt8
  short : payload.length < 2 ^ 63

/-- The header with the mask bit of its second byte set. -/
def maskBit (header : List UInt8) : List UInt8 :=
  header.modify 1 (0x80 ||| ·)

/-- The bytes of a frame. -/
def Frame.encode (f : Frame) : List UInt8 :=
  match f.key with
  | none => frameHeader f.op f.fin f.payload.length ++ f.payload
  | some key =>
    maskBit (frameHeader f.op f.fin f.payload.length) ++ key.toList ++
      unmask key.toList f.payload

/-- A mask applied twice is gone. -/
lemma unmask_unmask (key payload : List UInt8) : unmask key (unmask key payload) = payload := by
  refine List.ext_getElem (by simp) fun i h h' => ?_
  simp only [unmask, List.getElem_mapIdx, UInt8.xor_assoc, UInt8.xor_self, UInt8.xor_zero]

lemma bigEndian_snoc (bytes : List UInt8) (b : UInt8) :
    bigEndian (bytes ++ [b]) = bigEndian bytes * 256 + b.toNat := by
  have hb : b.toNat < 2 ^ 8 := b.toNat_lt
  rw [bigEndian, List.foldl_append, List.foldl_cons, List.foldl_nil,
    ← Nat.shiftLeft_add_eq_or_of_lt hb, Nat.shiftLeft_eq]
  rfl

/-- The bytes of a number, highest first, read back. -/
lemma bigEndian_range (n len : ℕ) :
    bigEndian ((List.range n).map fun i => UInt8.ofNat (len >>> (8 * (n - 1) - 8 * i))) =
      len % 256 ^ n := by
  induction n generalizing len with
  | zero => simp [bigEndian, Nat.mod_one]
  | succ n ih =>
    have hfront : ((List.range n).map fun i =>
        UInt8.ofNat (len >>> (8 * (n + 1 - 1) - 8 * i))) =
        (List.range n).map fun i => UInt8.ofNat ((len >>> 8) >>> (8 * (n - 1) - 8 * i)) := by
      refine List.map_congr_left fun i hi => ?_
      have hlt := List.mem_range.mp hi
      rw [← Nat.shiftRight_add]
      congr 2
      omega
    rw [List.range_succ, List.map_append, List.map_singleton, bigEndian_snoc, hfront, ih,
      Nat.add_sub_cancel, Nat.sub_self, Nat.shiftRight_zero, Nat.shiftRight_eq_div_pow,
      UInt8.toNat_ofNat', pow_succ' 256 n, Nat.mod_mul]
    change len / 256 % 256 ^ n * 256 + len % 256 = len % 256 + 256 * (len / 256 % 256 ^ n)
    ring

/-! ### Headers read back -/

/-- The bits of the first byte. -/
lemma first_byte : ∀ (fin : Bool) (op : Fin 16),
    let b := (if fin then 0x80 else 0) ||| UInt8.ofNat ((op : ℕ) &&& 0x0F)
    (b &&& 0x80 != 0) = fin ∧ b &&& 0x70 = 0 ∧ (b &&& 0x0F).toNat = op := by
  decide

/-- The bits of the second byte, masked or not. -/
lemma second_byte : ∀ (masked : Bool) (len : Fin 128),
    let b := bif masked then 0x80 ||| UInt8.ofNat len else UInt8.ofNat len
    (b &&& 0x80 != 0) = masked ∧ (b &&& 0x7F).toNat = len := by
  decide +kernel

/-- The second byte of a header without a mask. -/
def lengthByte (len : ℕ) : ℕ :=
  if len < 126 then len else if len ≤ 0xFFFF then 126 else 127

/-- The length bytes behind the second byte. -/
def lengthBytes (len : ℕ) : List UInt8 :=
  if len < 126 then []
  else if len ≤ 0xFFFF then [UInt8.ofNat (len >>> 8), UInt8.ofNat len]
  else (List.range 8).map fun i => UInt8.ofNat (len >>> (56 - 8 * i))

lemma frameHeader_eq (op : ℕ) (fin : Bool) (len : ℕ) :
    frameHeader op fin len = ((if fin then 0x80 else 0) ||| UInt8.ofNat (op &&& 0x0F)) ::
      UInt8.ofNat (lengthByte len) :: lengthBytes len := by
  unfold frameHeader lengthByte lengthBytes
  split_ifs <;> rfl

lemma lengthByte_lt (len : ℕ) : lengthByte len < 128 := by
  unfold lengthByte
  split_ifs <;> omega

lemma lengthByte_le (len : ℕ) (h : len ≤ 125) : lengthByte len ≤ 125 := by
  rw [lengthByte, if_pos (by omega)]
  exact h

/-- The length field of a header that was written says the length, whatever follows. -/
lemma lengthField_written {len : ℕ} (hlen : len < 2 ^ 63) (b₀ b₁ : UInt8) (tail : List UInt8) :
    lengthField (lengthByte len) (b₀ :: b₁ :: (lengthBytes len ++ tail)) =
      .found (len, (lengthBytes len).length + 2) := by
  by_cases h126 : len < 126
  · rw [lengthByte, lengthBytes, if_pos h126, if_pos h126, lengthField, if_neg (by omega),
      if_neg (by omega)]
    rfl
  · by_cases h16 : len ≤ 0xFFFF
    · have hread : bigEndian [UInt8.ofNat (len >>> 8), UInt8.ofNat len] = len % 256 ^ 2 :=
        bigEndian_range 2 len
      rw [Nat.mod_eq_of_lt (by omega)] at hread
      rw [lengthByte, lengthBytes, if_neg h126, if_neg h126, if_pos h16, if_pos h16, lengthField,
        if_pos rfl, if_neg (by simp), extended]
      change Reading.found (bigEndian [UInt8.ofNat (len >>> 8), UInt8.ofNat len], 4) = _
      rw [hread]
      rfl
    · have hread := bigEndian_range 8 len
      rw [Nat.mod_eq_of_lt (by omega)] at hread
      have htake : extended 8 (b₀ :: b₁ ::
          ((List.range 8).map (fun i => UInt8.ofNat (len >>> (56 - 8 * i))) ++ tail)) = len := by
        rw [extended]
        exact hread
      rw [lengthByte, lengthBytes, if_neg h126, if_neg h126, if_neg h16, if_neg h16, lengthField,
        if_neg (by omega), if_pos rfl, if_neg (by simp), htake, if_neg]
      · rfl
      · rw [not_not, Nat.shiftRight_eq_div_pow, Nat.div_eq_of_lt hlen]

/-! ### One frame -/

/-- What the parser asks of a frame: a mask where masks are required, a known opcode, a control
frame whole and short, and a payload within the limit. -/
structure Frame.Fits (p : Assembly) (f : Frame) : Prop where
  mask : p.requireMask = true → f.key.isSome = true
  op : f.op ≤ 2 ∨ 8 ≤ f.op ∧ f.op ≤ 10
  control : 8 ≤ f.op → f.fin = true ∧ f.payload.length ≤ 125
  len : f.payload.length ≤ p.maxMessage
  cont : f.op = opCont → p.msg.length + f.payload.length ≤ p.maxMessage

/-- The head of a frame that was written. -/
def Frame.head (f : Frame) : Head where
  fin := f.fin
  op := f.op
  masked := f.key.isSome
  len := f.payload.length
  hl := bif f.key.isSome then (lengthBytes f.payload.length).length + 2 + 4
    else (lengthBytes f.payload.length).length + 2

/-- The payload as it is written. -/
def Frame.body (f : Frame) : List UInt8 :=
  match f.key with
  | none => f.payload
  | some key => key.toList ++ unmask key.toList f.payload

/-- The bytes of a frame, its two first ones in front. -/
lemma Frame.encode_eq (f : Frame) :
    f.encode = ((if f.fin then 0x80 else 0) ||| UInt8.ofNat (f.op &&& 0x0F)) ::
      (bif f.key.isSome then 0x80 ||| UInt8.ofNat (lengthByte f.payload.length)
        else UInt8.ofNat (lengthByte f.payload.length)) ::
      (lengthBytes f.payload.length ++ f.body) := by
  rw [Frame.encode, Frame.body, frameHeader_eq]
  cases f.key with
  | none => rfl
  | some key => simp [maskBit]

lemma readHead_encode {p : Assembly} {f : Frame} (hf : f.Fits p) (g : List UInt8) :
    readHead p (f.encode ++ g) = .found f.head := by
  have hop : f.op < 16 := by
    rcases hf.op with h | h <;> omega
  obtain ⟨hfin, hrsv, hop'⟩ := first_byte f.fin ⟨f.op, hop⟩
  obtain ⟨hmask, hlen⟩ := second_byte f.key.isSome ⟨_, lengthByte_lt f.payload.length⟩
  dsimp only at hfin hrsv hop' hmask hlen
  rw [Frame.encode_eq]
  simp only [List.cons_append, List.append_assoc, readHead, hfin, hrsv, hop', hmask, hlen,
    lengthField_written f.short]
  have hmask : ¬(p.requireMask = true ∧ (!f.key.isSome) = true) := by
    rintro ⟨hreq, hkey⟩
    rw [hf.mask hreq] at hkey
    cases hkey
  have hctl : ¬(8 ≤ f.op ∧ ((!f.fin) = true ∨ 125 < lengthByte f.payload.length)) := by
    rintro ⟨h8, hbad⟩
    obtain ⟨hfin', h125⟩ := hf.control h8
    have hbyte := lengthByte_le _ h125
    rw [hfin'] at hbad
    rcases hbad with hbad | hbad
    · cases hbad
    · omega
  have hsum : ¬(¬8 ≤ f.op ∧ f.op = opCont ∧ p.maxMessage < p.msg.length + f.payload.length) :=
    fun h => absurd (hf.cont h.2.1) (not_le.mpr h.2.2)
  rw [if_neg (by simp), if_neg (not_not.mpr hf.op), if_neg hmask, if_neg hctl, Reading.bind,
    boundFrame, if_neg (not_lt.mpr hf.len), if_neg hsum]
  rfl

/-- The bytes of a frame in front of its mask and payload. -/
lemma Frame.exists_header (f : Frame) : ∃ header : List UInt8,
    header.length = (lengthBytes f.payload.length).length + 2 ∧ f.encode = header ++ f.body :=
  ⟨_ :: _ :: lengthBytes f.payload.length, rfl, f.encode_eq⟩

lemma Frame.length_head (f : Frame) : f.head.hl + f.head.len = f.encode.length := by
  obtain ⟨header, hlen, henc⟩ := f.exists_header
  rw [henc, List.length_append, hlen, Frame.head, Frame.body]
  cases f.key with
  | none => rfl
  | some key =>
    simp only [Option.isSome_some, cond_true, List.length_append, Vector.length_toList,
      length_unmask]
    omega

lemma Frame.payloadOf_encode (f : Frame) (g : List UInt8) :
    payloadOf f.head (f.encode ++ g) = f.payload := by
  obtain ⟨header, hlen, henc⟩ := f.exists_header
  rw [payloadOf, henc, Frame.head, Frame.body]
  cases hkey : f.key with
  | none =>
    have hdrop : (header ++ f.payload ++ g).drop ((lengthBytes f.payload.length).length + 2) =
        f.payload ++ g := by
      rw [← hlen, List.append_assoc, List.drop_left]
    simp only [Option.isSome_none, cond_false, hdrop, List.take_left]
    rfl
  | some key =>
    have hkey4 : key.toList.length = 4 := key.length_toList
    have hdrop : (header ++ (key.toList ++ unmask key.toList f.payload) ++ g).drop
        ((lengthBytes f.payload.length).length + 2) =
        key.toList ++ (unmask key.toList f.payload ++ g) := by
      rw [← hlen, List.append_assoc, List.drop_left, List.append_assoc]
    have htake : (unmask key.toList f.payload ++ g).take f.payload.length =
        unmask key.toList f.payload := by
      rw [← length_unmask key.toList f.payload, List.take_left]
    simp only [Option.isSome_some, cond_true, Nat.add_sub_cancel, hdrop, if_true]
    rw [← List.drop_drop, hdrop, List.take_left' hkey4, List.drop_left' hkey4, htake,
      unmask_unmask]

/-- **One pass over a frame that was written delivers it**, whatever follows. -/
lemma framePass_encode {p : Assembly} {f : Frame} (hf : f.Fits p) (g : List UInt8) :
    framePass p (f.encode ++ g) = deliver p f.encode.length f.fin f.op f.payload := by
  rw [framePass, readHead_encode hf g]
  dsimp only
  rw [f.length_head, f.payloadOf_encode, if_neg]
  · rfl
  · rw [List.length_append]
    omega

/-! ### Messages -/

/-- A piece of payload as it is sent: the bytes, and the mask's key if there is one. -/
structure Piece where
  key : Option (Vector UInt8 4)
  payload : List UInt8
  short : payload.length < 2 ^ 63

/-- A control frame: close, ping or pong, with at most 125 bytes. -/
structure Control where
  op : ℕ
  piece : Piece
  op_range : 8 ≤ op ∧ op ≤ 10
  len : piece.payload.length ≤ 125

/-- A data message in fragments: the first one, and each further one behind the control frames
sent before it. -/
structure Message where
  op : ℕ
  first : Piece
  more : List (List Control × Piece)
  op_range : op = 1 ∨ op = 2

/-- What a peer sends: messages, and control frames between them. -/
inductive Item
  | control (c : Control)
  | message (m : Message)

/-- A fragment as a frame. -/
def Piece.frame (x : Piece) (op : ℕ) (fin : Bool) : Frame :=
  ⟨fin, op, x.key, x.payload, x.short⟩

/-- A control frame is never fragmented. -/
def Control.frame (c : Control) : Frame := c.piece.frame c.op true

/-- The frames behind the first one of a message; the last one is final. -/
def moreFrames : List (List Control × Piece) → List Frame
  | [] => []
  | (controls, x) :: more =>
    controls.map Control.frame ++ x.frame opCont more.isEmpty :: moreFrames more

/-- The frames of an item, in the order they are sent. -/
def Item.frames : Item → List Frame
  | .control c => [c.frame]
  | .message m => m.first.frame m.op m.more.isEmpty :: moreFrames m.more

/-- The bytes a peer sends. -/
def encodeItems (items : List Item) : List UInt8 :=
  items.flatMap fun item => item.frames.flatMap Frame.encode

/-- The payload of a message, its fragments joined. -/
def Message.payload (m : Message) : List UInt8 :=
  m.first.payload ++ m.more.flatMap fun x => x.2.payload

/-- What an item means: a control frame itself; a message with the control frames sent inside it
before it. -/
def Item.events : Item → List Event
  | .control c => [⟨c.op, c.piece.payload⟩]
  | .message m =>
    (m.more.flatMap fun x => x.1.map fun c => ⟨c.op, c.piece.payload⟩) ++ [⟨m.op, m.payload⟩]

/-- The pieces of payload an item is sent in. -/
def Item.pieces : Item → List Piece
  | .control c => [c.piece]
  | .message m => m.first :: m.more.flatMap fun x => x.1.map Control.piece ++ [x.2]

/-- The payload sizes of an item that the limit applies to: each control frame, and each message
as a whole. -/
def Item.sizes : Item → List ℕ
  | .control c => [c.piece.payload.length]
  | .message m =>
    (m.more.flatMap fun x => x.1.map fun c => c.piece.payload.length) ++ [m.payload.length]

/-! ### Parsing what was sent -/

/-- A parser of frames that may take the pieces: masked where it must be. -/
def Takes (s : Assembly) (xs : List Piece) : Prop :=
  s.requireMask = true → ∀ x ∈ xs, x.key.isSome = true

/-- A frame that is delivered is a take. -/
lemma parses_frame {s s' : Assembly} {f : Frame} {out : List Event} (hf : f.Fits s)
    (hd : deliver s f.encode.length f.fin f.op f.payload = .take f.encode.length out s') :
    frames.Parses s f.encode out s' :=
  .single fun g => (framePass_encode hf g).trans hd

/-- A control frame is called back and changes nothing. -/
lemma Control.parses {s : Assembly} {c : Control} (hmask : Takes s [c.piece])
    (hlen : c.piece.payload.length ≤ s.maxMessage) :
    frames.Parses s c.frame.encode [⟨c.op, c.piece.payload⟩] s := by
  have h8 := c.op_range.1
  refine parses_frame ⟨fun h => hmask h _ (by simp), .inr c.op_range,
    fun _ => ⟨rfl, c.len⟩, hlen, fun h => ?_⟩ ?_
  · have h0 : c.op = 0 := h
    omega
  · rw [deliver]
    exact if_pos h8

lemma controls_parse {s : Assembly} {cs : List Control} (hmask : Takes s (cs.map Control.piece))
    (hlen : ∀ c ∈ cs, c.piece.payload.length ≤ s.maxMessage) :
    frames.Parses s ((cs.map Control.frame).flatMap Frame.encode)
      (cs.map fun c => ⟨c.op, c.piece.payload⟩) s := by
  induction cs with
  | nil => exact .nil s
  | cons c cs ih =>
    have hc := Control.parses (c := c) (fun h x hx => hmask h x (by simp_all))
      (hlen c (by simp))
    exact hc.append (ih (fun h x hx => hmask h x (by simp_all))
      fun c' hc' => hlen c' (by simp [hc']))

/-- The further fragments of a message complete it. -/
lemma moreFrames_parse {s : Assembly} {more : List (List Control × Piece)} (hmore : more ≠ [])
    (hopen : s.msgOpcode ≠ 0)
    (hmask : Takes s (more.flatMap fun x => x.1.map Control.piece ++ [x.2]))
    (hctl : ∀ x ∈ more, ∀ c ∈ x.1, c.piece.payload.length ≤ s.maxMessage)
    (hlen : s.msg.length + (more.flatMap fun x => x.2.payload).length ≤ s.maxMessage) :
    frames.Parses s ((moreFrames more).flatMap Frame.encode)
      ((more.flatMap fun x => x.1.map fun c => ⟨c.op, c.piece.payload⟩) ++
        [⟨s.msgOpcode, s.msg ++ more.flatMap fun x => x.2.payload⟩])
      { s with msg := [], msgOpcode := 0 } := by
  induction more generalizing s with
  | nil => exact absurd rfl hmore
  | cons x more ih =>
    obtain ⟨cs, x⟩ := x
    simp only [List.flatMap_cons, List.length_append] at hmask hlen
    have hfits : (x.frame opCont more.isEmpty).Fits s := by
      refine ⟨fun h => hmask h x (by simp), .inl (Nat.zero_le _), fun h => ?_, ?_, fun _ => ?_⟩
      · exact absurd h (by simp [Piece.frame, opCont])
      · exact le_trans (by simp only [Piece.frame]; omega) hlen
      · exact le_trans (by simp only [Piece.frame]; omega) hlen
    have hcs := controls_parse (s := s)
      (fun h y hy => hmask h y (by simp only [List.mem_append]; tauto)) (hctl (cs, x) (by simp))
    simp only [moreFrames, List.flatMap_append, List.flatMap_cons]
    cases hm : more.isEmpty with
    | true =>
      obtain rfl := List.isEmpty_iff.mp hm
      have hx : frames.Parses s (x.frame opCont true).encode
          [⟨s.msgOpcode, s.msg ++ x.payload⟩] { s with msg := [], msgOpcode := 0 } :=
        parses_frame hfits (deliver_cont hopen _ true x.payload)
      simpa [moreFrames] using hcs.append hx
    | false =>
      have hne : more ≠ [] := fun h => by simp [h] at hm
      have hx : frames.Parses s (x.frame opCont false).encode []
          { s with msg := s.msg ++ x.payload } := by
        rw [hm] at hfits
        exact parses_frame hfits (deliver_cont hopen _ false x.payload)
      have hrest := ih (s := { s with msg := s.msg ++ x.payload }) hne hopen
        (fun h y hy => hmask h y (by simp only [List.mem_append]; tauto))
        (fun y hy => hctl y (by simp [hy])) (by simp only [List.length_append]; omega)
      have hall := hcs.append (hx.append hrest)
      simpa [List.append_assoc] using hall

/-- **An item is a stream of takes**: it leaves the parser between messages, as it found it. -/
lemma item_parses {s : Assembly} {item : Item} (hidle : s.msg = [] ∧ s.msgOpcode = 0)
    (hmask : Takes s item.pieces) (hsize : ∀ n ∈ item.sizes, n ≤ s.maxMessage) :
    frames.Parses s (item.frames.flatMap Frame.encode) item.events s := by
  obtain ⟨hmsg, hop⟩ := hidle
  cases item with
  | control c =>
    have hc := Control.parses (c := c) hmask (hsize _ (by simp [Item.sizes]))
    simpa [Item.frames, Item.events] using hc
  | message m =>
    obtain ⟨op, x, more, hrange⟩ := m
    simp only [Item.pieces, Item.sizes, Message.payload, List.mem_append,
      List.mem_flatMap, List.mem_map, List.mem_singleton] at hmask hsize
    have htotal : (x.payload ++ more.flatMap fun y => y.2.payload).length ≤ s.maxMessage :=
      hsize _ (.inr rfl)
    rw [List.length_append] at htotal
    have hcont : op ≠ opCont := by rcases hrange with rfl | rfl <;> simp [opCont]
    have h8 : ¬8 ≤ op := by omega
    have hfits : (x.frame op more.isEmpty).Fits s := by
      refine ⟨fun h => hmask h x (by simp), .inl ?_, fun h => ?_, ?_, fun h => absurd h hcont⟩
      · simp only [Piece.frame]
        omega
      · simp only [Piece.frame] at h
        omega
      · simp only [Piece.frame]
        omega
    simp only [Item.frames, Item.events, Message.payload, List.flatMap_cons]
    cases hm : more.isEmpty with
    | true =>
      obtain rfl := List.isEmpty_iff.mp hm
      have hx : frames.Parses s (x.frame op true).encode [⟨op, x.payload⟩] s :=
        parses_frame hfits (deliver_data h8 hcont hop _ true x.payload)
      simpa [moreFrames] using hx
    | false =>
      have hne : more ≠ [] := fun h => by simp [h] at hm
      have hx : frames.Parses s (x.frame op false).encode []
          { s with msg := x.payload, msgOpcode := op } := by
        rw [hm] at hfits
        exact parses_frame hfits (deliver_data h8 hcont hop _ false x.payload)
      have hrest := moreFrames_parse (s := { s with msg := x.payload, msgOpcode := op }) hne
        (by simp only; omega) (fun h y hy => hmask h y (List.mem_cons_of_mem _ hy))
        (fun y hy c hc => hsize _ (.inl ⟨y, hy, c, hc, rfl⟩)) htotal
      have hs : ({ s with msg := [], msgOpcode := 0 } : Assembly) = s := by
        rw [← hmsg, ← hop]
      dsimp only at hrest
      rw [hs] at hrest
      exact hx.append hrest

lemma encodeItems_parses {s : Assembly} {items : List Item} (hidle : s.msg = [] ∧ s.msgOpcode = 0)
    (hmask : ∀ item ∈ items, Takes s item.pieces)
    (hsize : ∀ item ∈ items, ∀ n ∈ item.sizes, n ≤ s.maxMessage) :
    frames.Parses s (encodeItems items) (items.flatMap Item.events) s := by
  induction items with
  | nil => exact .nil s
  | cons item items ih =>
    have hitem := item_parses hidle (hmask item (by simp)) (hsize item (by simp))
    exact hitem.append (ih (fun i hi => hmask i (by simp [hi]))
      fun i hi => hsize i (by simp [hi]))

/-- **Parse undoes encode**: a stream of data messages in fragments, with control frames between
them, masked where masks are required, each message and each control frame within the limit, is
called back in order with its opcodes and payloads, wherever the stream is cut; every feed
returns OK and nothing stays buffered. -/
theorem stream_round_trip (maxMessage : ℕ) (requireMask : Bool) (items : List Item)
    (pieces : List (List UInt8)) (hcut : pieces.flatten = encodeItems items)
    (hmask : requireMask = true → ∀ item ∈ items, ∀ x ∈ item.pieces, x.key.isSome = true)
    (hsize : ∀ item ∈ items, ∀ n ∈ item.sizes,
      n ≤ (fresh maxMessage requireMask).maxMessage) :
    (feedAll (fresh maxMessage requireMask) pieces).events = items.flatMap Item.events ∧
      (∀ fed, fed <+: pieces → (feedAll (fresh maxMessage requireMask) fed).status = .ok ()) ∧
      (feedAll (fresh maxMessage requireMask) pieces).parser.input = [] := by
  have hparse := encodeItems_parses (s := (fresh maxMessage requireMask).toAssembly)
    ⟨rfl, rfl⟩ (fun item hi h => hmask h item hi) hsize
  obtain ⟨-, hout, hstop, hrest⟩ := Decoder.feedAll_drain (d := frames)
    (fresh maxMessage requireMask).toAssembly pieces
  rw [hcut, hparse.drain] at hout hstop hrest
  have hfollows := feedAll_follows maxMessage requireMask pieces
  refine ⟨hfollows.events.trans hout, ?_, (hfollows.running hstop).1.trans (hrest hstop)⟩
  rintro fed ⟨more, rfl⟩
  obtain ⟨-, -, -, hok⟩ :=
    (feedAll_follows maxMessage requireMask fed).running (Decoder.running_of_prefix hstop)
  exact hok

/-- A text in two masked fragments with a ping between them, cut inside the first header. -/
theorem stream_round_trip_fragments :
    (feedAll (fresh 5 true) [[0x01], [0x82, 1, 2, 3, 4, 0x49, 0x67, 0x89, 0x81, 0, 0, 0, 0, 7,
      0x80, 0x81, 0, 0, 0, 0, 0x79]]).events = [⟨9, [7]⟩, ⟨1, [0x48, 0x65, 0x79]⟩] ∧
      (feedAll (fresh 5 true) [[0x01]]).status = .ok () := by
  obtain ⟨hevents, hok, -⟩ := stream_round_trip 5 true
    [.message ⟨1, ⟨some #v[1, 2, 3, 4], [0x48, 0x65], by decide⟩,
      [([⟨9, ⟨some #v[0, 0, 0, 0], [7], by decide⟩, by decide, by decide⟩],
        ⟨some #v[0, 0, 0, 0], [0x79], by decide⟩)], .inl rfl⟩]
    [[0x01], [0x82, 1, 2, 3, 4, 0x49, 0x67, 0x89, 0x81, 0, 0, 0, 0, 7,
      0x80, 0x81, 0, 0, 0, 0, 0x79]] (by decide) (by simp [Item.pieces])
    (by simp [Item.sizes, Message.payload, fresh, parserInit])
  exact ⟨hevents, hok _ ⟨_, rfl⟩⟩

/-- The limit also holds for control frames: a ping of two bytes is refused when messages of one
byte are the largest. -/
theorem oversized_control_refused :
    ¬∀ (maxMessage : ℕ) (requireMask : Bool) (items : List Item) (pieces : List (List UInt8)),
      pieces.flatten = encodeItems items →
      (requireMask = true → ∀ item ∈ items, ∀ x ∈ item.pieces, x.key.isSome = true) →
      (∀ m, .message m ∈ items → m.payload.length ≤ (fresh maxMessage requireMask).maxMessage) →
      (feedAll (fresh maxMessage requireMask) pieces).events = items.flatMap Item.events := by
  intro h
  have hping := h 1 false [.control ⟨9, ⟨none, [0, 0], by decide⟩, by decide, by decide⟩]
    [[0x89, 2, 0, 0]] (by decide) (by simp) (by simp)
  change (Fed.feed ⟨fresh 1 false, [], .ok ()⟩ [0x89, 2, 0, 0]).events = _ at hping
  rw [Fed.feed, parserFeed_refused closeTooBig rfl rfl] at hping
  simp [Item.events] at hping

end Ws

end VibeVoice
