import VibeVoice.Lib.Search
import VibeVoice.Model.Cjson

/-!
From the answer of the model to segments (`postprocess.c`).

Texts are the bytes of C strings, without the NUL behind them.  `cJSON_Parse` and the conversions
of numbers are parameters, and every allocation succeeds.

* `extractJson`: the JSON inside of an answer, closed where it was cut off.
* `recoverSegments`: what is read out of an answer that does not parse.
* `treeSegments`: the segments of an answer that does.
* `postprocessText`: the whole.
-/

namespace VibeVoice.Postprocess

/-- The bytes with a meaning of their own. -/
abbrev quote : UInt8 := 0x22
abbrev backslash : UInt8 := 0x5C
abbrev openBracket : UInt8 := 0x5B
abbrev closeBracket : UInt8 := 0x5D
abbrev openBrace : UInt8 := 0x7B
abbrev closeBrace : UInt8 := 0x7D

/-! ### The JSON of an answer -/

/-- `depth`, `in_str` and `esc`. -/
structure Scan where
  depth : ℤ
  inStr : Bool
  esc : Bool
  deriving DecidableEq

/-- Whether the byte closes a bracket. -/
def Scan.closes (s : Scan) (c : UInt8) : Bool :=
  !s.esc && !s.inStr && (c == closeBracket || c == closeBrace)

/-- What the loop of `extract_json` makes of a byte. -/
def Scan.step (s : Scan) (c : UInt8) : Scan :=
  if s.esc then { s with esc := false }
  else if c = backslash then { s with esc := true }
  else if c = quote then { s with inStr := !s.inStr }
  else if s.inStr then s
  else if c = openBracket ∨ c = openBrace then { s with depth := s.depth + 1 }
  else if c = closeBracket ∨ c = closeBrace then { s with depth := s.depth - 1 }
  else s

/-- The loop of `extract_json`: how far it goes, and how it ends. -/
def scan : Scan → List UInt8 → ℕ × Scan
  | s, [] => (0, s)
  | s, c :: cs =>
    if s.closes c ∧ (s.step c).depth = 0 then (1, s.step c)
    else
      let r := scan (s.step c) cs
      (r.1 + 1, r.2)

/-- What is left of a text where it ends with its last closing brace. -/
def throughBrace (text : List UInt8) : List UInt8 :=
  (text.reverse.dropWhile (· ≠ closeBrace)).reverse

/-- `extract_json`. -/
def extractJson (text : List UInt8) : Option (List UInt8) :=
  let start :=
    match Search.find (literal "```json") text with
    | some i => text.drop (i + 7)
    | none => text
  match start.dropWhile fun c => c ≠ openBracket ∧ c ≠ openBrace with
  | [] => none
  | c :: cs =>
    let r := scan ⟨0, false, false⟩ (c :: cs)
    if r.2.depth = 0 then some ((c :: cs).take r.1)
    else
      -- the partial object at the end is dropped
      let kept := throughBrace ((c :: cs).take r.1)
      if kept = [] then none
      else some (kept ++ if c = openBracket then [closeBracket] else [])

/-! ### Keys and names -/

/-- `K_START`. -/
def kStart : List (List UInt8) :=
  [literal "Start time", literal "Start", literal "start_time", literal "start"]

/-- `K_END`. -/
def kEnd : List (List UInt8) :=
  [literal "End time", literal "End", literal "end_time", literal "end"]

/-- `K_SPK`, `K_SPEAKER`. -/
def kSpeaker : List (List UInt8) :=
  [literal "Speaker ID", literal "Speaker", literal "speaker_id", literal "speaker"]

/-- `K_TXT`, `K_TEXT`. -/
def kText : List (List UInt8) :=
  [literal "Content", literal "Text", literal "content", literal "text"]

/-- The C library's and the compiler's conversions. -/
structure Conversions (δ φ : Type) where
  zero : φ
  toFloat : δ → φ
  toInt : δ → ℤ
  atof : List UInt8 → δ

/-- `vv_segment_t`. -/
structure Segment (φ : Type) where
  speaker : List UInt8
  text : List UInt8
  startTime : φ
  endTime : φ
  deriving DecidableEq

/-- `snprintf(name, 64, ...)`. -/
def clip (name : List UInt8) : List UInt8 := name.take 63

/-- `Speaker %d`. -/
def numberedSpeaker (n : ℤ) : List UInt8 := clip (literal s!"Speaker {n}")

/-! ### Recovery -/

/-- A hexadecimal digit, as the code takes any byte for one. -/
def hexDigit (h : UInt8) : ℤ :=
  if 0x30 ≤ h ∧ h ≤ 0x39 then h.toNat - 0x30 else (h ||| 32).toNat - 97 + 10

/-- `v & 0xFF` behind `\u`. -/
def latin1 (digits : List UInt8) : UInt8 :=
  UInt8.ofNat ((digits.foldl (fun v h => v * 16 + hexDigit h) 0) % 256).toNat

/-- The escapes of one letter. -/
def unescape (e : UInt8) : UInt8 :=
  if e = 0x6E then 0x0A else if e = 0x74 then 0x09 else if e = 0x72 then 0x0D else e

/-- `read_json_string`, from behind the opening quote. -/
def readJsonString : List UInt8 → List UInt8
  | [] => []
  | c :: s =>
    if c = quote then []
    else if c = backslash then
      match s with
      | [] => [backslash]
      | e :: s =>
        if e = 0x75 then
          match s with
          | h₁ :: h₂ :: h₃ :: h₄ :: s => latin1 [h₁, h₂, h₃, h₄] :: readJsonString s
          | digits => [latin1 digits]
        else unescape e :: readJsonString s
    else c :: readJsonString s

/-- The blanks and the colon behind a key, within `n` bytes. -/
def skipColon : ℕ → List UInt8 → List UInt8
  | n + 1, c :: s => if c = 0x20 ∨ c = 0x3A then skipColon n s else c :: s
  | _, s => s

/-- The inner loop of `find_key`: `pattern` within the first `n` bytes. -/
def findPattern (pattern : List UInt8) : ℕ → List UInt8 → Option (List UInt8)
  | n, [] => if n < pattern.length then none else if pattern = [] then some [] else none
  | n, c :: s =>
    if n < pattern.length then none
    else if pattern <+: c :: s then
      some (skipColon (n - pattern.length) ((c :: s).drop pattern.length))
    else findPattern pattern (n - 1) s

/-- `find_key`: the value of the first spelling that is there, within the first `n` bytes. -/
def findKey (n : ℕ) (s : List UInt8) (keys : List (List UInt8)) : Option (List UInt8) :=
  keys.findSome? fun key => findPattern (quote :: (key ++ [quote])) n s

/-- `isspace`. -/
def isSpace (c : UInt8) : Bool := c == 0x20 || (0x09 ≤ c && c ≤ 0x0D)

/-- `atoi`. -/
def atoi (s : List UInt8) : ℤ :=
  let digits := fun s : List UInt8 => (s.takeWhile fun c => 0x30 ≤ c ∧ c ≤ 0x39).foldl
    (fun v c => v * 10 + (c.toNat - 0x30 : ℤ)) 0
  match s.dropWhile isSpace with
  | 0x2D :: s => -digits s
  | 0x2B :: s => digits s
  | s => digits s

variable {δ φ : Type} (conv : Conversions δ φ)

/-- One round of the loop of `recover_segments`, at an opening brace. -/
def recoverSegment (s : List UInt8) : Option (Segment φ) :=
  let n := 1 + (s.tail.takeWhile (· ≠ openBrace)).length
  match findKey n s kText with
  | some (0x22 :: body) =>
    let time := fun keys => ((findKey n s keys).map fun v => conv.toFloat (conv.atof v)).getD
      conv.zero
    let speaker :=
      match findKey n s kSpeaker with
      | some (0x22 :: name) => clip (cString (readJsonString name))
      | some v => numberedSpeaker (atoi v)
      | none => literal "Speaker 0"
    some ⟨speaker, cString (readJsonString body), time kStart, time kEnd⟩
  | _ => none

/-- `recover_segments`. -/
def recoverSegments (text : List UInt8) : List (Segment φ) :=
  (text.tails.filter fun s => s.head? = some openBrace).filterMap (recoverSegment conv)

/-! ### The tree -/

/-- `pick`. -/
def pick (item : Json δ) (keys : List (List UInt8)) : Option (Json δ) :=
  keys.findSome? fun key =>
    (item.children.find? fun c => c.1.any fun name => cString name = key).map Prod.snd

/-- `as_float`, with `0` by default. -/
def asFloat : Option (Json δ) → φ
  | some (.number value) => conv.toFloat value
  | some (.string s) => conv.toFloat (conv.atof (cString s))
  | _ => conv.zero

/-- The speaker of an object. -/
def speakerName : Option (Json δ) → List UInt8
  | some (.string s) => clip (cString s)
  | some (.number value) => numberedSpeaker (conv.toInt value)
  | _ => literal "Speaker 0"

/-- One round of the loop of `vv_postprocess_text`. -/
def itemSegment : Json δ → Option (Segment φ)
  | .object members =>
    let item : Json δ := .object members
    let text := ((pick item kText).bind Json.valueString).getD []
    some ⟨speakerName conv (pick item kSpeaker), text, asFloat conv (pick item kStart),
      asFloat conv (pick item kEnd)⟩
  | _ => none

/-- The segments of the tree of an answer. -/
def treeSegments (root : Json δ) : List (Segment φ) :=
  match root with
  | .array items => items.filterMap (itemSegment conv)
  | item => [item].filterMap (itemSegment conv)

/-! ### The whole -/

/-- `full_text`: the texts that are not empty, with a blank between them. -/
def fullText (segments : List (Segment φ)) : List UInt8 :=
  List.intercalate [0x20] ((segments.map Segment.text).filter (· ≠ []))

/-- `vv_transcription_t`. -/
structure Transcription (φ : Type) where
  segments : List (Segment φ)
  fullText : List UInt8

/-- The answer without the chat framing. -/
def unframed (text : List UInt8) : List UInt8 :=
  match Search.find (literal "<|im_start|>assistant") text with
  | none => text
  | some i => (text.drop (i + 21)).dropWhile fun c => c = 0x0A ∨ c = 0x0D ∨ c = 0x20

/-- `vv_postprocess_text`. -/
def postprocessText (parse : List UInt8 → Option (Json δ)) (text : List UInt8) :
    Transcription φ :=
  match (extractJson text).bind parse with
  | some root =>
    let segments := treeSegments conv root
    ⟨segments, fullText segments⟩
  | none =>
    match recoverSegments conv text with
    | [] => ⟨[], unframed text⟩
    | segments => ⟨segments, fullText segments⟩

end VibeVoice.Postprocess
