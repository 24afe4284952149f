import VibeVoice.Lib.EventStream
import VibeVoice.Model.Cjson

/-!
Server-sent events: `vv_sse_format` of `ws.c`.

Strings are the bytes in front of their NUL, a `NULL` string is an empty one and a `NULL` buffer
one of no bytes.

* `sseFormat`: the loop with `PUT`, which writes and counts.
* `sseFormat_eq`: what is written is the text of `sseText` as far as it fits.
* `events_sseText`: what a client recovers where every CR of the data belongs to a CRLF.
* `gain_sseText`: how much data the text can carry at most.
* `sse_lossless_iff`: the two put together.
-/

namespace VibeVoice.Sse

open EventStream

/-! ### The formatter -/

/-- A buffer while it is filled: its bytes, and the bytes needed so far. -/
structure Out where
  need : ℕ
  buf : List UInt8

/-- `memcpy(buf + at, s, n)`. -/
def store (buf : List UInt8) (i : ℕ) (s : List UInt8) : List UInt8 :=
  buf.take i ++ s ++ buf.drop (i + s.length)

/-- `PUT`. -/
def Out.put (o : Out) (s : List UInt8) : Out where
  need := o.need + s.length
  buf :=
    if o.need + s.length < o.buf.length then store o.buf o.need s
    else if o.need < o.buf.length then store o.buf o.need (s.take (o.buf.length - 1 - o.need))
    else o.buf

/-- `"event: "` -/
def eventHead : List UInt8 := literal "event: "

/-- `"data: "` -/
def dataHead : List UInt8 := literal "data: "

/-- A line of the data without the CR at its end. -/
def dropCr (l : List UInt8) : List UInt8 := if l.getLast? = some cr then l.dropLast else l

/-- A line of the data as a field. -/
def Out.putLine (o : Out) (l : List UInt8) : Out :=
  ((o.put dataHead).put (dropCr l)).put [lf]

/-- `vv_sse_format`: what it returns, and the buffer. -/
def sseFormat (event data buf : List UInt8) : ℕ × List UInt8 :=
  let o : Out := ⟨0, buf⟩
  let o := if event = [] then o else ((o.put eventHead).put event).put [lf]
  let o := ((data.splitOn lf).foldl Out.putLine o).put [lf]
  (o.need, if o.buf = [] then [] else o.buf.set (min o.need (o.buf.length - 1)) 0)

/-- The full text of an event. -/
def sseText (event data : List UInt8) : List UInt8 :=
  (if event = [] then [] else eventHead ++ event ++ [lf]) ++
    (data.splitOn lf).flatMap (fun l => dataHead ++ dropCr l ++ [lf]) ++ [lf]

/-! ### What is written -/

lemma store_append (a b s : List UInt8) :
    store (a ++ b) a.length s = a ++ s ++ b.drop s.length := by
  rw [store, List.take_left, List.drop_append]
  congr 1
  rw [List.drop_eq_nil_of_le (Nat.le_add_right _ _), List.nil_append, Nat.add_sub_cancel_left]

/-- A buffer that was `buf` holds a text as far as it fits. -/
structure Out.Has (o : Out) (buf text : List UInt8) : Prop where
  need : o.need = text.length
  buf : o.buf = text.take (buf.length - 1) ++ buf.drop (min text.length (buf.length - 1))

lemma Out.has_start (buf : List UInt8) : Out.Has ⟨0, buf⟩ buf [] := ⟨rfl, by simp⟩

lemma Out.Has.length {o : Out} {buf text : List UInt8} (h : o.Has buf text) :
    o.buf.length = buf.length := by
  rw [h.buf, List.length_append, List.length_take, List.length_drop]
  omega

/-- `PUT` writes the text behind what is there. -/
lemma Out.Has.put {o : Out} {buf text : List UInt8} (h : o.Has buf text) (s : List UInt8) :
    (o.put s).Has buf (text ++ s) := by
  refine ⟨by rw [List.length_append, ← h.need]; rfl, ?_⟩
  have hbuf := h.buf
  have hlen : (text ++ s).length = text.length + s.length := List.length_append
  simp only [Out.put, h.need, h.length]
  split_ifs with hfits hroom
  · have hsmall : min text.length (buf.length - 1) = text.length := by omega
    have hall : min (text ++ s).length (buf.length - 1) = text.length + s.length := by omega
    rw [List.take_of_length_le (by omega), hsmall] at hbuf
    rw [hbuf, store_append, List.drop_drop, hall, List.take_of_length_le (by omega)]
  · have hsmall : min text.length (buf.length - 1) = text.length := by omega
    have hall : min (text ++ s).length (buf.length - 1) = buf.length - 1 := by omega
    have hcut : text.length + (s.take (buf.length - 1 - text.length)).length = buf.length - 1 := by
      rw [List.length_take]
      omega
    rw [List.take_of_length_le (by omega), hsmall] at hbuf
    rw [hbuf, store_append, List.drop_drop, hcut, hall, List.take_append,
      List.take_of_length_le (l := text) (by omega)]
  · have hfull : min text.length (buf.length - 1) = buf.length - 1 := by omega
    have hall : min (text ++ s).length (buf.length - 1) = buf.length - 1 := by omega
    rw [hbuf, hfull, hall, List.take_append_of_le_length (by omega)]

lemma Out.Has.putLines {o : Out} {buf text : List UInt8} (h : o.Has buf text)
    (ls : List (List UInt8)) :
    (ls.foldl Out.putLine o).Has buf
      (text ++ ls.flatMap fun l => dataHead ++ dropCr l ++ [lf]) := by
  induction ls generalizing o text with
  | nil => simpa using h
  | cons l ls ih =>
    have hline := ((h.put dataHead).put (dropCr l)).put [lf]
    have hrest := ih hline
    have htext : text ++ dataHead ++ dropCr l ++ [lf] ++
          ls.flatMap (fun l => dataHead ++ dropCr l ++ [lf]) =
        text ++ (l :: ls).flatMap (fun l => dataHead ++ dropCr l ++ [lf]) := by
      simp only [List.flatMap_cons, List.append_assoc]
    rw [htext] at hrest
    exact hrest

/-- A buffer with as much of a text as fits in front of the NUL, and nothing else changed. -/
def written (text buf : List UInt8) : List UInt8 :=
  if buf = [] then []
  else text.take (buf.length - 1) ++ 0 :: buf.drop (min text.length (buf.length - 1) + 1)

/-- The formatter counts the whole text, and writes what fits. -/
theorem sseFormat_eq (event data buf : List UInt8) :
    sseFormat event data buf =
      ((sseText event data).length, written (sseText event data) buf) := by
  obtain ⟨o, ho, heq⟩ : ∃ o : Out, o.Has buf (sseText event data) ∧
      sseFormat event data buf =
        (o.need, if o.buf = [] then [] else o.buf.set (min o.need (o.buf.length - 1)) 0) := by
    refine ⟨_, ?_, rfl⟩
    rw [sseText]
    refine Out.Has.put (Out.Has.putLines ?_ _) [lf]
    split_ifs
    · exact Out.has_start buf
    · exact (((Out.has_start buf).put eventHead).put event).put [lf]
  rw [heq, ho.need, written]
  congr 1
  have hempty : o.buf = [] ↔ buf = [] := by
    rw [← List.length_eq_zero_iff, ho.length, List.length_eq_zero_iff]
  by_cases hbuf : buf = []
  · rw [if_pos (hempty.mpr hbuf), if_pos hbuf]
  rw [if_neg (hempty.not.mpr hbuf), if_neg hbuf, ho.length]
  have hpos := List.length_pos_iff.mpr hbuf
  have hlt : min (sseText event data).length (buf.length - 1) < buf.length := by omega
  have htake : ((sseText event data).take (buf.length - 1)).length =
      min (sseText event data).length (buf.length - 1) := by
    rw [List.length_take, Nat.min_comm]
  rw [ho.buf, ← htake, List.set_append_right _ _ le_rfl, Nat.sub_self,
    List.drop_eq_getElem_cons (by rw [htake]; exact hlt), List.set_cons_zero]

/-! ### What a client recovers -/

lemma dataHead_text : dataHead.all isText = true := by decide +kernel

lemma eventHead_text : eventHead.all isText = true := by decide +kernel

lemma fieldName_data (l : List UInt8) : fieldName (dataHead ++ l) = dataField := by
  change fieldName (0x64 :: 0x61 :: 0x74 :: 0x61 :: 0x3A :: 0x20 :: l) = _
  simp [fieldName, dataField]

lemma fieldValue_data (l : List UInt8) : fieldValue (dataHead ++ l) = l := by
  change fieldValue (0x64 :: 0x61 :: 0x74 :: 0x61 :: 0x3A :: 0x20 :: l) = _
  simp [fieldValue]

lemma fieldName_event (l : List UInt8) : fieldName (eventHead ++ l) = eventField := by
  change fieldName (0x65 :: 0x76 :: 0x65 :: 0x6E :: 0x74 :: 0x3A :: 0x20 :: l) = _
  simp [fieldName, eventField]

lemma fieldValue_event (l : List UInt8) : fieldValue (eventHead ++ l) = l := by
  change fieldValue (0x65 :: 0x76 :: 0x65 :: 0x6E :: 0x74 :: 0x3A :: 0x20 :: l) = _
  simp [fieldValue]

/-- The lines of the text are those of its fields, and the empty one. -/
lemma lines_sseText {event : List UInt8} (hevent : event.all isText = true) (data : List UInt8) :
    lines (sseText event data) =
      (if event = [] then [] else [eventHead ++ event]) ++
        (data.splitOn lf).flatMap (fun l => lines (dataHead ++ dropCr l ++ [lf])) ++ [[]] := by
  have hfields : ∀ ls : List (List UInt8),
      lines (ls.flatMap (fun l => dataHead ++ dropCr l ++ [lf]) ++ [lf]) =
        ls.flatMap (fun l => lines (dataHead ++ dropCr l ++ [lf])) ++ [[]] := by
    intro ls
    induction ls with
    | nil => exact lines_lf
    | cons l ls ih =>
      rw [List.flatMap_cons, List.flatMap_cons, List.append_assoc (_ ++ [lf]),
        List.append_assoc (lines _), ← ih, lines_append]
  rw [sseText]
  split_ifs with hempty
  · rw [List.nil_append, List.nil_append, hfields]
  · have hname : (eventHead ++ event).all isText = true := by
      rw [List.all_append, eventHead_text, hevent]
      rfl
    rw [List.append_assoc (_ ++ [lf]), List.append_assoc [_], ← hfields, lines_append,
      lines_single hname]

lemma dropCr_cons {c : UInt8} (hc : c ≠ cr) (l : List UInt8) : dropCr (c :: l) = c :: dropCr l := by
  cases l with
  | nil => rw [dropCr, if_neg (by simpa using hc)]; rfl
  | cons b l =>
    rw [dropCr, dropCr, List.getLast?_cons_cons]
    split_ifs <;> rfl

/-- With every CR in a CRLF, the lines of the data are those of the normalised data. -/
lemma map_dropCr_splitOn {data : List UInt8} (h : CrLf data) :
    (data.splitOn lf).map dropCr = (normalize data).splitOn lf := by
  induction data using lineEnds_induct with
  | nil => rfl
  | newline s ih =>
    rw [crLf_cons (by decide)] at h
    rw [normalize_lf, List.splitOn_cons_eq_if_modifyHead, List.splitOn_cons_eq_if_modifyHead,
      if_pos (beq_self_eq_true lf), if_pos (beq_self_eq_true lf), List.map_cons, ih h]
    rfl
  | pair s ih =>
    rw [crLf_cr, crLf_cons (by decide)] at h
    rw [normalize_crlf, List.splitOn_cons_eq_if_modifyHead, List.splitOn_cons_eq_if_modifyHead,
      List.splitOn_cons_eq_if_modifyHead, if_neg (by decide), if_pos (beq_self_eq_true lf),
      if_pos (beq_self_eq_true lf), List.modifyHead_cons, List.map_cons, ih h.2]
    rfl
  | lone s hs ih =>
    rw [crLf_cr] at h
    exact (hs h.1).elim
  | text c s hcr hlf ih =>
    rw [crLf_cons hcr] at h
    rw [normalize_cons hcr hlf, List.splitOn_cons_eq_if_modifyHead,
      List.splitOn_cons_eq_if_modifyHead, if_neg (by simpa using hlf),
      if_neg (by simpa using hlf), ← ih h]
    obtain ⟨l, ls, hls⟩ := List.exists_cons_of_ne_nil (List.splitOn_ne_nil lf s)
    rw [hls, List.modifyHead_cons, List.map_cons, List.map_cons, List.modifyHead_cons,
      dropCr_cons hcr]

/-- The lines of the data go into the event one by one. -/
lemma foldl_data (ls : List (List UInt8)) (c : Client) :
    (ls.map (dataHead ++ ·)).foldl Client.line c =
      { c with data := c.data ++ ls.flatMap (· ++ [lf]) } := by
  induction ls generalizing c with
  | nil => simp
  | cons l ls ih =>
    have hline : c.line (dataHead ++ l) = { c with data := c.data ++ (l ++ [lf]) } := by
      rw [Client.line, if_neg (by simp [dataHead, literal]), fieldName_data,
        if_neg (by decide), if_pos rfl, fieldValue_data]
    rw [List.map_cons, List.foldl_cons, hline, ih, List.flatMap_cons, List.append_assoc]

/-- With every CR in a CRLF, the client recovers the event. -/
theorem events_sseText {event data : List UInt8} (hevent : event.all isText = true)
    (hdata : CrLf data) : events (sseText event data) = [(event, normalize data)] := by
  set ls := (normalize data).splitOn lf with hls
  have hlines : (data.splitOn lf).flatMap (fun l => lines (dataHead ++ dropCr l ++ [lf])) =
      ls.map (dataHead ++ ·) := by
    rw [hls, ← map_dropCr_splitOn hdata, List.map_map, List.flatMap_def]
    have hsingle : ∀ l ∈ data.splitOn lf,
        lines (dataHead ++ dropCr l ++ [lf]) = [dataHead ++ dropCr l] := by
      intro l hl
      refine lines_single ?_
      have hmem : dropCr l ∈ (normalize data).splitOn lf := by
        rw [← map_dropCr_splitOn hdata]
        exact List.mem_map_of_mem hl
      rw [List.all_append, dataHead_text, isText_of_mem_splitOn hmem]
      rfl
    rw [List.map_congr_left hsingle, ← List.flatMap_def]
    exact List.map_eq_flatMap.symm
  have hname : (if event = [] then [] else [eventHead ++ event]).foldl Client.line ⟨[], [], []⟩ =
      ⟨event, [], []⟩ := by
    split_ifs with hempty
    · rw [hempty]
      rfl
    · rw [List.foldl_cons, List.foldl_nil, Client.line,
        if_neg (by simp [eventHead, literal]), fieldName_event, if_pos rfl, fieldValue_event]
  have hne : ls ≠ [] := List.splitOn_ne_nil _ _
  have hsome : ls.flatMap (· ++ [lf]) ≠ [] := by
    obtain ⟨l, ls', heq⟩ := List.exists_cons_of_ne_nil hne
    simp [heq]
  rw [events, lines_sseText hevent, hlines, List.foldl_append, List.foldl_append, hname, foldl_data,
    List.foldl_cons, List.foldl_nil, Client.line, if_pos rfl, if_neg (by simpa using hsome),
    List.nil_append, List.nil_append, dropLast_flatMap_lf hne, hls, List.intercalate_splitOn]

/-! ### What a client can recover at most -/

lemma filter_dropCr (l : List UInt8) : (dropCr l).filter isText = l.filter isText := by
  rw [dropCr]
  split_ifs with h
  · obtain ⟨s, rfl⟩ := List.getLast?_eq_some_iff.mp h
    rw [List.dropLast_concat, List.filter_append]
    simp [isText]
  · rfl

/-- A field carries the bytes of its line at most, and the line end. -/
lemma gain_field (l : List UInt8) :
    ((lines (dataHead ++ l ++ [lf])).map gain).sum ≤ (l.filter isText).length + 1 := by
  rw [List.append_assoc, lines_append_front dataHead_text, ← flatten_lines]
  cases lines (l ++ [lf]) with
  | nil => exact Nat.zero_le _
  | cons p rest =>
    have hfirst : gain (dataHead ++ p) = p.length + 1 := by
      rw [gain, fieldName_data, if_pos rfl, fieldValue_data]
    have hrest : (rest.map gain).sum ≤ rest.flatten.length := by
      rw [List.length_flatten]
      exact List.sum_le_sum fun l _ => gain_le l
    rw [List.modifyHead_cons, List.map_cons, List.sum_cons, hfirst, List.flatten_cons,
      List.length_append]
    omega

/-- The text of an event carries the bytes of the data at most, and an end for each LF. -/
theorem gain_sseText {event : List UInt8} (hevent : event.all isText = true) (data : List UInt8) :
    ((lines (sseText event data)).map gain).sum ≤
      (data.filter isText).length + data.count lf + 1 := by
  have hname : ((if event = [] then [] else [eventHead ++ event]).map gain).sum = 0 := by
    split_ifs
    · rfl
    · rw [List.map_singleton, List.sum_singleton, gain, fieldName_event, if_neg (by decide)]
  have hfields : ∀ ls : List (List UInt8),
      ((ls.flatMap fun l => lines (dataHead ++ dropCr l ++ [lf])).map gain).sum ≤
        (ls.flatten.filter isText).length + ls.length := by
    intro ls
    induction ls with
    | nil => exact le_rfl
    | cons l ls ih =>
      have hfield := gain_field (dropCr l)
      rw [filter_dropCr] at hfield
      rw [List.flatMap_cons, List.map_append, List.sum_append, List.flatten_cons,
        List.filter_append, List.length_append, List.length_cons]
      omega
  have hbytes : ((data.splitOn lf).flatten.filter isText) = data.filter isText := by
    rw [flatten_splitOn, List.filter_filter]
    exact List.filter_congr fun c _ => by simp [isText]
  have hdata := hfields (data.splitOn lf)
  rw [hbytes, length_splitOn, ← Nat.add_assoc] at hdata
  have hblank : ([[]].map gain).sum = 0 := rfl
  rw [lines_sseText hevent, List.map_append, List.map_append, List.sum_append, List.sum_append,
    hname, hblank]
  omega

/-- The text that is counted and written is the same for every buffer; a client recovers the event
from it exactly when every CR of the data is directly followed by an LF. -/
theorem sse_lossless_iff {event : List UInt8} (hevent : event.all isText = true)
    (data : List UInt8) :
    ∃ text, (∀ buf, sseFormat event data buf = (text.length, written text buf)) ∧
      (events text = [(event, normalize data)] ↔ CrLf data) := by
  refine ⟨sseText event data, sseFormat_eq event data, ?_, events_sseText hevent⟩
  intro h
  by_contra hlone
  have hneed := length_of_events_eq h
  have hroom := gain_sseText hevent data
  have hmore := count_normalize_lt hlone
  rw [length_normalize] at hneed
  omega

/-- Two lines with a CRLF between them. -/
theorem sse_lossless_crlf : ∃ text,
    (∀ buf, sseFormat (literal "done") [0x61, 0x0D, 0x0A, 0x62] buf =
      (text.length, written text buf)) ∧
    (events text = [(literal "done", normalize [0x61, 0x0D, 0x0A, 0x62])] ↔
      CrLf [0x61, 0x0D, 0x0A, 0x62]) :=
  sse_lossless_iff (by decide +kernel) _

/-- Two lines with a lone CR between them: the client drops the second. -/
theorem sse_lone_cr :
    (∀ buf, sseFormat [] [0x61, 0x0D, 0x62] buf =
      ((sseText [] [0x61, 0x0D, 0x62]).length, written (sseText [] [0x61, 0x0D, 0x62]) buf)) ∧
    events (sseText [] [0x61, 0x0D, 0x62]) = [([], [0x61])] ∧
    normalize [0x61, 0x0D, 0x62] = [0x61, 0x0A, 0x62] :=
  ⟨sseFormat_eq _ _, by decide +kernel, by decide +kernel⟩

end VibeVoice.Sse
