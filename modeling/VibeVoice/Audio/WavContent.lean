import Mathlib.Data.Nat.Bitwise
import VibeVoice.Audio.Wav

/-!
What the WAV loader returns for a well-formed file.

A file is written as its chunks, each with the pad byte that an odd size asks for: others, the
format, others again, and the data.

* `File`, `File.encode`: well-formed files.
* `gather_file`: chunks of even size are found as they were written.
* `valueOf_eq`: a sample is decoded as its encoding says.
* `wav_content_iff`: which of these files the loader returns the means of.
-/

namespace VibeVoice.Wav

open Riff Fault

/-! ### Well-formed files -/

/-- How a sample is stored. -/
inductive Encoding
  | pcm8 | pcm16 | pcm24 | pcm32 | float32
  deriving DecidableEq

/-- The format tag. -/
def Encoding.tag : Encoding → ℕ
  | .float32 => 3
  | _ => 1

/-- The bytes of a sample. -/
def Encoding.bytes : Encoding → ℕ
  | .pcm8 => 1
  | .pcm16 => 2
  | .pcm24 => 3
  | .pcm32 | .float32 => 4

variable {σ : Type} (o : Ops σ)

/-- The value of the bytes of a sample: integers of more than a byte are in two's complement. -/
def Encoding.value : Encoding → List UInt8 → σ
  | .pcm8, b => o.byte (b.headD 0)
  | .pcm16, b => o.scaled (BitVec.ofNat 16 (number b)).toInt (2 ^ 15)
  | .pcm24, b => o.scaled (BitVec.ofNat 24 (number b)).toInt (2 ^ 23)
  | .pcm32, b => o.scaled (BitVec.ofNat 32 (number b)).toInt (2 ^ 31)
  | .float32, b => o.raw b

/-- A well-formed file. -/
structure File where
  encoding : Encoding
  channels : ℕ
  rate : ℕ
  /-- What the format chunk has behind its sixteen bytes. -/
  extension : List UInt8
  before : List Chunk
  between : List Chunk
  frames : ℕ
  data : List UInt8
  channels_pos : 0 < channels
  channels_lt : channels < 2 ^ 16
  rate_lt : rate < 2 ^ 32
  extension_lt : 16 + extension.length < 2 ^ 32
  others : ∀ c ∈ before ++ between, c.id ≠ fmtId ∧ c.id ≠ dataId
  data_length : data.length = frames * (channels * encoding.bytes)
  data_lt : data.length < 2 ^ 32

namespace File

variable (w : File)

/-- The bytes of a frame. -/
def blockAlign : ℕ := w.channels * w.encoding.bytes

/-- The sixteen bytes every format chunk has. -/
def fields : List UInt8 :=
  numberBytes 2 w.encoding.tag ++ (numberBytes 2 w.channels ++ (numberBytes 4 w.rate ++
    (numberBytes 4 (w.rate * w.blockAlign) ++ (numberBytes 2 w.blockAlign ++
      numberBytes 2 (8 * w.encoding.bytes)))))

lemma length_fields : w.fields.length = 16 := by simp [fields]

/-- The format chunk. -/
def fmtChunk : Chunk where
  id := fmtId
  body := w.fields ++ w.extension
  id_length := by decide +kernel
  body_length := by
    rw [List.length_append, length_fields]
    exact w.extension_lt

/-- The data chunk. -/
def dataChunk : Chunk where
  id := dataId
  body := w.data
  id_length := by decide +kernel
  body_length := w.data_lt

/-- The chunks in front of the data. -/
def front : List Chunk := w.before ++ w.fmtChunk :: w.between

/-- What stands behind `"WAVE"`. -/
def chunks : List UInt8 := w.front.flatMap Chunk.encode ++ w.dataChunk.encode

/-- The bytes of the file. -/
def encode : List UInt8 :=
  literal "RIFF" ++ (numberBytes 4 (4 + w.chunks.length) ++ (literal "WAVE" ++ w.chunks))

/-- The mean of the decoded values of frame `i`. -/
def mean (i : ℕ) : σ :=
  o.mean (((List.range w.channels).map fun ch => w.encoding.value o
    ((w.data.drop ((i * w.channels + ch) * w.encoding.bytes)).take w.encoding.bytes)).foldl
      o.add o.zero) w.channels

/-- The loader returns the mean of every frame and the rate, or runs out of memory. -/
def Returned : Prop :=
  let result : Checked (List σ × ℤ) :=
    pure ((List.range w.frames).map (w.mean o), (w.rate : ℤ).bmod (2 ^ 32))
  (∀ alloc, loadWav o alloc w.encode = result ∨
    (∃ n, alloc n = false) ∧ loadWav o alloc w.encode = throw .outOfMemory) ∧
    loadWav o (fun _ => true) w.encode = result

/-! ### The chunks -/

/-- The fields the loader reads. -/
def format : Fmt := ⟨w.encoding.tag, w.channels, w.rate, 8 * w.encoding.bytes⟩

/-- A number behind `k` bytes. -/
lemma field_eq (front rest : List UInt8) {s : List UInt8} {k n v : ℕ} (hs : s = front ++ (numberBytes n v ++ rest))
    (hk : front.length = k) (hv : v < 256 ^ n) : number ((s.drop k).take n) = v := by
  rw [hs, List.drop_left' hk, List.take_left' (length_numberBytes n v), number_numberBytes,
    Nat.mod_eq_of_lt hv]

lemma ofBytes_fields : Fmt.ofBytes w.fields = w.format := by
  have htag : w.encoding.tag < 256 ^ 2 := by cases w.encoding <;> decide
  have hbits : 8 * w.encoding.bytes < 256 ^ 2 := by cases w.encoding <;> decide
  have h₀ : number ((w.fields.drop 0).take 2) = w.encoding.tag :=
    field_eq [] _ rfl rfl htag
  have h₂ : number ((w.fields.drop 2).take 2) = w.channels :=
    field_eq (numberBytes 2 w.encoding.tag) _ rfl (length_numberBytes 2 _) w.channels_lt
  have h₄ : number ((w.fields.drop 4).take 4) = w.rate :=
    field_eq (numberBytes 2 w.encoding.tag ++ numberBytes 2 w.channels) _
      (by rw [fields, List.append_assoc]) (by simp) w.rate_lt
  have h₁₄ : number ((w.fields.drop 14).take 2) = 8 * w.encoding.bytes :=
    field_eq (numberBytes 2 w.encoding.tag ++ (numberBytes 2 w.channels ++
      (numberBytes 4 w.rate ++ (numberBytes 4 (w.rate * w.blockAlign) ++
        numberBytes 2 w.blockAlign)))) [] (by simp [fields]) (by simp) hbits
  rw [Fmt.ofBytes, h₂, h₄, h₁₄, ← List.drop_zero (l := w.fields), h₀]
  rfl

lemma gather_other {c : Found} (h : c.id ≠ fmtId ∧ c.id ≠ dataId) (s : Walk) :
    gather s c = some s := by
  rw [gather, if_neg h.1, if_neg h.2]

lemma gather_fmt {c : Found} (hid : c.id = fmtId) (hsize : c.size = c.body.length)
    (hlen : 16 ≤ c.body.length) (s : Walk) :
    gather s c =
      some { s with fmt := c.body.take 16 ++ s.fmt.drop 16, foundFmt := true } := by
  have hmin : min c.size 16 = 16 := by omega
  rw [gather, if_pos hid, if_neg (by omega), hmin]

lemma gather_data_chunk {c : Found} (hid : c.id = dataId) (hsize : c.size = c.body.length)
    (hne : c.body ≠ []) (s : Walk) : gather s c = some { s with data := some c.body } := by
  have hpos := List.length_pos_iff.mpr hne
  have hother : c.id ≠ fmtId := by
    rw [hid]
    decide +kernel
  rw [gather, if_neg hother, if_pos hid, if_neg (by omega)]

lemma gather_others (cs : List Chunk) (s : Walk) (hcs : ∀ c ∈ cs, c.id ≠ fmtId ∧ c.id ≠ dataId) :
    (cs.map Chunk.found).foldlM gather s = some s := by
  induction cs with
  | nil => rfl
  | cons c cs ih =>
    obtain ⟨hc, hcs⟩ := List.forall_mem_cons.mp hcs
    have hkeep : gather s c.found = some s := gather_other hc s
    rw [List.map_cons, List.foldlM_cons, hkeep]
    exact ih hcs

/-- The chunks of a file whose front is of even size. -/
lemma split_chunks (heven : ∀ c ∈ w.front, Even c.body.length) :
    split w.chunks = w.front.map Chunk.found ++ [w.dataChunk.found] := by
  have hpad : split (List.replicate (w.data.length % 2) 0) = [] :=
    split_short (by rw [List.length_replicate]; omega)
  have hlast : split w.dataChunk.encode = [w.dataChunk.found] := by
    rw [Chunk.encode, List.append_assoc,
      split_header w.dataChunk.id_length w.dataChunk.body_length, List.take_left, List.drop_left]
    exact congrArg _ hpad
  rw [chunks, split_encode heven, hlast]

/-- What is kept of the front, and then of the data. -/
lemma gather_chunks (heven : ∀ c ∈ w.front, Even c.body.length) :
    (split w.chunks).foldlM gather .start =
      gather ⟨w.fields, true, none⟩ w.dataChunk.found := by
  have hbefore := gather_others w.before .start fun c hc => w.others c (List.mem_append_left _ hc)
  have hbetween := gather_others w.between ⟨w.fields, true, none⟩
    fun c hc => w.others c (List.mem_append_right _ hc)
  have hfmt : gather .start w.fmtChunk.found = some ⟨w.fields, true, none⟩ := by
    have hlen : w.fmtChunk.body.length = 16 + w.extension.length := by
      rw [fmtChunk, List.length_append, length_fields]
    have hkept := gather_fmt (c := w.fmtChunk.found) rfl rfl
      (by change 16 ≤ w.fmtChunk.body.length; omega) .start
    have htake : w.fmtChunk.found.body.take 16 ++ Walk.start.fmt.drop 16 = w.fields := by
      change (w.fields ++ w.extension).take 16 ++ [] = w.fields
      rw [List.append_nil, List.take_left' w.length_fields]
    rw [hkept, htake]
    rfl
  have hfront : (w.front.map Chunk.found).foldlM gather .start =
      some ⟨w.fields, true, none⟩ := by
    rw [front, List.map_append, List.map_cons, List.foldlM_append, hbefore]
    change ((w.fmtChunk.found :: w.between.map Chunk.found).foldlM gather .start) = _
    rw [List.foldlM_cons, hfmt]
    exact hbetween
  rw [w.split_chunks heven, List.foldlM_append, hfront]
  change [w.dataChunk.found].foldlM gather ⟨w.fields, true, none⟩ = _
  rw [List.foldlM_cons]
  cases gather ⟨w.fields, true, none⟩ w.dataChunk.found <;> rfl

/-- What the loader keeps of a file whose front is of even size. -/
lemma gather_file (heven : ∀ c ∈ w.front, Even c.body.length) (hne : w.data ≠ []) :
    (split w.chunks).foldlM gather .start = some ⟨w.fields, true, some w.data⟩ := by
  rw [w.gather_chunks heven]
  exact gather_data_chunk (c := w.dataChunk.found) rfl rfl hne _

/-- An empty data chunk is refused. -/
lemma gather_empty (heven : ∀ c ∈ w.front, Even c.body.length) (hnil : w.data = []) :
    (split w.chunks).foldlM gather .start = none := by
  have hid : w.dataChunk.found.id = dataId := rfl
  have hother : w.dataChunk.found.id ≠ fmtId := by
    rw [hid]
    decide +kernel
  have hsize : w.dataChunk.found.size = 0 := congrArg List.length hnil
  rw [w.gather_chunks heven, gather, if_neg hother, if_pos hid, if_pos (.inl hsize)]

/-- The header of the file is passed. -/
lemma loadWav_header (alloc : Alloc) :
    loadWav o alloc w.encode = (do
      let s ← settled (walk alloc w.encode.length w.chunks .start)
      check (s.foundFmt = true ∧ s.data ≠ none) .audioFormat
      decode o alloc (.ofBytes s.fmt) (s.data.getD [])) := by
  have hriff : (literal "RIFF").length = 4 := by decide +kernel
  have hwave : (literal "WAVE").length = 4 := by decide +kernel
  have hids : w.encode.take 4 = literal "RIFF" ∧ (w.encode.drop 8).take 4 = literal "WAVE" := by
    constructor
    · exact List.take_left' hriff
    · have hdrop : w.encode.drop 8 = literal "WAVE" ++ w.chunks := by
        rw [encode, ← List.append_assoc]
        exact List.drop_left' (by rw [List.length_append, length_numberBytes, hriff])
      rw [hdrop]
      exact List.take_left' hwave
  have hrest : w.encode.drop 12 = w.chunks := by
    rw [encode, ← List.append_assoc, ← List.append_assoc]
    refine List.drop_left' ?_
    rw [List.length_append, List.length_append, length_numberBytes, hriff, hwave]
  have hlen : 12 ≤ w.encode.length := by
    rw [encode, List.length_append, List.length_append, List.length_append, length_numberBytes]
    omega
  rw [loadWav, check_eq_pure.mpr hlen, pure_bind, check_eq_pure.mpr hids, pure_bind, hrest]

lemma length_chunks_le : w.chunks.length ≤ w.encode.length := by
  rw [encode, List.length_append, List.length_append, List.length_append]
  omega

/-- The walk of the loader comes to the end of the file, unless an allocation fails. -/
lemma loadWav_encode (heven : ∀ c ∈ w.front, Even c.body.length) (hne : w.data ≠ [])
    (alloc : Alloc) :
    loadWav o alloc w.encode = decode o alloc w.format w.data ∨
      (∃ n, alloc n = false) ∧ loadWav o alloc w.encode = throw .outOfMemory := by
  have hwalk := (walk_eq alloc w.encode.length w.length_chunks_le .start).2 _
    (w.gather_file heven hne)
  rw [loadWav_header]
  rcases hwalk with hwalk | ⟨hfail, hwalk⟩
  · rw [hwalk]
    refine .inl ?_
    rw [← w.ofBytes_fields]
    rfl
  · rw [hwalk]
    exact .inr ⟨hfail, rfl⟩

/-- Without a frame, the loader returns an error. -/
lemma loadWav_empty (heven : ∀ c ∈ w.front, Even c.body.length) (hnil : w.data = [])
    (alloc : Alloc) : ∃ e, loadWav o alloc w.encode = throw e := by
  have hwalk := (walk_eq alloc w.encode.length w.length_chunks_le .start).1
  rw [loadWav_header]
  cases hrun : walk alloc w.encode.length w.chunks .start with
  | error e => exact ⟨e, rfl⟩
  | ok s =>
    have hfold := hwalk s hrun
    rw [w.gather_empty heven hnil] at hfold
    cases hfold

/-! ### The samples -/

/-- Three bytes, with the sign of the third. -/
lemma extend24_eq {n : ℕ} (hn : n < 2 ^ 24) : extend24 n = (BitVec.ofNat 24 n).toInt := by
  have hword : (BitVec.ofNat 32 n).toNat = n := by
    rw [BitVec.toNat_ofNat]
    omega
  have hbit : (BitVec.ofNat 32 n &&& 0x800000#32 ≠ 0) ↔ 2 ^ 23 ≤ n := by
    have hand : (BitVec.ofNat 32 n &&& 0x800000#32).toNat = (n.testBit 23).toNat * 2 ^ 23 := by
      rw [BitVec.toNat_and, hword]
      exact Nat.and_two_pow n 23
    rw [Ne, ← BitVec.toNat_inj, hand, Nat.testBit_eq_decide_div_mod_eq]
    by_cases h : n / 2 ^ 23 % 2 = 1
    · rw [decide_eq_true h]
      exact iff_of_true (by decide) (by omega)
    · rw [decide_eq_false h]
      exact iff_of_false (by simp) (by omega)
  have hor : (BitVec.ofNat 32 n ||| 0xFF000000#32).toNat = 255 * 2 ^ 24 + n := by
    rw [BitVec.toNat_or, hword, Nat.or_comm]
    exact (Nat.shiftLeft_add_eq_or_of_lt hn 255).symm
  rw [extend24, BitVec.toInt_eq_toNat_bmod, BitVec.toInt_eq_toNat_bmod, BitVec.toNat_ofNat]
  split_ifs with h
  · have hle := hbit.mp h
    rw [hor]
    simp only [Int.bmod]
    omega
  · have hlt := hbit.not.mp h
    rw [hword]
    simp only [Int.bmod]
    omega

lemma bytesPerSample_format : w.format.bytesPerSample = w.encoding.bytes := by
  change 8 * w.encoding.bytes / 8 = w.encoding.bytes
  omega

/-- The code decodes a sample as its encoding says. -/
lemma valueOf_eq (bytes : List UInt8) :
    valueOf o w.format bytes = w.encoding.value o (bytes.take w.encoding.bytes) := by
  have h₂₄ : number (bytes.take 3) < 2 ^ 24 := by
    have hlt := number_lt (bytes.take 3)
    have hle : (bytes.take 3).length ≤ 3 := List.length_take_le 3 bytes
    calc number (bytes.take 3) < 256 ^ (bytes.take 3).length := hlt
      _ ≤ 256 ^ 3 := Nat.pow_le_pow_right (by decide) hle
      _ = 2 ^ 24 := by norm_num
  rw [valueOf]
  change (if w.encoding.tag = 3 ∧ 8 * w.encoding.bytes = 32 then _
    else if w.encoding.tag = 1 then
      if 8 * w.encoding.bytes = 8 then _
      else if 8 * w.encoding.bytes = 16 then _
      else if 8 * w.encoding.bytes = 24 then _
      else if 8 * w.encoding.bytes = 32 then _ else _
    else _) = _
  cases w.encoding with
  | pcm8 => rfl
  | pcm16 => rfl
  | pcm24 => exact congrArg (o.scaled · (2 ^ 23)) (extend24_eq h₂₄)
  | pcm32 => rfl
  | float32 => rfl

lemma bytes_pos : 0 < w.encoding.bytes := by cases w.encoding <;> decide

lemma frames_format : w.format.frames w.data.length = w.frames := by
  have hpos := Nat.mul_pos w.channels_pos w.bytes_pos
  rw [Fmt.frames, bytesPerSample_format, w.data_length, Nat.mul_comm w.encoding.bytes]
  exact Nat.mul_div_cancel _ hpos

lemma frameValue_eq (i : ℕ) : frameValue o w.format w.data i = w.mean o i := by
  rw [frameValue, mean, bytesPerSample_format]
  simp only [valueOf_eq]
  rfl

/-- The positions of all frames fit an `int`, and so does their number. -/
def Small : Prop :=
  w.frames < 2 ^ 31 ∧ (w.frames * w.channels - 1) * w.encoding.bytes < 2 ^ 31

lemma fits_format : Fits w.format w.data.length ↔
    (w.frames < 2 ^ 31 → (w.frames * w.channels - 1) * w.encoding.bytes < 2 ^ 31) := by
  rw [Fits, frames_format, bytesPerSample_format]
  exact ⟨fun h => h.2.2, fun h => ⟨w.bytes_pos, w.channels_pos, h⟩⟩

lemma format_known : w.format.audioFormat = 1 ∨ w.format.audioFormat = 3 := by
  change w.encoding.tag = 1 ∨ w.encoding.tag = 3
  cases w.encoding <;> decide

/-- Behind the walk there is one allocation, and then the means. -/
lemma decode_file (hframes : 0 < w.frames) (hsmall : w.Small) (alloc : Alloc) :
    decode o alloc w.format w.data =
      if alloc (w.frames * 4) = true then
        pure ((List.range w.frames).map (w.mean o), (w.rate : ℤ).bmod (2 ^ 32))
      else throw .outOfMemory := by
  have hlt : w.format.frames w.data.length < 2 ^ 31 := by rw [frames_format]; exact hsmall.1
  have hfits := w.fits_format.mpr fun _ => hsmall.2
  have htotal : totalSamples w.format w.data = w.frames := by
    rw [totalSamples_eq hlt, frames_format]
  have hmul : w.format.bytesPerSample * w.format.numChannels ≠ 0 :=
    Nat.mul_ne_zero hfits.1.ne' hfits.2.1.ne'
  have hsize : ((w.frames : ℤ) * 4 % 2 ^ 64).toNat = w.frames * 4 := by
    have := hsmall.1
    omega
  have hloop : (List.range w.frames).mapM (frame o w.format w.data) =
      some ((List.range w.frames).map (w.mean o)) := by
    refine Loop.mapM_of_forall₂ (List.forall₂_map_right_iff.mpr (List.forall₂_same.mpr ?_))
    intro i hi
    rw [frame_eq o hfits hlt (by rw [frames_format]; exact List.mem_range.mp hi), frameValue_eq]
  rw [decode, check_eq_pure.mpr w.format_known, pure_bind, within_eq_pure.mpr hmul, pure_bind]
  dsimp only
  rw [htotal, hsize, vvAlloc]
  have hne : decide (w.frames * 4 ≠ 0) = true := by simpa using hframes.ne'
  rw [hne, Bool.true_and]
  by_cases hroom : alloc (w.frames * 4) = true
  · rw [check_eq_pure.mpr hroom, pure_bind, Int.toNat_natCast, hloop, if_pos hroom]
    rfl
  · rw [Fault.check, if_neg hroom, if_neg hroom]
    rfl

/-- When their number is no `int`, no frame is decoded. -/
lemma decode_many {alloc : Alloc} (h : 2 ^ 31 ≤ w.frames) {out : List σ} {r : ℤ}
    (hrun : decode o alloc w.format w.data = pure (out, r)) : out = [] := by
  have htotal : (totalSamples w.format w.data).toNat = 0 :=
    totalSamples_neg (by rw [frames_format]; exact h) w.data_lt
  rw [decode] at hrun
  obtain ⟨-, -, hrun⟩ := bind_eq_pure.mp hrun
  obtain ⟨-, -, hrun⟩ := bind_eq_pure.mp hrun
  obtain ⟨-, -, hrun⟩ := bind_eq_pure.mp hrun
  obtain ⟨out', hloop, hrun⟩ := bind_eq_pure.mp hrun
  rw [htotal, lift_eq_pure] at hloop
  obtain rfl := Option.some.inj hloop
  exact (congrArg Prod.fst (pure_inj.mp hrun)).symm

lemma data_ne_nil : w.data ≠ [] ↔ 0 < w.frames := by
  have hpos := Nat.mul_pos w.channels_pos w.bytes_pos
  rw [← List.length_pos_iff, w.data_length, Nat.mul_pos_iff_of_pos_right hpos]

/-- Where every chunk in front of the data is of even size, the loader returns the means exactly
when there is a frame and the positions fit an `int`. -/
theorem wav_content_iff (heven : ∀ c ∈ w.front, Even c.body.length) :
    w.Returned o ↔ 0 < w.frames ∧ w.Small := by
  constructor
  · rintro ⟨-, hfull⟩
    have hframes : 0 < w.frames := by
      by_contra hnone
      obtain ⟨e, he⟩ := w.loadWav_empty o heven (not_not.mp (w.data_ne_nil.not.mpr hnone))
        fun _ => true
      rw [he] at hfull
      exact throw_ne_pure hfull
    refine ⟨hframes, ?_⟩
    have hload := (w.loadWav_encode o heven (w.data_ne_nil.mpr hframes) fun _ => true).resolve_right
      fun h => nomatch h.1
    rw [hload] at hfull
    by_contra hsmall
    by_cases hlt : w.frames < 2 ^ 31
    · have hfits : ¬ Fits w.format w.data.length := fun h =>
        hsmall ⟨hlt, w.fits_format.mp h hlt⟩
      rw [decode_faults o w.format_known hfits] at hfull
      exact fault_ne_pure hfull
    · have hempty := w.decode_many o (not_lt.mp hlt) hfull
      have hlen := congrArg List.length hempty
      rw [List.length_map, List.length_range, List.length_nil] at hlen
      omega
  · rintro ⟨hframes, hsmall⟩
    have hload := w.loadWav_encode o heven (w.data_ne_nil.mpr hframes)
    constructor
    · intro alloc
      rcases hload alloc with hload | hfail
      · rw [hload, w.decode_file o hframes hsmall]
        split_ifs with hroom
        · exact .inl rfl
        · exact .inr ⟨⟨_, by simpa using hroom⟩, rfl⟩
      · exact .inr hfail
    · rw [(hload fun _ => true).resolve_right fun h => (nomatch h.1),
        w.decode_file o hframes hsmall, if_pos rfl]

end File

/-- A sample of 16 bits, behind a chunk whose body is `body`. -/
def behindList (body : List UInt8) (hbody : body.length < 2 ^ 32) : File where
  encoding := .pcm16
  channels := 1
  rate := 24000
  extension := []
  before := [⟨literal "LIST", body, by decide +kernel, hbody⟩]
  between := []
  frames := 1
  data := [0, 0]
  channels_pos := Nat.one_pos
  channels_lt := by decide
  rate_lt := by decide
  extension_lt := by decide
  others := by
    intro c hc
    obtain rfl := List.mem_singleton.mp hc
    change literal "LIST" ≠ fmtId ∧ literal "LIST" ≠ dataId
    decide +kernel
  data_length := rfl
  data_lt := by decide

/-- Two bytes in front of the format. -/
theorem wav_content_even : (behindList [0, 0] (by decide)).Returned countOps ↔
    0 < 1 ∧ (behindList [0, 0] (by decide)).Small := by
  refine File.wav_content_iff countOps _ fun c hc => ?_
  rcases List.mem_cons.mp hc with rfl | hc
  · exact even_two
  · obtain rfl := List.mem_singleton.mp hc
    exact ⟨8, rfl⟩

/-- One byte in front of the format: the walk takes its pad byte for the next chunk. -/
theorem wav_content_odd : ¬ (behindList [0] (by decide)).Returned countOps := by
  rintro ⟨-, hfull⟩
  have hrun : loadWav countOps (fun _ => true) (behindList [0] (by decide)).encode =
      throw .audioFormat := rfl
  rw [hrun] at hfull
  exact throw_ne_pure hfull

end VibeVoice.Wav
