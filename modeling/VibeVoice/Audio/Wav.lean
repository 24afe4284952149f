import VibeVoice.Lib.Fault
import VibeVoice.Lib.Riff
import VibeVoice.Model.Cjson
import VibeVoice.Status

/-!
The WAV loader: `vv_audio_load_wav` of `wav.c`.

A file is read forward: `fread` gives what is there and `fseek` leaves it out, as far as the end; a
`long` has 64 bits.
Integers of the decoding loop are those of an `int`, and one that leaves its range is a fault like
a division by zero or a read outside of the loaded bytes.  Whether an allocation of some size
succeeds is a parameter, and so is the arithmetic on samples.

* `walk`, `decode`, `loadWav`: the loop over the chunks, the loop over the samples, the function.
* `walk_eq`: the walk lays the chunks end to end.
* `wav_in_bounds_iff`: which files are read in bounds.
-/

namespace VibeVoice.Wav

open Riff Fault

/-! ### The walk over the chunks -/

/-- What the walk has found: the bytes of `fmt`, `found_fmt`, and `data_buf`. -/
structure Walk where
  fmt : List UInt8
  foundFmt : Bool
  data : Option (List UInt8)
  deriving DecidableEq

/-- `memset(&fmt, 0, sizeof(fmt))`. -/
def Walk.start : Walk := ⟨List.replicate 16 0, false, none⟩

/-- The allocations that succeed. -/
abbrev Alloc : Type := ℕ → Bool

/-- `vv_alloc(size)`: whether it returns a block. -/
def vvAlloc (alloc : Alloc) (size : ℕ) : Bool := size ≠ 0 && alloc size

/-- `"fmt "` -/
def fmtId : List UInt8 := literal "fmt "

/-- `"data"` -/
def dataId : List UInt8 := literal "data"

/-- `while (!feof(f))`: the chunks from here on. -/
def walk (alloc : Alloc) : ℕ → List UInt8 → Walk → Except Status Walk
  | 0, _, s => .ok s
  | fuel + 1, f, s =>
    if f.length < 8 then .ok s
    else
      let id := f.take 4
      let size := number ((f.drop 4).take 4)
      let f := f.drop 8
      if id = fmtId then
        let toRead := min size 16
        if toRead = 0 ∨ f.length < toRead then .error .audioFormat
        else
          walk alloc fuel ((f.drop toRead).drop (size - toRead))
            { s with fmt := f.take toRead ++ s.fmt.drop toRead, foundFmt := true }
      else if id = dataId then
        if vvAlloc alloc size = false then .error .outOfMemory
        else if f.length < size then .error .io
        else walk alloc fuel (f.drop size) { s with data := some (f.take size) }
      else walk alloc fuel (f.drop size) s

/-! ### The samples -/

/-- `wav_fmt_t` -/
structure Fmt where
  audioFormat : ℕ
  numChannels : ℕ
  sampleRate : ℕ
  bitsPerSample : ℕ
  deriving DecidableEq

/-- The fields of the sixteen bytes of `fmt`; the two the loader does not read are left out. -/
def Fmt.ofBytes (b : List UInt8) : Fmt where
  audioFormat := number (b.take 2)
  numChannels := number ((b.drop 2).take 2)
  sampleRate := number ((b.drop 4).take 4)
  bitsPerSample := number ((b.drop 14).take 2)

/-- `bytes_per_sample` -/
def Fmt.bytesPerSample (f : Fmt) : ℕ := f.bitsPerSample / 8

/-- The arithmetic on samples. -/
structure Ops (σ : Type) where
  /-- `0.0f` -/
  zero : σ
  /-- `val += sample` -/
  add : σ → σ → σ
  /-- `val / (float)n_channels` -/
  mean : σ → ℕ → σ
  /-- `((float)b - 128.0f) / 128.0f` -/
  byte : UInt8 → σ
  /-- `(float)v / d` -/
  scaled : ℤ → ℤ → σ
  /-- The `float` of four bytes. -/
  raw : List UInt8 → σ

variable {σ : Type} (o : Ops σ)

/-- An `int`, unless it overflows. -/
def cInt (x : ℤ) : Option ℤ := if -2 ^ 31 ≤ x ∧ x < 2 ^ 31 then some x else none

/-- `(i * n_channels + ch) * bytes_per_sample`, as an `int`. -/
def offset (f : Fmt) (i ch : ℕ) : Option ℤ :=
  (cInt (i * f.numChannels)).bind fun x =>
    (cInt (x + ch)).bind fun y => cInt (y * f.bytesPerSample)

/-- `n` bytes at `data_buf + offset`. -/
def bytesAt (data : List UInt8) (offset : ℤ) (n : ℕ) : Option (List UInt8) :=
  if 0 ≤ offset ∧ offset + n ≤ data.length then some ((data.drop offset.toNat).take n) else none

/-- The sign extension of three bytes. -/
def extend24 (n : ℕ) : ℤ :=
  let s32 := BitVec.ofNat 32 n
  (if s32 &&& 0x800000#32 ≠ 0 then s32 ||| 0xFF000000#32 else s32).toInt

/-- `sample` -/
def sampleAt (f : Fmt) (data : List UInt8) (offset : ℤ) : Option σ :=
  if f.audioFormat = 3 ∧ f.bitsPerSample = 32 then (bytesAt data offset 4).map o.raw
  else if f.audioFormat = 1 then
    if f.bitsPerSample = 8 then (bytesAt data offset 1).map fun b => o.byte (b.headD 0)
    else if f.bitsPerSample = 16 then
      (bytesAt data offset 2).map fun b => o.scaled (BitVec.ofNat 16 (number b)).toInt (2 ^ 15)
    else if f.bitsPerSample = 24 then
      (bytesAt data offset 3).map fun b => o.scaled (extend24 (number b)) (2 ^ 23)
    else if f.bitsPerSample = 32 then
      (bytesAt data offset 4).map fun b => o.scaled (BitVec.ofNat 32 (number b)).toInt (2 ^ 31)
    else some o.zero
  else some o.zero

/-- `out[i]` -/
def frame (f : Fmt) (data : List UInt8) (i : ℕ) : Option σ :=
  ((List.range f.numChannels).foldlM (fun val ch =>
    ((offset f i ch).bind (sampleAt o f data)).map (o.add val)) o.zero).map fun val =>
      o.mean val f.numChannels

/-- `total_samples`, as an `int`. -/
def totalSamples (f : Fmt) (data : List UInt8) : ℤ :=
  ((data.length / (f.bytesPerSample * f.numChannels) : ℕ) : ℤ).bmod (2 ^ 32)

/-- The function behind the walk. -/
def decode (alloc : Alloc) (f : Fmt) (data : List UInt8) : Checked (List σ × ℤ) := do
  check (f.audioFormat = 1 ∨ f.audioFormat = 3) .audioFormat
  within (f.bytesPerSample * f.numChannels ≠ 0)
  let total := totalSamples f data
  check (vvAlloc alloc (total * 4 % 2 ^ 64).toNat) .outOfMemory
  let out ← ExceptT.lift ((List.range total.toNat).mapM (frame o f data))
  pure (out, (f.sampleRate : ℤ).bmod (2 ^ 32))

/-- `vv_audio_load_wav`, on the bytes of the file: the samples and their rate. -/
def loadWav (alloc : Alloc) (file : List UInt8) : Checked (List σ × ℤ) := do
  check (12 ≤ file.length) .audioFormat
  check (file.take 4 = literal "RIFF" ∧ (file.drop 8).take 4 = literal "WAVE") .audioFormat
  let s ← settled (walk alloc file.length (file.drop 12) .start)
  check (s.foundFmt = true ∧ s.data ≠ none) .audioFormat
  decode o alloc (.ofBytes s.fmt) (s.data.getD [])

/-! ### The chunks end to end -/

/-- What a chunk adds: the fields of a `fmt` chunk as far as it goes, or the bytes of a `data`
chunk; `none` for one that is empty or cut short. -/
def gather (s : Walk) (c : Found) : Option Walk :=
  if c.id = fmtId then
    if c.size = 0 ∨ c.body.length < min c.size 16 then none
    else
      some { s with fmt := c.body.take (min c.size 16) ++ s.fmt.drop (min c.size 16), foundFmt := true }
  else if c.id = dataId then
    if c.size = 0 ∨ c.body.length < c.size then none else some { s with data := some c.body }
  else some s

/-- What a file holds when its chunks lie end to end: the fields of its format and the bytes of its
data. -/
def Holds (file : List UInt8) (f : Fmt) (data : List UInt8) : Prop :=
  12 ≤ file.length ∧ (file.take 4 = literal "RIFF" ∧ (file.drop 8).take 4 = literal "WAVE") ∧
    ∃ fmt, (split (file.drop 12)).foldlM gather .start = some ⟨fmt, true, some data⟩ ∧
      f = .ofBytes fmt ∧ (f.audioFormat = 1 ∨ f.audioFormat = 3)

lemma split_long {f : List UInt8} (h : ¬ f.length < 8) :
    split f = ⟨f.take 4, number ((f.drop 4).take 4),
        (f.drop 8).take (number ((f.drop 4).take 4))⟩ ::
      split ((f.drop 8).drop (number ((f.drop 4).take 4))) := by
  rw [split, if_neg h]

/-- One turn of the walk: what it keeps of a chunk, or why it ends. -/
lemma walk_succ (alloc : Alloc) (fuel : ℕ) {f : List UInt8} (h : ¬ f.length < 8) (s : Walk) :
    ∃ c, (split f).head? = some c ∧ split f = c :: split ((f.drop 8).drop c.size) ∧
      (∀ s₁, gather s c = some s₁ →
        walk alloc (fuel + 1) f s = walk alloc fuel ((f.drop 8).drop c.size) s₁ ∨
          (∃ n, alloc n = false) ∧ walk alloc (fuel + 1) f s = .error .outOfMemory) ∧
      (gather s c = none → ∃ e, walk alloc (fuel + 1) f s = .error e) := by
  refine ⟨_, by rw [split_long h]; rfl, split_long h, ?_⟩
  set size := number ((f.drop 4).take 4) with hsize
  set rest := f.drop 8 with hrest
  have hlen : (rest.take size).length = min size rest.length := List.length_take
  rw [walk, if_neg h]
  dsimp only
  rw [← hsize, ← hrest, gather]
  dsimp only
  by_cases hfmt : f.take 4 = fmtId
  · have hcut : (min size 16 = 0 ∨ rest.length < min size 16) ↔
        (size = 0 ∨ (rest.take size).length < min size 16) := by omega
    have hskip : (rest.drop (min size 16)).drop (size - min size 16) = rest.drop size := by
      rw [List.drop_drop]
      congr 1
      omega
    have hread : (rest.take size).take (min size 16) = rest.take (min size 16) := by
      rw [List.take_take]
      congr 1
      omega
    simp only [if_pos hfmt, hcut, hskip, hread]
    by_cases hbad : size = 0 ∨ (rest.take size).length < min size 16
    · simp only [if_pos hbad]
      exact ⟨fun s₁ h₁ => (nomatch h₁), fun _ => ⟨_, rfl⟩⟩
    · simp only [if_neg hbad]
      exact ⟨fun s₁ h₁ => .inl (by rw [Option.some.inj h₁]), fun h₁ => nomatch h₁⟩
  simp only [if_neg hfmt]
  by_cases hdata : f.take 4 = dataId
  · have hcut : (rest.take size).length < size ↔ rest.length < size := by omega
    rw [if_pos hdata, if_pos hdata]
    by_cases hzero : size = 0
    · have hnull : vvAlloc alloc size = false := by simp [vvAlloc, hzero]
      rw [if_pos hnull, if_pos (.inl hzero)]
      exact ⟨fun s₁ h₁ => (nomatch h₁), fun _ => ⟨_, rfl⟩⟩
    by_cases hroom : alloc size = true
    · have hblock : ¬ vvAlloc alloc size = false := by simp [vvAlloc, hzero, hroom]
      rw [if_neg hblock]
      by_cases hbad : rest.length < size
      · rw [if_pos hbad, if_pos (.inr (hcut.mpr hbad))]
        exact ⟨fun s₁ h₁ => (nomatch h₁), fun _ => ⟨_, rfl⟩⟩
      · rw [if_neg hbad, if_neg (not_or.mpr ⟨hzero, hcut.not.mpr hbad⟩)]
        exact ⟨fun s₁ h₁ => .inl (by rw [Option.some.inj h₁]), fun h₁ => nomatch h₁⟩
    · have hfail := Bool.not_eq_true _ ▸ hroom
      have hnull : vvAlloc alloc size = false := by simp [vvAlloc, hfail]
      rw [if_pos hnull]
      exact ⟨fun s₁ _ => .inr ⟨⟨size, hfail⟩, rfl⟩, fun _ => ⟨_, rfl⟩⟩
  · simp only [if_neg hdata]
    exact ⟨fun s₁ h₁ => .inl (by rw [Option.some.inj h₁]), fun h₁ => nomatch h₁⟩

/-- The walk lays the chunks end to end, or ends with an error. -/
theorem walk_eq (alloc : Alloc) (fuel : ℕ) {f : List UInt8} (hfuel : f.length ≤ fuel) (s : Walk) :
    (∀ s', walk alloc fuel f s = .ok s' → (split f).foldlM gather s = some s') ∧
      ∀ s', (split f).foldlM gather s = some s' → walk alloc fuel f s = .ok s' ∨
        (∃ n, alloc n = false) ∧ walk alloc fuel f s = .error .outOfMemory := by
  have hend : ∀ s s' : Walk, (Except.ok s : Except Status Walk) = .ok s' ↔ some s = some s' :=
    fun s s' => by simp
  induction fuel generalizing f s with
  | zero =>
    rw [split_short (by omega)]
    exact ⟨fun s' => (hend s s').mp, fun s' h => .inl ((hend s s').mpr h)⟩
  | succ fuel ih =>
    by_cases hshort : f.length < 8
    · rw [split_short hshort, walk, if_pos hshort]
      exact ⟨fun s' => (hend s s').mp, fun s' h => .inl ((hend s s').mpr h)⟩
    obtain ⟨c, -, hsplit, hkeeps, hends⟩ := walk_succ alloc fuel hshort s
    have hrest : ((f.drop 8).drop c.size).length ≤ fuel := by
      rw [List.length_drop, List.length_drop]
      omega
    rw [hsplit, List.foldlM_cons]
    cases hgather : gather s c with
    | none =>
      obtain ⟨e, he⟩ := hends hgather
      rw [he]
      exact ⟨fun s' h => (nomatch h), fun s' h => (nomatch h)⟩
    | some s₁ =>
      rcases hkeeps s₁ hgather with hgo | hfail
      · rw [hgo]
        exact ih hrest s₁
      · exact ⟨fun s' h => (nomatch hfail.2.symm.trans h), fun s' _ => .inr hfail⟩

/-- No chunk is as long as 4 GiB. -/
lemma length_lt_of_mem_split {f : List UInt8} {c : Found} (hc : c ∈ split f) :
    c.body.length < 2 ^ 32 := by
  induction hn : f.length using Nat.strong_induction_on generalizing f with
  | _ n ih =>
    by_cases hshort : f.length < 8
    · rw [split_short hshort] at hc
      cases hc
    rw [split_long hshort] at hc
    rcases List.mem_cons.mp hc with rfl | hrest
    · have hlt := number_lt ((f.drop 4).take 4)
      have hfour : ((f.drop 4).take 4).length = 4 := by
        rw [List.length_take, List.length_drop]
        omega
      rw [hfour] at hlt
      dsimp only
      rw [List.length_take]
      omega
    · exact ih _ (by rw [← hn]; simp only [List.length_drop]; omega) hrest rfl

lemma gather_data {s s' : Walk} {c : Found} (h : gather s c = some s') :
    s'.data = s.data ∨ s'.data = some c.body := by
  rw [gather] at h
  split_ifs at h
  · exact .inl (congrArg Walk.data (Option.some.inj h)).symm
  · exact .inr (congrArg Walk.data (Option.some.inj h)).symm
  · exact .inl (congrArg Walk.data (Option.some.inj h)).symm

/-- What is gathered is one of the chunks. -/
lemma foldlM_gather_data {cs : List Found} {s s' : Walk} (h : cs.foldlM gather s = some s')
    (hcs : ∀ c ∈ cs, c.body.length < 2 ^ 32) (hs : ∀ d ∈ s.data, d.length < 2 ^ 32) :
    ∀ d ∈ s'.data, d.length < 2 ^ 32 := by
  induction cs generalizing s with
  | nil =>
    obtain rfl := Option.some.inj h
    exact hs
  | cons c cs ih =>
    rw [List.foldlM_cons] at h
    obtain ⟨s₁, h₁, hrest⟩ := Option.bind_eq_some_iff.mp h
    obtain ⟨hc, hcs⟩ := List.forall_mem_cons.mp hcs
    refine ih hrest hcs fun d hd => ?_
    rcases gather_data h₁ with hkept | hnew
    · exact hs d (hkept ▸ hd)
    · rw [hnew] at hd
      obtain rfl := Option.some.inj hd
      exact hc

lemma Holds.length_lt {file : List UInt8} {f : Fmt} {data : List UInt8}
    (h : Holds file f data) : data.length < 2 ^ 32 := by
  obtain ⟨-, -, fmt, hfold, -⟩ := h
  exact foldlM_gather_data hfold (fun c => length_lt_of_mem_split) (fun d hd => nomatch hd) data rfl

/-! ### The samples in bounds -/

lemma cInt_eq {x : ℕ} (h : x < 2 ^ 31) : cInt x = some (x : ℤ) := if_pos (by omega)

lemma cInt_none {x : ℕ} (h : 2 ^ 31 ≤ x) : cInt x = none := if_neg (by omega)

/-- The position of a sample fits an `int`, or its computation overflows. -/
lemma offset_eq (f : Fmt) (hb : 0 < f.bytesPerSample) (i ch : ℕ) :
    offset f i ch =
      if (i * f.numChannels + ch) * f.bytesPerSample < 2 ^ 31 then
        some (((i * f.numChannels + ch) * f.bytesPerSample : ℕ) : ℤ)
      else none := by
  have hle : i * f.numChannels + ch ≤ (i * f.numChannels + ch) * f.bytesPerSample :=
    Nat.le_mul_of_pos_right _ hb
  rw [offset, ← Nat.cast_mul]
  by_cases hx : i * f.numChannels < 2 ^ 31
  · rw [cInt_eq hx, Option.bind_some, ← Nat.cast_add]
    by_cases hy : i * f.numChannels + ch < 2 ^ 31
    · rw [cInt_eq hy, Option.bind_some, ← Nat.cast_mul]
      split_ifs with hz
      · exact cInt_eq hz
      · exact cInt_none (by omega)
    · rw [cInt_none (by omega), if_neg (by omega)]
      rfl
  · rw [cInt_none (by omega), if_neg (by omega)]
    rfl

lemma bytesAt_eq {data : List UInt8} {k n : ℕ} (h : k + n ≤ data.length) :
    bytesAt data k n = some ((data.drop k).take n) := by
  rw [bytesAt, if_pos (by omega), Int.toNat_natCast]

/-- The sample at the front of some bytes. -/
def valueOf (f : Fmt) (bytes : List UInt8) : σ :=
  if f.audioFormat = 3 ∧ f.bitsPerSample = 32 then o.raw (bytes.take 4)
  else if f.audioFormat = 1 then
    if f.bitsPerSample = 8 then o.byte ((bytes.take 1).headD 0)
    else if f.bitsPerSample = 16 then
      o.scaled (BitVec.ofNat 16 (number (bytes.take 2))).toInt (2 ^ 15)
    else if f.bitsPerSample = 24 then o.scaled (extend24 (number (bytes.take 3))) (2 ^ 23)
    else if f.bitsPerSample = 32 then
      o.scaled (BitVec.ofNat 32 (number (bytes.take 4))).toInt (2 ^ 31)
    else o.zero
  else o.zero

/-- A sample inside of the data is read. -/
lemma sampleAt_eq (f : Fmt) {data : List UInt8} {k : ℕ}
    (h : k + f.bytesPerSample ≤ data.length) :
    sampleAt o f data k = some (valueOf o f (data.drop k)) := by
  have hread : ∀ n, f.bitsPerSample = 8 * n → bytesAt data k n = some ((data.drop k).take n) := by
    intro n hn
    rw [Fmt.bytesPerSample, hn, Nat.mul_div_cancel_left n (by decide)] at h
    exact bytesAt_eq h
  rw [sampleAt, valueOf]
  split_ifs with hfloat hpcm h8 h16 h24 h32
  · rw [hread 4 hfloat.2, Option.map_some]
  · rw [hread 1 h8, Option.map_some]
  · rw [hread 2 h16, Option.map_some]
  · rw [hread 3 h24, Option.map_some]
  · rw [hread 4 h32, Option.map_some]
  · rfl
  · rfl

/-- The number of frames in `n` bytes. -/
def Fmt.frames (f : Fmt) (n : ℕ) : ℕ := n / (f.bytesPerSample * f.numChannels)

/-- The mean of the samples of a frame. -/
def frameValue (f : Fmt) (data : List UInt8) (i : ℕ) : σ :=
  o.mean (((List.range f.numChannels).map fun ch =>
    valueOf o f (data.drop ((i * f.numChannels + ch) * f.bytesPerSample))).foldl o.add o.zero)
    f.numChannels

/-- There are samples, and the positions of all frames fit an `int`, when their number does. -/
def Fits (f : Fmt) (n : ℕ) : Prop :=
  0 < f.bytesPerSample ∧ 0 < f.numChannels ∧
    (f.frames n < 2 ^ 31 → (f.frames n * f.numChannels - 1) * f.bytesPerSample < 2 ^ 31)

/-- A frame is read in bounds. -/
lemma frame_eq {f : Fmt} {data : List UInt8} (hfits : Fits f data.length)
    (hframes : f.frames data.length < 2 ^ 31) {i : ℕ} (hi : i < f.frames data.length) :
    frame o f data i = some (frameValue o f data i) := by
  obtain ⟨hb, hc, hlast⟩ := hfits
  have hlast := hlast hframes
  have hsample : ∀ ch < f.numChannels,
      (offset f i ch).bind (sampleAt o f data) =
        some (valueOf o f (data.drop ((i * f.numChannels + ch) * f.bytesPerSample))) := by
    intro ch hch
    have hindex : i * f.numChannels + ch + 1 ≤ f.frames data.length * f.numChannels := by
      calc i * f.numChannels + ch + 1 ≤ (i + 1) * f.numChannels := by rw [Nat.succ_mul]; omega
        _ ≤ f.frames data.length * f.numChannels := Nat.mul_le_mul_right _ hi
    have hsmall : (i * f.numChannels + ch) * f.bytesPerSample < 2 ^ 31 :=
      (Nat.mul_le_mul_right _ (by omega)).trans_lt hlast
    have hinside : (i * f.numChannels + ch) * f.bytesPerSample + f.bytesPerSample ≤
        data.length := by
      calc (i * f.numChannels + ch) * f.bytesPerSample + f.bytesPerSample =
            (i * f.numChannels + ch + 1) * f.bytesPerSample := by rw [Nat.succ_mul]
        _ ≤ f.frames data.length * f.numChannels * f.bytesPerSample :=
            Nat.mul_le_mul_right _ hindex
        _ = f.frames data.length * (f.bytesPerSample * f.numChannels) := by
            rw [Nat.mul_assoc, Nat.mul_comm f.numChannels]
        _ ≤ data.length := Nat.div_mul_le_self _ _
    rw [offset_eq f hb, if_pos hsmall, Option.bind_some, sampleAt_eq o f hinside]
  have hsum : ∀ (chs : List ℕ), (∀ ch ∈ chs, ch < f.numChannels) → ∀ val : σ,
      chs.foldlM (fun val ch => ((offset f i ch).bind (sampleAt o f data)).map (o.add val)) val =
        some ((chs.map fun ch =>
          valueOf o f (data.drop ((i * f.numChannels + ch) * f.bytesPerSample))).foldl
            o.add val) := by
    intro chs
    induction chs with
    | nil => exact fun _ _ => rfl
    | cons ch chs ih =>
      intro hchs val
      obtain ⟨hch, hchs⟩ := List.forall_mem_cons.mp hchs
      rw [List.foldlM_cons, hsample ch hch]
      exact ih hchs _
  rw [frame, hsum _ (fun ch hch => List.mem_range.mp hch), Option.map_some]
  rfl

lemma bmod_small {n : ℕ} (h : n < 2 ^ 31) : (n : ℤ).bmod (2 ^ 32) = n := by
  simp only [Int.bmod]
  omega

lemma bmod_large {n : ℕ} (h : 2 ^ 31 ≤ n) (hlt : n < 2 ^ 32) : (n : ℤ).bmod (2 ^ 32) < 0 := by
  simp only [Int.bmod]
  omega

lemma totalSamples_eq {f : Fmt} {data : List UInt8} (h : f.frames data.length < 2 ^ 31) :
    totalSamples f data = f.frames data.length := bmod_small h

lemma totalSamples_neg {f : Fmt} {data : List UInt8} (h : 2 ^ 31 ≤ f.frames data.length)
    (hlen : data.length < 2 ^ 32) : (totalSamples f data).toNat = 0 :=
  Int.toNat_of_nonpos (bmod_large h (lt_of_le_of_lt (Nat.div_le_self _ _) hlen)).le

/-- Samples that fit are read in bounds, whatever the allocations do. -/
lemma decode_safe {f : Fmt} {data : List UInt8} (hlen : data.length < 2 ^ 32)
    (hfits : Fits f data.length) (alloc : Alloc) : Safe (decode o alloc f data) fun _ => True := by
  have hb := hfits.1
  have hc := hfits.2.1
  refine Safe.check.bind fun _ _ => (Safe.within (Nat.mul_ne_zero hb.ne' hc.ne')).bind
    fun _ _ => Safe.check.bind fun _ _ => (Safe.mapM fun i hi => ?_).bind
      fun _ _ => Safe.pure trivial
  have hi := List.mem_range.mp hi
  by_cases hframes : f.frames data.length < 2 ^ 31
  · rw [totalSamples_eq hframes, Int.toNat_natCast] at hi
    rw [frame_eq o hfits hframes hi]
    rfl
  · rw [totalSamples_neg (not_lt.mp hframes) hlen] at hi
    cases hi

/-- The position of the last sample overflows. -/
lemma frame_none {f : Fmt} (data : List UInt8) (hb : 0 < f.bytesPerSample)
    (hc : 0 < f.numChannels) {n : ℕ}
    (hlast : 2 ^ 31 ≤ ((n + 1) * f.numChannels - 1) * f.bytesPerSample) :
    frame o f data n = none := by
  have hindex : n * f.numChannels + (f.numChannels - 1) = (n + 1) * f.numChannels - 1 := by
    rw [Nat.succ_mul]
    omega
  have hoffset : offset f n (f.numChannels - 1) = none := by
    rw [offset_eq f hb, hindex, if_neg (not_lt.mpr hlast)]
  have hmem : f.numChannels - 1 ∈ List.range f.numChannels := List.mem_range.mpr (by omega)
  have hloop := Loop.foldlM_eq_none hmem
    (f := fun val ch => ((offset f n ch).bind (sampleAt o f data)).map (o.add val))
    (fun val => by rw [hoffset]; rfl) o.zero
  rw [frame, hloop]
  rfl

/-- Where the samples do not fit, the decoding faults. -/
lemma decode_faults {f : Fmt} {data : List UInt8} (hformat : f.audioFormat = 1 ∨ f.audioFormat = 3)
    (hfits : ¬ Fits f data.length) : decode o (fun _ => true) f data = ExceptT.mk none := by
  rw [decode, check_eq_pure.mpr hformat, pure_bind]
  by_cases hzero : f.bytesPerSample * f.numChannels ≠ 0
  · have hb := Nat.pos_of_ne_zero (left_ne_zero_of_mul hzero)
    have hc := Nat.pos_of_ne_zero (right_ne_zero_of_mul hzero)
    obtain ⟨hframes, hlast⟩ : f.frames data.length < 2 ^ 31 ∧
        2 ^ 31 ≤ (f.frames data.length * f.numChannels - 1) * f.bytesPerSample := by
      by_contra hnot
      exact hfits ⟨hb, hc, fun h => not_le.mp fun h' => hnot ⟨h, h'⟩⟩
    obtain ⟨n, hn⟩ : ∃ n, f.frames data.length = n + 1 := by
      refine Nat.exists_eq_succ_of_ne_zero fun h => ?_
      rw [h, Nat.zero_mul, Nat.zero_sub, Nat.zero_mul] at hlast
      omega
    have htotal := totalSamples_eq hframes
    have hroom : vvAlloc (fun _ => true) (totalSamples f data * 4 % 2 ^ 64).toNat = true := by
      rw [htotal, hn, vvAlloc, Bool.and_true, decide_eq_true_eq]
      rw [hn] at hframes
      omega
    have hloop : (List.range (totalSamples f data).toNat).mapM (frame o f data) = none := by
      rw [htotal, Int.toNat_natCast, hn]
      rw [hn] at hlast
      exact Loop.mapM_eq_none (List.mem_range.mpr (Nat.lt_succ_self n))
        (frame_none o data hb hc hlast)
    rw [within_eq_pure.mpr hzero, pure_bind]
    dsimp only
    rw [check_eq_pure.mpr hroom, pure_bind, hloop]
    rfl
  · rw [within, if_neg hzero]
    rfl

/-- No file makes the loader divide by zero or read outside of the bytes it loaded, except one that
holds a format and data whose samples do not fit. -/
theorem wav_in_bounds_iff (file : List UInt8) :
    (∀ alloc, loadWav o alloc file ≠ ExceptT.mk none) ↔
      ∀ f data, Holds file f data → Fits f data.length := by
  constructor
  · rintro h f data ⟨hlen, hids, fmt, hfold, rfl, hformat⟩
    by_contra hfits
    refine h (fun _ => true) ?_
    have hwalk := ((walk_eq (fun _ => true) file.length (f := file.drop 12)
      (by rw [List.length_drop]; omega) .start).2 _ hfold).resolve_right fun h => nomatch h.1
    rw [loadWav, check_eq_pure.mpr hlen, pure_bind, check_eq_pure.mpr hids, pure_bind, hwalk]
    exact decode_faults o hformat hfits
  · intro h alloc
    suffices hsafe : Safe (loadWav o alloc file) fun _ => True from hsafe.runs
    refine Safe.check.bind fun _ hlen => Safe.check.bind fun _ hids =>
      (Safe.settled (P := fun s => (split (file.drop 12)).foldlM gather .start = some s)
        fun s hs => ?_).bind fun s hs => Safe.check.bind fun _ hfound => ?_
    · exact (walk_eq alloc file.length (f := file.drop 12)
        (by rw [List.length_drop]; omega) .start).1 s hs
    obtain ⟨data, hdata⟩ := Option.ne_none_iff_exists'.mp hfound.2
    by_cases hformat : (Fmt.ofBytes s.fmt).audioFormat = 1 ∨ (Fmt.ofBytes s.fmt).audioFormat = 3
    · have hholds : Holds file (.ofBytes s.fmt) data :=
        ⟨hlen, hids, s.fmt, by rw [hs, ← hfound.1, ← hdata], rfl, hformat⟩
      rw [hdata, Option.getD_some]
      exact decode_safe o hholds.length_lt (h _ _ hholds) alloc
    · rw [decode, Fault.check, if_neg hformat]
      exact Safe.throw

/-- Samples that are only counted. -/
def countOps : Ops ℕ where
  zero := 0
  add := (· + ·)
  mean := (· / ·)
  byte _ := 1
  scaled _ _ := 1
  raw _ := 1

/-- A file of one sample of 16 bits in no channel. -/
def noChannels : List UInt8 :=
  literal "RIFF" ++ numberBytes 4 38 ++ literal "WAVEfmt " ++ numberBytes 4 16 ++
    numberBytes 2 1 ++ numberBytes 2 0 ++ numberBytes 4 24000 ++ numberBytes 4 48000 ++
    numberBytes 2 2 ++ numberBytes 2 16 ++ literal "data" ++ numberBytes 4 2 ++ [0, 0]

/-- The loader divides by the number of channels. -/
theorem loadWav_noChannels :
    (loadWav countOps (fun _ => true) noChannels).run = none := by
  rfl

end VibeVoice.Wav
