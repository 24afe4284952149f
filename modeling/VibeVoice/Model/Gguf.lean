import Mathlib.Algebra.BigOperators.Group.List.Basic
import Mathlib.Data.Nat.Digits.Defs
import VibeVoice.Lib.Loop
import VibeVoice.Lib.Reader
import VibeVoice.Model.Cjson
import VibeVoice.Status

/-!
The GGUF reader of `gguf.c`.

Positions, and numbers read from the file, are natural numbers; a product that the code takes in
`size_t` or `int64_t` wraps here as it does there.  A pointer into the mapping is an offset from
its base, a string is what its copy in the arena reads as, and every allocation succeeds.

* `readHeader`, `parse`: the metadata and the tensor table, then where the data lies.
* `spans_of_nbytes_ne_zero`: what `vv_ggml_nbytes` answers where it does not refuse the shape.
* `tensor_extents`: the range of a tensor of a file that opens.
-/

namespace VibeVoice.Gguf

/-! ### Types -/

/-- `VV_GGUF_*`: the types of metadata values. -/
inductive ValueType
  | u8 | i8 | u16 | i16 | u32 | i32 | f32 | bool | string | array | u64 | i64 | f64
  deriving DecidableEq, Repr

/-- The number of a value type in a file. -/
def ValueType.code : ValueType → ℕ
  | .u8 => 0
  | .i8 => 1
  | .u16 => 2
  | .i16 => 3
  | .u32 => 4
  | .i32 => 5
  | .f32 => 6
  | .bool => 7
  | .string => 8
  | .array => 9
  | .u64 => 10
  | .i64 => 11
  | .f64 => 12

/-- The value type a number stands for. -/
def valueType (code : ℕ) : Option ValueType :=
  [.u8, .i8, .u16, .i16, .u32, .i32, .f32, .bool, .string, .array, .u64, .i64, .f64].find?
    fun t : ValueType => t.code = code

/-- `scalar_size`. -/
def ValueType.scalarSize : ValueType → ℕ
  | .u8 | .i8 | .bool => 1
  | .u16 | .i16 => 2
  | .u32 | .i32 | .f32 => 4
  | .u64 | .i64 | .f64 => 8
  | .string | .array => 0

/-- `scalar_size` of a number from the file. -/
def scalarSize (code : ℕ) : ℕ := ((valueType code).map ValueType.scalarSize).getD 0

/-- `ggml_traits_t`. -/
structure Traits where
  type : ℕ
  name : String
  blck : ℕ
  size : ℕ
  deriving DecidableEq, Repr

/-- `VV_GGML_I2_S`. -/
def i2s : ℕ := 36

/-- `VV_GGML_I8_S`. -/
def i8s : ℕ := 37

/-- `k_traits`. -/
def kTraits : List Traits :=
  [⟨0, "f32", 1, 4⟩, ⟨1, "f16", 1, 2⟩, ⟨2, "q4_0", 32, 18⟩, ⟨3, "q4_1", 32, 20⟩,
    ⟨6, "q5_0", 32, 22⟩, ⟨7, "q5_1", 32, 24⟩, ⟨8, "q8_0", 32, 34⟩, ⟨9, "q8_1", 32, 36⟩,
    ⟨10, "q2_K", 256, 84⟩, ⟨11, "q3_K", 256, 110⟩, ⟨12, "q4_K", 256, 144⟩,
    ⟨13, "q5_K", 256, 176⟩, ⟨14, "q6_K", 256, 210⟩, ⟨15, "q8_K", 256, 292⟩,
    ⟨24, "i8", 1, 1⟩, ⟨25, "i16", 1, 2⟩, ⟨26, "i32", 1, 4⟩, ⟨30, "bf16", 1, 2⟩,
    ⟨i2s, "i2_s", 1, 1⟩, ⟨i8s, "i8_s", 1, 1⟩]

/-- `traits`. -/
def traits (type : ℕ) : Option Traits := kTraits.find? fun k => k.type = type

/-- The product of the dimensions, `none` where it would pass `2 ^ 62`. -/
def product (ne : List ℤ) : Option ℕ :=
  ne.foldlM (fun n d => if d ≠ 0 ∧ 2 ^ 62 / d.toNat < n then none else some (n * d.toNat)) 1

/-- `vv_ggml_nbytes`, from the product `n` of the dimensions on. -/
def bytesOf (t : Traits) (n : ℕ) : ℕ :=
  -- four codes a byte, then the scale padded to 32 bytes
  if t.type = i2s then if n % 4 ≠ 0 then 0 else n / 4 + 32
  else if t.type = i8s then n + 32
  else n / t.blck * t.size % 2 ^ 64

/-- `vv_ggml_nbytes`. -/
def ggmlNbytes (type : ℕ) (ne : List ℤ) : ℕ :=
  match traits type with
  | none => 0
  | some t =>
    if ne.any (· < 0) then 0
    else if ne.headD 1 % t.blck ≠ 0 then 0
    else ((product ne).map (bytesOf t)).getD 0

/-! ### What a file holds -/

/-- The fields of `vv_gguf_kv_t` that its type selects; a float is its bits. -/
inductive Value
  | u (n : ℕ)
  | i (n : ℤ)
  | f32 (bits : ℕ)
  | f64 (bits : ℕ)
  | str (s : List UInt8)
  | arr (elemType n data : ℕ)
  deriving DecidableEq, Repr

/-- `vv_gguf_kv_t`. -/
structure Kv where
  key : List UInt8
  type : ValueType
  value : Value
  deriving DecidableEq, Repr

/-- `vv_gguf_tensor_t`; `ne` has four dimensions. -/
structure Tensor where
  name : List UInt8
  nDims : ℕ
  ne : List ℤ
  type : ℕ
  offset : ℕ
  nbytes : ℕ
  data : Option ℕ
  deriving DecidableEq, Repr

/-- `vv_gguf_nelements`: a product of `int64_t` numbers. -/
def nelements (t : Tensor) : ℤ := t.ne.prod.bmod (2 ^ 64)

/-- What stands in front of the data. -/
structure Header where
  version : ℕ
  kvs : List Kv
  tensors : List Tensor
  deriving DecidableEq, Repr

/-- `vv_gguf_t`. -/
structure Handle extends Header where
  alignment : ℕ
  dataOffset : ℕ
  deriving DecidableEq, Repr

/-! ### The cursor -/

/-- A reader of the file; the cursor turns `bad` where the reader fails. -/
abbrev Read := Reader Status UInt8

/-- The number some bytes spell, lowest byte first. -/
def ofLe (bytes : List UInt8) : ℕ := Nat.ofDigits 256 (bytes.map UInt8.toNat)

/-- `cur_take`. -/
def curTake (n : ℕ) : Read (List UInt8) := Reader.take .parse n

/-- `cur_u32`. -/
def curU32 : Read ℕ := ofLe <$> curTake 4

/-- `cur_u64`. -/
def curU64 : Read ℕ := ofLe <$> curTake 8

/-- A length or a count, of 32 bits in the first version. -/
def curLen (v1 : Bool) : Read ℕ := if v1 then curU32 else curU64

/-- The bytes of a string. -/
def curBytes (v1 : Bool) : Read (List UInt8) := do
  let len ← curLen v1
  curTake len

/-- `cur_str`. -/
def curStr (v1 : Bool) : Read (List UInt8) := do
  let bytes ← curBytes v1
  pure (cString bytes)

/-- The elements of an array, with a reader for those that have no fixed size. -/
def skipElems (skip : ℕ → Read Unit) (elemType n : ℕ) : Read Unit :=
  let esz := scalarSize elemType
  if esz ≠ 0 then do
    Reader.guardRest .parse fun left => n ≤ left / esz
    let _ ← curTake (n * esz)
  else Reader.skipMany n (skip elemType)

/-- `skip_value`, with `5 - depth` in place of `depth`. -/
def skipValue (v1 : Bool) : ℕ → ℕ → Read Unit
  | 0, _ => Reader.fail .parse
  | depth + 1, code =>
    match valueType code with
    | some .string => do
        let _ ← curBytes v1
    | some .array => do
        let elemType ← curU32
        let n ← curLen v1
        skipElems (skipValue v1 depth) elemType n
    | some t => do
        let _ ← curTake t.scalarSize
    | none => Reader.fail .parse

/-- A number in two's complement. -/
def signed (bits n : ℕ) : ℤ := (n : ℤ).bmod (2 ^ bits)

/-- The value `read_scalar` makes of the bytes of a scalar. -/
def scalarValue (t : ValueType) (bytes : List UInt8) : Value :=
  match t with
  | .bool => .u (if ofLe bytes ≠ 0 then 1 else 0)
  | .i8 | .i16 | .i32 | .i64 => .i (signed (8 * t.scalarSize) (ofLe bytes))
  | .f32 => .f32 (ofLe bytes)
  | .f64 => .f64 (ofLe bytes)
  | _ => .u (ofLe bytes)

/-- `read_scalar`. -/
def readScalar (t : ValueType) : Read Value := scalarValue t <$> curTake t.scalarSize

/-! ### Parse -/

/-- The value of a key, of a known type. -/
def readValue (v1 : Bool) : ValueType → Read Value
  | .string => .str <$> curStr v1
  | .array => do
      let elemType ← curU32
      let n ← curLen v1
      let data ← Reader.position
      skipElems (skipValue v1 4) elemType n
      pure (.arr elemType n data)
  | t => readScalar t

/-- One round of the loop over the keys. -/
def readKv (v1 : Bool) : Read Kv := do
  let key ← curStr v1
  let code ← curU32
  match valueType code with
  | none => Reader.fail .parse
  | some type =>
    let value ← readValue v1 type
    pure ⟨key, type, value⟩

/-- A dimension of a tensor. -/
def readDim (v1 : Bool) : Read ℤ := do
  let ne ← curLen v1
  if 2 ^ 40 < ne then Reader.fail .parse else pure (ne : ℤ)

/-- One round of the loop over the tensors. -/
def readTensor (v1 : Bool) : Read Tensor := do
  let name ← curStr v1
  let nd ← curU32
  if nd < 1 ∨ 4 < nd then Reader.fail .parse
  else
    let dims ← Reader.many nd (readDim v1)
    let type ← curU32
    let offset ← curU64
    pure ⟨name, nd, dims ++ List.replicate (4 - nd) 1, type, offset, 0, none⟩

/-- `GGUF_MAGIC`. -/
def ggufMagic : ℕ := 0x46554747

/-- `parse`, up to the end of the tensor table. -/
def readHeader : Read Header := do
  let magic ← curU32
  if magic ≠ ggufMagic then Reader.fail .parse
  else
    -- a version that is cut off reads as 0
    let version ← Reader.orFail .modelVersion curU32
    if version < 1 ∨ 3 < version then Reader.fail .modelVersion
    else
      let v1 : Bool := version = 1
      let nTensors ← curLen v1
      let nKv ← curLen v1
      -- a count the rest of the file has no room for is a lie
      Reader.guardRest .parse fun left =>
        nKv ≤ left / 12 ∧ nTensors ≤ left / 28 ∧ nTensors ≤ 2 ^ 20
      let kvs ← Reader.many nKv (readKv v1)
      let tensors ← Reader.many nTensors (readTensor v1)
      pure ⟨version, kvs, tensors⟩

/-- `vv_gguf_n_kv`: the count as an `int`. -/
def Header.nKv (g : Header) : ℤ := (Int32.ofNat g.kvs.length).toInt

/-- `vv_gguf_find_kv`. -/
def Header.findKv (g : Header) (key : List UInt8) : Option Kv :=
  (g.kvs.take g.nKv.toNat).find? fun kv => kv.key = cString key

/-- The walk of `vv_gguf_arr_str` over the strings at `p`. -/
def strAt : ℕ → List UInt8 → List UInt8
  | 0, p => (p.drop 8).take (ofLe (p.take 8))
  | idx + 1, p => strAt idx (p.drop (8 + ofLe (p.take 8)))

/-- `vv_gguf_arr_str`: the `len` bytes it answers with. -/
def arrStr (bytes : List UInt8) (kv : Kv) (idx : ℕ) : Option (List UInt8) :=
  match kv.value with
  | .arr elemType n data =>
    if elemType ≠ ValueType.string.code ∨ n ≤ idx then none
    else some (strAt idx (bytes.drop data))
  | _ => none

/-- `g->alignment`. -/
def Header.alignment (g : Header) : Except Status ℕ :=
  match g.findKv (literal "general.alignment") with
  | none => .ok 32
  | some al =>
    match al.type, al.value with
    | .u32, .u a => if a = 0 ∨ a &&& (a - 1) ≠ 0 ∨ 65536 < a then .error .parse else .ok a
    | _, _ => .error .parse

/-- One round of the loop that places the tensors. -/
def place (alignment dataOffset dataSize : ℕ) (t : Tensor) : Except Status Tensor :=
  let nb := ggmlNbytes t.type t.ne
  if (traits t.type).isNone then .ok t
  else if nb = 0 ∧ nelements t ≠ 0 then .error .parse
  else if t.offset % alignment ≠ 0 ∨ dataSize < t.offset ∨ dataSize - t.offset < nb then
    .error .parse
  else .ok { t with nbytes := nb, data := some (dataOffset + t.offset) }

/-- `parse`, from the end of the tensor table on. -/
def layout (size pos : ℕ) (g : Header) : Except Status Handle := do
  let alignment ← g.alignment
  let dataOffset := (pos + alignment - 1) / alignment * alignment
  if size < dataOffset then .error .parse
  else
    let tensors ← g.tensors.mapM (place alignment dataOffset (size - dataOffset))
    pure ⟨⟨g.version, g.kvs, tensors⟩, alignment, dataOffset⟩

/-- `parse`. -/
def parse (bytes : List UInt8) : Except Status Handle :=
  match readHeader.run ⟨0, bytes⟩ with
  | .error st => .error st
  | .ok (g, c) => layout bytes.length c.pos g

/-! ### Extents -/

/-- `nb` bytes hold exactly `n` elements of a type: whole blocks, or the codes of the two types of
the BitNet files with their scale behind them. -/
def Spans (k : Traits) (n : ℤ) (nb : ℕ) : Prop :=
  if k.type = i2s then ∃ m : ℕ, n = 4 * m ∧ nb = m + 32
  else if k.type = i8s then (nb : ℤ) = n + 32
  else ∃ m : ℕ, n = k.blck * m ∧ nb = m * k.size

lemma traits_spec {type : ℕ} {k : Traits} (h : traits type = some k) :
    k.type = type ∧ 0 < k.blck ∧ 0 < k.size ∧ k.size ≤ 4 * k.blck := by
  have htable : kTraits.all fun k => 0 < k.blck ∧ 0 < k.size ∧ k.size ≤ 4 * k.blck := by decide
  have hrow := List.all_eq_true.mp htable k (List.mem_of_find?_eq_some h)
  have htype := List.find?_some h
  exact ⟨by simpa using htype, by simpa using hrow⟩

/-- The product, where no partial product passes `2 ^ 62`. -/
lemma foldlM_eq_some {ne : List ℤ} (hne : ∀ d ∈ ne, 0 ≤ d) {n₀ n : ℕ} (hn₀ : n₀ ≤ 2 ^ 62)
    (h : ne.foldlM (fun n d => if d ≠ 0 ∧ 2 ^ 62 / d.toNat < n then none
      else some (n * d.toNat)) n₀ = some n) :
    (n : ℤ) = n₀ * ne.prod ∧ n ≤ 2 ^ 62 := by
  induction ne generalizing n₀ with
  | nil =>
    cases h
    exact ⟨by simp, hn₀⟩
  | cons d ne ih =>
    rw [List.foldlM_cons] at h
    split_ifs at h with hbig
    · cases h
    · have hd : ((d.toNat : ℕ) : ℤ) = d := Int.toNat_of_nonneg (hne d List.mem_cons_self)
      have hle : n₀ * d.toNat ≤ 2 ^ 62 := by
        rcases Nat.eq_zero_or_pos d.toNat with h0 | hpos
        · rw [h0, Nat.mul_zero]
          exact Nat.zero_le _
        · have hd0 : d ≠ 0 := by omega
          exact (Nat.le_div_iff_mul_le hpos).mp (not_lt.mp fun hlt => hbig ⟨hd0, hlt⟩)
      obtain ⟨hprod, hbound⟩ := ih (fun e he => hne e (List.mem_cons_of_mem d he)) hle h
      refine ⟨?_, hbound⟩
      calc (n : ℤ) = (n₀ * d.toNat : ℕ) * ne.prod := hprod
        _ = n₀ * (d :: ne).prod := by rw [Nat.cast_mul, hd, List.prod_cons, mul_assoc]

lemma product_eq_some {ne : List ℤ} (hne : ∀ d ∈ ne, 0 ≤ d) {n : ℕ} (h : product ne = some n) :
    (n : ℤ) = ne.prod ∧ n ≤ 2 ^ 62 := by
  simpa using foldlM_eq_some hne (by decide) h

/-- A number of bytes that is not `0` is that of all `n` elements. -/
lemma spans_bytesOf {k : Traits} (hblck : 0 < k.blck) (hsize : k.size ≤ 4 * k.blck) {n : ℕ}
    (hle : n ≤ 2 ^ 62) (hdvd : k.blck ∣ n) (h : bytesOf k n ≠ 0) : Spans k n (bytesOf k n) := by
  rw [bytesOf] at h ⊢
  rw [Spans]
  split_ifs at h ⊢ with hi2 h4 hi8
  · exact absurd rfl h
  · exact ⟨n / 4, by omega, rfl⟩
  · exact Nat.cast_add n 32
  · obtain ⟨m, rfl⟩ := hdvd
    rw [Nat.mul_div_cancel_left m hblck] at h ⊢
    have hbytes : m * k.size ≤ 2 ^ 64 := by
      calc m * k.size ≤ m * (4 * k.blck) := Nat.mul_le_mul_left m hsize
        _ = 4 * (k.blck * m) := by ring
        _ ≤ 2 ^ 64 := by omega
    -- the one size that wraps, `2 ^ 64`, wraps to `0`
    have hlt : m * k.size < 2 ^ 64 :=
      lt_of_le_of_ne hbytes fun heq => h (by rw [heq, Nat.mod_self])
    exact ⟨m, Nat.cast_mul k.blck m, Nat.mod_eq_of_lt hlt⟩

/-- A size that is not refused is that of the mathematical product of the dimensions. -/
lemma spans_of_nbytes_ne_zero {type : ℕ} {k : Traits} {ne : List ℤ} (hk : traits type = some k)
    (h : ggmlNbytes type ne ≠ 0) : Spans k ne.prod (ggmlNbytes type ne) := by
  obtain ⟨-, hblck, -, hsize⟩ := traits_spec hk
  simp only [ggmlNbytes, hk] at h ⊢
  split_ifs at h ⊢ with hneg hmod
  · exact absurd rfl h
  · exact absurd rfl h
  · have hne : ∀ d ∈ ne, 0 ≤ d := by simpa using hneg
    cases hprod : product ne with
    | none => exact absurd (by rw [hprod]; rfl) h
    | some n =>
      obtain ⟨hn, hle⟩ := product_eq_some hne hprod
      rw [hprod] at h
      have hhead : (k.blck : ℤ) ∣ ne.headD 1 := Int.dvd_of_emod_eq_zero (not_not.mp hmod)
      have hdvd : (k.blck : ℤ) ∣ ne.prod := by
        cases ne with
        | nil => exact hhead
        | cons d ne => exact Dvd.dvd.mul_right hhead ne.prod
      rw [← hn] at hdvd ⊢
      exact spans_bytesOf hblck hsize hle (Int.natCast_dvd_natCast.mp hdvd) h

/-- A file that opens: its table, and where its data lies. -/
structure Opened (bytes : List UInt8) (h : Handle) (g : Header) (pos : ℕ) : Prop where
  header : ∃ rest, readHeader.run ⟨0, bytes⟩ = .ok (g, ⟨pos, rest⟩)
  version : h.version = g.version
  kvs : h.kvs = g.kvs
  alignment : g.alignment = .ok h.alignment
  dataOffset : h.dataOffset = (pos + h.alignment - 1) / h.alignment * h.alignment
  inside : h.dataOffset ≤ bytes.length
  tensors : List.Forall₂
    (fun t t' => place h.alignment h.dataOffset (bytes.length - h.dataOffset) t = .ok t')
    g.tensors h.tensors

lemma parse_spec {bytes : List UInt8} {h : Handle} (hparse : parse bytes = .ok h) :
    ∃ g pos, Opened bytes h g pos := by
  rw [parse] at hparse
  cases hhead : readHeader.run ⟨0, bytes⟩ with
  | error e => rw [hhead] at hparse; cases hparse
  | ok r =>
    obtain ⟨g, pos, rest⟩ := r
    rw [hhead] at hparse
    simp only [layout] at hparse
    cases halign : g.alignment with
    | error e => rw [halign] at hparse; cases hparse
    | ok alignment =>
      rw [halign] at hparse
      change (if bytes.length < _ then _ else _) = _ at hparse
      split_ifs at hparse with hpast
      cases hts : g.tensors.mapM (place alignment
          ((pos + alignment - 1) / alignment * alignment)
          (bytes.length - (pos + alignment - 1) / alignment * alignment)) with
      | error e => rw [hts] at hparse; cases hparse
      | ok ts =>
        rw [hts] at hparse
        cases hparse
        exact ⟨g, pos, ⟨rest, hhead⟩, rfl, rfl, halign, rfl, not_lt.mp hpast,
          Loop.mapM_eq_ok.mp hts⟩

/-- What the loop over the tensors has checked of one of a known type. -/
lemma place_spec {alignment dataOffset dataSize : ℕ} {t t' : Tensor} {k : Traits}
    (hk : traits t.type = some k) (h : place alignment dataOffset dataSize t = .ok t') :
    t' = { t with nbytes := ggmlNbytes t.type t.ne, data := some (dataOffset + t.offset) } ∧
      (ggmlNbytes t.type t.ne = 0 → nelements t = 0) ∧ alignment ∣ t.offset ∧
      t.offset + ggmlNbytes t.type t.ne ≤ dataSize := by
  simp only [place, hk, Option.isNone_some, Bool.false_eq_true, if_false] at h
  split_ifs at h with hshape hrange
  cases h
  refine ⟨rfl, fun h0 => ?_, Nat.dvd_of_mod_eq_zero ?_, by omega⟩
  · exact not_not.mp fun hn => hshape ⟨h0, hn⟩
  · exact not_not.mp fun hn => hrange (.inl hn)

/-- The type of a tensor is not touched where it is placed. -/
lemma place_type {alignment dataOffset dataSize : ℕ} {t t' : Tensor}
    (h : place alignment dataOffset dataSize t = .ok t') : t'.type = t.type := by
  simp only [place] at h
  split_ifs at h <;> cases h <;> rfl

/-- **Tensor extents.**  In a file that opens, a tensor of a known type lies inside the file from
its data pointer on, which is aligned; and its recorded size is that of the product of its
dimensions, taken without wrapping, unless that product is a multiple of `2 ^ 64`.  A tensor
without elements may be recorded with no bytes. -/
theorem tensor_extents (bytes : List UInt8) (h : Handle) (hparse : parse bytes = .ok h)
    (t : Tensor) (ht : t ∈ h.tensors) (k : Traits) (hk : traits t.type = some k) :
    (∃ data, t.data = some data ∧ data = h.dataOffset + t.offset ∧
        data + t.nbytes ≤ bytes.length ∧ h.alignment ∣ data) ∧
      (t.ne.prod = 0 ∨ ¬(2 : ℤ) ^ 64 ∣ t.ne.prod →
        Spans k t.ne.prod t.nbytes ∨ t.ne.prod = 0 ∧ t.nbytes = 0) := by
  obtain ⟨g, pos, hopen⟩ := parse_spec hparse
  obtain ⟨t₀, -, hplace⟩ := Loop.exists_of_forall₂ hopen.tensors ht
  rw [place_type hplace] at hk
  obtain ⟨rfl, hzero, halign, hrange⟩ := place_spec hk hplace
  have hinside := hopen.inside
  constructor
  · refine ⟨h.dataOffset + t₀.offset, rfl, rfl, ?_, ?_⟩
    · change h.dataOffset + t₀.offset + ggmlNbytes t₀.type t₀.ne ≤ bytes.length
      omega
    · rw [hopen.dataOffset]
      exact Nat.dvd_add (Nat.dvd_mul_left _ _) halign
  · intro hprod
    change t₀.ne.prod = 0 ∨ ¬(2 : ℤ) ^ 64 ∣ t₀.ne.prod at hprod
    change Spans k t₀.ne.prod (ggmlNbytes t₀.type t₀.ne) ∨
      t₀.ne.prod = 0 ∧ ggmlNbytes t₀.type t₀.ne = 0
    by_cases hnb : ggmlNbytes t₀.type t₀.ne = 0
    · -- the shape was refused: only a product that wraps to `0` gets past the check
      have hdvd : (2 : ℤ) ^ 64 ∣ t₀.ne.prod := Int.dvd_of_bmod_eq_zero (hzero hnb)
      exact .inr ⟨hprod.resolve_right fun hn => hn hdvd, hnb⟩
    · exact .inl (spans_of_nbytes_ne_zero hk hnb)

/-- A product that wraps to `0` gets past the check of the shape. -/
example : ggmlNbytes 0 [2 ^ 32, 2 ^ 32, 1, 1] = 0 ∧
    nelements ⟨[], 2, [2 ^ 32, 2 ^ 32, 1, 1], 0, 0, 0, none⟩ = 0 := by decide

/-- A file with one tensor `a` of 32 elements, its data of `n` bytes from byte 64 on. -/
def sampleFile (type : UInt8) (n : ℕ) : List UInt8 :=
  [0x47, 0x47, 0x55, 0x46, 3, 0, 0, 0] ++ [1, 0, 0, 0, 0, 0, 0, 0] ++ [0, 0, 0, 0, 0, 0, 0, 0] ++
    [1, 0, 0, 0, 0, 0, 0, 0, 97] ++ [1, 0, 0, 0] ++ [32, 0, 0, 0, 0, 0, 0, 0] ++
    [type, 0, 0, 0] ++ [0, 0, 0, 0, 0, 0, 0, 0] ++ List.replicate (7 + n) 0

/-- What the parser makes of the tensor of such a file. -/
def sampleTensor (type : UInt8) (n : ℕ) : Tensor :=
  ⟨[97], 1, [32, 1, 1, 1], type.toNat, 0, n, some 64⟩

/-- One block of `q8_0`. -/
theorem tensor_extents_sample :
    ∃ h, parse (sampleFile 8 34) = .ok h ∧ sampleTensor 8 34 ∈ h.tensors ∧
      64 + 34 ≤ (sampleFile 8 34).length ∧ Spans ⟨8, "q8_0", 32, 34⟩ 32 34 := by
  have hparse : parse (sampleFile 8 34) =
      .ok ⟨⟨3, [], [sampleTensor 8 34]⟩, 32, 64⟩ := by decide +kernel
  obtain ⟨⟨data, hdata, -, hrange, -⟩, hspans⟩ :=
    tensor_extents _ _ hparse _ List.mem_cons_self ⟨8, "q8_0", 32, 34⟩ (by decide +kernel)
  cases hdata
  exact ⟨_, hparse, List.mem_cons_self, hrange,
    (hspans (.inr (by decide))).resolve_right fun h => absurd h.1 (by decide)⟩

/-- A tensor of `i8_s` carries its scale: 32 elements of one byte are recorded with 64 bytes. -/
theorem scale_behind_codes :
    ¬∀ bytes h, parse bytes = .ok h → ∀ t ∈ h.tensors, ∀ k, traits t.type = some k →
      (t.nbytes : ℤ) = t.ne.prod / k.blck * k.size := by
  intro hall
  have hparse : parse (sampleFile 37 64) =
      .ok ⟨⟨3, [], [sampleTensor 37 64]⟩, 32, 64⟩ := by decide +kernel
  have heq := hall _ _ hparse _ List.mem_cons_self ⟨37, "i8_s", 1, 1⟩ (by decide +kernel)
  exact absurd heq (by decide)

end VibeVoice.Gguf
