import Mathlib.Data.UInt
import VibeVoice.Model.Cjson
import VibeVoice.Status

/-!
The safetensors reader of `safetensors.c`.

Sizes and offsets are `size_t` and `uint64_t`, so sums and differences are taken modulo `2 ^ 64`
as the code takes them.  The JSON parser, the two conversions of `double` and `malloc` are
parameters (`Env`).  A run that reads outside the mapped file ends in `fault`.

* `Handle.Opened`, `open_spec`: what holds of a file that opens.
* `safetensors_bounds`: a file that opens has its header inside, and the ranges its tensors are
  given lie in the data section exactly when no tensor ends before it starts within the section.
-/

namespace VibeVoice.Safetensors

/-- `vv_dtype_t`, as far as `parse_dtype` knows it. -/
inductive DType
  | f32 | f16 | bf16 | u8 | i32 | i64 | f8e4m3 | bool | i8 | i16 | u16 | u32 | f8e5m2 | f64
  | unknown
  deriving DecidableEq, Repr

/-- `parse_dtype`. -/
def parseDtype : Option (List UInt8) → DType
  | none => .f32
  | some s =>
    if s = literal "F32" then .f32
    else if s = literal "F16" then .f16
    else if s = literal "BF16" then .bf16
    else if s = literal "U8" then .u8
    else if s = literal "I32" then .i32
    else if s = literal "I64" then .i64
    else if s = literal "F8_E4M3" then .f8e4m3
    else if s = literal "BOOL" then .bool
    else if s = literal "I8" then .i8
    else if s = literal "I16" then .i16
    else if s = literal "U16" then .u16
    else if s = literal "U32" then .u32
    else if s = literal "F8_E5M2" then .f8e5m2
    else if s = literal "F64" then .f64
    else .unknown

/-- `VV_MAX_DIMS`. -/
def maxDims : ℕ := 8

/-- `vv_st_tensor_info_t`; `ndim` is the length of `shape`. -/
structure TensorInfo where
  name : List UInt8
  dtype : DType
  shape : List Int64
  dataOffset : UInt64
  dataSize : UInt64
  deriving DecidableEq, Repr

/-- What the reader calls outside this file: `cJSON_Parse`, the conversions of a `double` to
`size_t` and to `int64_t`, and whether `malloc` finds a block of a size. -/
structure Env (δ : Type) where
  parse : List UInt8 → Option (Json δ)
  toSize : δ → UInt64
  toInt64 : δ → Int64
  malloc : UInt64 → Bool

/-- A file that can be mapped: its size is an `off_t`. -/
structure File where
  bytes : List UInt8
  fits : bytes.length < 2 ^ 63

/-- `mapped_size`. -/
def File.size (file : File) : UInt64 := UInt64.ofNat file.bytes.length

/-- `vv_safetensors_t`. -/
structure Handle where
  file : File
  headerSize : UInt64
  tensors : List TensorInfo

/-- How a call ends: with a value, with a status, or in undefined behaviour. -/
inductive Outcome (α : Type)
  | ok (a : α)
  | error (st : Status)
  | fault

variable {δ : Type} (env : Env δ)

/-- `vv_alloc(size) != NULL`. -/
def allocates (size : UInt64) : Bool :=
  size != 0 && env.malloc (size + 8)

/-- `memcpy(&st->header_size, st->mapped_data, 8)` on a little-endian machine. -/
def readU64 (bytes : List UInt8) : UInt64 :=
  (bytes.take 8).foldr (fun b n => n <<< 8 ||| b.toUInt64) 0

/-- `data_offset` and `data_size` of an item. -/
def dataOffsets (item : Json δ) : Option (UInt64 × UInt64) :=
  match item.getObjectItem (literal "data_offsets") with
  | some offsets =>
    match offsets.isArray, offsets.getArrayItem 0, offsets.getArrayItem 1 with
    | true, some start, some stop =>
      some (start.valueDouble env.toSize, stop.valueDouble env.toSize)
    | _, _, _ => none
  | none => none

/-- The dimensions of an item, at most `VV_MAX_DIMS` of them. -/
def shapeOf (item : Json δ) : List Int64 :=
  match item.getObjectItem (literal "shape") with
  | some shape =>
    if shape.isArray then
      (shape.children.take maxDims).map fun dim => dim.2.valueDouble env.toInt64
    else []
  | none => []

/-- `info` as the loop over the header fills it. -/
def tensorInfo (name : List UInt8) (item : Json δ) : TensorInfo where
  name := (cString name).take 255
  dtype := parseDtype ((item.getObjectItem (literal "dtype")).bind Json.valueString)
  shape := shapeOf env item
  dataOffset := ((dataOffsets env item).map Prod.fst).getD 0
  dataSize := ((dataOffsets env item).map fun o => o.2 - o.1).getD 0

/-- The items of the header but `__metadata__`; `none` when one has no name, which `strcmp`
dereferences. -/
def tensorItems (root : Json δ) : Option (List (List UInt8 × Json δ)) :=
  (root.children.mapM fun c : Option (List UInt8) × Json δ =>
    c.1.map fun name => (name, c.2)).map fun items =>
      items.filter fun c => cString c.1 ≠ literal "__metadata__"

/-- The text of the header, as `cJSON_Parse` sees it. -/
def headerText (file : File) (headerSize : UInt64) : List UInt8 :=
  cString ((file.bytes.drop 8).take headerSize.toNat)

/-- `sizeof(vv_st_tensor_info_t)`. -/
def infoSize : UInt64 := 352

/-- `vv_safetensors_open`, from the parsed header on. -/
def openTensors (file : File) (headerSize : UInt64) (root : Json δ) : Outcome Handle :=
  match tensorItems root with
  | none => .fault
  | some items =>
    if allocates env (UInt64.ofNat items.length * infoSize) then
      .ok ⟨file, headerSize, items.map fun c => tensorInfo env c.1 c.2⟩
    else .error .outOfMemory

/-- `vv_safetensors_open`, from `header_size` on. -/
def openHeader (file : File) (headerSize : UInt64) : Outcome Handle :=
  if file.size < 8 + headerSize then .error .modelFormat
  else if !allocates env (headerSize + 1) then .error .outOfMemory
  -- the copy of the header reads `header_size` bytes of the mapping
  else if file.bytes.length < 8 + headerSize.toNat then .fault
  else
    match env.parse (headerText file headerSize) with
    | none => .error .parse
    | some root => openTensors env file headerSize root

/-- `vv_safetensors_open`, once the file is mapped. -/
def safetensorsOpen (file : File) : Outcome Handle :=
  if file.size = 0 then .error .io
  else if file.size < 8 then .error .modelFormat
  else openHeader env file (readU64 file.bytes)

/-- `vv_safetensors_get_info`. -/
def getInfo (st : Handle) (index : ℤ) : Except Status TensorInfo :=
  if index < 0 ∨ (st.tensors.length : ℤ) ≤ index then .error .invalidArg
  else
    match st.tensors[index.toNat]? with
    | some info => .ok info
    | none => .error .invalidArg

/-- `vv_safetensors_find`. -/
def find (st : Handle) (name : List UInt8) : Except Status TensorInfo :=
  match st.tensors.find? fun info => info.name = cString name with
  | some info => .ok info
  | none => .error .notFound

/-- `data_section_size`. -/
def dataSectionSize (st : Handle) : UInt64 := st.file.size - 8 - st.headerSize

/-- `vv_safetensors_get_data`: where the tensor's bytes start, from the start of the data
section. -/
def getData (st : Handle) (info : TensorInfo) : Except Status UInt64 :=
  if dataSectionSize st < info.dataOffset + info.dataSize then .error .modelFormat
  else .ok info.dataOffset

/-! ### What a file that opens satisfies -/

variable {env}

/-- A file that opened: where its header ends, and what its tensors were read from. -/
structure Opened (env : Env δ) (file : File) (st : Handle) (root : Json δ)
    (items : List (List UInt8 × Json δ)) : Prop where
  mapped : st.file = file
  header : 8 + st.headerSize.toNat ≤ file.bytes.length
  headerSize : st.headerSize = readU64 file.bytes
  parsed : env.parse (headerText file st.headerSize) = some root
  listed : tensorItems root = some items
  tensors : st.tensors = items.map fun c => tensorInfo env c.1 c.2

lemma open_spec {file : File} {st : Handle} (h : safetensorsOpen env file = .ok st) :
    ∃ root items, Opened env file st root items := by
  rw [safetensorsOpen] at h
  split_ifs at h
  rw [openHeader] at h
  split_ifs at h with hbig halloc hshort
  cases hparse : env.parse (headerText file (readU64 file.bytes)) with
  | none => rw [hparse] at h; cases h
  | some root =>
    rw [hparse] at h
    dsimp only at h
    rw [openTensors] at h
    cases hitems : tensorItems root with
    | none => rw [hitems] at h; cases h
    | some items =>
      rw [hitems] at h
      dsimp only at h
      split_ifs at h
      cases h
      exact ⟨root, items, rfl, not_lt.mp hshort, rfl, hparse, hitems, rfl⟩

/-- The data section of a file that opened, without wrapping. -/
lemma Opened.dataSectionSize_toNat {file : File} {st : Handle} {root : Json δ}
    {items : List (List UInt8 × Json δ)} (h : Opened env file st root items) :
    (dataSectionSize st).toNat = file.bytes.length - (8 + st.headerSize.toNat) := by
  have hfits := file.fits
  have hheader := h.header
  have hlt := st.headerSize.toNat_lt
  rw [dataSectionSize, h.mapped, File.size, UInt64.toNat_sub, UInt64.toNat_sub,
    UInt64.toNat_ofNat']
  change (2 ^ 64 - st.headerSize.toNat +
    (2 ^ 64 - 8 + file.bytes.length % 2 ^ 64) % 2 ^ 64) % 2 ^ 64 = _
  omega

/-- A range of `size_t` numbers whose end is in a section lies in it unless it ends before it
starts. -/
lemma range_le_iff {start stop section_ : UInt64} (h : stop ≤ section_) :
    start.toNat + (stop - start).toNat ≤ section_.toNat ↔ start ≤ stop := by
  have hstart := start.toNat_lt
  have hstop := stop.toNat_lt
  have hsection := section_.toNat_lt
  rw [UInt64.le_iff_toNat_le] at h ⊢
  rw [UInt64.toNat_sub]
  omega

/-- `get_data` compares the end of a range with the section, wrapping or not. -/
lemma getData_eq_ok {st : Handle} {info : TensorInfo} {base : UInt64} (start stop : UInt64)
    (hstart : info.dataOffset = start) (hsize : info.dataSize = stop - start) :
    getData st info = .ok base ↔ stop ≤ dataSectionSize st ∧ base = start := by
  have hsum : info.dataOffset + info.dataSize = stop := by
    rw [hstart, hsize, UInt64.add_comm, UInt64.sub_add_cancel]
  rw [getData, hsum, hstart]
  split_ifs with hlt
  · simp [hlt]
  · simp only [Except.ok.injEq, UInt64.not_lt.mp hlt, true_and, eq_comm]

/-! ### The bounds of a file -/

/-- A tensor the reader hands out, by its index or by its name. -/
def Listed (st : Handle) (info : TensorInfo) : Prop :=
  (∃ index, getInfo st index = .ok info) ∨ ∃ name, find st name = .ok info

/-- The tensors handed out are those of the header. -/
lemma listed_iff {st : Handle} {info : TensorInfo} : Listed st info ↔ info ∈ st.tensors := by
  constructor
  · rintro (⟨index, h⟩ | ⟨name, h⟩)
    · unfold getInfo at h
      split_ifs at h
      cases hget : st.tensors[index.toNat]? with
      | none => rw [hget] at h; cases h
      | some info' =>
        rw [hget] at h
        cases h
        exact List.mem_of_getElem? hget
    · unfold find at h
      cases hfind : st.tensors.find? fun info => info.name = cString name with
      | none => rw [hfind] at h; cases h
      | some info' =>
        rw [hfind] at h
        cases h
        exact List.mem_of_find?_eq_some hfind
  · intro h
    obtain ⟨i, hi, hget⟩ := List.mem_iff_getElem.mp h
    refine .inl ⟨i, ?_⟩
    rw [getInfo, if_neg (by omega), Int.toNat_natCast, List.getElem?_eq_getElem hi, hget]

/-- The `data_offsets` of the tensors a file lists in its header. -/
def headerOffsets (env : Env δ) (file : File) : List (UInt64 × UInt64) :=
  match (env.parse (headerText file (readU64 file.bytes))).bind tensorItems with
  | none => []
  | some items => items.filterMap fun c => dataOffsets env c.2

lemma Opened.mem_headerOffsets {file : File} {st : Handle} {root : Json δ}
    {items : List (List UInt8 × Json δ)} (h : Opened env file st root items)
    {o : UInt64 × UInt64} :
    o ∈ headerOffsets env file ↔ ∃ c ∈ items, dataOffsets env c.2 = some o := by
  have hitems : (env.parse (headerText file (readU64 file.bytes))).bind tensorItems =
      some items := by
    rw [← h.headerSize, h.parsed, Option.bind_some, h.listed]
  rw [headerOffsets, hitems, List.mem_filterMap]

/-- **The bounds of a file that opens**: its header lies inside it, and every range `get_data`
answers for a tensor lies in the data section exactly when no tensor has an end that lies in the
section before its start. -/
theorem safetensors_bounds (env : Env δ) (file : File) (st : Handle)
    (h : safetensorsOpen env file = .ok st) :
    8 + st.headerSize.toNat ≤ file.bytes.length ∧
      ((∀ info base, Listed st info → getData st info = .ok base →
          base.toNat + info.dataSize.toNat ≤
            file.bytes.length - (8 + st.headerSize.toNat)) ↔
        ∀ o ∈ headerOffsets env file, o.1 ≤ o.2 ∨
          file.bytes.length - (8 + (readU64 file.bytes).toNat) < o.2.toNat) := by
  obtain ⟨root, items, hopen⟩ := open_spec h
  have hsection := hopen.dataSectionSize_toNat
  refine ⟨hopen.header, ?_⟩
  rw [← hopen.headerSize, ← hsection]
  constructor
  · intro hranges o ho
    obtain ⟨c, hc, hoff⟩ := hopen.mem_headerOffsets.mp ho
    refine or_iff_not_imp_right.mpr fun hend => ?_
    have hle : o.2 ≤ dataSectionSize st := UInt64.le_iff_toNat_le.mpr (not_lt.mp hend)
    have hmem : tensorInfo env c.1 c.2 ∈ st.tensors := by
      rw [hopen.tensors]
      exact List.mem_map_of_mem hc
    have hget : getData st (tensorInfo env c.1 c.2) = .ok o.1 :=
      (getData_eq_ok o.1 o.2 (by simp [tensorInfo, hoff]) (by simp [tensorInfo, hoff])).mpr
        ⟨hle, rfl⟩
    have hrange := hranges _ _ (listed_iff.mpr hmem) hget
    simp only [tensorInfo, hoff, Option.map_some, Option.getD_some] at hrange
    exact (range_le_iff hle).mp hrange
  · intro hordered info base hlisted hget
    have hmem := listed_iff.mp hlisted
    rw [hopen.tensors] at hmem
    obtain ⟨c, hc, rfl⟩ := List.mem_map.mp hmem
    cases hoff : dataOffsets env c.2 with
    | none =>
      have hbase := ((getData_eq_ok 0 0 (by simp [tensorInfo, hoff])
        (by simp [tensorInfo, hoff])).mp hget).2
      simp [hbase, tensorInfo, hoff]
    | some o =>
      obtain ⟨hle, rfl⟩ := (getData_eq_ok o.1 o.2
        (by simp [tensorInfo, hoff]) (by simp [tensorInfo, hoff])).mp hget
      have hle' := UInt64.le_iff_toNat_le.mp hle
      have hord := (hordered o (hopen.mem_headerOffsets.mpr ⟨c, hc, hoff⟩)).resolve_right
        (not_lt.mpr hle')
      simp only [tensorInfo, hoff, Option.map_some, Option.getD_some]
      exact (range_le_iff hle).mpr hord

/-! ### Two files -/

/-- A header with one tensor `w` and its two offsets. -/
def sampleText (offsets : String) : List UInt8 :=
  Utf8.encode ("\x7b\"w\":\x7b\"data_offsets\":[".toList ++ offsets.toList ++
    "]\x7d\x7d".toList)

/-- The reader's surroundings on a header text: the tree `cJSON` builds of it. -/
def sampleEnv (text : List UInt8) (start stop : ℕ) : Env ℕ where
  parse text' :=
    if text' = text then
      some (.object [(literal "w", .object [(literal "data_offsets",
        .array [.number start, .number stop])])])
    else none
  toSize := UInt64.ofNat
  toInt64 := Int64.ofNat
  malloc _ := true

/-- A file with a header of 28 bytes and eight bytes of data. -/
def sampleFile (text : List UInt8) (h : text.length = 28) : File where
  bytes := [28, 0, 0, 0, 0, 0, 0, 0] ++ text ++ List.replicate 8 0
  fits := by
    rw [List.length_append, List.length_append, h]
    decide

/-- The tensor in the first four bytes of its data section. -/
theorem safetensors_bounds_sample :
    ∃ st, safetensorsOpen (sampleEnv (sampleText "0,4") 0 4)
        (sampleFile (sampleText "0,4") (by decide +kernel)) = .ok st ∧
      8 + st.headerSize.toNat ≤ 44 ∧ ∀ info base, Listed st info → getData st info = .ok base →
        base.toNat + info.dataSize.toNat ≤ 44 - (8 + st.headerSize.toNat) := by
  have hopen : ∃ st, safetensorsOpen (sampleEnv (sampleText "0,4") 0 4)
      (sampleFile (sampleText "0,4") (by decide +kernel)) = .ok st := ⟨_, rfl⟩
  obtain ⟨st, hst⟩ := hopen
  obtain ⟨hheader, hiff⟩ := safetensors_bounds _ _ st hst
  have hoffsets : headerOffsets (sampleEnv (sampleText "0,4") 0 4)
      (sampleFile (sampleText "0,4") (by decide +kernel)) = [(0, 4)] := rfl
  refine ⟨st, hst, hheader, hiff.mpr fun o ho => ?_⟩
  rw [hoffsets, List.mem_singleton] at ho
  subst ho
  exact .inl (by decide)

/-- A tensor with the offsets `[4, 2]` in eight bytes of data: its size wraps, the check passes
and the range it is given ends far outside the section. -/
theorem inverted_offsets_escape :
    ¬∀ st, safetensorsOpen (sampleEnv (sampleText "4,2") 4 2)
        (sampleFile (sampleText "4,2") (by decide +kernel)) = .ok st →
      ∀ info base, Listed st info → getData st info = .ok base →
        base.toNat + info.dataSize.toNat ≤ 44 - (8 + st.headerSize.toNat) := by
  intro h
  have hrange := h _ rfl _ 4 (.inl ⟨0, rfl⟩) rfl
  exact absurd hrange (by decide +kernel)

end VibeVoice.Safetensors
