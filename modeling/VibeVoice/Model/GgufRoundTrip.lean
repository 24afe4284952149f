import Mathlib.Data.BitVec
import VibeVoice.Model.Gguf

/-!
What a GGUF file of version 2 or 3 says is what the parser reads from it.

* `File`: keys, tensors and a block of data, with the bytes they are written as.
* `File.WellFormed`: what the format asks; `File.Within`: the limits the reader sets itself.
* `reads_header`: the reader runs exactly over the written header.
* `gguf_round_trip`: the parser answers what was written, and refuses a file that is cut off before
  the end of the data of one of its tensors.
-/

namespace VibeVoice.Gguf

/-! ### Numbers and strings -/

/-- A number in `k` bytes, lowest byte first. -/
def toLe : ℕ → ℕ → List UInt8
  | 0, _ => []
  | k + 1, n => UInt8.ofNat n :: toLe k (n / 256)

@[simp]
lemma length_toLe (k n : ℕ) : (toLe k n).length = k := by
  induction k generalizing n with
  | zero => rfl
  | succ k ih => rw [toLe, List.length_cons, ih]

lemma ofLe_toLe {k n : ℕ} (h : n < 256 ^ k) : ofLe (toLe k n) = n := by
  induction k generalizing n with
  | zero =>
    rw [pow_zero, Nat.lt_one_iff] at h
    rw [h]
    rfl
  | succ k ih =>
    have hdiv : n / 256 < 256 ^ k := by
      rw [pow_succ'] at h
      exact Nat.div_lt_of_lt_mul h
    calc ofLe (toLe (k + 1) n) = (UInt8.ofNat n).toNat + 256 * ofLe (toLe k (n / 256)) := rfl
      _ = n % 256 + 256 * (n / 256) := by rw [ih hdiv, UInt8.toNat_ofNat']
      _ = n := Nat.mod_add_div n 256

/-- A string behind its length. -/
def strBytes (s : List UInt8) : List UInt8 := toLe 8 s.length ++ s

lemma reads_take (pos n : ℕ) {bs : List UInt8} (h : bs.length = n) :
    Reader.Reads (curTake n) pos bs bs :=
  Reader.Reads.take Status.parse pos h

lemma reads_u32 (pos : ℕ) {n : ℕ} (h : n < 2 ^ 32) : Reader.Reads curU32 pos (toLe 4 n) n := by
  have hread := (reads_take pos 4 (length_toLe 4 n)).map ofLe
  rwa [ofLe_toLe (by omega)] at hread

lemma reads_u64 (pos : ℕ) {n : ℕ} (h : n < 2 ^ 64) : Reader.Reads curU64 pos (toLe 8 n) n := by
  have hread := (reads_take pos 8 (length_toLe 8 n)).map ofLe
  rwa [ofLe_toLe (by omega)] at hread

lemma reads_len (pos : ℕ) {n : ℕ} (h : n < 2 ^ 64) :
    Reader.Reads (curLen false) pos (toLe 8 n) n :=
  reads_u64 pos h

lemma reads_bytes (pos : ℕ) {s : List UInt8} (h : s.length < 2 ^ 64) :
    Reader.Reads (curBytes false) pos (strBytes s) s :=
  (reads_len pos h).bind (reads_take _ _ rfl)

/-- A string without a NUL is read as it is written. -/
lemma reads_str (pos : ℕ) {s : List UInt8} (h : s.length < 2 ^ 64) (hnul : 0 ∉ s) :
    Reader.Reads (curStr false) pos (strBytes s) s := by
  have hread := (reads_bytes pos h).bind_pure (f := cString)
  rwa [cString_eq_self hnul] at hread

/-! ### Values -/

/-- A scalar of the metadata; a float is its bits. -/
inductive Scalar
  | u8 (n : UInt8)
  | i8 (n : Int8)
  | u16 (n : UInt16)
  | i16 (n : Int16)
  | u32 (n : UInt32)
  | i32 (n : Int32)
  | f32 (bits : UInt32)
  | bool (b : Bool)
  | u64 (n : UInt64)
  | i64 (n : Int64)
  | f64 (bits : UInt64)

namespace Scalar

/-- The type of a scalar. -/
def type : Scalar → ValueType
  | u8 _ => .u8
  | i8 _ => .i8
  | u16 _ => .u16
  | i16 _ => .i16
  | u32 _ => .u32
  | i32 _ => .i32
  | f32 _ => .f32
  | bool _ => .bool
  | u64 _ => .u64
  | i64 _ => .i64
  | f64 _ => .f64

/-- The number that is written for a scalar. -/
def number : Scalar → ℕ
  | u8 n => n.toNat
  | i8 n => n.toUInt8.toNat
  | u16 n => n.toNat
  | i16 n => n.toUInt16.toNat
  | u32 n => n.toNat
  | i32 n => n.toUInt32.toNat
  | f32 bits => bits.toNat
  | bool b => b.toNat
  | u64 n => n.toNat
  | i64 n => n.toUInt64.toNat
  | f64 bits => bits.toNat

/-- The bytes of a scalar. -/
def bytes (v : Scalar) : List UInt8 := toLe v.type.scalarSize v.number

/-- The scalar, as the reader hands it out. -/
def value : Scalar → Value
  | u8 n => .u n.toNat
  | i8 n => .i n.toInt
  | u16 n => .u n.toNat
  | i16 n => .i n.toInt
  | u32 n => .u n.toNat
  | i32 n => .i n.toInt
  | f32 bits => .f32 bits.toNat
  | bool b => .u b.toNat
  | u64 n => .u n.toNat
  | i64 n => .i n.toInt
  | f64 bits => .f64 bits.toNat

lemma number_lt (v : Scalar) : v.number < 256 ^ v.type.scalarSize := by
  cases v with
  | u8 n => exact n.toNat_lt
  | i8 n => exact n.toUInt8.toNat_lt
  | u16 n => exact n.toNat_lt
  | i16 n => exact n.toUInt16.toNat_lt
  | u32 n => exact n.toNat_lt
  | i32 n => exact n.toUInt32.toNat_lt
  | f32 bits => exact bits.toNat_lt
  | bool b => cases b <;> decide
  | u64 n => exact n.toNat_lt
  | i64 n => exact n.toUInt64.toNat_lt
  | f64 bits => exact bits.toNat_lt

lemma scalarSize_pos (v : Scalar) : 0 < v.type.scalarSize := by
  cases v <;> exact Nat.succ_pos _

@[simp]
lemma length_bytes (v : Scalar) : v.bytes.length = v.type.scalarSize := length_toLe _ _

/-- A number in two's complement is read with its sign. -/
lemma signed_toNat {w : ℕ} (n : BitVec w) : signed w n.toNat = n.toInt :=
  (BitVec.toInt_eq_toNat_bmod n).symm

/-- The bytes of a scalar are read back as the scalar. -/
lemma scalarValue_bytes (v : Scalar) : scalarValue v.type v.bytes = v.value := by
  have hnumber : ofLe v.bytes = v.number := ofLe_toLe v.number_lt
  cases v with
  | u8 n => exact congrArg Value.u hnumber
  | u16 n => exact congrArg Value.u hnumber
  | u32 n => exact congrArg Value.u hnumber
  | u64 n => exact congrArg Value.u hnumber
  | f32 bits => exact congrArg Value.f32 hnumber
  | f64 bits => exact congrArg Value.f64 hnumber
  | i8 n => exact congrArg Value.i ((congrArg (signed 8) hnumber).trans (signed_toNat n.toBitVec))
  | i16 n =>
    exact congrArg Value.i ((congrArg (signed 16) hnumber).trans (signed_toNat n.toBitVec))
  | i32 n =>
    exact congrArg Value.i ((congrArg (signed 32) hnumber).trans (signed_toNat n.toBitVec))
  | i64 n =>
    exact congrArg Value.i ((congrArg (signed 64) hnumber).trans (signed_toNat n.toBitVec))
  | bool b => cases b <;> rfl

end Scalar

/-- A metadata value; an array names the type of its elements. -/
inductive Item
  | scalar (v : Scalar)
  | string (s : List UInt8)
  | array (elemType : ValueType) (items : List Item)

/-- The type of a value. -/
def Item.type : Item → ValueType
  | .scalar v => v.type
  | .string _ => .string
  | .array _ _ => .array

mutual

/-- A value as it is written. -/
def Item.bytes : Item → List UInt8
  | .scalar v => v.bytes
  | .string s => strBytes s
  | .array elemType items => toLe 4 elemType.code ++ toLe 8 items.length ++ itemsBytes items

/-- The elements of an array, one after the other. -/
def itemsBytes : List Item → List UInt8
  | [] => []
  | item :: items => item.bytes ++ itemsBytes items

end

lemma itemsBytes_eq (items : List Item) : itemsBytes items = items.flatMap Item.bytes := by
  induction items with
  | nil => rw [itemsBytes, List.flatMap_nil]
  | cons item items ih => rw [itemsBytes, ih, List.flatMap_cons]

/-- A value of the format whose arrays are nested at most `depth` deep; a string counts as an
array. -/
def Item.Fits : ℕ → Item → Prop
  | _, .scalar _ => True
  | 0, .string _ => False
  | 0, .array _ _ => False
  | _ + 1, .string s => s.length < 2 ^ 64
  | depth + 1, .array elemType items =>
    items.length < 2 ^ 64 ∧ ∀ item ∈ items, item.type = elemType ∧ Item.Fits depth item

lemma valueType_code (t : ValueType) : valueType t.code = some t := by
  cases t <;> rfl

lemma scalarSize_code (t : ValueType) : scalarSize t.code = t.scalarSize := by
  rw [scalarSize, valueType_code, Option.map_some, Option.getD_some]

lemma code_lt (t : ValueType) : t.code < 2 ^ 32 := by
  cases t <;> decide

/-- A value of fixed size is a scalar. -/
lemma Item.length_bytes {item : Item} (h : item.type.scalarSize ≠ 0) :
    item.bytes.length = item.type.scalarSize := by
  cases item with
  | scalar v => rw [Item.bytes, v.length_bytes, Item.type]
  | string s => exact absurd rfl h
  | array elemType items => exact absurd rfl h

lemma length_flatMap_eq {α β : Type} {f : α → List β} {k : ℕ} {xs : List α}
    (h : ∀ x ∈ xs, (f x).length = k) : (xs.flatMap f).length = xs.length * k := by
  rw [List.length_flatMap, List.map_congr_left h, List.map_const', List.sum_replicate, smul_eq_mul]

lemma le_length_flatMap {α β : Type} {f : α → List β} {k : ℕ} {xs : List α}
    (h : ∀ x ∈ xs, k ≤ (f x).length) : xs.length * k ≤ (xs.flatMap f).length := by
  rw [List.length_flatMap]
  simpa using List.card_nsmul_le_sum (xs.map fun x => (f x).length) k (by simpa using h)

/-- The elements of an array are skipped by a reader that skips each of them. -/
lemma reads_skipElems {skip : ℕ → Read Unit} {elemType : ValueType} {items : List Item}
    (htype : ∀ item ∈ items, item.type = elemType)
    (hskip : elemType.scalarSize = 0 → ∀ item ∈ items, ∀ pos,
      Reader.Reads (skip elemType.code) pos item.bytes ()) (pos : ℕ) :
    Reader.Reads (skipElems skip elemType.code items.length) pos (itemsBytes items) () := by
  rw [skipElems, scalarSize_code, itemsBytes_eq]
  split_ifs with hsize
  · have hlen : (items.flatMap Item.bytes).length = items.length * elemType.scalarSize :=
      length_flatMap_eq fun item hitem => by
        rw [← htype item hitem] at hsize ⊢
        exact item.length_bytes hsize
    refine Reader.Reads.guardRest_bind _ (fun n hn => ?_) ((reads_take pos _ hlen).bind_pure)
    rw [hlen] at hn
    exact decide_eq_true ((Nat.le_div_iff_mul_le (Nat.pos_of_ne_zero hsize)).mpr hn)
  · exact Reader.Reads.skipMany (hskip (not_not.mp hsize)) pos

/-- `skip_value` runs exactly over a value that is nested no deeper than it follows. -/
lemma reads_skipValue {depth : ℕ} {item : Item} (h : item.Fits depth)
    (hsize : item.type.scalarSize = 0) (pos : ℕ) :
    Reader.Reads (skipValue false depth item.type.code) pos item.bytes () := by
  induction depth generalizing item pos with
  | zero =>
    cases item with
    | scalar v => exact absurd hsize v.scalarSize_pos.ne'
    | string s => exact h.elim
    | array elemType items => exact h.elim
  | succ depth ih =>
    rw [skipValue, valueType_code]
    cases item with
    | scalar v => exact absurd hsize v.scalarSize_pos.ne'
    | string s =>
      rw [Item.bytes]
      exact (reads_bytes pos h).bind_pure
    | array elemType items =>
      rw [Item.bytes, List.append_assoc]
      have helems : ∀ pos, Reader.Reads
          (skipElems (skipValue false depth) elemType.code items.length) pos
          (itemsBytes items) () :=
        reads_skipElems (fun item hitem => (h.2 item hitem).1) fun hsize item hitem pos => by
          obtain ⟨htype, hfits⟩ := h.2 item hitem
          rw [← htype] at hsize ⊢
          exact ih hfits hsize pos
      exact (reads_u32 pos (code_lt elemType)).bind ((reads_len _ h.1).bind (helems _))

/-! ### Files -/

/-- A key with its value. -/
structure Entry where
  key : List UInt8
  item : Item

/-- An entry as it is written. -/
def Entry.bytes (e : Entry) : List UInt8 :=
  strBytes e.key ++ (toLe 4 e.item.type.code ++ e.item.bytes)

/-- What the reader makes of a value written at `pos`. -/
def Item.read (pos : ℕ) : Item → Value
  | .scalar v => v.value
  | .string s => .str s
  | .array elemType items => .arr elemType.code items.length (pos + 12)

/-- What the reader makes of an entry written at `pos`. -/
def Entry.read (pos : ℕ) (e : Entry) : Kv :=
  ⟨e.key, e.item.type, e.item.read (pos + (strBytes e.key).length + 4)⟩

/-- A tensor with the bytes of its elements. -/
structure Info where
  name : List UInt8
  dims : List ℕ
  type : ℕ
  offset : ℕ
  data : List UInt8

/-- A tensor's row of the table as it is written. -/
def Info.bytes (t : Info) : List UInt8 :=
  strBytes t.name ++ (toLe 4 t.dims.length ++ (t.dims.flatMap (toLe 8) ++
    (toLe 4 t.type ++ toLe 8 t.offset)))

/-- The four dimensions of a tensor. -/
def Info.ne (t : Info) : List ℤ :=
  t.dims.map (fun d : ℕ => (d : ℤ)) ++ List.replicate (4 - t.dims.length) 1

/-- A tensor, as it is read from its row. -/
def Info.read (t : Info) : Tensor :=
  ⟨t.name, t.dims.length, t.ne, t.type, t.offset, 0, none⟩

/-- A file of version 2 or 3. -/
structure File where
  version : ℕ
  entries : List Entry
  infos : List Info
  padding : List UInt8
  block : List UInt8

namespace File

/-- What stands in front of the data. -/
def header (f : File) : List UInt8 :=
  toLe 4 ggufMagic ++ (toLe 4 f.version ++ (toLe 8 f.infos.length ++ (toLe 8 f.entries.length ++
    (f.entries.flatMap Entry.bytes ++ f.infos.flatMap Info.bytes))))

/-- A file as it is written. -/
def bytes (f : File) : List UInt8 := f.header ++ (f.padding ++ f.block)

/-- The entry that sets the alignment. -/
def alignmentEntry (f : File) : Option Entry :=
  f.entries.find? fun e => e.key = literal "general.alignment"

/-- The alignment of the data: 32 bytes, unless an entry sets it. -/
def alignment (f : File) : ℕ :=
  match f.alignmentEntry with
  | some ⟨_, .scalar (.u32 n)⟩ => n.toNat
  | _ => 32

/-- Where the data block starts. -/
def dataOffset (f : File) : ℕ :=
  (f.header.length + f.alignment - 1) / f.alignment * f.alignment

end File

/-- A tensor of a known type with rows of whole blocks and all its bytes, at its place in the data
block. -/
structure Info.WellFormed (alignment : ℕ) (block : List UInt8) (t : Info) : Prop where
  name : t.name.length < 2 ^ 64
  nDims : 1 ≤ t.dims.length ∧ t.dims.length ≤ 4
  type : t.type < 2 ^ 32
  known : ∃ k, traits t.type = some k ∧ (k.blck : ℤ) ∣ t.ne.headD 1 ∧
    Spans k t.ne.prod t.data.length
  aligned : alignment ∣ t.offset
  inside : t.offset + t.data.length ≤ block.length
  placed : t.data <+: block.drop t.offset

/-- A file that keeps the rules of the format. -/
structure File.WellFormed (f : File) : Prop where
  version : f.version = 2 ∨ f.version = 3
  entries : ∀ e ∈ f.entries, e.key.length < 2 ^ 64 ∧ ∃ depth, e.item.Fits depth
  alignment : ∃ k, f.alignment = 2 ^ k
  alignmentType : ∀ e, f.alignmentEntry = some e → ∃ n, e.item = .scalar (.u32 n)
  infos : ∀ t ∈ f.infos, t.WellFormed f.alignment f.block
  padding : f.header.length + f.padding.length = f.dataOffset
  size : f.bytes.length < 2 ^ 63

/-- A file within the limits of the reader: strings without a NUL, arrays nested at most five deep,
fewer than `2 ^ 31` keys and no more than `2 ^ 20` tensors, dimensions up to `2 ^ 40` whose product
does not pass `2 ^ 62`, and data aligned to no more than 65536 bytes. -/
structure File.Within (f : File) : Prop where
  keys : ∀ e ∈ f.entries, 0 ∉ e.key
  strings : ∀ e ∈ f.entries, ∀ s, e.item = .string s → 0 ∉ s
  names : ∀ t ∈ f.infos, 0 ∉ t.name
  depth : ∀ e ∈ f.entries, e.item.Fits 5
  nKv : f.entries.length < 2 ^ 31
  nTensors : f.infos.length ≤ 2 ^ 20
  dims : ∀ t ∈ f.infos, ∀ d ∈ t.dims, d ≤ 2 ^ 40
  product : ∀ t ∈ f.infos, (product t.ne).isSome
  alignment : f.alignment ≤ 65536

/-! ### The header is read back -/

lemma reads_readValue {item : Item} (h : item.Fits 5)
    (hnul : ∀ s, item = .string s → 0 ∉ s) (pos : ℕ) :
    Reader.Reads (readValue false item.type) pos item.bytes (item.read pos) := by
  cases item with
  | scalar v =>
    have hread : Reader.Reads (readScalar v.type) pos v.bytes v.value := by
      have hmap := (reads_take pos _ v.length_bytes).map (scalarValue v.type)
      rwa [v.scalarValue_bytes] at hmap
    rw [Item.bytes, Item.type, Item.read]
    cases v <;> exact hread
  | string s =>
    rw [Item.bytes]
    exact (reads_str pos h (hnul s rfl)).map Value.str
  | array elemType items =>
    have helems : ∀ pos, Reader.Reads
        (skipElems (skipValue false 4) elemType.code items.length) pos (itemsBytes items) () :=
      reads_skipElems (fun item hitem => (h.2 item hitem).1) fun hsize item hitem pos => by
        obtain ⟨htype, hfits⟩ := h.2 item hitem
        rw [← htype] at hsize ⊢
        exact reads_skipValue hfits hsize pos
    have hend : ∀ pos, Reader.Reads (do
        let data ← Reader.position
        skipElems (skipValue false 4) elemType.code items.length
        pure (Value.arr elemType.code items.length data) : Read Value) pos (itemsBytes items)
        (Value.arr elemType.code items.length pos) := fun pos =>
      Reader.Reads.position_bind ((helems pos).bind_pure)
    rw [Item.bytes, List.append_assoc]
    refine (reads_u32 pos (code_lt elemType)).bind ((reads_len _ h.1).bind ?_)
    rw [length_toLe, length_toLe]
    exact hend (pos + 4 + 8)

lemma reads_readKv {e : Entry} (hkey : e.key.length < 2 ^ 64) (hnul : 0 ∉ e.key)
    (hstr : ∀ s, e.item = .string s → 0 ∉ s) (hdepth : e.item.Fits 5) (pos : ℕ) :
    Reader.Reads (readKv false) pos e.bytes (e.read pos) := by
  have hvalue : ∀ pos, Reader.Reads (do
      let value ← readValue false e.item.type
      pure ⟨e.key, e.item.type, value⟩ : Read Kv) pos e.item.bytes
      ⟨e.key, e.item.type, e.item.read pos⟩ := fun pos =>
    (reads_readValue hdepth hstr pos).bind_pure
  refine (reads_str pos hkey hnul).bind ((reads_u32 _ (code_lt e.item.type)).bind ?_)
  simp only [valueType_code, length_toLe]
  exact hvalue _

lemma reads_readDim {d : ℕ} (h : d ≤ 2 ^ 40) (pos : ℕ) :
    Reader.Reads (readDim false) pos (toLe 8 d) (d : ℤ) := by
  have hend : Reader.Reads (if 2 ^ 40 < d then Reader.fail .parse else pure (d : ℤ) : Read ℤ)
      (pos + (toLe 8 d).length) [] (d : ℤ) := by
    rw [if_neg (not_lt.mpr h)]
    exact Reader.Reads.pure _ _
  rw [← List.append_nil (toLe 8 d)]
  exact (reads_len pos (by omega)).bind hend

lemma reads_readTensor {t : Info} {alignment : ℕ} {block : List UInt8}
    (ht : t.WellFormed alignment block) (hnul : 0 ∉ t.name) (hdims : ∀ d ∈ t.dims, d ≤ 2 ^ 40)
    (hoffset : t.offset < 2 ^ 64) (pos : ℕ) :
    Reader.Reads (readTensor false) pos t.bytes t.read := by
  obtain ⟨hmin, hmax⟩ := ht.nDims
  have hdim : ∀ pos, Reader.Reads (Reader.many t.dims.length (readDim false)) pos
      (t.dims.flatMap (toLe 8)) (t.dims.map fun d : ℕ => (d : ℤ)) := fun pos => by
    rw [← Reader.answers_const (toLe 8) _ pos]
    exact Reader.Reads.many (fun d hd pos => reads_readDim (hdims d hd) pos) pos
  refine (reads_str pos ht.name hnul).bind ((reads_u32 _ (by omega)).bind ?_)
  rw [if_neg (by omega)]
  exact (hdim _).bind ((reads_u32 _ ht.type).bind (reads_u64 _ hoffset).bind_pure)

/-- The metadata and the table of a file, as the reader makes them. -/
def File.table (f : File) : Header :=
  ⟨f.version, Reader.answers Entry.bytes Entry.read 24 f.entries, f.infos.map Info.read⟩

section Written

variable {f : File}

lemma length_strBytes (s : List UInt8) : (strBytes s).length = 8 + s.length := by
  rw [strBytes, List.length_append, length_toLe]

/-- An entry takes the 12 bytes the reader asks for. -/
lemma Entry.le_length (e : Entry) : 12 ≤ e.bytes.length := by
  rw [Entry.bytes, List.length_append, List.length_append, length_strBytes, length_toLe]
  omega

/-- A row of the table takes the 28 bytes the reader asks for. -/
lemma Info.le_length {t : Info} (h : 1 ≤ t.dims.length) : 28 ≤ t.bytes.length := by
  have hdims : t.dims.length * 8 ≤ (t.dims.flatMap (toLe 8)).length :=
    le_length_flatMap fun d _ => (length_toLe 8 d).ge
  simp only [Info.bytes, List.length_append, length_strBytes, length_toLe]
  omega

lemma File.le_length (f : File) (hinfos : ∀ t ∈ f.infos, 1 ≤ t.dims.length) :
    f.entries.length * 12 ≤ (f.entries.flatMap Entry.bytes).length ∧
      f.infos.length * 28 ≤ (f.infos.flatMap Info.bytes).length :=
  ⟨le_length_flatMap fun e _ => e.le_length, le_length_flatMap fun t ht =>
    Info.le_length (hinfos t ht)⟩

lemma File.WellFormed.offset_lt (hf : f.WellFormed) {t : Info} (ht : t ∈ f.infos) :
    t.offset < 2 ^ 64 := by
  have hinside := (hf.infos t ht).inside
  have hsize := hf.size
  rw [File.bytes, List.length_append, List.length_append] at hsize
  omega

/-- **The reader runs exactly over the written header.** -/
theorem reads_header (hf : f.WellFormed) (hw : f.Within) :
    Reader.Reads readHeader 0 f.header f.table := by
  obtain ⟨hentries, hinfos⟩ := f.le_length fun t ht => (hf.infos t ht).nDims.1
  have hsize := hf.size
  rw [File.bytes, File.header] at hsize
  simp only [List.length_append, length_toLe] at hsize
  have hversion := hf.version
  have hkvs : ∀ pos, Reader.Reads (Reader.many f.entries.length (readKv false)) pos
      (f.entries.flatMap Entry.bytes) (Reader.answers Entry.bytes Entry.read pos f.entries) :=
    Reader.Reads.many fun e he pos =>
      reads_readKv (hf.entries e he).1 (hw.keys e he) (hw.strings e he) (hw.depth e he) pos
  have htensors : ∀ pos, Reader.Reads (Reader.many f.infos.length (readTensor false)) pos
      (f.infos.flatMap Info.bytes) (f.infos.map Info.read) := fun pos => by
    rw [← Reader.answers_const Info.bytes _ pos]
    exact Reader.Reads.many (fun t ht pos => reads_readTensor (hf.infos t ht) (hw.names t ht)
      (hw.dims t ht) (hf.offset_lt ht) pos) pos
  rw [readHeader, File.header]
  refine (reads_u32 0 (by decide)).bind ?_
  rw [if_neg (not_not.mpr rfl)]
  refine ((reads_u32 _ (by omega)).orFail _).bind ?_
  rw [if_neg (by omega)]
  have hv1 : decide (f.version = 1) = false := decide_eq_false (by omega)
  simp only [hv1]
  refine (reads_len _ (by omega)).bind ((reads_len _ (by omega)).bind ?_)
  refine Reader.Reads.guardRest_bind _ (fun n hn => decide_eq_true ?_)
    ((hkvs _).bind (htensors _).bind_pure)
  rw [List.length_append] at hn
  exact ⟨by omega, by omega, hw.nTensors⟩

/-! ### The data is found -/

lemma and_pred_two_pow (k : ℕ) : 2 ^ k &&& (2 ^ k - 1) = 0 := by
  rw [Nat.and_two_pow_sub_one_eq_mod, Nat.mod_self]

/-- A number of keys that fits an `int` is counted as it is. -/
lemma nKv_eq {g : Header} (h : g.kvs.length < 2 ^ 31) : g.nKv = g.kvs.length :=
  Int32.toInt_ofNat_of_lt h

/-- A search for a key runs through all of them. -/
lemma findKv_eq {g : Header} (h : g.kvs.length < 2 ^ 31) {key : List UInt8} (hnul : 0 ∉ key) :
    g.findKv key = g.kvs.find? fun kv => kv.key = key := by
  have hall : g.kvs.take g.nKv.toNat = g.kvs :=
    List.take_of_length_le (by rw [nKv_eq h, Int.toNat_natCast])
  rw [Header.findKv, hall, cString_eq_self hnul]

lemma File.length_table (f : File) : f.table.kvs.length = f.entries.length :=
  Reader.length_answers _ _ _ _

lemma alignment_of_none {g : Header} (h : g.findKv (literal "general.alignment") = none) :
    g.alignment = .ok 32 := by
  simp only [Header.alignment, h]

/-- A power of two up to 65536 is taken as the alignment. -/
lemma alignment_of_some {g : Header} {key : List UInt8} {k : ℕ} (hle : 2 ^ k ≤ 65536)
    (h : g.findKv (literal "general.alignment") = some ⟨key, .u32, .u (2 ^ k)⟩) :
    g.alignment = .ok (2 ^ k) := by
  have hpos : 0 < 2 ^ k := Nat.two_pow_pos k
  have hok : ¬(2 ^ k = 0 ∨ 2 ^ k &&& (2 ^ k - 1) ≠ 0 ∨ 65536 < 2 ^ k) := by
    rintro (h0 | hpow | hbig)
    · omega
    · exact hpow (and_pred_two_pow k)
    · omega
  simp only [Header.alignment, h, if_neg hok]

/-- The reader finds the alignment of the file. -/
lemma alignment_table (hf : f.WellFormed) (hw : f.Within) :
    f.table.alignment = .ok f.alignment := by
  have hfind : f.table.findKv (literal "general.alignment") =
      f.table.kvs.find? fun kv => kv.key = literal "general.alignment" :=
    findKv_eq (f.length_table ▸ hw.nKv) (by decide +kernel)
  obtain ⟨hnone, hsome⟩ := Reader.find?_answers Entry.bytes Entry.read
    (p := fun kv : Kv => decide (kv.key = literal "general.alignment"))
    (q := fun e : Entry => decide (e.key = literal "general.alignment"))
    (fun _ _ => rfl) 24 f.entries
  cases hentry : f.alignmentEntry with
  | none =>
    have halign : f.alignment = 32 := by simp only [File.alignment, hentry]
    rw [halign]
    exact alignment_of_none (hfind.trans (hnone hentry))
  | some e =>
    obtain ⟨key, item⟩ := e
    obtain ⟨n, rfl⟩ : ∃ n, item = .scalar (.u32 n) := hf.alignmentType _ hentry
    obtain ⟨at_, hfound⟩ := hsome _ hentry
    obtain ⟨k, hk⟩ := hf.alignment
    have halign : f.alignment = n.toNat := by simp only [File.alignment, hentry]
    have hle := hw.alignment
    have hread : Entry.read at_ ⟨key, .scalar (.u32 n)⟩ = ⟨key, .u32, .u (2 ^ k)⟩ := by
      rw [← hk, halign]
      rfl
    rw [hk] at hle ⊢
    exact alignment_of_some hle ((hfind.trans hfound).trans (congrArg some hread))

lemma ne_nonneg (t : Info) : ∀ d ∈ t.ne, 0 ≤ d := by
  intro d hd
  rcases List.mem_append.mp hd with hd | hd
  · obtain ⟨n, -, rfl⟩ := List.mem_map.mp hd
    exact Int.natCast_nonneg n
  · rw [List.eq_of_mem_replicate hd]
    decide

/-- The size of a tensor of a well-formed file is that of its data. -/
lemma nbytes_eq {t : Info} {alignment : ℕ} {block : List UInt8} (ht : t.WellFormed alignment block)
    (hprod : (product t.ne).isSome) (hsize : t.data.length < 2 ^ 64) :
    ggmlNbytes t.type t.ne = t.data.length := by
  obtain ⟨k, hk, hhead, hspans⟩ := ht.known
  obtain ⟨-, hblck, -⟩ := traits_spec hk
  have hne := ne_nonneg t
  obtain ⟨n, hn⟩ := Option.isSome_iff_exists.mp hprod
  obtain ⟨hprodn, -⟩ := product_eq_some hne hn
  simp only [ggmlNbytes, hk]
  rw [if_neg (by simpa using hne), if_neg (not_not.mpr (Int.emod_eq_zero_of_dvd hhead)), hn]
  change bytesOf k n = _
  rw [← hprodn, Spans] at hspans
  rw [bytesOf]
  split_ifs at hspans ⊢ with hi2 h4 hi8
  · obtain ⟨m, hm, -⟩ := hspans
    omega
  · obtain ⟨m, hm, hlen⟩ := hspans
    omega
  · omega
  · obtain ⟨m, hm, hlen⟩ := hspans
    have hnm : n = k.blck * m := by exact_mod_cast hm
    rw [hnm, Nat.mul_div_cancel_left m hblck, ← hlen, Nat.mod_eq_of_lt hsize]

/-- A shape without bytes has no elements. -/
lemma nelements_eq_zero {t : Info} {alignment : ℕ} {block : List UInt8}
    (ht : t.WellFormed alignment block) (hprod : (product t.ne).isSome)
    (hempty : t.data.length = 0) : nelements t.read = 0 := by
  obtain ⟨k, hk, -, hspans⟩ := ht.known
  obtain ⟨-, -, hsize, -⟩ := traits_spec hk
  obtain ⟨n, hn⟩ := Option.isSome_iff_exists.mp hprod
  obtain ⟨hprodn, -⟩ := product_eq_some (ne_nonneg t) hn
  have hzero : t.ne.prod = 0 := by
    rw [hempty, Spans] at hspans
    split_ifs at hspans
    · obtain ⟨m, -, hm⟩ := hspans
      exact hm.elim
    · omega
    · obtain ⟨m, hm, hlen⟩ := hspans
      rw [hm, (Nat.mul_eq_zero.mp hlen.symm).resolve_right hsize.ne', Nat.cast_zero, mul_zero]
  change t.ne.prod.bmod (2 ^ 64) = 0
  rw [hzero]
  rfl

/-- A tensor of a file, as it is handed out. -/
def Info.handedOut (dataOffset : ℕ) (t : Info) : Tensor :=
  { t.read with nbytes := t.data.length, data := some (dataOffset + t.offset) }

lemma place_read {t : Info} {alignment dataOffset : ℕ} {block : List UInt8}
    (ht : t.WellFormed alignment block) (hprod : (product t.ne).isSome)
    (hsize : t.data.length < 2 ^ 64) :
    place alignment dataOffset block.length t.read = .ok (t.handedOut dataOffset) := by
  obtain ⟨k, hk, -⟩ := ht.known
  have hinside := ht.inside
  have hnb : ggmlNbytes t.read.type t.read.ne = t.data.length := nbytes_eq ht hprod hsize
  have hknown : (traits t.read.type).isNone = false := by
    rw [Info.read, hk, Option.isNone_some]
  have hshape : ¬(t.data.length = 0 ∧ nelements t.read ≠ 0) := fun hshape =>
    hshape.2 (nelements_eq_zero ht hprod hshape.1)
  have hrange : ¬(t.read.offset % alignment ≠ 0 ∨ block.length < t.read.offset ∨
      block.length - t.read.offset < t.data.length) := by
    have halign : t.offset % alignment = 0 := Nat.mod_eq_zero_of_dvd ht.aligned
    change ¬(t.offset % alignment ≠ 0 ∨ block.length < t.offset ∨
      block.length - t.offset < t.data.length)
    omega
  simp only [place, hnb, hknown, Bool.false_eq_true, if_false, if_neg hshape, if_neg hrange]
  rfl

/-- What the parser answers for a file. -/
def File.handle (f : File) : Handle :=
  ⟨⟨f.version, f.table.kvs, f.infos.map (Info.handedOut f.dataOffset)⟩, f.alignment, f.dataOffset⟩

lemma File.WellFormed.data_lt (hf : f.WellFormed) {t : Info} (ht : t ∈ f.infos) :
    t.data.length < 2 ^ 64 := by
  have hinside := (hf.infos t ht).inside
  have hsize := hf.size
  rw [File.bytes, List.length_append, List.length_append] at hsize
  omega

lemma File.WellFormed.length_bytes (hf : f.WellFormed) :
    f.bytes.length = f.dataOffset + f.block.length := by
  rw [File.bytes, List.length_append, List.length_append, ← hf.padding, Nat.add_assoc]

/-- **Parse undoes write.** -/
theorem parse_bytes (hf : f.WellFormed) (hw : f.Within) : parse f.bytes = .ok f.handle := by
  have hread : readHeader.run ⟨0, f.bytes⟩ = .ok (f.table, ⟨f.header.length, f.padding ++ f.block⟩) := by
    rw [← Nat.zero_add f.header.length]
    exact reads_header hf hw (f.padding ++ f.block)
  have hplace : f.table.tensors.mapM (place f.alignment f.dataOffset f.block.length) =
      .ok (f.infos.map (Info.handedOut f.dataOffset)) := by
    refine Loop.mapM_eq_ok.mpr ?_
    rw [File.table, List.forall₂_map_left_iff, List.forall₂_map_right_iff]
    exact List.forall₂_same.mpr fun t ht =>
      place_read (hf.infos t ht) (hw.product t ht) (hf.data_lt ht)
  have hinside : ¬f.bytes.length < f.dataOffset := by
    rw [hf.length_bytes]
    omega
  have hsize : f.bytes.length - f.dataOffset = f.block.length := by
    rw [hf.length_bytes, Nat.add_sub_cancel_left]
  calc parse f.bytes = layout f.bytes.length f.header.length f.table := by rw [parse, hread]
    _ = (if f.bytes.length < f.dataOffset then .error .parse else do
          let tensors ← f.table.tensors.mapM
            (place f.alignment f.dataOffset (f.bytes.length - f.dataOffset))
          pure ⟨⟨f.version, f.table.kvs, tensors⟩, f.alignment, f.dataOffset⟩) := by
        rw [layout, alignment_table hf hw]
        rfl
    _ = .ok f.handle := by
        rw [if_neg hinside, hsize, hplace]
        rfl

/-! ### What is handed out -/

/-- A key and value that were read are those of an entry; the elements of an array stand in the
file where the value points. -/
structure Entry.Matches (bytes : List UInt8) (e : Entry) (kv : Kv) : Prop where
  key : kv.key = e.key
  type : kv.type = e.item.type
  scalar : ∀ v, e.item = .scalar v → kv.value = v.value
  string : ∀ s, e.item = .string s → kv.value = .str s
  array : ∀ elemType items, e.item = .array elemType items →
    ∃ data, kv.value = .arr elemType.code items.length data ∧ itemsBytes items <+: bytes.drop data
  strings : ∀ ss : List (List UInt8), e.item = .array .string (ss.map Item.string) →
    ∀ idx s, ss[idx]? = some s → arrStr bytes kv idx = some s

/-- A tensor that was read is the one written, and its bytes stand where it points. -/
structure Info.Matches (bytes : List UInt8) (t : Info) (r : Tensor) : Prop where
  name : r.name = t.name
  nDims : r.nDims = t.dims.length
  ne : r.ne = t.ne
  type : r.type = t.type
  nbytes : r.nbytes = t.data.length
  data : ∃ p, r.data = some p ∧ t.data <+: bytes.drop p

lemma strAt_itemsBytes {ss : List (List UInt8)} (hss : ∀ s ∈ ss, s.length < 2 ^ 64) {idx : ℕ}
    {s : List UInt8} (h : ss[idx]? = some s) (ys : List UInt8) :
    strAt idx (itemsBytes (ss.map Item.string) ++ ys) = s := by
  induction ss generalizing idx with
  | nil => cases h
  | cons s' ss ih =>
    have hlen : ofLe (toLe 8 s'.length) = s'.length :=
      ofLe_toLe (hss s' List.mem_cons_self)
    have hbytes : itemsBytes ((s' :: ss).map Item.string) ++ ys =
        toLe 8 s'.length ++ (s' ++ (itemsBytes (ss.map Item.string) ++ ys)) := by
      rw [List.map_cons, itemsBytes, Item.bytes, strBytes]
      simp only [List.append_assoc]
    have htake : (toLe 8 s'.length ++ (s' ++ (itemsBytes (ss.map Item.string) ++ ys))).take 8 =
        toLe 8 s'.length := List.take_left' (length_toLe 8 _)
    have hdrop : (toLe 8 s'.length ++ (s' ++ (itemsBytes (ss.map Item.string) ++ ys))).drop 8 =
        s' ++ (itemsBytes (ss.map Item.string) ++ ys) := List.drop_left' (length_toLe 8 _)
    rw [hbytes]
    cases idx with
    | zero =>
      cases h
      rw [strAt, htake, hdrop, hlen, List.take_left]
    | succ idx =>
      rw [strAt, htake, hlen, ← List.drop_drop, hdrop, List.drop_left]
      exact ih (fun s hs => hss s (List.mem_cons_of_mem s' hs)) h

/-- An entry that stands at `pos` is matched by what is read there. -/
lemma Entry.matches_read {bytes : List UInt8} {e : Entry} {pos : ℕ} (hdepth : e.item.Fits 5)
    (h : e.bytes <+: bytes.drop pos) : e.Matches bytes (e.read pos) := by
  have hitem : e.item.bytes <+: bytes.drop (pos + (strBytes e.key).length + 4) := by
    have hrest := (Reader.drop_of_append_isPrefix h).2
    have hlast := (Reader.drop_of_append_isPrefix hrest).2
    rwa [length_toLe] at hlast
  have harray : ∀ elemType items, e.item = .array elemType items →
      itemsBytes items <+: bytes.drop (pos + (strBytes e.key).length + 4 + 12) := by
    intro elemType items hi
    rw [hi, Item.bytes] at hitem
    have hlast := (Reader.drop_of_append_isPrefix hitem).2
    rwa [List.length_append, length_toLe, length_toLe] at hlast
  refine ⟨rfl, rfl, ?_, ?_, ?_, ?_⟩
  · intro v hv
    rw [Entry.read, hv]
    rfl
  · intro s hs
    rw [Entry.read, hs]
    rfl
  · intro elemType items hi
    refine ⟨pos + (strBytes e.key).length + 4 + 12, ?_, harray elemType items hi⟩
    rw [Entry.read, hi]
    rfl
  · intro ss hss idx s hidx
    obtain ⟨ys, hys⟩ := harray _ _ hss
    rw [hss] at hdepth
    have hlens : ∀ s ∈ ss, s.length < 2 ^ 64 := fun s hs =>
      (hdepth.2 (.string s) (List.mem_map_of_mem hs)).2
    have hlt : idx < ss.length := (List.getElem?_eq_some_iff.mp hidx).1
    have hvalue : (e.read pos).value = .arr ValueType.string.code (ss.map Item.string).length
        (pos + (strBytes e.key).length + 4 + 12) := by
      rw [Entry.read, hss]
      rfl
    rw [arrStr, hvalue]
    simp only [List.length_map, ne_eq, not_true_eq_false, false_or, if_neg (not_le.mpr hlt)]
    rw [← hys, strAt_itemsBytes hlens hidx ys]

/-- A tensor that is handed out is the one written. -/
lemma Info.matches_handedOut (hf : f.WellFormed) {t : Info} (ht : t ∈ f.infos) :
    t.Matches f.bytes (t.handedOut f.dataOffset) := by
  refine ⟨rfl, rfl, rfl, rfl, rfl, f.dataOffset + t.offset, rfl, ?_⟩
  have hblock : f.bytes.drop f.dataOffset = f.block := by
    rw [File.bytes, ← List.append_assoc, List.drop_left']
    rw [List.length_append, hf.padding]
  rw [← List.drop_drop, hblock]
  exact (hf.infos t ht).placed

/-! ### Files that are cut off -/

lemma extends_take (n : ℕ) : Reader.Extends (curTake n) := Reader.Extends.take Status.parse n

lemma extends_u32 : Reader.Extends curU32 := (extends_take 4).map ofLe

lemma extends_u64 : Reader.Extends curU64 := (extends_take 8).map ofLe

lemma extends_len (v1 : Bool) : Reader.Extends (curLen v1) := by
  cases v1
  · exact extends_u64
  · exact extends_u32

lemma extends_bytes (v1 : Bool) : Reader.Extends (curBytes v1) :=
  (extends_len v1).bind extends_take

lemma extends_str (v1 : Bool) : Reader.Extends (curStr v1) :=
  (extends_bytes v1).bind fun _ => .pure _

/-- Room that is there stays there when the file goes on. -/
lemma extends_guard {n k : ℕ} : Reader.Extends
    (Reader.guardRest .parse fun left => decide (n ≤ left / k) : Read Unit) :=
  .guardRest _ fun _ _ hle h =>
    decide_eq_true ((of_decide_eq_true h).trans (Nat.div_le_div_right hle))

lemma extends_skipElems {skip : ℕ → Read Unit} (hskip : ∀ t, Reader.Extends (skip t))
    (elemType n : ℕ) : Reader.Extends (skipElems skip elemType n) :=
  .ite (extends_guard.bind fun _ => (extends_take _).bind fun _ => .pure _)
    (.skipMany (hskip elemType) n)

lemma extends_skipValue (v1 : Bool) (depth code : ℕ) :
    Reader.Extends (skipValue v1 depth code) := by
  induction depth generalizing code with
  | zero => exact .fail _
  | succ depth ih =>
    rw [skipValue]
    split
    · exact (extends_bytes v1).bind fun _ => .pure _
    · exact extends_u32.bind fun elemType => (extends_len v1).bind fun n =>
        extends_skipElems ih elemType n
    · exact (extends_take _).bind fun _ => .pure _
    · exact .fail _

lemma extends_readValue (v1 : Bool) (t : ValueType) : Reader.Extends (readValue v1 t) := by
  rw [readValue.eq_def]
  split
  · exact (extends_str v1).map _
  · exact extends_u32.bind fun elemType => (extends_len v1).bind fun n =>
      Reader.Extends.position.bind fun data =>
        (extends_skipElems (extends_skipValue v1 4) elemType n).bind fun _ => .pure _
  · exact (extends_take _).map _

lemma extends_readKv (v1 : Bool) : Reader.Extends (readKv v1) := by
  refine (extends_str v1).bind fun key => extends_u32.bind fun code => ?_
  split
  · exact .fail _
  · exact (extends_readValue v1 _).bind fun _ => .pure _

lemma extends_readDim (v1 : Bool) : Reader.Extends (readDim v1) :=
  (extends_len v1).bind fun _ => .ite (.fail _) (.pure _)

lemma extends_readTensor (v1 : Bool) : Reader.Extends (readTensor v1) :=
  (extends_str v1).bind fun _ => extends_u32.bind fun nd => .ite (.fail _)
    ((extends_readDim v1).many nd |>.bind fun _ => extends_u32.bind fun _ =>
      extends_u64.bind fun _ => .pure _)

/-- A header that is read from a file is read from every longer one. -/
lemma extends_readHeader : Reader.Extends readHeader := by
  refine extends_u32.bind fun _ => .ite (.fail _) ((extends_u32.orFail _).bind fun version =>
    .ite (.fail _) ?_)
  refine (extends_len _).bind fun nTensors => (extends_len _).bind fun nKv => ?_
  refine (Reader.Extends.guardRest _ fun m n hle h => ?_).bind fun _ =>
    ((extends_readKv _).many nKv).bind fun _ =>
      ((extends_readTensor _).many nTensors).bind fun _ => .pure _
  obtain ⟨hkv, htensors, hmax⟩ := of_decide_eq_true h
  exact decide_eq_true ⟨hkv.trans (Nat.div_le_div_right hle),
    htensors.trans (Nat.div_le_div_right hle), hmax⟩

/-- A file that ends before the data of a tensor does is refused. -/
lemma parse_take (hf : f.WellFormed) (hw : f.Within) {t : Info} (ht : t ∈ f.infos) {n : ℕ}
    (hn : n < f.dataOffset + t.offset + t.data.length) :
    ∃ st, parse (f.bytes.take n) = .error st := by
  cases hparse : parse (f.bytes.take n) with
  | error st => exact ⟨st, rfl⟩
  | ok h =>
    exfalso
    obtain ⟨g, pos, hopen⟩ := parse_spec hparse
    obtain ⟨rest, hhead⟩ := hopen.header
    -- the whole file has the same header, which is the one written
    have hwhole := extends_readHeader _ _ _ hhead (f.bytes.drop n)
    rw [List.take_append_drop] at hwhole
    have hread := reads_header hf hw (f.padding ++ f.block)
    rw [Nat.zero_add] at hread
    rw [File.bytes, hread] at hwhole
    injection hwhole with hpair
    obtain ⟨hg, hc⟩ := Prod.mk.injEq .. ▸ hpair
    have hpos : f.header.length = pos := congrArg Cursor.pos hc
    have halign : f.alignment = h.alignment := by
      have hboth := hopen.alignment
      rw [← hg, alignment_table hf hw] at hboth
      exact Except.ok.inj hboth
    have hoffset : h.dataOffset = f.dataOffset := by
      rw [hopen.dataOffset, ← hpos, ← halign, File.dataOffset]
    have hmem : t.read ∈ g.tensors := hg ▸ List.mem_map_of_mem ht
    obtain ⟨t', -, hplace⟩ := Loop.exists_of_forall₂ hopen.tensors.flip hmem
    obtain ⟨k, hk, -⟩ := (hf.infos t ht).known
    obtain ⟨-, -, -, hrange⟩ := place_spec (t := t.read) hk hplace
    have hnb : ggmlNbytes t.read.type t.read.ne = t.data.length :=
      nbytes_eq (hf.infos t ht) (hw.product t ht) (hf.data_lt ht)
    have hinside := hopen.inside
    have hlen : (f.bytes.take n).length ≤ n := List.length_take_le n _
    rw [hnb] at hrange
    change t.offset + t.data.length ≤ _ at hrange
    omega

/-- **GGUF round trip.**  From a well-formed file of version 2 or 3 within the limits of the reader
the parser answers the keys, the values, and the tensors with their bytes, as they were written;
and it refuses the file cut off anywhere before the end of the data of one of its tensors. -/
theorem gguf_round_trip (f : File) (hf : f.WellFormed) (hw : f.Within) :
    (∃ h, parse f.bytes = .ok h ∧ h.version = f.version ∧ h.nKv = f.entries.length ∧
        h.alignment = f.alignment ∧ List.Forall₂ (Entry.Matches f.bytes) f.entries h.kvs ∧
        List.Forall₂ (Info.Matches f.bytes) f.infos h.tensors) ∧
      ∀ t ∈ f.infos, ∀ n < f.dataOffset + t.offset + t.data.length,
        ∃ st, parse (f.bytes.take n) = .error st := by
  refine ⟨⟨f.handle, parse_bytes hf hw, rfl, ?_, rfl, ?_, ?_⟩, fun t ht n hn =>
    parse_take hf hw ht hn⟩
  · have hlen : f.handle.kvs.length = f.entries.length := f.length_table
    rw [nKv_eq (hlen ▸ hw.nKv), hlen]
  · have hall : f.entries.flatMap Entry.bytes <+: f.bytes.drop 24 := by
      have hbytes : f.bytes = (toLe 4 ggufMagic ++ toLe 4 f.version ++ toLe 8 f.infos.length ++
          toLe 8 f.entries.length) ++ (f.entries.flatMap Entry.bytes ++
            (f.infos.flatMap Info.bytes ++ (f.padding ++ f.block))) := by
        simp only [File.bytes, File.header, List.append_assoc]
      rw [hbytes, List.drop_left' (by simp only [List.length_append, length_toLe])]
      exact List.prefix_append _ _
    exact Reader.forall₂_answers hall fun e he pos hpos =>
      Entry.matches_read (hw.depth e he) hpos
  · refine List.forall₂_map_right_iff.mpr (List.forall₂_same.mpr fun t ht => ?_)
    exact Info.matches_handedOut hf ht

end Written

/-! ### Two files -/

/-- A file with one key and one tensor of four bytes. -/
def sample (item : Item) (padding : ℕ) : File where
  version := 3
  entries := [⟨[107], item⟩]
  infos := [⟨[116], [4], 24, 0, [1, 2, 3, 4]⟩]
  padding := List.replicate padding 0
  block := [1, 2, 3, 4]

lemma sample_alignmentEntry (item : Item) (padding : ℕ) :
    (sample item padding).alignmentEntry = none := by
  refine List.find?_eq_none.mpr fun e he => ?_
  have hkey : ¬decide (([107] : List UInt8) = literal "general.alignment") = true := by
    decide +kernel
  rw [List.mem_singleton.mp he]
  exact hkey

lemma sample_wellFormed {item : Item} {depth padding : ℕ} (hitem : item.Fits depth)
    (hpad : (sample item padding).header.length + padding = (sample item padding).dataOffset)
    (hsize : (sample item padding).bytes.length < 2 ^ 63) : (sample item padding).WellFormed where
  version := .inr rfl
  entries := by
    intro e he
    rw [List.mem_singleton.mp he]
    exact ⟨show 1 < 2 ^ 64 by decide, depth, hitem⟩
  alignment := ⟨5, by rw [File.alignment, sample_alignmentEntry]; rfl⟩
  alignmentType := by
    intro e he
    rw [sample_alignmentEntry] at he
    cases he
  infos := by
    intro t ht
    rw [List.mem_singleton.mp ht]
    exact
      { name := by decide
        nDims := by decide
        type := by decide
        known := ⟨⟨24, "i8", 1, 1⟩, by decide +kernel, by decide, 4, by decide, by decide⟩
        aligned := Nat.dvd_zero _
        inside := show 0 + 4 ≤ 4 by decide
        placed := List.prefix_rfl }
  padding := by rwa [show (sample item padding).padding.length = padding from
    List.length_replicate]
  size := hsize

/-- A list of two strings, and a tensor. -/
theorem gguf_round_trip_sample :
    ∃ h, parse (sample (.array .string [.string [104, 105], .string []]) 28).bytes = .ok h ∧
      List.Forall₂ (Info.Matches (sample (.array .string [.string [104, 105], .string []]) 28).bytes)
        [⟨[116], [4], 24, 0, [1, 2, 3, 4]⟩] h.tensors ∧
      ∃ st, parse ((sample (.array .string [.string [104, 105], .string []]) 28).bytes.take 131) =
        .error st := by
  have hfits : (Item.array .string [.string [104, 105], .string []]).Fits 5 := by
    refine ⟨by decide, fun item hitem => ?_⟩
    rcases List.mem_cons.mp hitem with rfl | hitem
    · exact ⟨rfl, show 2 < 2 ^ 64 by decide⟩
    · rw [List.mem_singleton.mp hitem]
      exact ⟨rfl, show 0 < 2 ^ 64 by decide⟩
  have hf : (sample (.array .string [.string [104, 105], .string []]) 28).WellFormed :=
    sample_wellFormed hfits (by decide +kernel) (by decide +kernel)
  have hw : (sample (.array .string [.string [104, 105], .string []]) 28).Within :=
    { keys := fun e he => by rw [List.mem_singleton.mp he]; decide
      strings := fun e he s hs => by rw [List.mem_singleton.mp he] at hs; cases hs
      names := fun t ht => by rw [List.mem_singleton.mp ht]; decide
      depth := fun e he => by rw [List.mem_singleton.mp he]; exact hfits
      nKv := by decide
      nTensors := by decide
      dims := fun t ht d hd => by
        rw [List.mem_singleton.mp ht] at hd
        rw [List.mem_singleton.mp hd]
        decide
      product := fun t ht => by rw [List.mem_singleton.mp ht]; decide
      alignment := by rw [File.alignment, sample_alignmentEntry]; decide }
  obtain ⟨⟨h, hparse, -, -, -, -, htensors⟩, hcut⟩ := gguf_round_trip _ hf hw
  exact ⟨h, hparse, htensors, hcut _ List.mem_cons_self 131 (by decide +kernel)⟩

/-- `depth + 1` arrays around one byte. -/
def nested : ℕ → Item
  | 0 => .array .u8 [.scalar (.u8 1)]
  | depth + 1 => .array .array [nested depth]

lemma nested_fits (depth : ℕ) : (nested depth).Fits (depth + 1) := by
  induction depth with
  | zero =>
    refine ⟨by decide, fun item hitem => ?_⟩
    rw [List.mem_singleton.mp hitem]
    exact ⟨rfl, trivial⟩
  | succ depth ih =>
    refine ⟨show 1 < 2 ^ 64 by decide, fun item hitem => ?_⟩
    rw [List.mem_singleton.mp hitem]
    refine ⟨?_, ih⟩
    cases depth <;> rfl

/-- Six arrays around a byte are a well-formed value, and the reader refuses them. -/
theorem deep_array_refused : ¬∀ f : File, f.WellFormed → ∃ h, parse f.bytes = .ok h := by
  intro hall
  obtain ⟨h, hparse⟩ := hall (sample (nested 5) 17)
    (sample_wellFormed (nested_fits 5) (by decide +kernel) (by decide +kernel))
  have hrefused : parse (sample (nested 5) 17).bytes = .error .parse := by decide +kernel
  rw [hrefused] at hparse
  cases hparse

end VibeVoice.Gguf
