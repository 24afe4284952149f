import Mathlib.Data.List.GetD
import VibeVoice.Kernels.Ternary
import VibeVoice.Lib.Fault
import VibeVoice.Lib.InPlace
import VibeVoice.Model.Gguf

/-!
Decoding the tensors of a GGUF file to floats (`gguf.c`).

The arithmetic of `float` is a parameter.  A read outside of the bytes of the tensor is a fault,
and so is a store outside of the caller's buffer.

* `dequantRowsF32`: the decoder.
* `element`: what it makes of one element, wherever it stands.
* `packQ6k`, `packI2s`: the packings.
* `dequantRowsF32_iff`: the tensors of which every range of rows is decoded from their own bytes.
-/

namespace VibeVoice.Gguf

open InPlace

/-- The arithmetic of `float`. -/
structure Floats (F : Type) where
  /-- The `float` of some bits. -/
  ofBits : ℕ → F
  ofInt : ℤ → F
  mul : F → F → F
  /-- `vv_half_to_float`. -/
  ofHalf : ℕ → F

/-! ### Loads -/

/-- A `memcpy` of `n` bytes at `p`, as a number. -/
def loadLe (data : List UInt8) (p n : ℕ) : Option ℕ :=
  if p + n ≤ data.length then some (ofLe ((data.drop p).take n)) else none

/-- An `int8_t`. -/
def loadI8 (data : List UInt8) (p : ℕ) : Option ℤ := data[p]?.map fun b => signed 8 b.toNat

/-- The bytes of a tensor. -/
def bytesAt (bytes : List UInt8) (data nbytes : ℕ) : List UInt8 := (bytes.drop data).take nbytes

/-! ### The decoders -/

variable {F : Type} (fl : Floats F) (data : List UInt8)

/-- A loop that fills `out` from its start on. -/
def fill (value : ℕ → Option F) (n : ℕ) (out : Memory F) : Option (Memory F) :=
  (List.range n).foldlM (fun out i => value i >>= fun v => store out i v) out

/-- `bf16_to_f32`. -/
def bf16ToF32 (b : ℕ) : F := fl.ofBits (b <<< 16)

/-- A block of `VV_GGML_Q8_0`, at `b`. -/
def q8Block (b y : ℕ) (out : Memory F) : Option (Memory F) :=
  loadLe data b 2 >>= fun dh => (List.range 32).foldlM (fun out l =>
    loadI8 data (b + 2 + l) >>= fun q => store out (y + l) (fl.mul (fl.ofInt q) (fl.ofHalf dh))) out

/-- `q1` to `q4`: a nibble of `ql` and two bits of `qh`. -/
def q6kCode (low high : UInt8) : ℤ := (low ||| (high &&& 3) <<< 4).toNat - 32

/-- One turn of the loop over `l`, in the half `n` of a block at `b`. -/
def q6kLane (b n y : ℕ) (d : F) (out : Memory F) (l : ℕ) : Option (Memory F) :=
  let ql := b + 64 * n
  let qh := b + 128 + 32 * n
  let sc := b + 192 + 8 * n
  let value := fun s q => fl.mul (fl.mul d (fl.ofInt s)) (fl.ofInt q)
  data[ql + l]? >>= fun low => data[ql + l + 32]? >>= fun low' => data[qh + l]? >>= fun high =>
  loadI8 data (sc + l / 16) >>= fun s1 => loadI8 data (sc + l / 16 + 2) >>= fun s2 =>
  loadI8 data (sc + l / 16 + 4) >>= fun s3 => loadI8 data (sc + l / 16 + 6) >>= fun s4 =>
  store out (y + l) (value s1 (q6kCode (low &&& 0xF) high)) >>= fun out =>
  store out (y + (l + 32)) (value s2 (q6kCode (low' &&& 0xF) (high >>> 2))) >>= fun out =>
  store out (y + (l + 64)) (value s3 (q6kCode (low >>> 4) (high >>> 4))) >>= fun out =>
  store out (y + (l + 96)) (value s4 (q6kCode (low' >>> 4) (high >>> 6)))

/-- `vv_q6k_dequant_row`, of the blocks at `base`, to `y` and on. -/
def q6kDequantRow (base y k : ℕ) (out : Memory F) : Option (Memory F) :=
  (List.range (k / 256)).foldlM (fun out i =>
    let b := base + i * 210
    loadLe data (b + 208) 2 >>= fun dh => (List.range 2).foldlM (fun out n =>
      (List.range 32).foldlM
        (q6kLane fl data b n (y + i * 256 + n * 128) (fl.ofHalf dh)) out) out) out

/-- `map2bit`. -/
def map2bit (code : UInt8) : ℤ := [-1, 0, 1, 0].getD code.toNat 0

/-- One turn of the loop over `j`, in a block of `VV_GGML_I2_S` at `b`. -/
def i2sLane (b y : ℕ) (s : F) (out : Memory F) (j : ℕ) : Option (Memory F) :=
  let value := fun code => fl.mul s (fl.ofInt (map2bit code))
  data[b + j]? >>= fun b =>
  store out (y + j) (value (b >>> 6 &&& 3)) >>= fun out =>
  store out (y + (j + 32)) (value (b >>> 4 &&& 3)) >>= fun out =>
  store out (y + (j + 64)) (value (b >>> 2 &&& 3)) >>= fun out =>
  store out (y + (j + 96)) (value (b >>> 0 &&& 3))

/-- The scale of `vv_gguf_i8s_view` and `vv_gguf_i2s_view`, behind `n` bytes of codes. -/
def viewScale (n : ℕ) : Option F := (loadLe data n 4).map fl.ofBits

/-- The `switch` on the type, with `k` elements a row and `n` in the tensor. -/
def dequantRows (type : ℕ) (k : ℤ) (n row0 nrows : ℕ) (out : Memory F) : Checked (Memory F) :=
  let k' := k.toNat
  match type with
  | 0 => ExceptT.lift <|
      fill (fun i => (loadLe data (row0 * k' * 4 + i * 4) 4).map fl.ofBits) (nrows * k') out
  | 1 => ExceptT.lift <|
      fill (fun i => (loadLe data (row0 * k' * 2 + i * 2) 2).map fl.ofHalf) (nrows * k') out
  | 30 => ExceptT.lift <|
      fill (fun i => (loadLe data (row0 * k' * 2 + i * 2) 2).map (bf16ToF32 fl)) (nrows * k') out
  | 8 => ExceptT.lift <|
      let bpr := k' / 32
      (List.range nrows).foldlM (fun out r => (List.range bpr).foldlM (fun out j =>
        q8Block fl data ((row0 + r) * bpr * 34 + j * 34) (r * k' + j * 32) out) out) out
  | 14 => ExceptT.lift <|
      let bpr := k' / 256
      (List.range nrows).foldlM (fun out r =>
        q6kDequantRow fl data ((row0 + r) * bpr * 210) (r * k') k' out) out
  | 37 => ExceptT.lift <|
      viewScale fl data n >>= fun s => fill (fun i => (loadI8 data (row0 * k' + i)).map fun q =>
        fl.mul (fl.ofInt q) s) (nrows * k') out
  | 36 =>
    if k % 128 ≠ 0 then throw .unsupported
    else ExceptT.lift <| viewScale fl data (n / 4) >>= fun s =>
      (List.range nrows).foldlM (fun out r => (List.range (k' / 128)).foldlM (fun out blk =>
        (List.range 32).foldlM
          (i2sLane fl data ((row0 + r) * (k' / 4) + blk * 32) (r * k' + blk * 128) s) out)
        out) out
  | _ => throw .unsupported

/-- `t->ne[0]`. -/
def Tensor.rowLen (t : Tensor) : ℤ := t.ne.headD 1

/-- `rows`. -/
def Tensor.rows (t : Tensor) : ℤ :=
  (nelements t).tdiv (if t.rowLen ≠ 0 then t.rowLen else 1)

/-- `vv_gguf_dequant_rows_f32`. -/
def dequantRowsF32 (bytes : List UInt8) (t : Tensor) (row0 nrows : ℤ) (out : Memory F) :
    Checked (Memory F) :=
  match t.data with
  | none => throw .unsupported
  | some p =>
    if row0 < 0 ∨ nrows < 0 ∨ t.rows < row0 + nrows then throw .invalidArg
    else dequantRows fl (bytesAt bytes p t.nbytes) t.type t.rowLen (nelements t).toNat
      row0.toNat nrows.toNat out

/-! ### The packings -/

/-- The bytes that `pack_q6k` writes for one block after another: codes `q`, a scale `sc` for every
16 of them and an `fp16` for every block. -/
def packQ6k (q : ℕ → ℤ) (sc : ℕ → Int8) (d : ℕ → UInt16) (p : ℕ) : UInt8 :=
  let i := p / 210
  let r := p % 210
  let v := fun e => (q (256 * i + e) + 32).toNat
  if r < 128 then
    let base := r / 64 * 128 + r % 64
    UInt8.ofNat (v base &&& 0xF ||| (v (base + 64) &&& 0xF) <<< 4)
  else if r < 192 then
    let base := (r - 128) / 32 * 128 + (r - 128) % 32
    UInt8.ofNat (v base >>> 4 ||| v (base + 32) >>> 4 <<< 2 ||| v (base + 64) >>> 4 <<< 4 |||
      v (base + 96) >>> 4 <<< 6)
  else if r < 208 then (sc (16 * i + (r - 192))).toUInt8
  else UInt8.ofNat ((d i).toNat / 256 ^ (r - 208))

/-- The bytes of the 2-bit codes, in blocks of 128. -/
def packI2s (code : ℕ → ℕ) (p : ℕ) : UInt8 :=
  let base := p / 32 * 128 + p % 32
  UInt8.ofNat (code base <<< 6 ||| code (base + 32) <<< 4 ||| code (base + 64) <<< 2 |||
    code (base + 96))

/-! ### Elements -/

/-- A byte, where there is one. -/
def byteAt (p : ℕ) : UInt8 := data.getD p 0

/-- What a `memcpy` of `n` bytes finds. -/
def leAt (p n : ℕ) : ℕ := ofLe ((data.drop p).take n)

/-- An `int8_t`, where there is one. -/
def i8At (p : ℕ) : ℤ := signed 8 (byteAt data p).toNat

/-- Element `e` of the blocks of `VV_GGML_Q6_K`. -/
def q6kElement (e : ℕ) : F :=
  let b := e / 256 * 210
  let n := e % 256 / 128
  let c := e % 128 / 32
  let ql := byteAt data (b + 64 * n + e % 32 + c % 2 * 32)
  let low := if c < 2 then ql &&& 0xF else ql >>> 4
  let high := byteAt data (b + 128 + 32 * n + e % 32) >>> UInt8.ofNat (2 * c)
  let s := i8At data (b + 192 + e % 256 / 16)
  fl.mul (fl.mul (fl.ofHalf (leAt data (b + 208) 2)) (fl.ofInt s)) (fl.ofInt (q6kCode low high))

/-- Element `e` of the blocks of `VV_GGML_I2_S`. -/
def i2sElement (s : F) (e : ℕ) : F :=
  let code := byteAt data (e / 128 * 32 + e % 32) >>> UInt8.ofNat (6 - 2 * (e % 128 / 32)) &&& 3
  fl.mul s (fl.ofInt (map2bit code))

/-- Element `e` of a tensor of `n` elements. -/
def element (type n e : ℕ) : F :=
  match type with
  | 0 => fl.ofBits (leAt data (e * 4) 4)
  | 1 => fl.ofHalf (leAt data (e * 2) 2)
  | 30 => bf16ToF32 fl (leAt data (e * 2) 2)
  | 8 => fl.mul (fl.ofInt (i8At data (e / 32 * 34 + 2 + e % 32)))
      (fl.ofHalf (leAt data (e / 32 * 34) 2))
  | 14 => q6kElement fl data e
  | 37 => fl.mul (fl.ofInt (i8At data e)) (fl.ofBits (leAt data n 4))
  | _ => i2sElement fl data (fl.ofBits (leAt data (n / 4) 4)) e

variable {fl data}

lemma loadLe_eq {p n : ℕ} (h : p + n ≤ data.length) : loadLe data p n = some (leAt data p n) :=
  if_pos h

lemma getElem?_eq_byteAt {p : ℕ} (h : p < data.length) : data[p]? = some (byteAt data p) := by
  rw [List.getElem?_eq_getElem h, byteAt, List.getD_eq_getElem _ _ h]

lemma loadI8_eq {p : ℕ} (h : p < data.length) : loadI8 data p = some (i8At data p) := by
  rw [loadI8, getElem?_eq_byteAt h]
  rfl

section Loops

variable {m : Memory F} {S : Set ℕ} [DecidablePred (· ∈ S)] {f : ℕ → F}

/-- A loop over elements that are each there. -/
lemma fill_eq {value : ℕ → Option F} {n : ℕ} (hvalue : ∀ i < n, value i = some (f i))
    (hm : ∀ i < n, (m i).isSome) :
    fill value n m = some (patch m (upto ∅ 0 n) f) := by
  have hfill : (List.range n).foldlM (fun out i => value i >>= fun v => store out i v)
      (patch m ∅ f) = some (patch m (upto ∅ 0 n) f) := by
    refine store_range (S := ∅) _ 0 n (fun i hi out => ?_) fun i hi => ?_
    · rw [hvalue i hi, Nat.zero_add]
      rfl
    · rw [Nat.zero_add]
      exact hm i hi
  exact hfill

/-- A block of `VV_GGML_Q8_0`. -/
lemma q8Block_eq {b y : ℕ} (hb : b + 34 ≤ data.length) (hm : ∀ i < 32, (m (y + i)).isSome)
    (hf : ∀ l < 32, f (y + l) =
      fl.mul (fl.ofInt (i8At data (b + 2 + l))) (fl.ofHalf (leAt data b 2))) :
    q8Block fl data b y (patch m S f) = some (patch m (upto S y 32) f) := by
  rw [q8Block, loadLe_eq (by omega), Option.bind_eq_bind, Option.bind_some]
  refine store_range (S := S) _ y 32 (fun l hl out => ?_) hm
  rw [loadI8_eq (by omega), hf l hl]
  rfl

/-- A half of a block of `VV_GGML_Q6_K`. -/
lemma q6kHalf_eq {b n y : ℕ} {d : F} (hn : n < 2) (hb : b + 210 ≤ data.length)
    (hm : ∀ i < 128, (m (y + i)).isSome)
    (hf : ∀ c < 4, ∀ l < 32, f (y + (l + c * 32)) =
      fl.mul (fl.mul d (fl.ofInt (i8At data (b + 192 + 8 * n + l / 16 + 2 * c))))
        (fl.ofInt (q6kCode
          (if c < 2 then byteAt data (b + 64 * n + l + c % 2 * 32) &&& 0xF
            else byteAt data (b + 64 * n + l + c % 2 * 32) >>> 4)
          (byteAt data (b + 128 + 32 * n + l) >>> UInt8.ofNat (2 * c))))) :
    (List.range 32).foldlM (q6kLane fl data b n y d) (patch m S f) =
      some (patch m (upto S y 128) f) := by
  refine store_columns _ y 32 (by omega) (fun l hl out => ?_) hm
  rw [q6kLane]
  simp only [Option.bind_eq_bind]
  rw [getElem?_eq_byteAt (by omega), Option.bind_some, getElem?_eq_byteAt (by omega),
    Option.bind_some, getElem?_eq_byteAt (by omega), Option.bind_some, loadI8_eq (by omega),
    Option.bind_some, loadI8_eq (by omega), Option.bind_some, loadI8_eq (by omega),
    Option.bind_some, loadI8_eq (by omega), Option.bind_some]
  have h0 := hf 0 (by omega) l hl
  have h1 := hf 1 (by omega) l hl
  have h2 := hf 2 (by omega) l hl
  have h3 := hf 3 (by omega) l hl
  rw [Nat.zero_mul, Nat.add_zero] at h0
  rw [Nat.one_mul] at h1
  rw [h0, h1, h2, h3]
  rfl

/-- A block of `VV_GGML_I2_S`. -/
lemma i2sBlock_eq {b y : ℕ} {s : F} (hb : b + 32 ≤ data.length)
    (hm : ∀ i < 128, (m (y + i)).isSome)
    (hf : ∀ c < 4, ∀ l < 32, f (y + (l + c * 32)) =
      fl.mul s (fl.ofInt (map2bit (byteAt data (b + l) >>> UInt8.ofNat (6 - 2 * c) &&& 3)))) :
    (List.range 32).foldlM (i2sLane fl data b y s) (patch m S f) =
      some (patch m (upto S y 128) f) := by
  refine store_columns _ y 32 (by omega) (fun l hl out => ?_) hm
  rw [i2sLane]
  simp only [Option.bind_eq_bind]
  rw [getElem?_eq_byteAt (by omega), Option.bind_some]
  have h0 := hf 0 (by omega) l hl
  have h1 := hf 1 (by omega) l hl
  have h2 := hf 2 (by omega) l hl
  have h3 := hf 3 (by omega) l hl
  rw [Nat.zero_mul, Nat.add_zero] at h0
  rw [Nat.one_mul] at h1
  rw [h0, h1, h2, h3]
  rfl

/-- Rows one behind the other. -/
lemma rows_eq {row : Memory F → ℕ → Option (Memory F)} {nrows k : ℕ}
    (h : ∀ r < nrows, ∀ (S : Set ℕ) [DecidablePred (· ∈ S)],
      row (patch m S f) r = some (patch m (upto S (r * k) k) f)) :
    (List.range nrows).foldlM row m = some (patch m (upto ∅ 0 (nrows * k)) f) := by
  have hrows : (List.range nrows).foldlM row (patch m ∅ f) =
      some (patch m (upto ∅ 0 (k * nrows)) f) := by
    refine foldlM_upto (S := ∅) row 0 k nrows fun r hr => ?_
    rw [h r hr]
    have hgrow := upto_upto (m := m) (S := ∅) (f := f) 0 (k * r) k
    rw [Nat.zero_add, Nat.mul_comm k r] at hgrow
    rw [Nat.mul_comm k r, hgrow, Nat.mul_succ, Nat.mul_comm r k]
  rwa [Nat.mul_comm k nrows] at hrows

/-- The blocks of a row. -/
lemma row_eq {block : Memory F → ℕ → Option (Memory F)} {y w bpr : ℕ}
    (h : ∀ j < bpr, ∀ (S : Set ℕ) [DecidablePred (· ∈ S)],
      block (patch m S f) j = some (patch m (upto S (y + j * w) w) f)) :
    (List.range bpr).foldlM block (patch m S f) = some (patch m (upto S y (bpr * w)) f) := by
  have hblocks := foldlM_upto (m := m) (S := S) (f := f) block y w bpr fun j hj => by
    rw [h j hj, Nat.mul_comm j w, upto_upto, Nat.mul_succ]
  rwa [Nat.mul_comm w bpr] at hblocks

end Loops

/-- Lane `l` of quarter `c`, in half `h` of a block. -/
lemma q6kElement_eq {e i h c l : ℕ} (hdiv : e / 256 = i) (hmod : e % 256 = h * 128 + (l + c * 32))
    (hc : c < 4) (hl : l < 32) :
    q6kElement fl data e =
      fl.mul (fl.mul (fl.ofHalf (leAt data (i * 210 + 208) 2))
        (fl.ofInt (i8At data (i * 210 + 192 + 8 * h + l / 16 + 2 * c))))
        (fl.ofInt (q6kCode
          (if c < 2 then byteAt data (i * 210 + 64 * h + l + c % 2 * 32) &&& 0xF
            else byteAt data (i * 210 + 64 * h + l + c % 2 * 32) >>> 4)
          (byteAt data (i * 210 + 128 + 32 * h + l) >>> UInt8.ofNat (2 * c)))) := by
  have hhalf : e % 256 / 128 = h := by omega
  have hquarter : e % 128 / 32 = c := by omega
  have hlane : e % 32 = l := by omega
  have hscale : i * 210 + 192 + e % 256 / 16 = i * 210 + 192 + 8 * h + l / 16 + 2 * c := by omega
  rw [q6kElement, hdiv, hhalf, hquarter, hlane, hscale]

lemma i2sElement_eq {s : F} {e i c l : ℕ} (hdiv : e / 128 = i) (hmod : e % 128 = l + c * 32)
    (hl : l < 32) :
    i2sElement fl data s e = fl.mul s
      (fl.ofInt (map2bit (byteAt data (i * 32 + l) >>> UInt8.ofNat (6 - 2 * c) &&& 3))) := by
  have hquarter : e % 128 / 32 = c := by omega
  have hlane : e % 32 = l := by omega
  rw [i2sElement, hdiv, hquarter, hlane]

/-! ### Rows of a tensor -/

section Types

variable {k n row0 nrows : ℕ} {out : Memory F}

lemma lt_of_rows (hrange : (row0 + nrows) * k ≤ n) {i : ℕ} (hi : i < nrows * k) :
    row0 * k + i < n := by
  rw [Nat.add_mul] at hrange
  omega

/-- Lane `l` of block `j` of row `r` of the range. -/
lemma block_place (row0 bpr r j : ℕ) {w l : ℕ} (hw : 0 < w) (hl : l < w) :
    (row0 * (bpr * w) + (r * (bpr * w) + j * w + l)) / w = (row0 + r) * bpr + j ∧
      (row0 * (bpr * w) + (r * (bpr * w) + j * w + l)) % w = l := by
  have hplace : row0 * (bpr * w) + (r * (bpr * w) + j * w + l) =
      l + w * ((row0 + r) * bpr + j) := by ring
  rw [hplace, Nat.add_mul_div_left _ _ hw, Nat.div_eq_of_lt hl, Nat.zero_add,
    Nat.add_mul_mod_self_left, Nat.mod_eq_of_lt hl]
  exact ⟨rfl, rfl⟩

lemma block_lt {w bpr m r j : ℕ} (hw : 0 < w) (hrange : (row0 + nrows) * (bpr * w) ≤ w * m)
    (hr : r < nrows) (hj : j < bpr) : (row0 + r) * bpr + j < m := by
  have hblocks : (row0 + nrows) * bpr ≤ m := by
    refine Nat.le_of_mul_le_mul_left ?_ hw
    calc w * ((row0 + nrows) * bpr) = (row0 + nrows) * (bpr * w) := by ring
      _ ≤ w * m := hrange
  calc (row0 + r) * bpr + j < (row0 + r) * bpr + bpr := by omega
    _ = (row0 + r + 1) * bpr := by ring
    _ ≤ (row0 + nrows) * bpr := Nat.mul_le_mul_right bpr (by omega)
    _ ≤ m := hblocks

/-- A cell of block `j` of row `r` of the range. -/
lemma cell_lt {w bpr r j i : ℕ} (hr : r < nrows) (hj : j < bpr) (hi : i < w) :
    r * (bpr * w) + j * w + i < nrows * (bpr * w) := by
  have hblock : (0 + r) * bpr + j < nrows * bpr :=
    block_lt (w := w) (by omega) (by rw [Nat.zero_add]; exact le_of_eq (by ring)) hr hj
  rw [Nat.zero_add] at hblock
  calc r * (bpr * w) + j * w + i < (r * bpr + j) * w + w := by
        rw [Nat.add_mul, Nat.mul_assoc]
        omega
    _ = (r * bpr + j + 1) * w := by ring
    _ ≤ nrows * bpr * w := Nat.mul_le_mul_right w hblock
    _ = nrows * (bpr * w) := Nat.mul_assoc _ _ _

/-- The rows of a tensor, each element where it belongs. -/
def sliceOf (fl : Floats F) (data : List UInt8) (type k n row0 nrows : ℕ) (out : Memory F) :
    Memory F :=
  patch out (upto ∅ 0 (nrows * k)) fun i => element fl data type n (row0 * k + i)

/-- The types that are stored one element behind the other. -/
lemma fill_elements {value : ℕ → Option F} {type : ℕ} (hrange : (row0 + nrows) * k ≤ n)
    (hvalue : ∀ i, row0 * k + i < n → value i = some (element fl data type n (row0 * k + i)))
    (hout : ∀ i < nrows * k, (out i).isSome) :
    ExceptT.lift (fill value (nrows * k) out) =
      (pure (sliceOf fl data type k n row0 nrows out) : Checked (Memory F)) := by
  rw [fill_eq (fun i hi => hvalue i (lt_of_rows hrange hi)) hout]
  rfl

variable {bpr m : ℕ}

lemma dequantRows_q8 (hrange : (row0 + nrows) * (bpr * 32) ≤ 32 * m) (hdata : m * 34 ≤ data.length)
    (hout : ∀ i < nrows * (bpr * 32), (out i).isSome) :
    dequantRows fl data 8 (bpr * 32 : ℕ) n row0 nrows out =
      pure (sliceOf fl data 8 (bpr * 32) n row0 nrows out) := by
  have hbpr : bpr * 32 / 32 = bpr := Nat.mul_div_cancel bpr (by omega)
  have hrows : (List.range nrows).foldlM (fun out r => (List.range bpr).foldlM (fun out j =>
      q8Block fl data ((row0 + r) * bpr * 34 + j * 34) (r * (bpr * 32) + j * 32) out) out) out =
      some (sliceOf fl data 8 (bpr * 32) n row0 nrows out) := by
    refine rows_eq fun r hr S _ => row_eq fun j hj S _ => ?_
    have hblock := block_lt (by omega) hrange hr hj
    have hbase : (row0 + r) * bpr * 34 + j * 34 = ((row0 + r) * bpr + j) * 34 := by ring
    rw [hbase]
    refine q8Block_eq (by omega) (fun i hi => hout _ (cell_lt hr hj hi)) fun l hl => ?_
    obtain ⟨hdiv, hmod⟩ := block_place row0 bpr r j
      (by omega : 0 < 32) hl
    rw [element, hdiv, hmod]
  show ExceptT.lift _ = _
  rw [Int.toNat_natCast, hbpr, hrows]
  rfl

lemma dequantRows_q6k (hrange : (row0 + nrows) * (bpr * 256) ≤ 256 * m)
    (hdata : m * 210 ≤ data.length) (hout : ∀ i < nrows * (bpr * 256), (out i).isSome) :
    dequantRows fl data 14 (bpr * 256 : ℕ) n row0 nrows out =
      pure (sliceOf fl data 14 (bpr * 256) n row0 nrows out) := by
  have hbpr : bpr * 256 / 256 = bpr := Nat.mul_div_cancel bpr (by omega)
  have hrows : (List.range nrows).foldlM (fun out r =>
      q6kDequantRow fl data ((row0 + r) * bpr * 210) (r * (bpr * 256)) (bpr * 256) out) out =
      some (sliceOf fl data 14 (bpr * 256) n row0 nrows out) := by
    refine rows_eq fun r hr S _ => ?_
    rw [q6kDequantRow, hbpr]
    refine row_eq fun i hi S _ => ?_
    have hblock := block_lt (by omega) hrange hr hi
    have hbase : (row0 + r) * bpr * 210 + i * 210 = ((row0 + r) * bpr + i) * 210 := by ring
    rw [hbase]
    show (loadLe data (((row0 + r) * bpr + i) * 210 + 208) 2 >>= _) = _
    rw [loadLe_eq (by omega), Option.bind_eq_bind, Option.bind_some]
    show _ = some (patch out (upto S (r * (bpr * 256) + i * 256) (2 * 128)) _)
    refine row_eq fun h hh S _ => ?_
    have hcell : ∀ l < 128, h * 128 + l < 256 := fun l hl => by omega
    refine q6kHalf_eq hh (by omega) (fun l hl => hout _ ?_) fun c hc l hl => ?_
    · rw [Nat.add_assoc]
      exact cell_lt hr hi (hcell l hl)
    · obtain ⟨hdiv, hmod⟩ := block_place row0 bpr r i
        (by omega : 0 < 256) (hcell (l + c * 32) (by omega))
      rw [Nat.add_assoc (r * (bpr * 256) + i * 256), element, q6kElement_eq hdiv hmod hc hl]
  show ExceptT.lift _ = _
  rw [Int.toNat_natCast, hbpr]
  show ExceptT.lift _ = _
  rw [hrows]
  rfl

lemma dequantRows_i2s (hrange : (row0 + nrows) * (bpr * 128) ≤ 128 * m)
    (hdata : n / 4 + 4 ≤ data.length) (hm : m * 32 ≤ n / 4)
    (hout : ∀ i < nrows * (bpr * 128), (out i).isSome) :
    dequantRows fl data i2s (bpr * 128 : ℕ) n row0 nrows out =
      pure (sliceOf fl data i2s (bpr * 128) n row0 nrows out) := by
  have hdvd : ¬((bpr * 128 : ℕ) : ℤ) % 128 ≠ 0 := by omega
  have hbpr : bpr * 128 / 128 = bpr := Nat.mul_div_cancel bpr (by omega)
  have hquarter : bpr * 128 / 4 = bpr * 32 := by omega
  have hrows : (List.range nrows).foldlM (fun out r => (List.range bpr).foldlM (fun out blk =>
      (List.range 32).foldlM (i2sLane fl data ((row0 + r) * (bpr * 32) + blk * 32)
        (r * (bpr * 128) + blk * 128) (fl.ofBits (leAt data (n / 4) 4))) out) out) out =
      some (sliceOf fl data i2s (bpr * 128) n row0 nrows out) := by
    refine rows_eq fun r hr S _ => row_eq fun j hj S _ => ?_
    have hblock := block_lt (by omega) hrange hr hj
    have hbase : (row0 + r) * (bpr * 32) + j * 32 = ((row0 + r) * bpr + j) * 32 := by ring
    rw [hbase]
    refine i2sBlock_eq (by omega) (fun i hi => hout _ (cell_lt hr hj hi)) fun c hc l hl => ?_
    obtain ⟨hdiv, hmod⟩ := block_place row0 bpr r j
      (by omega : 0 < 128) (by omega : l + c * 32 < 128)
    rw [← i2sElement_eq hdiv hmod hl]
    rfl
  show (if _ then _ else ExceptT.lift (viewScale fl data (n / 4) >>= _)) = _
  rw [if_neg hdvd, Int.toNat_natCast, hbpr, hquarter, viewScale, loadLe_eq hdata]
  show ExceptT.lift (List.foldlM _ _ _) = _
  rw [hrows]
  rfl

lemma dequantRows_i8s (hrange : (row0 + nrows) * k ≤ n) (hdata : n + 4 ≤ data.length)
    (hout : ∀ i < nrows * k, (out i).isSome) :
    dequantRows fl data i8s k n row0 nrows out =
      pure (sliceOf fl data i8s k n row0 nrows out) := by
  show ExceptT.lift (viewScale fl data n >>= _) = _
  rw [viewScale, loadLe_eq hdata]
  refine fill_elements (k := k) hrange (fun i hi => ?_) hout
  rw [Int.toNat_natCast, loadI8_eq (by omega)]
  rfl

lemma dequantRows_f32 (hrange : (row0 + nrows) * k ≤ n) (hdata : n * 4 ≤ data.length)
    (hout : ∀ i < nrows * k, (out i).isSome) :
    dequantRows fl data 0 k n row0 nrows out = pure (sliceOf fl data 0 k n row0 nrows out) := by
  refine fill_elements (k := k) hrange (fun i hi => ?_) hout
  rw [Int.toNat_natCast, ← Nat.add_mul, loadLe_eq (by omega)]
  rfl

lemma dequantRows_f16 (hrange : (row0 + nrows) * k ≤ n) (hdata : n * 2 ≤ data.length)
    (hout : ∀ i < nrows * k, (out i).isSome) :
    dequantRows fl data 1 k n row0 nrows out = pure (sliceOf fl data 1 k n row0 nrows out) := by
  refine fill_elements (k := k) hrange (fun i hi => ?_) hout
  rw [Int.toNat_natCast, ← Nat.add_mul, loadLe_eq (by omega)]
  rfl

lemma dequantRows_bf16 (hrange : (row0 + nrows) * k ≤ n) (hdata : n * 2 ≤ data.length)
    (hout : ∀ i < nrows * k, (out i).isSome) :
    dequantRows fl data 30 k n row0 nrows out = pure (sliceOf fl data 30 k n row0 nrows out) := by
  refine fill_elements (k := k) hrange (fun i hi => ?_) hout
  rw [Int.toNat_natCast, ← Nat.add_mul, loadLe_eq (by omega)]
  rfl

/-- No rows: nothing is read of a tensor that has its scales in its blocks. -/
lemma dequantRows_zero {type : ℕ} (htype : type ∈ [0, 1, 8, 14, 30]) (k : ℤ) :
    dequantRows fl data type k n row0 0 out = pure out := by
  have hfill : ∀ value : ℕ → Option F, fill value (0 * k.toNat) out = some out := fun value => by
    rw [Nat.zero_mul]
    rfl
  simp only [List.mem_cons, List.not_mem_nil, or_false] at htype
  rcases htype with rfl | rfl | rfl | rfl | rfl
  · exact congrArg ExceptT.lift (hfill _)
  · exact congrArg ExceptT.lift (hfill _)
  · rfl
  · rfl
  · exact congrArg ExceptT.lift (hfill _)

lemma sliceOf_zero (fl : Floats F) (data : List UInt8) (type : ℕ) :
    sliceOf fl data type k n row0 0 out = out := by
  funext i
  refine patch_of_not_mem fun h => ?_
  rcases h with hS | ⟨-, hlt⟩
  · exact hS
  · omega

lemma value_sliceOf (fl : Floats F) (data : List UInt8) (type : ℕ) {i : ℕ} (hi : i < nrows * k) :
    (sliceOf fl data type k n row0 nrows out).value i =
      some (element fl data type n (row0 * k + i)) := by
  rw [Memory.value, sliceOf, patch_of_mem (.inr ⟨Nat.zero_le i, by omega⟩)]
  rfl

end Types

/-! ### Unpacking -/

lemma or_shiftLeft {a b w : ℕ} (ha : a < 2 ^ w) : a ||| b <<< w = a + b * 2 ^ w := by
  rw [Nat.or_comm, ← Nat.shiftLeft_add_eq_or_of_lt ha, Nat.shiftLeft_eq, Nat.add_comm]

lemma and_three (x : ℕ) : x &&& 3 = x % 4 := Nat.and_two_pow_sub_one_eq_mod x 2

lemma and_fifteen (x : ℕ) : x &&& 15 = x % 16 := Nat.and_two_pow_sub_one_eq_mod x 4

/-- Four codes of two bits, the lowest first. -/
lemma four_codes {a b c d : ℕ} (ha : a < 4) (hb : b < 4) (hc : c < 4) :
    a ||| b <<< 2 ||| c <<< 4 ||| d <<< 6 = a + 4 * b + 16 * c + 64 * d := by
  have h2 : a ||| b <<< 2 = a + b * 4 := or_shiftLeft ha
  have h4 : (a + b * 4) ||| c <<< 4 = a + b * 4 + c * 16 := or_shiftLeft (by omega)
  have h6 : (a + b * 4 + c * 16) ||| d <<< 6 = a + b * 4 + c * 16 + d * 64 :=
    or_shiftLeft (by omega)
  rw [h2, h4, h6]
  omega

/-- A code of two bits, from a byte of four. -/
lemma toNat_shiftRight_and (x : UInt8) {g : ℕ} (hg : g < 4) :
    (x >>> UInt8.ofNat (2 * g) &&& 3).toNat = x.toNat / 4 ^ g % 4 := by
  rw [UInt8.toNat_and, UInt8.toNat_shiftRight, UInt8.toNat_ofNat']
  show x.toNat >>> (2 * g % 2 ^ 8 % 8) &&& 3 = _
  have hshift : 2 * g % 2 ^ 8 % 8 = 2 * g := by omega
  rw [hshift, and_three, Nat.shiftRight_eq_div_pow, Nat.pow_mul]

lemma q6kCode_eq {low : UInt8} (high : UInt8) (hlow : low.toNat < 16) :
    q6kCode low high = low.toNat + 16 * (high &&& 3).toNat - 32 := by
  have hthree : (high &&& 3).toNat < 4 := by
    rw [UInt8.toNat_and]
    exact Nat.lt_succ_of_le Nat.and_le_right
  have hshift : ((high &&& 3) <<< 4).toNat = (high &&& 3).toNat <<< 4 := by
    rw [UInt8.toNat_shiftLeft]
    show (high &&& 3).toNat <<< 4 % 2 ^ 8 = _
    rw [Nat.shiftLeft_eq]
    omega
  rw [q6kCode, UInt8.toNat_or, hshift, or_shiftLeft (by omega)]
  omega

section Packed

variable {q : ℕ → ℤ} {sc : ℕ → Int8} {d : ℕ → UInt16} {code : ℕ → ℕ}

lemma length_of_getElem? {pack : ℕ → UInt8} {n : ℕ}
    (h : ∀ p < n, data[p]? = some (pack p)) : n ≤ data.length := by
  by_contra hlt
  have hnone := h data.length (by omega)
  rw [List.getElem?_eq_none (le_refl _)] at hnone
  cases hnone

/-- Where the packings have their bytes. -/
lemma byteAt_of_pack {pack : ℕ → UInt8} {n p : ℕ} (h : ∀ p < n, data[p]? = some (pack p))
    (hp : p < n) : byteAt data p = pack p := by
  rw [byteAt, List.getD_eq_getElem?_getD, h p hp, Option.getD_some]

/-- The number of a code. -/
def codeNat (q : ℕ → ℤ) (e : ℕ) : ℕ := (q e + 32).toNat

lemma codeNat_lt (hq : ∀ e, -32 ≤ q e ∧ q e < 32) (e : ℕ) :
    codeNat q e < 64 ∧ (codeNat q e : ℤ) = q e + 32 := by
  obtain ⟨hlow, hhigh⟩ := hq e
  rw [codeNat]
  omega

/-- The two nibbles of a byte of `ql`. -/
lemma packQ6k_ql (q : ℕ → ℤ) (sc : ℕ → Int8) (d : ℕ → UInt16) (i : ℕ) {h l : ℕ}
    (hh : h < 2) (hl : l < 64) :
    let b := packQ6k q sc d (i * 210 + 64 * h + l)
    (b &&& 0xF).toNat = codeNat q (256 * i + (h * 128 + l)) % 16 ∧
      (b >>> 4).toNat = codeNat q (256 * i + (h * 128 + l + 64)) % 16 := by
  have hblock : (i * 210 + 64 * h + l) / 210 = i := by omega
  have hplace : (i * 210 + 64 * h + l) % 210 = 64 * h + l := by omega
  have hhalf : (64 * h + l) / 64 * 128 + (64 * h + l) % 64 = h * 128 + l := by omega
  intro b
  have hb : b.toNat = codeNat q (256 * i + (h * 128 + l)) % 16 +
      16 * (codeNat q (256 * i + (h * 128 + l + 64)) % 16) := by
    show (packQ6k q sc d (i * 210 + 64 * h + l)).toNat = _
    simp only [packQ6k, hblock, hplace]
    rw [if_pos (by omega), hhalf, and_fifteen, and_fifteen]
    show (UInt8.ofNat (codeNat q (256 * i + (h * 128 + l)) % 16 |||
      (codeNat q (256 * i + (h * 128 + l + 64)) % 16) <<< 4)).toNat = _
    have hor : ∀ a b, a % 16 ||| (b % 16) <<< 4 = a % 16 + b % 16 * 16 := fun a b =>
      or_shiftLeft (w := 4) (Nat.mod_lt a (by omega))
    rw [hor, UInt8.toNat_ofNat']
    omega
  constructor
  · rw [UInt8.toNat_and]
    show b.toNat &&& 15 = _
    rw [and_fifteen, hb]
    omega
  · rw [UInt8.toNat_shiftRight]
    show b.toNat >>> 4 = _
    rw [Nat.shiftRight_eq_div_pow, hb]
    omega

/-- The four codes of a byte of `qh`. -/
lemma packQ6k_qh (sc : ℕ → Int8) (d : ℕ → UInt16) (hq : ∀ e, -32 ≤ q e ∧ q e < 32) (i : ℕ)
    {h l c : ℕ} (hh : h < 2) (hl : l < 32) (hc : c < 4) :
    (packQ6k q sc d (i * 210 + 128 + 32 * h + l) >>> UInt8.ofNat (2 * c) &&& 3).toNat =
      codeNat q (256 * i + (h * 128 + (l + c * 32))) / 16 := by
  have hblock : (i * 210 + 128 + 32 * h + l) / 210 = i := by omega
  have hplace : (i * 210 + 128 + 32 * h + l) % 210 = 128 + 32 * h + l := by omega
  have hhalf : (128 + 32 * h + l - 128) / 32 * 128 + (128 + 32 * h + l - 128) % 32 =
      h * 128 + l := by omega
  have hlt := fun e => (codeNat_lt hq e).1
  have hhigh : ∀ e, codeNat q e >>> 4 = codeNat q e / 16 := fun e =>
    Nat.shiftRight_eq_div_pow _ 4
  have hb : (packQ6k q sc d (i * 210 + 128 + 32 * h + l)).toNat =
      codeNat q (256 * i + (h * 128 + l)) / 16 +
        4 * (codeNat q (256 * i + (h * 128 + l + 32)) / 16) +
        16 * (codeNat q (256 * i + (h * 128 + l + 64)) / 16) +
        64 * (codeNat q (256 * i + (h * 128 + l + 96)) / 16) := by
    simp only [packQ6k, hblock, hplace]
    rw [if_neg (by omega), if_pos (by omega), hhalf]
    show (UInt8.ofNat (codeNat q (256 * i + (h * 128 + l)) >>> 4 |||
      codeNat q (256 * i + (h * 128 + l + 32)) >>> 4 <<< 2 |||
      codeNat q (256 * i + (h * 128 + l + 64)) >>> 4 <<< 4 |||
      codeNat q (256 * i + (h * 128 + l + 96)) >>> 4 <<< 6)).toNat = _
    have h0 := hlt (256 * i + (h * 128 + l))
    have h1 := hlt (256 * i + (h * 128 + l + 32))
    have h2 := hlt (256 * i + (h * 128 + l + 64))
    have h3 := hlt (256 * i + (h * 128 + l + 96))
    rw [hhigh, hhigh, hhigh, hhigh, four_codes (by omega) (by omega) (by omega),
      UInt8.toNat_ofNat']
    omega
  rw [toNat_shiftRight_and _ hc, hb]
  have h0 := hlt (256 * i + (h * 128 + l))
  have h1 := hlt (256 * i + (h * 128 + l + 32))
  have h2 := hlt (256 * i + (h * 128 + l + 64))
  have h3 := hlt (256 * i + (h * 128 + l + 96))
  rw [← Nat.add_assoc (h * 128)]
  interval_cases c
  · have hplace : h * 128 + l + 0 * 32 = h * 128 + l := rfl
    rw [hplace]
    omega
  · have hplace : h * 128 + l + 1 * 32 = h * 128 + l + 32 := rfl
    rw [hplace]
    omega
  · have hplace : h * 128 + l + 2 * 32 = h * 128 + l + 64 := rfl
    rw [hplace]
    omega
  · have hplace : h * 128 + l + 3 * 32 = h * 128 + l + 96 := rfl
    rw [hplace]
    omega

lemma leAt_two {p : ℕ} (hp : p + 2 ≤ data.length) :
    leAt data p 2 = (byteAt data p).toNat + 256 * (byteAt data (p + 1)).toNat := by
  have hfirst : data.drop p = byteAt data p :: byteAt data (p + 1) :: data.drop (p + 2) := by
    rw [List.drop_eq_getElem_cons (by omega), List.drop_eq_getElem_cons (by omega), byteAt, byteAt,
      List.getD_eq_getElem _ _ (by omega), List.getD_eq_getElem _ _ (by omega)]
  rw [leAt, hfirst]
  simp [ofLe, Nat.ofDigits]

/-- The scales of a block are read back. -/
lemma packQ6k_scale (i : ℕ) {g : ℕ} (hg : g < 16) :
    signed 8 (packQ6k q sc d (i * 210 + 192 + g)).toNat = (sc (16 * i + g)).toInt := by
  have hblock : (i * 210 + 192 + g) / 210 = i := by omega
  have hplace : (i * 210 + 192 + g) % 210 = 192 + g := by omega
  have hscale : 192 + g - 192 = g := by omega
  simp only [packQ6k, hblock, hplace, hscale]
  rw [if_neg (by omega), if_neg (by omega), if_pos (by omega)]
  exact (BitVec.toInt_eq_toNat_bmod _).symm

lemma packQ6k_half (i : ℕ) :
    (packQ6k q sc d (i * 210 + 208)).toNat + 256 * (packQ6k q sc d (i * 210 + 208 + 1)).toNat =
      (d i).toNat := by
  have hblock : (i * 210 + 208) / 210 = i := by omega
  have hplace : (i * 210 + 208) % 210 = 208 := by omega
  have hblock' : (i * 210 + 208 + 1) / 210 = i := by omega
  have hplace' : (i * 210 + 208 + 1) % 210 = 209 := by omega
  have hlt := (d i).toNat_lt
  simp only [packQ6k, hblock, hplace, hblock', hplace']
  rw [if_neg (by omega), if_neg (by omega), if_neg (by omega), if_neg (by omega),
    if_neg (by omega), if_neg (by omega), UInt8.toNat_ofNat', UInt8.toNat_ofNat']
  omega

/-- A packed code of six bits is read back, with its scales. -/
lemma q6kElement_pack (hq : ∀ e, -32 ≤ q e ∧ q e < 32) {m e : ℕ}
    (hdata : ∀ p < m * 210, data[p]? = some (packQ6k q sc d p)) (he : e < m * 256) :
    q6kElement fl data e =
      fl.mul (fl.mul (fl.ofHalf (d (e / 256)).toNat) (fl.ofInt (sc (e / 16)).toInt))
        (fl.ofInt (q e)) := by
  obtain ⟨i, hi⟩ : ∃ i, e / 256 = i := ⟨_, rfl⟩
  obtain ⟨h, hh⟩ : ∃ h, e % 256 / 128 = h := ⟨_, rfl⟩
  obtain ⟨c, hc⟩ : ∃ c, e % 128 / 32 = c := ⟨_, rfl⟩
  obtain ⟨l, hl⟩ : ∃ l, e % 32 = l := ⟨_, rfl⟩
  have hplace : e = 256 * i + (h * 128 + (l + c * 32)) := by omega
  have hlen := length_of_getElem? hdata
  have hbyte : ∀ {p}, p < m * 210 → byteAt data p = packQ6k q sc d p := fun hp =>
    byteAt_of_pack hdata hp
  have hlow : ((if c < 2 then byteAt data (i * 210 + 64 * h + l + c % 2 * 32) &&& 0xF
      else byteAt data (i * 210 + 64 * h + l + c % 2 * 32) >>> 4) : UInt8).toNat =
      codeNat q e % 16 := by
    obtain ⟨hnib, hnib'⟩ := packQ6k_ql q sc d i (h := h) (l := l + c % 2 * 32)
      (by omega) (by omega)
    rw [hbyte (by omega), Nat.add_assoc (i * 210 + 64 * h), hplace]
    split_ifs with hc2
    · have hidx : l + c % 2 * 32 = l + c * 32 := by omega
      rw [hnib, hidx]
    · have hidx : h * 128 + (l + c % 2 * 32) + 64 = h * 128 + (l + c * 32) := by omega
      rw [hnib', hidx]
  have hhigh := packQ6k_qh sc d hq i (h := h) (l := l) (c := c) (by omega) (by omega) (by omega)
  have hcode := (codeNat_lt hq e).2
  have hvalue : q6kCode
      (if c < 2 then byteAt data (i * 210 + 64 * h + l + c % 2 * 32) &&& 0xF
        else byteAt data (i * 210 + 64 * h + l + c % 2 * 32) >>> 4)
      (byteAt data (i * 210 + 128 + 32 * h + l) >>> UInt8.ofNat (2 * c)) = q e := by
    rw [q6kCode_eq _ (by rw [hlow]; omega), hlow, hbyte (by omega), hhigh, ← hplace]
    omega
  have hscale : i8At data (i * 210 + 192 + 8 * h + l / 16 + 2 * c) = (sc (e / 16)).toInt := by
    have hidx : i * 210 + 192 + 8 * h + l / 16 + 2 * c = i * 210 + 192 + (e % 256 / 16) := by omega
    have hgroup : 16 * i + e % 256 / 16 = e / 16 := by omega
    rw [i8At, hidx, hbyte (by omega), packQ6k_scale i (by omega), hgroup]
  have hhalf : leAt data (i * 210 + 208) 2 = (d (e / 256)).toNat := by
    rw [leAt_two (by omega), hbyte (by omega), hbyte (by omega), packQ6k_half, hi]
  rw [q6kElement_eq (h := h) (c := c) (l := l) hi (by omega) (by omega) (by omega), hvalue, hscale,
    hhalf]

/-- A packed code of two bits is read back. -/
lemma i2sElement_pack (hcode : ∀ e, code e < 4) {m e : ℕ}
    (hdata : ∀ p < m * 32, data[p]? = some (packI2s code p)) (he : e < m * 128) (s : F) :
    i2sElement fl data s e = fl.mul s (fl.ofInt ([-1, 0, 1, 0].getD (code e) 0)) := by
  obtain ⟨b, hb⟩ : ∃ b, e / 128 * 128 + e % 32 = b := ⟨_, rfl⟩
  obtain ⟨c, hc⟩ : ∃ c, e % 128 / 32 = c := ⟨_, rfl⟩
  have h0 := hcode b
  have h1 := hcode (b + 32)
  have h2 := hcode (b + 64)
  have h3 := hcode (b + 96)
  have hbyte : (byteAt data (e / 128 * 32 + e % 32)).toNat =
      code (b + 96) + 4 * code (b + 64) + 16 * code (b + 32) + 64 * code b := by
    have hblock : (e / 128 * 32 + e % 32) / 32 = e / 128 := by omega
    have hlane : (e / 128 * 32 + e % 32) % 32 = e % 32 := by omega
    have horder : code b <<< 6 ||| code (b + 32) <<< 4 ||| code (b + 64) <<< 2 ||| code (b + 96) =
        code (b + 96) ||| code (b + 64) <<< 2 ||| code (b + 32) <<< 4 ||| code b <<< 6 := by
      ac_rfl
    rw [byteAt_of_pack hdata (by omega)]
    simp only [packI2s, hblock, hlane, hb]
    rw [horder, four_codes h3 h2 h1, UInt8.toNat_ofNat']
    omega
  have hplane : (byteAt data (e / 128 * 32 + e % 32) >>> UInt8.ofNat (6 - 2 * c) &&& 3).toNat =
      code e := by
    have hshift : 6 - 2 * c = 2 * (3 - c) := by omega
    have he : e = b + 32 * c := by omega
    have hc4 : c < 4 := by omega
    rw [hshift, toNat_shiftRight_and _ (by omega), hbyte, he]
    clear he hc hshift
    interval_cases c
    · show _ = code b
      omega
    · show _ = code (b + 32)
      omega
    · show _ = code (b + 64)
      omega
    · show _ = code (b + 96)
      omega
  rw [i2sElement, hc, map2bit, hplane]

end Packed

/-! ### Tensors of a file -/

lemma readDim_yields (v1 : Bool) : Reader.Yields (readDim v1) (0 ≤ ·) :=
  Reader.Yields.then fun ne =>
    .ite (fun _ => .fail _) fun _ => .pure (Int.natCast_nonneg ne)

lemma readTensor_yields (v1 : Bool) : Reader.Yields (readTensor v1) fun t => ∀ d ∈ t.ne, 0 ≤ d := by
  refine Reader.Yields.then fun name => Reader.Yields.then fun nd =>
    Reader.Yields.ite (fun _ => .fail _) fun _ => ?_
  refine ((readDim_yields v1).many nd).bind fun dims hdims => ?_
  refine Reader.Yields.then fun type => Reader.Yields.then fun offset => .pure fun d hd => ?_
  rcases List.mem_append.mp hd with hdim | hone
  · exact hdims d hdim
  · rw [List.eq_of_mem_replicate hone]
    exact zero_le_one

lemma readHeader_yields :
    Reader.Yields readHeader fun g => ∀ t ∈ g.tensors, ∀ d ∈ t.ne, 0 ≤ d := by
  refine Reader.Yields.then fun magic => Reader.Yields.ite (fun _ => .fail _) fun _ => ?_
  refine Reader.Yields.then fun version => Reader.Yields.ite (fun _ => .fail _) fun _ => ?_
  refine Reader.Yields.then fun nTensors => Reader.Yields.then fun nKv =>
    Reader.Yields.then fun _ => Reader.Yields.then fun kvs => ?_
  exact ((readTensor_yields _).many nTensors).bind fun _ h => .pure h

/-- What the parser has made sure of, of a tensor of a known type. -/
structure Accepted (bytes : List UInt8) (t : Tensor) (k : Traits) (p : ℕ) : Prop where
  known : traits t.type = some k
  data : t.data = some p
  nonneg : ∀ d ∈ t.ne, 0 ≤ d
  nbytes : t.nbytes = ggmlNbytes t.type t.ne
  zero : t.nbytes = 0 → nelements t = 0
  inside : p + t.nbytes ≤ bytes.length

lemma accepted_of_parse {bytes : List UInt8} {h : Handle} (hparse : parse bytes = .ok h)
    {t : Tensor} (ht : t ∈ h.tensors) {k : Traits} (hk : traits t.type = some k) :
    ∃ p, Accepted bytes t k p := by
  obtain ⟨g, pos, hopen⟩ := parse_spec hparse
  obtain ⟨t₀, ht₀, hplace⟩ := Loop.exists_of_forall₂ hopen.tensors ht
  obtain ⟨rest, hheader⟩ := hopen.header
  rw [place_type hplace] at hk
  obtain ⟨rfl, hzero, -, hrange⟩ := place_spec hk hplace
  have hinside := hopen.inside
  refine ⟨h.dataOffset + t₀.offset, hk, rfl, readHeader_yields _ _ _ hheader t₀ ht₀, rfl, hzero, ?_⟩
  show h.dataOffset + t₀.offset + ggmlNbytes t₀.type t₀.ne ≤ bytes.length
  omega

/-- The types that are decoded. -/
def Tensor.Decodes (t : Tensor) : Prop :=
  t.type ∈ [0, 1, 8, 14, 30] ∨ t.type = i8s ∨ t.type = i2s ∧ 128 ∣ t.rowLen

/-- A tensor that is decoded with a scale behind its codes, and whose dimensions multiply past
`2 ^ 62` on the way: it is recorded with no bytes. -/
def Tensor.Scaleless (t : Tensor) : Prop :=
  product t.ne = none ∧ (t.type = i8s ∨ t.type = i2s ∧ 128 ∣ t.rowLen)

lemma length_bytesAt {bytes : List UInt8} {p nb : ℕ} (h : p + nb ≤ bytes.length) :
    (bytesAt bytes p nb).length = nb := by
  rw [bytesAt, List.length_take, List.length_drop]
  omega

lemma blck_dvd {type : ℕ} {k : Traits} {ne : List ℤ} (hk : traits type = some k)
    (h : ggmlNbytes type ne ≠ 0) : (k.blck : ℤ) ∣ ne.headD 1 := by
  simp only [ggmlNbytes, hk] at h
  split_ifs at h with hneg hmod
  · exact absurd rfl h
  · exact absurd rfl h
  · exact Int.dvd_of_emod_eq_zero (not_not.mp hmod)

section Accepted

variable {bytes : List UInt8} {t : Tensor} {k : Traits} {p : ℕ}

lemma Accepted.rowLen_nonneg (h : Accepted bytes t k p) : 0 ≤ t.rowLen := by
  rw [Tensor.rowLen]
  cases hne : t.ne with
  | nil => exact zero_le_one
  | cons d ds => exact h.nonneg d (by rw [hne]; exact List.mem_cons_self)

/-- The number of elements does not wrap where the product of the dimensions is taken. -/
lemma Accepted.nelements_eq (h : Accepted bytes t k p) {n : ℕ} (hn : product t.ne = some n) :
    nelements t = n := by
  obtain ⟨hprod, hle⟩ := product_eq_some h.nonneg hn
  rw [nelements, ← hprod]
  exact Int.bmod_eq_of_le (by omega) (by omega)

/-- Where bytes are recorded, they are those of all elements. -/
lemma Accepted.spans (h : Accepted bytes t k p) (hnb : t.nbytes ≠ 0) :
    ∃ n : ℕ, nelements t = n ∧ Spans k n t.nbytes ∧ (k.blck : ℤ) ∣ t.rowLen := by
  rw [h.nbytes] at hnb
  cases hprod : product t.ne with
  | none =>
    simp only [ggmlNbytes, h.known, hprod] at hnb
    split_ifs at hnb <;> exact absurd rfl hnb
  | some n =>
    have hspans := spans_of_nbytes_ne_zero h.known hnb
    rw [← (product_eq_some h.nonneg hprod).1, ← h.nbytes] at hspans
    exact ⟨n, h.nelements_eq hprod, hspans, blck_dvd h.known hnb⟩

/-- A tensor with a scale is recorded with no bytes only where its dimensions multiply past
`2 ^ 62`. -/
lemma Accepted.product_eq_none (h : Accepted bytes t k p) (hnb : t.nbytes = 0)
    (htype : t.type = i8s ∨ t.type = i2s) : product t.ne = none := by
  by_contra hprod
  obtain ⟨n, hn⟩ := Option.ne_none_iff_exists'.mp hprod
  have hzero := h.zero hnb
  rw [h.nelements_eq hn] at hzero
  have hneg : ¬t.ne.any (· < 0) := by simpa using h.nonneg
  have hbytes : ∀ name, traits t.type = some ⟨t.type, name, 1, 1⟩ →
      t.nbytes = bytesOf ⟨t.type, name, 1, 1⟩ n := fun name hk => by
    simp only [h.nbytes, ggmlNbytes, hk, hn, if_neg hneg, Nat.cast_one, Int.emod_one, ne_eq,
      not_true_eq_false, if_false, Option.map_some, Option.getD_some]
  rcases htype with htype | htype
  · rw [hbytes "i8_s" (by rw [htype]; rfl), bytesOf, htype] at hnb
    change n + 32 = 0 at hnb
    omega
  · rw [hbytes "i2_s" (by rw [htype]; rfl), bytesOf, htype, if_pos rfl] at hnb
    split_ifs at hnb with hfour
    omega

lemma rows_mul_le {row0 nrows : ℕ} (hrange : (row0 + nrows : ℤ) ≤ t.rows) {n k' : ℕ}
    (hn : nelements t = n) (hk : t.rowLen = k') : (row0 + nrows) * k' ≤ n := by
  rw [Tensor.rows, hn, hk] at hrange
  rcases Nat.eq_zero_or_pos k' with rfl | hpos
  · rw [Nat.mul_zero]
    exact Nat.zero_le n
  · rw [if_pos (by omega), Int.tdiv_eq_ediv_of_nonneg (Int.natCast_nonneg n)] at hrange
    have hle := Int.mul_le_of_le_ediv (by omega : (0 : ℤ) < k') hrange
    exact_mod_cast hle

/-- The blocks of a type that has its scales in them. -/
lemma spans_blocks {type blck size n nb : ℕ} {name : String} (hi2 : type ≠ i2s) (hi8 : type ≠ i8s)
    (h : Spans ⟨type, name, blck, size⟩ n nb) : ∃ m, n = blck * m ∧ nb = m * size := by
  rw [Spans, if_neg hi2, if_neg hi8] at h
  obtain ⟨m, hn, hnb⟩ := h
  exact ⟨m, by exact_mod_cast hn, hnb⟩

/-- Rows of a tensor of which bytes are recorded. -/
lemma dequantRows_eq (fl : Floats F) {data : List UInt8} {out : Memory F} {type n row0 nrows k' : ℕ}
    (hk : traits type = some k) (hspans : Spans k n data.length) (hdvd : k.blck ∣ k')
    (hdecodes : type ∈ [0, 1, 8, 14, 30] ∨ type = i8s ∨ type = i2s ∧ 128 ∣ k')
    (hrange : (row0 + nrows) * k' ≤ n) (hout : ∀ i < nrows * k', (out i).isSome) :
    dequantRows fl data type k' n row0 nrows out =
      pure (sliceOf fl data type k' n row0 nrows out) := by
  simp only [List.mem_cons, List.not_mem_nil, or_false] at hdecodes
  rcases hdecodes with (rfl | rfl | rfl | rfl | rfl) | rfl | ⟨rfl, hrow⟩ <;> cases hk
  · obtain ⟨m, rfl, hlen⟩ := spans_blocks (by decide) (by decide) hspans
    exact dequantRows_f32 hrange (by omega) hout
  · obtain ⟨m, rfl, hlen⟩ := spans_blocks (by decide) (by decide) hspans
    exact dequantRows_f16 hrange (by omega) hout
  · obtain ⟨m, rfl, hlen⟩ := spans_blocks (by decide) (by decide) hspans
    obtain ⟨bpr, rfl⟩ : ∃ bpr, k' = bpr * 32 := exists_eq_mul_left_of_dvd hdvd
    exact dequantRows_q8 hrange (by omega) hout
  · obtain ⟨m, rfl, hlen⟩ := spans_blocks (by decide) (by decide) hspans
    obtain ⟨bpr, rfl⟩ : ∃ bpr, k' = bpr * 256 := exists_eq_mul_left_of_dvd hdvd
    exact dequantRows_q6k hrange (by omega) hout
  · obtain ⟨m, rfl, hlen⟩ := spans_blocks (by decide) (by decide) hspans
    exact dequantRows_bf16 hrange (by omega) hout
  · have hlen : (data.length : ℤ) = n + 32 := hspans
    exact dequantRows_i8s hrange (by omega) hout
  · obtain ⟨m, hn, hlen⟩ : ∃ m : ℕ, (n : ℤ) = 4 * m ∧ data.length = m + 32 := hspans
    obtain ⟨bpr, rfl⟩ := exists_eq_mul_left_of_dvd hrow
    have hblocks : (row0 + nrows) * (bpr * 128) = 128 * ((row0 + nrows) * bpr) := by ring
    exact dequantRows_i2s hblocks.le (by omega) (by omega) hout

variable {fl : Floats F} {row0 nrows : ℤ} {out : Memory F}

/-- A range inside of the tensor is not refused. -/
lemma dequantRowsF32_range (hdata : t.data = some p) (h0 : 0 ≤ row0) (hn : 0 ≤ nrows)
    (hrange : row0 + nrows ≤ t.rows) :
    dequantRowsF32 fl bytes t row0 nrows out =
      dequantRows fl (bytesAt bytes p t.nbytes) t.type t.rowLen (nelements t).toNat row0.toNat
        nrows.toNat out := by
  rw [dequantRowsF32, hdata]
  exact if_neg (by omega)

/-- A tensor without elements has no rows. -/
lemma rows_of_nelements_eq_zero (h : nelements t = 0) : t.rows = 0 := by
  rw [Tensor.rows, h, Int.zero_tdiv]

/-- The rows of a range, each element where it belongs. -/
lemma dequantRowsF32_eq (fl : Floats F) (h : Accepted bytes t k p) (hdecodes : t.Decodes)
    (hscale : ¬t.Scaleless) (h0 : 0 ≤ row0) (hn : 0 ≤ nrows) (hrange : row0 + nrows ≤ t.rows)
    (hout : ∀ i < nrows.toNat * t.rowLen.toNat, (out i).isSome) :
    dequantRowsF32 fl bytes t row0 nrows out =
      pure (sliceOf fl (bytesAt bytes p t.nbytes) t.type t.rowLen.toNat (nelements t).toNat
        row0.toNat nrows.toNat out) := by
  rw [dequantRowsF32_range h.data h0 hn hrange]
  by_cases hnb : t.nbytes = 0
  · have hrows := rows_of_nelements_eq_zero (h.zero hnb)
    have hnone : nrows.toNat = 0 := by omega
    rw [hnone, sliceOf_zero]
    refine dequantRows_zero ?_ _
    rcases hdecodes with htype | htype | htype
    · exact htype
    · exact absurd ⟨h.product_eq_none hnb (.inl htype), .inl htype⟩ hscale
    · exact absurd ⟨h.product_eq_none hnb (.inr htype.1), .inr htype⟩ hscale
  · obtain ⟨n, hnel, hspans, hdvd⟩ := h.spans hnb
    obtain ⟨k', hk'⟩ := Int.eq_ofNat_of_zero_le h.rowLen_nonneg
    obtain ⟨row0, rfl⟩ := Int.eq_ofNat_of_zero_le h0
    obtain ⟨nrows, rfl⟩ := Int.eq_ofNat_of_zero_le hn
    have hmul := rows_mul_le hrange hnel hk'
    rw [Tensor.Decodes, hk'] at hdecodes
    rw [hk'] at hdvd hout ⊢
    rw [hnel]
    refine dequantRows_eq fl h.known ?_ (Int.natCast_dvd_natCast.mp hdvd) ?_ hmul hout
    · rw [length_bytesAt h.inside]
      exact hspans
    · exact_mod_cast hdecodes

/-- What is not decoded is refused. -/
lemma dequantRowsF32_unsupported (hdecodes : ¬t.Decodes) (h0 : 0 ≤ row0) (hn : 0 ≤ nrows)
    (hrange : row0 + nrows ≤ t.rows) :
    dequantRowsF32 fl bytes t row0 nrows out = throw .unsupported := by
  cases hdata : t.data with
  | none => rw [dequantRowsF32, hdata]
  | some p =>
    rw [dequantRowsF32_range hdata h0 hn hrange, dequantRows.eq_def]
    rw [Tensor.Decodes] at hdecodes
    dsimp only
    split
    · rename_i htype
      exact absurd (.inl (by rw [htype]; decide)) hdecodes
    · rename_i htype
      exact absurd (.inl (by rw [htype]; decide)) hdecodes
    · rename_i htype
      exact absurd (.inl (by rw [htype]; decide)) hdecodes
    · rename_i htype
      exact absurd (.inl (by rw [htype]; decide)) hdecodes
    · rename_i htype
      exact absurd (.inl (by rw [htype]; decide)) hdecodes
    · rename_i htype
      exact absurd (.inr (.inl htype)) hdecodes
    · rename_i htype
      exact if_pos fun hmod => hdecodes (.inr (.inr ⟨htype, Int.dvd_of_emod_eq_zero hmod⟩))
    · rfl

/-- The scale of a tensor without bytes is read outside of it. -/
lemma dequantRowsF32_scaleless (fl : Floats F) (out : Memory F) (h : Accepted bytes t k p)
    (hscale : t.Scaleless) :
    nelements t = 0 ∧ dequantRowsF32 fl bytes t 0 0 out = ExceptT.mk none := by
  have hnb : t.nbytes = 0 := by
    rw [h.nbytes]
    simp only [ggmlNbytes, h.known, hscale.1]
    split_ifs <;> rfl
  have hnel := h.zero hnb
  have hrows := rows_of_nelements_eq_zero hnel
  have hview : viewScale fl (bytesAt bytes p t.nbytes) 0 = none := by
    have hlen := length_bytesAt h.inside
    rw [viewScale, loadLe, if_neg (by omega)]
    rfl
  refine ⟨hnel, ?_⟩
  rw [dequantRowsF32_range h.data (by omega) (by omega) (by omega), hnel]
  rcases hscale.2 with htype | ⟨htype, hrow⟩
  · rw [htype]
    show ExceptT.lift (viewScale fl (bytesAt bytes p t.nbytes) 0 >>= _) = _
    rw [hview]
    rfl
  · rw [htype]
    show (if _ then _ else ExceptT.lift (viewScale fl (bytesAt bytes p t.nbytes) 0 >>= _)) = _
    rw [if_neg (not_not.mpr (Int.emod_eq_zero_of_dvd hrow)), hview]
    rfl

end Accepted

/-! ### The property -/

/-- Every range of rows inside of a tensor is decoded from the bytes of the tensor, to what those
rows are of the whole tensor; a type that is not decoded is refused. -/
def RowsAgree (fl : Floats F) (bytes : List UInt8) (t : Tensor) : Prop :=
  ∀ row0 nrows : ℤ, 0 ≤ row0 → 0 ≤ nrows → row0 + nrows ≤ t.rows →
    ∀ out whole : List F, nrows * t.rowLen ≤ out.length → t.rows * t.rowLen ≤ whole.length →
      (¬t.Decodes ∧ dequantRowsF32 fl bytes t row0 nrows (ofList out) = throw .unsupported) ∨
      (t.Decodes ∧ ∃ part all, dequantRowsF32 fl bytes t row0 nrows (ofList out) = pure part ∧
        dequantRowsF32 fl bytes t 0 t.rows (ofList whole) = pure all ∧
        ∀ i : ℕ, i < nrows * t.rowLen →
          ∃ v, part.value i = some v ∧ all.value (row0.toNat * t.rowLen.toNat + i) = some v)

/-- `Q6_K`: wherever the packing of some codes stands in the data, every range of rows of it is
unpacked to the codes with their scales. -/
def UnpacksQ6k (fl : Floats F) : Prop :=
  ∀ (q : ℕ → ℤ) (sc : ℕ → Int8) (d : ℕ → UInt16), (∀ e, -32 ≤ q e ∧ q e < 32) →
    ∀ (data : List UInt8) (n bpr m row0 nrows : ℕ) (out : List F),
      (∀ p < m * 210, data[p]? = some (packQ6k q sc d p)) → (row0 + nrows) * bpr ≤ m →
      nrows * (bpr * 256) ≤ out.length →
      ∃ part, dequantRows fl data 14 (bpr * 256 : ℕ) n row0 nrows (ofList out) = pure part ∧
        ∀ i < nrows * (bpr * 256), part.value i =
          some (fl.mul (fl.mul (fl.ofHalf (d ((row0 * (bpr * 256) + i) / 256)).toNat)
            (fl.ofInt (sc ((row0 * (bpr * 256) + i) / 16)).toInt))
            (fl.ofInt (q (row0 * (bpr * 256) + i))))

/-- `I2_S`: the same, with one scale behind the codes. -/
def UnpacksI2s (fl : Floats F) : Prop :=
  ∀ code : ℕ → ℕ, (∀ e, code e < 4) →
    ∀ (data : List UInt8) (bpr m row0 nrows scale : ℕ) (out : List F),
      (∀ p < m * 32, data[p]? = some (packI2s code p)) → loadLe data (m * 32) 4 = some scale →
      (row0 + nrows) * bpr ≤ m → nrows * (bpr * 128) ≤ out.length →
      ∃ part, dequantRows fl data i2s (bpr * 128 : ℕ) (m * 128) row0 nrows (ofList out) =
          pure part ∧
        ∀ i < nrows * (bpr * 128), part.value i =
          some (fl.mul (fl.ofBits scale)
            (fl.ofInt ([-1, 0, 1, 0].getD (code (row0 * (bpr * 128) + i)) 0)))

lemma isSome_ofList {out : List F} {n : ℕ} (h : n ≤ out.length) :
    ∀ i < n, (ofList out i).isSome := fun i hi => by
  rw [ofList_eq (hi.trans_le h)]
  rfl

lemma unpacksQ6k (fl : Floats F) : UnpacksQ6k fl := by
  intro q sc d hq data n bpr m row0 nrows out hdata hrange hout
  have hrows : (row0 + nrows) * (bpr * 256) ≤ 256 * m := by
    rw [← Nat.mul_assoc, Nat.mul_comm 256]
    exact Nat.mul_le_mul_right 256 hrange
  refine ⟨_, dequantRows_q6k hrows (length_of_getElem? hdata) (isSome_ofList hout), fun i hi => ?_⟩
  have he := lt_of_rows hrows hi
  rw [value_sliceOf fl data 14 hi]
  exact congrArg some (q6kElement_pack hq hdata (by omega))

lemma unpacksI2s (fl : Floats F) : UnpacksI2s fl := by
  intro code hcode data bpr m row0 nrows scale out hdata hscale hrange hout
  have hrows : (row0 + nrows) * (bpr * 128) ≤ 128 * m := by
    rw [← Nat.mul_assoc, Nat.mul_comm 128]
    exact Nat.mul_le_mul_right 128 hrange
  have hquarter : m * 128 / 4 = m * 32 := by omega
  have hload := hscale
  rw [loadLe] at hload
  split_ifs at hload with hlen
  have hdecode : dequantRows fl data i2s (bpr * 128 : ℕ) (m * 128) row0 nrows (ofList out) = _ :=
    dequantRows_i2s hrows (by omega) (by omega) (isSome_ofList hout)
  refine ⟨_, hdecode, fun i hi => ?_⟩
  have he := lt_of_rows hrows hi
  have hle : leAt data (m * 128 / 4) 4 = scale := by
    rw [hquarter]
    exact Option.some.inj hload
  rw [value_sliceOf fl data i2s hi]
  show some (i2sElement fl data (fl.ofBits (leAt data (m * 128 / 4) 4)) _) = _
  rw [hle, i2sElement_pack hcode hdata (by omega)]

lemma rowsAgree_of_not_scaleless {fl : Floats F} {bytes : List UInt8} {h : Handle}
    (hparse : parse bytes = .ok h) {t : Tensor} (ht : t ∈ h.tensors) (hscale : ¬t.Scaleless) :
    RowsAgree fl bytes t := by
  intro row0 nrows h0 hn hrange out whole hout hwhole
  by_cases hdecodes : t.Decodes
  · obtain ⟨k, hk⟩ : ∃ k, traits t.type = some k := by
      simp only [Tensor.Decodes, List.mem_cons, List.not_mem_nil, or_false] at hdecodes
      rcases hdecodes with (h | h | h | h | h) | h | ⟨h, -⟩ <;> rw [h] <;> exact ⟨_, rfl⟩
    obtain ⟨p, hacc⟩ := accepted_of_parse hparse ht hk
    have hlen := hacc.rowLen_nonneg
    have hfits : ∀ {n : ℤ} {xs : List F}, 0 ≤ n → n * t.rowLen ≤ xs.length →
        n.toNat * t.rowLen.toNat ≤ xs.length := fun hn hxs => by
      rw [← Int.toNat_mul hn hlen]
      exact Int.toNat_le.mpr hxs
    have hpart := dequantRowsF32_eq fl hacc hdecodes hscale h0 hn hrange
      (isSome_ofList (hfits hn hout))
    have hall := dequantRowsF32_eq fl hacc hdecodes hscale (le_refl 0) (by omega)
      (by omega : 0 + t.rows ≤ t.rows) (isSome_ofList (hfits (by omega) hwhole))
    refine .inr ⟨hdecodes, _, _, hpart, hall, fun i hi => ?_⟩
    have hi' : i < nrows.toNat * t.rowLen.toNat := by
      rw [← Int.toNat_mul hn hlen]
      omega
    have hplace : row0.toNat * t.rowLen.toNat + i < t.rows.toNat * t.rowLen.toNat := by
      calc row0.toNat * t.rowLen.toNat + i
          < row0.toNat * t.rowLen.toNat + nrows.toNat * t.rowLen.toNat := by omega
        _ = (row0.toNat + nrows.toNat) * t.rowLen.toNat := (Nat.add_mul _ _ _).symm
        _ ≤ t.rows.toNat * t.rowLen.toNat := Nat.mul_le_mul_right _ (by omega)
    refine ⟨_, value_sliceOf _ _ _ hi', ?_⟩
    rw [value_sliceOf _ _ _ hplace, Int.toNat_zero, Nat.zero_mul, Nat.zero_add]
  · exact .inl ⟨hdecodes, dequantRowsF32_unsupported hdecodes h0 hn hrange⟩

lemma not_rowsAgree_of_scaleless {fl : Floats F} {bytes : List UInt8} {h : Handle}
    (hparse : parse bytes = .ok h) {t : Tensor} (ht : t ∈ h.tensors) (hscale : t.Scaleless) :
    ¬RowsAgree fl bytes t := by
  intro hagree
  obtain ⟨k, hk⟩ : ∃ k, traits t.type = some k := by
    rcases hscale.2 with h | ⟨h, -⟩ <;> rw [h] <;> exact ⟨_, rfl⟩
  obtain ⟨p, hacc⟩ := accepted_of_parse hparse ht hk
  obtain ⟨hnel, hfault⟩ := dequantRowsF32_scaleless fl (ofList []) hacc hscale
  have hrows := rows_of_nelements_eq_zero hnel
  have hempty : 0 * t.rowLen ≤ ([] : List F).length := by rw [Int.zero_mul]; exact le_refl _
  have hwhole : t.rows * t.rowLen ≤ ([] : List F).length := by rw [hrows]; exact hempty
  rcases hagree 0 0 (le_refl 0) (le_refl 0) (by omega) [] [] hempty hwhole with
    ⟨-, hrun⟩ | ⟨-, part, all, hrun, -⟩
  · rw [hfault] at hrun
    exact nomatch (hrun : (none : Option (Except Status (Memory F))) = some _)
  · rw [hfault] at hrun
    exact Fault.fault_ne_pure hrun

/-- **Dequantisation.**  The unpackers invert the packings.  In a file that opens, every range of
rows of a tensor is decoded from the tensor's own bytes, to the slice of the whole, except where a
tensor with a scale behind its codes has dimensions that multiply past `2 ^ 62` on the way to a
product of `0`. -/
theorem dequantRowsF32_iff (fl : Floats F) :
    (UnpacksQ6k fl ∧ UnpacksI2s fl) ∧
      ∀ bytes h, parse bytes = .ok h → ∀ t ∈ h.tensors, RowsAgree fl bytes t ↔ ¬t.Scaleless :=
  ⟨⟨unpacksQ6k fl, unpacksI2s fl⟩, fun _ _ hparse _ ht =>
    ⟨fun hagree hscale => not_rowsAgree_of_scaleless hparse ht hscale hagree,
      rowsAgree_of_not_scaleless hparse ht⟩⟩

/-- The value of finite floating-point bits, with `m` bits of mantissa and `e` of exponent. -/
def bitsValue (m e b : ℕ) : ℚ :=
  let mantissa : ℚ := (b % 2 ^ m : ℕ) / 2 ^ m
  let sign : ℚ := if b / 2 ^ (m + e) % 2 = 1 then -1 else 1
  match b / 2 ^ m % 2 ^ e with
  | 0 => sign * mantissa * 2 / 2 ^ (2 ^ (e - 1) - 1)
  | ex => sign * (1 + mantissa) * 2 ^ ex / 2 ^ (2 ^ (e - 1) - 1)

/-- Floats that do not round. -/
def exactFloats : Floats ℚ := ⟨bitsValue 23 8, fun n => n, (· * ·), bitsValue 10 5⟩

/-- One block of `q8_0`. -/
theorem dequantRowsF32_iff_sample :
    ∃ h, parse (sampleFile 8 34) = .ok h ∧ sampleTensor 8 34 ∈ h.tensors ∧
      RowsAgree exactFloats (sampleFile 8 34) (sampleTensor 8 34) := by
  have hparse : parse (sampleFile 8 34) =
      .ok ⟨⟨3, [], [sampleTensor 8 34]⟩, 32, 64⟩ := by decide +kernel
  refine ⟨_, hparse, List.mem_cons_self, ?_⟩
  refine ((dequantRowsF32_iff exactFloats).2 _ _ hparse _ List.mem_cons_self).mpr fun hscale => ?_
  rcases hscale.2 with h | h
  · exact absurd h (by decide)
  · exact absurd h.1 (by decide)

/-- A file with one tensor `a` of `2 ^ 39` by `2 ^ 24 - 1` by `0` elements of `i8_s`, and no
data. -/
def emptyFile : List UInt8 :=
  [0x47, 0x47, 0x55, 0x46, 3, 0, 0, 0] ++ [1, 0, 0, 0, 0, 0, 0, 0] ++ [0, 0, 0, 0, 0, 0, 0, 0] ++
    [1, 0, 0, 0, 0, 0, 0, 0, 97] ++ [3, 0, 0, 0] ++ [0, 0, 0, 0, 128, 0, 0, 0] ++
    [255, 255, 255, 0, 0, 0, 0, 0] ++ [0, 0, 0, 0, 0, 0, 0, 0] ++ [37, 0, 0, 0] ++
    [0, 0, 0, 0, 0, 0, 0, 0] ++ List.replicate 23 0

/-- Its tensor has no rows, and the scale of no rows is read behind the file. -/
theorem scale_behind_file :
    ¬∀ bytes h, parse bytes = .ok h → ∀ t ∈ h.tensors, RowsAgree exactFloats bytes t := by
  intro hall
  have hparse : parse emptyFile = .ok ⟨⟨3, [],
      [⟨[97], 3, [2 ^ 39, 2 ^ 24 - 1, 0, 1], 37, 0, 0, some 96⟩]⟩, 32, 96⟩ := by decide +kernel
  refine not_rowsAgree_of_scaleless hparse List.mem_cons_self ⟨?_, .inl rfl⟩
    (hall _ _ hparse _ List.mem_cons_self)
  decide +kernel

end VibeVoice.Gguf
