import VibeVoice.Lib.Fault
import VibeVoice.Model.Entry
import VibeVoice.Quant.Repack

/-!
Loading compressed-tensors projections (`load_ct_weight` of `loader.c`).

Integers of a tensor are read into `int32_t`, whatever their type; element counts are narrowed to
`int`. A read outside of a tensor, a store outside of a buffer and a division by zero are faults.
The conversions of floats and the arithmetic of the mins are a parameter.

* `loadCtWeight`: the function.
* `Faithful`: a loaded weight is what its tensors say (`Dequantizes`), of channels in the groups of
  their places (`PlainGroups`) and of the shape they say (`SaysShape`).
* `Fits`: nothing that is narrowed on the way is too large for it.
-/

namespace VibeVoice.Loader

open Safetensors Fault Quant

/-- `vv_load_quant_t`. -/
inductive LoadQuant
  | auto | none | nf4 | int4 | int8 | w8a8 | w4a8
  deriving DecidableEq, Repr

/-- `vv_load_quant_act8`. -/
def LoadQuant.act8 (q : LoadQuant) : Bool := q = .w8a8 || q = .w4a8

/-- `malloc`: whether it finds a block of a size; no object is larger than `PTRDIFF_MAX`. -/
structure Heap where
  malloc : ℕ → Bool
  limit : ∀ n, malloc n = true → n < 2 ^ 63

/-- A heap of 1000 bytes. -/
def smallHeap : Heap where
  malloc n := n < 1000
  limit n h := (of_decide_eq_true h).trans (by decide)

/-- The arithmetic of floats: elements to FP32, FP32 to FP16, and the min of a zero point. -/
structure Floats where
  toFloat : DType → ℕ → UInt32
  toHalf : UInt32 → UInt16
  minOf : ℤ → UInt16 → UInt16

/-- Floats that are their low bits. -/
def plainFloats : Floats := ⟨fun _ v => UInt32.ofNat v, fun v => v.toUInt16, fun _ s => s⟩

/-- `loader_t`: the index, sorted by name, and the options of the load. -/
structure State where
  entries : List Entry
  quant : LoadQuant
  ctBits : ℤ
  ctActInt8 : Bool

/-- `find`. -/
def State.find (L : State) (name : List UInt8) : Option Entry :=
  L.entries.find? fun e => e.info.name = name

/-- `vv_alloc(size) != NULL`, of a `size_t`. -/
def Heap.allocates (heap : Heap) (size : ℤ) : Bool :=
  size % 2 ^ 64 ≠ 0 && heap.malloc (((size % 2 ^ 64).toNat + 8) % 2 ^ 64)

/-- `vv_alloc`, where a failure ends the call. -/
def Heap.alloc (heap : Heap) (size : ℤ) : Checked Unit := check (heap.allocates size) .outOfMemory

/-- `check_bytes(e) == VV_OK`. -/
def bytesOk (e : Entry) : Bool := (checkBytes e).isOk

section Model

variable (heap : Heap) (fl : Floats) (L : State)

/-- `to_f32` of `n` elements into a buffer of `bytes` bytes; what no block converts is left as it
was. -/
def toF32 (e : Entry) (n bytes : ℕ) : Checked (List (Option UInt32)) := do
  within (4 * converted n ≤ bytes)
  ExceptT.lift <| (List.range n).mapM fun i =>
    if i < converted n then
      (e.word e.info.dtype.size i).map fun v => some (fl.toFloat e.info.dtype v)
    else some none

/-- Element `i` of an integer tensor, as the file holds it. -/
def storedInt (e : Entry) (i : ℕ) : Option ℤ :=
  match e.info.dtype with
  | .i8 => (e.word 1 i).map (signed 1)
  | .i32 => (e.word 4 i).map (signed 4)
  | .i64 => (e.word 8 i).map (signed 8)
  | _ => none

/-- The types `ct_ints` reads. -/
def isCtInt (dt : DType) : Bool := dt = .i8 || dt = .i32 || dt = .i64

/-- `ct_ints` of `n` elements into `room` of them; `none` is `false`. An `int64_t` is cut to its low
32 bits. -/
def ctInts (e : Entry) (n room : ℕ) : Checked (Option (List ℤ)) :=
  if isCtInt e.info.dtype then do
    within (n ≤ room)
    some <$> ExceptT.lift ((List.range n).mapM fun i =>
      (storedInt e i).map fun v => v.bmod (2 ^ 32))
  else pure none

/-- `e_int`, an I8 tensor, or `e_packed`. -/
inductive Container
  | int (e : Entry) (i8 : e.info.dtype = .i8)
  | packed (e : Entry)

/-- The tensor that holds the weight. -/
def Container.entry : Container → Entry
  | .int e _ => e
  | .packed e => e

/-- The container is `weight_packed`. -/
def Container.isPacked : Container → Bool
  | .int _ _ => false
  | .packed _ => true

/-- The check of `weight_shape`. -/
def checkWeightShape (base : List UInt8) (N K : ℤ) : Checked Unit :=
  match L.find (base ++ literal ".weight_shape") with
  | none => pure ()
  | some sh =>
    if numelOf sh.info = 2 ∧ bytesOk sh then do
      let dims ← ctInts sh 2 2
      check (dims = none ∨ dims = some [N, K]) .shapeMismatch
    else pure ()

/-- `bits`, of a container of the shape the config says. -/
def storedBits (base : List UInt8) (c : Container) (N K : ℤ) : Checked ℤ :=
  match c with
  | .packed e => do
      check (e.info.dtype = .i32 ∧ (checkShape e N (K.tdiv 8)).isOk) .unsupported
      checkWeightShape L base N K
      pure 4
  | .int e _ => do
      settled (checkShape e N K)
      pure (if L.ctBits ≠ 0 then L.ctBits else 8)

/-- `ok_mode`. -/
def okMode (bits : ℤ) (q : LoadQuant) : Bool :=
  if bits = 8 then q = .auto || q = .int8 || q = .w8a8 else q = .auto || q = .int4 || q = .w4a8

/-- `ng`: a count that does not fit an `int` is cut to one. -/
def groupsPerRow (ns N : ℤ) : Checked ℤ :=
  if 0 < ns then do
    within (N ≠ 0)
    pure (if ns.tmod N = 0 then (ns.tdiv N).bmod (2 ^ 32) else 0)
  else pure 0

/-- `ng` and `scale`. -/
def loadCtScale (base : List UInt8) (bits N K : ℤ) : Checked (ℤ × List (Option UInt32)) :=
  match L.find (base ++ literal ".weight_scale") with
  | none => throw .weightMissing
  | some se => do
      check (se.info.dtype.isFloat ∧ bytesOk se) .weightMissing
      let ng ← groupsPerRow (numelOf se.info).toInt N
      check (0 < ng ∧ K.tmod ng = 0) .shapeMismatch
      check (¬(bits = 8 ∧ ng ≠ 1)) .unsupported
      check (¬(bits = 4 ∧ (K.tdiv ng).tmod 32 ≠ 0)) .unsupported
      heap.alloc ((numelOf se.info).toInt * 4)
      let scale ← toF32 fl se (numelOf se.info).toInt.toNat
        ((numelOf se.info).toInt * 4 % 2 ^ 64).toNat
      pure (ng, scale)

/-- A zero point packed along `N`: word `(r, g)` holds those of rows `8 r` to `8 r + 7`. -/
def packedZero (ze : Entry) (ng n g : ℕ) : Option ℤ :=
  (ze.word 4 (n / 8 * ng + g)).map fun w => (nibble (UInt32.ofNat w) (n % 8)).toNat - 8

/-- The shape of zero points packed along `N`. -/
def hasPackedShape (ze : Entry) (N ng : ℤ) : Bool :=
  ze.info.dtype = .i32 ∧ ze.info.shape.map Int64.toInt = [((N + 7).bmod (2 ^ 32)).tdiv 8, ng]

/-- `zp` of the tensor `ze`; `none` is `ok == false`. -/
def readZeros (ze : Entry) (bits N ng : ℤ) : Checked (Option (List ℤ)) :=
  if bytesOk ze then
    if (numelOf ze.info).toInt = N * ng then ctInts ze (N * ng).toNat (N * ng).toNat
    else if bits = 4 ∧ hasPackedShape ze N ng then
      some <$> ExceptT.lift ((List.range (N * ng).toNat).mapM fun i =>
        packedZero ze ng.toNat (i / ng.toNat) (i % ng.toNat))
    else pure none
  else pure none

/-- `zp`, `[N][ng]`. -/
def loadCtZeros (base : List UInt8) (bits N ng : ℤ) : Checked (Option (List ℤ)) :=
  match L.find (base ++ literal ".weight_zero_point") with
  | none => pure none
  | some ze => do
      heap.alloc (N * ng * 4)
      let zp ← readZeros ze bits N ng
      check (zp.isSome) .shapeMismatch
      pure zp

/-- `plain`: every channel is in the group of its place. -/
def readPlain (gi : Entry) (K G : ℤ) : Checked Bool :=
  if (numelOf gi.info).toInt = K ∧ bytesOk gi ∧ heap.allocates (K * 4) then do
    let gv ← ctInts gi K.toNat K.toNat
    pure (gv = some ((List.range K.toNat).map fun (k : ℕ) => (k : ℤ).tdiv G))
  else pure false

/-- The check of `weight_g_idx`. -/
def checkGroupIndex (base : List UInt8) (K G : ℤ) : Checked Unit :=
  match L.find (base ++ literal ".weight_g_idx") with
  | none => pure ()
  | some gi => do
      let plain ← readPlain heap gi K G
      check plain .unsupported

/-- A row of the INT4G layout; a scale is `none` where nothing was converted. -/
structure Int4gRow where
  packed : List UInt8
  scales : List (Option UInt16)
  mins : List (Option UInt16)
  zeros : List UInt8
  deriving DecidableEq, Repr

/-- The tensors of a loaded projection, by its kind. -/
inductive Body
  | int8 (codes : List UInt8) (scales : List (Option UInt32))
  | int4g (rows : List Int4gRow) (groupSize : ℤ)
  deriving DecidableEq, Repr

/-- `vv_weight_t`, as far as this format fills it. -/
structure Weight where
  actInt8 : Bool
  body : Body
  deriving DecidableEq, Repr

/-- The INT8 weight; `zp` holds a zero point a row. -/
def loadInt8 (e : Entry) (N K : ℤ) (scale : List (Option UInt32)) (zp : Option (List ℤ)) :
    Checked Body := do
  check (((zp.getD []).take N.toNat).all fun z => z = 0) .unsupported
  heap.alloc (N * K)
  within ((N * K % 2 ^ 64).toNat ≤ e.data.length)
  pure (.int8 (e.data.take (N * K % 2 ^ 64).toNat) scale)

/-- `c0` before it is held to 4 bits. -/
def ctCode (c : Container) (K n k : ℕ) : Option ℤ :=
  match c with
  | .packed e =>
    (e.word 4 (n * (K / 8) + k / 8)).map fun w => (nibble (UInt32.ofNat w) (k % 8)).toNat
  | .int e _ => (e.word 1 (n * K + k)).map fun v => signed 1 v + 8

/-- A code or zero point that is not one of 4 bits. -/
def outside (c : ℤ) : Bool := c < 0 || 15 < c

/-- A code or zero point, held to 4 bits. -/
def hold (c : ℤ) : UInt8 := UInt8.ofNat (max 0 (min 15 c)).toNat

/-- Whether the pair of `k` and `k + 1` counts as bad. -/
def badPair (c : Container) (K n k : ℕ) : Option Bool := do
  let c0 ← ctCode c K n k
  let c1 ← ctCode c K n (k + 1)
  pure (outside c0 || outside c1)

/-- `zp ? zp[i] : 0`. -/
def zeroOf (zp : Option (List ℤ)) (i : ℕ) : Option ℤ :=
  match zp with
  | none => some 0
  | some zp => zp[i]?

/-- The FP16 scale and the zero point of group `g` of row `n`. -/
def ctGroup (scale : List (Option UInt32)) (zp : Option (List ℤ)) (ng n g : ℕ) :
    Option (Option UInt16 × ℤ) := do
  let s ← scale[n * ng + g]?
  let z ← zeroOf zp (n * ng + g)
  pure (s.map fl.toHalf, (8 + z).bmod (2 ^ 32))

/-- Row `n`, and what it adds to `bad`. -/
def ctRow (c : Container) (scale : List (Option UInt32)) (zp : Option (List ℤ)) (K ng n : ℕ) :
    Option (Int4gRow × ℕ) := do
  let packed ← (List.range' 0 ((K + 1) / 2) 2).foldlM
    (putPair fun k => (ctCode c K n k).map hold) (List.replicate (K / 2) 0)
  let pairs ← (List.range' 0 ((K + 1) / 2) 2).mapM (badPair c K n)
  let groups ← (List.range ng).mapM (ctGroup fl scale zp ng n)
  pure ({
    packed
    scales := groups.map Prod.fst
    mins := groups.map fun g => g.1.map (fl.minOf (hold g.2).toNat)
    zeros := groups.map fun g => hold g.2 },
    pairs.count true + groups.countP fun g => outside g.2)

/-- The INT4G weight; `bad` is an `int`. -/
def loadInt4g (c : Container) (N K ng : ℤ) (scale : List (Option UInt32))
    (zp : Option (List ℤ)) : Checked Body := do
  heap.alloc (N * K.tdiv 2)
  heap.alloc (N * ng * 2)
  heap.alloc (N * ng * 2)
  heap.alloc (N * ng)
  let rows ← ExceptT.lift ((List.range N.toNat).mapM (ctRow fl c scale zp K.toNat ng.toNat))
  check ((rows.map Prod.snd).sum % 2 ^ 32 = 0) .modelFormat
  pure (.int4g (rows.map Prod.fst) (K.tdiv ng))

/-- The tensors of the weight, of `bits` bits. -/
def loadBody (c : Container) (bits N K ng : ℤ) (scale : List (Option UInt32))
    (zp : Option (List ℤ)) : Checked Body :=
  if bits = 8 then loadInt8 heap c.entry N K scale zp else loadInt4g heap fl c N K ng scale zp

/-- `load_ct_weight`. -/
def loadCtWeight (base : List UInt8) (c : Container) (N K : ℤ) : Checked Weight := do
  let bits ← storedBits L base c N K
  check (bits = 8 ∨ bits = 4) .unsupported
  check (okMode bits L.quant) .unsupported
  let (ng, scale) ← loadCtScale heap fl L base bits N K
  let zp ← loadCtZeros heap L base bits N ng
  checkGroupIndex heap L base K (K.tdiv ng)
  let body ← loadBody heap fl c bits N K ng scale zp
  pure ⟨if L.quant = .auto then L.ctActInt8 else L.quant.act8, body⟩

end Model

/-! ### What the tensors say -/

section Spec

variable (fl : Floats) (L : State) (c : Container)

/-- Element `(n, k)` of the weight, as the file holds it. -/
def storedCode (K n k : ℕ) : Option ℤ :=
  match c with
  | .packed e =>
    (e.word 4 (n * (K / 8) + k / 8)).map fun w => (nibble (UInt32.ofNat w) (k % 8)).toNat - 8
  | .int e _ => storedInt e (n * K + k)

/-- The zero points lie packed along `N`. One row of groups of I32 is packed where the weight is. -/
def zerosPacked (ze : Entry) (N ng : ℤ) : Bool :=
  hasPackedShape ze N ng && (c.isPacked || N ≠ 1)

/-- The zero point of group `g` of row `n`, as the file holds it. -/
def storedZero (ze : Option Entry) (N ng n g : ℕ) : Option ℤ :=
  match ze with
  | none => some 0
  | some ze =>
    if zerosPacked c ze N ng then packedZero ze ng n g else storedInt ze (n * ng + g)

lemma storedZero_of_plain {c : Container} {ze : Entry} {N ng : ℕ} (n g : ℕ)
    (h : zerosPacked c ze N ng = false) :
    storedZero c (some ze) N ng n g = storedInt ze (n * ng + g) := by
  rw [storedZero, h]
  rfl

/-- Scale `i`, as FP32. -/
def storedScale (se : Entry) (i : ℕ) : Option UInt32 :=
  (se.word se.info.dtype.size i).map (fl.toFloat se.info.dtype)

/-- The bits of a loaded scale. -/
inductive ScaleBits
  | f32 (bits : UInt32)
  | f16 (bits : UInt16)
  deriving DecidableEq, Repr

/-- The code of element `(n, k)` of a loaded weight. -/
def Body.code (b : Body) (K n k : ℕ) : Option ℤ :=
  match b with
  | .int8 codes _ => codes[n * K + k]?.map fun (x : UInt8) => signed 1 x.toNat
  | .int4g rows _ => rows[n]?.bind fun row =>
    (rowCode row.packed k).map fun (q : UInt8) => (q.toNat : ℤ)

/-- Its zero point. -/
def Body.zero (b : Body) (n g : ℕ) : Option ℤ :=
  match b with
  | .int8 _ _ => some 0
  | .int4g rows _ => rows[n]?.bind fun row => row.zeros[g]?.map fun (z : UInt8) => (z.toNat : ℤ)

/-- Its scale. -/
def Body.scale (b : Body) (n g : ℕ) : Option ScaleBits :=
  match b with
  | .int8 _ scales => scales[n]?.join.map .f32
  | .int4g rows _ => (rows[n]?.bind fun row => row.scales[g]?.join).map .f16

/-- Its min, where it has one. -/
def Body.min (b : Body) (n g : ℕ) : Option UInt16 :=
  match b with
  | .int8 _ _ => none
  | .int4g rows _ => rows[n]?.bind fun row => row.mins[g]?.join

/-- A scale as the loader rounds it for this kind of weight. -/
def Body.rounded (b : Body) (s : UInt32) : ScaleBits :=
  match b with
  | .int8 _ _ => .f32 s
  | .int4g _ _ => .f16 (fl.toHalf s)

/-- The min that goes with a zero point and a scale. -/
def Body.minOf (b : Body) (zero : ℤ) (s : UInt32) : Option UInt16 :=
  match b with
  | .int8 _ _ => none
  | .int4g _ _ => some (fl.minOf zero (fl.toHalf s))

/-- What the format of a weight admits: INT8 has no zero point, INT4G has codes and zero points of
4 bits. -/
def Body.InFormat (b : Body) (q z code zero : ℤ) : Prop :=
  match b with
  | .int8 _ _ => z = 0
  | .int4g _ _ =>
    (-8 ≤ q ∧ q ≤ 7) ∧ (-8 ≤ z ∧ z ≤ 7) ∧ (0 ≤ code ∧ code ≤ 15) ∧ 0 ≤ zero ∧ zero ≤ 15

/-- Element `(n, k)` in group `g` of a loaded weight is `s * (q - z)`. -/
def Body.Element (b : Body) (K n k g : ℕ) (q z : ℤ) (s : UInt32) : Prop :=
  ∃ code zero, b.code K n k = some code ∧ b.zero n g = some zero ∧ code - zero = q - z ∧
    b.scale n g = some (b.rounded fl s) ∧ b.min n g = b.minOf fl zero s ∧ b.InFormat q z code zero

/-- A loaded weight is what the tensors of its codes, scales and zero points say. -/
structure Dequantizes (se : Entry) (ze : Option Entry) (N K ng : ℕ) (b : Body) : Prop where
  groups_pos : 0 < ng
  dvd : ng ∣ K
  scales : numel se.info = N * ng
  element : ∀ n < N, ∀ k < K, ∃ q z s, storedCode c K n k = some q ∧
    storedZero c ze N ng n (k / (K / ng)) = some z ∧
    storedScale fl se (n * ng + k / (K / ng)) = some s ∧
    b.Element fl K n k (k / (K / ng)) q z s

/-- A `g_idx` has every channel in the group of its place. -/
def PlainGroups (gi : Option Entry) (K ng : ℕ) : Prop :=
  ∀ e, gi = some e → ∀ k < K, storedInt e k = some ((k / (K / ng) : ℕ) : ℤ)

/-- A shape tensor says `[N, K]`. -/
structure SaysShape (sh : Entry) (N K : ℤ) : Prop where
  two : numelOf sh.info = 2
  bytes : bytesOk sh = true
  rows : storedInt sh 0 = some N
  columns : storedInt sh 1 = some K

/-- A loaded projection is what the tensors under its name say. -/
def Faithful (base : List UInt8) (N K : ℕ) (b : Body) : Prop :=
  ∃ se ng, L.find (base ++ literal ".weight_scale") = some se ∧
    Dequantizes fl c se (L.find (base ++ literal ".weight_zero_point")) N K ng b ∧
    PlainGroups (L.find (base ++ literal ".weight_g_idx")) K ng ∧
    (c.isPacked → ∀ sh, L.find (base ++ literal ".weight_shape") = some sh → SaysShape sh N K)

/-! ### What is cut off on the way -/

/-- Every integer of a tensor is an `int32_t`. -/
def AllInt32 (e : Entry) : Prop := ∀ i v, storedInt e i = some v → -2 ^ 31 ≤ v ∧ v < 2 ^ 31

/-- The most elements the blocks of `to_f32` convert. -/
def convLimit : ℕ := 65536 * (2 ^ 31 - 1)

/-- An integer that is not one of signed 4 bits. -/
def outOfNibble (v : Option ℤ) : Bool := v.any fun v => v < -8 || 7 < v

/-- The pairs of codes and the zero points of row `n` that are not of 4 bits. -/
def outInRow (ze : Option Entry) (N K ng n : ℕ) : ℕ :=
  ((List.range' 0 (K / 2) 2).countP fun k =>
    outOfNibble (storedCode c K n k) || outOfNibble (storedCode c K n (k + 1))) +
  (List.range ng).countP fun g => outOfNibble (storedZero c ze N ng n g)

/-- The bits of the integers of a container. -/
def State.bitsOf : ℤ := if c.isPacked then 4 else if L.ctBits ≠ 0 then L.ctBits else 8

/-- Nothing under a name is too large for where the loader puts it, and its zero points can be
read in one way only. -/
structure Fits (base : List UInt8) (N K : ℕ) : Prop where
  scales : ∀ se, L.find (base ++ literal ".weight_scale") = some se →
    0 ≤ numel se.info ∧ numel se.info < 2 ^ 31 * N ∧ numel se.info ≤ convLimit
  zeros : ∀ ze, L.find (base ++ literal ".weight_zero_point") = some ze → AllInt32 ze
  groups : ∀ gi, L.find (base ++ literal ".weight_g_idx") = some gi → AllInt32 gi
  shape : c.isPacked → ∀ sh, L.find (base ++ literal ".weight_shape") = some sh →
    numelOf sh.info = 2 ∧ bytesOk sh ∧ isCtInt sh.info.dtype ∧ AllInt32 sh
  layout : c.isPacked → N = 1 → ∀ se ze, L.find (base ++ literal ".weight_scale") = some se →
    L.find (base ++ literal ".weight_zero_point") = some ze →
    hasPackedShape ze N (numel se.info) = false
  count : L.bitsOf c = 4 → ∀ se, L.find (base ++ literal ".weight_scale") = some se →
    ((List.range N).map (outInRow c (L.find (base ++ literal ".weight_zero_point")) N K
      (numel se.info / N).toNat)).sum < 2 ^ 32

end Spec

end VibeVoice.Loader
