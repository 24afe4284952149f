import VibeVoice.Attention.KvCache
import VibeVoice.Kernels.TernaryDrive
import VibeVoice.Lib.Online
import VibeVoice.Lib.Warp

/-!
Split attention of one query (`attention.cu`, `attention_decode.cu`, `decode_split.h`), in exact
arithmetic.

The warps of a launch walk slices of the cache, each with its own state, and a second launch puts
the states together.

* `flashDecodeSplit`, `gqaDecode`: what the threads of the two kernels store.
* `flashDecodeCombine`, `attCombine`: the second launch.
* `Filled`: the scratch holds the state of every slice of every head.
* `decode_attends`, `gqa_attends`: whatever the order of the stores, the output is the attention
  over all positions.
* `gqa_single_stale`: with one head per group, most slices are not walked.
-/

namespace VibeVoice.Attention

open Finset Lanes Warp Softmax

/-- `FLT_MAX`. -/
def fltMax : ℕ := 340282346638528859811704183484516925440

/-- `1e-20f`, inverted. -/
def tinyInverse : ℕ := 100000000000000000000

lemma tiny_lt_one : (tinyInverse : ℝ)⁻¹ < 1 := by
  rw [tinyInverse]
  norm_num

/-- Exact arithmetic with the constants of the kernels: `-FLT_MAX` and `1e-20f`. -/
structure Flash (R : Type) [Field R] [LinearOrder R] extends Arith R where
  low : R
  tiny : R
  tiny_lt : tiny < 1

/-- The arithmetic of the real numbers. -/
noncomputable def Flash.real : Flash ℝ where
  toArith := Arith.real
  low := -(fltMax : ℝ)
  tiny := (tinyInverse : ℝ)⁻¹
  tiny_lt := tiny_lt_one

/-! ### The scratch -/

/-- `VV_DECODE_WARPS`. -/
def decodeWarps : ℕ := 8

/-- `VV_DECODE_MAX_PARTS`. -/
def decodeMaxParts : ℕ := 256

/-- `vv_decode_n_parts`. -/
def vvDecodeNParts (cacheLen : ℕ) : ℕ :=
  let n := (cacheLen + 128 - 1) / 128
  let n := if n < 1 then 1 else n
  let n := if decodeMaxParts < n then decodeMaxParts else n
  (n + decodeWarps - 1) / decodeWarps * decodeWarps

/-- `vv_decode_parts_t`: where the arrays are in the scratch. -/
structure DecodeParts where
  o : ℕ
  m : ℕ
  l : ℕ

/-- `vv_decode_parts`. -/
def vvDecodeParts (nQHeads headDim : ℕ) : DecodeParts where
  o := 0
  m := nQHeads * decodeMaxParts * headDim
  l := nQHeads * decodeMaxParts * headDim + nQHeads * decodeMaxParts

/-- `vv_decode_parts_bytes`, in floats. -/
def vvDecodePartsFloats (nQHeads headDim : ℕ) : ℕ := nQHeads * decodeMaxParts * (headDim + 2)

/-- `chunk`. -/
def sliceChunk (len nParts : ℕ) : ℕ := (len + nParts - 1) / nParts

/-- `begin`. -/
def sliceBegin (len nParts part : ℕ) : ℕ := part * sliceChunk len nParts

/-- `end`. -/
def sliceEnd (len nParts part : ℕ) : ℕ :=
  let stop := sliceBegin len nParts part + sliceChunk len nParts
  if len < stop then len else stop

/-- The positions of a slice. -/
def slice (len nParts part : ℕ) : List ℕ :=
  List.range' (sliceBegin len nParts part)
    (sliceEnd len nParts part - sliceBegin len nParts part)

section Kernels

variable {R : Type} [Field R] [LinearOrder R] (A : Flash R)

/-- What the lanes of a warp store for a row: `some` is `end > begin`. -/
def storeState (p : DecodeParts) (headDim row : ℕ) (some : Bool) (w : ℕ → Running R (ℕ → R)) :
    List (ℕ × R) :=
  (List.range 32).flatMap fun lane =>
    (List.range 4).map (fun d => (p.o + (row * headDim + lane * 4 + d), (w lane).o d)) ++
      if lane = 0 then
        [(p.m + row, if some then (w lane).m else A.low), (p.l + row, (w lane).l)]
      else []

/-! ### One head per warp -/

/-- The arguments of `vv_gqa_attention_decode_dev`: `null` where a pointer is missing, and the
length in device memory where there is one. -/
structure DecodeCall (R : Type) where
  q : ℕ → R
  kCache : ℕ → R
  vCache : ℕ → R
  null : Bool
  nQHeads : ℕ
  nKvHeads : ℕ
  headDim : ℕ
  cacheLen : ℕ
  dCacheLen : Option ℕ
  scale : R

namespace DecodeCall

variable (c : DecodeCall R)

/-- `cache_len` of the kernel. -/
def len : ℕ := c.dCacheLen.getD c.cacheLen

/-- `n_parts`. -/
def nParts : ℕ := vvDecodeNParts c.cacheLen

/-- `off` of a lane. -/
def off (qHead t lane : ℕ) : ℕ :=
  t * (c.nKvHeads * c.headDim) + qHead / (c.nQHeads / c.nKvHeads) * c.headDim + lane * 4

/-- One turn of the loop, in the lanes of a warp. -/
def splitTurn (qHead : ℕ) (w : ℕ → Running R (ℕ → R)) (t : ℕ) : ℕ → Running R (ℕ → R) :=
  let dot := butterfly 5 fun lane =>
    ∑ d ∈ range 4, c.q (qHead * c.headDim + lane * 4 + d) * c.kCache (c.off qHead t lane + d)
  fun lane => (w lane).take A.toExpo A.low (dot lane * c.scale) fun d =>
    c.vCache (c.off qHead t lane + d)

/-- A warp behind its loop. -/
def splitWarp (qHead part : ℕ) : ℕ → Running R (ℕ → R) :=
  (slice c.len c.nParts part).foldl (c.splitTurn A qHead) fun _ => ⟨A.low, 0, 0⟩

/-- `flash_decode_split_kernel`. -/
def flashDecodeSplit : List (ℕ × R) :=
  (List.range c.nQHeads).flatMap fun qHead =>
    (List.range (c.nParts / decodeWarps)).flatMap fun block =>
      (List.range decodeWarps).flatMap fun warp =>
        let part := block * decodeWarps + warp
        if c.nParts ≤ part then []
        else
          storeState A (vvDecodeParts c.nQHeads c.headDim) c.headDim (qHead * c.nParts + part)
            (sliceBegin c.len c.nParts part < sliceEnd c.len c.nParts part)
            (c.splitWarp A qHead part)

end DecodeCall

/-- `s_m` or `s_l` of a block, filled by the threads in steps. -/
def fillShared (threads nParts : ℕ) (src junk : ℕ → R) : ℕ → R :=
  stores ((List.range threads).flatMap fun d =>
    (strided nParts threads d).map fun i => (i, src i)) junk

/-- What a thread makes of the states of the slices. -/
def combined (nParts : ℕ) (r : ℕ → Running R R) : R :=
  let total := merge A.toExpo A.low (range nParts) r
  if A.tiny < total.l then total.o / total.l else 0

/-- `flash_decode_combine_kernel`, with what was in the shared memory of a block. -/
def flashDecodeCombine (p : DecodeParts) (nQHeads headDim nParts : ℕ) (scratch : ℕ → R)
    (junk : ℕ → ℕ → R) : List (ℕ × R) :=
  let threads := if nParts < headDim then headDim else nParts
  (List.range nQHeads).flatMap fun qHead =>
    let sm := fillShared threads nParts (fun i => scratch (p.m + (qHead * nParts + i))) (junk qHead)
    let sl := fillShared threads nParts (fun i => scratch (p.l + (qHead * nParts + i))) (junk qHead)
    ((List.range threads).filter (· < headDim)).map fun d =>
      (qHead * headDim + d, combined A nParts fun i =>
        ⟨sm i, sl i, scratch (p.o + ((qHead * nParts + i) * headDim + d))⟩)

/-- `vv_gqa_attention_decode_dev`: the stores of the first launch, and those of the second one,
which reads the scratch. -/
def vvGqaAttentionDecodeDev (c : DecodeCall R) (junk : ℕ → ℕ → R) :
    Except Status (Option (List (ℕ × R) × ((ℕ → R) → List (ℕ × R)))) :=
  if c.null then .error .nullPtr
  else if c.cacheLen = 0 then .ok none
  else if c.headDim ≠ 4 * 32 then .error .unsupported
  else .ok (some (c.flashDecodeSplit A, fun scratch =>
    flashDecodeCombine A (vvDecodeParts c.nQHeads c.headDim) c.nQHeads c.headDim c.nParts scratch
      junk))

/-! ### The heads of a group together -/

/-- `gd_fetch` and `gd_decode` of a format: what a lane loads of a vector of a store, and the four
values it makes of what the lanes of the warp have loaded. -/
structure GdFormat (S α R : Type) where
  fetch : S → ℕ → ℕ → α
  decode : (ℕ → α) → ℕ → ℕ → R

/-- The values of a vector. -/
def GdFormat.vec {S α : Type} (F : GdFormat S α R) (store : S) (vi : ℕ) : ℕ → R := fun d =>
  F.decode (F.fetch store vi) (d / 4) (d % 4)

/-- `VV_KV_FP16`: plain values. -/
def gdFp16 (R : Type) : GdFormat (ℕ → R) (ℕ → R) R where
  fetch := fun store vi lane i => store (vi * headDim + lane * 4 + i)
  decode := fun r lane i => r lane i

/-- The arguments of `vv_attn_gqa_decode_dev`.  `fp16` is the format's name, `junk` what the
registers of a warp without positions hold. -/
structure GqaCall (S α R : Type) where
  q : ℕ → R
  kStore : S
  vStore : S
  format : GdFormat S α R
  fp16 : Bool
  pages : Option (List ℕ)
  null : Bool
  nQHeads : ℕ
  nKvHeads : ℕ
  headDim : ℕ
  cacheLen : ℕ
  dCacheLen : Option ℕ
  smCount : ℕ
  scale : R
  junk : ℕ → α

/-- The registers of a warp: `rk` and `rv` of its lanes, and the states of its heads in them. -/
structure GqaWarp (α R : Type) where
  rk : ℕ → α
  rv : ℕ → α
  heads : ℕ → ℕ → Running R (ℕ → R)

namespace GqaCall

variable {S α : Type} (c : GqaCall S α R)

/-- `cache_len` of the kernel. -/
def len : ℕ := c.dCacheLen.getD c.cacheLen

/-- `n_parts`. -/
def nParts : ℕ := vvDecodeNParts c.cacheLen

/-- `G`. -/
def group : ℕ := c.nQHeads / c.nKvHeads

/-- `vi` of a position. -/
def vi (kvHead t : ℕ) : ℕ := kvPhysRow c.pages t * c.nKvHeads + kvHead

/-- One turn of the loop.  It loads the vectors of the next position; the last one loads its own
again. -/
def gqaTurn (kvHead head0 stop : ℕ) (w : GqaWarp α R) (t : ℕ) : GqaWarp α R :=
  let tn := if t + 1 < stop then t + 1 else t
  let kv := c.format.decode w.rk
  let dot := fun h => butterfly 5 fun lane =>
    ∑ i ∈ range 4, c.q ((head0 + h) * Attention.headDim + lane * 4 + i) * kv lane i
  { rk := c.format.fetch c.kStore (c.vi kvHead tn)
    rv := c.format.fetch c.vStore (c.vi kvHead tn)
    heads := fun h lane => (w.heads h lane).take A.toExpo A.low (dot h lane * c.scale)
      (c.format.decode w.rv lane) }

/-- A warp before its loop. -/
def gqaStart (kvHead part : ℕ) : GqaWarp α R :=
  let some := sliceBegin c.len c.nParts part < sliceEnd c.len c.nParts part
  let vi := c.vi kvHead (sliceBegin c.len c.nParts part)
  { rk := if some then c.format.fetch c.kStore vi else c.junk
    rv := if some then c.format.fetch c.vStore vi else c.junk
    heads := fun _ _ => ⟨A.low, 0, 0⟩ }

/-- A warp behind its loop. -/
def gqaWarp (kvHead head0 part : ℕ) : GqaWarp α R :=
  (slice c.len c.nParts part).foldl (c.gqaTurn A kvHead head0 (sliceEnd c.len c.nParts part))
    (c.gqaStart A kvHead part)

/-- `gqa_decode_kernel<FMT, H>` on a grid with `gridY` blocks of `blockY` warps for each KV head. -/
def gqaDecode (H gridY blockY : ℕ) : List (ℕ × R) :=
  (List.range c.nKvHeads).flatMap fun kvHead =>
    (List.range gridY).flatMap fun y =>
      (List.range blockY).flatMap fun warp =>
        let part := if H = 1 then y else y * decodeWarps + warp
        let head0 := kvHead * c.group + if H = 1 then warp else 0
        if c.nParts ≤ part then []
        else
          (List.range H).flatMap fun h =>
            storeState A (vvDecodeParts c.nQHeads Attention.headDim) Attention.headDim
              ((head0 + h) * c.nParts + part)
              (sliceBegin c.len c.nParts part < sliceEnd c.len c.nParts part)
              ((c.gqaWarp A kvHead head0 part).heads h)

/-- `vv_attn_gqa_decode_ok`. -/
def ok : Bool :=
  if c.headDim ≠ Attention.headDim ∨ c.nKvHeads = 0 ∨ c.nQHeads % c.nKvHeads ≠ 0 then false
  else [1, 2, 4, 6, 7, 8].contains c.group

/-- `packed`. -/
def packed : Bool :=
  c.group = 1 || (!c.fp16 && decide (4 * c.smCount ≤ c.nKvHeads * c.nParts))

/-- The launch of the first kernel.  A spread one is compiled for one head per warp. -/
def launch : List (ℕ × R) :=
  if c.packed then c.gqaDecode A c.group (c.nParts / decodeWarps) decodeWarps
  else c.gqaDecode A 1 c.nParts c.group

end GqaCall

/-- `att_combine_kernel`. -/
def attCombine (p : DecodeParts) (rows nParts : ℕ) (scratch : ℕ → R) : List (ℕ × R) :=
  (List.range rows).flatMap fun row =>
    (List.range headDim).map fun d =>
      let r := fun i => (⟨scratch (p.m + (row * nParts + i)), scratch (p.l + (row * nParts + i)),
        scratch (p.o + ((row * nParts + i) * headDim + d))⟩ : Running R R)
      let top := (range nParts).fold max A.low fun i => (r i).m
      (row * headDim + d, if A.low < top then combined A nParts r else 0)

/-- `vv_attn_gqa_decode_dev`: the stores of the first launch, and those of the second one. -/
def vvAttnGqaDecodeDev {S α : Type} (c : GqaCall S α R) :
    Except Status (Option (List (ℕ × R) × ((ℕ → R) → List (ℕ × R)))) :=
  if c.null then .error .nullPtr
  else if c.cacheLen = 0 then .ok none
  else if !c.ok then .error .unsupported
  else .ok (some (c.launch A, fun scratch =>
    attCombine A (vvDecodeParts c.nQHeads headDim) c.nQHeads c.nParts scratch))

end Kernels

/-! ### Slices -/

section Slices

variable {len nParts part part' t : ℕ}

lemma vvDecodeNParts_spec (n : ℕ) : 0 < vvDecodeNParts n ∧ vvDecodeNParts n ≤ decodeMaxParts ∧
    vvDecodeNParts n / decodeWarps * decodeWarps = vvDecodeNParts n := by
  simp only [vvDecodeNParts, decodeMaxParts, decodeWarps]
  refine ⟨?_, ?_, Nat.div_mul_cancel (dvd_mul_left ..)⟩ <;> split_ifs <;> omega

/-- The slices get to the end. -/
lemma le_mul_sliceChunk (len : ℕ) (hn : 0 < nParts) : len ≤ nParts * sliceChunk len nParts := by
  have hdiv := Nat.div_add_mod (len + nParts - 1) nParts
  have hmod := Nat.mod_lt (len + nParts - 1) hn
  rw [sliceChunk]
  omega

lemma sliceEnd_eq : sliceEnd len nParts part = min ((part + 1) * sliceChunk len nParts) len := by
  rw [Nat.succ_mul, sliceEnd, sliceBegin]
  split_ifs <;> omega

lemma mem_slice : t ∈ slice len nParts part ↔
    part * sliceChunk len nParts ≤ t ∧ t < (part + 1) * sliceChunk len nParts ∧ t < len := by
  rw [slice, List.mem_range'_1, sliceEnd_eq, sliceBegin]
  omega

lemma nodup_slice : (slice len nParts part).Nodup := List.nodup_range'

lemma slice_ne_nil : slice len nParts part ≠ [] ↔
    sliceBegin len nParts part < sliceEnd len nParts part := by
  rw [slice, ne_eq, List.range'_eq_nil_iff]
  omega

/-- No position is in two slices. -/
lemma slices_disjoint : Set.PairwiseDisjoint (range nParts : Set ℕ)
    fun part => (slice len nParts part).toFinset := by
  intro part _ part' _ hne
  rw [Function.onFun, disjoint_left]
  intro t ht ht'
  rw [List.mem_toFinset, mem_slice] at ht ht'
  have hle : part * sliceChunk len nParts < (part' + 1) * sliceChunk len nParts := by omega
  have hle' : part' * sliceChunk len nParts < (part + 1) * sliceChunk len nParts := by omega
  have hlt := Nat.lt_of_mul_lt_mul_right hle
  have hlt' := Nat.lt_of_mul_lt_mul_right hle'
  omega

/-- Every position is in one. -/
lemma biUnion_slices (len : ℕ) (hn : 0 < nParts) :
    ((range nParts).biUnion fun part => (slice len nParts part).toFinset) = range len := by
  ext t
  simp only [mem_biUnion, mem_range, List.mem_toFinset, mem_slice]
  constructor
  · rintro ⟨part, -, -, -, ht⟩
    exact ht
  · intro ht
    have hall := le_mul_sliceChunk len hn
    have hpos : 0 < sliceChunk len nParts :=
      Nat.pos_of_mul_pos_left (Nat.lt_of_lt_of_le (by omega) hall)
    refine ⟨t / sliceChunk len nParts, ?_, Nat.div_mul_le_self .., ?_, ht⟩
    · rw [Nat.div_lt_iff_lt_mul hpos]
      omega
    · exact (Nat.div_lt_iff_lt_mul hpos).mp (Nat.lt_succ_self _)

/-- The slices cover every position once. -/
lemma existsUnique_slice (hn : 0 < nParts) (ht : t < len) :
    ∃! part, part < nParts ∧ t ∈ slice len nParts part := by
  have hmem := (biUnion_slices len hn).symm ▸ mem_range.mpr ht
  obtain ⟨part, hpart, hslice⟩ := mem_biUnion.mp hmem
  refine ⟨part, ⟨mem_range.mp hpart, List.mem_toFinset.mp hslice⟩, fun part' ⟨hpart', ht'⟩ => ?_⟩
  by_contra hne
  exact disjoint_left.mp (slices_disjoint (mem_range.mpr hpart') hpart hne)
    (List.mem_toFinset.mpr ht') hslice

end Slices

/-! ### Warps -/

section Warps

variable {R : Type} [Field R] [LinearOrder R] {A : Flash R}

/-- What a lane has of the state of a warp: `n` of its dimensions. -/
structure Carries (n : ℕ) (w r : Running R (ℕ → R)) (lane : ℕ) : Prop where
  m : w.m = r.m
  l : w.l = r.l
  o : ∀ d < n, w.o d = r.o (lane * n + d)

lemma Carries.take {n lane : ℕ} {w r : Running R (ℕ → R)} {v v' : ℕ → R}
    (h : Carries n w r lane) (s : R) (hv : ∀ d < n, v d = v' (lane * n + d)) :
    Carries n (w.take A.toExpo A.low s v) (r.take A.toExpo A.low s v') lane where
  m := by rw [Running.take, Running.take, h.m]
  l := by simp only [Running.take, h.m, h.l]
  o d hd := by simp only [Running.take, Pi.add_apply, Pi.smul_apply, h.m, h.o d hd, hv d hd]

omit [LinearOrder R] in
/-- The lanes share out an inner product. -/
lemma dot_lanes {x y : ℕ → R} {f : ℕ → R} {lane : ℕ} (hlane : lane < 32)
    (hf : ∀ l < 32, f l = ∑ d ∈ range 4, x (l * 4 + d) * y (l * 4 + d)) :
    butterfly 5 f lane = dot x y := by
  calc butterfly 5 f lane = ∑ l ∈ range 32, f l := butterfly_eq_sum_range f hlane
    _ = ∑ l ∈ range 32, ∑ d ∈ range 4, x (l * 4 + d) * y (l * 4 + d) :=
        sum_congr rfl fun l hl => hf l (mem_range.mp hl)
    _ = dot x y := (sum_range_mul (fun d => x d * y d) 32 4).symm

namespace DecodeCall

variable (c : DecodeCall R)

/-- The query of a head. -/
def query (h d : ℕ) : R := c.q (h * c.headDim + d)

/-- The keys its KV head has. -/
def key (h t d : ℕ) : R :=
  c.kCache (t * (c.nKvHeads * c.headDim) + h / (c.nQHeads / c.nKvHeads) * c.headDim + d)

/-- The values. -/
def value (h t d : ℕ) : R :=
  c.vCache (t * (c.nKvHeads * c.headDim) + h / (c.nQHeads / c.nKvHeads) * c.headDim + d)

/-- The score of a position. -/
def score (h t : ℕ) : R := dot (c.query h) (c.key h t) * c.scale

variable {c}

omit [Field R] [LinearOrder R] in
lemma load_off (h t l d : ℕ) : c.kCache (c.off h t l + d) = c.key h t (l * 4 + d) ∧
    c.vCache (c.off h t l + d) = c.value h t (l * 4 + d) := by
  rw [key, value, off, Nat.add_assoc _ (l * 4)]
  exact ⟨rfl, rfl⟩

lemma splitTurn_carries {h lane t : ℕ} {w : ℕ → Running R (ℕ → R)} {r : Running R (ℕ → R)}
    (hlane : lane < 32) (hw : Carries 4 (w lane) r lane) :
    Carries 4 (c.splitTurn A h w t lane) (r.take A.toExpo A.low (c.score h t) (c.value h t))
      lane := by
  have hdot := dot_lanes (x := c.query h) (y := c.key h t) hlane fun l _ =>
    sum_congr rfl fun d _ => congrArg₂ (· * ·)
      (congrArg c.q (Nat.add_assoc (h * c.headDim) (l * 4) d)) (load_off h t l d).1
  rw [score, ← hdot]
  exact hw.take _ fun d _ => (load_off h t lane d).2

lemma splitWarp_carries {h part lane : ℕ} (hlane : lane < 32)
    (hlow : ∀ t < c.len, A.low < c.score h t) :
    Carries 4 (c.splitWarp A h part lane) (running A.toExpo A.low (c.score h) (c.value h)
      (slice c.len c.nParts part).toFinset) lane := by
  rw [← foldl_take nodup_slice fun t ht => hlow t (mem_slice.mp ht).2.2, splitWarp]
  refine List.foldl_rel (r := fun (w : ℕ → Running R (ℕ → R)) r => Carries 4 (w lane) r lane)
    ⟨rfl, rfl, fun _ _ => rfl⟩ ?_
  exact fun t _ w r hw => splitTurn_carries hlane hw

end DecodeCall

namespace GqaCall

variable {S α : Type} (c : GqaCall S α R)

/-- The query of a head. -/
def query (h d : ℕ) : R := c.q (h * Attention.headDim + d)

/-- The keys its KV head has. -/
def key (h t : ℕ) : ℕ → R := c.format.vec c.kStore (c.vi (h / c.group) t)

/-- The values. -/
def value (h t : ℕ) : ℕ → R := c.format.vec c.vStore (c.vi (h / c.group) t)

/-- The score of a position. -/
def score (h t : ℕ) : R := dot (c.query h) (c.key h t) * c.scale

variable {c}

omit [Field R] [LinearOrder R] in
lemma vec_lane (F : GdFormat S α R) (store : S) (vi lane : ℕ) {d : ℕ} (hd : d < 4) :
    F.decode (F.fetch store vi) lane d = F.vec store vi (lane * 4 + d) := by
  rw [GdFormat.vec, show (lane * 4 + d) / 4 = lane by omega, show (lane * 4 + d) % 4 = d by omega]

/-- A turn uses what was loaded for its position. -/
lemma gqaTurn_carries (stop : ℕ) {kvHead head0 h lane t : ℕ} {w : GqaWarp α R}
    {r : Running R (ℕ → R)} (hh : (head0 + h) / c.group = kvHead) (hlane : lane < 32)
    (hk : w.rk = c.format.fetch c.kStore (c.vi kvHead t))
    (hv : w.rv = c.format.fetch c.vStore (c.vi kvHead t))
    (hw : Carries 4 (w.heads h lane) r lane) :
    Carries 4 ((c.gqaTurn A kvHead head0 stop w t).heads h lane)
      (r.take A.toExpo A.low (c.score (head0 + h) t) (c.value (head0 + h) t)) lane := by
  have hdot : butterfly 5 (fun l => ∑ d ∈ range 4,
      c.q ((head0 + h) * Attention.headDim + l * 4 + d) * c.format.decode w.rk l d) lane =
        dot (c.query (head0 + h)) (c.key (head0 + h) t) := by
    refine dot_lanes hlane fun l _ => sum_congr rfl fun d hd => ?_
    rw [hk, vec_lane _ _ _ _ (mem_range.mp hd), query, key, hh, Nat.add_assoc _ (l * 4)]
  rw [score, ← hdot]
  exact hw.take _ fun d hd => by rw [hv, value, hh, vec_lane _ _ _ _ hd]

/-- The loop: the registers are one position ahead. -/
lemma foldl_gqaTurn {kvHead head0 h lane : ℕ} (hh : (head0 + h) / c.group = kvHead)
    (hlane : lane < 32) {n start : ℕ} {w : GqaWarp α R} {r : Running R (ℕ → R)}
    (hk : 0 < n → w.rk = c.format.fetch c.kStore (c.vi kvHead start))
    (hv : 0 < n → w.rv = c.format.fetch c.vStore (c.vi kvHead start))
    (hw : Carries 4 (w.heads h lane) r lane) :
    Carries 4 (((List.range' start n).foldl (c.gqaTurn A kvHead head0 (start + n)) w).heads h lane)
      ((List.range' start n).foldl (fun r t => r.take A.toExpo A.low (c.score (head0 + h) t)
        (c.value (head0 + h) t)) r) lane := by
  induction n generalizing start w r with
  | zero => exact hw
  | succ n ih =>
    have hturn := gqaTurn_carries (A := A) (start + (n + 1)) hh hlane (hk n.succ_pos)
      (hv n.succ_pos) hw
    rw [List.range'_succ, List.foldl_cons, List.foldl_cons,
      show start + (n + 1) = start + 1 + n by omega]
    rw [show start + (n + 1) = start + 1 + n by omega] at hturn
    refine ih (fun hn => ?_) (fun hn => ?_) hturn
    · rw [gqaTurn, if_pos (by omega)]
    · rw [gqaTurn, if_pos (by omega)]

lemma gqaWarp_carries {kvHead head0 part h lane : ℕ} (hh : (head0 + h) / c.group = kvHead)
    (hlane : lane < 32) (hlow : ∀ t < c.len, A.low < c.score (head0 + h) t) :
    Carries 4 ((c.gqaWarp A kvHead head0 part).heads h lane)
      (running A.toExpo A.low (c.score (head0 + h)) (c.value (head0 + h))
        (slice c.len c.nParts part).toFinset) lane := by
  rw [← foldl_take nodup_slice fun t ht => hlow t (mem_slice.mp ht).2.2, gqaWarp, slice]
  obtain hlt | hge :=
    Nat.lt_or_ge (sliceBegin c.len c.nParts part) (sliceEnd c.len c.nParts part)
  · have hloop := foldl_gqaTurn (A := A) (n := sliceEnd c.len c.nParts part -
      sliceBegin c.len c.nParts part) (w := c.gqaStart A kvHead part) (r := ⟨A.low, 0, 0⟩) hh hlane
      (fun _ => if_pos hlt) (fun _ => if_pos hlt) ⟨rfl, rfl, fun _ _ => rfl⟩
    rwa [Nat.add_sub_cancel' hlt.le] at hloop
  · rw [Nat.sub_eq_zero_of_le hge]
    exact ⟨rfl, rfl, fun _ _ => rfl⟩

end GqaCall

end Warps

/-! ### The scratch between the launches -/

section Scratch

variable {R : Type} [Field R] [LinearOrder R] {A : Flash R}

/-- A cell of row `row` that holds its part of a state. -/
inductive IsCell (p : DecodeParts) (row : ℕ) (r : Running R (ℕ → R)) : ℕ × R → Prop
  | o (d : ℕ) (hd : d < headDim) : IsCell p row r (p.o + (row * headDim + d), r.o d)
  | m : IsCell p row r (p.m + row, r.m)
  | l : IsCell p row r (p.l + row, r.l)

/-- A warp stores the state of its slice. -/
lemma mem_storeState {p : DecodeParts} {row : ℕ} {some : Bool} {w : ℕ → Running R (ℕ → R)}
    {r : Running R (ℕ → R)} (hw : ∀ lane < 32, Carries 4 (w lane) r lane)
    (hm : some = false → r.m = A.low) (x : ℕ × R) :
    x ∈ storeState A p headDim row some w ↔ IsCell p row r x := by
  have hzero := hw 0 (by omega)
  have htop : (if some then (w 0).m else A.low) = r.m := by
    rcases some with - | -
    · exact (hm rfl).symm
    · exact hzero.m
  simp only [storeState, List.mem_flatMap, List.mem_append, List.mem_map, List.mem_range]
  constructor
  · rintro ⟨lane, hlane, ⟨d, hd, rfl⟩ | hx⟩
    · rw [(hw lane hlane).o d hd, Nat.add_assoc (row * headDim)]
      exact .o _ (by rw [headDim]; omega)
    · rcases Nat.eq_zero_or_pos lane with rfl | hpos
      · rw [if_pos rfl, htop, hzero.l, List.mem_pair] at hx
        rcases hx with rfl | rfl
        · exact .m
        · exact .l
      · rw [if_neg hpos.ne'] at hx
        exact absurd hx List.not_mem_nil
  · rintro (⟨d, hd⟩ | - | -)
    · rw [headDim] at hd
      refine ⟨d / 4, by omega, .inl ⟨d % 4, by omega, ?_⟩⟩
      rw [(hw (d / 4) (by omega)).o _ (by omega), Nat.add_assoc (row * headDim),
        Nat.div_add_mod' d 4]
    · refine ⟨0, by omega, .inr ?_⟩
      rw [if_pos rfl, htop]
      exact List.mem_cons_self
    · refine ⟨0, by omega, .inr ?_⟩
      rw [if_pos rfl, hzero.l]
      exact List.mem_cons_of_mem _ List.mem_cons_self

variable {st : ℕ → ℕ → Running R (ℕ → R)} {nQHeads nParts : ℕ} {ws : List (ℕ × R)}
  {scratch scratch' : ℕ → R}

/-- The scratch holds the state of every slice of every head. -/
structure Filled (nQHeads nParts : ℕ) (st : ℕ → ℕ → Running R (ℕ → R)) (scratch : ℕ → R) :
    Prop where
  cell : ∀ h < nQHeads, ∀ part < nParts, ∀ x,
    IsCell (vvDecodeParts nQHeads headDim) (h * nParts + part) (st h part) x → scratch x.1 = x.2

omit [Field R] in
/-- The cells of the rows are apart, and inside of what the scratch has room for. -/
lemma IsCell.unique {row row' : ℕ} {r r' : Running R (ℕ → R)} {x x' : ℕ × R}
    (hrow : row < nQHeads * decodeMaxParts) (hrow' : row' < nQHeads * decodeMaxParts)
    (hx : IsCell (vvDecodeParts nQHeads headDim) row r x)
    (hx' : IsCell (vvDecodeParts nQHeads headDim) row' r' x') (h : x.1 = x'.1)
    (hr : row = row' → r = r') : x = x' := by
  obtain ⟨T, hT⟩ : ∃ T, T = nQHeads * decodeMaxParts := ⟨_, rfl⟩
  rw [← hT] at hrow hrow'
  rcases hx with ⟨d, hd⟩ | - | - <;> rcases hx' with ⟨d', hd'⟩ | - | - <;>
    simp only [vvDecodeParts, headDim, ← hT] at * <;>
      first
        | omega
        | (obtain rfl : row = row' := by omega
           obtain rfl := hr rfl
           first | rfl | (obtain rfl : d = d' := by omega
                          rfl))

omit [Field R] [LinearOrder R] in
lemma IsCell.lt {row : ℕ} {r : Running R (ℕ → R)} {x : ℕ × R}
    (hrow : row < nQHeads * decodeMaxParts)
    (hx : IsCell (vvDecodeParts nQHeads headDim) row r x) :
    x.1 < vvDecodePartsFloats nQHeads headDim := by
  obtain ⟨T, hT⟩ : ∃ T, T = nQHeads * decodeMaxParts := ⟨_, rfl⟩
  rw [← hT] at hrow
  rcases hx with ⟨d, hd⟩ | - | - <;>
    simp only [vvDecodeParts, vvDecodePartsFloats, headDim, ← hT] at * <;> omega

omit [Field R] in
/-- A launch whose warps have the states of all slices fills the scratch, in whatever order, and
keeps to it. -/
lemma filled_of_stored (hn : nParts ≤ decodeMaxParts)
    (hws : ∀ x, x ∈ ws ↔ ∃ h < nQHeads, ∃ part < nParts,
      IsCell (vvDecodeParts nQHeads headDim) (h * nParts + part) (st h part) x)
    (hst : Stored ws scratch scratch') : Filled nQHeads nParts st scratch' ∧
      ∀ o, vvDecodePartsFloats nQHeads headDim ≤ o → scratch' o = scratch o := by
  obtain ⟨ws', hperm, rfl⟩ := hst
  have hrow : ∀ h < nQHeads, ∀ part < nParts, h * nParts + part < nQHeads * decodeMaxParts :=
    fun h hh part hpart => (Kernels.cell_lt hh hpart).trans_le (Nat.mul_le_mul_left _ hn)
  refine ⟨⟨fun h hh part hpart x hx => ?_⟩, fun o ho => ?_⟩
  · refine stores_eq ⟨x, hperm.mem_iff.mpr ((hws x).mpr ⟨h, hh, part, hpart, hx⟩), rfl⟩ ?_
    intro w hw hx'
    obtain ⟨h', hh', part', hpart', hw⟩ := (hws w).mp (hperm.mem_iff.mp hw)
    refine congrArg Prod.snd (hw.unique (hrow h' hh' part' hpart') (hrow h hh part hpart) hx hx' ?_)
    intro heq
    obtain ⟨rfl, rfl⟩ := Kernels.cell_inj hpart' hpart heq
    rfl
  · refine stores_of_not_mem fun w hw hx => ?_
    obtain ⟨h, hh, part, hpart, hw⟩ := (hws w).mp (hperm.mem_iff.mp hw)
    have hlt := hw.lt (hrow h hh part hpart)
    omega

end Scratch

/-! ### The second launch -/

section Combine

variable {R : Type} [Field R] [LinearOrder R] {A : Flash R} {nQHeads nParts len : ℕ}
  {score : ℕ → ℕ → R} {value : ℕ → ℕ → ℕ → R} {scratch : ℕ → R}

/-- The state of a slice of a head. -/
def sliceState (A : Flash R) (score : ℕ → ℕ → R) (value : ℕ → ℕ → ℕ → R) (len nParts h part : ℕ) :
    Running R (ℕ → R) :=
  running A.toExpo A.low (score h) (value h) (slice len nParts part).toFinset

/-- A slice without positions has the sentinel. -/
lemma sliceState_m {h part : ℕ}
    (hempty : decide (sliceBegin len nParts part < sliceEnd len nParts part) = false) :
    (sliceState A score value len nParts h part).m = A.low := by
  rw [decide_eq_false_iff_not, ← slice_ne_nil, not_not] at hempty
  simp only [sliceState, hempty]
  rfl

omit [Field R] [LinearOrder R] in
/-- The threads of a block fill its shared memory. -/
lemma fillShared_eq {threads i : ℕ} (hthreads : 0 < threads) (hi : i < nParts) (src junk : ℕ → R) :
    fillShared threads nParts src junk i = src i := by
  refine stores_eq ⟨(i, src i), ?_, rfl⟩ ?_
  · refine List.mem_flatMap.mpr ⟨i % threads, List.mem_range.mpr (Nat.mod_lt i hthreads), ?_⟩
    exact List.mem_map.mpr
      ⟨i, (mem_strided hthreads (Nat.mod_lt i hthreads)).mpr ⟨hi, rfl⟩, rfl⟩
  · intro w hw hwi
    obtain ⟨d, -, hw⟩ := List.mem_flatMap.mp hw
    obtain ⟨j, -, rfl⟩ := List.mem_map.mp hw
    exact congrArg src hwi

/-- A dimension of the merged state. -/
lemma combined_eq [IsStrictOrderedRing R] (hn : 0 < nParts) {h d : ℕ}
    (hlow : ∀ t < len, A.low < score h t) {r : ℕ → Running R R}
    (hr : ∀ i < nParts, r i = ⟨(sliceState A score value len nParts h i).m,
      (sliceState A score value len nParts h i).l,
      (sliceState A score value len nParts h i).o d⟩) :
    combined A nParts r = mean A.toExpo (score h) (value h) (range len) d := by
  have hlow' : ∀ t ∈ range len, A.low < score h t := fun t ht => hlow t (mem_range.mp ht)
  have hmerge : merge A.toExpo A.low (range nParts) (sliceState A score value len nParts h) =
      running A.toExpo A.low (score h) (value h) (range len) := by
    rw [← biUnion_slices len hn]
    exact merge_running (s := score h) (v := value h) slices_disjoint fun part _ t ht =>
      hlow t (mem_slice.mp (List.mem_toFinset.mp ht)).2.2
  have hdim : merge A.toExpo A.low (range nParts) r = _ :=
    merge_apply fun i hi => hr i (mem_range.mp hi)
  rw [hmerge] at hdim
  rw [combined, hdim, ← quotient_running A.tiny_lt hlow', Pi.smul_apply, smul_eq_mul, ite_mul,
    zero_mul]
  simp only [div_eq_inv_mul]

omit [Field R] [LinearOrder R] in
/-- The output of a launch with a thread for each dimension of each head. -/
lemma stored_rows {ws : List (ℕ × R)} {f : ℕ → ℕ → R} {out out' : ℕ → R}
    (hws : ∀ x, x ∈ ws ↔ ∃ h < nQHeads, ∃ d < headDim, x = (h * headDim + d, f h d))
    (hst : Stored ws out out') : (∀ h < nQHeads, ∀ d < headDim, out' (h * headDim + d) = f h d) ∧
      ∀ o, nQHeads * headDim ≤ o → out' o = out o := by
  have hmem : ∀ x, x ∈ ws ↔ ∃ i ∈ {i : ℕ × ℕ | i.1 < nQHeads ∧ i.2 < headDim},
      x = (i.1 * headDim + i.2, f i.1 i.2) := by
    intro x
    rw [hws]
    constructor
    · rintro ⟨h, hh, d, hd, rfl⟩
      exact ⟨(h, d), ⟨hh, hd⟩, rfl⟩
    · rintro ⟨i, hi, rfl⟩
      exact ⟨i.1, hi.1, i.2, hi.2, rfl⟩
  obtain ⟨hcells, hrest⟩ := hst.cells
    (fun i hi j hj h => Prod.ext_iff.mpr (Kernels.cell_inj hi.2 hj.2 h)) hmem
  refine ⟨fun h hh d hd => hcells (h, d) ⟨hh, hd⟩, fun o ho => hrest o fun i hi hx => ?_⟩
  have hlt := Kernels.cell_lt hi.1 hi.2
  omega

/-- What a block finds in the scratch. -/
lemma Filled.read (h : Filled nQHeads nParts (sliceState A score value len nParts) scratch)
    {head part : ℕ} (hhead : head < nQHeads) (hpart : part < nParts) :
    scratch ((vvDecodeParts nQHeads headDim).m + (head * nParts + part)) =
        (sliceState A score value len nParts head part).m ∧
      scratch ((vvDecodeParts nQHeads headDim).l + (head * nParts + part)) =
        (sliceState A score value len nParts head part).l ∧
      ∀ d < headDim,
        scratch ((vvDecodeParts nQHeads headDim).o + ((head * nParts + part) * headDim + d)) =
          (sliceState A score value len nParts head part).o d :=
  ⟨h.cell head hhead part hpart _ .m, h.cell head hhead part hpart _ .l,
    fun d hd => h.cell head hhead part hpart _ (.o d hd)⟩

/-- `flash_decode_combine_kernel` puts the slices together. -/
lemma mem_flashDecodeCombine [IsStrictOrderedRing R] (hn : 0 < nParts) {junk : ℕ → ℕ → R}
    (hlow : ∀ h < nQHeads, ∀ t < len, A.low < score h t)
    (hfill : Filled nQHeads nParts (sliceState A score value len nParts) scratch) (x : ℕ × R) :
    x ∈ flashDecodeCombine A (vvDecodeParts nQHeads headDim) nQHeads headDim nParts scratch junk ↔
      ∃ h < nQHeads, ∃ d < headDim,
        x = (h * headDim + d, mean A.toExpo (score h) (value h) (range len) d) := by
  have hthreads : 0 < if nParts < headDim then headDim else nParts := by
    split_ifs <;> omega
  have hdims : ∀ d, d < headDim → d < if nParts < headDim then headDim else nParts := by
    intro d hd
    split_ifs <;> omega
  have hval : ∀ h < nQHeads, ∀ d < headDim, combined A nParts (fun i =>
      ⟨fillShared (if nParts < headDim then headDim else nParts) nParts
          (fun i => scratch ((vvDecodeParts nQHeads headDim).m + (h * nParts + i))) (junk h) i,
        fillShared (if nParts < headDim then headDim else nParts) nParts
          (fun i => scratch ((vvDecodeParts nQHeads headDim).l + (h * nParts + i))) (junk h) i,
        scratch ((vvDecodeParts nQHeads headDim).o + ((h * nParts + i) * headDim + d))⟩) =
      mean A.toExpo (score h) (value h) (range len) d := by
    intro h hh d hd
    refine combined_eq hn (hlow h hh) fun i hi => ?_
    obtain ⟨hm, hl, ho⟩ := hfill.read hh hi
    rw [fillShared_eq hthreads hi, fillShared_eq hthreads hi, hm, hl, ho d hd]
  simp only [flashDecodeCombine, List.mem_flatMap, List.mem_map, List.mem_filter, List.mem_range,
    decide_eq_true_eq]
  constructor
  · rintro ⟨h, hh, d, ⟨-, hd⟩, rfl⟩
    exact ⟨h, hh, d, hd, by rw [hval h hh d hd]⟩
  · rintro ⟨h, hh, d, hd, rfl⟩
    exact ⟨h, hh, d, ⟨hdims d hd, hd⟩, by rw [hval h hh d hd]⟩

/-- `att_combine_kernel` does so. -/
lemma mem_attCombine [IsStrictOrderedRing R] (hn : 0 < nParts)
    (hlow : ∀ h < nQHeads, ∀ t < len, A.low < score h t)
    (hfill : Filled nQHeads nParts (sliceState A score value len nParts) scratch) (x : ℕ × R) :
    x ∈ attCombine A (vvDecodeParts nQHeads headDim) nQHeads nParts scratch ↔
      ∃ h < nQHeads, ∃ d < headDim,
        x = (h * headDim + d, mean A.toExpo (score h) (value h) (range len) d) := by
  have hval : ∀ h < nQHeads, ∀ d < headDim, (if A.low < (range nParts).fold max A.low (fun i =>
        scratch ((vvDecodeParts nQHeads headDim).m + (h * nParts + i))) then
      combined A nParts (fun i =>
        ⟨scratch ((vvDecodeParts nQHeads headDim).m + (h * nParts + i)),
          scratch ((vvDecodeParts nQHeads headDim).l + (h * nParts + i)),
          scratch ((vvDecodeParts nQHeads headDim).o + ((h * nParts + i) * headDim + d))⟩)
      else 0) = mean A.toExpo (score h) (value h) (range len) d := by
    intro h hh d hd
    have htop : (range nParts).fold max A.low (fun i =>
        scratch ((vvDecodeParts nQHeads headDim).m + (h * nParts + i))) =
          (range len).fold max A.low (score h) := by
      rw [← biUnion_slices len hn, fold_biUnion]
      exact fold_congr fun i hi => (hfill.read hh (mem_range.mp hi)).1
    rw [htop, combined_eq hn (hlow h hh) fun i hi => by
      obtain ⟨hm, hl, ho⟩ := hfill.read hh hi
      rw [hm, hl, ho d hd]]
    split_ifs with hlt
    · rfl
    · rw [low_lt_fold fun t ht => hlow h hh t (mem_range.mp ht), not_nonempty_iff_eq_empty] at hlt
      rw [hlt, mean, sum_empty, sum_empty, smul_zero]
      rfl
  simp only [attCombine, List.mem_flatMap, List.mem_map, List.mem_range]
  constructor
  · rintro ⟨h, hh, d, hd, rfl⟩
    exact ⟨h, hh, d, hd, by rw [hval h hh d hd]⟩
  · rintro ⟨h, hh, d, hd, rfl⟩
    exact ⟨h, hh, d, hd, by rw [hval h hh d hd]⟩

end Combine

/-! ### The two launches -/

section Launches

variable {R : Type} [Field R] [LinearOrder R] {A : Flash R}

namespace DecodeCall

variable {c : DecodeCall R}

lemma mem_flashDecodeSplit (hdim : c.headDim = Attention.headDim)
    (hlow : ∀ h < c.nQHeads, ∀ t < c.len, A.low < c.score h t) (x : ℕ × R) :
    x ∈ c.flashDecodeSplit A ↔ ∃ h < c.nQHeads, ∃ part < c.nParts,
      IsCell (vvDecodeParts c.nQHeads Attention.headDim) (h * c.nParts + part)
        (sliceState A c.score c.value c.len c.nParts h part) x := by
  obtain ⟨-, -, hmul⟩ := vvDecodeNParts_spec c.cacheLen
  have hcell : ∀ h < c.nQHeads, ∀ part, x ∈ storeState A (vvDecodeParts c.nQHeads c.headDim)
      c.headDim (h * c.nParts + part)
      (decide (sliceBegin c.len c.nParts part < sliceEnd c.len c.nParts part))
      (c.splitWarp A h part) ↔ IsCell (vvDecodeParts c.nQHeads Attention.headDim)
        (h * c.nParts + part) (sliceState A c.score c.value c.len c.nParts h part) x := by
    intro h hh part
    rw [hdim]
    exact mem_storeState (fun lane hlane => splitWarp_carries hlane (hlow h hh)) sliceState_m x
  simp only [flashDecodeSplit, List.mem_flatMap, List.mem_range]
  constructor
  · rintro ⟨h, hh, block, -, warp, -, hx⟩
    split_ifs at hx with hpart
    · exact absurd hx List.not_mem_nil
    · exact ⟨h, hh, _, not_le.mp hpart, (hcell h hh _).mp hx⟩
  · rintro ⟨h, hh, part, hpart, hx⟩
    refine ⟨h, hh, part / decodeWarps, ?_, part % decodeWarps, Nat.mod_lt _ (by decide), ?_⟩
    · rw [Nat.div_lt_iff_lt_mul (by decide)]
      exact hpart.trans_eq hmul.symm
    · rw [Nat.div_add_mod', if_neg (not_le.mpr hpart)]
      exact (hcell h hh part).mpr hx

end DecodeCall

/-- **Split attention.**  In whatever order the threads of the two launches store, each head gets
its attention over all positions, whose slices cover each of them once, and nothing behind the
output or the scratch changes. -/
theorem decode_attends [IsStrictOrderedRing R] (A : Flash R) (c : DecodeCall R)
    {junk : ℕ → ℕ → R} {split : List (ℕ × R)} {combine : (ℕ → R) → List (ℕ × R)}
    {scratch scratch' out out' : ℕ → R}
    (hcall : vvGqaAttentionDecodeDev A c junk = .ok (some (split, combine)))
    (hlow : ∀ h < c.nQHeads, ∀ t < c.len, A.low < c.score h t)
    (hsplit : Stored split scratch scratch') (hcombine : Stored (combine scratch') out out') :
    (∀ h < c.nQHeads, ∀ d < headDim, out' (h * headDim + d) =
        attend A.toArith c.scale (c.query h) (c.key h) (c.value h) c.len d) ∧
      (∀ t < c.len, ∃! part, part < vvDecodeNParts c.cacheLen ∧
        t ∈ slice c.len (vvDecodeNParts c.cacheLen) part) ∧
      (∀ o, c.nQHeads * headDim ≤ o → out' o = out o) ∧
      ∀ o, vvDecodePartsFloats c.nQHeads headDim ≤ o → scratch' o = scratch o := by
  obtain ⟨hpos, hmax, -⟩ := vvDecodeNParts_spec c.cacheLen
  rw [vvGqaAttentionDecodeDev] at hcall
  split_ifs at hcall with hnull hlen hdim
  · cases hcall
  obtain ⟨rfl, rfl⟩ := Prod.mk.inj (Option.some.inj (Except.ok.inj hcall))
  have hdim : c.headDim = headDim := not_not.mp hdim
  obtain ⟨hfill, hrest⟩ := filled_of_stored hmax (DecodeCall.mem_flashDecodeSplit hdim hlow) hsplit
  rw [hdim] at hcombine
  obtain ⟨hout, hbehind⟩ := stored_rows (mem_flashDecodeCombine hpos hlow hfill) hcombine
  refine ⟨fun h hh d hd => ?_, fun t ht => existsUnique_slice hpos ht, hbehind, hrest⟩
  rw [hout h hh d hd, attend]
  exact congrFun (mean_congr (fun t _ => mul_comm ..) fun t _ => rfl) d

namespace GqaCall

variable {S α : Type} {c : GqaCall S α R}

omit [Field R] [LinearOrder R] in
/-- What the kernel is compiled for. -/
lemma ok_spec (h : c.ok = true) : c.headDim = Attention.headDim ∧ 0 < c.group ∧
    c.nQHeads = c.nKvHeads * c.group := by
  rw [ok] at h
  split_ifs at h with hbad
  obtain ⟨hdim, hbad⟩ := not_or.mp hbad
  obtain ⟨-, hmod⟩ := not_or.mp hbad
  refine ⟨not_not.mp hdim, Nat.pos_of_ne_zero fun hzero => ?_, ?_⟩
  · rw [hzero] at h
    exact absurd h (by decide)
  · exact (Nat.mul_div_cancel' (Nat.dvd_of_mod_eq_zero (not_not.mp hmod))).symm

/-- A warp stores the state of its slice for each of its heads. -/
lemma mem_gqaWarp (part : ℕ) {kvHead head0 h : ℕ} (hh : (head0 + h) / c.group = kvHead)
    (hlow : ∀ t < c.len, A.low < c.score (head0 + h) t) (x : ℕ × R) :
    x ∈ storeState A (vvDecodeParts c.nQHeads Attention.headDim) Attention.headDim
        ((head0 + h) * c.nParts + part)
        (decide (sliceBegin c.len c.nParts part < sliceEnd c.len c.nParts part))
        ((c.gqaWarp A kvHead head0 part).heads h) ↔
      IsCell (vvDecodeParts c.nQHeads Attention.headDim) ((head0 + h) * c.nParts + part)
        (sliceState A c.score c.value c.len c.nParts (head0 + h) part) x :=
  mem_storeState (fun _ hlane => gqaWarp_carries hh hlane hlow) sliceState_m x

omit [Field R] [LinearOrder R] in
/-- A head is one of its group. -/
lemma head_spec (hok : c.ok = true) :
    (∀ kvHead < c.nKvHeads, ∀ i < c.group, kvHead * c.group + i < c.nQHeads ∧
      (kvHead * c.group + i) / c.group = kvHead) ∧
      ∀ h < c.nQHeads, h / c.group < c.nKvHeads ∧ h % c.group < c.group := by
  obtain ⟨-, hpos, hheads⟩ := ok_spec hok
  refine ⟨fun kvHead hkv i hi => ⟨hheads ▸ Kernels.cell_lt hkv hi, ?_⟩, fun h hh =>
    ⟨(Nat.div_lt_iff_lt_mul hpos).mpr (hheads ▸ hh), Nat.mod_lt h hpos⟩⟩
  rw [Nat.mul_comm, Nat.mul_add_div hpos, Nat.div_eq_of_lt hi, Nat.add_zero]

/-- The heads of a group, packed in a warp. -/
lemma mem_packed (hok : c.ok = true) (hgroup : c.group ≠ 1)
    (hlow : ∀ h < c.nQHeads, ∀ t < c.len, A.low < c.score h t) (x : ℕ × R) :
    x ∈ c.gqaDecode A c.group (c.nParts / decodeWarps) decodeWarps ↔
      ∃ h < c.nQHeads, ∃ part < c.nParts,
        IsCell (vvDecodeParts c.nQHeads Attention.headDim) (h * c.nParts + part)
          (sliceState A c.score c.value c.len c.nParts h part) x := by
  obtain ⟨-, -, hmul⟩ := vvDecodeNParts_spec c.cacheLen
  obtain ⟨hhead, hsplit⟩ := head_spec hok
  simp only [gqaDecode, if_neg hgroup, Nat.add_zero, List.mem_flatMap, List.mem_range]
  constructor
  · rintro ⟨kvHead, hkv, y, -, warp, -, hx⟩
    split_ifs at hx with hpart
    · exact absurd hx List.not_mem_nil
    · obtain ⟨h, hh, hx⟩ := List.mem_flatMap.mp hx
      obtain ⟨hlt, hdiv⟩ := hhead kvHead hkv h (List.mem_range.mp hh)
      exact ⟨_, hlt, _, not_le.mp hpart, (mem_gqaWarp _ hdiv (hlow _ hlt) x).mp hx⟩
  · rintro ⟨h, hh, part, hpart, hx⟩
    obtain ⟨hkv, hmod⟩ := hsplit h hh
    have hmem := mem_gqaWarp (A := A) part (hhead _ hkv _ hmod).2
      (hlow _ (hhead _ hkv _ hmod).1) x
    refine ⟨h / c.group, hkv, part / decodeWarps, ?_, part % decodeWarps,
      Nat.mod_lt _ (by decide), ?_⟩
    · rw [Nat.div_lt_iff_lt_mul (by decide)]
      exact hpart.trans_eq hmul.symm
    · rw [Nat.div_add_mod', if_neg (not_le.mpr hpart), List.mem_flatMap]
      refine ⟨h % c.group, List.mem_range.mpr hmod, ?_⟩
      rw [Nat.div_add_mod'] at hmem ⊢
      exact hmem.mpr hx

/-- The heads of a group, spread over the warps of a block. -/
lemma mem_spread (hok : c.ok = true)
    (hlow : ∀ h < c.nQHeads, ∀ t < c.len, A.low < c.score h t) (x : ℕ × R) :
    x ∈ c.gqaDecode A 1 c.nParts c.group ↔ ∃ h < c.nQHeads, ∃ part < c.nParts,
      IsCell (vvDecodeParts c.nQHeads Attention.headDim) (h * c.nParts + part)
        (sliceState A c.score c.value c.len c.nParts h part) x := by
  obtain ⟨hhead, hsplit⟩ := head_spec hok
  simp only [gqaDecode, ↓reduceIte, List.mem_flatMap, List.mem_range]
  constructor
  · rintro ⟨kvHead, hkv, part, hpart, warp, hwarp, hx⟩
    rw [if_neg (not_le.mpr hpart), List.range_one, List.flatMap_singleton] at hx
    obtain ⟨hlt, hdiv⟩ := hhead kvHead hkv warp hwarp
    exact ⟨_, hlt, part, hpart, (mem_gqaWarp (h := 0) part hdiv (hlow _ hlt) x).mp hx⟩
  · rintro ⟨h, hh, part, hpart, hx⟩
    obtain ⟨hkv, hmod⟩ := hsplit h hh
    refine ⟨h / c.group, hkv, part, hpart, h % c.group, hmod, ?_⟩
    rw [if_neg (not_le.mpr hpart), List.range_one, List.flatMap_singleton, Nat.div_add_mod']
    exact (mem_gqaWarp (h := 0) part rfl (hlow h hh) x).mpr hx

lemma mem_launch (hok : c.ok = true) (hgroup : c.group ≠ 1)
    (hlow : ∀ h < c.nQHeads, ∀ t < c.len, A.low < c.score h t) (x : ℕ × R) :
    x ∈ c.launch A ↔ ∃ h < c.nQHeads, ∃ part < c.nParts,
      IsCell (vvDecodeParts c.nQHeads Attention.headDim) (h * c.nParts + part)
        (sliceState A c.score c.value c.len c.nParts h part) x := by
  rw [launch]
  split_ifs
  · exact mem_packed hok hgroup hlow x
  · exact mem_spread hok hlow x

end GqaCall

/-- Fourteen heads in two groups, behind a replayed launch. -/
noncomputable def twoGroups : DecodeCall ℝ where
  q := fun i => i
  kCache := fun i => i
  vCache := fun i => i
  null := false
  nQHeads := 14
  nKvHeads := 2
  headDim := 128
  cacheLen := 1500
  dCacheLen := some 1502
  scale := Arith.real.whtNorm

lemma low_lt_of_nonneg {x : ℝ} (h : 0 ≤ x) : Flash.real.low < x := by
  have hlow : -(fltMax : ℝ) < 0 := neg_lt_zero.mpr (Nat.cast_pos.mpr (by decide))
  exact hlow.trans_le h

lemma dot_nonneg {x y : ℕ → ℝ} (hx : ∀ d, 0 ≤ x d) (hy : ∀ d, 0 ≤ y d) :
    0 ≤ dot x y * Arith.real.whtNorm :=
  mul_nonneg (sum_nonneg fun d _ => mul_nonneg (hx d) (hy d)) (inv_nonneg.mpr (Real.sqrt_nonneg _))

theorem decode_attends_two :
    stores (flashDecodeCombine Flash.real (vvDecodeParts 14 128) 14 128 16
      (stores (twoGroups.flashDecodeSplit Flash.real) fun _ => 0) fun _ _ => 0) (fun _ => 0)
        (9 * headDim + 5) =
      attend Arith.real twoGroups.scale (twoGroups.query 9) (twoGroups.key 9) (twoGroups.value 9)
        1502 5 :=
  (decode_attends Flash.real twoGroups rfl
    (fun _ _ _ _ => low_lt_of_nonneg (dot_nonneg (fun _ => Nat.cast_nonneg _)
      fun _ => Nat.cast_nonneg _)) (stored _ _) (stored _ _)).1 9 (by decide) 5 (by decide)

/-- **Grouped attention.**  The heads of a group share their loads, and each gets its attention all
the same. -/
theorem gqa_attends [IsStrictOrderedRing R] (A : Flash R) {S α : Type} (c : GqaCall S α R)
    {split : List (ℕ × R)} {combine : (ℕ → R) → List (ℕ × R)} {scratch scratch' out out' : ℕ → R}
    (hcall : vvAttnGqaDecodeDev A c = .ok (some (split, combine))) (hgroup : c.group ≠ 1)
    (hlow : ∀ h < c.nQHeads, ∀ t < c.len, A.low < c.score h t)
    (hsplit : Stored split scratch scratch') (hcombine : Stored (combine scratch') out out') :
    (∀ h < c.nQHeads, ∀ d < headDim, out' (h * headDim + d) =
        attend A.toArith c.scale (c.query h) (c.key h) (c.value h) c.len d) ∧
      (∀ o, c.nQHeads * headDim ≤ o → out' o = out o) ∧
      ∀ o, vvDecodePartsFloats c.nQHeads headDim ≤ o → scratch' o = scratch o := by
  obtain ⟨hpos, hmax, -⟩ := vvDecodeNParts_spec c.cacheLen
  rw [vvAttnGqaDecodeDev] at hcall
  split_ifs at hcall with hnull hlen hok
  · cases hcall
  obtain ⟨rfl, rfl⟩ := Prod.mk.inj (Option.some.inj (Except.ok.inj hcall))
  have hok : c.ok = true := by simpa using hok
  obtain ⟨hfill, hrest⟩ := filled_of_stored hmax (GqaCall.mem_launch hok hgroup hlow) hsplit
  obtain ⟨hout, hbehind⟩ := stored_rows (mem_attCombine hpos hlow hfill) hcombine
  refine ⟨fun h hh d hd => ?_, hbehind, hrest⟩
  rw [hout h hh d hd, attend]
  exact congrFun (mean_congr (fun t _ => mul_comm ..) fun t _ => rfl) d

/-- Fourteen heads in two groups, in pages that are out of order. -/
noncomputable def paged : GqaCall (ℕ → ℝ) (ℕ → ℝ) ℝ where
  q := fun i => i
  kStore := fun i => i
  vStore := fun i => i
  format := gdFp16 ℝ
  fp16 := true
  pages := some (List.range 24).reverse
  null := false
  nQHeads := 14
  nKvHeads := 2
  headDim := 128
  cacheLen := 1500
  dCacheLen := some 1502
  smCount := 82
  scale := Arith.real.whtNorm
  junk := fun _ _ => 0

theorem gqa_attends_paged :
    stores (attCombine Flash.real (vvDecodeParts 14 128) 14 16
      (stores (paged.launch Flash.real) fun _ => 0)) (fun _ => 0) (9 * headDim + 5) =
      attend Arith.real paged.scale (paged.query 9) (paged.key 9) (paged.value 9) 1502 5 :=
  (gqa_attends Flash.real paged rfl (by decide)
    (fun _ _ _ _ => low_lt_of_nonneg (dot_nonneg (fun _ => Nat.cast_nonneg _)
      fun _ => Nat.cast_nonneg _)) (stored _ _) (stored _ _)).1 9 (by decide) 5 (by decide)

/-- **One head per group.**  The launch is one for packed heads, the kernel the one for spread ones:
seven of eight slices are never walked, and the second launch, which reads all of them, finds what
was in their place. -/
theorem gqa_single_stale (A : Flash R) {S α : Type} (c : GqaCall S α R)
    {split : List (ℕ × R)} {combine : (ℕ → R) → List (ℕ × R)} {scratch scratch' : ℕ → R}
    (hcall : vvAttnGqaDecodeDev A c = .ok (some (split, combine))) (hgroup : c.group = 1)
    (hsplit : Stored split scratch scratch') :
    combine = attCombine A (vvDecodeParts c.nQHeads headDim) c.nQHeads c.nParts ∧
    ∀ h < c.nQHeads, ∀ part < c.nParts, c.nParts / decodeWarps ≤ part → ∀ d < headDim,
      scratch' ((vvDecodeParts c.nQHeads headDim).o + ((h * c.nParts + part) * headDim + d)) =
        scratch ((vvDecodeParts c.nQHeads headDim).o + ((h * c.nParts + part) * headDim + d)) := by
  obtain ⟨-, hmax, -⟩ := vvDecodeNParts_spec c.cacheLen
  rw [vvAttnGqaDecodeDev] at hcall
  split_ifs at hcall with hnull hlen hok
  · cases hcall
  obtain ⟨rfl, rfl⟩ := Prod.mk.inj (Option.some.inj (Except.ok.inj hcall))
  obtain ⟨ws, hperm, rfl⟩ := hsplit
  refine ⟨rfl, fun h hh part hpart hbehind d hd => ?_⟩
  have hrow : h * c.nParts + part < c.nQHeads * decodeMaxParts :=
    (Kernels.cell_lt hh hpart).trans_le (Nat.mul_le_mul_left _ hmax)
  have hpacked : c.packed = true := by rw [GqaCall.packed, hgroup]; rfl
  refine stores_of_not_mem fun w hw hx => ?_
  have hw := hperm.mem_iff.mp hw
  rw [GqaCall.launch, if_pos hpacked, hgroup] at hw
  simp only [GqaCall.gqaDecode, ↓reduceIte, List.mem_flatMap, List.mem_range] at hw
  obtain ⟨kvHead, -, y, hy, warp, -, hw⟩ := hw
  have hyn : y < c.nParts := hy.trans_le (Nat.div_le_self ..)
  rw [if_neg (not_le.mpr hyn), List.range_one, List.flatMap_singleton] at hw
  obtain ⟨T, hT⟩ : ∃ T, T = c.nQHeads * decodeMaxParts := ⟨_, rfl⟩
  rw [← hT] at hrow
  obtain ⟨row, hrow'⟩ : ∃ row, row = (kvHead * c.group + warp + 0) * c.nParts + y := ⟨_, rfl⟩
  simp only [← hrow', storeState, List.mem_flatMap, List.mem_append, List.mem_map,
    List.mem_range] at hw
  simp only [vvDecodeParts, ← hT, headDim] at hw hx hd
  obtain ⟨lane, hlane, ⟨e, he, rfl⟩ | hw⟩ := hw
  · have heq : row = h * c.nParts + part := by omega
    obtain ⟨-, rfl⟩ := Kernels.cell_inj hyn hpart (hrow'.symm.trans heq)
    omega
  · rcases Nat.eq_zero_or_pos lane with rfl | hpos
    · rw [if_pos rfl, List.mem_pair] at hw
      rcases hw with rfl | rfl
      · omega
      · omega
    · rw [if_neg hpos.ne'] at hw
      exact List.not_mem_nil hw

/-- Two heads, each with a KV head of its own. -/
noncomputable def ungrouped : GqaCall (ℕ → ℝ) (ℕ → ℝ) ℝ :=
  { paged with nQHeads := 2 }

theorem gqa_single_stale_two :
    stores (ungrouped.launch Flash.real) (fun _ => 1) ((1 * 16 + 7) * headDim + 9) = 1 := by
  have hstale := (gqa_single_stale Flash.real ungrouped rfl rfl (stored _ fun _ => 1)).2 1
    Nat.one_lt_two 7 (by decide) (by decide) 9 (by decide)
  exact (congrArg _ (Nat.zero_add _).symm).trans hstale

end Launches

end VibeVoice.Attention
