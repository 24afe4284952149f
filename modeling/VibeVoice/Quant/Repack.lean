import Mathlib.Algebra.GroupWithZero.Nat
import Mathlib.Data.List.GetD
import Mathlib.Data.Nat.Digits.Defs
import VibeVoice.Lib.Buckets
import VibeVoice.Lib.Loop
import VibeVoice.Status

/-!
Repacking AWQ and GPTQ checkpoints into the runtime layout (`awq_repack.c`).

Every read of a tensor and every store into a row is checked: one outside of it is a fault, which
no status stands for. The arithmetic of the mins is a parameter.

* `awqRepack`, `gptqRepack`: the two functions.
* `nibble_ofDigits`: a code is read where it was packed.
* `IsRow`: what a repacked row holds of the tensors it comes from.
* `awq_repack_iff`: AWQ rows are right exactly for groups of even size.
* `gptq_repack_iff`: what GPTQ repacking accepts, and the rows and the order it then gives.
-/

namespace VibeVoice.Quant

/-! ### The shapes both functions check -/

/-- A linear layer of `K` inputs and `N` outputs in groups of `groupSize` inputs, where `K` is a
multiple of `unit`. -/
structure Shape (unit : ℕ) where
  K : ℕ
  N : ℕ
  groupSize : ℕ
  K_pos : 0 < K
  N_pos : 0 < N
  N_dvd : 8 ∣ N
  K_dvd : unit ∣ K
  groupSize_pos : 0 < groupSize
  groupSize_dvd : groupSize ∣ K

/-- The checks at the entry of both functions, `unit` being 2 for AWQ and 8 for GPTQ. -/
def shape (unit : ℕ) (K N groupSize : ℤ) : Except Status (Shape unit) :=
  if h : 0 < K ∧ 0 < N ∧ 8 ∣ N ∧ (unit : ℤ) ∣ K then
    if h' : 0 < groupSize ∧ groupSize ∣ K then
      .ok {
        K := K.toNat
        N := N.toNat
        groupSize := groupSize.toNat
        K_pos := by omega
        N_pos := by omega
        N_dvd := by omega
        K_dvd := Int.natCast_dvd_natCast.mp (by rw [Int.toNat_of_nonneg h.1.le]; exact h.2.2.2)
        groupSize_pos := by omega
        groupSize_dvd := Int.natCast_dvd_natCast.mp (by
          rw [Int.toNat_of_nonneg h.1.le, Int.toNat_of_nonneg h'.1.le]
          exact h'.2) }
    else .error .invalidArg
  else .error .invalidArg

/-- `n_groups`. -/
def Shape.groups {unit : ℕ} (s : Shape unit) : ℕ := s.K / s.groupSize

/-! ### Nibbles -/

/-- `(w >> (4 * slot)) & 0xF`. -/
def nibble (w : UInt32) (slot : ℕ) : UInt8 := ((w >>> UInt32.ofNat (4 * slot)) &&& 0xF).toUInt8

/-- A nibble is a digit to base 16. -/
lemma nibble_toNat (w : UInt32) {slot : ℕ} (hslot : slot < 8) :
    (nibble w slot).toNat = w.toNat / 16 ^ slot % 16 := by
  have hshift : (UInt32.ofNat (4 * slot)).toNat = 4 * slot := 
    UInt32.toNat_ofNat_of_lt' (Nat.lt_trans (by omega : 4 * slot < 32) (by decide))
  have hmask : (0xF : UInt32).toNat = 2 ^ 4 - 1 := rfl
  rw [nibble, UInt32.toNat_toUInt8, UInt32.toNat_and, UInt32.toNat_shiftRight, hshift, hmask,
    Nat.and_two_pow_sub_one_eq_mod, Nat.mod_eq_of_lt (by omega : 4 * slot < 32),
    Nat.shiftRight_eq_div_pow, pow_mul]
  exact Nat.mod_eq_of_lt ((Nat.mod_lt _ (by decide)).trans (by decide))

/-- A word packed from eight codes has each of them in its slot. -/
lemma nibble_ofDigits {codes : List ℕ} (hlen : codes.length = 8) (hcodes : ∀ c ∈ codes, c < 16)
    {slot : ℕ} (hslot : slot < codes.length) :
    (nibble (.ofNat (Nat.ofDigits 16 codes)) slot).toNat = codes[slot] := by
  have hlt := Nat.ofDigits_lt_base_pow_length (by decide : 1 < 16) hcodes
  rw [hlen] at hlt
  have hc := hcodes _ (List.getElem_mem hslot)
  rw [nibble_toNat _ (hlen ▸ hslot), UInt32.toNat_ofNat_of_lt' hlt,
    Nat.ofDigits_div_pow_eq_ofDigits_drop _ (by decide) _ hcodes, List.drop_eq_getElem_cons hslot,
    Nat.ofDigits_cons]
  omega

/-- `(q0 << 4) | q1`. -/
def pack (q0 q1 : UInt8) : UInt8 := q0 <<< 4 ||| q1

/-- A store into a row. -/
def write {α : Type} (row : List α) (i : ℕ) (x : α) : Option (List α) :=
  if i < row.length then some (row.set i x) else none

/-- The code of channel `k` in a packed row: the high nibble is that of the even channel. -/
def rowCode (packed : List UInt8) (k : ℕ) : Option UInt8 :=
  packed[k / 2]?.map fun (byte : UInt8) => if k % 2 = 0 then byte >>> 4 else byte &&& 0xF

/-! ### The rows -/

/-- The tensors of a checkpoint: `qweight`, `qzeros` and the FP16 bits of `scales`. -/
structure Tensors where
  qweight : List UInt32
  qzeros : List UInt32
  scales : List UInt16

/-- A row of the runtime layout; `zeros` is `none` where `out_zeros` is `NULL`. -/
structure Row where
  packed : List UInt8
  scales : List UInt16
  mins : List UInt16
  zeros : Option (List UInt8)
  deriving DecidableEq, Repr

section Model

variable (minOf : ℤ → UInt16 → UInt16) (t : Tensors) (zeroBias : ℤ)

/-- The scale of group `g` of row `n`. -/
def scaleAt (N n g : ℕ) : Option UInt16 := t.scales[g * N + n]?

/-- The zero point of group `g` of row `n`, read at `slot` of its word. -/
def zeroAt (N slot n g : ℕ) : Option ℤ :=
  t.qzeros[g * (N / 8) + n / 8]?.map fun zw => (nibble zw slot).toNat + zeroBias

/-- `srow[g]`, `mrow[g]` and `zrow[g]`, group after group. -/
def putGroup (N slot n : ℕ) (row : Row) (g : ℕ) : Option Row := do
  let sc ← scaleAt t N n g
  let zi ← zeroAt t zeroBias N slot n g
  pure {
    row with
    scales := row.scales ++ [sc]
    mins := row.mins ++ [minOf zi sc]
    zeros := row.zeros.map fun zeros => zeros ++ [UInt8.ofInt zi] }

/-- A row before its first group: `memory` is what its bytes held. -/
def emptyRow (memory : List UInt8) (withZeros : Bool) : Row :=
  ⟨memory, [], [], if withZeros then some [] else none⟩

/-- `prow[k >> 1]`, of the codes of `k` and `k + 1`. -/
def putPair (code : ℕ → Option UInt8) (packed : List UInt8) (k : ℕ) : Option (List UInt8) := do
  let q0 ← code k
  let q1 ← code (k + 1)
  write packed (k / 2) (pack q0 q1)

/-! ### AWQ -/

/-- `AWQ_ORDER`: where column `j` of a word is. -/
def awqOrder (j : ℕ) : ℕ := [0, 4, 1, 5, 2, 6, 3, 7].getD j 0

/-- The code of channel `k` for output `n`. -/
def awqCode (N n k : ℕ) : Option UInt8 :=
  t.qweight[k * (N / 8) + n / 8]?.map fun w => nibble w (awqOrder (n % 8))

/-- One turn of the group loop; its channels are walked in steps of two. -/
def awqGroup (N groupSize n : ℕ) (row : Row) (g : ℕ) : Option Row := do
  let row ← putGroup minOf t zeroBias N (awqOrder (n % 8)) n row g
  let packed ← (List.range' (g * groupSize) ((groupSize + 1) / 2) 2).foldlM
    (putPair (awqCode t N n)) row.packed
  pure { row with packed }

/-- Row `n` of `vv_awq_repack`. -/
def awqRow (s : Shape 2) (memory : ℕ → List UInt8) (withZeros : Bool) (n : ℕ) : Option Row :=
  (List.range s.groups).foldlM (awqGroup minOf t zeroBias s.N s.groupSize n)
    (emptyRow (memory n) withZeros)

/-- `vv_awq_repack`. -/
def awqRepack (K N groupSize : ℤ) (memory : ℕ → List UInt8) (withZeros : Bool) :
    Checked (List Row) := do
  let s ← ExceptT.mk (some (shape 2 K N groupSize))
  ExceptT.lift <| (List.range s.N).mapM (awqRow minOf t zeroBias s memory withZeros)

/-! ### GPTQ -/

/-- The code of channel `k` for output `n`. -/
def gptqCode (N n k : ℕ) : Option UInt8 := t.qweight[k / 8 * N + n]?.map fun w => nibble w (k % 8)

/-- The group id of a channel, checked against the number of groups. -/
def groupId (gIdx : List ℤ) (groups k : ℕ) : Checked ℕ := do
  let g ← ExceptT.lift gIdx[k]?
  if g < 0 ∨ (groups : ℤ) ≤ g then throw .unsupported else pure g.toNat

/-- The group ids of all channels. -/
def groupIds (gIdx : List ℤ) (K groups : ℕ) : Checked (List ℕ) :=
  (List.range K).mapM (groupId gIdx groups)

/-- `act_order`: some channel is not in the group of its place. -/
def actOrder (ids : List ℕ) (groupSize : ℕ) : Bool :=
  (List.range ids.length).any fun k => ids[k]? ≠ some (k / groupSize)

/-- `next[g]++`, for the value before. -/
def bump (next : List ℕ) (g : ℕ) : Option (ℕ × List ℕ) := do
  let c ← next[g]?
  pure (c, next.set g (c + 1))

/-- The members of every group. -/
def memberCounts (ids : List ℕ) (groups : ℕ) : Option (List ℕ) :=
  ids.foldlM (fun next g => do
    let (_, next) ← bump next g
    pure next) (List.replicate groups 0)

/-- One turn of `out_perm[next[g_idx[k]]++] = k`. -/
def place (ids : List ℕ) (state : List ℕ × List ℕ) (k : ℕ) : Option (List ℕ × List ℕ) := do
  let g ← ids[k]?
  let (j, next) ← bump state.1 g
  let perm ← write state.2 j k
  pure (next, perm)

/-- The counting sort into `out_perm`, whose memory is `perm`. -/
def sortChannels (ids : List ℕ) (groups groupSize : ℕ) (perm : List ℕ) : Checked (List ℕ) := do
  let counts ← ExceptT.lift (memberCounts ids groups)
  if counts.any fun c => c ≠ groupSize then throw .unsupported
  else
    let (_, perm) ← ExceptT.lift <| (List.range ids.length).foldlM (place ids)
      ((List.range groups).map fun g => g * groupSize, perm)
    pure perm

/-- One turn of the loop over the pairs of word `r`. -/
def putWordPair (w : UInt32) (r : ℕ) (packed : List UInt8) (j : ℕ) : Option (List UInt8) :=
  write packed ((8 * r + j) / 2) (pack (nibble w j) (nibble w (j + 1)))

/-- The loop over the words of a row, where the checkpoint is not in act order. -/
def packWords (K N n : ℕ) (packed : List UInt8) : Option (List UInt8) :=
  (List.range (K / 8)).foldlM (fun packed r => do
    let w ← t.qweight[r * N + n]?
    (List.range' 0 4 2).foldlM (putWordPair w r) packed) packed

/-- A row in act order: column `j` holds input channel `out_perm[j]`. -/
def packPermuted (K N n : ℕ) (perm : List ℕ) (packed : List UInt8) : Option (List UInt8) :=
  (List.range' 0 (K / 2) 2).foldlM
    (putPair fun j => do
      let k ← perm[j]?
      gptqCode t N n k) packed

/-- The codes of a row; `order` is `out_perm` where the checkpoint is in act order. -/
def packChannels (s : Shape 8) (order : Option (List ℕ)) (n : ℕ) (packed : List UInt8) :
    Option (List UInt8) :=
  match order with
  | some perm => packPermuted t s.K s.N n perm packed
  | none => packWords t s.K s.N n packed

/-- Row `n` of `vv_gptq_repack`. -/
def gptqRow (s : Shape 8) (memory : ℕ → List UInt8) (withZeros : Bool) (order : Option (List ℕ))
    (n : ℕ) : Option Row := do
  let row ← (List.range s.groups).foldlM (putGroup minOf t zeroBias s.N (n % 8) n)
    (emptyRow (memory n) withZeros)
  let packed ← packChannels t s order n row.packed
  pure { row with packed }

/-- The order of `g_idx`, if it is not that of the channels. -/
def channelOrder (s : Shape 8) (gIdx : Option (List ℤ)) (outPerm : Option (List ℕ)) :
    Checked (Option (List ℕ)) :=
  match gIdx with
  | none => pure none
  | some gIdx => do
      let ids ← groupIds gIdx s.K s.groups
      if actOrder ids s.groupSize then
        match outPerm with
        | none => throw .unsupported
        | some perm => some <$> sortChannels ids s.groups s.groupSize perm
      else pure none

/-- `vv_gptq_repack`: the rows, and `out_perm` where there is one. -/
def gptqRepack (K N groupSize : ℤ) (gIdx : Option (List ℤ)) (memory : ℕ → List UInt8)
    (withZeros : Bool) (outPerm : Option (List ℕ)) :
    Checked (List Row × Option (List ℕ)) := do
  let s ← ExceptT.mk (some (shape 8 K N groupSize))
  let order ← channelOrder s gIdx outPerm
  let rows ← ExceptT.lift <| (List.range s.N).mapM
    (gptqRow minOf t zeroBias s memory withZeros order)
  pure (rows, outPerm.map fun _ => order.getD (List.range s.K))

end Model

/-! ### Codes in bytes -/

lemma nibble_lt (w : UInt32) (slot : ℕ) : (nibble w slot).toNat < 16 := by
  have hand : (w >>> UInt32.ofNat (4 * slot) &&& 0xF).toNat < 16 := by
    rw [UInt32.toNat_and]
    exact Nat.lt_succ_of_le Nat.and_le_right
  rw [nibble, UInt32.toNat_toUInt8]
  exact (Nat.mod_le _ _).trans_lt hand

lemma exists_nibble {words : List UInt32} {i : ℕ} (h : i < words.length) (slot : ℕ) :
    ∃ q, (words[i]?.map fun w => nibble w slot) = some q ∧ q.toNat < 16 := by
  rw [List.getElem?_eq_getElem h]
  exact ⟨_, rfl, nibble_lt _ _⟩

lemma pack_toNat {q0 q1 : UInt8} (h0 : q0.toNat < 16) (h1 : q1.toNat < 16) :
    (pack q0 q1).toNat = q0.toNat * 16 + q1.toNat := by
  have hshift : q0.toNat <<< 4 = q0.toNat * 16 := Nat.shiftLeft_eq q0.toNat 4
  calc (pack q0 q1).toNat = q0.toNat <<< 4 % 2 ^ 8 ||| q1.toNat := by
        rw [pack, UInt8.toNat_or, UInt8.toNat_shiftLeft]
        rfl
    _ = q0.toNat <<< 4 ||| q1.toNat := by
        rw [Nat.mod_eq_of_lt]
        omega
    _ = q0.toNat <<< 4 + q1.toNat := (Nat.shiftLeft_add_eq_or_of_lt (by omega) q0.toNat).symm
    _ = q0.toNat * 16 + q1.toNat := by rw [hshift]

lemma pack_high {q0 q1 : UInt8} (h0 : q0.toNat < 16) (h1 : q1.toNat < 16) :
    pack q0 q1 >>> 4 = q0 := by
  apply UInt8.toNat_inj.mp
  rw [UInt8.toNat_shiftRight, pack_toNat h0 h1]
  show (q0.toNat * 16 + q1.toNat) >>> 4 = q0.toNat
  rw [Nat.shiftRight_eq_div_pow]
  omega

lemma pack_low {q0 q1 : UInt8} (h0 : q0.toNat < 16) (h1 : q1.toNat < 16) :
    pack q0 q1 &&& 0xF = q1 := by
  apply UInt8.toNat_inj.mp
  rw [UInt8.toNat_and, pack_toNat h0 h1]
  show (q0.toNat * 16 + q1.toNat) &&& 2 ^ 4 - 1 = q1.toNat
  rw [Nat.and_two_pow_sub_one_eq_mod]
  omega

/-- The first `K` channels have codes of four bits. -/
def Codes (code : ℕ → Option UInt8) (K : ℕ) : Prop := ∀ k < K, ∃ q, code k = some q ∧ q.toNat < 16

/-- The bytes of a row whose first `m` channels hold their codes. -/
structure Filled (code : ℕ → Option UInt8) (K m : ℕ) (packed : List UInt8) : Prop where
  length : packed.length = K / 2
  codes : ∀ k < m, rowCode packed k = code k

section Pairs

variable {code : ℕ → Option UInt8} {K k : ℕ} {packed : List UInt8}

lemma rowCode_set_of_ne {byte : UInt8} {i : ℕ} (h : k / 2 ≠ i) :
    rowCode (packed.set i byte) k = rowCode packed k := by
  rw [rowCode, rowCode, List.getElem?_set_ne h.symm]

/-- A byte stored for two channels keeps the codes in front of them. -/
lemma Filled.write (h : Filled code K k packed) (heven : 2 ∣ k) (hk : k + 1 < K) {q0 q1 : UInt8}
    (hq0 : code k = some q0) (h0 : q0.toNat < 16) (hq1 : code (k + 1) = some q1)
    (h1 : q1.toNat < 16) :
    ∃ packed', Quant.write packed (k / 2) (pack q0 q1) = some packed' ∧
      Filled code K (k + 2) packed' := by
  have hlt : k / 2 < packed.length := by
    rw [h.length]
    omega
  have hset : (packed.set (k / 2) (pack q0 q1))[k / 2]? = some (pack q0 q1) :=
    List.getElem?_set_self hlt
  refine ⟨packed.set (k / 2) (pack q0 q1), if_pos hlt, List.length_set.trans h.length,
    fun i hi => ?_⟩
  rcases Nat.lt_or_ge i k with hik | hki
  · rw [rowCode_set_of_ne (by omega), h.codes i hik]
  · obtain rfl | rfl : i = k ∨ i = k + 1 := by omega
    · rw [rowCode, hset, Option.map_some, if_pos (by omega), pack_high h0 h1, hq0]
    · have hdiv : (k + 1) / 2 = k / 2 := by omega
      rw [rowCode, hdiv, hset, Option.map_some, if_neg (by omega), pack_low h0 h1, hq1]

lemma putPair_filled (hc : Codes code K) (h : Filled code K k packed) (heven : 2 ∣ k)
    (hk : k + 1 < K) :
    ∃ packed', putPair code packed k = some packed' ∧ Filled code K (k + 2) packed' := by
  obtain ⟨q0, hq0, h0⟩ := hc k (by omega)
  obtain ⟨q1, hq1, h1⟩ := hc (k + 1) hk
  obtain ⟨packed', hwrite, hfilled⟩ := h.write heven hk hq0 h0 hq1 h1
  refine ⟨packed', ?_, hfilled⟩
  rw [putPair, hq0, hq1]
  exact hwrite

/-- Pairs one after the other, from an even channel on. -/
lemma putPairs_filled (hc : Codes code K) {start : ℕ} (heven : 2 ∣ start) (count : ℕ)
    (hcount : start + 2 * count ≤ K) (h : Filled code K start packed) :
    ∃ packed', (List.range' start count 2).foldlM (putPair code) packed = some packed' ∧
      Filled code K (start + 2 * count) packed' :=
  Loop.foldlM_range' count h fun i hi packed hfilled =>
    putPair_filled hc hfilled ((Nat.dvd_add_right heven).mpr (Nat.dvd_mul_right 2 i)) (by omega)

end Pairs

/-! ### What a row holds -/

/-- A list of `m` entries, entry `i` being `f i`. -/
structure Tabulates {α : Type} (f : ℕ → Option α) (m : ℕ) (xs : List α) : Prop where
  length : xs.length = m
  entry : ∀ i < m, xs[i]? = f i

lemma Tabulates.nil {α : Type} (f : ℕ → Option α) : Tabulates f 0 [] :=
  ⟨rfl, fun i hi => absurd hi i.not_lt_zero⟩

lemma Tabulates.concat {α : Type} {f : ℕ → Option α} {m : ℕ} {xs : List α} {x : α}
    (h : Tabulates f m xs) (hx : f m = some x) : Tabulates f (m + 1) (xs ++ [x]) := by
  refine ⟨by rw [List.length_append, h.length]; rfl, fun i hi => ?_⟩
  rcases Nat.lt_succ_iff_lt_or_eq.mp hi with hlt | rfl
  · rw [List.getElem?_append_left (h.length.symm ▸ hlt), h.entry i hlt]
  · rw [← h.length, List.getElem?_concat_length, h.length, hx]

section Rows

variable (minOf : ℤ → UInt16 → UInt16) (t : Tensors) (zeroBias : ℤ)

/-- The min of group `g` of row `n`. -/
def minAt (N slot n g : ℕ) : Option UInt16 := do
  let sc ← scaleAt t N n g
  let zi ← zeroAt t zeroBias N slot n g
  pure (minOf zi sc)

/-- The scales, mins and zero points of row `n` for its first `m` groups. -/
structure GroupsOf (N slot n m : ℕ) (withZeros : Bool) (row : Row) : Prop where
  scales : Tabulates (scaleAt t N n) m row.scales
  mins : Tabulates (minAt minOf t zeroBias N slot n) m row.mins
  zeros_isSome : row.zeros.isSome = withZeros
  zeros : ∀ zeros, row.zeros = some zeros →
    Tabulates (fun g => (zeroAt t zeroBias N slot n g).map UInt8.ofInt) m zeros

/-- Row `n` of the runtime layout: channel `k` has the code `code k`, and the rest is that of the
tensors. -/
structure IsRow {unit : ℕ} (s : Shape unit) (code : ℕ → Option UInt8) (slot n : ℕ)
    (withZeros : Bool) (row : Row) : Prop where
  filled : Filled code s.K s.K row.packed
  groups : GroupsOf minOf t zeroBias s.N slot n s.groups withZeros row

/-- Tensors of the sizes the layout asks for, `words` being that of `qweight`. -/
structure Tensors.Sized {unit : ℕ} (s : Shape unit) (words : ℕ) : Prop where
  qweight : t.qweight.length = words
  qzeros : t.qzeros.length = s.groups * (s.N / 8)
  scales : t.scales.length = s.groups * s.N

end Rows

section Rows

variable {minOf : ℤ → UInt16 → UInt16} {t : Tensors} {zeroBias : ℤ} {unit : ℕ} {s : Shape unit}

/-- An entry of a table by rows. -/
lemma lt_of_row {row col rows cols : ℕ} (hrow : row < rows) (hcol : col < cols) :
    row * cols + col < rows * cols :=
  calc row * cols + col < row * cols + cols := Nat.add_lt_add_left hcol _
    _ = (row + 1) * cols := (Nat.succ_mul _ _).symm
    _ ≤ rows * cols := Nat.mul_le_mul_right cols hrow

lemma Shape.groups_mul (s : Shape unit) : s.groups * s.groupSize = s.K :=
  Nat.div_mul_cancel s.groupSize_dvd

lemma Shape.word_lt (s : Shape unit) {n : ℕ} (hn : n < s.N) : n / 8 < s.N / 8 :=
  Nat.div_lt_div_of_lt_of_dvd s.N_dvd hn

lemma scaleAt_isSome {words n g : ℕ} (ht : t.Sized s words) (hn : n < s.N) (hg : g < s.groups) :
    ∃ sc, scaleAt t s.N n g = some sc :=
  ⟨_, List.getElem?_eq_getElem (by rw [ht.scales]; exact lt_of_row hg hn)⟩

lemma zeroAt_isSome {words n g : ℕ} (ht : t.Sized s words) (hn : n < s.N) (hg : g < s.groups)
    (zeroBias : ℤ) (slot : ℕ) : ∃ zi, zeroAt t zeroBias s.N slot n g = some zi := by
  have hlt : g * (s.N / 8) + n / 8 < t.qzeros.length := by
    rw [ht.qzeros]
    exact lt_of_row hg (s.word_lt hn)
  rw [zeroAt, List.getElem?_eq_getElem hlt]
  exact ⟨_, rfl⟩

/-- The group loop reads inside of the tensors and fills in what belongs to the next group. -/
lemma putGroup_groupsOf {words n m slot : ℕ} {withZeros : Bool} {row : Row} (ht : t.Sized s words)
    (hn : n < s.N) (hm : m < s.groups)
    (h : GroupsOf minOf t zeroBias s.N slot n m withZeros row) :
    ∃ row', putGroup minOf t zeroBias s.N slot n row m = some row' ∧ row'.packed = row.packed ∧
      GroupsOf minOf t zeroBias s.N slot n (m + 1) withZeros row' := by
  obtain ⟨sc, hsc⟩ := scaleAt_isSome ht hn hm
  obtain ⟨zi, hzi⟩ := zeroAt_isSome ht hn hm zeroBias slot
  have hput : putGroup minOf t zeroBias s.N slot n row m = some {
      row with
      scales := row.scales ++ [sc]
      mins := row.mins ++ [minOf zi sc]
      zeros := row.zeros.map fun zeros => zeros ++ [UInt8.ofInt zi] } := by
    rw [putGroup, hsc, hzi]
    rfl
  refine ⟨_, hput, rfl, h.scales.concat hsc, h.mins.concat ?_, ?_, ?_⟩
  · rw [minAt, hsc, hzi]
    rfl
  · exact Option.isSome_map.trans h.zeros_isSome
  · intro zeros hzeros
    obtain ⟨zeros₀, hzeros₀, rfl⟩ := Option.map_eq_some_iff.mp hzeros
    exact (h.zeros zeros₀ hzeros₀).concat (by rw [hzi]; rfl)

lemma groupsOf_emptyRow (N slot n : ℕ) (memory : List UInt8) (withZeros : Bool) :
    GroupsOf minOf t zeroBias N slot n 0 withZeros (emptyRow memory withZeros) := by
  refine ⟨Tabulates.nil _, Tabulates.nil _, ?_, fun zeros hzeros => ?_⟩
  · cases withZeros <;> rfl
  · cases withZeros with
    | false => exact nomatch hzeros
    | true =>
      obtain rfl : [] = zeros := Option.some.inj hzeros
      exact Tabulates.nil _

end Rows

/-! ### AWQ: groups of even size -/

section Awq

variable {minOf : ℤ → UInt16 → UInt16} {t : Tensors} {zeroBias : ℤ} {s : Shape 2}
  {memory : ℕ → List UInt8} {withZeros : Bool} {n : ℕ}

/-- The row is in the making, its first `g` groups done. -/
def AwqUpTo (minOf : ℤ → UInt16 → UInt16) (t : Tensors) (zeroBias : ℤ) (s : Shape 2)
    (withZeros : Bool) (n g : ℕ) (row : Row) : Prop :=
  Filled (awqCode t s.N n) s.K (g * s.groupSize) row.packed ∧
    GroupsOf minOf t zeroBias s.N (awqOrder (n % 8)) n g withZeros row

lemma awqCode_codes (ht : t.Sized s (s.K * (s.N / 8))) (hn : n < s.N) :
    Codes (awqCode t s.N n) s.K := by
  intro k hk
  apply exists_nibble
  rw [ht.qweight]
  exact lt_of_row hk (s.word_lt hn)

/-- The row behind the last channel is not there. -/
lemma awqCode_eq_none (ht : t.Sized s (s.K * (s.N / 8))) : awqCode t s.N n s.K = none := by
  rw [awqCode, List.getElem?_eq_none (by rw [ht.qweight]; omega)]
  rfl

lemma awqGroup_upTo (ht : t.Sized s (s.K * (s.N / 8))) (hn : n < s.N) (heven : 2 ∣ s.groupSize)
    {g : ℕ} (hg : g < s.groups) {row : Row} (h : AwqUpTo minOf t zeroBias s withZeros n g row) :
    ∃ row', awqGroup minOf t zeroBias s.N s.groupSize n row g = some row' ∧
      AwqUpTo minOf t zeroBias s withZeros n (g + 1) row' := by
  obtain ⟨row₁, hput, hpacked, hgroups⟩ := putGroup_groupsOf ht hn hg h.2
  have hend : g * s.groupSize + 2 * ((s.groupSize + 1) / 2) = (g + 1) * s.groupSize := by
    rw [Nat.succ_mul g]
    omega
  have hle : (g + 1) * s.groupSize ≤ s.K := by
    rw [← s.groups_mul]
    exact Nat.mul_le_mul_right _ hg
  obtain ⟨packed, hpairs, hfilled⟩ := putPairs_filled (awqCode_codes ht hn)
    (Nat.dvd_mul_left_of_dvd heven g) ((s.groupSize + 1) / 2) (hend.trans_le hle) (hpacked.symm ▸ h.1)
  refine ⟨{ row₁ with packed }, ?_, hend ▸ hfilled, ⟨hgroups.scales, hgroups.mins,
    hgroups.zeros_isSome, hgroups.zeros⟩⟩
  rw [awqGroup, hput, Option.bind_eq_bind, Option.bind_some, hpairs]
  rfl

lemma awqRow_isRow (ht : t.Sized s (s.K * (s.N / 8))) (hmem : (memory n).length = s.K / 2)
    (hn : n < s.N) (heven : 2 ∣ s.groupSize) :
    ∃ row, awqRow minOf t zeroBias s memory withZeros n = some row ∧
      IsRow minOf t zeroBias s (awqCode t s.N n) (awqOrder (n % 8)) n withZeros row := by
  have hstart : AwqUpTo minOf t zeroBias s withZeros n 0 (emptyRow (memory n) withZeros) := by
    refine ⟨⟨hmem, fun k hk => ?_⟩, groupsOf_emptyRow _ _ _ _ _⟩
    rw [Nat.zero_mul] at hk
    exact absurd hk k.not_lt_zero
  obtain ⟨row, hrow, hfilled, hgroups⟩ := Loop.foldlM_range hstart
    fun g hg row h => awqGroup_upTo ht hn heven hg h
  rw [s.groups_mul] at hfilled
  exact ⟨row, hrow, hfilled, hgroups⟩

/-- With groups of odd size the last group reads a channel too far. -/
lemma awqRow_eq_none (ht : t.Sized s (s.K * (s.N / 8))) (hodd : ¬2 ∣ s.groupSize) :
    awqRow minOf t zeroBias s memory withZeros n = none := by
  have hgroups := s.groups_mul
  have hpos : 0 < s.groups := Nat.pos_of_mul_pos_right (hgroups.symm ▸ s.K_pos)
  obtain ⟨g, hg⟩ := Nat.exists_eq_succ_of_ne_zero hpos.ne'
  have hlast : g * s.groupSize + s.groupSize = s.K := by
    rw [← hgroups, hg, Nat.succ_mul]
  have hpair : ∀ packed, putPair (awqCode t s.N n) packed (s.K - 1) = none := by
    intro packed
    rw [putPair, Nat.sub_add_cancel s.K_pos, awqCode_eq_none ht]
    cases awqCode t s.N n (s.K - 1) <;> rfl
  have hmem : s.K - 1 ∈ List.range' (g * s.groupSize) ((s.groupSize + 1) / 2) 2 := by
    rw [List.mem_range']
    exact ⟨s.groupSize / 2, by omega, by omega⟩
  refine Loop.foldlM_eq_none (List.mem_range.mpr (hg ▸ g.lt_succ_self)) (fun row => ?_) _
  rw [awqGroup]
  cases putGroup minOf t zeroBias s.N (awqOrder (n % 8)) n row g with
  | none => rfl
  | some row =>
    rw [Option.bind_eq_bind, Option.bind_some, Loop.foldlM_eq_none hmem hpair]
    rfl

lemma awqRepack_eq {K N groupSize : ℤ} (hs : shape 2 K N groupSize = .ok s) :
    awqRepack minOf t zeroBias K N groupSize memory withZeros =
      ExceptT.lift ((List.range s.N).mapM (awqRow minOf t zeroBias s memory withZeros)) := by
  rw [awqRepack, hs]
  rfl

/-- Repacking an AWQ checkpoint stays inside of its tensors and gives every row its own codes,
scales and zero points exactly when the groups have an even size. -/
theorem awq_repack_iff {K N groupSize : ℤ} (hs : shape 2 K N groupSize = .ok s)
    (ht : t.Sized s (s.K * (s.N / 8))) (hmem : ∀ n < s.N, (memory n).length = s.K / 2) :
    (∃ rows, awqRepack minOf t zeroBias K N groupSize memory withZeros = pure rows ∧
      rows.length = s.N ∧ ∀ n < s.N, ∃ row, rows[n]? = some row ∧
        IsRow minOf t zeroBias s (awqCode t s.N n) (awqOrder (n % 8)) n withZeros row) ↔
      2 ∣ s.groupSize := by
  rw [awqRepack_eq hs]
  constructor
  · rintro ⟨rows, hrows, -⟩
    by_contra hodd
    rw [Loop.mapM_eq_none (List.mem_range.mpr s.N_pos) (awqRow_eq_none ht hodd)] at hrows
    exact nomatch hrows
  · intro heven
    have hrow : ∀ n < s.N, ∃ row, awqRow minOf t zeroBias s memory withZeros n = some row ∧
        IsRow minOf t zeroBias s (awqCode t s.N n) (awqOrder (n % 8)) n withZeros row :=
      fun n hn => awqRow_isRow ht (hmem n hn) hn heven
    obtain ⟨rows, hrows, hlen, hall⟩ := Loop.mapM_range hrow
    exact ⟨rows, by rw [hrows]; rfl, hlen, hall⟩

theorem awq_repack_iff_sample :
    ∃ s, shape 2 2 8 2 = .ok s ∧ ∃ rows, awqRepack (fun _ sc => sc)
        ⟨[0x76543210, 0xFEDCBA98], [0], List.replicate 8 0⟩ 0 2 8 2 (fun _ => [0]) true =
          pure rows ∧ rows.length = s.N ∧ ∀ n < s.N, ∃ row, rows[n]? = some row ∧
        IsRow (fun _ sc => sc) ⟨[0x76543210, 0xFEDCBA98], [0], List.replicate 8 0⟩ 0 s
          (awqCode ⟨[0x76543210, 0xFEDCBA98], [0], List.replicate 8 0⟩ s.N n)
          (awqOrder (n % 8)) n true row :=
  ⟨_, rfl, (awq_repack_iff rfl ⟨rfl, rfl, rfl⟩ fun _ _ => rfl).mpr (by decide)⟩

/-- Two groups of one channel: the second one reads a third channel. -/
theorem odd_group_reads_behind :
    (∃ s, shape 2 2 8 1 = .ok s ∧
      Tensors.Sized ⟨[0x76543210, 0xFEDCBA98], [0, 0], List.replicate 16 0⟩ s
        (s.K * (s.N / 8))) ∧
    awqRepack (fun _ sc => sc) ⟨[0x76543210, 0xFEDCBA98], [0, 0], List.replicate 16 0⟩ 0 2 8 1
      (fun _ => [0]) true = none :=
  ⟨⟨_, rfl, rfl, rfl, rfl⟩, rfl⟩

end Awq

/-! ### GPTQ: the order of the channels -/

section Order

variable {gIdx : List ℤ} {key : ℕ → ℕ} {K groups groupSize : ℕ}

/-- Every group id is in range. -/
def InRange (gIdx : List ℤ) (groups : ℕ) : Prop := ∀ g ∈ gIdx, 0 ≤ g ∧ g < groups

/-- The group of channel `k`. -/
def groupOf (gIdx : List ℤ) (k : ℕ) : ℕ := (gIdx.getD k 0).toNat

lemma groupIds_of_inRange (hin : InRange gIdx groups) :
    groupIds gIdx gIdx.length groups =
      pure ((List.range gIdx.length).map (groupOf gIdx)) := by
  refine Loop.mapM_eq_pure fun k hk => ?_
  have hlt : k < gIdx.length := List.mem_range.mp hk
  obtain ⟨h0, hg⟩ := hin gIdx[k] (List.getElem_mem hlt)
  rw [groupId, groupOf, List.getD_eq_getElem?_getD, List.getElem?_eq_getElem hlt]
  exact if_neg (by omega)

lemma groupIds_of_not_inRange (hout : ¬InRange gIdx groups) :
    groupIds gIdx gIdx.length groups = throw .unsupported := by
  simp only [InRange, not_forall] at hout
  obtain ⟨g, hmem, hg⟩ := hout
  obtain ⟨k, hlt, rfl⟩ := List.mem_iff_getElem.mp hmem
  refine Loop.mapM_eq_throw (List.mem_range.mpr hlt) (fun j hj => ?_) ?_
  · have hjlt : j < gIdx.length := List.mem_range.mp hj
    rw [groupId, List.getElem?_eq_getElem hjlt]
    by_cases hbad : gIdx[j] < 0 ∨ (groups : ℤ) ≤ gIdx[j]
    · exact .inr (if_pos hbad)
    · exact .inl ⟨_, if_neg hbad⟩
  · rw [groupId, List.getElem?_eq_getElem hlt]
    exact if_pos (by omega)

lemma actOrder_iff :
    actOrder ((List.range K).map key) groupSize = true ↔ ∃ k < K, key k ≠ k / groupSize := by
  rw [actOrder, List.any_eq_true]
  simp only [List.length_map, List.length_range, List.mem_range, decide_eq_true_eq]
  refine exists_congr fun k => and_congr_right fun hk => ?_
  rw [List.getElem?_map, List.getElem?_range hk, Option.map_some, ne_eq, Option.some_inj]

lemma bump_eq {next : List ℕ} {g c : ℕ} (h : next[g]? = some c) :
    bump next g = some (c, next.set g (c + 1)) := by
  rw [bump, h]
  rfl

/-- The counters after the first `m` channels, each counter `g` starting from `base g`. -/
def Counted (key base : ℕ → ℕ) (groups m : ℕ) (next : List ℕ) : Prop :=
  Tabulates (fun g => some (base g + (List.range m).countP fun k => key k = g)) groups next

lemma Counted.bump {base : ℕ → ℕ} {m : ℕ} {next : List ℕ} (h : Counted key base groups m next)
    (hkey : key m < groups) :
    ∃ next', Quant.bump next (key m) = some (base (key m) + Buckets.rank key m, next') ∧
      Counted key base groups (m + 1) next' := by
  refine ⟨_, bump_eq (h.entry _ hkey), List.length_set.trans h.length, fun g hg => ?_⟩
  rw [List.range_succ, List.countP_append, List.countP_singleton]
  by_cases heq : key m = g
  · subst heq
    rw [List.getElem?_set_self (h.length.symm ▸ hg), if_pos (decide_eq_true rfl), Nat.add_assoc]
    rfl
  · rw [List.getElem?_set_ne heq, h.entry g hg, if_neg (by simpa using heq), Nat.add_zero]

lemma memberCounts_eq (hkey : ∀ k < K, key k < groups) :
    ∃ counts, memberCounts ((List.range K).map key) groups = some counts ∧
      Counted key 0 groups K counts := by
  rw [memberCounts, List.foldlM_map]
  refine Loop.foldlM_range ⟨List.length_replicate, fun g hg => ?_⟩ fun k hk next hnext => ?_
  · rw [List.getElem?_replicate_of_lt hg]
    rfl
  · obtain ⟨next', hbump, hcounted⟩ := hnext.bump (hkey k hk)
    exact ⟨next', by rw [hbump]; rfl, hcounted⟩

/-- The counting sort when its first `m` channels are in their places. -/
structure Placed (key : ℕ → ℕ) (groups groupSize K m : ℕ) (state : List ℕ × List ℕ) : Prop where
  next : Counted key (· * groupSize) groups m state.1
  length : state.2.length = K
  place : ∀ k < m, state.2[Buckets.slot key groupSize k]? = some k

lemma Placed.step (hb : Buckets.Balanced key groups groupSize K) {m : ℕ}
    {state : List ℕ × List ℕ} (h : Placed key groups groupSize K m state) (hm : m < K) :
    ∃ state', Quant.place ((List.range K).map key) state m = some state' ∧
      Placed key groups groupSize K (m + 1) state' := by
  obtain ⟨next, hbump, hnext⟩ := h.next.bump (hb.key_lt m hm)
  have hslot : Buckets.slot key groupSize m < state.2.length := by
    rw [h.length]
    exact hb.slot_lt hm
  refine ⟨(next, state.2.set (Buckets.slot key groupSize m) m), ?_, hnext,
    List.length_set.trans h.length, fun k hk => ?_⟩
  · rw [Quant.place, List.getElem?_map, List.getElem?_range hm, Option.map_some,
      Option.bind_eq_bind, Option.bind_some, hbump, Option.bind_eq_bind, Option.bind_some]
    exact congrArg (fun perm : Option (List ℕ) => perm.bind fun perm => some (next, perm))
      (if_pos hslot)
  · rcases Nat.lt_succ_iff_lt_or_eq.mp hk with hlt | rfl
    · rw [List.getElem?_set_ne, h.place k hlt]
      exact fun heq => hlt.ne' (hb.slot_inj hm (hlt.trans hm) heq)
    · exact List.getElem?_set_self hslot

lemma place_all (hb : Buckets.Balanced key groups groupSize K) {perm : List ℕ}
    (hperm : perm.length = K) :
    ∃ next order, (List.range K).foldlM (place ((List.range K).map key))
        ((List.range groups).map fun g => g * groupSize, perm) = some (next, order) ∧
      Buckets.Sorted key groupSize K order := by
  have hstart : Placed key groups groupSize K 0
      ((List.range groups).map fun g => g * groupSize, perm) := by
    refine ⟨⟨by rw [List.length_map, List.length_range], fun g hg => ?_⟩, hperm,
      fun k hk => absurd hk k.not_lt_zero⟩
    rw [List.getElem?_map, List.getElem?_range hg]
    rfl
  obtain ⟨⟨next, order⟩, hrun, hplaced⟩ := Loop.foldlM_range hstart
    fun k hk state h => h.step hb hk
  exact ⟨next, order, hrun, hplaced.length, hplaced.place⟩

/-- Groups of the right size are sorted. -/
lemma sortChannels_of_balanced (hb : Buckets.Balanced key groups groupSize K) {perm : List ℕ}
    (hperm : perm.length = K) :
    ∃ order, sortChannels ((List.range K).map key) groups groupSize perm = pure order ∧
      Buckets.Sorted key groupSize K order := by
  obtain ⟨counts, hcounts, hcounted⟩ := memberCounts_eq hb.key_lt
  obtain ⟨next, order, hrun, hsorted⟩ := place_all hb hperm
  refine ⟨order, ?_, hsorted⟩
  have hall : ¬(counts.any fun c => c ≠ groupSize) := by
    rw [List.any_eq_true]
    rintro ⟨c, hc, hne⟩
    obtain ⟨g, hg, rfl⟩ := List.mem_iff_getElem.mp hc
    have hglt : g < groups := hcounted.length ▸ hg
    have hentry := hcounted.entry g hglt
    rw [List.getElem?_eq_getElem hg, Option.some_inj, hb.full g hglt] at hentry
    exact of_decide_eq_true hne (hentry.trans (Nat.zero_add _))
  rw [sortChannels, hcounts]
  show (if _ then _ else _ : Checked (List ℕ)) = _
  rw [if_neg hall, List.length_map, List.length_range, hrun]
  rfl

lemma sortChannels_of_not_full (hkey : ∀ k < K, key k < groups) {g : ℕ} (hg : g < groups)
    (hne : ((List.range K).countP fun k => key k = g) ≠ groupSize) (perm : List ℕ) :
    sortChannels ((List.range K).map key) groups groupSize perm = throw .unsupported := by
  obtain ⟨counts, hcounts, hcounted⟩ := memberCounts_eq hkey
  have hany : (counts.any fun c => c ≠ groupSize) := by
    rw [List.any_eq_true]
    refine ⟨_, List.mem_of_getElem? (hcounted.entry g hg), decide_eq_true ?_⟩
    rwa [Pi.zero_apply, Nat.zero_add]
  rw [sortChannels, hcounts]
  exact if_pos hany

end Order

/-! ### GPTQ: what is accepted, and what comes of it -/

section Gptq

variable {minOf : ℤ → UInt16 → UInt16} {t : Tensors} {zeroBias : ℤ} {s : Shape 8}
  {memory : ℕ → List UInt8} {withZeros : Bool} {n : ℕ} {gIdx : Option (List ℤ)}
  {outPerm : Option (List ℕ)}

/-- The group of a channel: that of its place where there is no `g_idx`. -/
def channelGroup (s : Shape 8) (gIdx : Option (List ℤ)) (k : ℕ) : ℕ :=
  (gIdx.map fun ids => groupOf ids k).getD (k / s.groupSize)

/-- What is accepted of `g_idx`: ids in range, full groups, and a buffer for the order where it is
not that of the channels. -/
def Accepted (s : Shape 8) (gIdx : Option (List ℤ)) (outPerm : Option (List ℕ)) : Prop :=
  ∀ ids, gIdx = some ids → InRange ids s.groups ∧
    (∀ g < s.groups, ids.count (g : ℤ) = s.groupSize) ∧
    ((∀ k < s.K, groupOf ids k = k / s.groupSize) ∨ outPerm.isSome)

/-- The order of a repacked checkpoint: a stable permutation of the channels into their groups. -/
structure Reorders (group : ℕ → ℕ) (K groupSize : ℕ) (order : List ℕ) : Prop where
  perm : order.Perm (List.range K)
  grouped : ∀ j < K, ∃ k, order[j]? = some k ∧ group k = j / groupSize
  stable : ∀ i j a b, i < j → j < K → order[i]? = some a → order[j]? = some b →
    group a = group b → a < b

lemma count_eq_countP {ids : List ℤ} {groups : ℕ} (hin : InRange ids groups) (g : ℕ) :
    ids.count (g : ℤ) = (List.range ids.length).countP fun k => groupOf ids k = g := by
  have hids : ids = (List.range ids.length).map fun k => ids.getD k 0 := by
    refine List.ext_getElem (by rw [List.length_map, List.length_range]) fun k hk _ => ?_
    rw [List.getElem_map, List.getElem_range, List.getD_eq_getElem ids 0 hk]
  conv_lhs => rw [hids]
  rw [List.count, List.countP_map]
  refine List.countP_congr fun k hk => ?_
  have hlt : k < ids.length := List.mem_range.mp hk
  have hnonneg := (hin ids[k] (List.getElem_mem hlt)).1
  rw [Function.comp_apply, groupOf, List.getD_eq_getElem ids 0 hlt, beq_iff_eq, decide_eq_true_eq]
  omega

lemma groupOf_lt {ids : List ℤ} {groups k : ℕ} (hin : InRange ids groups) (hk : k < ids.length) :
    groupOf ids k < groups := by
  have hbound := hin ids[k] (List.getElem_mem hk)
  rw [groupOf, List.getD_eq_getElem ids 0 hk]
  omega

lemma balanced_of_full {ids : List ℤ} (hlen : ids.length = s.K) (hin : InRange ids s.groups)
    (hfull : ∀ g < s.groups, ids.count (g : ℤ) = s.groupSize) :
    Buckets.Balanced (groupOf ids) s.groups s.groupSize s.K := by
  refine ⟨s.groups_mul.symm, fun k hk => groupOf_lt hin (hlen.symm ▸ hk), fun g hg => ?_⟩
  rw [← hfull g hg, count_eq_countP hin, hlen]

/-- Channels in their places fill their groups. -/
lemma full_of_identity {ids : List ℤ} (hlen : ids.length = s.K) (hin : InRange ids s.groups)
    (hid : ∀ k < s.K, groupOf ids k = k / s.groupSize) {g : ℕ} (hg : g < s.groups) :
    ids.count (g : ℤ) = s.groupSize := by
  have hfull := (Buckets.balanced_div s.groupSize_pos s.groups).full g hg
  rw [s.groups_mul] at hfull
  rw [count_eq_countP hin, hlen, ← hfull]
  refine List.countP_congr fun k hk => ?_
  rw [hid k (List.mem_range.mp hk)]

lemma balanced_of_accepted (hlen : ∀ ids, gIdx = some ids → ids.length = s.K)
    (hacc : Accepted s gIdx outPerm) :
    Buckets.Balanced (channelGroup s gIdx) s.groups s.groupSize s.K := by
  cases gIdx with
  | none =>
    rw [← s.groups_mul]
    exact Buckets.balanced_div s.groupSize_pos s.groups
  | some ids =>
    obtain ⟨hin, hfull, -⟩ := hacc ids rfl
    exact balanced_of_full (hlen ids rfl) hin hfull

/-- An accepted order sorts the channels into their groups. -/
lemma channelOrder_of_accepted (hlen : ∀ ids, gIdx = some ids → ids.length = s.K)
    (hperm : ∀ perm, outPerm = some perm → perm.length = s.K) (hacc : Accepted s gIdx outPerm) :
    ∃ order, channelOrder s gIdx outPerm = pure order ∧
      Buckets.Sorted (channelGroup s gIdx) s.groupSize s.K (order.getD (List.range s.K)) := by
  have hb := balanced_of_accepted hlen hacc
  cases gIdx with
  | none => exact ⟨none, rfl, Buckets.sorted_range s.groupSize_pos fun k _ => rfl⟩
  | some ids =>
    obtain ⟨hin, -, hbuffer⟩ := hacc ids rfl
    have hids := groupIds_of_inRange hin
    rw [hlen ids rfl] at hids
    rw [channelOrder, hids, pure_bind]
    by_cases hact : ∃ k < s.K, groupOf ids k ≠ k / s.groupSize
    · obtain ⟨k, hk, hne⟩ := hact
      obtain ⟨perm, rfl⟩ :=
        Option.isSome_iff_exists.mp (hbuffer.resolve_left fun hid => hne (hid k hk))
      obtain ⟨order, hsort, hsorted⟩ := sortChannels_of_balanced hb (hperm perm rfl)
      refine ⟨some order, ?_, hsorted⟩
      rw [if_pos (actOrder_iff.mpr ⟨k, hk, hne⟩)]
      exact congrArg (some <$> ·) hsort
    · refine ⟨none, if_neg fun h => hact (actOrder_iff.mp h),
        Buckets.sorted_range s.groupSize_pos fun k hk => ?_⟩
      exact not_not.mp fun hne => hact ⟨k, hk, hne⟩

lemma channelOrder_of_not_accepted (hlen : ∀ ids, gIdx = some ids → ids.length = s.K)
    (hacc : ¬Accepted s gIdx outPerm) : channelOrder s gIdx outPerm = throw .unsupported := by
  cases gIdx with
  | none => exact absurd (fun ids h => nomatch h) hacc
  | some ids =>
    by_cases hin : InRange ids s.groups
    · have hids := groupIds_of_inRange hin
      rw [hlen ids rfl] at hids
      have hbad : ¬((∀ g < s.groups, ids.count (g : ℤ) = s.groupSize) ∧
          ((∀ k < s.K, groupOf ids k = k / s.groupSize) ∨ outPerm.isSome)) := fun h =>
        hacc fun ids' heq => by
          obtain rfl : ids = ids' := Option.some.inj heq
          exact ⟨hin, h⟩
      have hact : ∃ k < s.K, groupOf ids k ≠ k / s.groupSize := by
        by_contra hnone
        have hid : ∀ k < s.K, groupOf ids k = k / s.groupSize := fun k hk =>
          not_not.mp fun hne => hnone ⟨k, hk, hne⟩
        exact hbad ⟨fun g hg => full_of_identity (hlen ids rfl) hin hid hg, .inl hid⟩
      rw [channelOrder, hids, pure_bind, if_pos (actOrder_iff.mpr hact)]
      cases outPerm with
      | none => rfl
      | some perm =>
        have hcount : ¬∀ g < s.groups, ids.count (g : ℤ) = s.groupSize := fun hfull =>
          hbad ⟨hfull, .inr rfl⟩
        simp only [not_forall] at hcount
        obtain ⟨g, hg, hne⟩ := hcount
        rw [count_eq_countP hin, hlen ids rfl] at hne
        have hkey : ∀ k < s.K, groupOf ids k < s.groups := fun k hk =>
          groupOf_lt hin ((hlen ids rfl).symm ▸ hk)
        exact congrArg (some <$> ·) (sortChannels_of_not_full hkey hg hne perm)
    · have hids := groupIds_of_not_inRange hin
      rw [hlen ids rfl] at hids
      rw [channelOrder, hids]
      rfl

/-- The code of column `j` under an order. -/
def columnCode (t : Tensors) (s : Shape 8) (order : List ℕ) (n j : ℕ) : Option UInt8 := do
  let k ← order[j]?
  gptqCode t s.N n k

lemma gptqCode_codes (ht : t.Sized s (s.K / 8 * s.N)) (hn : n < s.N) :
    Codes (gptqCode t s.N n) s.K := by
  intro k hk
  apply exists_nibble
  rw [ht.qweight]
  exact lt_of_row (Nat.div_lt_div_of_lt_of_dvd s.K_dvd hk) hn

/-- A word holds the codes of eight channels. -/
lemma packWord_filled {code : ℕ → Option UInt8} {K r : ℕ} {w : UInt32} {packed : List UInt8}
    (hcode : ∀ j < 8, code (8 * r + j) = some (nibble w j)) (hr : 8 * (r + 1) ≤ K)
    (h : Filled code K (8 * r) packed) :
    ∃ packed', (List.range' 0 4 2).foldlM (putWordPair w r) packed = some packed' ∧
      Filled code K (8 * (r + 1)) packed' :=
  Loop.foldlM_range' (f := putWordPair w r) (P := fun j => Filled code K (8 * r + j)) 4 h
    fun i hi packed hpacked => hpacked.write (by omega) (by omega)
      (hcode (0 + 2 * i) (by omega)) (nibble_lt _ _) (hcode (0 + 2 * i + 1) (by omega))
      (nibble_lt _ _)

lemma packWords_filled (ht : t.Sized s (s.K / 8 * s.N)) (hn : n < s.N) {packed : List UInt8}
    (hlen : packed.length = s.K / 2) :
    ∃ packed', packWords t s.K s.N n packed = some packed' ∧
      Filled (gptqCode t s.N n) s.K s.K packed' := by
  have hK : 8 * (s.K / 8) = s.K := Nat.mul_div_cancel' s.K_dvd
  obtain ⟨packed', hrun, hfilled⟩ := Loop.foldlM_range
    (P := fun r => Filled (gptqCode t s.N n) s.K (8 * r))
    (f := fun packed r => do
      let w ← t.qweight[r * s.N + n]?
      (List.range' 0 4 2).foldlM (putWordPair w r) packed)
    ⟨hlen, fun k hk => absurd hk k.not_lt_zero⟩ fun r hr packed hpacked => by
      have hlt : r * s.N + n < t.qweight.length := by
        rw [ht.qweight]
        exact lt_of_row hr hn
      rw [List.getElem?_eq_getElem hlt]
      refine packWord_filled (fun j hj => ?_) (by omega) hpacked
      rw [gptqCode, Nat.mul_add_div (by decide), Nat.div_eq_of_lt hj, Nat.add_zero,
        Nat.mul_add_mod, Nat.mod_eq_of_lt hj, List.getElem?_eq_getElem hlt]
      rfl
  rw [hK] at hfilled
  exact ⟨packed', hrun, hfilled⟩

/-- Under an order the columns hold the codes of its channels. -/
lemma packPermuted_filled (ht : t.Sized s (s.K / 8 * s.N)) (hn : n < s.N) {order : List ℕ}
    (horder : ∀ j < s.K, ∃ k < s.K, order[j]? = some k) {packed : List UInt8}
    (hlen : packed.length = s.K / 2) :
    ∃ packed', packPermuted t s.K s.N n order packed = some packed' ∧
      Filled (columnCode t s order n) s.K s.K packed' := by
  have hK : 0 + 2 * (s.K / 2) = s.K := by
    have hdvd := s.K_dvd
    omega
  have hcodes : Codes (columnCode t s order n) s.K := fun j hj => by
    obtain ⟨k, hk, hj'⟩ := horder j hj
    rw [columnCode, hj']
    exact gptqCode_codes ht hn k hk
  obtain ⟨packed', hrun, hfilled⟩ := putPairs_filled hcodes (Nat.dvd_zero 2) (s.K / 2) hK.le
    ⟨hlen, fun k hk => absurd hk k.not_lt_zero⟩
  rw [hK] at hfilled
  exact ⟨packed', hrun, hfilled⟩

/-- The codes of a row, in its order. -/
lemma packChannels_filled (ht : t.Sized s (s.K / 8 * s.N)) (hn : n < s.N)
    {order : Option (List ℕ)}
    (horder : ∀ j < s.K, ∃ k < s.K, (order.getD (List.range s.K))[j]? = some k)
    {packed : List UInt8} (hlen : packed.length = s.K / 2) :
    ∃ packed', packChannels t s order n packed = some packed' ∧
      Filled (columnCode t s (order.getD (List.range s.K)) n) s.K s.K packed' := by
  cases order with
  | none =>
    obtain ⟨packed', hwords, hfilled⟩ := packWords_filled ht hn hlen
    refine ⟨packed', hwords, hfilled.length, fun j hj => ?_⟩
    rw [hfilled.codes j hj, columnCode, Option.getD_none, List.getElem?_range hj]
    rfl
  | some perm => exact packPermuted_filled ht hn horder hlen

lemma gptqRow_isRow (ht : t.Sized s (s.K / 8 * s.N)) (hmem : (memory n).length = s.K / 2)
    (hn : n < s.N) {order : Option (List ℕ)}
    (horder : ∀ j < s.K, ∃ k < s.K, (order.getD (List.range s.K))[j]? = some k) :
    ∃ row, gptqRow minOf t zeroBias s memory withZeros order n = some row ∧
      IsRow minOf t zeroBias s (columnCode t s (order.getD (List.range s.K)) n) (n % 8) n
        withZeros row := by
  have hstart : (emptyRow (memory n) withZeros).packed = memory n ∧
      GroupsOf minOf t zeroBias s.N (n % 8) n 0 withZeros (emptyRow (memory n) withZeros) :=
    ⟨rfl, groupsOf_emptyRow _ _ _ _ _⟩
  have hstep : ∀ g < s.groups, ∀ row : Row, (row.packed = memory n ∧
        GroupsOf minOf t zeroBias s.N (n % 8) n g withZeros row) →
      ∃ row', putGroup minOf t zeroBias s.N (n % 8) n row g = some row' ∧
        row'.packed = memory n ∧
        GroupsOf minOf t zeroBias s.N (n % 8) n (g + 1) withZeros row' := by
    rintro g hg row ⟨hpacked, hgroups⟩
    obtain ⟨row', hput, hsame, hgroups'⟩ := putGroup_groupsOf ht hn hg hgroups
    exact ⟨row', hput, hsame.trans hpacked, hgroups'⟩
  obtain ⟨row, hrow, hpacked, hgroups⟩ := Loop.foldlM_range hstart hstep
  obtain ⟨packed, hrun, hfilled⟩ :=
    packChannels_filled ht hn horder ((congrArg List.length hpacked).trans hmem)
  refine ⟨{ row with packed }, ?_, hfilled, ⟨hgroups.scales, hgroups.mins, hgroups.zeros_isSome,
    hgroups.zeros⟩⟩
  rw [gptqRow, hrow, Option.bind_eq_bind, Option.bind_some, hrun]
  rfl

lemma reorders_of_sorted {key : ℕ → ℕ} {count size K : ℕ} {order : List ℕ}
    (hb : Buckets.Balanced key count size K) (hs : Buckets.Sorted key size K order) :
    Reorders key K size order := by
  refine ⟨hs.perm, fun j hj => ?_, fun i j a b hij hj ha hb' hkey =>
    hs.stable hb hij hj ha hb' hkey⟩
  obtain ⟨k, -, hentry, -, hgroup⟩ := hs.getElem? hb hj
  exact ⟨k, hentry, hgroup⟩

/-- GPTQ repacking accepts an absent `g_idx` and one with ids in range and full groups, where an
order other than that of the channels also needs a buffer. The rows it then gives are those of the
stable order of the channels by group, which the buffer receives. -/
theorem gptq_repack_iff {K N groupSize : ℤ} (hs : shape 8 K N groupSize = .ok s)
    (ht : t.Sized s (s.K / 8 * s.N)) (hmem : ∀ n < s.N, (memory n).length = s.K / 2)
    (hlen : ∀ ids, gIdx = some ids → ids.length = s.K)
    (hperm : ∀ perm, outPerm = some perm → perm.length = s.K) :
    ((∃ result, gptqRepack minOf t zeroBias K N groupSize gIdx memory withZeros outPerm =
      pure result) ↔ Accepted s gIdx outPerm) ∧
    ∀ rows perm, gptqRepack minOf t zeroBias K N groupSize gIdx memory withZeros outPerm =
      pure (rows, perm) → ∃ order, Reorders (channelGroup s gIdx) s.K s.groupSize order ∧
        (perm = outPerm.map fun _ => order) ∧ rows.length = s.N ∧
        ∀ n < s.N, ∃ row, rows[n]? = some row ∧
          IsRow minOf t zeroBias s (columnCode t s order n) (n % 8) n withZeros row := by
  by_cases hacc : Accepted s gIdx outPerm
  · have hb := balanced_of_accepted hlen hacc
    obtain ⟨order, horder, hsorted⟩ := channelOrder_of_accepted hlen hperm hacc
    have hentry : ∀ j < s.K, ∃ k < s.K, (order.getD (List.range s.K))[j]? = some k := by
      intro j hj
      obtain ⟨k, hk, hentry, -⟩ := hsorted.getElem? hb hj
      exact ⟨k, hk, hentry⟩
    have hrow : ∀ n < s.N, ∃ row,
        gptqRow minOf t zeroBias s memory withZeros order n = some row ∧
          IsRow minOf t zeroBias s (columnCode t s (order.getD (List.range s.K)) n) (n % 8) n
            withZeros row :=
      fun n hn => gptqRow_isRow ht (hmem n hn) hn hentry
    obtain ⟨rows, hrows, hcount, hall⟩ := Loop.mapM_range hrow
    have hrun : gptqRepack minOf t zeroBias K N groupSize gIdx memory withZeros outPerm =
        pure (rows, outPerm.map fun _ => order.getD (List.range s.K)) := by
      rw [gptqRepack, hs]
      show (channelOrder s gIdx outPerm >>= _) = _
      rw [horder, pure_bind, hrows]
      rfl
    refine ⟨iff_of_true ⟨_, hrun⟩ hacc, fun rows' perm' hrun' => ?_⟩
    rw [hrun] at hrun'
    cases hrun'
    exact ⟨_, reorders_of_sorted hb hsorted, rfl, hcount, hall⟩
  · have hrun : gptqRepack minOf t zeroBias K N groupSize gIdx memory withZeros outPerm =
        throw .unsupported := by
      rw [gptqRepack, hs]
      show (channelOrder s gIdx outPerm >>= _) = _
      rw [channelOrder_of_not_accepted hlen hacc]
      rfl
    rw [hrun]
    exact ⟨iff_of_false (fun ⟨_, h⟩ => nomatch h) hacc, fun _ _ h => nomatch h⟩

theorem gptq_repack_iff_sample :
    ∃ s, shape 8 8 8 4 = .ok s ∧ ∃ rows order, gptqRepack (fun _ sc => sc)
        ⟨List.replicate 8 0x76543210, [0, 0], List.replicate 16 0⟩ 1 8 8 4
        (some [1, 1, 1, 1, 0, 0, 0, 0]) (fun _ => List.replicate 4 0) true
        (some (List.replicate 8 0)) = pure (rows, some order) ∧
      Reorders (channelGroup s (some [1, 1, 1, 1, 0, 0, 0, 0])) s.K s.groupSize order := by
  obtain ⟨⟨-, haccepts⟩, hresult⟩ := @gptq_repack_iff (fun _ sc => sc)
    ⟨List.replicate 8 0x76543210, [0, 0], List.replicate 16 0⟩ 1 _ (fun _ => List.replicate 4 0)
    true (some [1, 1, 1, 1, 0, 0, 0, 0]) (some (List.replicate 8 0)) 8 8 4 rfl ⟨rfl, rfl, rfl⟩
    (fun _ _ => rfl) (by rintro _ ⟨⟩; rfl) (by rintro _ ⟨⟩; rfl)
  obtain ⟨⟨rows, perm⟩, hrun⟩ := haccepts (by
    rintro _ ⟨⟩
    refine ⟨?_, ?_, .inr rfl⟩
    · unfold InRange
      decide
    · decide)
  obtain ⟨order, hreorders, rfl, -⟩ := hresult rows perm hrun
  exact ⟨_, rfl, rows, order, hrun, hreorders⟩

/-- Two full groups out of order and no buffer for the order. -/
theorem act_order_without_buffer :
    InRange [1, 1, 1, 1, 0, 0, 0, 0] 2 ∧
    (∀ g : ℕ, g < 2 → List.count (g : ℤ) [1, 1, 1, 1, 0, 0, 0, 0] = 4) ∧
    gptqRepack (fun _ sc => sc) ⟨List.replicate 8 0x76543210, [0, 0], List.replicate 16 0⟩ 1 8 8 4
      (some [1, 1, 1, 1, 0, 0, 0, 0]) (fun _ => List.replicate 4 0) true none =
        throw .unsupported := by
  refine ⟨?_, ?_, rfl⟩
  · unfold InRange
    decide
  · decide

end Gptq

end VibeVoice.Quant
