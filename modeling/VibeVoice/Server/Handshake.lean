import Mathlib.Data.List.GetD
import VibeVoice.Lib.Base64
import VibeVoice.Lib.Sha1
import VibeVoice.Model.Cjson

/-!
The handshake of a websocket: `vv_sha1`, `vv_base64_encode` and `vv_ws_accept_key` of `ws.c`.

* `sha1Block_eq`: a block of the code is one of FIPS 180-4.
* `pad_bitsOf`: the padded message in bytes, for every length.
* `bitsOf_sha1`: the digest of every message whose length fits its 64 bits.
* `decode_base64Encode`, `length_base64Encode`: the encoder against the decoder of RFC 4648.
* `handshake_right`: the accept key.
-/

namespace VibeVoice.Handshake

open Fips180 Pieces

/-! ### SHA-1 -/

/-- `rol32`. -/
def rol32 (x n : UInt32) : UInt32 := (x <<< n) ||| (x >>> (32 - n))

/-- The words of a block: `w[0]` to `w[15]`. -/
def loadWords (b : List UInt8) : List UInt32 :=
  (List.range 16).map fun i =>
    (b.getD (4 * i) 0).toUInt32 <<< 24 ||| (b.getD (4 * i + 1) 0).toUInt32 <<< 16 |||
      (b.getD (4 * i + 2) 0).toUInt32 <<< 8 ||| (b.getD (4 * i + 3) 0).toUInt32

/-- `w[i]` behind the words in front of it. -/
def extend (w : List UInt32) (i : ℕ) : List UInt32 :=
  w ++ [rol32 (w.getD (i - 3) 0 ^^^ w.getD (i - 8) 0 ^^^ w.getD (i - 14) 0 ^^^ w.getD (i - 16) 0) 1]

/-- The words `w[0]` to `w[79]`. -/
def expand (b : List UInt8) : List UInt32 := (List.range' 16 64).foldl extend (loadWords b)

/-- `f` and `k` of round `i`. -/
def roundFK (i : ℕ) (bb c d : UInt32) : UInt32 × UInt32 :=
  if i < 20 then ((bb &&& c) ||| (~~~bb &&& d), 0x5A827999)
  else if i < 40 then (bb ^^^ c ^^^ d, 0x6ED9EBA1)
  else if i < 60 then ((bb &&& c) ||| (bb &&& d) ||| (c &&& d), 0x8F1BBCDC)
  else (bb ^^^ c ^^^ d, 0xCA62C1D6)

/-- Round `i`. -/
def sha1Round (w : List UInt32) (v : Words) (i : ℕ) : Words :=
  let (f, k) := roundFK i v.b v.c v.d
  let t := rol32 v.a 5 + f + v.e + k + w.getD i 0
  ⟨t, v.a, rol32 v.b 30, v.c, v.d⟩

/-- `sha1_block`, on the 64 bytes at `b`. -/
def sha1Block (h : Words) (b : List UInt8) : Words :=
  let v := (List.range 80).foldl (sha1Round (expand b)) h
  ⟨h.a + v.a, h.b + v.b, h.c + v.c, h.d + v.d, h.e + v.e⟩

/-- `while (left >= 64)`: the hash and the bytes that are left. -/
def sha1Blocks : ℕ → Words → List UInt8 → Words × List UInt8
  | 0, h, p => (h, p)
  | fuel + 1, h, p =>
    if 64 ≤ p.length then sha1Blocks fuel (sha1Block h p) (p.drop 64) else (h, p)

/-- `tl` -/
def tailLength (left : ℕ) : ℕ := if left + 9 ≤ 64 then 64 else 128

/-- `tail`, with the last bytes of a message of `n` bytes. -/
def tailOf (left : List UInt8) (n : ℕ) : List UInt8 :=
  let tail := (left ++ List.replicate (128 - left.length) 0).set left.length 0x80
  let bits : UInt64 := UInt64.ofNat n * 8
  (List.range 8).foldl (fun tail i =>
    tail.set (tailLength left.length - 1 - i) (bits >>> UInt64.ofNat (8 * i)).toUInt8) tail

/-- `vv_sha1`. -/
def sha1 (data : List UInt8) : List UInt8 :=
  let (h, left) := sha1Blocks data.length initial data
  let tail := tailOf left data.length
  let h := sha1Block h tail
  let h := if tailLength left.length = 128 then sha1Block h (tail.drop 64) else h
  [h.a, h.b, h.c, h.d, h.e].flatMap fun (w : UInt32) =>
    [(w >>> 24).toUInt8, (w >>> 16).toUInt8, (w >>> 8).toUInt8, w.toUInt8]

/-! ### Base64 and the accept key -/

/-- `tab` -/
def tab : List UInt8 := literal "ABCDEFGHIJKLMNOPQRSTUVWXYZabcdefghijklmnopqrstuvwxyz0123456789+/"

/-- One pass of the loop: the characters of up to three bytes. -/
def quad (a : UInt8) (b c : Option UInt8) : List UInt8 :=
  let high : UInt32 := b.elim 0 fun b => b.toUInt32 <<< 8
  let low : UInt32 := c.elim 0 UInt8.toUInt32
  let v := a.toUInt32 <<< 16 ||| high ||| low
  [tab.getD (v >>> 18 &&& 63).toNat 0, tab.getD (v >>> 12 &&& 63).toNat 0,
    if b.isSome then tab.getD (v >>> 6 &&& 63).toNat 0 else 0x3D,
    if c.isSome then tab.getD (v &&& 63).toNat 0 else 0x3D]

/-- `vv_base64_encode`. -/
def base64Encode : List UInt8 → List UInt8
  | [] => []
  | [a] => quad a none none
  | [a, b] => quad a (some b) none
  | a :: b :: c :: s => quad a (some b) (some c) ++ base64Encode s

/-- `guid` -/
def guid : List UInt8 := literal "258EAFA5-E914-47DA-95CA-C5AB0DC85B11"

/-- `vv_ws_accept_key`; a key that is `NULL` is an empty one. -/
def acceptKey (clientKey : List UInt8) : Option (List UInt8) :=
  if clientKey = [] ∨ 64 < clientKey.length then none
  else some (base64Encode (sha1 (clientKey ++ guid)))

-- the example of RFC 6455
example : acceptKey (literal "dGhlIHNhbXBsZSBub25jZQ==") =
    some (literal "s3pPLMBiTxaQ9kYGzzhZRbK+xOo=") := by decide +kernel

/-! ### A block -/

/-- The words of a block of FIPS 180-4. -/
def wordsOf (b : List UInt8) : List UInt32 := (pieces 32 (bitsOf b)).map word

/-- Four bytes of a list. -/
lemma take_four {b : List UInt8} {i : ℕ} (h : i + 4 ≤ b.length) :
    (b.drop i).take 4 =
      [b.getD i 0, b.getD (i + 1) 0, b.getD (i + 2) 0, b.getD (i + 3) 0] := by
  rw [List.drop_eq_getElem_cons (by omega), List.drop_eq_getElem_cons (by omega),
    List.drop_eq_getElem_cons (by omega), List.drop_eq_getElem_cons (by omega)]
  simp only [List.take_succ_cons, List.take_zero]
  rw [List.getD_eq_getElem _ _ (by omega), List.getD_eq_getElem _ _ (by omega),
    List.getD_eq_getElem _ _ (by omega), List.getD_eq_getElem _ _ (by omega)]

lemma loadWords_eq {b : List UInt8} (h : 64 ≤ b.length) : loadWords b = wordsOf (b.take 64) := by
  have hlen : (b.take 64).length = 64 := by rw [List.length_take]; omega
  have hpieces := pieces_bitsOf 4 (b.take 64)
  rw [wordsOf, hpieces, pieces, hlen, List.map_map, List.map_map, loadWords]
  refine List.map_congr_left fun i hi => ?_
  have hlt := List.mem_range.mp hi
  have hget : ∀ j < 64, (b.take 64).getD j 0 = b.getD j 0 := by
    intro j hj
    rw [List.getD_eq_getElem?_getD, List.getD_eq_getElem?_getD, List.getElem?_take_of_lt hj]
  rw [Function.comp_apply, Function.comp_apply, take_four (by omega), word_bitsOf,
    hget _ (by omega), hget _ (by omega), hget _ (by omega), hget _ (by omega)]

/-- The words of the code are the message schedule. -/
lemma expand_getD {b : List UInt8} (h : 64 ≤ b.length) {t : ℕ} (ht : t < 80) :
    (expand b).getD t 0 = schedule (wordsOf (b.take 64)) t := by
  -- what is there after `k` more words
  have hloop : ∀ k, ((List.range' 16 k).foldl extend (loadWords b)).length = 16 + k ∧
      ∀ t < 16 + k, ((List.range' 16 k).foldl extend (loadWords b)).getD t 0 =
        schedule (wordsOf (b.take 64)) t := by
    intro k
    induction k with
    | zero =>
      refine ⟨by simp [loadWords], fun t ht => ?_⟩
      rw [schedule, if_pos ht, List.range'_zero, List.foldl_nil, loadWords_eq h]
    | succ k ih =>
      obtain ⟨hlen, hget⟩ := ih
      rw [List.range'_concat, List.foldl_append, List.foldl_cons, List.foldl_nil, extend, one_mul]
      refine ⟨by rw [List.length_append, hlen, List.length_singleton, Nat.add_assoc],
        fun t ht => ?_⟩
      by_cases hold : t < 16 + k
      · rw [List.getD_append _ _ _ _ (by omega), hget t hold]
      · obtain rfl : t = 16 + k := by omega
        conv_rhs => rw [schedule, if_neg (by omega)]
        rw [List.getD_append_right _ _ _ _ (by omega), hlen, Nat.sub_self, List.getD_cons_zero,
          hget _ (by omega), hget _ (by omega), hget _ (by omega), hget _ (by omega)]
        rfl
  exact (hloop 64).2 t ht

/-- `Ch`, with an or of two words that have no bit in common. -/
lemma ch_eq (x y z : UInt32) : (x &&& y) ||| (~~~x &&& z) = ch x y z := by
  rw [ch, ← UInt32.toBitVec_inj]
  ext i hi
  simp only [UInt32.toBitVec_or, UInt32.toBitVec_and, UInt32.toBitVec_not, UInt32.toBitVec_xor,
    BitVec.getElem_or, BitVec.getElem_and, BitVec.getElem_not, BitVec.getElem_xor]
  cases x.toBitVec[i] <;> simp

/-- `Maj`, with ors. -/
lemma maj_eq (x y z : UInt32) : (x &&& y) ||| (x &&& z) ||| (y &&& z) = maj x y z := by
  rw [maj, ← UInt32.toBitVec_inj]
  ext i hi
  simp only [UInt32.toBitVec_or, UInt32.toBitVec_and, UInt32.toBitVec_xor,
    BitVec.getElem_or, BitVec.getElem_and, BitVec.getElem_xor]
  cases x.toBitVec[i] <;> cases y.toBitVec[i] <;> cases z.toBitVec[i] <;> rfl

lemma roundFK_eq (i : ℕ) (bb c d : UInt32) : roundFK i bb c d = (f i bb c d, k i) := by
  rw [roundFK, f, k, ch_eq, maj_eq]
  split_ifs <;> rfl

/-- A block of the code is one of the standard. -/
theorem sha1Block_eq (h : Words) {b : List UInt8} (hb : 64 ≤ b.length) :
    sha1Block h b = compress h (wordsOf (b.take 64)) := by
  have hrounds : (List.range 80).foldl (sha1Round (expand b)) h =
      (List.range 80).foldl (fun v t => round t (schedule (wordsOf (b.take 64)) t) v) h := by
    refine List.foldl_ext _ _ _ fun v t ht => ?_
    rw [sha1Round, roundFK_eq, expand_getD hb (List.mem_range.mp ht)]
    rfl
  rw [sha1Block, compress, hrounds]

/-! ### The padded message -/

/-- The blocks of a byte string, one after the other. -/
def hashOf (h : Words) (bytes : List UInt8) : Words :=
  (pieces 64 bytes).foldl (fun h b => compress h (wordsOf b)) h

/-- `while (left >= 64)` takes the complete blocks. -/
lemma sha1Blocks_eq (fuel : ℕ) (h : Words) {p : List UInt8} (hfuel : p.length ≤ fuel) :
    sha1Blocks fuel h p = (hashOf h p, leftover 64 p) := by
  induction fuel generalizing h p with
  | zero =>
    have hshort : p.length < 64 := by omega
    rw [hashOf, pieces_short hshort, leftover_short hshort]
    rfl
  | succ fuel ih =>
    rw [sha1Blocks]
    split_ifs with hle
    · rw [ih _ (by rw [List.length_drop]; omega), sha1Block_eq h hle, hashOf, hashOf,
        pieces_eq_cons (by omega) hle, List.foldl_cons, ← leftover_drop (by omega) hle]
    · rw [hashOf, pieces_short (by omega), leftover_short (by omega)]
      rfl

/-- The bytes behind a message of `n` bytes. -/
def paddingOf (n : ℕ) : List UInt8 :=
  0x80 :: (List.replicate ((119 - n % 64) % 64) (0 : UInt8) ++
    (List.range 8).map fun i => UInt8.ofNat ((8 * n) >>> (8 * (8 - 1 - i))))

/-- The padded message in bytes. -/
theorem pad_bitsOf (data : List UInt8) :
    pad (bitsOf data) = bitsOf (data ++ paddingOf data.length) := by
  have hone : bitsOfNat 8 (0x80 : UInt8).toNat = true :: List.replicate 7 false := by decide
  have hzeros : (959 - 8 * data.length % 512) % 512 = 7 + 8 * ((119 - data.length % 64) % 64) := by
    omega
  rw [pad, paddingOf, bitsOf_append, bitsOf_cons, bitsOf_append, bitsOf_replicate,
    bitsOf_bigEndian, hone, length_bitsOf, hzeros, ← List.replicate_append_replicate]
  simp only [List.cons_append, List.append_assoc]

/-- The hash of the standard, block by block of bytes. -/
lemma foldl_blocks (bytes : List UInt8) (h : Words) :
    (blocks (bitsOf bytes)).foldl compress h = hashOf h bytes := by
  have hpieces := pieces_bitsOf 64 bytes
  rw [blocks, hashOf, hpieces, List.map_map, List.foldl_map]
  rfl

/-! ### The tail -/

/-- Eight bytes written in reverse order. -/
lemma foldl_set_eight (x y : List UInt8) (v : ℕ → UInt8) :
    (List.range 8).foldl (fun t i => t.set (x.length + 8 - 1 - i) (v i))
        (x ++ (List.replicate 8 0 ++ y)) =
      x ++ ((List.range 8).map (fun i => v (8 - 1 - i)) ++ y) := by
  have hset : ∀ (z : List UInt8) (j : ℕ) (b : UInt8),
      (x ++ z).set (x.length + j) b = x ++ z.set j b := by
    intro z j b
    rw [List.set_append_right _ _ (Nat.le_add_right _ _), Nat.add_sub_cancel_left]
  have hindex : ∀ i, i < 8 → x.length + 8 - 1 - i = x.length + (7 - i) := fun i hi => by omega
  simp only [List.range_succ, List.range_zero, List.nil_append, List.cons_append,
    List.foldl_cons, List.foldl_nil]
  rw [hindex 0 (by omega), hindex 1 (by omega), hindex 2 (by omega), hindex 3 (by omega),
    hindex 4 (by omega), hindex 5 (by omega), hindex 6 (by omega), hindex 7 (by omega)]
  simp only [hset]
  rfl

/-- The length in bits, as long as it fits. -/
lemma shiftRight_toUInt8 {n : ℕ} (hn : n < 2 ^ 61) {i : ℕ} (hi : i < 8) :
    ((UInt64.ofNat n * 8) >>> UInt64.ofNat (8 * i)).toUInt8 =
      UInt8.ofNat ((8 * n) >>> (8 * i)) := by
  have height : (8 : UInt64).toNat = 8 := rfl
  have hbits : (UInt64.ofNat n * 8).toNat = 8 * n := by
    rw [UInt64.toNat_mul, UInt64.toNat_ofNat', height, Nat.mod_eq_of_lt (a := n) (by omega),
      Nat.mod_eq_of_lt (by omega), Nat.mul_comm]
  rw [← UInt8.toNat_inj, UInt64.toNat_toUInt8, UInt64.toNat_shiftRight, hbits,
    UInt64.toNat_ofNat', UInt8.toNat_ofNat', Nat.mod_eq_of_lt (a := 8 * i) (by omega),
    Nat.mod_eq_of_lt (a := 8 * i) (by omega)]

/-- The tail holds the last bytes of the message and the padding. -/
lemma tailOf_eq {left : List UInt8} (hleft : left.length < 64) {n : ℕ} (hn : n < 2 ^ 61)
    (hmod : n % 64 = left.length) :
    ∃ y, tailOf left n = left ++ paddingOf n ++ y ∧
      (left ++ paddingOf n).length = tailLength left.length := by
  -- in front of the length stand the bytes, the one and the zeros
  set z := (119 - n % 64) % 64 with hz
  set x := left ++ 0x80 :: List.replicate z 0 with hx
  have hxlen : x.length + 8 = tailLength left.length := by
    rw [hx, List.length_append, List.length_cons, List.length_replicate, tailLength, hz, hmod]
    split_ifs <;> omega
  have hroom : tailLength left.length ≤ 128 := by
    rw [tailLength]
    split_ifs <;> omega
  have hstart : (left ++ List.replicate (128 - left.length) (0 : UInt8)).set left.length 0x80 =
      x ++ (List.replicate 8 0 ++ List.replicate (128 - tailLength left.length) 0) := by
    have hcount : 128 - left.length = z + (8 + (128 - tailLength left.length)) + 1 := by
      rw [hx, List.length_append, List.length_cons, List.length_replicate] at hxlen
      omega
    rw [List.set_append_right _ _ le_rfl, Nat.sub_self, hcount, List.replicate_succ,
      List.set_cons_zero, hx, List.append_assoc, List.cons_append,
      List.replicate_append_replicate, List.replicate_append_replicate]
  have hlength : (List.range 8).map (fun i =>
        ((UInt64.ofNat n * 8) >>> UInt64.ofNat (8 * (8 - 1 - i))).toUInt8) =
      (List.range 8).map fun i => UInt8.ofNat ((8 * n) >>> (8 * (8 - 1 - i))) :=
    List.map_congr_left fun i _ => shiftRight_toUInt8 hn (by omega)
  have htail : x ++ (List.range 8).map (fun i => UInt8.ofNat ((8 * n) >>> (8 * (8 - 1 - i)))) =
      left ++ paddingOf n := by
    rw [paddingOf, hx, List.append_assoc, List.cons_append]
  refine ⟨List.replicate (128 - tailLength left.length) 0, ?_, ?_⟩
  · have hfill := foldl_set_eight x (List.replicate (128 - tailLength left.length) 0)
      fun i => ((UInt64.ofNat n * 8) >>> UInt64.ofNat (8 * i)).toUInt8
    rw [tailOf, ← hxlen, hstart]
    rw [hxlen]
    rw [hxlen] at hfill
    rw [hfill, hlength, ← List.append_assoc, htail]
  · rw [← htail, List.length_append, List.length_map, List.length_range, hxlen]

/-- The bytes of a word, most significant first. -/
lemma bitsOf_word (w : UInt32) :
    bitsOf [(w >>> 24).toUInt8, (w >>> 16).toUInt8, (w >>> 8).toUInt8, w.toUInt8] =
      bitsOfNat 32 w.toNat := by
  rw [← bitsOf_bigEndian 4 w.toNat]
  rfl

/-- The one or two blocks of the tail. -/
lemma hashOf_tail (h : Words) {p : List UInt8} (y : List UInt8) {tl : ℕ} (hp : p.length = tl)
    (htl : tl = 64 ∨ tl = 128) :
    (if tl = 128 then sha1Block (sha1Block h (p ++ y)) ((p ++ y).drop 64)
      else sha1Block h (p ++ y)) = hashOf h p := by
  have hlong : 64 ≤ p.length := by omega
  have hlen : (p ++ y).length = p.length + y.length := List.length_append
  have hfirst : sha1Block h (p ++ y) = compress h (wordsOf (p.take 64)) := by
    rw [sha1Block_eq h (by omega), List.take_append_of_le_length hlong]
  have hdrop : (p.drop 64).length = tl - 64 := by rw [List.length_drop, hp]
  rw [hfirst, hashOf, pieces_eq_cons (by omega) hlong, List.foldl_cons]
  rcases htl with rfl | rfl
  · rw [if_neg (by decide), pieces_short (by omega), List.foldl_nil]
  · have hend : ((p.drop 64).drop 64).length < 64 := by
      rw [List.length_drop, hdrop]
      decide
    have hrest : 64 ≤ (p.drop 64 ++ y).length := by
      rw [List.length_append]
      omega
    rw [if_pos rfl, List.drop_append_of_le_length hlong, sha1Block_eq _ hrest,
      List.take_append_of_le_length (by omega), pieces_eq_cons (by omega) (by omega),
      List.foldl_cons, pieces_short hend, List.foldl_nil]

/-- SHA-1 of every message whose length in bits fits. -/
theorem bitsOf_sha1 {data : List UInt8} (hlen : data.length < 2 ^ 61) :
    bitsOf (sha1 data) = Fips180.sha1 (bitsOf data) := by
  have hleft := length_leftover (k := 64) (by omega) data
  have hmod : data.length % 64 = (leftover 64 data).length := by
    rw [leftover, List.length_drop]
    omega
  obtain ⟨y, htail, htl⟩ := tailOf_eq hleft hlen hmod
  have htwo : tailLength (leftover 64 data).length = 64 ∨
      tailLength (leftover 64 data).length = 128 := by
    rw [tailLength]
    split_ifs
    · exact .inl rfl
    · exact .inr rfl
  have hhash : hashOf initial (data ++ paddingOf data.length) =
      hashOf (hashOf initial data) (leftover 64 data ++ paddingOf data.length) := by
    rw [hashOf, pieces_append (by omega), List.foldl_append]
    rfl
  rw [Fips180.sha1, pad_bitsOf, foldl_blocks, hhash, ← hashOf_tail _ y htl htwo, sha1,
    sha1Blocks_eq _ _ le_rfl]
  dsimp only
  rw [htail, Words.bits]
  simp only [List.flatMap_cons, List.flatMap_nil, bitsOf_append, bitsOf_word, bitsOf_nil]

/-! ### Base64 -/

/-- Each character of the table is the digit of its place. -/
lemma digit_tab {d : ℕ} (hd : d < 64) :
    Base64.digit (tab.getD d 0) = some d ∧ tab.getD d 0 ≠ Base64.padding := by
  have htab : ∀ d : Fin 64,
      Base64.digit (tab.getD d 0) = some d.val ∧ tab.getD d 0 ≠ Base64.padding := by
    decide +kernel
  exact htab ⟨d, hd⟩

/-- The digits of a group of 24 bits. -/
lemma toNat_shiftRight_and (v : UInt32) {n : UInt32} (hn : n.toNat < 32) :
    (v >>> n &&& 63).toNat = v.toNat / 2 ^ n.toNat % 64 := by
  rw [UInt32.toNat_and, UInt32.toNat_shiftRight, Nat.mod_eq_of_lt hn, Nat.shiftRight_eq_div_pow]
  exact Nat.and_two_pow_sub_one_eq_mod _ 6

/-- Three bytes in a word. -/
lemma toNat_quad (a b c : UInt8) :
    (a.toUInt32 <<< 16 ||| b.toUInt32 <<< 8 ||| c.toUInt32).toNat =
      (a.toNat * 256 + b.toNat) * 256 + c.toNat := by
  have hbytes := toNat_bytes 0 a b c
  have hzero : (0 : UInt8).toUInt32 <<< 24 ||| a.toUInt32 <<< 16 ||| b.toUInt32 <<< 8 |||
      c.toUInt32 = a.toUInt32 <<< 16 ||| b.toUInt32 <<< 8 ||| c.toUInt32 := by
    rw [show (0 : UInt8).toUInt32 <<< 24 = 0 from rfl, UInt32.zero_or]
  rw [hzero, show (0 : UInt8).toNat = 0 from rfl, Nat.zero_mul, Nat.zero_add] at hbytes
  exact hbytes

/-- The value of the four digits of 24 bits. -/
lemma value_digits {n : ℕ} (hn : n < 2 ^ 24) :
    Base64.value [n / 2 ^ 18 % 64, n / 2 ^ 12 % 64, n / 2 ^ 6 % 64, n % 64] = n := by
  simp only [Base64.value, List.foldl_cons, List.foldl_nil]
  omega

/-- The bytes of 24 bits. -/
lemma group_three (a b c : UInt8) (n : ℕ) (hn : n = (a.toNat * 256 + b.toNat) * 256 + c.toNat) :
    [UInt8.ofNat (n >>> 16), UInt8.ofNat (n >>> 8), UInt8.ofNat n] = [a, b, c] := by
  have ha := a.toNat_lt
  have hb := b.toNat_lt
  have hc := c.toNat_lt
  simp only [List.cons.injEq, and_true, ← UInt8.toNat_inj, UInt8.toNat_ofNat',
    Nat.shiftRight_eq_div_pow]
  omega

/-- The character of a digit. -/
def charOf (d : ℕ) : UInt8 := tab.getD d 0

/-- The characters of a group, by the number that its bytes make. -/
lemma quad_eq (a : UInt8) (b c : Option UInt8) {n : ℕ}
    (hn : n = (a.toNat * 256 + (b.getD 0).toNat) * 256 + (c.getD 0).toNat) :
    quad a b c = [charOf (n / 2 ^ 18 % 64), charOf (n / 2 ^ 12 % 64),
      if b.isSome then charOf (n / 2 ^ 6 % 64) else Base64.padding,
      if c.isSome then charOf (n % 64) else Base64.padding] := by
  have hhigh : (b.elim 0 fun b => b.toUInt32 <<< 8 : UInt32) = (b.getD 0).toUInt32 <<< 8 := by
    cases b <;> rfl
  have hlow : (c.elim 0 UInt8.toUInt32 : UInt32) = (c.getD 0).toUInt32 := by cases c <;> rfl
  have hv := toNat_quad a (b.getD 0) (c.getD 0)
  rw [← hn] at hv
  have hlast := UInt32.toNat_and (a.toUInt32 <<< 16 ||| (b.getD 0).toUInt32 <<< 8 |||
    (c.getD 0).toUInt32) 63
  rw [hv, show (63 : UInt32).toNat = 63 from rfl] at hlast
  rw [quad, hhigh, hlow, toNat_shiftRight_and _ (by decide), toNat_shiftRight_and _ (by decide),
    toNat_shiftRight_and _ (by decide), hlast, hv, Nat.and_two_pow_sub_one_eq_mod n 6]
  rfl

/-- The characters of a group are decoded to its bytes, with padding at the end of a text. -/
lemma decodeGroup_quad (a : UInt8) (b c : Option UInt8) (hbc : b = none → c = none) (last : Bool)
    (hlast : c = none → last = true) :
    ∃ w x y z, quad a b c = [w, x, y, z] ∧
      Base64.decodeGroup last w x y z = some (a :: (b.toList ++ c.toList)) := by
  set n := (a.toNat * 256 + (b.getD 0).toNat) * 256 + (c.getD 0).toNat with hn
  have ha := a.toNat_lt
  have hb := (b.getD 0).toNat_lt
  have hc := (c.getD 0).toNat_lt
  have hgroup := group_three a (b.getD 0) (c.getD 0) n hn
  have hvalue := value_digits (n := n) (by omega)
  have hdigit : ∀ d, Base64.digit (charOf (d % 64)) = some (d % 64) := fun d =>
    (digit_tab (Nat.mod_lt d (by decide))).1
  have hpad : ∀ d, charOf (d % 64) ≠ Base64.padding := fun d =>
    (digit_tab (Nat.mod_lt d (by decide))).2
  refine ⟨_, _, _, _, quad_eq a b c hn, ?_⟩
  cases c with
  | some c =>
    cases b with
    | none => cases hbc rfl
    | some b =>
      simp only [Option.isSome_some, if_true, Base64.decodeGroup, hpad, and_false, if_false,
        hdigit, hvalue, Base64.group]
      exact congrArg some hgroup
  | none =>
    cases b with
    | some b =>
      have hzero : n % 64 = 0 := by
        change n = (a.toNat * 256 + b.toNat) * 256 + 0 at hn
        omega
      rw [hzero] at hvalue
      simp only [Option.isSome_some, Option.isSome_none, if_true, Bool.false_eq_true, if_false,
        Base64.decodeGroup, hpad, hlast rfl, and_true, and_false, hdigit, hvalue,
        Base64.group]
      exact congrArg some (congrArg (List.take 2) hgroup)
    | none =>
      have hzero : n % 64 = 0 ∧ n / 2 ^ 6 % 64 = 0 := by
        change n = (a.toNat * 256 + 0) * 256 + 0 at hn
        omega
      rw [hzero.1, hzero.2] at hvalue
      simp only [Option.isSome_none, Bool.false_eq_true, if_false, Base64.decodeGroup,
        hlast rfl, and_self, if_true, hdigit, hvalue, Base64.group]
      exact congrArg some (congrArg (List.take 1) hgroup)

/-- A group in front of a text. -/
lemma decode_quad (a : UInt8) (b c : Option UInt8) (hbc : b = none → c = none) {s r : List UInt8}
    (hlast : c = none → s = []) (hs : Base64.decode s = some r) :
    Base64.decode (quad a b c ++ s) = some (a :: (b.toList ++ c.toList) ++ r) := by
  obtain ⟨w, x, y, z, hquad, hgroup⟩ := decodeGroup_quad a b c hbc s.isEmpty
    fun hc => List.isEmpty_iff.mpr (hlast hc)
  rw [hquad]
  change Base64.decode (w :: x :: y :: z :: s) = _
  rw [Base64.decode, hgroup, hs]

/-- The encoder, read back by the decoder of the standard. -/
theorem decode_base64Encode (bytes : List UInt8) :
    Base64.decode (base64Encode bytes) = some bytes := by
  induction bytes using base64Encode.induct with
  | case1 => rfl
  | case2 a =>
    have hgroup := decode_quad a none none (fun _ => rfl) (s := []) (fun _ => rfl) rfl
    rwa [List.append_nil, List.append_nil] at hgroup
  | case3 a b =>
    have hgroup := decode_quad a (some b) none (fun h => nomatch h) (s := []) (fun _ => rfl) rfl
    rwa [List.append_nil, List.append_nil] at hgroup
  | case4 a b c s ih =>
    exact decode_quad a (some b) (some c) (fun h => nomatch h) (fun h => nomatch h) ih

/-- Four characters for every three bytes that are begun. -/
theorem length_base64Encode (bytes : List UInt8) :
    (base64Encode bytes).length = 4 * ((bytes.length + 2) / 3) := by
  induction bytes using base64Encode.induct with
  | case1 => rfl
  | case2 a => simp [base64Encode, quad]
  | case3 a b => simp [base64Encode, quad]
  | case4 a b c s ih =>
    have hquad : (quad a (some b) (some c)).length = 4 := rfl
    rw [base64Encode, List.length_append, ih, hquad, List.length_cons, List.length_cons,
      List.length_cons]
    omega

lemma length_sha1 (data : List UInt8) : (sha1 data).length = 20 := rfl

/-- The digest of every message whose length in bits fits, the encoding of every byte string, and
from them the accept key: the digest of the client's key and the constant, in base64. -/
theorem handshake_right :
    (∀ data : List UInt8, data.length < 2 ^ 61 →
      bitsOf (sha1 data) = Fips180.sha1 (bitsOf data)) ∧
    (∀ bytes, Base64.decode (base64Encode bytes) = some bytes ∧
      (base64Encode bytes).length = 4 * ((bytes.length + 2) / 3)) ∧
    ∀ key, (acceptKey key = none ↔ key = [] ∨ 64 < key.length) ∧
      ∀ out, acceptKey key = some out → out.length = 28 ∧
        ∃ digest, Base64.decode out = some digest ∧
          bitsOf digest = Fips180.sha1 (bitsOf (key ++ guid)) := by
  refine ⟨fun data => bitsOf_sha1, fun bytes =>
    ⟨decode_base64Encode bytes, length_base64Encode bytes⟩, fun key => ?_⟩
  rw [acceptKey]
  split_ifs with hkey
  · exact ⟨iff_of_true rfl hkey, fun out h => nomatch h⟩
  · refine ⟨iff_of_false (fun h => nomatch h) hkey, fun out h => ?_⟩
    obtain rfl := Option.some.inj h
    have hguid : guid.length = 36 := by decide +kernel
    have hlen : (key ++ guid).length < 2 ^ 61 := by
      rw [List.length_append, hguid]
      omega
    refine ⟨?_, _, decode_base64Encode _, bitsOf_sha1 hlen⟩
    rw [length_base64Encode, length_sha1]

/-- The digest of three bytes. -/
theorem handshake_right_abc :
    bitsOf (sha1 [0x61, 0x62, 0x63]) = Fips180.sha1 (bitsOf [0x61, 0x62, 0x63]) :=
  handshake_right.1 _ (by decide)

end VibeVoice.Handshake
