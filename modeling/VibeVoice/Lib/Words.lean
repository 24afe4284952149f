import Mathlib.Data.Nat.Bitwise
import Mathlib.Tactic

/-!
32-bit words as four bytes or eight nibbles, and instructions on them.

* `ofBytes`, `byteAt`, `nibbleAt`: the parts of a word.
* `prmt`, `vsub4`: bytes picked out of two words, and subtracted byte by byte.
* `dot4`: the sum of the products of signed bytes.
-/

namespace Words

/-- A word, from its lowest byte on. -/
def ofBytes (f : ℕ → UInt8) : UInt32 :=
  .ofNat ((f 0).toNat + 2 ^ 8 * (f 1).toNat + 2 ^ 16 * (f 2).toNat + 2 ^ 24 * (f 3).toNat)

def byteAt (w : UInt32) (i : ℕ) : UInt8 := .ofNat (w.toNat / 2 ^ (8 * i))

def nibbleAt (w : UInt32) (i : ℕ) : ℕ := w.toNat / 2 ^ (4 * i) % 16

/-- `__byte_perm`. -/
def prmt (x y : UInt32) (s : ℕ) : UInt32 :=
  ofBytes fun i =>
    let k := s / 16 ^ i % 8
    if k < 4 then byteAt x k else byteAt y (k - 4)

/-- `__vsub4`. -/
def vsub4 (a b : UInt32) : UInt32 := ofBytes fun i => byteAt a i - byteAt b i

/-- A byte as a signed number. -/
def s8 (b : UInt8) : ℤ := b.toInt8.toInt

/-- What `__dp4a` adds. -/
def dot4 (a b : UInt32) : ℤ := ∑ i ∈ Finset.range 4, s8 (byteAt a i) * s8 (byteAt b i)

lemma toNat_ofBytes (f : ℕ → UInt8) : (ofBytes f).toNat =
    (f 0).toNat + 2 ^ 8 * (f 1).toNat + 2 ^ 16 * (f 2).toNat + 2 ^ 24 * (f 3).toNat := by
  have h0 := (f 0).toNat_lt
  have h1 := (f 1).toNat_lt
  have h2 := (f 2).toNat_lt
  have h3 := (f 3).toNat_lt
  rw [ofBytes, UInt32.toNat_ofNat']
  omega

lemma ofBytes_congr {f g : ℕ → UInt8} (h : ∀ i < 4, f i = g i) : ofBytes f = ofBytes g := by
  rw [ofBytes, ofBytes, h 0 (by omega), h 1 (by omega), h 2 (by omega), h 3 (by omega)]

lemma toNat_byteAt (w : UInt32) (i : ℕ) : (byteAt w i).toNat = w.toNat / 2 ^ (8 * i) % 256 :=
  UInt8.toNat_ofNat'

@[simp] lemma byteAt_ofBytes (f : ℕ → UInt8) {i : ℕ} (hi : i < 4) :
    byteAt (ofBytes f) i = f i := by
  have h0 := (f 0).toNat_lt
  have h1 := (f 1).toNat_lt
  have h2 := (f 2).toNat_lt
  have h3 := (f 3).toNat_lt
  refine UInt8.toNat_inj.mp ?_
  rw [toNat_byteAt, toNat_ofBytes]
  interval_cases i <;> norm_num <;> omega

/-- Bytes picked out of eight. -/
lemma byteAt_prmt (f : ℕ → UInt8) (s : ℕ) {i : ℕ} (hi : i < 4) :
    byteAt (prmt (ofBytes f) (ofBytes fun j => f (4 + j)) s) i = f (s / 16 ^ i % 8) := by
  have hlt : s / 16 ^ i % 8 < 8 := Nat.mod_lt _ (by omega)
  rw [prmt, byteAt_ofBytes _ hi]
  dsimp only
  split_ifs with hk
  · exact byteAt_ofBytes f hk
  · rw [byteAt_ofBytes _ (by omega), Nat.add_sub_cancel' (by omega)]

lemma byteAt_vsub4 (a b : UInt32) {i : ℕ} (hi : i < 4) :
    byteAt (vsub4 a b) i = byteAt a i - byteAt b i := byteAt_ofBytes _ hi

lemma nibbleAt_lt (w : UInt32) (i : ℕ) : nibbleAt w i < 16 := Nat.mod_lt _ (by omega)

/-- The upper half of a word. -/
lemma nibbleAt_shiftRight (w : UInt32) (i : ℕ) : nibbleAt (w >>> 16) i = nibbleAt w (4 + i) := by
  have hshift : (w >>> 16).toNat = w.toNat / 2 ^ 16 := by
    rw [UInt32.toNat_shiftRight, Nat.shiftRight_eq_div_pow]
    rfl
  rw [nibbleAt, nibbleAt, hshift, Nat.div_div_eq_div_mul, ← pow_add, Nat.mul_add]

/-- A byte in every place. -/
lemma byteAt_replicate {z : ℕ} (hz : z < 256) {i : ℕ} (hi : i < 4) :
    byteAt (UInt32.ofNat z * 0x01010101) i = UInt8.ofNat z := by
  have hword : UInt32.ofNat z * 0x01010101 = ofBytes fun _ => UInt8.ofNat z := by
    refine UInt32.toNat_inj.mp ?_
    have hbyte : z % 2 ^ 8 = z := Nat.mod_eq_of_lt hz
    rw [toNat_ofBytes, UInt8.toNat_ofNat', UInt32.toNat_mul, UInt32.toNat_ofNat', hbyte,
      Nat.mod_eq_of_lt (show z < 2 ^ 32 by omega)]
    show z * 16843009 % 2 ^ 32 = _
    omega
  rw [hword, byteAt_ofBytes _ hi]

/-- Two halves of a word are masked apart. -/
lemma and_halves {x p : ℕ} (hx : x < 2 ^ 16) (hp : p < 2 ^ 16) (y q : ℕ) :
    (2 ^ 16 * y + x) &&& (2 ^ 16 * q + p) = 2 ^ 16 * (y &&& q) + (x &&& p) := by
  have hand : x &&& p < 2 ^ 16 := Nat.and_lt_two_pow x hp
  refine Nat.eq_of_testBit_eq fun i => ?_
  rw [Nat.testBit_and, Nat.testBit_two_pow_mul_add _ hx, Nat.testBit_two_pow_mul_add _ hp,
    Nat.testBit_two_pow_mul_add _ hand]
  split_ifs <;> rw [Nat.testBit_and]

lemma or_halves {x p : ℕ} (hx : x < 2 ^ 16) (hp : p < 2 ^ 16) (y q : ℕ) :
    (2 ^ 16 * y + x) ||| (2 ^ 16 * q + p) = 2 ^ 16 * (y ||| q) + (x ||| p) := by
  have hor : x ||| p < 2 ^ 16 := Nat.or_lt_two_pow hx hp
  refine Nat.eq_of_testBit_eq fun i => ?_
  rw [Nat.testBit_or, Nat.testBit_two_pow_mul_add _ hx, Nat.testBit_two_pow_mul_add _ hp,
    Nat.testBit_two_pow_mul_add _ hor]
  split_ifs <;> rw [Nat.testBit_or]

/-- The nibbles of a byte, one in each of two bytes. -/
lemma spread_nibbles :
    ∀ b < 256, (b &&& 0x000F) ||| (b * 16 &&& 0x0F00) = b % 16 + 256 * (b / 16) := by
  decide +kernel

/-- A difference of two small numbers is a signed byte. -/
lemma s8_sub : ∀ q < 16, ∀ z < 16, s8 (UInt8.ofNat q - UInt8.ofNat z) = (q : ℤ) - z := by
  decide +kernel

end Words
