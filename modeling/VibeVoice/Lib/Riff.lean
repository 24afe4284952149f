import Mathlib.Tactic

/-!
Files of chunks: an id of four bytes, a size in four bytes, and a body.

A writer puts a byte behind a body of odd size (`Chunk.encode`); `split` is the reading that lays
the chunks end to end without it.

* `number`, `sizeBytes`: numbers, lowest byte first.
* `split_encode`: chunks of even size are found as they were written.
-/

namespace Riff

/-! ### Numbers -/

/-- The number of some bytes, lowest first. -/
def number (bytes : List UInt8) : ℕ := Nat.ofDigits 256 (bytes.map UInt8.toNat)

/-- A number in `w` bytes. -/
def numberBytes (w n : ℕ) : List UInt8 := (List.range w).map fun i => UInt8.ofNat (n / 256 ^ i)

@[simp] lemma length_numberBytes (w n : ℕ) : (numberBytes w n).length = w := by
  simp [numberBytes]

lemma number_lt (bytes : List UInt8) : number bytes < 256 ^ bytes.length := by
  have hlt := Nat.ofDigits_lt_base_pow_length (b := 256) (l := bytes.map UInt8.toNat)
    (by decide) fun d hd => by
      obtain ⟨b, -, rfl⟩ := List.mem_map.mp hd
      exact b.toNat_lt
  rwa [List.length_map] at hlt

lemma number_numberBytes (w n : ℕ) : number (numberBytes w n) = n % 256 ^ w := by
  induction w generalizing n with
  | zero => simp [number, numberBytes, Nat.mod_one]
  | succ w ih =>
    have htail : (fun i => UInt8.ofNat (n / 256 ^ i)) ∘ Nat.succ =
        fun i => UInt8.ofNat (n / 256 / 256 ^ i) := by
      funext i
      rw [Function.comp_apply, Nat.succ_eq_add_one, pow_succ', Nat.div_div_eq_div_mul]
    have hcons : numberBytes (w + 1) n = UInt8.ofNat n :: numberBytes w (n / 256) := by
      rw [numberBytes, List.range_succ_eq_map, List.map_cons, List.map_map, htail, pow_zero,
        Nat.div_one, numberBytes]
    rw [hcons, number, List.map_cons, Nat.ofDigits_cons, ← number, ih, UInt8.toNat_ofNat',
      pow_succ' 256 w, Nat.mod_mul]

/-! ### Chunks -/

/-- A chunk as it is found: as much of its body as there is. -/
structure Found where
  id : List UInt8
  size : ℕ
  body : List UInt8
  deriving DecidableEq

/-- The chunks of a text, one behind the other. -/
def split (text : List UInt8) : List Found :=
  if text.length < 8 then []
  else
    ⟨text.take 4, number ((text.drop 4).take 4), (text.drop 8).take (number ((text.drop 4).take 4))⟩ ::
      split ((text.drop 8).drop (number ((text.drop 4).take 4)))
termination_by text.length
decreasing_by
  simp only [List.length_drop]
  omega

/-- A chunk that can be written. -/
structure Chunk where
  id : List UInt8
  body : List UInt8
  id_length : id.length = 4
  body_length : body.length < 2 ^ 32

/-- The chunk as it is found. -/
def Chunk.found (c : Chunk) : Found := ⟨c.id, c.body.length, c.body⟩

/-- The chunk as it is written, with its pad byte. -/
def Chunk.encode (c : Chunk) : List UInt8 :=
  c.id ++ numberBytes 4 c.body.length ++ c.body ++ List.replicate (c.body.length % 2) 0

lemma split_short {text : List UInt8} (h : text.length < 8) : split text = [] := by
  rw [split, if_pos h]

/-- A header, and the body behind it. -/
lemma split_header {id : List UInt8} (hid : id.length = 4) {size : ℕ} (hsize : size < 2 ^ 32)
    (rest : List UInt8) :
    split (id ++ numberBytes 4 size ++ rest) =
      ⟨id, size, rest.take size⟩ :: split (rest.drop size) := by
  have hhead : (id ++ numberBytes 4 size).length = 8 := by
    rw [List.length_append, hid, length_numberBytes]
  have hnumber : number (numberBytes 4 size) = size := by
    rw [number_numberBytes]
    exact Nat.mod_eq_of_lt hsize
  have htake : (id ++ numberBytes 4 size ++ rest).take 4 = id := by
    rw [List.append_assoc, List.take_left' hid]
  have hfield : ((id ++ numberBytes 4 size ++ rest).drop 4).take 4 = numberBytes 4 size := by
    rw [List.append_assoc, List.drop_left' hid, List.take_left' (length_numberBytes 4 size)]
  have hbody : (id ++ numberBytes 4 size ++ rest).drop 8 = rest := List.drop_left' hhead
  rw [split, if_neg (by rw [List.length_append, hhead]; omega), htake, hfield, hbody, hnumber]

/-- Chunks of even size are found as they were written. -/
lemma split_encode {cs : List Chunk} (heven : ∀ c ∈ cs, Even c.body.length) (rest : List UInt8) :
    split (cs.flatMap Chunk.encode ++ rest) = cs.map Chunk.found ++ split rest := by
  induction cs with
  | nil => rfl
  | cons c cs ih =>
    obtain ⟨hc, hcs⟩ := List.forall_mem_cons.mp heven
    have hpad : List.replicate (c.body.length % 2) (0 : UInt8) = [] := by
      rw [Nat.even_iff.mp hc, List.replicate_zero]
    rw [List.flatMap_cons, Chunk.encode, hpad, List.append_nil, List.append_assoc,
      List.append_assoc, split_header c.id_length c.body_length, List.take_left, List.drop_left,
      ih hcs]
    rfl

end Riff
