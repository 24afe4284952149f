import Mathlib.Data.Fintype.EquivFin
import Mathlib.Data.List.Count
import Mathlib.Data.List.Range

/-!
Sorting the numbers below `n` into buckets of one size, each in its order.

* `slot`: the place of a number, behind the smaller ones of its bucket.
* `Balanced`: every bucket gets exactly `size` numbers.
* `Balanced.slot_lt`, `slot_inj`, `Balanced.exists_slot`: the places are those below `n`, each taken
  once.
* `Sorted`: a list with every number at its place, and what follows of it.
* `balanced_div`, `sorted_range`: buckets of neighbours are balanced, and sorted from the start.
-/

namespace VibeVoice.Buckets

/-- How many smaller numbers share the bucket of `k`. -/
def rank (key : ℕ → ℕ) (k : ℕ) : ℕ := (List.range k).countP fun i => key i = key k

/-- The place of `k`. -/
def slot (key : ℕ → ℕ) (size k : ℕ) : ℕ := key k * size + rank key k

/-- The first `n` numbers fill `count` buckets of one size. -/
structure Balanced (key : ℕ → ℕ) (count size n : ℕ) : Prop where
  total : n = count * size
  key_lt : ∀ k < n, key k < count
  full : ∀ g < count, ((List.range n).countP fun i => key i = g) = size

variable {key : ℕ → ℕ} {count size n : ℕ}

/-- A number of the bucket comes behind the smaller ones. -/
lemma countP_lt_countP {g m k : ℕ} (hk : key k = g) (hkm : k < m) :
    ((List.range k).countP fun i => key i = g) < (List.range m).countP fun i => key i = g := by
  have hsplit : List.range m = List.range k ++ k :: List.range' (k + 1) (m - (k + 1)) := by
    rw [← List.range'_succ, List.range_eq_range', List.range_eq_range']
    have happ := List.range'_append_1 (s := 0) (m := k) (n := m - (k + 1) + 1)
    rw [Nat.zero_add] at happ
    rw [happ]
    congr 1
    omega
  rw [hsplit, List.countP_append,
    List.countP_cons_of_pos (p := fun i => decide (key i = g)) (decide_eq_true hk)]
  omega

lemma rank_lt_rank {i k : ℕ} (h : key i = key k) (hik : i < k) : rank key i < rank key k := by
  rw [rank, h]
  exact countP_lt_countP h hik

lemma Balanced.rank_lt (h : Balanced key count size n) {k : ℕ} (hk : k < n) :
    rank key k < size := by
  rw [← h.full (key k) (h.key_lt k hk)]
  exact countP_lt_countP rfl hk

lemma Balanced.slot_div (h : Balanced key count size n) {k : ℕ} (hk : k < n) :
    slot key size k / size = key k := by
  have hrank := h.rank_lt hk
  rw [slot, Nat.mul_comm, Nat.mul_add_div (Nat.zero_lt_of_lt hrank), Nat.div_eq_of_lt hrank,
    Nat.add_zero]

lemma Balanced.slot_lt (h : Balanced key count size n) {k : ℕ} (hk : k < n) :
    slot key size k < n := by
  have hrank := h.rank_lt hk
  calc slot key size k < key k * size + size := Nat.add_lt_add_left hrank _
    _ = (key k + 1) * size := (Nat.succ_mul _ _).symm
    _ ≤ count * size := Nat.mul_le_mul_right size (h.key_lt k hk)
    _ = n := h.total.symm

/-- In one bucket the places are in order. -/
lemma slot_lt_slot {i k : ℕ} (h : key i = key k) (hik : i < k) :
    slot key size i < slot key size k := by
  rw [slot, slot, h]
  exact Nat.add_lt_add_left (rank_lt_rank h hik) _

lemma Balanced.slot_inj (h : Balanced key count size n) {i k : ℕ} (hi : i < n) (hk : k < n)
    (heq : slot key size i = slot key size k) : i = k := by
  have hkey : key i = key k := by rw [← h.slot_div hi, heq, h.slot_div hk]
  rcases Nat.lt_trichotomy i k with hlt | rfl | hlt
  · exact absurd heq (slot_lt_slot hkey hlt).ne
  · rfl
  · exact absurd heq (slot_lt_slot hkey.symm hlt).ne'

/-- Every place is taken. -/
lemma Balanced.exists_slot (h : Balanced key count size n) {j : ℕ} (hj : j < n) :
    ∃ k < n, slot key size k = j := by
  let f : Fin n → Fin n := fun k => ⟨slot key size k, h.slot_lt k.2⟩
  have hinj : Function.Injective f := fun i k heq =>
    Fin.ext (h.slot_inj i.2 k.2 (congrArg Fin.val heq))
  obtain ⟨k, hk⟩ := Finite.injective_iff_surjective.mp hinj ⟨j, hj⟩
  exact ⟨k, k.2, congrArg Fin.val hk⟩

/-- A list with every number below `n` at its place. -/
structure Sorted (key : ℕ → ℕ) (size n : ℕ) (out : List ℕ) : Prop where
  length : out.length = n
  place : ∀ k < n, out[slot key size k]? = some k

/-- What stands at place `j` belongs to the bucket of `j`. -/
lemma Sorted.getElem? {out : List ℕ} (h : Balanced key count size n) (hs : Sorted key size n out)
    {j : ℕ} (hj : j < n) :
    ∃ k < n, out[j]? = some k ∧ slot key size k = j ∧ key k = j / size := by
  obtain ⟨k, hk, rfl⟩ := h.exists_slot hj
  exact ⟨k, hk, hs.place k hk, rfl, (h.slot_div hk).symm⟩

/-- The list is a permutation of the numbers. -/
lemma Sorted.perm {out : List ℕ} (hs : Sorted key size n out) :
    out.Perm (List.range n) := by
  have hsub : List.range n ⊆ out := fun k hk =>
    List.mem_of_getElem? (hs.place k (List.mem_range.mp hk))
  refine ((List.nodup_range.subperm hsub).perm_of_length_le ?_).symm
  rw [hs.length, List.length_range]

/-- Numbers of one bucket keep their order. -/
lemma Sorted.stable {out : List ℕ} (h : Balanced key count size n) (hs : Sorted key size n out)
    {i j a b : ℕ} (hij : i < j) (hj : j < n) (ha : out[i]? = some a) (hb : out[j]? = some b)
    (hkey : key a = key b) : a < b := by
  obtain ⟨a', -, ha', hslota, -⟩ := hs.getElem? h (hij.trans hj)
  obtain ⟨b', -, hb', hslotb, -⟩ := hs.getElem? h hj
  obtain rfl : a' = a := Option.some.inj (ha'.symm.trans ha)
  obtain rfl : b' = b := Option.some.inj (hb'.symm.trans hb)
  rcases Nat.lt_trichotomy a' b' with hlt | rfl | hlt
  · exact hlt
  · exact absurd (hslota.symm.trans hslotb) hij.ne
  · have hback : slot key size b' < slot key size a' := slot_lt_slot hkey.symm hlt
    omega

/-! ### Buckets of neighbours -/

lemma countP_div (hsize : 0 < size) (g m : ℕ) :
    ((List.range m).countP fun i => i / size = g) = min (m - g * size) size := by
  induction m with
  | zero => rw [List.range_zero, List.countP_nil, Nat.zero_sub, Nat.zero_min]
  | succ m ih =>
    rw [List.range_succ, List.countP_append, ih, List.countP_singleton]
    have hdiv : m / size = g ↔ g * size ≤ m ∧ m < g * size + size := by
      rw [Nat.div_eq_iff hsize]
      omega
    by_cases hg : m / size = g
    · have hin := hdiv.mp hg
      rw [if_pos (decide_eq_true hg)]
      omega
    · rw [if_neg (by simpa using hg)]
      omega

lemma balanced_div (hsize : 0 < size) (count : ℕ) :
    Balanced (· / size) count size (count * size) := by
  refine ⟨rfl, fun k hk => Nat.div_lt_of_lt_mul (Nat.mul_comm count size ▸ hk), fun g hg => ?_⟩
  have hle : (g + 1) * size ≤ count * size := Nat.mul_le_mul_right size hg
  rw [Nat.succ_mul] at hle
  rw [countP_div hsize]
  omega

lemma slot_congr {key' : ℕ → ℕ} {k : ℕ} (h : ∀ i ≤ k, key i = key' i) :
    slot key size k = slot key' size k := by
  have hrank : rank key k = rank key' k := by
    refine List.countP_congr fun i hi => ?_
    rw [h i (List.mem_range.mp hi).le, h k le_rfl]
  rw [slot, slot, hrank, h k le_rfl]

/-- Where the buckets are of neighbours, the numbers are sorted as they are. -/
lemma sorted_range (hsize : 0 < size) (h : ∀ k < n, key k = k / size) :
    Sorted key size n (List.range n) := by
  refine ⟨List.length_range, fun k hk => ?_⟩
  have hmod : k / size * size + k % size = k := Nat.div_add_mod' k size
  have hlt : k % size < size := Nat.mod_lt k hsize
  have hrank : rank (· / size) k = k % size := by
    rw [rank, countP_div hsize]
    omega
  have hslot : slot key size k = k := by
    rw [slot_congr fun i hi => h i (hi.trans_lt hk), slot, hrank, hmod]
  rw [hslot, List.getElem?_range hk]

end VibeVoice.Buckets
