import Mathlib.Data.Set.Basic
import Mathlib.Tactic
import VibeVoice.Lib.Loop

/-!
Memory that is rewritten in place, where no cell may be read after it is overwritten.

* `Memory`: the cells of a buffer, each with a mark once it is overwritten.
* `load`, `store`: a load of a marked cell and an access outside of the buffer fail.
* `patch`: a memory after some of its cells are overwritten.
* `store_patch`, `store_range`, `store_column`: how stores grow a patch.
-/

namespace VibeVoice.InPlace

variable {α β : Type}

/-- The cells of a buffer, each with whether it is overwritten. -/
abbrev Memory (α : Type) := ℕ → Option (α × Bool)

/-- A buffer of which nothing is overwritten yet. -/
def ofList (xs : List α) : Memory α := fun i => xs[i]?.map (·, false)

/-- What is in a cell. -/
def Memory.value (m : Memory α) (i : ℕ) : Option α := (m i).map Prod.fst

/-- A load, of a cell that is not overwritten. -/
def load (m : Memory α) (i : ℕ) : Option α :=
  match m i with
  | some (a, false) => some a
  | _ => none

/-- A store. -/
def store (m : Memory α) (i : ℕ) (a : α) : Option (Memory α) :=
  if (m i).isSome then some (Function.update m i (some (a, true))) else none

/-- The memory after the cells of `S` are overwritten, each with its value of `f`. -/
def patch (m : Memory α) (S : Set ℕ) [DecidablePred (· ∈ S)] (f : ℕ → α) : Memory α :=
  fun i => if i ∈ S then some (f i, true) else m i

variable {m : Memory α} {S T : Set ℕ} [DecidablePred (· ∈ S)] [DecidablePred (· ∈ T)] {f : ℕ → α}
  {i : ℕ}

lemma ofList_eq {xs : List α} (h : i < xs.length) : ofList xs i = some (xs[i], false) := by
  rw [ofList, List.getElem?_eq_getElem h]
  rfl

lemma isSome_patch (h : (m i).isSome) : (patch m S f i).isSome := by
  rw [patch]
  split_ifs
  · rfl
  · exact h

lemma patch_of_mem (h : i ∈ S) : patch m S f i = some (f i, true) := if_pos h

lemma patch_of_not_mem (h : i ∉ S) : patch m S f i = m i := if_neg h

lemma patch_congr (h : ∀ i, i ∈ S ↔ i ∈ T) : patch m S f = patch m T f := by
  funext i
  rw [patch, patch]
  exact if_congr (h i) rfl rfl

/-- A cell that is not overwritten yet is read as it was. -/
lemma load_patch {a : α} (h : m i = some (a, false)) (hi : i ∉ S) :
    load (patch m S f) i = some a := by
  rw [load, patch_of_not_mem hi, h]

/-- One more cell is overwritten. -/
lemma store_patch (h : (m i).isSome) (hT : ∀ j, j ∈ T ↔ j = i ∨ j ∈ S) :
    store (patch m S f) i (f i) = some (patch m T f) := by
  rw [store, if_pos (isSome_patch h)]
  congr 1
  funext j
  by_cases hj : j = i
  · rw [hj, Function.update_self, patch_of_mem ((hT i).mpr (.inl rfl))]
  · rw [Function.update_of_ne hj, patch, patch]
    exact if_congr ((hT j).trans (or_iff_right hj)).symm rfl rfl

/-- The cells of `S` and the first `n` behind `base`. -/
def upto (S : Set ℕ) (base n : ℕ) : Set ℕ := {i | i ∈ S ∨ (base ≤ i ∧ i < base + n)}

instance (base n : ℕ) : DecidablePred (· ∈ upto S base n) := fun i =>
  inferInstanceAs (Decidable (i ∈ S ∨ (base ≤ i ∧ i < base + n)))

omit [DecidablePred (· ∈ S)] in
lemma mem_upto {base n : ℕ} : i ∈ upto S base n ↔ i ∈ S ∨ (base ≤ i ∧ i < base + n) := Iff.rfl

lemma upto_zero (base : ℕ) : patch m (upto S base 0) f = patch m S f :=
  patch_congr fun i => or_iff_left (by omega)

lemma upto_upto (base n k : ℕ) :
    patch m (upto (upto S base n) (base + n) k) f = patch m (upto S base (n + k)) f := by
  refine patch_congr fun i => ?_
  rw [mem_upto, mem_upto, mem_upto, or_assoc]
  exact or_congr_right (by omega)

/-- Steps that each overwrite the next `k` cells. -/
lemma foldlM_upto (step : Memory α → ℕ → Option (Memory α)) (base k count : ℕ)
    (h : ∀ t < count, step (patch m (upto S base (k * t)) f) t =
      some (patch m (upto S base (k * (t + 1))) f)) :
    (List.range count).foldlM step (patch m S f) = some (patch m (upto S base (k * count)) f) := by
  obtain ⟨m', hm', rfl⟩ := Loop.foldlM_range (f := step)
    (P := fun t m' => m' = patch m (upto S base (k * t)) f) (upto_zero base).symm
    (fun t ht m' hm' => ⟨_, hm' ▸ h t ht, rfl⟩)
  exact hm'

/-- Stores one behind the other. -/
lemma store_range (step : Memory α → ℕ → Option (Memory α)) (base count : ℕ)
    (hstep : ∀ i < count, ∀ m, step m i = store m (base + i) (f (base + i)))
    (h : ∀ i < count, (m (base + i)).isSome) :
    (List.range count).foldlM step (patch m S f) = some (patch m (upto S base count) f) := by
  have hfold := foldlM_upto (m := m) (S := S) (f := f) step base 1 count fun t ht => by
    rw [hstep t ht]
    refine store_patch (h t ht) fun j => ?_
    rw [mem_upto, mem_upto, Nat.one_mul, Nat.one_mul, or_left_comm]
    exact or_congr_right (by omega)
  rwa [Nat.one_mul] at hfold

/-! ### Four rows side by side -/

/-- The cells of `S` and, of the four rows of `width` cells behind `base`, the first `n` columns. -/
def columns (S : Set ℕ) (base width n : ℕ) : Set ℕ :=
  {i | i ∈ S ∨ (base ≤ i ∧ i < base + 4 * width ∧ (i - base) % width < n)}

instance (base width n : ℕ) : DecidablePred (· ∈ columns S base width n) := fun i =>
  inferInstanceAs (Decidable (i ∈ S ∨ (base ≤ i ∧ i < base + 4 * width ∧ (i - base) % width < n)))

omit [DecidablePred (· ∈ S)] in
lemma mem_columns {base width n : ℕ} : i ∈ columns S base width n ↔
    i ∈ S ∨ (base ≤ i ∧ i < base + 4 * width ∧ (i - base) % width < n) := Iff.rfl

lemma columns_zero (base width : ℕ) : patch m (columns S base width 0) f = patch m S f :=
  patch_congr fun i => or_iff_left (by omega)

lemma columns_full {base width : ℕ} (hwidth : 0 < width) :
    patch m (columns S base width width) f = patch m (upto S base (4 * width)) f := by
  refine patch_congr fun i => or_congr_right ⟨fun h => ⟨h.1, h.2.1⟩, fun h => ⟨h.1, h.2, ?_⟩⟩
  exact Nat.mod_lt (i - base) hwidth

lemma lt_four_rows {j l width : ℕ} (hl : l < width) : j < 4 * width ∧ j % width = l ↔
    j = l ∨ j = l + width ∨ j = l + 2 * width ∨ j = l + 3 * width := by
  constructor
  · rintro ⟨hj, rfl⟩
    have hrow : j / width < 4 := Nat.div_lt_of_lt_mul (by rwa [Nat.mul_comm])
    have hdecomp := Nat.mod_add_div j width
    generalize j / width = row at hrow hdecomp
    interval_cases row <;> omega
  · rintro (rfl | rfl | rfl | rfl)
    · exact ⟨by omega, Nat.mod_eq_of_lt hl⟩
    · exact ⟨by omega, by rw [Nat.add_mod_right, Nat.mod_eq_of_lt hl]⟩
    · exact ⟨by omega, by rw [Nat.add_mul_mod_self_right, Nat.mod_eq_of_lt hl]⟩
    · exact ⟨by omega, by rw [Nat.add_mul_mod_self_right, Nat.mod_eq_of_lt hl]⟩

instance decidableMemInsert (i : ℕ) : DecidablePred (· ∈ insert i S) := fun j =>
  inferInstanceAs (Decidable (j = i ∨ j ∈ S))

lemma store_insert (h : (m i).isSome) :
    store (patch m S f) i (f i) = some (patch m (insert i S) f) :=
  store_patch h fun _ => Iff.rfl

/-- One more column, a store in each row. -/
lemma store_column {base width l : ℕ} (hl : l < width)
    (h : ∀ j < 4 * width, (m (base + j)).isSome) :
    (store (patch m (columns S base width l) f) (base + l) (f (base + l)) >>= fun m =>
      store m (base + (l + width)) (f (base + (l + width))) >>= fun m =>
      store m (base + (l + 2 * width)) (f (base + (l + 2 * width))) >>= fun m =>
      store m (base + (l + 3 * width)) (f (base + (l + 3 * width)))) =
      some (patch m (columns S base width (l + 1)) f) := by
  simp only [Option.bind_eq_bind]
  rw [store_insert (h l (by omega)), Option.bind_some, store_insert (h (l + width) (by omega)),
    Option.bind_some, store_insert (h (l + 2 * width) (by omega)), Option.bind_some,
    store_insert (h (l + 3 * width) (by omega))]
  refine congrArg some (patch_congr fun i => ?_)
  have hrows := lt_four_rows (j := i - base) hl
  simp only [Set.mem_insert_iff, mem_columns]
  constructor
  · rintro (rfl | rfl | rfl | rfl | hS | hcol)
    · exact .inr (by have := hrows.mpr (by omega); omega)
    · exact .inr (by have := hrows.mpr (by omega); omega)
    · exact .inr (by have := hrows.mpr (by omega); omega)
    · exact .inr (by have := hrows.mpr (by omega); omega)
    · exact .inl hS
    · exact .inr ⟨hcol.1, hcol.2.1, by omega⟩
  · rintro (hS | ⟨hbase, hlt, hcol⟩)
    · exact .inr (.inr (.inr (.inr (.inl hS))))
    · rcases Nat.lt_succ_iff_lt_or_eq.mp hcol with hless | heq
      · exact .inr (.inr (.inr (.inr (.inr ⟨hbase, hlt, hless⟩))))
      · have hplace := hrows.mp ⟨by omega, heq⟩
        omega

/-- Columns one behind the other. -/
lemma store_columns (step : Memory α → ℕ → Option (Memory α)) (base width : ℕ) (hwidth : 0 < width)
    (hstep : ∀ l < width, ∀ m, step m l = store m (base + l) (f (base + l)) >>= fun m =>
      store m (base + (l + width)) (f (base + (l + width))) >>= fun m =>
      store m (base + (l + 2 * width)) (f (base + (l + 2 * width))) >>= fun m =>
      store m (base + (l + 3 * width)) (f (base + (l + 3 * width))))
    (h : ∀ j < 4 * width, (m (base + j)).isSome) :
    (List.range width).foldlM step (patch m S f) =
      some (patch m (upto S base (4 * width)) f) := by
  obtain ⟨m', hm', rfl⟩ := Loop.foldlM_range (f := step)
    (P := fun l m' => m' = patch m (columns S base width l) f) (columns_zero base width).symm
    (fun l (hl : l < width) m' hm' => ⟨_, hm' ▸ (hstep l hl _).trans (store_column hl h), rfl⟩)
  rw [hm', columns_full hwidth]

/-! ### Blocks -/

/-- The blocks of `len` cells whose numbers are listed. -/
def blocks (ns : List ℕ) (len : ℕ) : Set ℕ := {i | i / len ∈ ns}

instance (ns : List ℕ) (len : ℕ) : DecidablePred (· ∈ blocks ns len) := fun i =>
  inferInstanceAs (Decidable (i / len ∈ ns))

lemma mem_blocks {ns : List ℕ} {len : ℕ} : i ∈ blocks ns len ↔ i / len ∈ ns := Iff.rfl

lemma div_eq_iff_block {n len : ℕ} (hlen : 0 < len) :
    i / len = n ↔ n * len ≤ i ∧ i < n * len + len := by
  rw [Nat.div_eq_iff hlen, Nat.mul_comm]
  omega

lemma patch_nil (len : ℕ) : patch m (blocks [] len) f = m := by
  funext i
  exact patch_of_not_mem List.not_mem_nil

/-- A block behind the others. -/
lemma upto_block {ns : List ℕ} {len : ℕ} (hlen : 0 < len) (n : ℕ) :
    patch m (upto (blocks ns len) (n * len) len) f = patch m (blocks (n :: ns) len) f := by
  refine patch_congr fun i => ?_
  rw [mem_upto, mem_blocks, mem_blocks, List.mem_cons, div_eq_iff_block hlen, or_comm]

/-- A block that is not listed is not overwritten. -/
lemma not_mem_blocks {ns : List ℕ} {len n j : ℕ} (hn : n ∉ ns) (hj : j < len) :
    n * len + j ∉ blocks ns len := by
  have hdiv : (n * len + j) / len = n :=
    (div_eq_iff_block (by omega)).mpr ⟨Nat.le_add_right _ _, by omega⟩
  rw [mem_blocks, hdiv]
  exact hn

end VibeVoice.InPlace
