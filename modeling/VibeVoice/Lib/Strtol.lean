import Mathlib.Data.List.TakeWhile
import Mathlib.Tactic

/-!
Whole numbers in a text, read the way `strtol` reads them in base 10.

* `strtol`: the number in front of a text and what stands behind it.
* `Numeral`: a text writes a number that is not negative.
* `strtol_numeral`, `numeral_of_strtol`: the two agree.
-/

namespace Strtol

/-- `isspace` in the C locale. -/
def isspace (c : UInt8) : Bool := c == 0x20 || (0x09 ≤ c && c ≤ 0x0D)

/-- `isdigit`. -/
def isdigit (c : UInt8) : Bool := 0x30 ≤ c && c ≤ 0x39

/-- The number that digits write. -/
def value (digits : List UInt8) : ℕ := digits.foldl (fun n c => n * 10 + (c.toNat - 0x30)) 0

/-- The nearest `long`. -/
def clamp (v : ℤ) : ℤ := max (-2 ^ 63) (min v (2 ^ 63 - 1))

/-- The number of unsigned digits in front, with its sign given. -/
def unsigned (neg : Bool) (p : List UInt8) : Option (ℤ × List UInt8) :=
  if p.takeWhile isdigit = [] then none
  else
    let n : ℤ := value (p.takeWhile isdigit)
    some (clamp (if neg then -n else n), p.dropWhile isdigit)

/-- The number of an optional sign and digits. -/
def signed : List UInt8 → Option (ℤ × List UInt8)
  | [] => none
  | c :: p =>
    if c = 0x2D then unsigned true p
    else if c = 0x2B then unsigned false p
    else unsigned false (c :: p)

/-- `strtol` in base 10: the number, and where it ends; nothing where there is none. -/
def strtol (p : List UInt8) : Option (ℤ × List UInt8) := signed (p.dropWhile isspace)

/-- The text `w` writes the number `n`: digits behind `"+"` or nothing, or a zero behind `"-"`. -/
inductive Numeral : List UInt8 → ℕ → Prop
  | plain {ds : List UInt8} (hne : ds ≠ []) (hds : ∀ c ∈ ds, isdigit c) : Numeral ds (value ds)
  | plus {ds : List UInt8} (hne : ds ≠ []) (hds : ∀ c ∈ ds, isdigit c) :
      Numeral (0x2B :: ds) (value ds)
  | minus {ds : List UInt8} (hne : ds ≠ []) (hds : ∀ c ∈ ds, isdigit c) (hzero : value ds = 0) :
      Numeral (0x2D :: ds) 0

/-- No digit stands in front. -/
def Stops (p : List UInt8) : Prop := ∀ c ∈ p.head?, isdigit c = false

variable {p w ds : List UInt8} {n : ℕ} {neg : Bool} {v : ℤ}

lemma clamp_natCast (n : ℕ) : clamp n = (min n (2 ^ 63 - 1) : ℕ) := by
  rw [clamp]
  omega

lemma clamp_of_lt (h : n < 2 ^ 63) : clamp n = n := by
  rw [clamp_natCast]
  omega

lemma not_isspace_of_isdigit {c : UInt8} (h : isdigit c) : isspace c = false := by
  simp only [isdigit, isspace, Bool.and_eq_true, decide_eq_true_eq, UInt8.le_iff_toNat_le] at h ⊢
  have hc : c ≠ 0x20 := by
    rintro rfl
    exact absurd h.1 (by decide)
  simp only [Bool.or_eq_false_iff, beq_eq_false_iff_ne, ne_eq, hc, not_false_eq_true, true_and,
    Bool.and_eq_false_iff, decide_eq_false_iff_not]
  right
  have h9 : (0x30 : UInt8).toNat = 48 := rfl
  have hd : (0x0D : UInt8).toNat = 13 := rfl
  omega

lemma unsigned_digits (hne : ds ≠ []) (hds : ∀ c ∈ ds, isdigit c) (hp : Stops p) :
    unsigned neg (ds ++ p) = some (clamp (if neg then -(value ds : ℤ) else value ds), p) := by
  have htake : (ds ++ p).takeWhile isdigit = ds := by
    rw [List.takeWhile_append_of_pos hds]
    cases p with
    | nil => simp
    | cons c p => simp [hp c rfl]
  have hdrop : (ds ++ p).dropWhile isdigit = p := by
    rw [List.dropWhile_append_of_pos hds]
    cases p with
    | nil => rfl
    | cons c p => simp [hp c rfl]
  rw [unsigned, htake, hdrop, if_neg hne]

/-- What is read without a sign. -/
lemma digits_of_unsigned {rest : List UInt8} (h : unsigned neg p = some (v, rest)) :
    ∃ ds, p = ds ++ rest ∧ ds ≠ [] ∧ (∀ c ∈ ds, isdigit c) ∧ Stops rest ∧
      v = clamp (if neg then -(value ds : ℤ) else value ds) := by
  rw [unsigned] at h
  by_cases hne : p.takeWhile isdigit = []
  · rw [if_pos hne] at h
    exact absurd h.symm (Option.some_ne_none _)
  rw [if_neg hne] at h
  simp only [Option.some.injEq, Prod.mk.injEq] at h
  obtain ⟨rfl, rfl⟩ := h
  refine ⟨p.takeWhile isdigit, List.takeWhile_append_dropWhile.symm, hne,
    fun c hc => List.mem_takeWhile_imp hc, fun c hc => ?_, rfl⟩
  simpa [Option.mem_def.mp hc] using List.head?_dropWhile_not isdigit p

/-- A number with any text behind it that does not go on with a digit. -/
theorem strtol_numeral (hw : Numeral w n) (hp : Stops p) :
    strtol (w ++ p) = some (clamp n, p) := by
  have hsign : ∀ (c : UInt8) (ds : List UInt8), isspace c = false →
      strtol (c :: ds ++ p) = signed (c :: ds ++ p) := by
    intro c ds hc
    rw [strtol, List.cons_append, List.dropWhile_cons_of_neg (by simp [hc])]
  cases hw with
  | plain hne hds =>
    obtain ⟨c, ds, rfl⟩ := List.exists_cons_of_ne_nil hne
    have hc : isdigit c := hds c List.mem_cons_self
    rw [hsign c ds (not_isspace_of_isdigit hc), List.cons_append, signed,
      if_neg (by rintro rfl; exact absurd hc (by decide)),
      if_neg (by rintro rfl; exact absurd hc (by decide)), ← List.cons_append,
      unsigned_digits hne hds hp]
    rfl
  | plus hne hds =>
    rw [hsign _ _ (by decide), List.cons_append, signed, if_neg (by decide), if_pos rfl,
      unsigned_digits hne hds hp]
    rfl
  | minus hne hds hzero =>
    rw [hsign _ _ (by decide), List.cons_append, signed, if_pos rfl, unsigned_digits hne hds hp,
      hzero]
    rfl

/-- A number that is read and not negative is written there. -/
theorem numeral_of_strtol {rest : List UInt8} (h : strtol p = some (v, rest)) (hv : 0 ≤ v) :
    ∃ s w n, p = s ++ (w ++ rest) ∧ (∀ c ∈ s, isspace c) ∧ Numeral w n ∧ Stops rest ∧
      v = clamp n := by
  have hsplit : p = p.takeWhile isspace ++ p.dropWhile isspace :=
    List.takeWhile_append_dropWhile.symm
  have hspaces : ∀ c ∈ p.takeWhile isspace, isspace c := fun c hc => List.mem_takeWhile_imp hc
  rw [strtol] at h
  generalize p.dropWhile isspace = q at h hsplit
  suffices hw : ∃ w n, q = w ++ rest ∧ Numeral w n ∧ Stops rest ∧ v = clamp n by
    obtain ⟨w, n, rfl, hw, hn⟩ := hw
    exact ⟨_, w, n, hsplit, hspaces, hw, hn⟩
  cases q with
  | nil => exact absurd h (by simp [signed])
  | cons c q =>
    rw [signed] at h
    split_ifs at h with hminus hplus
    · obtain ⟨ds, rfl, hne, hds, hrest, rfl⟩ := digits_of_unsigned h
      have hzero : value ds = 0 := by
        by_contra hpos
        rw [if_pos rfl, clamp] at hv
        omega
      exact ⟨_, 0, by rw [hminus]; rfl, .minus hne hds hzero, hrest, by rw [hzero]; rfl⟩
    · obtain ⟨ds, rfl, hne, hds, hrest⟩ := digits_of_unsigned h
      exact ⟨_, _, by rw [hplus]; rfl, .plus hne hds, hrest⟩
    · obtain ⟨ds, hq, hne, hds, hrest⟩ := digits_of_unsigned h
      exact ⟨_, _, hq, .plain hne hds, hrest⟩

/-- A number that is read takes part of the text. -/
lemma length_lt_of_strtol {rest : List UInt8} (h : strtol p = some (v, rest)) :
    rest.length < p.length := by
  have hshort : ∀ {neg q}, unsigned neg q = some (v, rest) → rest.length < q.length := by
    intro neg q hq
    obtain ⟨ds, rfl, hne, -⟩ := digits_of_unsigned hq
    have := List.length_pos_iff.mpr hne
    rw [List.length_append]
    omega
  refine lt_of_lt_of_le ?_ (p.dropWhile_sublist isspace).length_le
  rw [strtol] at h
  cases hq : p.dropWhile isspace with
  | nil => rw [hq] at h; exact absurd h (by simp [signed])
  | cons c q =>
    rw [hq, signed] at h
    split_ifs at h
    · exact (hshort h).trans (by simp)
    · exact (hshort h).trans (by simp)
    · exact hshort h

end Strtol
