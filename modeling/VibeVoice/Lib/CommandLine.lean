import Mathlib.Data.List.Basic
import Mathlib.Tactic

/-!
Command lines as the Windows C runtime takes them apart.

* `programName`: the first argument, in which backslashes are literal.
* `argument`: any other one; a run of backslashes has a meaning in front of a quote only.
* `argument_run`, `argument_quote`: what it makes of such a run.
-/

namespace CommandLine

/-- The characters with a meaning. -/
abbrev space : UInt16 := 0x20
abbrev tab : UInt16 := 0x09
abbrev quote : UInt16 := 0x22
abbrev backslash : UInt16 := 0x5C

/-- What ends an argument. -/
def IsBlank (c : UInt16) : Prop := c = space ∨ c = tab

instance (c : UInt16) : Decidable (IsBlank c) := inferInstanceAs (Decidable (_ ∨ _))

/-- A run of backslashes. -/
def slashes (n : ℕ) : List UInt16 := List.replicate n backslash

/-- The program name and what stands behind the blank that ends it. -/
def programName : Bool → List UInt16 → List UInt16 × List UInt16
  | _, [] => ([], [])
  | inQuotes, c :: s =>
    if c = quote then programName (!inQuotes) s
    else if inQuotes = false ∧ IsBlank c then ([], s)
    else (c :: (programName inQuotes s).1, (programName inQuotes s).2)

/-- Characters in front of an argument. -/
def put (front : List UInt16) (r : List UInt16 × List UInt16) : List UInt16 × List UInt16 :=
  (front ++ r.1, r.2)

/-- An argument and what stands behind it, from behind `n` backslashes. -/
def argument : ℕ → Bool → List UInt16 → List UInt16 × List UInt16
  | n, _, [] => (slashes n, [])
  | n, inQuotes, c :: s =>
    if c = backslash then argument (n + 1) inQuotes s
    else if c = quote then
      if n % 2 = 1 then put (slashes (n / 2) ++ [quote]) (argument 0 inQuotes s)
      else
        match s with
        | d :: s =>
          -- a doubled quote between quotes stands for one
          if inQuotes ∧ d = quote then put (slashes (n / 2) ++ [quote]) (argument 0 true s)
          else put (slashes (n / 2)) (argument 0 (!inQuotes) (d :: s))
        | [] => (slashes (n / 2), [])
    else if inQuotes = false ∧ IsBlank c then (slashes n, c :: s)
    else put (slashes n ++ [c]) (argument 0 inQuotes s)

lemma argument_slash (n : ℕ) (inQuotes : Bool) (s : List UInt16) :
    argument n inQuotes (backslash :: s) = argument (n + 1) inQuotes s := by
  rw [argument.eq_def]
  rfl

lemma argument_run (n m : ℕ) (inQuotes : Bool) (s : List UInt16) :
    argument n inQuotes (slashes m ++ s) = argument (n + m) inQuotes s := by
  induction m generalizing n with
  | zero => rfl
  | succ m ih =>
    change argument n inQuotes (backslash :: (slashes m ++ s)) = _
    rw [argument_slash, ih, Nat.add_right_comm, Nat.add_assoc]

/-- Behind an odd number of backslashes a quote is literal. -/
lemma argument_literal {n : ℕ} (hn : n % 2 = 1) (inQuotes : Bool) (s : List UInt16) :
    argument n inQuotes (quote :: s) = put (slashes (n / 2) ++ [quote]) (argument 0 inQuotes s) := by
  have hne : quote ≠ backslash := by decide
  rw [argument.eq_def]
  simp only [if_neg hne, if_true, if_pos hn]

/-- Behind an even number of them it opens or closes, as long as no other quote follows. -/
lemma argument_quote {n : ℕ} (hn : n % 2 = 0) (inQuotes : Bool) {s : List UInt16}
    (hs : s.head? ≠ some quote) :
    argument n inQuotes (quote :: s) = put (slashes (n / 2)) (argument 0 (!inQuotes) s) := by
  have hne : quote ≠ backslash := by decide
  have hodd : ¬n % 2 = 1 := by omega
  rw [argument.eq_def]
  simp only [if_neg hne, if_true, if_neg hodd]
  cases s with
  | nil => simp [put, argument, slashes]
  | cons d s =>
    have hd : ¬(inQuotes = true ∧ d = quote) := fun h => hs (congrArg some h.2)
    simp only [if_neg hd]

/-- An opening quote opens whatever follows. -/
lemma argument_open (s : List UInt16) : argument 0 false (quote :: s) = argument 0 true s := by
  have hne : quote ≠ backslash := by decide
  rw [argument.eq_def]
  cases s with
  | nil => rfl
  | cons d s => simp [put, slashes, hne]

/-- A character without a meaning of its own. -/
lemma argument_plain {c : UInt16} (hslash : c ≠ backslash) (hquote : c ≠ quote) {inQuotes : Bool}
    (hblank : inQuotes = false → ¬IsBlank c) (n : ℕ) (s : List UInt16) :
    argument n inQuotes (c :: s) = put (slashes n ++ [c]) (argument 0 inQuotes s) := by
  have hgo : ¬(inQuotes = false ∧ IsBlank c) := fun h => hblank h.1 h.2
  rw [argument.eq_def]
  simp only [if_neg hslash, if_neg hquote, if_neg hgo]

/-- The end of an argument: of the line, or a blank outside of quotes. -/
lemma argument_end (n : ℕ) {s : List UInt16} (hs : s = [] ∨ s.head? = some space) :
    argument n false s = (slashes n, s) := by
  rcases hs with rfl | hs
  · rw [argument.eq_def]
  · obtain ⟨t, rfl⟩ := List.head?_eq_some_iff.mp hs
    have hslash : space ≠ backslash := by decide
    have hquote : space ≠ quote := by decide
    have hblank : IsBlank space := Or.inl rfl
    rw [argument.eq_def]
    simp only [if_neg hslash, if_neg hquote, hblank, and_self, if_true]

lemma argument_length_le (n : ℕ) (inQuotes : Bool) (s : List UInt16) :
    (argument n inQuotes s).2.length ≤ s.length := by
  fun_induction argument n inQuotes s with
  | case1 => exact Nat.zero_le _
  | case2 n inQuotes s ih => exact ih.trans (Nat.le_succ _)
  | case3 n inQuotes s _ _ ih => exact ih.trans (Nat.le_succ _)
  | case4 n inQuotes _ _ d s _ ih => exact ih.trans ((Nat.le_succ _).trans (Nat.le_succ _))
  | case5 n inQuotes _ _ d s _ ih => exact ih.trans (Nat.le_succ _)
  | case6 => exact Nat.zero_le _
  | case7 => exact le_rfl
  | case8 n inQuotes c s _ _ _ ih => exact ih.trans (Nat.le_succ _)

/-- An argument takes a character at least. -/
lemma argument_length_lt {c : UInt16} (hc : ¬IsBlank c) (s : List UInt16) :
    (argument 0 false (c :: s)).2.length < (c :: s).length := by
  refine Nat.lt_succ_of_le ?_
  by_cases hslash : c = backslash
  · rw [hslash, argument_slash]
    exact argument_length_le _ _ _
  · by_cases hquote : c = quote
    · rw [hquote, argument_open]
      exact argument_length_le _ _ _
    · rw [argument_plain hslash hquote fun _ => hc]
      exact argument_length_le _ _ _

/-- The arguments behind the program name. -/
def arguments (s : List UInt16) : List (List UInt16) :=
  match _h : s.dropWhile (fun c => IsBlank c) with
  | [] => []
  | c :: t => (argument 0 false (c :: t)).1 :: arguments (argument 0 false (c :: t)).2
termination_by s.length
decreasing_by
  have hhead := List.head?_dropWhile_not (fun c : UInt16 => decide (IsBlank c)) s
  rw [_h] at hhead
  have hlen := (List.dropWhile_suffix (fun c : UInt16 => decide (IsBlank c)) (l := s)).length_le
  rw [_h] at hlen
  exact (argument_length_lt (of_decide_eq_false hhead) t).trans_le hlen

lemma arguments_nil : arguments [] = [] := by
  rw [arguments]
  rfl

lemma arguments_space (s : List UInt16) : arguments (space :: s) = arguments s := by
  have hblank : IsBlank space := Or.inl rfl
  have hdrop : (space :: s).dropWhile (fun c => IsBlank c) = s.dropWhile (fun c => IsBlank c) :=
    List.dropWhile_cons_of_pos (decide_eq_true hblank)
  rw [arguments.eq_def, arguments.eq_def]
  split <;> split <;> simp_all

lemma arguments_cons {c : UInt16} (hc : ¬IsBlank c) (s : List UInt16) :
    arguments (c :: s) =
      (argument 0 false (c :: s)).1 :: arguments (argument 0 false (c :: s)).2 := by
  have hdrop : (c :: s).dropWhile (fun c => IsBlank c) = c :: s :=
    List.dropWhile_cons_of_neg (by simpa using hc)
  rw [arguments.eq_def]
  split <;> simp_all

/-- The arguments of a command line. -/
def parse (s : List UInt16) : List (List UInt16) :=
  (programName false s).1 :: arguments (programName false s).2

end CommandLine
