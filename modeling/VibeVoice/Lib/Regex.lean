import Mathlib.Tactic

/-!
Regular expressions as a backtracking matcher runs them.

A pattern has many ways to match at the front of an input.  `Pattern.ways` lists what each of
them leaves of the input, the way that is tried first in front: the left branch of an
alternative before the right one, one more round of a repetition before its end.  The match is
the first way.

* `first_alt`, `first_seq`: the first way of an alternative and of a sequence.
* `ways_star_one`, `first_star_seq_cons`: a repetition of one class is tried longest first.
* `search`, `findAll`: the leftmost match, and the successive matches of an input.
-/

namespace Regex

variable {α : Type*}

/-- A pattern over the classes of `α`, with a negative look-ahead. -/
inductive Pattern (α : Type*)
  | empty
  | one (p : α → Bool)
  | seq (a b : Pattern α)
  | alt (a b : Pattern α)
  | star (a : Pattern α)
  | notAhead (a : Pattern α)

namespace Pattern

/-- At most `n` rounds of a step, each of which must take something, longest first. -/
def rounds (step : List α → List (List α)) : ℕ → List α → List (List α)
  | 0, s => [s]
  | n + 1, s => ((step s).filter (·.length < s.length)).flatMap (rounds step n) ++ [s]

/-- What each way to match leaves of the input, in the order the ways are tried. -/
def ways : Pattern α → List α → List (List α)
  | .empty, s => [s]
  | .one _, [] => []
  | .one p, c :: s => if p c then [s] else []
  | .seq a b, s => (a.ways s).flatMap b.ways
  | .alt a b, s => a.ways s ++ b.ways s
  | .star a, s => rounds a.ways s.length s
  | .notAhead a, s => if (a.ways s).isEmpty then [s] else []

/-- What the match at the front of the input leaves of it. -/
def first (a : Pattern α) (s : List α) : Option (List α) := (a.ways s).head?

/-- `a?`, greedy. -/
def opt (a : Pattern α) : Pattern α := .alt a .empty

/-- `a+`, greedy. -/
def plus (a : Pattern α) : Pattern α := .seq a (.star a)

/-- `a|b|c|..`, the branches in order. -/
def anyOf : List (Pattern α) → Pattern α
  | [] => .one fun _ => false
  | [a] => a
  | a :: as => .alt a (anyOf as)

/-! ### The first way -/

variable {a b : Pattern α} {p : α → Bool} {s : List α}

lemma first_alt (a b : Pattern α) (s : List α) :
    (Pattern.alt a b).first s = (a.first s).or (b.first s) :=
  List.head?_append

lemma first_seq (a b : Pattern α) (s : List α) :
    (Pattern.seq a b).first s = (a.ways s).findSome? b.first :=
  List.head?_flatMap

lemma first_one_cons (p : α → Bool) (c : α) (s : List α) :
    (Pattern.one p).first (c :: s) = if p c then some s else none := by
  rw [first, ways]
  split_ifs <;> rfl

@[simp] lemma first_one_nil (p : α → Bool) : (Pattern.one p).first [] = none := rfl

/-- A class in front of a pattern. -/
lemma first_one_seq_cons (p : α → Bool) (b : Pattern α) (c : α) (s : List α) :
    (Pattern.seq (.one p) b).first (c :: s) = if p c then b.first s else none := by
  rw [first_seq, ways]
  split_ifs
  · rw [List.findSome?_singleton]
  · rfl

@[simp] lemma first_one_seq_nil (p : α → Bool) (b : Pattern α) :
    (Pattern.seq (.one p) b).first [] = none := rfl

/-- An optional part in front of a pattern: it is tried first. -/
lemma first_opt_seq (a b : Pattern α) (s : List α) :
    (Pattern.seq (.opt a) b).first s = ((Pattern.seq a b).first s).or (b.first s) := by
  rw [first_seq, first_seq, opt, ways, List.findSome?_append]
  simp [ways]

/-- What a greedy run over a class may leave, longest run first. -/
def leavings (p : α → Bool) : List α → List (List α)
  | [] => [[]]
  | c :: s => if p c then leavings p s ++ [c :: s] else [c :: s]

lemma rounds_one (p : α → Bool) (n : ℕ) (s : List α) (h : s.length ≤ n) :
    rounds (Pattern.one p).ways n s = leavings p s := by
  induction n generalizing s with
  | zero =>
    rw [List.length_eq_zero_iff.mp (Nat.le_zero.mp h)]
    rfl
  | succ n ih =>
    cases s with
    | nil => rfl
    | cons c s =>
      rw [rounds, leavings, ways]
      by_cases hc : p c = true
      · have hs := ih s (by simpa using h)
        simp [hc, hs]
      · simp [hc]

/-- A greedy run over a class gives its characters back one by one. -/
lemma ways_star_one (p : α → Bool) (s : List α) :
    (Pattern.star (.one p)).ways s = leavings p s :=
  rounds_one p s.length s le_rfl

/-- A run in front of a pattern: one more round is tried before the run ends. -/
lemma first_star_seq_cons (p : α → Bool) (b : Pattern α) (c : α) (s : List α) :
    (Pattern.seq (.star (.one p)) b).first (c :: s) =
      if p c then ((Pattern.seq (.star (.one p)) b).first s).or (b.first (c :: s))
      else b.first (c :: s) := by
  simp only [first_seq, ways_star_one, leavings]
  split_ifs
  · rw [List.findSome?_append, List.findSome?_singleton]
  · rw [List.findSome?_singleton]

@[simp] lemma first_star_seq_nil (p : α → Bool) (b : Pattern α) :
    (Pattern.seq (.star (.one p)) b).first [] = b.first [] := by
  rw [first_seq, ways_star_one, leavings, List.findSome?_singleton]

/-- What matches behind a run matches behind a longer one. -/
lemma first_star_seq_append {v : List α} (hv : ∀ c ∈ v, p c) {t : List α}
    (h : (Pattern.seq (.star (.one p)) b).first s = some t) :
    (Pattern.seq (.star (.one p)) b).first (v ++ s) = some t := by
  induction v with
  | nil => exact h
  | cons c v ih =>
    rw [List.cons_append, first_star_seq_cons, if_pos (hv c List.mem_cons_self),
      ih fun d hd => hv d (List.mem_cons_of_mem _ hd), Option.some_or]

/-- In front of what always matches the run is taken whole. -/
lemma first_star_seq_of_isSome (p : α → Bool) (b : Pattern α) (hb : ∀ t, (b.first t).isSome)
    (s : List α) : (Pattern.seq (.star (.one p)) b).first s = b.first (s.dropWhile p) := by
  induction s with
  | nil => rw [first_star_seq_nil, List.dropWhile_nil]
  | cons c s ih =>
    rw [first_star_seq_cons, ih, List.dropWhile_cons]
    split_ifs
    · exact Option.or_of_isSome (hb _)
    · rfl

lemma first_star (p : α → Bool) (s : List α) :
    (Pattern.star (.one p)).first s = some (s.dropWhile p) := by
  rw [first, ways_star_one]
  induction s with
  | nil => rfl
  | cons c s ih =>
    rw [leavings]
    by_cases hc : p c = true
    · simp [hc, ih]
    · simp [hc]

lemma first_plus_cons (p : α → Bool) (c : α) (s : List α) :
    (plus (.one p)).first (c :: s) = if p c then some (s.dropWhile p) else none := by
  rw [plus, first_one_seq_cons, first_star]

@[simp] lemma first_plus_nil (p : α → Bool) : (plus (.one p)).first [] = none := rfl

/-- A run takes all it can, and matches if it takes something. -/
lemma first_plus (p : α → Bool) (s : List α) :
    (plus (.one p)).first s = if s.takeWhile p = [] then none else some (s.dropWhile p) := by
  cases s with
  | nil => rfl
  | cons c s =>
    rw [first_plus_cons]
    by_cases hc : p c = true
    · simp [hc]
    · simp [hc]

lemma first_plus_seq_cons (p : α → Bool) (b : Pattern α) (c : α) (s : List α) :
    (Pattern.seq (plus (.one p)) b).first (c :: s) =
      if p c then (Pattern.seq (.star (.one p)) b).first s else none := by
  rw [first_seq, plus, ways, ways]
  split_ifs
  · rw [List.flatMap_singleton, first_seq]
  · rfl

@[simp] lemma first_plus_seq_nil (p : α → Bool) (b : Pattern α) :
    (Pattern.seq (plus (.one p)) b).first [] = none := rfl

/-- A run in front of what always matches takes all it can, and matches if it takes
something. -/
lemma first_plus_seq_of_isSome (p : α → Bool) (b : Pattern α) (hb : ∀ t, (b.first t).isSome)
    (s : List α) : (Pattern.seq (plus (.one p)) b).first s =
      if s.takeWhile p = [] then none else b.first (s.dropWhile p) := by
  cases s with
  | nil => rfl
  | cons c s =>
    rw [first_plus_seq_cons, first_star_seq_of_isSome p b hb]
    by_cases hc : p c = true
    · simp [hc]
    · simp [hc]

lemma first_notAhead (a : Pattern α) (s : List α) :
    (Pattern.notAhead a).first s = if (a.ways s).isEmpty then some s else none := by
  rw [first, ways]
  split_ifs <;> rfl

/-! ### Searching -/

/-- The leftmost match: what stands before it, the match, and what it leaves. -/
def search (a : Pattern α) : List α → Option (List α × List α × List α)
  | [] => (a.first []).map fun rest => ([], [], rest)
  | c :: s =>
    match a.first (c :: s) with
    | some rest => some ([], (c :: s).take ((c :: s).length - rest.length), rest)
    | none => (search a s).map fun m => (c :: m.1, m.2)

/-- The successive leftmost matches of an input, up to the first one that takes nothing. -/
def findAll (a : Pattern α) (s : List α) : List (List α) :=
  match search a s with
  | none => []
  | some m => if m.2.2.length < s.length then m.2.1 :: findAll a m.2.2 else []
termination_by s.length

/-- A pattern that matches at the front is found there. -/
lemma findAll_cons {w r : List α} (hw : w ≠ []) (h : a.first (w ++ r) = some r) :
    a.findAll (w ++ r) = w :: a.findAll r := by
  have hlt : r.length < (w ++ r).length := by
    rw [List.length_append]
    have := List.length_pos_iff.mpr hw
    omega
  have hsearch : a.search (w ++ r) = some ([], w, r) := by
    obtain ⟨c, s, hs⟩ := List.exists_cons_of_ne_nil (l := w ++ r) (by simp [hw])
    rw [hs] at h ⊢
    rw [search, h, ← hs]
    simp
  rw [findAll, hsearch]
  exact if_pos hlt

lemma findAll_nil (h : a.first [] = none) : a.findAll [] = [] := by
  rw [findAll, search, h]
  rfl

end Pattern

end Regex
