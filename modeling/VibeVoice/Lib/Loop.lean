import Mathlib.Data.List.Basic
import Mathlib.Data.List.Forall2
import Mathlib.Data.List.Range

/-!
Loops over indices whose body may fail, as folds and maps in `Option`.

* `foldlM_range'`: an invariant each step keeps, and with which no step fails, holds at the end.
* `foldlM_eq_none`: a step that always fails ends the loop.
* `mapM_range`: what each index yields is found at its place.
* `mapM_getElem?`: the entries of a map that has not failed.
* `mapM_eq_pure`, `mapM_eq_throw`: the same where the body may also end with an error.
* `bind_eq_ok`, `mapM_eq_ok`: sequences and maps in `Except`.
-/

namespace VibeVoice.Loop

variable {α β : Type}

/-- A counting loop that keeps `P`. -/
lemma foldlM_range' {f : β → ℕ → Option β} {P : ℕ → β → Prop} {start step : ℕ} (count : ℕ) {b : β}
    (h : P start b)
    (hstep : ∀ i < count, ∀ b, P (start + step * i) b →
      ∃ b', f b (start + step * i) = some b' ∧ P (start + step * (i + 1)) b') :
    ∃ b', (List.range' start count step).foldlM f b = some b' ∧ P (start + step * count) b' := by
  induction count with
  | zero => exact ⟨b, rfl, h⟩
  | succ n ih =>
    obtain ⟨b₁, hb₁, h₁⟩ := ih fun i hi => hstep i (hi.trans n.lt_succ_self)
    obtain ⟨b₂, hb₂, h₂⟩ := hstep n n.lt_succ_self b₁ h₁
    refine ⟨b₂, ?_, h₂⟩
    rw [List.range'_concat, List.foldlM_append, hb₁]
    show List.foldlM f b₁ [start + step * n] = some b₂
    rw [List.foldlM_cons, hb₂]
    rfl

lemma foldlM_range {f : β → ℕ → Option β} {P : ℕ → β → Prop} {count : ℕ} {b : β} (h : P 0 b)
    (hstep : ∀ i < count, ∀ b, P i b → ∃ b', f b i = some b' ∧ P (i + 1) b') :
    ∃ b', (List.range count).foldlM f b = some b' ∧ P count b' := by
  rw [List.range_eq_range']
  obtain ⟨b', hrun, hP⟩ := foldlM_range' (P := P) count h fun i hi b hb => by
    rw [Nat.zero_add, Nat.one_mul] at hb ⊢
    rw [Nat.zero_add, Nat.one_mul]
    exact hstep i hi b hb
  rw [Nat.zero_add, Nat.one_mul] at hP
  exact ⟨b', hrun, hP⟩

/-- A step that fails from every state ends the loop. -/
lemma foldlM_eq_none {f : β → α → Option β} {xs : List α} {x : α} (hx : x ∈ xs)
    (h : ∀ b, f b x = none) (b : β) : xs.foldlM f b = none := by
  induction xs generalizing b with
  | nil => exact nomatch hx
  | cons y ys ih =>
    rw [List.foldlM_cons]
    rcases List.mem_cons.mp hx with rfl | hmem
    · rw [h]
      rfl
    · cases f b y with
      | none => rfl
      | some b' => exact ih hmem b'

lemma mapM_eq_none {f : α → Option β} {xs : List α} {x : α} (hx : x ∈ xs) (h : f x = none) :
    xs.mapM f = none := by
  induction xs with
  | nil => exact nomatch hx
  | cons y ys ih =>
    rw [List.mapM_cons]
    rcases List.mem_cons.mp hx with rfl | hmem
    · rw [h]
      rfl
    · rw [ih hmem]
      cases f y <;> rfl

lemma mapM_of_forall₂ {f : α → Option β} {xs : List α} {ys : List β}
    (h : List.Forall₂ (fun x y => f x = some y) xs ys) : xs.mapM f = some ys := by
  induction h with
  | nil => rfl
  | cons hxy _ ih =>
    rw [List.mapM_cons, hxy, ih]
    rfl

/-- A map over indices that fails at none of them. -/
lemma mapM_range {f : ℕ → Option β} {P : ℕ → β → Prop} {count : ℕ}
    (h : ∀ i < count, ∃ b, f i = some b ∧ P i b) :
    ∃ bs, (List.range count).mapM f = some bs ∧ bs.length = count ∧
      ∀ i < count, ∃ b, bs[i]? = some b ∧ P i b := by
  induction count with
  | zero => exact ⟨[], rfl, rfl, fun i hi => absurd hi i.not_lt_zero⟩
  | succ n ih =>
    obtain ⟨bs, hbs, hlen, hall⟩ := ih fun i hi => h i (hi.trans n.lt_succ_self)
    obtain ⟨b, hb, hP⟩ := h n n.lt_succ_self
    refine ⟨bs ++ [b], ?_, ?_, fun i hi => ?_⟩
    · rw [List.range_succ, List.mapM_append, hbs, List.mapM_cons, hb]
      rfl
    · rw [List.length_append, hlen]
      rfl
    · rcases Nat.lt_succ_iff_lt_or_eq.mp hi with hlt | rfl
      · rw [List.getElem?_append_left (hlen ▸ hlt)]
        exact hall i hlt
      · refine ⟨b, ?_, hP⟩
        rw [← hlen, List.getElem?_concat_length]

/-- A list read entry by entry. -/
lemma mapM_range_getElem? {f : ℕ → Option β} {xs : List β} (h : ∀ i < xs.length, f i = xs[i]?) :
    (List.range xs.length).mapM f = some xs := by
  obtain ⟨bs, hbs, hlen, hall⟩ := mapM_range (P := fun i b => xs[i]? = some b) fun i hi =>
    ⟨xs[i], (h i hi).trans (List.getElem?_eq_getElem hi), List.getElem?_eq_getElem hi⟩
  rw [hbs]
  refine congrArg some (List.ext_getElem? fun i => ?_)
  rcases Nat.lt_or_ge i xs.length with hi | hi
  · obtain ⟨b, hb, hx⟩ := hall i hi
    rw [hb, hx]
  · rw [List.getElem?_eq_none hi, List.getElem?_eq_none (hlen.le.trans hi)]

lemma mapM_length {f : α → Option β} {xs : List α} {ys : List β} (h : xs.mapM f = some ys) :
    ys.length = xs.length := by
  induction xs generalizing ys with
  | nil =>
    cases h
    rfl
  | cons x xs ih =>
    simp only [List.mapM_cons, Option.bind_eq_bind, Option.bind_eq_some_iff] at h
    obtain ⟨y, -, ys', hys', heq⟩ := h
    obtain rfl := Option.some.inj heq
    rw [List.length_cons, List.length_cons, ih hys']

/-- An entry of a map that has not failed. -/
lemma mapM_getElem? {f : α → Option β} {xs : List α} {ys : List β} (h : xs.mapM f = some ys)
    (i : ℕ) : ys[i]? = xs[i]?.bind f := by
  induction xs generalizing ys i with
  | nil =>
    cases h
    rfl
  | cons x xs ih =>
    simp only [List.mapM_cons, Option.bind_eq_bind, Option.bind_eq_some_iff] at h
    obtain ⟨y, hy, ys', hys', heq⟩ := h
    obtain rfl := Option.some.inj heq
    cases i with
    | zero => exact hy.symm
    | succ i => exact ih hys' i

/-- Where an entry of a map that has not failed comes from. -/
lemma exists_of_mapM {f : α → Option β} {xs : List α} {ys : List β} (h : xs.mapM f = some ys)
    {y : β} (hy : y ∈ ys) : ∃ x ∈ xs, f x = some y := by
  obtain ⟨i, hi⟩ := List.mem_iff_getElem?.mp hy
  rw [mapM_getElem? h] at hi
  obtain ⟨x, hx, hfx⟩ := Option.bind_eq_some_iff.mp hi
  exact ⟨x, List.mem_of_getElem? hx, hfx⟩

lemma mapM_isSome_iff {f : α → Option β} {xs : List α} :
    (xs.mapM f).isSome ↔ ∀ x ∈ xs, (f x).isSome := by
  induction xs with
  | nil => simp
  | cons x xs ih =>
    rw [List.mapM_cons, List.forall_mem_cons, ← ih]
    cases f x <;> cases xs.mapM f <;> simp

/-- What each index yields, of a map that has not failed. -/
lemma getElem?_of_mapM_range {f : ℕ → Option β} {n : ℕ} {ys : List β}
    (h : (List.range n).mapM f = some ys) : ys.length = n ∧ ∀ i < n, ys[i]? = f i := by
  refine ⟨(mapM_length h).trans List.length_range, fun i hi => ?_⟩
  rw [mapM_getElem? h, List.getElem?_range hi]
  rfl

/-- Counting in a map that has not failed. -/
lemma countP_of_mapM {f : α → Option β} {p : β → Bool} {xs : List α} {ys : List β}
    (h : xs.mapM f = some ys) : ys.countP p = xs.countP fun x => (f x).any p := by
  induction xs generalizing ys with
  | nil =>
    cases h
    rfl
  | cons x xs ih =>
    simp only [List.mapM_cons, Option.bind_eq_bind, Option.bind_eq_some_iff] at h
    obtain ⟨y, hy, ys', hys', heq⟩ := h
    obtain rfl := Option.some.inj heq
    rw [List.countP_cons, List.countP_cons, ih hys', hy, Option.any_some]

/-! ### Loops that may also end with an error -/

variable {ε : Type}

lemma mapM_eq_pure {m : Type → Type} [Monad m] [LawfulMonad m] {f : α → m β} {g : α → β}
    {xs : List α}
    (h : ∀ x ∈ xs, f x = pure (g x)) : xs.mapM f = pure (xs.map g) := by
  induction xs with
  | nil => rfl
  | cons x xs ih =>
    rw [List.mapM_cons, h x List.mem_cons_self, pure_bind,
      ih fun y hy => h y (List.mem_cons_of_mem x hy), pure_bind, List.map_cons]

/-- A map that can only fail with `e`, and does somewhere. -/
lemma mapM_eq_throw {f : α → ExceptT ε Option β} {e : ε} {xs : List α} {x : α} (hx : x ∈ xs)
    (h : ∀ y ∈ xs, (∃ b, f y = pure b) ∨ f y = throw e) (hfx : f x = throw e) :
    xs.mapM f = throw e := by
  induction xs with
  | nil => exact nomatch hx
  | cons y ys ih =>
    rw [List.mapM_cons]
    rcases h y List.mem_cons_self with ⟨b, hb⟩ | he
    · rcases List.mem_cons.mp hx with rfl | hmem
      · rw [hfx]
        rfl
      · rw [hb, pure_bind, ih hmem fun z hz => h z (List.mem_cons_of_mem y hz)]
        rfl
    · rw [he]
      rfl

lemma bind_eq_ok {ε : Type} {x : Except ε α} {f : α → Except ε β} {b : β} :
    x >>= f = .ok b ↔ ∃ a, x = .ok a ∧ f a = .ok b := by
  cases x with
  | error e => exact ⟨(nomatch ·), fun ⟨_, h, _⟩ => nomatch h⟩
  | ok a =>
    constructor
    · exact fun h => ⟨a, rfl, h⟩
    · rintro ⟨a', ha, h⟩
      cases ha
      exact h

/-- The elements of a list that a function of `Except` runs through. -/
lemma mapM_eq_ok {ε : Type} {f : α → Except ε β} {xs : List α} {ys : List β} :
    xs.mapM f = .ok ys ↔ List.Forall₂ (fun x y => f x = .ok y) xs ys := by
  induction xs generalizing ys with
  | nil =>
    rw [List.mapM_nil, List.forall₂_nil_left_iff]
    exact ⟨fun h => by cases h; rfl, fun h => by rw [h]; rfl⟩
  | cons x xs ih =>
    rw [List.mapM_cons, List.forall₂_cons_left_iff]
    cases hx : f x with
    | error e =>
      constructor
      · exact fun h => nomatch h
      · exact fun ⟨_, _, h, _⟩ => nomatch h
    | ok y =>
      cases hxs : xs.mapM f with
      | error e =>
        constructor
        · exact fun h => nomatch h
        · rintro ⟨y', ys', -, h, -⟩
          rw [ih.mpr h] at hxs
          cases hxs
      | ok ys' =>
        constructor
        · intro h
          cases h
          exact ⟨y, ys', rfl, ih.mp hxs, rfl⟩
        · rintro ⟨y', ys'', hy', h, rfl⟩
          cases hy'
          rw [ih.mpr h] at hxs
          cases hxs
          rfl

lemma exists_of_forall₂ {R : α → β → Prop} {xs : List α} {ys : List β}
    (h : List.Forall₂ R xs ys) {y : β} (hy : y ∈ ys) : ∃ x ∈ xs, R x y := by
  induction h with
  | nil => cases hy
  | cons hxy _ ih =>
    cases hy with
    | head => exact ⟨_, List.mem_cons_self, hxy⟩
    | tail _ hy =>
      obtain ⟨x, hx, hR⟩ := ih hy
      exact ⟨x, List.mem_cons_of_mem _ hx, hR⟩

end VibeVoice.Loop
