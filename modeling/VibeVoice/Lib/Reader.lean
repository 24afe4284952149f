import Mathlib.Data.List.Basic

/-!
Readers that walk forward through a string and fail for good.

* `Reader.Yields`: what holds of every answer of a reader.
* `Reader.Extends`: a reader that succeeds on a string succeeds in the same way on every longer
  one.
* `Reader.Reads`: from a place on, a reader takes exactly the given piece and answers `a`.
* `Reader.Reads.many`: records written one after the other are read back one after the other.
-/

namespace VibeVoice

/-- A place in a string: what lies ahead of it, and how much behind. -/
structure Cursor (β : Type) where
  pos : ℕ
  rest : List β

/-- A reader of strings over `β` that fails with an `ε`. -/
abbrev Reader (ε β α : Type) := StateT (Cursor β) (Except ε) α

namespace Reader

variable {ε β α γ : Type}

/-! ### The readers -/

/-- The next `n` letters. -/
def take (e : ε) (n : ℕ) : Reader ε β (List β) := fun c =>
  if n ≤ c.rest.length then .ok (c.rest.take n, ⟨c.pos + n, c.rest.drop n⟩) else .error e

/-- Fails where the number of letters ahead is refused. -/
def guardRest (e : ε) (ok : ℕ → Bool) : Reader ε β Unit := fun c =>
  if ok c.rest.length then .ok ((), c) else .error e

/-- Where the reader stands. -/
def position : Reader ε β ℕ := fun c => .ok (c.pos, c)

/-- A failure, whatever lies ahead. -/
def fail (e : ε) : Reader ε β α := fun _ => .error e

/-- A reader under another failure. -/
def orFail (e : ε) (p : Reader ε β α) : Reader ε β α := fun c =>
  match p.run c with
  | .ok r => .ok r
  | .error _ => .error e

/-- `n` times the same reader, for its answers. -/
def many : ℕ → Reader ε β α → Reader ε β (List α)
  | 0, _ => pure []
  | n + 1, p => do
      let a ← p
      let as ← many n p
      pure (a :: as)

/-- `n` times the same reader, for where it ends. -/
def skipMany : ℕ → Reader ε β Unit → Reader ε β Unit
  | 0, _ => pure ()
  | n + 1, p => do
      p
      skipMany n p

lemma bind_eq_ok {p : Reader ε β α} {f : α → Reader ε β γ} {c c' : Cursor β} {b : γ} :
    (p >>= f).run c = .ok (b, c') ↔
      ∃ a c₁, p.run c = .ok (a, c₁) ∧ (f a).run c₁ = .ok (b, c') := by
  rw [StateT.run_bind]
  cases p.run c with
  | error e =>
    constructor
    · exact fun h => nomatch h
    · exact fun ⟨_, _, h, _⟩ => nomatch h
  | ok r =>
    constructor
    · exact fun h => ⟨r.1, r.2, rfl, h⟩
    · rintro ⟨a, c₁, h, hf⟩
      cases h
      exact hf

lemma run_bind_of_ok {p : Reader ε β α} {f : α → Reader ε β γ} {c c₁ : Cursor β} {a : α}
    (h : p.run c = .ok (a, c₁)) : (p >>= f).run c = (f a).run c₁ := by
  rw [StateT.run_bind, h]
  rfl

lemma run_take {e : ε} {n : ℕ} {c c' : Cursor β} {bs : List β}
    (h : (take e n).run c = .ok (bs, c')) :
    n ≤ c.rest.length ∧ bs = c.rest.take n ∧ c' = ⟨c.pos + n, c.rest.drop n⟩ := by
  have hrun : (take e n).run c = if n ≤ c.rest.length then
      .ok (c.rest.take n, ⟨c.pos + n, c.rest.drop n⟩) else .error e := rfl
  rw [hrun] at h
  split_ifs at h with hle
  cases h
  exact ⟨hle, rfl, rfl⟩

lemma run_orFail (e : ε) (p : Reader ε β α) (c : Cursor β) :
    (∀ r, p.run c = .ok r → (orFail e p).run c = .ok r) ∧
      ∀ e', p.run c = .error e' → (orFail e p).run c = .error e := by
  have hrun : (orFail e p).run c =
      match p.run c with
      | .ok r => .ok r
      | .error _ => .error e := rfl
  rw [hrun]
  constructor
  · intro r h
    rw [h]
  · intro e' h
    rw [h]

/-! ### Answers -/

/-- `P` holds of whatever the reader answers. -/
def Yields (p : Reader ε β α) (P : α → Prop) : Prop :=
  ∀ c a c', p.run c = .ok (a, c') → P a

lemma Yields.pure {P : α → Prop} {a : α} (h : P a) : Yields (pure a : Reader ε β α) P := by
  intro c b c' hrun
  cases hrun
  exact h

lemma Yields.fail {P : α → Prop} (e : ε) : Yields (fail e : Reader ε β α) P :=
  fun _ _ _ h => nomatch h

lemma Yields.bind {p : Reader ε β α} {f : α → Reader ε β γ} {P : α → Prop} {Q : γ → Prop}
    (hp : Yields p P) (hf : ∀ a, P a → Yields (f a) Q) : Yields (p >>= f) Q := by
  intro c b c' h
  obtain ⟨a, c₁, ha, hb⟩ := bind_eq_ok.mp h
  exact hf a (hp c a c₁ ha) c₁ b c' hb

/-- A reader of whose answer nothing is needed. -/
lemma Yields.then {p : Reader ε β α} {f : α → Reader ε β γ} {Q : γ → Prop}
    (hf : ∀ a, Yields (f a) Q) : Yields (p >>= f) Q :=
  Yields.bind (P := fun _ => True) (fun _ _ _ _ => trivial) fun a _ => hf a

lemma Yields.ite {p q : Reader ε β α} {P : α → Prop} {ok : Prop} [Decidable ok]
    (hp : ok → Yields p P) (hq : ¬ok → Yields q P) : Yields (if ok then p else q) P := by
  split_ifs with h
  · exact hp h
  · exact hq h

lemma Yields.many {p : Reader ε β α} {P : α → Prop} (hp : Yields p P) (n : ℕ) :
    Yields (many n p) fun as => ∀ a ∈ as, P a := by
  induction n with
  | zero => exact Yields.pure fun _ h => nomatch h
  | succ n ih =>
    refine hp.bind fun a ha => ih.bind fun as has => Yields.pure fun b hb => ?_
    rcases List.mem_cons.mp hb with rfl | hmem
    · exact ha
    · exact has b hmem

/-! ### More letters at the end -/

/-- What the reader answers does not change when the string goes on. -/
def Extends (p : Reader ε β α) : Prop :=
  ∀ c a c', p.run c = .ok (a, c') → ∀ ys,
    p.run ⟨c.pos, c.rest ++ ys⟩ = .ok (a, ⟨c'.pos, c'.rest ++ ys⟩)

lemma Extends.pure (a : α) : Extends (pure a : Reader ε β α) := by
  intro c b c' h ys
  cases h
  rfl

lemma Extends.fail (e : ε) : Extends (fail e : Reader ε β α) := fun _ _ _ h => nomatch h

lemma Extends.bind {p : Reader ε β α} {f : α → Reader ε β γ} (hp : Extends p)
    (hf : ∀ a, Extends (f a)) : Extends (p >>= f) := by
  intro c b c' h ys
  obtain ⟨a, c₁, hc₁, hc'⟩ := bind_eq_ok.mp h
  rw [run_bind_of_ok (hp c a c₁ hc₁ ys)]
  exact hf a c₁ b c' hc' ys

lemma Extends.map {p : Reader ε β α} (hp : Extends p) (f : α → γ) : Extends (f <$> p) :=
  hp.bind fun a => Extends.pure (f a)

lemma Extends.take (e : ε) (n : ℕ) : Extends (take e n : Reader ε β (List β)) := by
  intro c bs c' h ys
  obtain ⟨hle, rfl, rfl⟩ := run_take h
  have hle' : n ≤ (c.rest ++ ys).length := by
    rw [List.length_append]
    omega
  calc (Reader.take e n).run ⟨c.pos, c.rest ++ ys⟩
      = .ok ((c.rest ++ ys).take n, ⟨c.pos + n, (c.rest ++ ys).drop n⟩) := if_pos hle'
    _ = _ := by rw [List.take_append_of_le_length hle, List.drop_append_of_le_length hle]

/-- A bound that more letters can only help to meet. -/
lemma Extends.guardRest (e : ε) {ok : ℕ → Bool} (hok : ∀ m n, m ≤ n → ok m → ok n) :
    Extends (guardRest e ok : Reader ε β Unit) := by
  intro c u c' h ys
  have hrun : ∀ c : Cursor β, (Reader.guardRest e ok).run c =
      if ok c.rest.length then .ok ((), c) else .error e := fun _ => rfl
  rw [hrun] at h ⊢
  split_ifs at h with hc
  cases h
  exact if_pos (hok _ _ (by rw [List.length_append]; omega) hc)

lemma Extends.position : Extends (position : Reader ε β ℕ) := by
  intro c n c' h ys
  cases h
  rfl

lemma Extends.orFail {p : Reader ε β α} (hp : Extends p) (e : ε) : Extends (orFail e p) := by
  intro c a c' h ys
  have hrun : ∀ c, (Reader.orFail e p).run c =
      match p.run c with
      | .ok r => .ok r
      | .error _ => .error e := fun _ => rfl
  rw [hrun] at h ⊢
  cases hc : p.run c with
  | error e' => rw [hc] at h; cases h
  | ok r =>
    rw [hc] at h
    cases h
    rw [hp c a c' hc ys]

lemma Extends.many {p : Reader ε β α} (hp : Extends p) (n : ℕ) : Extends (many n p) := by
  induction n with
  | zero => exact Extends.pure []
  | succ n ih => exact hp.bind fun a => ih.bind fun as => Extends.pure (a :: as)

lemma Extends.skipMany {p : Reader ε β Unit} (hp : Extends p) (n : ℕ) :
    Extends (skipMany n p) := by
  induction n with
  | zero => exact Extends.pure ()
  | succ n ih => exact hp.bind fun _ => ih

lemma Extends.ite {p q : Reader ε β α} {P : Prop} [Decidable P] (hp : Extends p)
    (hq : Extends q) : Extends (if P then p else q) := by
  split_ifs
  · exact hp
  · exact hq

/-! ### Reading what was written -/

/-- From `pos` on, the reader takes exactly `bs`, whatever follows, and answers `a`. -/
def Reads (p : Reader ε β α) (pos : ℕ) (bs : List β) (a : α) : Prop :=
  ∀ ys, p.run ⟨pos, bs ++ ys⟩ = .ok (a, ⟨pos + bs.length, ys⟩)

lemma Reads.pure (pos : ℕ) (a : α) : Reads (pure a : Reader ε β α) pos [] a := fun _ => rfl

lemma Reads.bind {p : Reader ε β α} {f : α → Reader ε β γ} {pos : ℕ} {bs cs : List β} {a : α}
    {b : γ} (hp : Reads p pos bs a) (hf : Reads (f a) (pos + bs.length) cs b) :
    Reads (p >>= f) pos (bs ++ cs) b := by
  intro ys
  rw [List.append_assoc, run_bind_of_ok (hp (cs ++ ys)), hf ys, List.length_append, Nat.add_assoc]

/-- The last step of a reader, which takes nothing. -/
lemma Reads.bind_pure {p : Reader ε β α} {f : α → γ} {pos : ℕ} {bs : List β} {a : α}
    (hp : Reads p pos bs a) : Reads (p >>= fun a => Pure.pure (f a)) pos bs (f a) := by
  intro ys
  rw [run_bind_of_ok (hp ys)]
  rfl

lemma Reads.map {p : Reader ε β α} {pos : ℕ} {bs : List β} {a : α} (hp : Reads p pos bs a)
    (f : α → γ) : Reads (f <$> p) pos bs (f a) :=
  hp.bind_pure

lemma Reads.take (e : ε) (pos : ℕ) {bs : List β} {n : ℕ} (hn : bs.length = n) :
    Reads (take e n) pos bs bs := by
  intro ys
  have hle : n ≤ (bs ++ ys).length := by
    rw [List.length_append]
    omega
  calc (Reader.take e n).run ⟨pos, bs ++ ys⟩
      = .ok ((bs ++ ys).take n, ⟨pos + n, (bs ++ ys).drop n⟩) := if_pos hle
    _ = _ := by rw [← hn, List.take_left, List.drop_left]

/-- A step that only looks at how much there is, before what follows it. -/
lemma Reads.guardRest_bind (e : ε) {ok : ℕ → Bool} {f : Unit → Reader ε β γ} {pos : ℕ}
    {bs : List β} {b : γ} (hok : ∀ n, bs.length ≤ n → ok n) (hf : Reads (f ()) pos bs b) :
    Reads (guardRest e ok >>= f) pos bs b := by
  intro ys
  have hrun : (guardRest e ok).run ⟨pos, bs ++ ys⟩ = .ok ((), ⟨pos, bs ++ ys⟩) :=
    if_pos (hok _ (by rw [List.length_append]; omega))
  rw [run_bind_of_ok hrun]
  exact hf ys

lemma Reads.position_bind {f : ℕ → Reader ε β γ} {pos : ℕ} {bs : List β} {b : γ}
    (hf : Reads (f pos) pos bs b) : Reads (position >>= f) pos bs b := by
  intro ys
  have hrun : (position : Reader ε β ℕ).run ⟨pos, bs ++ ys⟩ = .ok (pos, ⟨pos, bs ++ ys⟩) := rfl
  rw [run_bind_of_ok hrun]
  exact hf ys

lemma Reads.orFail {p : Reader ε β α} {pos : ℕ} {bs : List β} {a : α} (hp : Reads p pos bs a)
    (e : ε) : Reads (orFail e p) pos bs a := by
  intro ys
  have hrun : (Reader.orFail e p).run ⟨pos, bs ++ ys⟩ =
      match p.run ⟨pos, bs ++ ys⟩ with
      | .ok r => .ok r
      | .error _ => .error e := rfl
  rw [hrun, hp ys]

/-- What records answer, each at the place it starts. -/
def answers {ι : Type} (write : ι → List β) (answer : ℕ → ι → α) : ℕ → List ι → List α
  | _, [] => []
  | pos, x :: xs => answer pos x :: answers write answer (pos + (write x).length) xs

/-- Records written one after the other are read back one after the other. -/
lemma Reads.many {ι : Type} {p : Reader ε β α} {write : ι → List β} {answer : ℕ → ι → α}
    {xs : List ι} (hp : ∀ x ∈ xs, ∀ pos, Reads p pos (write x) (answer pos x)) (pos : ℕ) :
    Reads (many xs.length p) pos (xs.flatMap write) (answers write answer pos xs) := by
  induction xs generalizing pos with
  | nil => exact Reads.pure pos []
  | cons x xs ih =>
    have hx : Reads p pos (write x) (answer pos x) := hp x List.mem_cons_self pos
    have hxs := ih (fun y hy => hp y (List.mem_cons_of_mem x hy)) (pos + (write x).length)
    exact hx.bind hxs.bind_pure

lemma Reads.skipMany {ι : Type} {p : Reader ε β Unit} {write : ι → List β} {xs : List ι}
    (hp : ∀ x ∈ xs, ∀ pos, Reads p pos (write x) ()) (pos : ℕ) :
    Reads (skipMany xs.length p) pos (xs.flatMap write) () := by
  induction xs generalizing pos with
  | nil => exact Reads.pure pos ()
  | cons x xs ih =>
    have hx : Reads p pos (write x) () := hp x List.mem_cons_self pos
    exact hx.bind (ih (fun y hy => hp y (List.mem_cons_of_mem x hy)) (pos + (write x).length))

/-- Records whose answers do not depend on where they stand. -/
lemma answers_const {ι : Type} (write : ι → List β) (answer : ι → α) (pos : ℕ) (xs : List ι) :
    answers write (fun _ => answer) pos xs = xs.map answer := by
  induction xs generalizing pos with
  | nil => rfl
  | cons x xs ih => rw [answers, ih, List.map_cons]

/-- A piece of a string is there from its second half on. -/
lemma drop_of_append_isPrefix {bs cs whole : List β} {pos : ℕ} (h : bs ++ cs <+: whole.drop pos) :
    bs <+: whole.drop pos ∧ cs <+: whole.drop (pos + bs.length) := by
  obtain ⟨ys, hys⟩ := h
  constructor
  · exact ⟨cs ++ ys, by rw [← hys, List.append_assoc]⟩
  · refine ⟨ys, ?_⟩
    rw [← List.drop_drop, ← hys, List.append_assoc, List.drop_left]

/-- Each record is answered for at a place where it stands. -/
lemma forall₂_answers {ι : Type} {write : ι → List β} {answer : ℕ → ι → α} {whole : List β}
    {P : ι → α → Prop} {pos : ℕ} {xs : List ι} (h : xs.flatMap write <+: whole.drop pos)
    (hP : ∀ x ∈ xs, ∀ pos, write x <+: whole.drop pos → P x (answer pos x)) :
    List.Forall₂ P xs (answers write answer pos xs) := by
  induction xs generalizing pos with
  | nil => exact .nil
  | cons x xs ih =>
    rw [List.flatMap_cons] at h
    obtain ⟨hx, hxs⟩ := drop_of_append_isPrefix h
    exact .cons (hP x List.mem_cons_self pos hx)
      (ih hxs fun y hy => hP y (List.mem_cons_of_mem x hy))

/-- The first answer of a kind is that of the first record of the kind. -/
lemma find?_answers {ι : Type} (write : ι → List β) (answer : ℕ → ι → α) {p : α → Bool}
    {q : ι → Bool} (hpq : ∀ pos x, p (answer pos x) = q x) (pos : ℕ) (xs : List ι) :
    (xs.find? q = none → (answers write answer pos xs).find? p = none) ∧
      ∀ x, xs.find? q = some x →
        ∃ at_, (answers write answer pos xs).find? p = some (answer at_ x) := by
  induction xs generalizing pos with
  | nil => exact ⟨fun _ => rfl, nofun⟩
  | cons x xs ih =>
    rw [answers, List.find?_cons, List.find?_cons, hpq]
    cases q x with
    | true =>
      refine ⟨nofun, fun y hy => ⟨pos, ?_⟩⟩
      cases hy
      rfl
    | false => exact ih _

lemma length_answers {ι : Type} (write : ι → List β) (answer : ℕ → ι → α) (pos : ℕ)
    (xs : List ι) : (answers write answer pos xs).length = xs.length := by
  induction xs generalizing pos with
  | nil => rfl
  | cons x xs ih => rw [answers, List.length_cons, ih, List.length_cons]

end Reader

end VibeVoice
