import Mathlib.Tactic

/-!
Programs that change a state and may fail, and how to reason about them.

A program is `ExceptT ε (StateM σ) α`: a failure keeps the state in which it happened.

* `Triple P p Q E`: from a state in `P` the program ends with `Q`, or fails with `E`.
* `Keeps view p`: the program leaves a view of the state as it is.
* `Related R p q S F`: two programs run from states in `R` end alike, in states related by `S`
  when they return and by `F` when they fail.

There is one rule for each way to build a program, for both: `pure`, `bind`, `throw`, `get`,
`modify`, `ite`, `catch`, and `zoom` for a program over a part of the state.
-/

namespace Prog

variable {ε σ τ α β : Type}

/-- A program over the state `σ` that returns an `α` or fails with an `ε`. -/
abbrev Program (ε σ α : Type) := ExceptT ε (StateM σ) α

/-- Run a program from a state. -/
def exec (p : Program ε σ α) (s : σ) : Except ε α × σ := p s

/-- Fail when a condition holds. -/
def failIf (c : Prop) [Decidable c] (e : ε) : Program ε σ Unit := if c then throw e else pure ()

/-- A program over a part of the state. -/
def zoom (view : τ → σ) (put : σ → τ → τ) (p : Program ε σ α) : Program ε τ α :=
  fun t => ((exec p (view t)).1, put (exec p (view t)).2 t)

@[simp] lemma exec_pure (a : α) (s : σ) : exec (pure a : Program ε σ α) s = (.ok a, s) := rfl

@[simp] lemma exec_throw (e : ε) (s : σ) : exec (throw e : Program ε σ α) s = (.error e, s) := rfl

@[simp] lemma exec_get (s : σ) : exec (get : Program ε σ σ) s = (.ok s, s) := rfl

@[simp] lemma exec_modify (f : σ → σ) (s : σ) :
    exec (modify f : Program ε σ PUnit) s = (.ok ⟨⟩, f s) := rfl

@[simp] lemma exec_bind (p : Program ε σ α) (f : α → Program ε σ β) (s : σ) :
    exec (p >>= f) s =
      match exec p s with
      | (.ok a, s') => exec (f a) s'
      | (.error e, s') => (.error e, s') := by
  show (p s >>= fun r => ExceptT.bindCont f r.1 r.2 : Id _) = _
  simp only [exec]
  rcases p s with ⟨_ | _, s'⟩ <;> rfl

@[simp] lemma exec_tryCatch (p : Program ε σ α) (h : ε → Program ε σ α) (s : σ) :
    exec (tryCatch p h) s =
      match exec p s with
      | (.ok a, s') => (.ok a, s')
      | (.error e, s') => exec (h e) s' := by
  show exec (ExceptT.tryCatch p h) s = _
  simp only [exec, ExceptT.tryCatch, ExceptT.mk]
  show (StateT.bind p _ s : Id _) = _
  simp only [StateT.bind]
  rcases p s with ⟨_ | _, s'⟩ <;> rfl

@[simp] lemma exec_zoom (view : τ → σ) (put : σ → τ → τ) (p : Program ε σ α) (t : τ) :
    exec (zoom view put p) t = ((exec p (view t)).1, put (exec p (view t)).2 t) := rfl

/-! ### Triples -/

/-- What a program ends with: `Q` of its value and state, or `E` of its failure and state. -/
def Post (Q : α → σ → Prop) (E : ε → σ → Prop) : Except ε α × σ → Prop
  | (.ok a, s) => Q a s
  | (.error e, s) => E e s

@[simp] lemma post_ok {Q : α → σ → Prop} {E : ε → σ → Prop} {a : α} {s : σ} :
    Post Q E (.ok a, s) ↔ Q a s := Iff.rfl

@[simp] lemma post_error {Q : α → σ → Prop} {E : ε → σ → Prop} {e : ε} {s : σ} :
    Post Q E (.error e, s) ↔ E e s := Iff.rfl

lemma Post.mono {Q Q' : α → σ → Prop} {E E' : ε → σ → Prop} {r : Except ε α × σ}
    (h : Post Q E r) (hQ : ∀ a s, Q a s → Q' a s) (hE : ∀ e s, E e s → E' e s) : Post Q' E' r := by
  rcases r with ⟨e | a, s⟩
  · exact hE e s h
  · exact hQ a s h

/-- From a state in `P` the program ends with `Q`, or fails with `E`. -/
def Triple (P : σ → Prop) (p : Program ε σ α) (Q : α → σ → Prop) (E : ε → σ → Prop) : Prop :=
  ∀ s, P s → Post Q E (exec p s)

namespace Triple

variable {P P' : σ → Prop} {Q Q' : α → σ → Prop} {E E' : ε → σ → Prop}

lemma pure {a : α} (h : ∀ s, P s → Q a s) : Triple P (Pure.pure a : Program ε σ α) Q E :=
  fun s hs => h s hs

lemma throw {e : ε} (h : ∀ s, P s → E e s) : Triple P (throw e : Program ε σ α) Q E :=
  fun s hs => h s hs

lemma modify {f : σ → σ} {Q : PUnit → σ → Prop} (h : ∀ s, P s → Q ⟨⟩ (f s)) :
    Triple P (modify f : Program ε σ PUnit) Q E :=
  fun s hs => h s hs

lemma conseq {p : Program ε σ α} (h : Triple P' p Q' E') (hP : ∀ s, P s → P' s)
    (hQ : ∀ a s, Q' a s → Q a s) (hE : ∀ e s, E' e s → E e s) : Triple P p Q E :=
  fun s hs => (h s (hP s hs)).mono hQ hE

/-- Every program ends somehow. -/
lemma true (p : Program ε σ α) : Triple P p (fun _ _ => True) fun _ _ => True := by
  intro s _
  rcases exec p s with ⟨_ | _, _⟩ <;> exact trivial

/-- A fact that is not about the state stays one. -/
lemma const (c : Prop) (p : Program ε σ α) :
    Triple (fun _ => c) p (fun _ _ => c) fun _ _ => True := by
  intro s hc
  rcases exec p s with ⟨_ | _, _⟩
  · exact trivial
  · exact hc

/-- The rule of sequence. -/
lemma bind {p : Program ε σ α} {f : α → Program ε σ β} {R : α → σ → Prop} {Q : β → σ → Prop}
    (hp : Triple P p R E) (hf : ∀ a, Triple (R a) (f a) Q E) : Triple P (p >>= f) Q E := by
  intro s hs
  have hpost := hp s hs
  rw [exec_bind]
  revert hpost
  rcases exec p s with ⟨e | a, s'⟩
  · exact id
  · exact fun h => hf a s' h

/-- Reading the state. -/
lemma get_bind {f : σ → Program ε σ β} {Q : β → σ → Prop}
    (h : ∀ s, P s → Post Q E (exec (f s) s)) : Triple P (get >>= f) Q E := by
  intro s hs
  rw [exec_bind]
  exact h s hs

lemma ite {c : Prop} [Decidable c] {p q : Program ε σ α} (hp : c → Triple P p Q E)
    (hq : ¬ c → Triple P q Q E) : Triple P (if c then p else q) Q E := by
  split_ifs with hc
  · exact hp hc
  · exact hq hc

lemma failIf {c : Prop} [Decidable c] {e : ε} {Q : Unit → σ → Prop}
    (hfail : c → ∀ s, P s → E e s) (hgo : ¬ c → ∀ s, P s → Q () s) :
    Triple P (failIf c e) Q E :=
  ite (fun hc => throw (hfail hc)) fun hc => pure (hgo hc)

lemma tryCatch {p : Program ε σ α} {h : ε → Program ε σ α} (hp : Triple P p Q E)
    (hh : ∀ e, Triple (E e) (h e) Q E') : Triple P (tryCatch p h) Q E' := by
  intro s hs
  have hpost := hp s hs
  rw [exec_tryCatch]
  revert hpost
  rcases exec p s with ⟨e | a, s'⟩
  · exact fun he => hh e s' he
  · exact id

end Triple

/-! ### Frames -/

/-- The program leaves what `view` shows of the state as it is, also when it fails. -/
def Keeps (view : σ → τ) (p : Program ε σ α) : Prop := ∀ s, view (exec p s).2 = view s

namespace Keeps

variable {view : σ → τ}

lemma pure (a : α) : Keeps view (Pure.pure a : Program ε σ α) := fun _ => rfl

lemma throw (e : ε) : Keeps view (throw e : Program ε σ α) := fun _ => rfl

lemma modify {f : σ → σ} (h : ∀ s, view (f s) = view s) :
    Keeps view (modify f : Program ε σ PUnit) := h

lemma bind {p : Program ε σ α} {f : α → Program ε σ β} (hp : Keeps view p)
    (hf : ∀ a, Keeps view (f a)) : Keeps view (p >>= f) := by
  intro s
  have hs := hp s
  rw [exec_bind]
  revert hs
  rcases exec p s with ⟨e | a, s'⟩
  · exact id
  · exact fun h => (hf a s').trans h

lemma get_bind {f : σ → Program ε σ β} (hf : ∀ s, Keeps view (f s)) : Keeps view (get >>= f) := by
  intro s
  rw [exec_bind]
  exact hf s s

lemma ite {c : Prop} [Decidable c] {p q : Program ε σ α} (hp : Keeps view p)
    (hq : Keeps view q) : Keeps view (if c then p else q) := by
  split_ifs
  · exact hp
  · exact hq

lemma failIf {c : Prop} [Decidable c] {e : ε} : Keeps view (failIf c e) := ite (throw e) (pure ())

/-- What is kept is true before and after. -/
lemma triple {p : Program ε σ α} (h : Keeps view p) (P : τ → Prop) :
    Triple (fun s => P (view s)) p (fun _ s => P (view s)) fun _ s => P (view s) := by
  intro s hs
  have hkeep := h s
  revert hkeep
  rcases exec p s with ⟨e | a, s'⟩ <;>
    exact fun hkeep => show P (view s') from hkeep.symm ▸ hs

/-- The same, with a weaker promise for the failures. -/
lemma weaken {p : Program ε σ α} (h : Keeps view p) {P P' : τ → Prop} (hP : ∀ v, P v → P' v) :
    Triple (fun s => P (view s)) p (fun _ s => P (view s)) fun _ s => P' (view s) :=
  (h.triple P).conseq (fun _ => id) (fun _ _ => id) fun _ s => hP (view s)

end Keeps

/-! ### Two programs -/

/-- Two programs end alike: both with the same value in states related by `S`, or both with the
same failure in states related by `F`. -/
def Agree (S F : σ → τ → Prop) : Except ε α × σ → Except ε α × τ → Prop
  | (.ok a, s), (.ok b, t) => a = b ∧ S s t
  | (.error e, s), (.error d, t) => e = d ∧ F s t
  | _, _ => False

/-- Run from states in `R`, both programs end alike. -/
def Related (R : σ → τ → Prop) (p : Program ε σ α) (q : Program ε τ α) (S F : σ → τ → Prop) :
    Prop :=
  ∀ s t, R s t → Agree S F (exec p s) (exec q t)

namespace Related

variable {R R' S S' F F' : σ → τ → Prop}

lemma pure {a : α} (h : ∀ s t, R s t → S s t) :
    Related R (Pure.pure a : Program ε σ α) (Pure.pure a : Program ε τ α) S F :=
  fun s t hst => ⟨rfl, h s t hst⟩

lemma throw {e : ε} (h : ∀ s t, R s t → F s t) :
    Related R (throw e : Program ε σ α) (throw e : Program ε τ α) S F :=
  fun s t hst => ⟨rfl, h s t hst⟩

lemma modify {f : σ → σ} {g : τ → τ} (h : ∀ s t, R s t → S (f s) (g t)) :
    Related R (modify f : Program ε σ PUnit) (modify g : Program ε τ PUnit) S F :=
  fun s t hst => ⟨rfl, h s t hst⟩

lemma conseq {p : Program ε σ α} {q : Program ε τ α} (h : Related R' p q S' F')
    (hR : ∀ s t, R s t → R' s t) (hS : ∀ s t, S' s t → S s t) (hF : ∀ s t, F' s t → F s t) :
    Related R p q S F := by
  intro s t hst
  have hpost := h s t (hR s t hst)
  revert hpost
  rcases exec p s with ⟨e | a, s'⟩ <;> rcases exec q t with ⟨d | b, t'⟩
  · exact And.imp_right (hF s' t')
  · exact id
  · exact id
  · exact And.imp_right (hS s' t')

/-- The rule of sequence. -/
lemma bind {p : Program ε σ α} {q : Program ε τ α} {f : α → Program ε σ β}
    {g : α → Program ε τ β} {T : σ → τ → Prop} (hp : Related R p q S F)
    (hf : ∀ a, Related S (f a) (g a) T F) : Related R (p >>= f) (q >>= g) T F := by
  intro s t hst
  have hpost := hp s t hst
  rw [exec_bind, exec_bind]
  revert hpost
  rcases exec p s with ⟨e | a, s'⟩ <;> rcases exec q t with ⟨d | b, t'⟩
  · exact id
  · exact False.elim
  · exact False.elim
  · rintro ⟨rfl, h⟩
    exact hf a s' t' h

/-- The rule of sequence, with what is known of the value between the two. -/
lemma bind_of {V : α → Prop} {p : Program ε σ α} {q : Program ε τ α} {f : α → Program ε σ β}
    {g : α → Program ε τ β} {T : σ → τ → Prop} (hp : Related R p q S F)
    (hV : Triple (fun _ => True) p (fun a _ => V a) fun _ _ => True)
    (hf : ∀ a, V a → Related S (f a) (g a) T F) : Related R (p >>= f) (q >>= g) T F := by
  intro s t hst
  have hpost := hp s t hst
  have hvalue := hV s trivial
  rw [exec_bind, exec_bind]
  revert hpost hvalue
  rcases exec p s with ⟨e | a, s'⟩ <;> rcases exec q t with ⟨d | b, t'⟩
  · exact fun h _ => h
  · exact fun h _ => h.elim
  · exact fun h _ => h.elim
  · rintro ⟨rfl, h⟩ hvalue
    exact hf a hvalue s' t' h

/-- Reading the states. -/
lemma get_bind {f : σ → Program ε σ α} {g : τ → Program ε τ α}
    (h : ∀ s t, R s t → Agree S F (exec (f s) s) (exec (g t) t)) :
    Related R (get >>= f) (get >>= g) S F := by
  intro s t hst
  rw [exec_bind, exec_bind]
  exact h s t hst

/-- A test that comes out the same on both sides. -/
lemma ite {c d : Prop} [Decidable c] [Decidable d] {p p' : Program ε σ α} {q q' : Program ε τ α}
    (hcd : c ↔ d) (hp : c → Related R p q S F) (hq : ¬ c → Related R p' q' S F) :
    Related R (if c then p else p') (if d then q else q') S F := by
  by_cases hc : c
  · rw [if_pos hc, if_pos (hcd.mp hc)]
    exact hp hc
  · rw [if_neg hc, if_neg fun hd => hc (hcd.mpr hd)]
    exact hq hc

lemma failIf {c d : Prop} [Decidable c] [Decidable d] {e : ε} (hcd : c ↔ d)
    (hfail : ∀ s t, R s t → F s t) (hgo : ∀ s t, R s t → S s t) :
    Related R (failIf c e) (Prog.failIf d e) S F :=
  ite hcd (fun _ => throw hfail) fun _ => pure hgo

lemma tryCatch {p : Program ε σ α} {q : Program ε τ α} {h : ε → Program ε σ α}
    {k : ε → Program ε τ α} (hp : Related R p q S F) (hh : ∀ e, Related F (h e) (k e) S F') :
    Related R (tryCatch p h) (tryCatch q k) S F' := by
  intro s t hst
  have hpost := hp s t hst
  rw [exec_tryCatch, exec_tryCatch]
  revert hpost
  rcases exec p s with ⟨e | a, s'⟩ <;> rcases exec q t with ⟨d | b, t'⟩
  · rintro ⟨rfl, h⟩
    exact hh e s' t' h
  · exact False.elim
  · exact False.elim
  · exact id

end Related

end Prog
