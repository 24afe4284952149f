import Mathlib.Tactic

/-!
Code that runs against an environment, one call at a time, and what it may assume and must keep.

A piece of code is done, or it makes a call and goes on with whatever the environment answers.
Between two calls other code may run, so the calls are all that a scheduler has to know of it.

* `Contract`, `Meets`: when each call is allowed, in a state that the code keeps in mind, what an
  answer makes of that state, and that code makes only allowed calls and ends as promised.
* `Meets.bind`, `Meets.mono`: the rules that put code together.
* `Uses`, `Uses.meets`: code whose calls are all of one kind keeps what each of them keeps.
* `Fallible`: code with an early `return`, and the same rules for it.
-/

namespace Calls

variable {κ ρ σ ε α β : Type}

/-- When a call is allowed, and what its answer makes of the state the code keeps in mind. -/
structure Contract (κ ρ σ : Type) where
  pre : κ → σ → Prop
  post : κ → σ → ρ → σ → Prop

/-- Code that makes calls in `κ`, which the environment answers in `ρ`. -/
inductive Code (κ ρ α : Type)
  | done (value : α)
  | call (c : κ) (next : ρ → Code κ ρ α)

namespace Code

/-- The code `f` goes on with the value of the code before it. -/
def bind : Code κ ρ α → (α → Code κ ρ β) → Code κ ρ β
  | done a, f => f a
  | call c next, f => call c fun r => (next r).bind f

instance : Monad (Code κ ρ) where
  pure := done
  bind := bind

/-- One call, with its answer. -/
def ask (c : κ) : Code κ ρ ρ := call c done

/-! ### Contracts -/

/-- From the state `s` the code makes only allowed calls, and ends with `Q`. -/
def Meets (C : Contract κ ρ σ) (Q : α → σ → Prop) : Code κ ρ α → σ → Prop
  | .done a, s => Q a s
  | .call c next, s => C.pre c s ∧ ∀ r s', C.post c s r s' → Meets C Q (next r) s'

section Meets

variable {C : Contract κ ρ σ} {Q : α → σ → Prop}

lemma Meets.mono {Q' : α → σ → Prop} (hQ : ∀ a s, Q a s → Q' a s) {p : Code κ ρ α} {s : σ}
    (h : Meets C Q p s) : Meets C Q' p s := by
  induction p generalizing s with
  | done a => exact hQ a s h
  | call c next ih => exact ⟨h.1, fun r s' hpost => ih r (h.2 r s' hpost)⟩

/-- Code goes on where the code before it has ended. -/
lemma Meets.bind {Q : β → σ → Prop} {p : Code κ ρ α} {f : α → Code κ ρ β} {s : σ}
    (h : Meets C (fun a s' => Meets C Q (f a) s') p s) : Meets C Q (p >>= f) s := by
  induction p generalizing s with
  | done a => exact h
  | call c next ih => exact ⟨h.1, fun r s' hpost => ih r (h.2 r s' hpost)⟩

end Meets

/-! ### Calls of one kind -/

/-- Every call the code may make is in `P`. -/
def Uses (P : κ → Prop) : Code κ ρ α → Prop
  | .done _ => True
  | .call c next => P c ∧ ∀ r, Uses P (next r)

section Uses

variable {P : κ → Prop}

lemma uses_ask {c : κ} (h : P c) : Uses P (Code.ask c : Code κ ρ ρ) := ⟨h, fun _ => trivial⟩

lemma Uses.bind {p : Code κ ρ α} {f : α → Code κ ρ β} (hp : Uses P p) (hf : ∀ a, Uses P (f a)) :
    Uses P (p >>= f) := by
  induction p with
  | done a => exact hf a
  | call c next ih => exact ⟨hp.1, fun r => ih r (hp.2 r)⟩

lemma Uses.mono {P' : κ → Prop} (h : ∀ c, P c → P' c) {p : Code κ ρ α} (hp : Uses P p) :
    Uses P' p := by
  induction p with
  | done a => trivial
  | call c next ih => exact ⟨h c hp.1, fun r => ih r (hp.2 r)⟩

/-- **The frame rule**: what every call of the kind allows and keeps, the code keeps. -/
lemma Uses.meets {C : Contract κ ρ σ} {I : σ → Prop}
    (hI : ∀ c s, P c → I s → C.pre c s ∧ ∀ r s', C.post c s r s' → I s') {p : Code κ ρ α}
    (hp : Uses P p) {s : σ} (hs : I s) : Meets C (fun _ s' => I s') p s := by
  induction p generalizing s with
  | done a => exact hs
  | call c next ih =>
    obtain ⟨hpre, hpost⟩ := hI c s hp.1 hs
    exact ⟨hpre, fun r s' h => ih r (hp.2 r) (hpost r s' h)⟩

end Uses

end Code

/-! ### Code that may return early -/

/-- Code that ends with a value, or early with an `ε`. -/
abbrev Fallible (κ ρ ε α : Type) := ExceptT ε (Code κ ρ) α

namespace Fallible

/-- What the code ends with, as a value. -/
def attempt (p : Fallible κ ρ ε α) : Fallible κ ρ ε (Except ε α) :=
  ExceptT.lift (ExceptT.run p)

/-- Go on with what an attempt has ended with. -/
def resume (r : Except ε α) : Fallible κ ρ ε α := ExceptT.mk (pure r)

/-- Code nobody asks the outcome of. -/
def ignore (p : Fallible κ ρ ε α) : Fallible κ ρ ε Unit := do
  let _ ← attempt p
  pure ()

variable {P : κ → Prop} {C : Contract κ ρ σ}

/-- `Uses`, of code that may return early. -/
abbrev Uses (P : κ → Prop) (p : Fallible κ ρ ε α) : Prop := Code.Uses P (ExceptT.run p)

/-- `Meets`, of code that may return early. -/
abbrev Meets (C : Contract κ ρ σ) (Q : Except ε α → σ → Prop) (p : Fallible κ ρ ε α) (s : σ) :
    Prop := Code.Meets C Q (ExceptT.run p) s

lemma uses_bind {p : Fallible κ ρ ε α} {f : α → Fallible κ ρ ε β} (hp : Uses P p)
    (hf : ∀ a, Uses P (f a)) : Uses P (p >>= f) := by
  refine Code.Uses.bind hp fun r => ?_
  cases r with
  | ok a => exact hf a
  | error e => trivial

lemma uses_attempt {p : Fallible κ ρ ε α} (hp : Uses P p) : Uses P (attempt p) :=
  Code.Uses.bind hp fun _ => trivial

lemma uses_ignore {p : Fallible κ ρ ε α} (hp : Uses P p) : Uses P (ignore p) :=
  uses_bind (uses_attempt hp) fun _ => trivial

lemma meets_bind {Q : Except ε β → σ → Prop} {p : Fallible κ ρ ε α}
    {f : α → Fallible κ ρ ε β} {s : σ}
    (h : Meets C (fun r s' => match r with
      | .ok a => Meets C Q (f a) s'
      | .error e => Q (.error e) s') p s) : Meets C Q (p >>= f) s := by
  refine Code.Meets.bind (h.mono fun r s' hr => ?_)
  cases r with
  | ok a => exact hr
  | error e => exact hr

/-- Code goes on with whatever the code before it has ended with. -/
lemma meets_attempt {Q : Except ε β → σ → Prop} {p : Fallible κ ρ ε α}
    {f : Except ε α → Fallible κ ρ ε β} {s : σ}
    (h : Meets C (fun r s' => Meets C Q (f r) s') p s) : Meets C Q (attempt p >>= f) s :=
  meets_bind (Code.Meets.bind (h.mono fun _ _ hr => hr))

/-- Code that never fails, and leaves the state `t`. -/
lemma meets_then {Q : Except ε β → σ → Prop} {p : Fallible κ ρ ε α} {a : α}
    {f : α → Fallible κ ρ ε β} {s t : σ}
    (hp : Meets C (fun r s' => r = .ok a ∧ s' = t) p s) (h : Meets C Q (f a) t) :
    Meets C Q (p >>= f) s := by
  refine meets_bind (hp.mono fun r s' hr => ?_)
  obtain ⟨rfl, rfl⟩ := hr
  exact h

lemma ignore_meets {p : Fallible κ ρ ε α} {s t : σ} (h : Meets C (fun _ s' => s' = t) p s) :
    Meets C (fun r s' => r = .ok () ∧ s' = t) (ignore p) s :=
  meets_bind (Code.Meets.bind (h.mono fun _ _ hr => ⟨rfl, hr⟩))

end Fallible

end Calls
