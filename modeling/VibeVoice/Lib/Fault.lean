import VibeVoice.Lib.Loop

/-!
Computations that may end with a value, with an error, or in a fault.

A fault (`none`) stands for undefined behaviour, such as an access outside of a buffer; no error
code stands for it.

* `bind_eq_pure`: what a computation that ends with a value has done on the way.
* `Safe`: a computation that does not fault, and of whose value `P` holds.
* `Safe.bind`, `Safe.check`, `Safe.within`, `Safe.forM`: the rules that put safe computations
  together.
-/

namespace VibeVoice.Fault

variable {ε α β : Type}

/-- An error unless `ok` holds. -/
def check (ok : Prop) [Decidable ok] (e : ε) : ExceptT ε Option Unit :=
  if ok then pure () else throw e

/-- A fault unless `ok` holds. -/
def within (ok : Prop) [Decidable ok] : ExceptT ε Option Unit :=
  if ok then pure () else ExceptT.mk none

/-- A result that is there. -/
def settled (r : Except ε α) : ExceptT ε Option α := ExceptT.mk (some r)

/-! ### Values -/

section Values

variable {x : ExceptT ε Option α} {f : α → ExceptT ε Option β} {a : α} {b : β} {e : ε}

lemma pure_inj {a' : α} : (pure a : ExceptT ε Option α) = pure a' ↔ a = a' :=
  ⟨fun h => Except.ok.inj (Option.some.inj h), fun h => h ▸ rfl⟩

lemma throw_ne_pure : (throw e : ExceptT ε Option α) ≠ pure a := fun h =>
  nomatch Option.some.inj (h : some (Except.error e) = some (Except.ok a))

lemma fault_ne_pure : (ExceptT.mk none : ExceptT ε Option α) ≠ pure a := fun h =>
  nomatch (h : (none : Option (Except ε α)) = some _)

lemma bind_eq_pure : x >>= f = pure b ↔ ∃ a, x = pure a ∧ f a = pure b := by
  constructor
  · intro h
    match x, h with
    | none, h => exact (fault_ne_pure h).elim
    | some (.error e), h => exact (throw_ne_pure h).elim
    | some (.ok a), h => exact ⟨a, rfl, h⟩
  · rintro ⟨a, rfl, h⟩
    exact (pure_bind a f).trans h

lemma map_eq_pure {g : α → β} : g <$> x = pure b ↔ ∃ a, x = pure a ∧ g a = b := by
  rw [map_eq_pure_bind, bind_eq_pure]
  simp only [pure_inj]

lemma lift_eq_pure {o : Option α} :
    (ExceptT.lift o : ExceptT ε Option α) = pure a ↔ o = some a := by
  cases o with
  | none => exact ⟨fun h => (fault_ne_pure h).elim, fun h => nomatch h⟩
  | some a' => exact ⟨fun h => congrArg some (pure_inj.mp h), fun h => Option.some.inj h ▸ rfl⟩

lemma settled_eq_pure {r : Except ε α} : settled r = pure a ↔ r = .ok a :=
  ⟨fun h => Option.some.inj h, fun h => h ▸ rfl⟩

variable {ok : Prop} [Decidable ok]

lemma check_eq_pure : check ok e = pure () ↔ ok := by
  rw [check]
  split_ifs with h
  · exact iff_of_true rfl h
  · exact iff_of_false throw_ne_pure h

lemma within_eq_pure : (within ok : ExceptT ε Option Unit) = pure () ↔ ok := by
  rw [within]
  split_ifs with h
  · exact iff_of_true rfl h
  · exact iff_of_false fault_ne_pure h

end Values

/-! ### Safety -/

/-- The computation does not fault, and `P` holds of its value. -/
structure Safe (x : ExceptT ε Option α) (P : α → Prop) : Prop where
  runs : x ≠ ExceptT.mk none
  value : ∀ a, x = pure a → P a

section Rules

variable {x : ExceptT ε Option α} {f : α → ExceptT ε Option β} {P P' : α → Prop} {Q : β → Prop}
  {e : ε}

lemma Safe.mono (h : Safe x P) (hP : ∀ a, P a → P' a) : Safe x P' :=
  ⟨h.runs, fun a ha => hP a (h.value a ha)⟩

/-- A result that is there is no fault. -/
lemma Safe.settled {r : Except ε α} (h : ∀ a, r = .ok a → P a) : Safe (settled r) P where
  runs hx := nomatch (hx : some r = none)
  value a ha := h a (settled_eq_pure.mp ha)

lemma Safe.lift {o : Option α} (h : ∃ a, o = some a ∧ P a) :
    Safe (ExceptT.lift o : ExceptT ε Option α) P := by
  obtain ⟨a, rfl, ha⟩ := h
  exact Safe.settled fun b hb => Except.ok.inj hb ▸ ha

/-- A map that fails nowhere. -/
lemma Safe.mapM {γ : Type} {g : γ → Option β} {xs : List γ} (h : ∀ c ∈ xs, (g c).isSome) :
    Safe (ExceptT.lift (xs.mapM g) : ExceptT ε Option (List β)) fun ys => xs.mapM g = some ys := by
  obtain ⟨ys, hys⟩ := Option.isSome_iff_exists.mp (Loop.mapM_isSome_iff.mpr h)
  exact Safe.lift ⟨ys, hys, hys⟩

lemma Safe.pure {a : α} (h : P a) : Safe (pure a : ExceptT ε Option α) P :=
  Safe.settled fun _ ha => Except.ok.inj ha ▸ h

lemma Safe.throw : Safe (throw e : ExceptT ε Option α) P :=
  Safe.settled fun _ ha => nomatch ha

/-- What follows a computation may rely on how its value came about. -/
lemma Safe.then (h : Safe x P) (hf : ∀ a, x = Pure.pure a → P a → Safe (f a) Q) :
    Safe (x >>= f) Q := by
  match x, h with
  | none, h => exact (h.runs rfl).elim
  | some (.error e), _ => exact Safe.throw
  | some (.ok a), h => exact hf a rfl (h.value a rfl)

lemma Safe.bind (h : Safe x P) (hf : ∀ a, P a → Safe (f a) Q) : Safe (x >>= f) Q :=
  h.then fun a _ ha => hf a ha

lemma Safe.map {g : α → β} (h : Safe x P) (hg : ∀ a, P a → Q (g a)) : Safe (g <$> x) Q := by
  rw [map_eq_pure_bind]
  exact h.bind fun a ha => Safe.pure (hg a ha)

variable {ok : Prop} [Decidable ok]

lemma Safe.check : Safe (check ok e) fun _ => ok := by
  rw [Fault.check]
  split_ifs with h
  · exact Safe.pure h
  · exact Safe.throw

lemma Safe.within (h : ok) : Safe (within ok : ExceptT ε Option Unit) fun _ => True := by
  rw [Fault.within, if_pos h]
  exact Safe.pure trivial

lemma Safe.ite {y : ExceptT ε Option α} (hx : ok → Safe x P) (hy : ¬ok → Safe y P) :
    Safe (if ok then x else y) P := by
  split_ifs with h
  · exact hx h
  · exact hy h

/-- A loop each turn of which is safe. -/
lemma Safe.forM {γ : Type} {xs : List γ} {g : γ → ExceptT ε Option PUnit}
    (h : ∀ c ∈ xs, Safe (g c) fun _ => True) : Safe (xs.forM g) fun _ => True := by
  induction xs with
  | nil => exact Safe.pure trivial
  | cons c cs ih =>
    exact (h c List.mem_cons_self).bind fun _ _ => ih fun d hd => h d (List.mem_cons_of_mem c hd)

end Rules

end VibeVoice.Fault
