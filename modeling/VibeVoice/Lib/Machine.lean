import Mathlib.Tactic

/-!
Machines that answer one action at a time, and the induction rules for their runs.

A machine is a step function `step : σ → α → Option (β × σ)`: in a state an action is either
not enabled, or it produces an output and the next state.  A schedule is a list of actions, so
a statement about every interleaving is a statement about every schedule.

* `run`, `run_append`, `run_snoc`: the state a schedule leads to.
* `Reachable.induct`: a property that holds at the start and survives every step holds in
  every reachable state.
* `Along`, `Guarded`, `Along.of_guarded`: the same for a property of all the states a schedule
  passes through, when only the steps meeting a guard are known to preserve it.
* `Along.iff_guarded`: and an equivalence, when the other steps lose it.
-/

namespace Machine

variable {σ α β : Type*} (step : σ → α → Option (β × σ))

/-- The state after a schedule, or `none` once an action is not enabled. -/
def run : σ → List α → Option σ
  | s, [] => some s
  | s, a :: as => (step s a).bind fun r => run r.2 as

@[simp] lemma run_nil (s : σ) : run step s [] = some s := rfl

lemma run_cons (s : σ) (a : α) (as : List α) :
    run step s (a :: as) = (step s a).bind fun r => run step r.2 as := rfl

lemma run_append (s : σ) (as bs : List α) :
    run step s (as ++ bs) = (run step s as).bind fun s' => run step s' bs := by
  induction as generalizing s with
  | nil => rfl
  | cons a as ih =>
    simp only [List.cons_append, run_cons]
    cases step s a with
    | none => rfl
    | some r => simpa using ih r.2

/-- The last action of a schedule is taken from the state the rest leads to. -/
lemma run_snoc {s t : σ} {as : List α} {a : α} (h : run step s as = some t) :
    run step s (as ++ [a]) = (step t a).map Prod.snd := by
  rw [run_append, h, Option.bind_some, run_cons]
  cases step t a <;> rfl

/-- What the machine answers along a schedule. -/
def outputs : σ → List α → List β
  | _, [] => []
  | s, a :: as =>
    match step s a with
    | none => []
    | some r => r.1 :: outputs r.2 as

lemma outputs_snoc {s t : σ} {as : List α} {a : α} {r : β × σ} (h : run step s as = some t)
    (ha : step t a = some r) : outputs step s (as ++ [a]) = outputs step s as ++ [r.1] := by
  induction as generalizing s with
  | nil =>
    cases h
    simp [outputs, ha]
  | cons b as ih =>
    rw [run_cons] at h
    cases hb : step s b with
    | none => rw [hb] at h; cases h
    | some r' =>
      rw [hb, Option.bind_some] at h
      simp only [List.cons_append, outputs, hb, ih h]

lemma rel_mono {τ : Type*} {R Q : σ → τ → Prop} (h : ∀ s t, R s t → Q s t) {x : Option σ}
    {y : Option τ} (hxy : Option.Rel R x y) : Option.Rel Q x y := by
  cases hxy with
  | none => exact .none
  | some hst => exact .some (h _ _ hst)

/-- Two machines whose steps keep a relation and answer alike do so along every schedule. -/
lemma run_rel {τ : Type*} {step : σ → α → Option (β × σ)} {step' : τ → α → Option (β × τ)}
    {R : σ → τ → Prop}
    (hstep : ∀ s t a, R s t →
      Option.Rel (fun x y => x.1 = y.1 ∧ R x.2 y.2) (step s a) (step' t a))
    {s : σ} {t : τ} (h : R s t) (as : List α) :
    Option.Rel R (run step s as) (run step' t as) ∧ outputs step s as = outputs step' t as := by
  induction as generalizing s t with
  | nil => exact ⟨.some h, rfl⟩
  | cons a as ih =>
    have ha := hstep s t a h
    rw [run_cons, run_cons, outputs, outputs]
    revert ha
    rcases step s a with _ | x <;> rcases step' t a with _ | y
    · exact fun _ => ⟨.none, rfl⟩
    · rintro ⟨⟩
    · rintro ⟨⟩
    · intro hxy
      cases hxy with
      | some hxy =>
        obtain ⟨hout, hnext⟩ := hxy
        obtain ⟨hrun, houts⟩ := ih hnext
        exact ⟨hrun, congrArg₂ List.cons hout houts⟩

/-- The states some schedule leads to. -/
def Reachable (s₀ s : σ) : Prop := ∃ as, run step s₀ as = some s

variable {step}

lemma Reachable.refl (s₀ : σ) : Reachable step s₀ s₀ := ⟨[], rfl⟩

lemma Reachable.next {s₀ s s' : σ} {a : α} {o : β} (h : Reachable step s₀ s)
    (hs : step s a = some (o, s')) : Reachable step s₀ s' := by
  obtain ⟨as, has⟩ := h
  exact ⟨as ++ [a], by rw [run_snoc step has, hs]; rfl⟩

lemma Reachable.trans {s₀ s s' : σ} (h : Reachable step s₀ s) (h' : Reachable step s s') :
    Reachable step s₀ s' := by
  obtain ⟨as, has⟩ := h
  obtain ⟨bs, hbs⟩ := h'
  exact ⟨as ++ bs, by rw [run_append, has, Option.bind_some, hbs]⟩

/-- A schedule enabled to its end is enabled on every prefix. -/
lemma run_prefix {s t : σ} {pre as : List α} (hpre : pre <+: as) (h : run step s as = some t) :
    ∃ u, run step s pre = some u := by
  obtain ⟨rest, rfl⟩ := hpre
  rw [run_append] at h
  cases hp : run step s pre with
  | none => rw [hp] at h; cases h
  | some u => exact ⟨u, rfl⟩

/-- A property of a run that survives one more step holds after every schedule. -/
lemma run_induct {P : List α → σ → Prop} {s₀ : σ} (h₀ : P [] s₀)
    (hstep : ∀ as s a o s', run step s₀ as = some s → P as s → step s a = some (o, s') →
      P (as ++ [a]) s') :
    ∀ {as s}, run step s₀ as = some s → P as s := by
  intro as
  induction as using List.reverseRecOn with
  | nil => intro s h; cases h; exact h₀
  | append_singleton as a ih =>
    intro s h
    rw [run_append] at h
    cases hp : run step s₀ as with
    | none => rw [hp] at h; cases h
    | some t =>
      rw [hp, Option.bind_some, run_cons] at h
      cases ha : step t a with
      | none => rw [ha] at h; cases h
      | some r =>
        rw [ha, Option.bind_some, run_nil, Option.some.injEq] at h
        subst h
        exact hstep as t a r.1 r.2 hp (ih hp) ha

/-- **The invariant rule**: what holds at the start and survives every step from a reachable
state holds in every reachable state. -/
theorem Reachable.induct {P : σ → Prop} {s₀ s : σ} (hr : Reachable step s₀ s) (h₀ : P s₀)
    (hstep : ∀ s a o s', P s → step s a = some (o, s') → P s') : P s := by
  obtain ⟨as, has⟩ := hr
  exact run_induct (P := fun _ s => P s) h₀ (fun _ s a o s' _ hP hs => hstep s a o s' hP hs) has

variable (step)

/-- `P` holds in every state a schedule passes through. -/
def Along (P : σ → Prop) (s₀ : σ) (as : List α) : Prop :=
  ∀ pre, pre <+: as → ∀ s, run step s₀ pre = some s → P s

/-- Every action of a schedule is taken in a state where the guard `G` allows it. -/
def Guarded (G : σ → α → Prop) (s₀ : σ) (as : List α) : Prop :=
  ∀ pre a, pre ++ [a] <+: as → ∀ s, run step s₀ pre = some s → G s a

variable {step}

lemma Guarded.of_prefix {G : σ → α → Prop} {s₀ : σ} {pre as : List α}
    (h : Guarded step G s₀ as) (hpre : pre <+: as) : Guarded step G s₀ pre :=
  fun p a hp s hs => h p a (hp.trans hpre) s hs

lemma guarded_nil (G : σ → α → Prop) (s₀ : σ) : Guarded step G s₀ [] := fun pre a hpre =>
  absurd (List.prefix_nil.mp hpre) (List.append_ne_nil_of_right_ne_nil pre (List.cons_ne_nil a []))

/-- A schedule is guarded when its first action is, and the rest behind it. -/
lemma guarded_cons {G : σ → α → Prop} {s₀ : σ} {a : α} {as : List α} :
    Guarded step G s₀ (a :: as) ↔
      G s₀ a ∧ ∀ r, step s₀ a = some r → Guarded step G r.2 as := by
  constructor
  · intro h
    refine ⟨h [] a (List.prefix_append [a] as) s₀ rfl, fun r hr pre b hpre s hs => ?_⟩
    refine h (a :: pre) b (List.cons_prefix_cons.mpr ⟨rfl, hpre⟩) s ?_
    rw [run_cons, hr, Option.bind_some, hs]
  · rintro ⟨ha, hrest⟩ pre b hpre s hs
    cases pre with
    | nil =>
      cases hs
      obtain ⟨rfl, -⟩ := List.cons_prefix_cons.mp hpre
      exact ha
    | cons c pre =>
      obtain ⟨rfl, htail⟩ := List.cons_prefix_cons.mp hpre
      rw [run_cons] at hs
      obtain ⟨r, hr, hrun⟩ := Option.bind_eq_some_iff.mp hs
      exact hrest r hr pre b htail s hrun

/-- A first action that is taken and allowed. -/
lemma Guarded.cons {G : σ → α → Prop} {s t : σ} {a : α} {o : β} {as : List α}
    (hs : step s a = some (o, t)) (ha : G s a) (h : Guarded step G t as) :
    Guarded step G s (a :: as) := by
  refine guarded_cons.mpr ⟨ha, fun r hr => ?_⟩
  rw [hs] at hr
  cases hr
  exact h

/-- **The guarded invariant rule**: a property that every allowed step preserves holds all
along a schedule of allowed steps. -/
theorem Along.of_guarded {P : σ → Prop} {G : σ → α → Prop} {s₀ : σ} {as : List α}
    (h₀ : P s₀) (hstep : ∀ s a o s', P s → G s a → step s a = some (o, s') → P s')
    (hG : Guarded step G s₀ as) : Along step P s₀ as := by
  intro pre hpre s hs
  have hGpre := hG.of_prefix hpre
  refine run_induct (P := fun as s => Guarded step G s₀ as → P s) (fun _ => h₀) ?_ hs hGpre
  intro as t a o t' hrun ih hta hGa
  exact hstep t a o t' (ih (hGa.of_prefix (List.prefix_append as [a])))
    (hGa as a List.prefix_rfl t hrun) hta

lemma along_nil {P : σ → Prop} {s₀ : σ} : Along step P s₀ [] ↔ P s₀ := by
  refine ⟨fun h => h [] List.prefix_rfl s₀ rfl, fun h pre hpre s hs => ?_⟩
  obtain rfl := List.prefix_nil.mp hpre
  cases hs
  exact h

lemma along_cons {P : σ → Prop} {s₀ : σ} {a : α} {as : List α} :
    Along step P s₀ (a :: as) ↔ P s₀ ∧ ∀ r, step s₀ a = some r → Along step P r.2 as := by
  constructor
  · intro h
    refine ⟨h [] List.nil_prefix s₀ rfl, fun r hr pre hpre s hs => ?_⟩
    refine h (a :: pre) (List.cons_prefix_cons.mpr ⟨rfl, hpre⟩) s ?_
    rw [run_cons, hr, Option.bind_some, hs]
  · rintro ⟨h₀, hrest⟩ pre hpre s hs
    cases pre with
    | nil =>
      cases hs
      exact h₀
    | cons b pre =>
      obtain ⟨rfl, htail⟩ := List.cons_prefix_cons.mp hpre
      rw [run_cons] at hs
      obtain ⟨r, hr, hrun⟩ := Option.bind_eq_some_iff.mp hs
      exact hrest r hr pre htail s hrun

/-- The guarded invariant rule, for a machine that is always enabled and whose other steps lose
the property. -/
theorem Along.iff_guarded {I P : σ → Prop} {G : σ → α → Prop} (hP : ∀ s, I s → P s)
    (hstep : ∀ s a, I s →
      ∃ r, step s a = some r ∧ (G s a → I r.2) ∧ (P r.2 → G s a)) {s₀ : σ} (h₀ : I s₀)
    (as : List α) : Along step P s₀ as ↔ Guarded step G s₀ as := by
  induction as generalizing s₀ with
  | nil => exact iff_of_true (along_nil.mpr (hP s₀ h₀)) (guarded_nil G s₀)
  | cons a as ih =>
    obtain ⟨r, hr, hkeep, hlose⟩ := hstep s₀ a h₀
    rw [along_cons, guarded_cons]
    constructor
    · rintro ⟨-, hrest⟩
      have htail := hrest r hr
      have hG : G s₀ a := hlose (htail [] List.nil_prefix r.2 rfl)
      refine ⟨hG, fun r' hr' => ?_⟩
      obtain rfl : r = r' := Option.some.inj (hr.symm.trans hr')
      exact (ih (hkeep hG)).mp htail
    · rintro ⟨hG, hrest⟩
      refine ⟨hP s₀ h₀, fun r' hr' => ?_⟩
      obtain rfl : r = r' := Option.some.inj (hr.symm.trans hr')
      exact (ih (hkeep hG)).mpr (hrest r hr)

end Machine
