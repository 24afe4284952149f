import Mathlib.Data.List.Basic
import Mathlib.Tactic.Tauto

/-!
Steps in a row that may refuse to go on.

* `Step`, `reached`: checks and acts, and the acts in front of the first check that fails.
* `Passes`: no check fails.
* `Holds`: what is true of every act that is reached; `holds_append` and `holds_flatMap` take it
  part by part.
-/

namespace Steps

variable {ε α ι : Type}

/-- A check, or an act. -/
inductive Step (ε α : Type)
  | guard (ok : Bool) (e : ε)
  | act (a : α)

/-- The acts in front of the first check that fails. -/
def reached : List (Step ε α) → List α
  | [] => []
  | .guard ok _ :: l => if ok then reached l else []
  | .act a :: l => a :: reached l

/-- The refusal of the first check that fails. -/
def refusal : List (Step ε α) → Option ε
  | [] => none
  | .guard ok e :: l => if ok then refusal l else some e
  | .act _ :: l => refusal l

/-- No check fails. -/
def Passes (l : List (Step ε α)) : Prop := refusal l = none

instance (l : List (Step ε α)) : Decidable (Passes l) :=
  decidable_of_iff ((refusal l).isNone = true) Option.isNone_iff_eq_none

/-- Every act that is reached is in `P`. -/
def Holds (P : α → Prop) (l : List (Step ε α)) : Prop := ∀ a ∈ reached l, P a

variable {P : α → Prop} {ok : Bool} {e : ε} {a : α} {l l' : List (Step ε α)}

@[simp] lemma passes_nil : Passes ([] : List (Step ε α)) := rfl

@[simp] lemma passes_guard : Passes (.guard ok e :: l) ↔ ok = true ∧ Passes l := by
  cases ok <;> simp [Passes, refusal]

@[simp] lemma passes_act : Passes (.act a :: l) ↔ Passes l := Iff.rfl

@[simp] lemma passes_append : Passes (l ++ l') ↔ Passes l ∧ Passes l' := by
  induction l with
  | nil => simp
  | cons s l ih =>
    cases s with
    | guard ok e => rw [List.cons_append, passes_guard, passes_guard, ih, and_assoc]
    | act a => exact ih

lemma passes_flatMap {f : ι → List (Step ε α)} {is : List ι} :
    Passes (is.flatMap f) ↔ ∀ i ∈ is, Passes (f i) := by
  induction is with
  | nil => simp
  | cons i is ih => rw [List.flatMap_cons, passes_append, ih, List.forall_mem_cons]

@[simp] lemma holds_nil : Holds P ([] : List (Step ε α)) := nofun

@[simp] lemma holds_guard : Holds P (.guard ok e :: l) ↔ (ok = true → Holds P l) := by
  cases ok <;> simp [Holds, reached]

@[simp] lemma holds_act : Holds P (.act a :: l) ↔ P a ∧ Holds P l := List.forall_mem_cons

@[simp] lemma holds_append : Holds P (l ++ l') ↔ Holds P l ∧ (Passes l → Holds P l') := by
  induction l with
  | nil => simp
  | cons s l ih =>
    cases s with
    | guard ok e =>
      simp only [List.cons_append, holds_guard, passes_guard, ih]
      tauto
    | act a => rw [List.cons_append, holds_act, holds_act, passes_act, ih, and_assoc]

/-- Steps that are taken under a condition. -/
@[simp] lemma passes_ite {c : Prop} [Decidable c] :
    Passes (if c then l else []) ↔ (c → Passes l) := by
  by_cases hc : c <;> simp [hc]

@[simp] lemma holds_ite {c : Prop} [Decidable c] :
    Holds P (if c then l else []) ↔ (c → Holds P l) := by
  by_cases hc : c <;> simp [hc]

/-- The parts of a loop, each reached where the parts in front of it pass. -/
lemma holds_flatMap {f : ι → List (Step ε α)} {is : List ι} :
    Holds P (is.flatMap f) ↔ ∀ front i rest, is = front ++ i :: rest →
      (∀ j ∈ front, Passes (f j)) → Holds P (f i) := by
  induction is with
  | nil => simp
  | cons j is ih =>
    rw [List.flatMap_cons, holds_append, ih]
    constructor
    · rintro ⟨hj, hrest⟩ front i rest hsplit hfront
      cases front with
      | nil =>
        obtain ⟨rfl, -⟩ := List.cons.inj hsplit
        exact hj
      | cons j' front =>
        obtain ⟨rfl, htail⟩ := List.cons.inj hsplit
        exact hrest (hfront j List.mem_cons_self) front i rest htail fun j' hj' =>
          hfront j' (List.mem_cons_of_mem _ hj')
    · intro h
      refine ⟨h [] j is rfl nofun, fun hj front i rest hsplit hfront => ?_⟩
      refine h (j :: front) i rest (by rw [hsplit]; rfl) fun j' hj' => ?_
      rcases List.mem_cons.mp hj' with rfl | hj'
      · exact hj
      · exact hfront j' hj'

end Steps
