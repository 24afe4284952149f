import Mathlib.Data.List.Basic
import Mathlib.Order.Defs.LinearOrder
import Mathlib.Tactic

/-!
The first of the largest values of a list.

* `scan`: one pass over the list. `scan_eq_some_iff` says where it ends.
* `scan_flatten`: a list in parts, each scanned for itself.
* `scan_filter`: a filter that keeps every largest value.
-/

namespace Scan

variable {ι α : Type} [LinearOrder α]

/-- The better of two results; of equal ones the first. -/
def better : Option (ι × α) → Option (ι × α) → Option (ι × α)
  | none, q => q
  | some p, none => some p
  | some p, some q => if p.2 < q.2 then some q else some p

/-- The best of some results. -/
def best (results : List (Option (ι × α))) : Option (ι × α) := results.foldl better none

/-- An index with the first of the largest values. -/
def scan (f : ι → α) (l : List ι) : Option (ι × α) := best (l.map fun i => some (i, f i))

/-! ### Results -/

@[simp] lemma better_none (p : Option (ι × α)) : better p none = p := by
  cases p <;> rfl

lemma better_of_lt {p q : ι × α} (h : p.2 < q.2) : better (some p) (some q) = some q := if_pos h

lemma better_of_le {p q : ι × α} (h : q.2 ≤ p.2) : better (some p) (some q) = some p :=
  if_neg h.not_gt

lemma better_assoc (p q r : Option (ι × α)) :
    better (better p q) r = better p (better q r) := by
  rcases p with _ | p
  · rfl
  rcases q with _ | q
  · rfl
  rcases r with _ | r
  · rw [better_none, better_none]
  rcases lt_or_ge p.2 q.2 with hpq | hpq <;> rcases lt_or_ge q.2 r.2 with hqr | hqr
  · rw [better_of_lt hpq, better_of_lt hqr, better_of_lt (hpq.trans hqr)]
  · rw [better_of_lt hpq, better_of_le hqr, better_of_lt hpq]
  · rw [better_of_le hpq, better_of_lt hqr]
  · rw [better_of_le hpq, better_of_le hqr, better_of_le (hqr.trans hpq), better_of_le hpq]

lemma better_self (p : Option (ι × α)) : better p p = p := by
  cases p with
  | none => rfl
  | some p => exact better_of_le le_rfl

/-- A result that was in front already changes nothing. -/
lemma better_again (p q : Option (ι × α)) : better p (better q p) = better p q := by
  rcases p with _ | p
  · rw [better_none]
  rcases q with _ | q
  · exact better_self _
  rcases lt_or_ge q.2 p.2 with h | h
  · rw [better_of_lt h, better_of_le h.le, better_self]
  · rw [better_of_le h]

@[simp] lemma best_nil : best ([] : List (Option (ι × α))) = none := rfl

lemma foldl_better (p : Option (ι × α)) (results : List (Option (ι × α))) :
    results.foldl better p = better p (best results) := by
  induction results generalizing p with
  | nil => rw [best_nil, better_none]; rfl
  | cons q rest ih =>
    calc (q :: rest).foldl better p = rest.foldl better (better p q) := rfl
      _ = better (better p q) (best rest) := ih _
      _ = better p (better q (best rest)) := better_assoc ..
      _ = better p (best (q :: rest)) := by
          rw [← ih q]
          rfl

@[simp] lemma best_cons (p : Option (ι × α)) (rest : List (Option (ι × α))) :
    best (p :: rest) = better p (best rest) := foldl_better p rest

lemma best_append (l l' : List (Option (ι × α))) : best (l ++ l') = better (best l) (best l') := by
  rw [best, List.foldl_append]
  exact foldl_better _ l'

/-- A start that every part has in front counts once. -/
lemma best_map_better (p : Option (ι × α)) {results : List (Option (ι × α))}
    (hne : results ≠ []) : best (results.map (better p)) = better p (best results) := by
  have hfront : ∀ l : List (Option (ι × α)),
      better p (best (l.map (better p))) = better p (best l) := by
    intro l
    induction l with
    | nil => rfl
    | cons q l ih =>
      calc better p (best ((q :: l).map (better p)))
          = better (better p (better p q)) (best (l.map (better p))) := by
            rw [List.map_cons, best_cons, ← better_assoc p]
        _ = better (better p (better q p)) (best (l.map (better p))) := by
            rw [better_again, ← better_assoc, better_self]
        _ = better (better p (better q p)) (best l) := by
            rw [better_assoc p, better_assoc q, ih, ← better_assoc q, ← better_assoc p]
        _ = better p (best (q :: l)) := by rw [better_again, best_cons, better_assoc]
  obtain ⟨q, l, rfl⟩ := List.exists_cons_of_ne_nil hne
  rw [← hfront, List.map_cons, best_cons, ← better_assoc, ← better_assoc, better_self]

/-! ### Scans -/

variable {f : ι → α} {l : List ι}

@[simp] lemma scan_nil : scan f [] = none := rfl

@[simp] lemma scan_cons (i : ι) (l : List ι) :
    scan f (i :: l) = better (some (i, f i)) (scan f l) := best_cons ..

lemma scan_append (l l' : List ι) : scan f (l ++ l') = better (scan f l) (scan f l') := by
  rw [scan, List.map_append, best_append]
  rfl

/-- The parts of a list may be scanned apart. -/
theorem scan_flatten (parts : List (List ι)) :
    scan f parts.flatten = best (parts.map (scan f)) := by
  induction parts with
  | nil => rfl
  | cons l rest ih => rw [List.flatten_cons, scan_append, ih, List.map_cons, best_cons]

lemma scan_flatMap {κ : Type} (g : κ → List ι) (l : List κ) :
    scan f (l.flatMap g) = best (l.map fun k => scan f (g k)) := by
  rw [List.flatMap_def, scan_flatten, List.map_map]
  rfl

lemma scan_eq_none_iff : scan f l = none ↔ l = [] := by
  refine ⟨fun h => ?_, fun h => by rw [h, scan_nil]⟩
  cases l with
  | nil => rfl
  | cons i l =>
    rw [scan_cons] at h
    cases hl : scan f l with
    | none => rw [hl, better_none] at h; exact absurd h (by simp)
    | some q => rw [hl, better] at h; split_ifs at h

lemma scan_mem {p : ι × α} (h : scan f l = some p) : p.1 ∈ l ∧ p.2 = f p.1 := by
  induction l generalizing p with
  | nil => exact absurd h (by simp)
  | cons i l ih =>
    rw [scan_cons] at h
    cases hs : scan f l with
    | none =>
      rw [hs, better_none] at h
      obtain rfl := Option.some.inj h
      exact ⟨List.mem_cons_self, rfl⟩
    | some q =>
      rw [hs] at h
      rcases lt_or_ge (f i) q.2 with hlt | hge
      · rw [better_of_lt hlt] at h
        obtain rfl := Option.some.inj h
        exact ⟨List.mem_cons_of_mem _ (ih hs).1, (ih hs).2⟩
      · rw [better_of_le hge] at h
        obtain rfl := Option.some.inj h
        exact ⟨List.mem_cons_self, rfl⟩

/-- The scan ends at an index whose value is above those in front and not below those behind. -/
theorem scan_eq_some_iff {p : ι × α} :
    scan f l = some p ↔ ∃ a b, l = a ++ p.1 :: b ∧ p.2 = f p.1 ∧
      (∀ j ∈ a, f j < p.2) ∧ ∀ j ∈ b, f j ≤ p.2 := by
  constructor
  · intro h
    induction l generalizing p with
    | nil => exact absurd h (by simp)
    | cons i l ih =>
      rw [scan_cons] at h
      cases hs : scan f l with
      | none =>
        rw [hs, better_none] at h
        obtain rfl := Option.some.inj h
        exact ⟨[], [], by rw [scan_eq_none_iff.mp hs]; rfl, rfl, by simp, by simp⟩
      | some q =>
        obtain ⟨a, b, hl, hq, ha, hb⟩ := ih hs
        rw [hs] at h
        rcases lt_or_ge (f i) q.2 with hlt | hge
        · rw [better_of_lt hlt] at h
          obtain rfl := Option.some.inj h
          refine ⟨i :: a, b, by rw [hl]; rfl, hq, ?_, hb⟩
          intro j hj
          rcases List.mem_cons.mp hj with rfl | hj
          · exact hlt
          · exact ha j hj
        · rw [better_of_le hge] at h
          obtain rfl := Option.some.inj h
          refine ⟨[], l, rfl, rfl, by simp, ?_⟩
          intro j hj
          rw [hl] at hj
          rcases List.mem_append.mp hj with hj | hj
          · exact (ha j hj).le.trans hge
          · rcases List.mem_cons.mp hj with rfl | hj
            · exact hq ▸ hge
            · exact (hb j hj).trans hge
  · rintro ⟨a, b, rfl, hp, ha, hb⟩
    have hself : (p.1, f p.1) = p := Prod.ext rfl hp.symm
    have hright : better (some p) (scan f b) = some p := by
      cases hs : scan f b with
      | none => rfl
      | some q =>
        obtain ⟨hmem, hq⟩ := scan_mem hs
        exact better_of_le (hq ▸ hb _ hmem)
    rw [scan_append, scan_cons, hself, hright]
    cases hs : scan f a with
    | none => rfl
    | some q =>
      obtain ⟨hmem, hq⟩ := scan_mem hs
      exact better_of_lt (hq ▸ ha _ hmem)

/-- A filter that keeps every largest value changes nothing. -/
theorem scan_filter {keep : ι → Bool} (h : ∀ i ∈ l, (∀ j ∈ l, f j ≤ f i) → keep i = true) :
    scan f (l.filter keep) = scan f l := by
  cases hs : scan f l with
  | none => rw [scan_eq_none_iff.mp hs]; rfl
  | some p =>
    obtain ⟨a, b, rfl, hp, ha, hb⟩ := scan_eq_some_iff.mp hs
    have hkeep : keep p.1 = true := by
      refine h p.1 (by simp) fun j hj => ?_
      rcases List.mem_append.mp hj with hj | hj
      · exact hp ▸ (ha j hj).le
      · rcases List.mem_cons.mp hj with rfl | hj
        · exact le_rfl
        · exact hp ▸ hb j hj
    refine scan_eq_some_iff.mpr ⟨a.filter keep, b.filter keep, ?_, hp, ?_, ?_⟩
    · rw [List.filter_append, List.filter_cons_of_pos hkeep]
    · exact fun j hj => ha j (List.mem_filter.mp hj).1
    · exact fun j hj => hb j (List.mem_filter.mp hj).1

end Scan
