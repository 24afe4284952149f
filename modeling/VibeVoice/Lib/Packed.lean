import Mathlib.Algebra.GroupWithZero.Nat
import Mathlib.Data.List.Forall2
import VibeVoice.Lib.Loop

/-!
Lists packed one behind the other, and entries that tell where each one starts.

* `Consecutive`: the entries start where the ones in front of them end.
* `Owns`: a way to find the entry a place of the packed list belongs to.
* `packed_eq`: filling every place by its entry gives the lists one behind the other.
* `slice_flatten`: one list, cut out of the packed one.
-/

namespace VibeVoice.Packed

variable {ι α : Type} {off len : ι → ℕ}

/-- Entries that start at `base` and lie behind each other. -/
def Consecutive (off len : ι → ℕ) : ℕ → List ι → Prop
  | _, [] => True
  | base, d :: ds => off d = base ∧ Consecutive off len (base + len d) ds

/-- Every range is inside of the packed list. -/
lemma Consecutive.bounds {base : ℕ} {ds : List ι} (h : Consecutive off len base ds) :
    ∀ d ∈ ds, base ≤ off d ∧ off d + len d ≤ base + (ds.map len).sum := by
  induction ds generalizing base with
  | nil => exact nofun
  | cons d ds ih =>
    intro d' hd'
    have hoff := h.1
    rw [List.map_cons, List.sum_cons]
    rcases List.mem_cons.mp hd' with rfl | hmem
    · omega
    · have hrest := ih h.2 d' hmem
      omega

/-- The ranges lie one behind the other. -/
lemma Consecutive.pairwise {base : ℕ} {ds : List ι} (h : Consecutive off len base ds) :
    ds.Pairwise fun d d' => off d + len d ≤ off d' := by
  induction ds generalizing base with
  | nil => exact .nil
  | cons d ds ih =>
    refine .cons (fun d' hd' => ?_) (ih h.2)
    rw [h.1]
    exact (h.2.bounds d' hd').1

/-- `owner` finds the entry of a place. -/
structure Owns (off len : ι → ℕ) (owner : ℕ → List ι → Option ι) : Prop where
  here : ∀ {base d ds}, Consecutive off len base (d :: ds) → ∀ {p}, p < len d →
    owner (base + p) (d :: ds) = some d
  behind : ∀ {base d ds}, Consecutive off len base (d :: ds) → ∀ {p}, p < (ds.map len).sum →
    owner (base + len d + p) (d :: ds) = owner (base + len d + p) ds

/-- The first entry whose range holds the place. -/
lemma owns_find (off len : ι → ℕ) :
    Owns off len fun p ds => ds.find? fun d => off d ≤ p ∧ p < off d + len d := by
  constructor
  · intro base d ds hc p hp
    refine List.find?_cons_of_pos (decide_eq_true ?_)
    rw [hc.1]
    omega
  · intro base d ds hc p _
    refine List.find?_cons_of_neg ?_
    rw [decide_eq_true_eq, hc.1]
    omega

/-- What an entry puts into its range. -/
def Fills (len : ι → ℕ) (body : ι → ℕ → Option α) (d : ι) (out : List α) : Prop :=
  out.length = len d ∧ ∀ p < len d, body d p = out[p]?

section Fill

variable {owner : ℕ → List ι → Option ι} {body : ι → ℕ → Option α} {ds : List ι}
  {outs : List (List α)}

lemma length_flatten (h : List.Forall₂ (Fills len body) ds outs) :
    outs.flatten.length = (ds.map len).sum := by
  induction h with
  | nil => rfl
  | cons hd _ ih => rw [List.flatten_cons, List.length_append, hd.1, ih, List.map_cons, List.sum_cons]

lemma getElem?_owner (ho : Owns off len owner) {base : ℕ} (hc : Consecutive off len base ds)
    (h : List.Forall₂ (Fills len body) ds outs) {p : ℕ} (hp : p < (ds.map len).sum) :
    ((owner (base + p) ds).bind fun d => body d (base + p - off d)) = outs.flatten[p]? := by
  induction h generalizing base p with
  | nil => exact absurd hp p.not_lt_zero
  | @cons d out ds outs hd htail ih =>
    rw [List.map_cons, List.sum_cons] at hp
    rw [List.flatten_cons]
    rcases Nat.lt_or_ge p (len d) with hlt | hge
    · rw [ho.here hc hlt, Option.bind_some, hc.1, Nat.add_sub_cancel_left, hd.2 p hlt,
        List.getElem?_append_left (hd.1.symm ▸ hlt)]
    · obtain ⟨q, rfl⟩ := Nat.exists_eq_add_of_le hge
      have hq : q < (ds.map len).sum := by omega
      rw [← Nat.add_assoc, ho.behind hc hq, ih hc.2 hq,
        List.getElem?_append_right (hd.1.symm ▸ hge), hd.1, Nat.add_sub_cancel_left]

/-- Every place filled by its entry: the lists one behind the other. -/
theorem packed_eq (ho : Owns off len owner) (hc : Consecutive off len 0 ds)
    (h : List.Forall₂ (Fills len body) ds outs) :
    ((List.range (ds.map len).sum).mapM fun p =>
      (owner p ds).bind fun d => body d (p - off d)) = some outs.flatten := by
  rw [← length_flatten h]
  refine Loop.mapM_range_getElem? fun p hp => ?_
  rw [length_flatten h] at hp
  have hplace := getElem?_owner ho hc h hp
  rwa [Nat.zero_add] at hplace

end Fill

/-- One list, cut out of the packed one. -/
lemma slice_flatten {cols : List (List α)} {i : ℕ} {col : List α} (h : cols[i]? = some col) :
    (cols.flatten.drop ((cols.map List.length).take i).sum).take col.length = col := by
  induction cols generalizing i with
  | nil => exact nomatch h
  | cons c cols ih =>
    cases i with
    | zero =>
      obtain rfl : c = col := Option.some.inj h
      rw [List.take_zero, List.sum_nil, List.drop_zero, List.flatten_cons, List.take_left']
      rfl
    | succ i =>
      rw [List.map_cons, List.take_succ_cons, List.sum_cons, List.flatten_cons,
        ← List.drop_drop, List.drop_left]
      exact ih h

end VibeVoice.Packed
