import Mathlib.Data.List.Nodup
import Mathlib.Data.List.TakeWhile
import Mathlib.Data.List.Range
import Mathlib.Logic.Function.Basic

/-!
Operations on in-order streams that wait for one another through events.

Operations are enqueued from one place. Those of a stream run in order; an event is recorded behind
what its stream has so far, and what a stream gets behind a wait runs behind the event.

* `Log`: what was enqueued, each operation with all that is ordered before it.
* `Log.Wf`: the order is transitive, and only goes back.
* `Schedule`: an order in which the operations may run.
* `Schedule.last_eq`: a write that is ordered against all others is what a read sees, in every
  schedule.
-/

namespace Streams

/-- The operations of streams `S` with events `E`. `known` is what is ordered before the next
operation of a stream, and `event` what is ordered before an event. -/
structure Log (S E O : Type) where
  ops : List (O × List ℕ)
  known : S → List ℕ
  event : E → List ℕ

variable {S E O : Type}

namespace Log

/-- Nothing is enqueued yet. -/
def empty : Log S E O := ⟨[], fun _ => [], fun _ => []⟩

/-- The `n`-th operation. -/
def op (l : Log S E O) (n : ℕ) : Option O := (l.ops[n]?).map Prod.fst

/-- What is ordered before the `n`-th operation. -/
def past (l : Log S E O) (n : ℕ) : List ℕ := ((l.ops[n]?).map Prod.snd).getD []

/-- An operation at the end of a stream. -/
def enqueue [DecidableEq S] (l : Log S E O) (s : S) (o : O) : Log S E O where
  ops := l.ops ++ [(o, l.known s)]
  known := Function.update l.known s (l.ops.length :: l.known s)
  event := l.event

/-- An event at the end of a stream. -/
def record [DecidableEq E] (l : Log S E O) (e : E) (s : S) : Log S E O :=
  { l with event := Function.update l.event e (l.known s) }

/-- The stream waits for the event. -/
def wait [DecidableEq S] (l : Log S E O) (s : S) (e : E) : Log S E O :=
  { l with known := Function.update l.known s (l.event e ++ l.known s) }

/-- The order of a log is transitive, and only goes back. -/
structure Wf (l : Log S E O) : Prop where
  past_lt : ∀ {n m}, m ∈ l.past n → m < n
  past_trans : ∀ {n m k}, m ∈ l.past n → k ∈ l.past m → k ∈ l.past n
  known_lt : ∀ {s n}, n ∈ l.known s → n < l.ops.length
  known_trans : ∀ {s n m}, n ∈ l.known s → m ∈ l.past n → m ∈ l.known s
  event_lt : ∀ {e n}, n ∈ l.event e → n < l.ops.length
  event_trans : ∀ {e n m}, n ∈ l.event e → m ∈ l.past n → m ∈ l.event e

variable {l : Log S E O} {n : ℕ}

lemma lt_of_op {o : O} (h : l.op n = some o) : n < l.ops.length := by
  rw [op, Option.map_eq_some_iff] at h
  obtain ⟨x, hx, -⟩ := h
  exact (List.getElem?_eq_some_iff.mp hx).1

lemma past_eq_nil (h : l.ops.length ≤ n) : l.past n = [] := by
  rw [past, List.getElem?_eq_none h]
  rfl

lemma wf_empty : (empty : Log S E O).Wf where
  past_lt := nofun
  past_trans := nofun
  known_lt := nofun
  known_trans := nofun
  event_lt := nofun
  event_trans := nofun

section Record

variable [DecidableEq E]

lemma event_record_self (e : E) (s : S) : (l.record e s).event e = l.known s :=
  Function.update_self ..

lemma event_record_of_ne {e e' : E} (s : S) (h : e' ≠ e) : (l.record e s).event e' = l.event e' :=
  Function.update_of_ne h ..

lemma Wf.record (h : l.Wf) (e : E) (s : S) : (l.record e s).Wf where
  past_lt := h.past_lt
  past_trans := h.past_trans
  known_lt := h.known_lt
  known_trans := h.known_trans
  event_lt {e' n} hn := by
    by_cases he : e' = e
    · subst he
      rw [event_record_self] at hn
      exact h.known_lt hn
    · rw [event_record_of_ne s he] at hn
      exact h.event_lt hn
  event_trans {e' n m} hn hm := by
    by_cases he : e' = e
    · subst he
      rw [event_record_self] at hn ⊢
      exact h.known_trans hn hm
    · rw [event_record_of_ne s he] at hn ⊢
      exact h.event_trans hn hm

end Record

section Issue

variable [DecidableEq S]

@[simp] lemma event_enqueue (s : S) (o : O) (e : E) : (l.enqueue s o).event e = l.event e := rfl

lemma known_wait_self (s : S) (e : E) : (l.wait s e).known s = l.event e ++ l.known s :=
  Function.update_self ..

lemma known_wait_of_ne {s s' : S} (e : E) (h : s' ≠ s) : (l.wait s e).known s' = l.known s' :=
  Function.update_of_ne h ..

lemma known_enqueue_self (s : S) (o : O) :
    (l.enqueue s o).known s = l.ops.length :: l.known s := Function.update_self ..

lemma known_enqueue_of_ne {s s' : S} (o : O) (h : s' ≠ s) :
    (l.enqueue s o).known s' = l.known s' := Function.update_of_ne h ..

lemma op_enqueue_new (s : S) (o : O) : (l.enqueue s o).op l.ops.length = some o := by
  rw [op, enqueue, List.getElem?_concat_length]
  rfl

lemma past_enqueue_new (s : S) (o : O) : (l.enqueue s o).past l.ops.length = l.known s := by
  rw [past, enqueue, List.getElem?_concat_length]
  rfl

lemma op_enqueue_old (s : S) (o : O) (h : n < l.ops.length) :
    (l.enqueue s o).op n = l.op n := by
  rw [op, enqueue, List.getElem?_append_left h]
  rfl

lemma past_enqueue_old (s : S) (o : O) (h : n < l.ops.length) :
    (l.enqueue s o).past n = l.past n := by
  rw [past, enqueue, List.getElem?_append_left h]
  rfl

/-- An operation of the longer log is an old one, or the new one. -/
lemma op_enqueue {s : S} {o o' : O} (h : (l.enqueue s o).op n = some o') :
    n < l.ops.length ∧ l.op n = some o' ∨ n = l.ops.length ∧ o' = o := by
  have hlt := lt_of_op h
  rw [enqueue, List.length_append, List.length_singleton, Nat.lt_succ_iff_lt_or_eq] at hlt
  rcases hlt with hold | rfl
  · exact .inl ⟨hold, (op_enqueue_old s o hold).symm.trans h⟩
  · exact .inr ⟨rfl, Option.some.inj (h.symm.trans (op_enqueue_new s o))⟩

lemma past_enqueue {s : S} {o : O} {m : ℕ} (h : m ∈ (l.enqueue s o).past n) :
    n < l.ops.length ∧ m ∈ l.past n ∨ n = l.ops.length ∧ m ∈ l.known s := by
  rcases Nat.lt_trichotomy n l.ops.length with hold | rfl | hnew
  · exact .inl ⟨hold, past_enqueue_old s o hold ▸ h⟩
  · exact .inr ⟨rfl, past_enqueue_new s o ▸ h⟩
  · rw [past_eq_nil (by rw [enqueue, List.length_append, List.length_singleton]; omega)] at h
    exact nomatch h

lemma mem_known_wait {s s' : S} {e : E} (h : n ∈ (l.wait s e).known s') :
    n ∈ l.event e ∨ n ∈ l.known s' := by
  by_cases hs : s' = s
  · subst hs
    rw [known_wait_self] at h
    exact List.mem_append.mp h
  · rw [known_wait_of_ne e hs] at h
    exact .inr h

lemma known_wait_mono {s s' : S} {e : E} (h : n ∈ l.known s') : n ∈ (l.wait s e).known s' := by
  by_cases hs : s' = s
  · subst hs
    rw [known_wait_self]
    exact List.mem_append_right _ h
  · rwa [known_wait_of_ne e hs]

lemma mem_known_enqueue {s s' : S} {o : O} (h : n ∈ (l.enqueue s o).known s') :
    n ∈ l.known s' ∨ n = l.ops.length ∧ s' = s := by
  by_cases hs : s' = s
  · subst hs
    rw [known_enqueue_self] at h
    rcases List.mem_cons.mp h with rfl | hold
    · exact .inr ⟨rfl, rfl⟩
    · exact .inl hold
  · rw [known_enqueue_of_ne o hs] at h
    exact .inl h

lemma known_enqueue_mono {s s' : S} {o : O} (h : n ∈ l.known s') :
    n ∈ (l.enqueue s o).known s' := by
  by_cases hs : s' = s
  · subst hs
    rw [known_enqueue_self]
    exact List.mem_cons_of_mem _ h
  · rwa [known_enqueue_of_ne o hs]

lemma Wf.wait (h : l.Wf) (s : S) (e : E) : (l.wait s e).Wf where
  past_lt := h.past_lt
  past_trans := h.past_trans
  known_lt {s' n} hn := by
    rcases mem_known_wait hn with hev | hold
    · exact h.event_lt hev
    · exact h.known_lt hold
  known_trans {s' n m} hn hm := by
    by_cases hs : s' = s
    · subst hs
      rw [known_wait_self] at hn ⊢
      rcases List.mem_append.mp hn with hev | hold
      · exact List.mem_append_left _ (h.event_trans hev hm)
      · exact List.mem_append_right _ (h.known_trans hold hm)
    · rw [known_wait_of_ne e hs] at hn ⊢
      exact h.known_trans hn hm
  event_lt := h.event_lt
  event_trans := h.event_trans

lemma Wf.enqueue (h : l.Wf) (s : S) (o : O) : (l.enqueue s o).Wf where
  past_lt {n m} hm := by
    rcases past_enqueue hm with ⟨-, hold⟩ | ⟨rfl, hnew⟩
    · exact h.past_lt hold
    · exact h.known_lt hnew
  past_trans {n m k} hm hk := by
    rcases past_enqueue hm with ⟨hn, hold⟩ | ⟨rfl, hnew⟩
    · rw [past_enqueue_old s o ((h.past_lt hold).trans hn)] at hk
      rw [past_enqueue_old s o hn]
      exact h.past_trans hold hk
    · rw [past_enqueue_old s o (h.known_lt hnew)] at hk
      rw [past_enqueue_new]
      exact h.known_trans hnew hk
  known_lt {s' n} hn := by
    have hlen : (l.enqueue s o).ops.length = l.ops.length + 1 := List.length_append
    rcases mem_known_enqueue hn with hold | ⟨rfl, -⟩
    · have hlt := h.known_lt hold
      omega
    · omega
  known_trans {s' n m} hn hm := by
    rcases mem_known_enqueue hn with hold | ⟨rfl, rfl⟩
    · rw [past_enqueue_old s o (h.known_lt hold)] at hm
      exact known_enqueue_mono (h.known_trans hold hm)
    · rw [past_enqueue_new] at hm
      exact known_enqueue_mono hm
  event_lt {e n} hn := by
    have hlen : (l.enqueue s o).ops.length = l.ops.length + 1 := List.length_append
    have hlt := h.event_lt hn
    omega
  event_trans {e n m} hn hm := by
    rw [event_enqueue] at hn
    rw [past_enqueue_old s o (h.event_lt hn)] at hm
    exact h.event_trans hn hm

end Issue

end Log

/-! ### Schedules -/

/-- An order in which the operations of a log may run. -/
structure Schedule (l : Log S E O) where
  order : List ℕ
  perm : order.Perm (List.range l.ops.length)
  sorted : order.Pairwise fun m n => n ∉ l.past m

namespace Schedule

variable {l : Log S E O} (σ : Schedule l)

/-- What runs before the `k`-th operation. -/
def before (k : ℕ) : List ℕ := σ.order.takeWhile (· ≠ k)

/-- The last operation with a property that runs before the `k`-th one. -/
def last (p : ℕ → Bool) (k : ℕ) : Option ℕ := (σ.before k).reverse.find? p

lemma order_eq {k : ℕ} (hk : k < l.ops.length) :
    ∃ post, σ.order = σ.before k ++ k :: post := by
  have hmem : k ∈ σ.order := σ.perm.mem_iff.mpr (List.mem_range.mpr hk)
  obtain ⟨pre, post, heq⟩ := List.append_of_mem hmem
  have hnodup : σ.order.Nodup := σ.perm.nodup_iff.mpr List.nodup_range
  have hpre : k ∉ pre := by
    rw [heq] at hnodup
    intro hin
    exact (List.nodup_append.mp hnodup).2.2 k hin k List.mem_cons_self rfl
  refine ⟨post, ?_⟩
  have hwhile : pre.takeWhile (· ≠ k) = pre := by
    rw [List.takeWhile_eq_self_iff]
    intro x hx
    simpa using fun hxk : x = k => hpre (hxk ▸ hx)
  rw [before, heq, List.takeWhile_append, if_pos (congrArg List.length hwhile), List.takeWhile_cons,
    if_neg (by simp), List.append_nil]

/-- A write that is ordered before a read, all others being ordered before the write or behind the
read, is the last one the read sees. -/
theorem last_eq (hl : l.Wf) {k w : ℕ} {p : ℕ → Bool} (hk : k < l.ops.length) (hw : w ∈ l.past k)
    (hp : p w = true)
    (hother : ∀ w', p w' = true → w' ≠ w → w' ∈ l.past w ∨ k ∈ l.past w') :
    σ.last p k = some w := by
  obtain ⟨post, horder⟩ := σ.order_eq hk
  have hlt := hl.past_lt hw
  have hnodup : σ.order.Nodup := σ.perm.nodup_iff.mpr List.nodup_range
  have hsorted := σ.sorted
  have hmem : w ∈ σ.order := σ.perm.mem_iff.mpr (List.mem_range.mpr (hlt.trans hk))
  rw [horder] at hnodup hsorted hmem
  obtain ⟨hpre, hrest, hcross⟩ := List.pairwise_append.mp hsorted
  have hin : w ∈ σ.before k := by
    rcases List.mem_append.mp hmem with hin | htail
    · exact hin
    · rcases List.mem_cons.mp htail with rfl | hpost
      · exact absurd hlt (lt_irrefl w)
      · exact absurd hw (List.rel_of_pairwise_cons hrest hpost)
  obtain ⟨a, b, hab⟩ := List.append_of_mem hin
  rw [hab] at hpre hcross hnodup
  obtain ⟨-, hwb, -⟩ := List.pairwise_append.mp hpre
  have hnone : b.reverse.find? p = none := by
    rw [List.find?_eq_none]
    intro w' hw' hpw'
    rw [List.mem_reverse] at hw'
    have hne : w' ≠ w := by
      rintro rfl
      have hpair := (List.nodup_append.mp (List.nodup_append.mp hnodup).1).2.1
      exact (List.nodup_cons.mp hpair).1 hw'
    rcases hother w' hpw' hne with hold | hnew
    · exact List.rel_of_pairwise_cons hwb hw' hold
    · exact hcross w' (List.mem_append_right _ (List.mem_cons_of_mem _ hw')) k List.mem_cons_self
        hnew
  rw [last, hab, List.reverse_append, List.reverse_cons, List.append_assoc, List.find?_append, hnone]
  exact List.find?_cons_of_pos hp

end Schedule

end Streams
