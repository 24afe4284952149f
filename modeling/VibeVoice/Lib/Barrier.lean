import Mathlib.Data.Nat.Count
import Mathlib.Logic.Function.Basic
import Mathlib.Logic.Relation
import Mathlib.Tactic

/-!
Threads of a block that run one program over shared memory, with barriers and asynchronous copies.

The memory is divided into slots.  A write fills cells of one slot, each thread its own; a copy does
so later, at any time until a wait of its thread covers it.  Behind a barrier goes on only who finds
every thread at it.  Otherwise the threads run in any order.

* `Step`, `Reachable`: the runs.
* `bars_le`: two threads are never more than a barrier apart.
* `Disciplined`: between accesses to one slot there is a barrier, and a wait before it.
* `Disciplined.read_sees`: a read then finds what was written last, with no copy under way.
* `Disciplined.write_waits`: and no thread writes to a slot before all have read it.
* `exists_lockstep`: the threads can get to the end.
-/

namespace Barrier

open Function

variable {T A V : Type}

/-- One step of the program; the cells of a write are given by the thread. -/
inductive Action (T A V : Type)
  | write (async : Bool) (slot : ℕ) (cells : T → List (A × V))
  | wait (pending : ℕ)
  | barrier
  | read (slot : ℕ)

/-- The program, `none` behind its end. -/
abbrev Program (T A V : Type) := ℕ → Option (Action T A V)

variable (prog : Program T A V)

/-- A write to a slot. -/
def IsWrite (q slot : ℕ) : Prop := ∃ async cells, prog q = some (.write async slot cells)

/-- The step is an asynchronous write. -/
def Action.isCopy : Action T A V → Bool
  | write async _ _ => async
  | _ => false

def Action.isBarrier : Action T A V → Bool
  | barrier => true
  | _ => false

/-- The copies in front of a place. -/
def copies (q : ℕ) : ℕ := Nat.count (fun i => (prog i).any Action.isCopy = true) q

/-- The barriers in front of a place. -/
def bars (q : ℕ) : ℕ := Nat.count (fun i => (prog i).any Action.isBarrier = true) q

/-- Where the threads are, which of their copies are under way, and the slots. -/
structure State (T A V : Type) where
  pos : T → ℕ
  flying : T → ℕ → Prop
  mem : ℕ → A → V

section
variable [DecidableEq T]

/-- Thread `t` goes on. -/
def State.go (s : State T A V) (t : T) : State T A V :=
  { s with pos := update s.pos t (s.pos t + 1) }

@[simp] lemma go_pos_self (s : State T A V) (t : T) : (s.go t).pos t = s.pos t + 1 :=
  update_self ..

lemma go_pos_of_ne {s : State T A V} {t u : T} (h : u ≠ t) : (s.go t).pos u = s.pos u :=
  update_of_ne h ..

lemma le_go_pos (s : State T A V) (t u : T) : s.pos u ≤ (s.go t).pos u := by
  by_cases h : u = t
  · rw [h, go_pos_self]
    omega
  · rw [go_pos_of_ne h]

end

section
variable [DecidableEq T] [DecidableEq A]

/-- The memory after some cells of a slot are written. -/
def patch (mem : ℕ → A → V) (slot : ℕ) (cells : List (A × V)) : ℕ → A → V :=
  update mem slot (cells.foldl (fun m c => update m c.1 c.2) (mem slot))

/-- A step of a thread, or a copy that is done. -/
inductive Step : State T A V → State T A V → Prop
  | copy {s : State T A V} {t : T} {slot : ℕ} {cells : T → List (A × V)}
      (h : prog (s.pos t) = some (.write true slot cells)) :
      Step s { s.go t with flying := fun u q => s.flying u q ∨ (u = t ∧ q = s.pos t) }
  | land {s : State T A V} {t : T} {q slot : ℕ} {cells : T → List (A × V)} (hfly : s.flying t q)
      (h : prog q = some (.write true slot cells)) :
      Step s { s with
        flying := fun u p => s.flying u p ∧ ¬(u = t ∧ p = q)
        mem := patch s.mem slot (cells t) }
  | store {s : State T A V} {t : T} {slot : ℕ} {cells : T → List (A × V)}
      (h : prog (s.pos t) = some (.write false slot cells)) :
      Step s { s.go t with mem := patch s.mem slot (cells t) }
  | wait {s : State T A V} {t : T} {n : ℕ} (h : prog (s.pos t) = some (.wait n))
      (hdone : ∀ q, s.flying t q → copies prog (s.pos t) < copies prog (q + 1) + n) :
      Step s (s.go t)
  | barrier {s : State T A V} {t : T} (h : prog (s.pos t) = some .barrier)
      (hall : ∀ u, bars prog (s.pos t) < bars prog (s.pos u + 1)) : Step s (s.go t)
  | read {s : State T A V} {t : T} {slot : ℕ} (h : prog (s.pos t) = some (.read slot)) :
      Step s (s.go t)

/-- The states of the runs from the start of the program, with anything in the memory. -/
def Reachable (s : State T A V) : Prop :=
  ∃ mem, Relation.ReflTransGen (Step prog) ⟨fun _ => 0, fun _ _ => False, mem⟩ s

variable {prog} {s s' : State T A V}

/-- What every step keeps holds in every state of a run. -/
theorem Reachable.induct {P : State T A V → Prop} (h : Reachable prog s)
    (h₀ : ∀ mem, P ⟨fun _ => 0, fun _ _ => False, mem⟩)
    (hstep : ∀ s s', Reachable prog s → P s → Step prog s s' → P s') : P s := by
  obtain ⟨mem, hrun⟩ := h
  induction hrun with
  | refl => exact h₀ mem
  | tail hfront hlast ih => exact hstep _ _ ⟨mem, hfront⟩ ih hlast

end

/-! ### Barriers -/

section
variable {prog} {q q' b : ℕ}

lemma bars_mono (h : q ≤ q') : bars prog q ≤ bars prog q' := Nat.count_monotone _ h

lemma bars_succ (q : ℕ) : bars prog (q + 1) =
    bars prog q + if (prog q).any Action.isBarrier = true then 1 else 0 := Nat.count_succ _ q

lemma copies_succ (q : ℕ) : copies prog (q + 1) =
    copies prog q + if (prog q).any Action.isCopy = true then 1 else 0 := Nat.count_succ _ q

/-- There is a barrier in between. -/
lemma bars_lt (hb : prog b = some .barrier) (hq : q ≤ b) (hq' : b < q') :
    bars prog q < bars prog q' :=
  calc bars prog q ≤ bars prog b := bars_mono hq
    _ < bars prog (b + 1) := by simp [bars_succ, hb, Action.isBarrier]
    _ ≤ bars prog q' := bars_mono hq'

end

section
variable [DecidableEq T] [DecidableEq A] {prog} {s s' : State T A V}

/-- What a step does to the places of the threads. -/
lemma Step.pos_cases (h : Step prog s s') :
    s'.pos = s.pos ∨ ∃ t, s'.pos = (s.go t).pos ∧
      ∀ u, bars prog (s.pos t + 1) ≤ max (bars prog (s.pos t)) (bars prog (s.pos u + 1)) := by
  have hother : ∀ {t : T} {a : Action T A V}, prog (s.pos t) = some a → a.isBarrier = false →
      ∀ u, bars prog (s.pos t + 1) ≤ max (bars prog (s.pos t)) (bars prog (s.pos u + 1)) := by
    intro t a ha hb u
    simp [bars_succ, ha, hb]
  cases h with
  | land => exact .inl rfl
  | @copy t _ _ h => exact .inr ⟨t, rfl, hother h rfl⟩
  | @store t _ _ h => exact .inr ⟨t, rfl, hother h rfl⟩
  | @wait t _ h => exact .inr ⟨t, rfl, hother h rfl⟩
  | @barrier t h hall =>
    refine .inr ⟨t, rfl, fun u => le_max_of_le_right ?_⟩
    have := hall u
    simp only [bars_succ, h, Option.any_some, Action.isBarrier, if_true] at this ⊢
    omega
  | @read t _ h => exact .inr ⟨t, rfl, hother h rfl⟩

/-- No thread goes back. -/
lemma Step.pos_le (h : Step prog s s') (t : T) : s.pos t ≤ s'.pos t := by
  rcases h.pos_cases with heq | ⟨u, heq, -⟩
  · rw [heq]
  · rw [heq]
    exact le_go_pos s u t

/-- A thread has gone through no more barriers than every other has come to. -/
theorem bars_le (h : Reachable prog s) (t u : T) :
    bars prog (s.pos t) ≤ bars prog (s.pos u + 1) := by
  refine h.induct (P := fun s => ∀ t u, bars prog (s.pos t) ≤ bars prog (s.pos u + 1))
    (fun mem t u => bars_mono (Nat.zero_le _)) (fun s s' _ ih hstep t u => ?_) t u
  rcases hstep.pos_cases with heq | ⟨v, heq, hbar⟩
  · rw [heq]
    exact ih t u
  · have hu : bars prog (s.pos u + 1) ≤ bars prog (s'.pos u + 1) :=
      bars_mono (Nat.add_le_add_right (hstep.pos_le u) 1)
    refine le_trans ?_ hu
    rw [heq]
    by_cases htv : t = v
    · rw [htv, go_pos_self]
      exact (hbar u).trans (max_le (ih v u) le_rfl)
    · rw [go_pos_of_ne htv]
      exact ih t u

/-- Where one thread has gone through a barrier, every other has come to it. -/
lemma le_pos_of_passed (h : Reachable prog s) {b : ℕ} (hb : prog b = some .barrier)
    {t : T}
    (ht : b < s.pos t) (u : T) : b ≤ s.pos u := by
  by_contra hlt
  have hle := bars_le h t u
  have hgap : bars prog (s.pos u + 1) < bars prog (s.pos t) := bars_lt hb (by omega) ht
  omega

/-- A copy that is under way has been asked for, and no wait behind it covers it. -/
lemma flying_spec (h : Reachable prog s) {t : T} {q : ℕ} (hfly : s.flying t q) :
    (∃ slot cells, prog q = some (.write true slot cells)) ∧ q < s.pos t ∧
      ∀ k n, prog k = some (.wait n) → q < k → k < s.pos t →
        copies prog k < copies prog (q + 1) + n := by
  refine h.induct (P := fun s => ∀ t q, s.flying t q →
    (∃ slot cells, prog q = some (.write true slot cells)) ∧ q < s.pos t ∧
      ∀ k n, prog k = some (.wait n) → q < k → k < s.pos t →
        copies prog k < copies prog (q + 1) + n)
    (fun mem t q hfly => hfly.elim) (fun s s' _ ih hstep u p hfly => ?_) t q hfly
  -- a step that is no wait takes a thread past none
  have hnext : ∀ {t : T} {a : Action T A V}, prog (s.pos t) = some a → (∀ n, a ≠ .wait n) →
      s.flying u p → (∃ slot cells, prog p = some (.write true slot cells)) ∧
        p < (s.go t).pos u ∧ ∀ k n, prog k = some (.wait n) → p < k → k < (s.go t).pos u →
          copies prog k < copies prog (p + 1) + n := by
    intro t a ha hne hfly
    obtain ⟨hcopy, hlt, hwait⟩ := ih u p hfly
    refine ⟨hcopy, hlt.trans_le (le_go_pos s t u), fun k n hk hpk hku => hwait k n hk hpk ?_⟩
    by_cases hut : u = t
    · subst hut
      have hkne : k ≠ s.pos u := by
        rintro rfl
        exact hne n (Option.some.inj (ha.symm.trans hk))
      rw [go_pos_self] at hku
      omega
    · rwa [go_pos_of_ne hut] at hku
  cases hstep with
  | @copy t slot cells h =>
    rcases hfly with hfly | ⟨rfl, rfl⟩
    · exact hnext h (fun n => by simp) hfly
    · refine ⟨⟨slot, cells, h⟩, ?_, fun k n hk hpk hku => ?_⟩
      · exact (Nat.lt_succ_self _).trans_le (go_pos_self s u).ge
      · have hku' : k < s.pos u + 1 := (go_pos_self s u).symm ▸ hku
        omega
  | land => exact ih u p hfly.1
  | @store t _ _ h => exact hnext h (fun n => by simp) hfly
  | @wait t n h hdone =>
    obtain ⟨hcopy, hlt, hwait⟩ := ih u p hfly
    refine ⟨hcopy, hlt.trans_le (le_go_pos s t u), fun k m hk hpk hku => ?_⟩
    by_cases hut : u = t
    · subst hut
      rw [go_pos_self, Nat.lt_succ_iff_lt_or_eq] at hku
      rcases hku with hku | rfl
      · exact hwait k m hk hpk hku
      · obtain rfl : n = m := by simpa [h] using hk
        exact hdone p hfly
    · rw [go_pos_of_ne hut] at hku
      exact hwait k m hk hpk hku
  | @barrier t h => exact hnext h (fun n => by simp) hfly
  | @read t _ h => exact hnext h (fun n => by simp) hfly

end

/-! ### Discipline -/

/-- Before the barrier the thread has waited for its part of the write, if it is a copy. -/
structure Settled (w b : ℕ) : Prop where
  barrier : prog b = some .barrier
  lt : w < b
  waited : ∀ slot cells, prog w = some (.write true slot cells) → ∃ k n, w < k ∧ k < b ∧
    prog k = some (.wait n) ∧ copies prog (w + 1) + n ≤ copies prog k

/-- A write is settled before the next access to its slot, and between a read and a write there is a
barrier. -/
structure Disciplined : Prop where
  writes : ∀ {w w' slot}, w < w' → IsWrite prog w slot → IsWrite prog w' slot →
    ∃ b < w', Settled prog w b
  reads : ∀ {w q slot}, w < q → IsWrite prog w slot → prog q = some (.read slot) →
    ∃ b < q, Settled prog w b
  after : ∀ {q w slot}, q < w → prog q = some (.read slot) → IsWrite prog w slot →
    ∃ b, q < b ∧ b < w ∧ prog b = some .barrier

/-- The threads write no two values to a cell. -/
def Consistent (cells : T → List (A × V)) : Prop :=
  ∀ t u, ∀ c ∈ cells t, ∀ d ∈ cells u, c.1 = d.1 → c.2 = d.2

section
variable [DecidableEq T] [DecidableEq A] {prog} {s s' : State T A V} {w q slot : ℕ}

/-- A thread that has come to the barrier has done its part of the write. -/
lemma Settled.landed {b : ℕ} (h : Settled prog w b) (hs : Reachable prog s) {t : T}
    (ht : b ≤ s.pos t) : ¬s.flying t w := by
  intro hfly
  obtain ⟨⟨slot, cells, hw⟩, -, hwait⟩ := flying_spec hs hfly
  obtain ⟨k, n, hwk, hkb, hk, hcover⟩ := h.waited slot cells hw
  have := hwait k n hk hwk (by omega)
  omega

/-- Behind a settled write every thread has done its part. -/
lemma Settled.all {b : ℕ} (h : Settled prog w b) (hs : Reachable prog s) {t : T}
    (ht : b < s.pos t) (u : T) : w < s.pos u ∧ ¬s.flying u w := by
  have hu := le_pos_of_passed hs h.barrier ht u
  exact ⟨h.lt.trans_le hu, h.landed hs hu⟩

/-- The cells after a write. -/
lemma foldl_update_eq {m : A → V} {cells : List (A × V)} {a : A} {v : V}
    (hval : ∀ c ∈ cells, c.1 = a → c.2 = v) (hex : m a = v ∨ ∃ c ∈ cells, c.1 = a) :
    cells.foldl (fun m c => update m c.1 c.2) m a = v := by
  induction cells generalizing m with
  | nil => exact hex.resolve_right (by simp)
  | cons c cells ih =>
    refine ih (fun d hd => hval d (List.mem_cons_of_mem _ hd)) ?_
    by_cases hc : c.1 = a
    · subst hc
      exact .inl ((update_self ..).trans (hval c List.mem_cons_self rfl))
    · rcases hex with hm | ⟨d, hd, hda⟩
      · exact .inl ((update_of_ne (Ne.symm hc) ..).trans hm)
      · rcases List.mem_cons.mp hd with rfl | hd
        · exact absurd hda hc
        · exact .inr ⟨d, hd, hda⟩

/-- Until the next write to the slot the cells of a thread hold what it wrote. -/
lemma Disciplined.holds (hd : Disciplined prog) (hs : Reachable prog s) {async : Bool}
    {cells : T → List (A × V)} (hw : prog w = some (.write async slot cells))
    (hcons : Consistent cells)
    (hnext : ∀ u w', w < w' → IsWrite prog w' slot → s.pos u ≤ w') {u : T} (hu : w < s.pos u)
    (hland : ¬s.flying u w) : ∀ c ∈ cells u, s.mem slot c.1 = c.2 := by
  refine hs.induct (P := fun s => (∀ u w', w < w' → IsWrite prog w' slot → s.pos u ≤ w') →
    ∀ u, w < s.pos u → ¬s.flying u w → ∀ c ∈ cells u, s.mem slot c.1 = c.2)
    (fun mem _ u hu => absurd hu (Nat.not_lt_zero w)) (fun s s' hs ih hstep hnext u hu hland => ?_)
    hnext u hu hland
  have hw' : IsWrite prog w slot := ⟨async, cells, hw⟩
  have hnext' : ∀ u w', w < w' → IsWrite prog w' slot → s.pos u ≤ w' := fun u w' hlt h =>
    (hstep.pos_le u).trans (hnext u w' hlt h)
  -- a thread that goes on without a write has been behind this one
  have hgo : ∀ {t : T} {a : Action T A V}, prog (s.pos t) = some a →
      (∀ async slot cells, a ≠ .write async slot cells) → w < (s.go t).pos u → w < s.pos u := by
    intro t a ha hne hu
    by_cases hut : u = t
    · subst hut
      rw [go_pos_self] at hu
      have hwne : w ≠ s.pos u := by
        rintro rfl
        exact hne _ _ _ (Option.some.inj (ha.symm.trans hw))
      omega
    · rwa [go_pos_of_ne hut] at hu
  -- the same values, written once more
  have hsame : ∀ t : T, (u ≠ t → ∀ c ∈ cells u, s.mem slot c.1 = c.2) → ∀ c ∈ cells u,
      patch s.mem slot (cells t) slot c.1 = c.2 := by
    intro t hold c hc
    rw [patch, update_self]
    refine foldl_update_eq (fun d hd hdc => hcons t u d hd c hc hdc) ?_
    by_cases hut : u = t
    · exact .inr ⟨c, hut ▸ hc, rfl⟩
    · exact .inl (hold hut c hc)
  cases hstep with
  | @copy t slot' cells' h =>
    refine ih hnext' u ?_ fun hfly => hland (.inl hfly)
    by_cases hut : u = t
    · subst hut
      have hlt : w < s.pos u + 1 := go_pos_self s u ▸ hu
      have hwne : w ≠ s.pos u := fun heq => hland (.inr ⟨rfl, heq⟩)
      omega
    · exact (go_pos_of_ne hut : (s.go t).pos u = s.pos u) ▸ hu
  | @land t q slot' cells' hfly h =>
    by_cases hslot : slot' = slot
    · subst hslot
      obtain ⟨-, hqt, -⟩ := flying_spec hs hfly
      rcases Nat.lt_trichotomy q w with hlt | rfl | hgt
      · obtain ⟨b, hbw, hb⟩ := hd.writes hlt ⟨_, _, h⟩ hw'
        exact absurd hfly (hb.all hs (hbw.trans hu) t).2
      · obtain ⟨-, rfl⟩ : async = true ∧ cells = cells' := by simpa [h] using hw.symm
        exact hsame t fun hut => ih hnext' u hu fun hfly' =>
          hland ⟨hfly', fun hboth => hut hboth.1⟩
      · exact absurd (hnext' t q hgt ⟨_, _, h⟩) (by omega)
    · have hkeep : patch s.mem slot' (cells' t) slot = s.mem slot :=
        update_of_ne (Ne.symm hslot) ..
      have hother : ¬s.flying u w := fun hfly' => hland ⟨hfly', fun hboth => by
        rw [hboth.2, h] at hw
        simp only [Option.some.injEq, Action.write.injEq] at hw
        exact hslot hw.2.1⟩
      intro c hc
      exact (congrFun hkeep c.1).trans (ih hnext' u hu hother c hc)
  | @store t slot' cells' h =>
    by_cases hslot : slot' = slot
    · subst hslot
      rcases Nat.lt_trichotomy (s.pos t) w with hlt | heq | hgt
      · exfalso
        have hut : u ≠ t := by
          rintro rfl
          have : w < s.pos u + 1 := go_pos_self s u ▸ hu
          omega
        have hu' : w < s.pos u := (go_pos_of_ne hut : (s.go t).pos u = s.pos u) ▸ hu
        obtain ⟨b, hbw, hb⟩ := hd.writes hlt ⟨_, _, h⟩ hw'
        exact absurd (hb.all hs (hbw.trans hu') t).1 (by omega)
      · subst heq
        obtain ⟨-, rfl⟩ : async = false ∧ cells = cells' := by simpa [h] using hw.symm
        refine hsame t fun hut => ih hnext' u ?_ hland
        exact (go_pos_of_ne hut : (s.go t).pos u = s.pos u) ▸ hu
      · have hle : s.pos t + 1 ≤ s.pos t :=
          go_pos_self s t ▸ hnext t (s.pos t) hgt ⟨_, _, h⟩
        omega
    · have hkeep : patch s.mem slot' (cells' t) slot = s.mem slot :=
        update_of_ne (Ne.symm hslot) ..
      have hu' : w < s.pos u := by
        by_cases hut : u = t
        · subst hut
          have hlt : w < s.pos u + 1 := go_pos_self s u ▸ hu
          have hwne : w ≠ s.pos u := by
            rintro rfl
            simp only [h, Option.some.injEq, Action.write.injEq] at hw
            exact hslot hw.2.1
          omega
        · exact (go_pos_of_ne hut : (s.go t).pos u = s.pos u) ▸ hu
      intro c hc
      exact (congrFun hkeep c.1).trans (ih hnext' u hu' hland c hc)
  | @wait t n h => exact ih hnext' u (hgo h (by simp) hu) hland
  | @barrier t h => exact ih hnext' u (hgo h (by simp) hu) hland
  | @read t slot' h => exact ih hnext' u (hgo h (by simp) hu) hland

/-- A thread at a read finds in the slot what every thread wrote last, and no copy into the slot is
under way. -/
theorem Disciplined.read_sees (hd : Disciplined prog) (hs : Reachable prog s) {t : T}
    (hq : prog (s.pos t) = some (.read slot)) :
    (∀ u p, s.flying u p → ¬IsWrite prog p slot) ∧
      ∀ w async cells, w < s.pos t → prog w = some (.write async slot cells) → Consistent cells →
        (∀ w', w < w' → w' < s.pos t → ¬IsWrite prog w' slot) →
        ∀ u, ∀ c ∈ cells u, s.mem slot c.1 = c.2 := by
  -- no thread is behind a later write to the slot
  have hlater : ∀ u w', s.pos t < w' → IsWrite prog w' slot → s.pos u ≤ w' := by
    intro u w' hlt hw'
    by_contra hgt
    obtain ⟨b, hqb, hbw, hb⟩ := hd.after hlt hq hw'
    have := le_pos_of_passed hs hb (show b < s.pos u by omega) t
    omega
  have hne : ∀ w', IsWrite prog w' slot → w' ≠ s.pos t := by
    rintro w' ⟨_, _, hw'⟩ rfl
    rw [hq] at hw'
    exact absurd hw' (by simp)
  constructor
  · intro u p hfly hp
    rcases Nat.lt_or_gt_of_ne (hne p hp) with hlt | hgt
    · obtain ⟨b, hbq, hb⟩ := hd.reads hlt hp hq
      exact (hb.all hs hbq u).2 hfly
    · have := (flying_spec hs hfly).2.1
      have := hlater u p hgt hp
      omega
  · intro w async cells hwq hw hcons hlast u
    obtain ⟨b, hbq, hb⟩ := hd.reads hwq ⟨async, cells, hw⟩ hq
    obtain ⟨hu, hland⟩ := hb.all hs hbq u
    refine hd.holds hs hw hcons (fun u w' hlt hw' => ?_) hu hland
    rcases Nat.lt_or_gt_of_ne (hne w' hw') with hlt' | hgt
    · exact absurd hw' (hlast w' hlt hlt')
    · exact hlater u w' hgt hw'

/-- No thread comes to a write before all have done with the reads in front of it. -/
theorem Disciplined.write_waits (hd : Disciplined prog) (hs : Reachable prog s)
    (hq : prog q = some (.read slot)) (hw : IsWrite prog w slot) (hlt : q < w) {u : T}
    (hu : w ≤ s.pos u) (t : T) : q < s.pos t := by
  obtain ⟨b, hqb, hbw, hb⟩ := hd.after hlt hq hw
  exact hqb.trans_le (le_pos_of_passed hs hb (hbw.trans_le hu) t)

variable (prog) in
/-- What a thread may find at a read, cell by cell, whenever it is there. -/
def Sees (q slot : ℕ) (t : T) (f : A → V) : Prop :=
  ∀ a, ∃ s, Reachable prog s ∧ s.pos t = q ∧ f a = s.mem slot a

end

/-! ### Threads in step -/

section
variable [DecidableEq T] [DecidableEq A] {prog} {s s' : State T A V} {q : ℕ}

lemma Reachable.step (h : Reachable prog s) (hstep : Step prog s s') : Reachable prog s' := by
  obtain ⟨mem, hrun⟩ := h
  exact ⟨mem, hrun.tail hstep⟩

/-- A thread that is not ahead of the others, with no copies under way, can go on. -/
lemma exists_go (hs : Reachable prog s) (hidle : ∀ u p, ¬s.flying u p) {t : T}
    (hsome : (prog (s.pos t)).isSome) (hall : ∀ u, s.pos t ≤ s.pos u) :
    ∃ s', Reachable prog s' ∧ (∀ u p, ¬s'.flying u p) ∧ s'.pos = (s.go t).pos := by
  obtain ⟨a, ha⟩ := Option.isSome_iff_exists.mp hsome
  cases a with
  | write async slot cells =>
    cases async with
    | true =>
      -- the copy is done at once
      have hcopy := hs.step (.copy ha)
      refine ⟨_, hcopy.step (.land (t := t) (q := s.pos t) (.inr ⟨rfl, rfl⟩) ha), ?_, rfl⟩
      rintro u p ⟨hfly | hself, hne⟩
      · exact hidle u p hfly
      · exact hne hself
    | false => exact ⟨_, hs.step (.store ha), hidle, rfl⟩
  | wait n => exact ⟨_, hs.step (.wait ha fun p hfly => absurd hfly (hidle t p)), hidle, rfl⟩
  | barrier =>
    refine ⟨_, hs.step (.barrier ha fun u => ?_), hidle, rfl⟩
    exact bars_lt ha le_rfl (Nat.lt_succ_of_le (hall u))
  | read slot => exact ⟨_, hs.step (.read ha), hidle, rfl⟩

/-- The threads can go through the program in step. -/
theorem exists_lockstep [Fintype T] (mem : ℕ → A → V) (hsome : ∀ i < q, (prog i).isSome) :
    ∃ s, Reachable prog s ∧ (∀ u p, ¬s.flying u p) ∧ ∀ t, s.pos t = q := by
  induction q with
  | zero => exact ⟨_, ⟨mem, .refl⟩, fun _ _ => id, fun _ => rfl⟩
  | succ q ih =>
    obtain ⟨s, hs, hidle, hpos⟩ := ih fun i hi => hsome i (hi.trans q.lt_succ_self)
    -- one thread after the other
    have hsome' := hsome q q.lt_succ_self
    have hmoved : ∀ U : Finset T, ∃ s, Reachable prog s ∧ (∀ u p, ¬s.flying u p) ∧
        ∀ t, s.pos t = if t ∈ U then q + 1 else q := by
      intro U
      induction U using Finset.induction_on with
      | empty => exact ⟨s, hs, hidle, fun t => hpos t⟩
      | insert t U ht ihU =>
        obtain ⟨s, hs, hidle, hpos⟩ := ihU
        have ht' : s.pos t = q := by rw [hpos, if_neg ht]
        obtain ⟨s', hs', hidle', hpos'⟩ := exists_go hs hidle (t := t)
          (ht' ▸ hsome') fun u => by
            rw [ht', hpos]
            split_ifs <;> omega
        refine ⟨s', hs', hidle', fun u => ?_⟩
        rw [hpos']
        by_cases hut : u = t
        · rw [hut, go_pos_self, ht', if_pos (Finset.mem_insert_self t U)]
        · rw [go_pos_of_ne hut, hpos]
          simp only [Finset.mem_insert, hut, false_or]
    obtain ⟨s', hs', hidle', hpos'⟩ := hmoved Finset.univ
    exact ⟨s', hs', hidle', fun t => by rw [hpos', if_pos (Finset.mem_univ t)]⟩

/-- So there is a run to every read. -/
theorem exists_sees [Fintype T] (mem : ℕ → A → V) (hsome : ∀ i < q, (prog i).isSome) (slot : ℕ) :
    ∃ f : A → V, ∀ t, Sees prog q slot t f := by
  obtain ⟨s, hs, -, hpos⟩ := exists_lockstep mem hsome
  exact ⟨s.mem slot, fun t a => ⟨s, hs, hpos t, rfl⟩⟩

end

end Barrier
