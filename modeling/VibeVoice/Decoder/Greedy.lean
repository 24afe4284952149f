import Mathlib.Data.List.Nodup
import Mathlib.Order.BoundedOrder.Basic
import VibeVoice.Lib.Scan

/-!
The greedy token from a head on several threads, and from all logits (`cpu_kernels.c`).

Logits are any ordered values, the lowest of them `-INFINITY`.

* `lmHeadArgmaxCpu`: the ranges of the threads, merged in the order in which the threads arrive.
* `sampleGreedyCpu_first`: one scan finds the first maximum.
* `lmHeadArgmaxCpu_eq_iff`: the schedules on which the two agree.
-/

namespace VibeVoice.Greedy

variable {α : Type} [LinearOrder α]

/-- The better of two rows, the old one where the new one is no larger. -/
def pick (best new : ℕ × α) : ℕ × α := if best.2 < new.2 then new else best

/-- `vv_sample_greedy_cpu`. -/
def sampleGreedyCpu (logits : ℕ → α) (vocabSize : ℕ) : ℕ :=
  ((List.range' 1 (vocabSize - 1)).foldl (fun best i => pick best (i, logits i)) (0, logits 0)).1

/-- A thread of the head: its rows, and whether it got a buffer for one of them. -/
structure Thread where
  rows : List ℕ
  row : Bool

/-- The threads that share out `V` rows, and the order in which they enter the critical section. -/
structure Schedule (V : ℕ) where
  threads : List Thread
  arrivals : List Thread
  cover : (threads.map Thread.rows).flatten = List.range V
  perm : arrivals.Perm threads

section Head

variable [OrderBot α]

/-- `lb` and `lv` of a thread. -/
def Thread.best (logits : ℕ → α) (t : Thread) : ℕ × α :=
  if t.row then t.rows.foldl (fun best r => pick best (r, logits r)) (0, ⊥) else (0, ⊥)

/-- `vv_lm_head_argmax_cpu`, the `dot_f32` of a row its logit. -/
def lmHeadArgmaxCpu {V : ℕ} (logits : ℕ → α) (s : Schedule V) : ℕ :=
  (s.arrivals.foldl (fun best t => pick best (t.best logits)) (0, ⊥)).1

end Head

/-! ### Scans -/

lemma some_pick (p q : ℕ × α) : some (pick p q) = Scan.better (some p) (some q) := by
  rw [pick]
  split_ifs with h
  · exact (Scan.better_of_lt h).symm
  · exact (Scan.better_of_le (not_lt.mp h)).symm

/-- A loop that picks is a scan behind its start. -/
lemma some_foldl_pick (logits : ℕ → α) (p : ℕ × α) (l : List ℕ) :
    some (l.foldl (fun best i => pick best (i, logits i)) p) =
      Scan.better (some p) (Scan.scan logits l) := by
  induction l generalizing p with
  | nil => rfl
  | cons i l ih =>
    rw [List.foldl_cons, ih, some_pick, Scan.scan_cons, Scan.better_assoc]

/-- The rows in front of one are the smaller ones. -/
lemma of_range_split {V g : ℕ} {a b : List ℕ} (h : List.range V = a ++ g :: b) :
    g < V ∧ (∀ i, i ∈ a ↔ i < g) ∧ ∀ i ∈ b, i < V := by
  have hmem : ∀ i, i < V ↔ i ∈ a ∨ i = g ∨ i ∈ b := by
    intro i
    rw [← List.mem_range, h, List.mem_append, List.mem_cons]
  have hsorted : (a ++ g :: b).Pairwise (· < ·) := h ▸ List.pairwise_lt_range
  obtain ⟨-, hb, ha⟩ := List.pairwise_append.mp hsorted
  have hg : g < V := (hmem g).mpr (.inr (.inl rfl))
  refine ⟨hg, fun i => ⟨fun hi => ha i hi g List.mem_cons_self, fun hi => ?_⟩,
    fun i hi => (hmem i).mpr (.inr (.inr hi))⟩
  rcases (hmem i).mp (hi.trans hg) with hi' | rfl | hi'
  · exact hi'
  · exact absurd hi (lt_irrefl i)
  · exact absurd ((List.pairwise_cons.mp hb).1 i hi') hi.not_gt

/-- The scan over all logits. -/
lemma scan_range (logits : ℕ → α) {V : ℕ} (hV : 0 < V) :
    ∃ v, Scan.scan logits (List.range V) = some (sampleGreedyCpu logits V, v) := by
  have hrange : List.range V = 0 :: List.range' 1 (V - 1) := by
    obtain ⟨n, rfl⟩ := Nat.exists_eq_add_of_lt hV
    rw [List.range_eq_range']
    exact List.range'_succ
  rw [hrange, Scan.scan_cons, ← some_foldl_pick]
  exact ⟨_, rfl⟩

/-- One scan finds the first maximum. -/
theorem sampleGreedyCpu_first {logits : ℕ → α} {V : ℕ} (hV : 0 < V) :
    sampleGreedyCpu logits V < V ∧
      (∀ i < sampleGreedyCpu logits V, logits i < logits (sampleGreedyCpu logits V)) ∧
      ∀ i < V, logits i ≤ logits (sampleGreedyCpu logits V) := by
  obtain ⟨v, hscan⟩ := scan_range logits hV
  obtain ⟨a, b, hsplit, hvalue, ha, hb⟩ := Scan.scan_eq_some_iff.mp hscan
  dsimp only at hsplit hvalue ha hb
  subst hvalue
  obtain ⟨hg, hfront, -⟩ := of_range_split hsplit
  refine ⟨hg, fun i hi => ha i ((hfront i).mpr hi), fun i hi => ?_⟩
  have hmem : i ∈ List.range V := List.mem_range.mpr hi
  rw [hsplit] at hmem
  rcases List.mem_append.mp hmem with hmem | hmem
  · exact (ha i hmem).le
  · rcases List.mem_cons.mp hmem with rfl | hmem
    · exact le_rfl
    · exact hb i hmem

/-! ### Schedules -/

section Head

variable [OrderBot α] {V : ℕ} {logits : ℕ → α}

/-- The rows that are scored, in the order in which their threads arrive. -/
def Schedule.scored (s : Schedule V) : List ℕ :=
  ((s.arrivals.filter Thread.row).map Thread.rows).flatten

/-- The value the threads start with is never the better one. -/
lemma better_start (q : Option (ℕ × α)) :
    Scan.better (some (0, ⊥)) (Scan.better (some (0, ⊥)) q) =
      Scan.better (some ((0 : ℕ), (⊥ : α))) q := by
  rw [← Scan.better_assoc, Scan.better_of_le le_rfl]

lemma better_start_behind (p q : Option (ℕ × α)) :
    Scan.better (some (0, ⊥)) (Scan.better p (Scan.better (some (0, ⊥)) q)) =
      Scan.better (some ((0 : ℕ), (⊥ : α))) (Scan.better p q) := by
  cases p with
  | none => exact better_start q
  | some p =>
    rw [← Scan.better_assoc (some p), Scan.better_of_le (p := p) (q := (0, ⊥)) bot_le]

/-- The head scans the rows that are scored, one thread behind the other. -/
lemma some_lmHead (logits : ℕ → α) (s : Schedule V) :
    some (s.arrivals.foldl (fun best t => pick best (t.best logits)) (0, ⊥)) =
      Scan.better (some (0, ⊥)) (Scan.scan logits s.scored) := by
  have hfold : ∀ (l : List Thread) (p : ℕ × α),
      some (l.foldl (fun best t => pick best (t.best logits)) p) =
        Scan.better (some p) (Scan.best (l.map fun t => some (t.best logits))) := by
    intro l
    induction l with
    | nil => exact fun p => rfl
    | cons t l ih =>
      intro p
      rw [List.foldl_cons, ih, some_pick, List.map_cons, Scan.best_cons, Scan.better_assoc]
  have hbest : ∀ l : List Thread,
      Scan.better (some (0, ⊥)) (Scan.best (l.map fun t => some (t.best logits))) =
        Scan.better (some (0, ⊥))
          (Scan.scan logits ((l.filter Thread.row).map Thread.rows).flatten) := by
    intro l
    induction l with
    | nil => rfl
    | cons t l ih =>
      rw [List.map_cons, Scan.best_cons, ← better_start_behind, ih, better_start_behind,
        Thread.best]
      cases hrow : t.row with
      | true =>
        rw [if_pos rfl, some_foldl_pick, List.filter_cons_of_pos hrow, List.map_cons,
          List.flatten_cons, Scan.scan_append, Scan.better_assoc, better_start]
      | false =>
        rw [if_neg Bool.false_ne_true, better_start, List.filter_cons_of_neg (by simp [hrow])]
  rw [hfold, hbest, Schedule.scored]

lemma mem_scored {s : Schedule V} {r : ℕ} :
    r ∈ s.scored ↔ ∃ t ∈ s.arrivals, t.row = true ∧ r ∈ t.rows := by
  simp only [Schedule.scored, List.mem_flatten, List.mem_map, List.mem_filter]
  exact ⟨fun ⟨_, ⟨t, ⟨ht, hrow⟩, rfl⟩, hr⟩ => ⟨t, ht, hrow, hr⟩,
    fun ⟨t, ht, hrow, hr⟩ => ⟨_, ⟨t, ⟨ht, hrow⟩, rfl⟩, hr⟩⟩

/-- A row that is scored is one of the vocabulary's. -/
lemma Schedule.lt_of_scored (s : Schedule V) {r : ℕ} (h : r ∈ s.scored) : r < V := by
  obtain ⟨t, ht, -, hr⟩ := mem_scored.mp h
  have hmem : t.rows ∈ s.threads.map Thread.rows := List.mem_map_of_mem (s.perm.mem_iff.mp ht)
  exact List.mem_range.mp (s.cover ▸ List.mem_flatten.mpr ⟨_, hmem, hr⟩)

/-- A thread takes its rows in order. -/
lemma Schedule.pairwise_rows (s : Schedule V) {t : Thread} (ht : t ∈ s.arrivals) :
    t.rows.Pairwise (· < ·) := by
  have hsorted : ((s.threads.map Thread.rows).flatten).Pairwise (· < ·) :=
    s.cover ▸ List.pairwise_lt_range
  exact (List.pairwise_flatten.mp hsorted).1 _ (List.mem_map_of_mem (s.perm.mem_iff.mp ht))

/-- The thread of a row among those that are scored. -/
lemma exists_thread {l : List Thread} {g : ℕ} {a b : List ℕ}
    (h : ((l.filter Thread.row).map Thread.rows).flatten = a ++ g :: b) :
    ∃ front t rest, l = front ++ t :: rest ∧ t.row = true ∧ g ∈ t.rows ∧
      ∀ u ∈ front, u.row = true → ∀ r ∈ u.rows, r ∈ a := by
  induction l generalizing a with
  | nil => exact absurd h (by simp)
  | cons t l ih =>
    have hbehind : ∀ c, ((l.filter Thread.row).map Thread.rows).flatten = c ++ g :: b →
        (∀ r ∈ c, r ∈ a) → (t.row = true → ∀ r ∈ t.rows, r ∈ a) →
        ∃ front t' rest, t :: l = front ++ t' :: rest ∧ t'.row = true ∧ g ∈ t'.rows ∧
          ∀ u ∈ front, u.row = true → ∀ r ∈ u.rows, r ∈ a := by
      intro c hc hca hta
      obtain ⟨front, t', rest, rfl, hrow, hmem, hfront⟩ := ih hc
      refine ⟨t :: front, t', rest, rfl, hrow, hmem, fun u hu hurow r hr => ?_⟩
      rcases List.mem_cons.mp hu with rfl | hu
      · exact hta hurow r hr
      · exact hca r (hfront u hu hurow r hr)
    cases hrow : t.row with
    | false =>
      rw [List.filter_cons_of_neg (by simp [hrow])] at h
      exact hbehind a h (fun _ hr => hr) fun htrue => absurd htrue (by simp [hrow])
    | true =>
      rw [List.filter_cons_of_pos hrow, List.map_cons, List.flatten_cons] at h
      rcases List.append_eq_append_iff.mp h with ⟨c, rfl, hc⟩ | ⟨c, hc, hb⟩
      · exact hbehind c hc (fun r hr => List.mem_append_right _ hr)
          fun _ r hr => List.mem_append_left _ hr
      · cases c with
        | nil =>
          rw [List.append_nil] at hc
          exact hbehind [] hb.symm nofun fun _ r hr => hc ▸ hr
        | cons g' c =>
          obtain ⟨rfl, -⟩ := List.cons.inj hb
          exact ⟨[], t, l, rfl, hrow, by rw [hc]; simp, nofun⟩

/-- The head finds the first maximum where it is the first of the scored rows too, or where nothing
is above `-INFINITY`. -/
lemma lmHead_eq_iff_scored (s : Schedule V) :
    lmHeadArgmaxCpu logits s = sampleGreedyCpu logits V ↔
      (∃ a b, s.scored = a ++ sampleGreedyCpu logits V :: b ∧
        ∀ r ∈ a, logits r < logits (sampleGreedyCpu logits V)) ∨
        (sampleGreedyCpu logits V = 0 ∧ ∀ r ∈ s.scored, logits r = ⊥) := by
  have hhead := some_lmHead logits s
  set g := sampleGreedyCpu logits V with hg
  have hscan : ∀ a b, s.scored = a ++ g :: b → (∀ r ∈ a, logits r < logits g) →
      Scan.scan logits s.scored = some (g, logits g) := by
    intro a b hsplit ha
    have hV : 0 < V := Nat.zero_lt_of_lt (s.lt_of_scored (r := g) (by rw [hsplit]; simp))
    refine Scan.scan_eq_some_iff.mpr ⟨a, b, hsplit, rfl, ha, fun r hr => ?_⟩
    exact (sampleGreedyCpu_first hV).2.2 r (s.lt_of_scored (by rw [hsplit]; simp [hr]))
  rw [lmHeadArgmaxCpu]
  cases hs : Scan.scan logits s.scored with
  | none =>
    have hnil := Scan.scan_eq_none_iff.mp hs
    rw [hs, Scan.better_none] at hhead
    rw [Option.some.inj hhead, hnil]
    exact ⟨fun heq => .inr ⟨heq.symm, nofun⟩,
      fun h => h.elim (fun ⟨a, b, heq, _⟩ => absurd heq (by simp)) fun h => h.1.symm⟩
  | some p =>
    obtain ⟨a, b, hsplit, hp, ha, hb⟩ := Scan.scan_eq_some_iff.mp hs
    have hle : ∀ r ∈ s.scored, logits r ≤ p.2 := by
      intro r hr
      rw [hsplit] at hr
      rcases List.mem_append.mp hr with hr | hr
      · exact (ha r hr).le
      · rcases List.mem_cons.mp hr with rfl | hr
        · exact hp.ge
        · exact hb r hr
    have hfirst : ∀ a b, s.scored = a ++ g :: b → (∀ r ∈ a, logits r < logits g) →
        p = (g, logits g) := fun a b hsplit ha =>
      Option.some.inj (hs.symm.trans (hscan a b hsplit ha))
    rw [hs] at hhead
    rcases (eq_bot_or_bot_lt p.2).symm with hlt | hbot
    · rw [Scan.better_of_lt hlt] at hhead
      rw [Option.some.inj hhead]
      constructor
      · intro heq
        exact .inl ⟨a, b, heq ▸ hsplit, fun r hr => by rw [← heq, ← hp]; exact ha r hr⟩
      · rintro (⟨a', b', hsplit', ha'⟩ | ⟨-, hall⟩)
        · rw [hfirst a' b' hsplit' ha']
        · have hmem : p.1 ∈ s.scored := by rw [hsplit]; simp
          exact absurd (hp.trans (hall _ hmem)) hlt.ne'
    · rw [Scan.better_of_le (p := (0, ⊥)) hbot.le] at hhead
      rw [Option.some.inj hhead]
      constructor
      · exact fun heq => .inr ⟨heq.symm, fun r hr => le_bot_iff.mp (hbot ▸ hle r hr)⟩
      · rintro (⟨a', b', hsplit', ha'⟩ | ⟨hzero, -⟩)
        · have hV : 0 < V := Nat.zero_lt_of_lt (s.lt_of_scored (r := g) (by rw [hsplit']; simp))
          have hlow : logits g = ⊥ := by
            rw [hfirst a' b' hsplit' ha'] at hbot
            exact hbot
          refine (Nat.eq_zero_of_not_pos fun hpos => ?_).symm
          exact absurd ((sampleGreedyCpu_first hV).2.1 0 hpos)
            (by rw [← hg, hlow]; exact not_lt_bot)
        · exact hzero.symm

/-- The head and the scan over all logits agree exactly where the thread of the first maximum has
its buffer and arrives in front of every other one with as large a logit, or where that is the
first row and no row that is scored is above `-INFINITY`. -/
theorem lmHeadArgmaxCpu_eq_iff (logits : ℕ → α) (s : Schedule V) :
    lmHeadArgmaxCpu logits s = sampleGreedyCpu logits V ↔
      (∃ front t rest, s.arrivals = front ++ t :: rest ∧ t.row = true ∧
        sampleGreedyCpu logits V ∈ t.rows ∧ ∀ u ∈ front, u.row = true → ∀ r ∈ u.rows,
          logits r < logits (sampleGreedyCpu logits V)) ∨
        (sampleGreedyCpu logits V = 0 ∧
          ∀ t ∈ s.arrivals, t.row = true → ∀ r ∈ t.rows, logits r = ⊥) := by
  rw [lmHead_eq_iff_scored]
  set g := sampleGreedyCpu logits V with hg
  refine or_congr ⟨?_, ?_⟩ (and_congr_right fun _ => ?_)
  · rintro ⟨a, b, hsplit, ha⟩
    obtain ⟨front, t, rest, hl, hrow, hmem, hfront⟩ := exists_thread hsplit
    exact ⟨front, t, rest, hl, hrow, hmem, fun u hu hurow r hr => ha r (hfront u hu hurow r hr)⟩
  · rintro ⟨front, t, rest, hl, hrow, hmem, hfront⟩
    obtain ⟨c, d, hrows⟩ := List.append_of_mem hmem
    have hsorted : (c ++ g :: d).Pairwise (· < ·) :=
      hrows ▸ s.pairwise_rows (by rw [hl]; simp)
    have hV : 0 < V := Nat.zero_lt_of_lt (s.lt_of_scored (r := g) (mem_scored.mpr
      ⟨t, by rw [hl]; simp, hrow, hmem⟩))
    refine ⟨((front.filter Thread.row).map Thread.rows).flatten ++ c,
      d ++ ((rest.filter Thread.row).map Thread.rows).flatten, ?_, fun r hr => ?_⟩
    · rw [Schedule.scored, hl, List.filter_append, List.filter_cons_of_pos hrow, List.map_append,
        List.map_cons, List.flatten_append, List.flatten_cons, hrows]
      simp
    · rcases List.mem_append.mp hr with hr | hr
      · simp only [List.mem_flatten, List.mem_map, List.mem_filter] at hr
        obtain ⟨_, ⟨u, ⟨hu, hurow⟩, rfl⟩, hr⟩ := hr
        exact hfront u hu hurow r hr
      · exact (sampleGreedyCpu_first hV).2.1 r
          ((List.pairwise_append.mp hsorted).2.2 r hr g List.mem_cons_self)
  · exact ⟨fun h t ht hrow r hr => h r (mem_scored.mpr ⟨t, ht, hrow, hr⟩), fun h r hr => by
      obtain ⟨t, ht, hrow, hmem⟩ := mem_scored.mp hr
      exact h t ht hrow r hmem⟩

/-- Two threads with a row each, the one with the second row in front. -/
def swapped : Schedule 2 where
  threads := [⟨[0], true⟩, ⟨[1], true⟩]
  arrivals := [⟨[1], true⟩, ⟨[0], true⟩]
  cover := rfl
  perm := .swap ..

/-- Of two equal logits above `-INFINITY` the head returns the one whose thread was faster. -/
theorem lmHeadArgmaxCpu_swapped :
    lmHeadArgmaxCpu (fun _ => (1 : ℕ)) swapped = 1 ∧ sampleGreedyCpu (fun _ => (1 : ℕ)) 2 = 0 := by
  constructor <;> rfl

end Head

end VibeVoice.Greedy
