import VibeVoice.Lib.Circle
import VibeVoice.Lib.Machine

/-!
The ring between the capture thread and the reader (`mic.c`).

Every load and store of `head`, `tail` and a cell is a step of its own, and any thread may take the
next one.  `written`, `delivered`, `dropped` and `pending` record what became of the samples.

* `writerStep`, `readerStep`: the accesses of `ring_write` and `vv_mic_read`.
* `Law`: what is delivered, dropped and left in the ring.
* `law_of_guarded`: the law holds along every run whose stores to `tail` find it as they left it.
* `overrun_during_read`: a run of the two threads that loses it.
-/

namespace VibeVoice.Mic

open Circle Machine

variable {α : Type}

/-- Where the capture thread is in a turn of its loop; `x` is the sample, `nh` the next head. -/
inductive Writer (α : Type)
  | idle
  /-- Before `nh == m->tail`. -/
  | check (x : α) (nh : ℕ)
  /-- Before the load of `m->tail = (m->tail + 1) % m->cap`. -/
  | full (x : α) (nh : ℕ)
  /-- Before its store. -/
  | drop (x : α) (nh tail : ℕ)
  /-- Before the load of `m->ring[m->head] = src[i]`. -/
  | put (x : α) (nh : ℕ)
  /-- Before its store. -/
  | cell (x : α) (nh head : ℕ)
  /-- Before `m->head = nh`. -/
  | publish (x : α) (nh : ℕ)

/-- Where the reader is in a call; `room` is `max - n`. -/
inductive Reader (α : Type)
  | idle
  /-- Before the load of `m->tail` in `m->tail != m->head`. -/
  | test (room : ℕ)
  /-- Before the load of `m->head` there. -/
  | compare (room tail : ℕ)
  /-- Before the load of `m->tail` in `m->ring[m->tail]`. -/
  | index (room : ℕ)
  /-- Before the load of the cell. -/
  | cell (room tail : ℕ)
  /-- Before the load of `m->tail = (m->tail + 1) % m->cap`. -/
  | move (room : ℕ) (x : α)
  /-- Before its store. -/
  | store (room : ℕ) (x : α) (tail : ℕ)

/-- The ring, the two threads, and what became of the samples. -/
structure State (α : Type) where
  ring : ℕ → α
  head : ℕ
  tail : ℕ
  overruns : ℕ
  writer : Writer α
  reader : Reader α
  /-- The samples the capture thread began to write. -/
  written : List α
  /-- The samples of the reader's finished turns. -/
  delivered : List α
  /-- The samples that overruns were counted for. -/
  dropped : List α
  /-- The sample being written. -/
  pending : List α

/-- A new ring, its cells with whatever the memory held. -/
def start (memory : ℕ → α) : State α := ⟨memory, 0, 0, 0, .idle, .idle, [], [], [], []⟩

/-- One step: a thread that is idle begins a turn or a call, another one makes its next access. -/
inductive Act (α : Type)
  | sample (x : α)
  | writer
  | read (max : ℤ)
  | reader

/-- The next access of `ring_write`. An overrun drops the oldest sample, or the one at hand where
the ring has none. -/
def writerStep (cap : ℕ) (s : State α) : Option (State α) :=
  match s.writer with
  | .idle => none
  | .check x nh => some { s with writer := if nh = s.tail then .full x nh else .put x nh }
  | .full x nh => some { s with writer := .drop x nh s.tail }
  | .drop x nh tail => some {
      s with
      tail := (tail + 1) % cap
      overruns := s.overruns + 1
      writer := .put x nh
      dropped := s.dropped ++ [if s.tail = s.head then x else s.ring s.tail]
      pending := if s.tail = s.head then [] else s.pending }
  | .put x nh => some { s with writer := .cell x nh s.head }
  | .cell x nh head => some {
      s with ring := Function.update s.ring head x, writer := .publish x nh }
  | .publish _ nh => some { s with head := nh, writer := .idle, pending := [] }

/-- `while (n < max && ..)`, the first test. -/
def loop (room : ℕ) : Reader α := if room = 0 then .idle else .test room

/-- The next access of `vv_mic_read`. -/
def readerStep (cap : ℕ) (s : State α) : Option (State α) :=
  match s.reader with
  | .idle => none
  | .test room => some { s with reader := .compare room s.tail }
  | .compare room tail => some { s with reader := if tail = s.head then .idle else .index room }
  | .index room => some { s with reader := .cell room s.tail }
  | .cell room tail => some { s with reader := .move room (s.ring tail) }
  | .move room x => some { s with reader := .store room x s.tail }
  | .store room x tail => some {
      s with
      tail := (tail + 1) % cap
      reader := loop (room - 1)
      delivered := s.delivered ++ [x] }

/-- One step of the two threads. -/
def step (cap : ℕ) (s : State α) : Act α → Option (Unit × State α)
  | .sample x =>
    match s.writer with
    | .idle => some ((), {
        s with
        writer := .check x ((s.head + 1) % cap), written := s.written ++ [x], pending := [x] })
    | _ => none
  | .writer => (writerStep cap s).map ((), ·)
  | .read max =>
    match s.reader with
    | .idle => some ((), { s with reader := loop max.toNat })
    | _ => none
  | .reader => (readerStep cap s).map ((), ·)

/-! ### The law of the ring -/

/-- The samples between the tail and the head. -/
def State.kept (cap : ℕ) (s : State α) : List α := contents cap s.ring s.tail s.head

/-- What was written is, in order, what the reader got or an overrun dropped, what is in the ring
and what is being written; overruns are counted, and the ring never holds more than it can. -/
structure Law (cap : ℕ) (s : State α) : Prop where
  order : ∃ front, s.written = front ++ s.kept cap ++ s.pending ∧ s.delivered.Sublist front ∧
    (s.delivered ++ s.dropped).Perm front
  count : s.dropped.length = s.overruns
  fill_le : fill cap s.tail s.head ≤ cap

/-- A store to `tail` may be made: it is as it was loaded, and the oldest sample of the ring is
there and is the one that was read. -/
def MayStore (cap : ℕ) (s : State α) : Act α → Prop
  | .writer =>
    match s.writer with
    | .drop _ _ tail => tail = s.tail ∧ (s.tail ≠ s.head ∨ cap = 1)
    | _ => True
  | .reader =>
    match s.reader with
    | .store _ x tail => tail = s.tail ∧ s.tail ≠ s.head ∧ s.ring s.tail = x
    | _ => True
  | _ => True

/-- What the capture thread relies on: past its test there is a cell for the sample. -/
def Room (cap : ℕ) (s : State α) (x : α) (nh : ℕ) : Prop :=
  nh = (s.head + 1) % cap ∧ ((s.pending = [x] ∧ nh ≠ s.tail) ∨ (s.pending = [] ∧ cap = 1))

/-- The place of the capture thread in its turn. -/
def AtPlace (cap : ℕ) (s : State α) : Prop :=
  match s.writer with
  | .idle => s.pending = []
  | .check x nh | .full x nh | .drop x nh _ => s.pending = [x] ∧ nh = (s.head + 1) % cap
  | .put x nh => Room cap s x nh
  | .cell x nh head => Room cap s x nh ∧ head = s.head
  | .publish x nh => Room cap s x nh ∧ s.ring s.head = x

/-- The invariant of the runs that keep the law. -/
structure Inv (cap : ℕ) (s : State α) : Prop where
  tail_lt : s.tail < cap
  head_lt : s.head < cap
  law : Law cap s
  place : AtPlace cap s

variable {cap : ℕ} {s s' : State α}

lemma Inv.law' (h : Inv cap s) {w : Writer α} {r : Reader α} :
    Law cap { s with writer := w, reader := r } := ⟨h.law.order, h.law.count, h.law.fill_le⟩

/-- The tail moves over the oldest sample. -/
lemma Inv.pop (h : Inv cap s) (hne : s.tail ≠ s.head) (ring : ℕ → α) :
    contents cap ring s.tail s.head =
      ring s.tail :: contents cap ring ((s.tail + 1) % cap) s.head :=
  contents_pop h.tail_lt h.head_lt hne ring

lemma Inv.tail_next_lt (h : Inv cap s) : (s.tail + 1) % cap < cap :=
  Nat.mod_lt _ (Nat.zero_lt_of_lt h.tail_lt)

/-- With one cell the ring is always empty. -/
lemma Inv.tail_eq_head (h : Inv cap s) (hcap : cap = 1) : s.tail = s.head := by
  have htail := h.tail_lt
  have hhead := h.head_lt
  omega

lemma Inv.next_ne (h : Inv cap s) (hne : s.tail ≠ s.head) :
    (s.head + 1) % cap ≠ (s.tail + 1) % cap := by
  have htail := h.tail_lt
  have hhead := h.head_lt
  rw [succ_mod htail, succ_mod hhead]
  split_ifs <;> omega

/-- The tail moves over the oldest sample, which is delivered or dropped. -/
lemma Inv.law_pop (h : Inv cap s) (hne : s.tail ≠ s.head) {t : State α}
    (hring : t.ring = s.ring) (hhead : t.head = s.head) (htail : t.tail = (s.tail + 1) % cap)
    (hwritten : t.written = s.written) (hpending : t.pending = s.pending)
    (hgone : (t.delivered = s.delivered ++ [s.ring s.tail] ∧ t.dropped = s.dropped ∧
        t.overruns = s.overruns) ∨
      (t.delivered = s.delivered ∧ t.dropped = s.dropped ++ [s.ring s.tail] ∧
        t.overruns = s.overruns + 1)) : Law cap t := by
  obtain ⟨front, hfront, hsub, hperm⟩ := h.law.order
  refine ⟨⟨front ++ [s.ring s.tail], ?_, ?_, ?_⟩, ?_, ?_⟩
  · rw [hwritten, hfront, hpending, State.kept, State.kept, hring, hhead, htail, h.pop hne]
    simp
  · rcases hgone with ⟨hd, -⟩ | ⟨hd, -⟩
    · rw [hd]
      exact hsub.append_right _
    · rw [hd]
      exact hsub.trans (List.sublist_append_left _ _)
  · rcases hgone with ⟨hd, hdrop, -⟩ | ⟨hd, hdrop, -⟩
    · rw [hd, hdrop, List.append_assoc, List.singleton_append]
      exact List.perm_middle.trans ((hperm.cons _).trans (List.perm_append_singleton _ _).symm)
    · rw [hd, hdrop, ← List.append_assoc]
      exact hperm.append_right _
  · rcases hgone with ⟨-, hdrop, hcount⟩ | ⟨-, hdrop, hcount⟩
    · rw [hdrop, hcount, h.law.count]
    · rw [hdrop, hcount, List.length_append, h.law.count, List.length_singleton]
  · rw [htail, hhead]
    exact (fill_lt h.tail_next_lt h.head_lt).le

/-- An access of the capture thread. -/
lemma inv_writer (h : Inv cap s) (hsafe : MayStore cap s .writer)
    (hs : writerStep cap s = some s') : Inv cap s' := by
  have hplace := h.place
  rw [MayStore] at hsafe
  rw [AtPlace] at hplace
  rw [writerStep.eq_def] at hs
  cases hw : s.writer with
  | idle => rw [hw] at hs; exact absurd hs (by simp)
  | check x nh =>
    rw [hw] at hs hplace
    cases hs
    refine ⟨h.tail_lt, h.head_lt, h.law', ?_⟩
    by_cases heq : nh = s.tail
    · rw [AtPlace, if_pos heq]
      exact hplace
    · rw [AtPlace, if_neg heq]
      exact ⟨hplace.2, .inl ⟨hplace.1, heq⟩⟩
  | full x nh =>
    rw [hw] at hs hplace
    cases hs
    exact ⟨h.tail_lt, h.head_lt, h.law', hplace⟩
  | drop x nh tail =>
    rw [hw] at hs hplace hsafe
    cases hs
    obtain ⟨hpending, hnh⟩ := hplace
    obtain ⟨rfl, hsafe⟩ := hsafe
    by_cases hne : s.tail = s.head
    · -- only a ring of one cell is full and empty at once
      have hcap : cap = 1 := hsafe.resolve_left (not_not.mpr hne)
      obtain ⟨front, hfront, hsub, hperm⟩ := h.law.order
      have hnext : (s.tail + 1) % cap = s.head := by
        rw [hcap, Nat.mod_one]
        have := h.head_lt
        omega
      have hkept : s.kept cap = [] := by rw [State.kept, hne, contents_self]
      refine ⟨h.tail_next_lt, h.head_lt, ⟨⟨front ++ [x], ?_, ?_, ?_⟩, ?_, ?_⟩, hnh,
        .inr ⟨if_pos hne, hcap⟩⟩
      · rw [State.kept, hnext, contents_self, hfront, hkept, hpending]
        simp [hne]
      · exact hsub.trans (List.sublist_append_left _ _)
      · rw [if_pos hne, ← List.append_assoc]
        exact hperm.append_right _
      · rw [List.length_append, h.law.count, List.length_singleton]
      · rw [hnext, fill_self]
        exact Nat.zero_le _
    · refine ⟨h.tail_next_lt, h.head_lt, h.law_pop hne rfl rfl rfl rfl (if_neg hne)
        (.inr ⟨rfl, by rw [if_neg hne], rfl⟩), hnh, .inl ⟨?_, ?_⟩⟩
      · exact (if_neg hne).trans hpending
      · rw [hnh]
        exact h.next_ne hne
  | put x nh =>
    rw [hw] at hs hplace
    cases hs
    exact ⟨h.tail_lt, h.head_lt, h.law', hplace, rfl⟩
  | cell x nh head =>
    rw [hw] at hs hplace
    cases hs
    obtain ⟨hroom, rfl⟩ := hplace
    refine ⟨h.tail_lt, h.head_lt, ⟨?_, h.law.count, h.law.fill_le⟩, hroom,
      Function.update_self ..⟩
    obtain ⟨front, hwritten, hrest⟩ := h.law.order
    refine ⟨front, ?_, hrest⟩
    rw [State.kept, contents_update h.tail_lt h.head_lt]
    exact hwritten
  | publish x nh =>
    rw [hw] at hs hplace
    cases hs
    obtain ⟨⟨rfl, hroom⟩, hcell⟩ := hplace
    have hnext : (s.head + 1) % cap < cap := Nat.mod_lt _ (Nat.zero_lt_of_lt h.tail_lt)
    obtain ⟨front, hfront, hrest⟩ := h.law.order
    refine ⟨h.tail_lt, hnext, ⟨⟨front, ?_, hrest⟩, h.law.count,
      (fill_lt h.tail_lt hnext).le⟩, rfl⟩
    rcases hroom with ⟨hpending, hne⟩ | ⟨hpending, hcap⟩
    · rw [State.kept, contents_push h.tail_lt h.head_lt hne, hcell, hfront, hpending,
        State.kept]
      simp
    · have hsame : (s.head + 1) % cap = s.head := by
        rw [hcap, Nat.mod_one]
        have := h.head_lt
        omega
      rw [State.kept, hsame, hfront, hpending]
      rfl

/-- An access of the reader. -/
lemma inv_reader (h : Inv cap s) (hsafe : MayStore cap s .reader)
    (hs : readerStep cap s = some s') : Inv cap s' := by
  rw [MayStore] at hsafe
  rw [readerStep.eq_def] at hs
  cases hr : s.reader with
  | idle => rw [hr] at hs; exact absurd hs (by simp)
  | store room x tail =>
    rw [hr] at hs hsafe
    cases hs
    obtain ⟨rfl, hne, hx⟩ := hsafe
    refine ⟨h.tail_next_lt, h.head_lt, h.law_pop hne rfl rfl rfl rfl rfl
      (.inl ⟨by rw [hx], rfl, rfl⟩), ?_⟩
    have hroom : ∀ y nh, Room cap s y nh → nh ≠ (s.tail + 1) % cap ∧ s.pending = [y] := by
      rintro y nh ⟨rfl, ⟨hpending, -⟩ | ⟨-, hcap⟩⟩
      · exact ⟨h.next_ne hne, hpending⟩
      · exact absurd (h.tail_eq_head hcap) hne
    have hplace := h.place
    rw [AtPlace] at hplace ⊢
    dsimp only
    cases hw : s.writer with
    | idle | check | full | drop => rw [hw] at hplace; exact hplace
    | put y nh =>
      rw [hw] at hplace
      obtain ⟨hnext, hpending⟩ := hroom y nh hplace
      exact ⟨hplace.1, .inl ⟨hpending, hnext⟩⟩
    | cell y nh head =>
      rw [hw] at hplace
      obtain ⟨hnext, hpending⟩ := hroom y nh hplace.1
      exact ⟨⟨hplace.1.1, .inl ⟨hpending, hnext⟩⟩, hplace.2⟩
    | publish y nh =>
      rw [hw] at hplace
      obtain ⟨hnext, hpending⟩ := hroom y nh hplace.1
      exact ⟨⟨hplace.1.1, .inl ⟨hpending, hnext⟩⟩, hplace.2⟩
  | _ =>
    rw [hr] at hs
    cases hs
    exact ⟨h.tail_lt, h.head_lt, h.law', h.place⟩

/-- A step of either thread. -/
lemma inv_step {a : Act α} {o : Unit} (h : Inv cap s) (hsafe : MayStore cap s a)
    (hs : step cap s a = some (o, s')) : Inv cap s' := by
  cases a with
  | writer =>
    obtain ⟨t, ht, heq⟩ := Option.map_eq_some_iff.mp hs
    cases heq
    exact inv_writer h hsafe ht
  | reader =>
    obtain ⟨t, ht, heq⟩ := Option.map_eq_some_iff.mp hs
    cases heq
    exact inv_reader h hsafe ht
  | sample x =>
    have hplace := h.place
    rw [AtPlace] at hplace
    rw [step] at hs
    cases hw : s.writer with
    | idle =>
      rw [hw] at hs hplace
      cases hs
      obtain ⟨front, hfront, hrest⟩ := h.law.order
      refine ⟨h.tail_lt, h.head_lt, ⟨⟨front, ?_, hrest⟩, h.law.count, h.law.fill_le⟩, rfl, rfl⟩
      rw [hfront, hplace, List.append_nil]
      rfl
    | _ => rw [hw] at hs; exact absurd hs (by simp)
  | read max =>
    rw [step] at hs
    cases hr : s.reader with
    | idle =>
      rw [hr] at hs
      cases hs
      exact ⟨h.tail_lt, h.head_lt, h.law', h.place⟩
    | _ => rw [hr] at hs; exact absurd hs (by simp)

lemma inv_start (hcap : 0 < cap) (memory : ℕ → α) : Inv cap (start memory) where
  tail_lt := hcap
  head_lt := hcap
  law := ⟨⟨[], by rw [State.kept, start, contents_self]; rfl, List.Sublist.slnil, .nil⟩, rfl,
    (fill_lt hcap hcap).le⟩
  place := rfl

/-- The law holds along every run in which a store to `tail` finds it as it was loaded, with the
oldest sample still there. -/
theorem law_of_guarded (hcap : 0 < cap) (memory : ℕ → α) (as : List (Act α))
    (h : Guarded (step cap) (MayStore cap) (start memory) as) :
    Along (step cap) (Law cap) (start memory) as := by
  have hinv : Along (step cap) (Inv cap) (start memory) as :=
    Along.of_guarded (inv_start hcap memory) (fun _ _ _ _ hs hsafe hstep =>
      inv_step hs hsafe hstep) h
  exact fun pre hpre s hs => (hinv pre hpre s hs).law

/-- A sample is dropped for the next one while a read goes on, which then gets that. -/
theorem law_of_guarded_one :
    Along (step 2) (Law 2) (start fun _ => 0)
      [.sample 7, .writer, .writer, .writer, .writer, .read 1, .reader, .sample 8, .writer, .writer,
        .writer, .reader, .writer, .reader, .writer, .writer, .reader, .reader, .reader] := by
  refine law_of_guarded two_pos _ _ ?_
  iterate 10 refine Guarded.cons rfl trivial ?_
  refine Guarded.cons rfl ⟨rfl, .inl (by decide)⟩ ?_
  iterate 7 refine Guarded.cons rfl trivial ?_
  exact Guarded.cons rfl ⟨rfl, by decide, rfl⟩ (guarded_nil _ _)

/-- A reader that has loaded a sample is overtaken by an overrun: the sample is delivered and
counted as dropped. -/
theorem overrun_during_read :
    ∃ s, run (step 2) (start fun _ => 0)
        [.sample 7, .writer, .writer, .writer, .writer, .read 1, .reader, .reader, .reader,
          .reader, .reader, .sample 8, .writer, .writer, .writer, .writer, .writer, .writer,
          .reader] = some s ∧
      s.delivered = [7] ∧ s.dropped = [7] ∧ ¬ Law 2 s := by
  obtain ⟨s, hrun, hwritten, hdelivered, hdropped, hkept, hpending⟩ : ∃ s,
      run (step 2) (start fun _ => 0)
        [.sample 7, .writer, .writer, .writer, .writer, .read 1, .reader, .reader, .reader,
          .reader, .reader, .sample 8, .writer, .writer, .writer, .writer, .writer, .writer,
          .reader] = some s ∧
      s.written = [7, 8] ∧ s.delivered = [7] ∧ s.dropped = [7] ∧ s.kept 2 = [8] ∧
        s.pending = [] := ⟨_, rfl, rfl, rfl, rfl, rfl, rfl⟩
  refine ⟨s, hrun, hdelivered, hdropped, fun h => ?_⟩
  obtain ⟨front, hfront, -, hperm⟩ := h.order
  have hlen := congrArg List.length hfront
  have hgone := hperm.length_eq
  rw [hwritten, hkept, hpending] at hlen
  rw [hdelivered, hdropped] at hgone
  simp at hlen hgone
  omega

end VibeVoice.Mic
