import Mathlib.Tactic
import VibeVoice.Lib.Machine

/-!
The admission queue of `vv_queue.h`, shared by any number of threads.

A step is one section a thread runs under `q->lock`: `vv_queue_enter` up to its first
`vv_cond_wait` or its return, one more pass of its `while` loop after a wake-up, the same two for
`vv_queue_try_enter`, and `vv_queue_leave`.  A wake-up may come from a broadcast, from the timeout
or from nowhere: a sleeper may always run again, and `woken` records that a broadcast has reached
it since it went to sleep.  The sum `slots + capacity` is taken in `ℤ`.

* `Line`: what holds between two sections, over the line of the threads that hold a ticket.
* `queue_fifo`: bounds, tickets, order of admission and wake-ups along every schedule.
-/

namespace VibeVoice.Admission

/-- Where a thread stands. -/
inductive Phase
  /-- Not in the queue. -/
  | outside
  /-- In the loop of `vv_queue_enter` with its ticket; `woken` once a broadcast reached it. -/
  | waiting (ticket : UInt64) (woken : Bool)
  /-- In the loop of `vv_queue_try_enter`. -/
  | trying (woken : Bool)
  /-- Admitted, and not left yet. -/
  | inside
  deriving DecidableEq, Repr

/-- A broadcast reaches the thread. -/
def Phase.wake : Phase → Phase
  | .waiting ticket _ => .waiting ticket true
  | .trying _ => .trying true
  | ph => ph

@[simp] lemma Phase.holds_wake {ph : Phase} {n : UInt64} :
    (∃ woken, ph.wake = .waiting n woken) ↔ ∃ woken, ph = .waiting n woken := by
  cases ph <;> simp [Phase.wake]

@[simp] lemma Phase.wake_eq_inside {ph : Phase} : ph.wake = .inside ↔ ph = .inside := by
  cases ph <;> simp [Phase.wake]

/-- Nobody a broadcast has reached sleeps on. -/
@[simp] lemma Phase.wake_ne_asleep (ph : Phase) (n : UInt64) : ph.wake ≠ .waiting n false := by
  cases ph <;> simp [Phase.wake]

/-- What `vv_queue_init` is given: two numbers of type `int`, at least one slot. -/
structure Limits where
  slots : ℤ
  capacity : ℤ
  slots_pos : 1 ≤ slots
  capacity_nonneg : 0 ≤ capacity
  slots_int : slots < 2 ^ 31
  capacity_int : capacity < 2 ^ 31

/-- `vv_queue_t`, and where its threads stand. -/
structure Queue (ι : Type) where
  limits : Limits
  active : ℤ
  waiting : ℤ
  next : UInt64
  serving : UInt64
  rejected : UInt64
  phase : ι → Phase

variable {ι : Type}

/-- `vv_queue_init`. -/
def Queue.init (limits : Limits) : Queue ι where
  limits := limits
  active := 0
  waiting := 0
  next := 0
  serving := 0
  rejected := 0
  phase _ := .outside

/-- `vv_cond_broadcast(&q->changed)`. -/
def Queue.broadcast (q : Queue ι) : Queue ι := { q with phase := fun t => (q.phase t).wake }

/-- What happens in a section: a ticket drawn, a thread admitted with a ticket or by
`vv_queue_try_enter`, a thread turned away, a thread that leaves. -/
inductive Event (ι : Type)
  | ticket (t : ι) (n : UInt64)
  | serve (t : ι) (n : UInt64)
  | tryAdmit (t : ι)
  | reject (t : ι)
  | left (t : ι)
  deriving DecidableEq, Repr

variable [DecidableEq ι]

/-- One thread moved. -/
def Queue.setPhase (q : Queue ι) (t : ι) (ph : Phase) : Queue ι :=
  { q with phase := Function.update q.phase t ph }

/-- The `while` loop of `vv_queue_enter` once, and what follows it. -/
def enterPass (q : Queue ι) (t : ι) (ticket : UInt64) : List (Event ι) × Queue ι :=
  if ticket ≠ q.serving ∨ q.limits.slots ≤ q.active then
    ([], q.setPhase t (.waiting ticket false))
  else
    ([.serve t ticket],
      ({ q with
        waiting := q.waiting - 1
        active := q.active + 1
        serving := q.serving + 1 }.setPhase t .inside).broadcast)

/-- The thread draws the next ticket and stands in its loop. -/
def Queue.drawTicket (q : Queue ι) (t : ι) : Queue ι :=
  { q with next := q.next + 1, waiting := q.waiting + 1 }.setPhase t (.waiting q.next true)

/-- `vv_queue_enter`, up to the first time it leaves the lock. -/
def queueEnter (q : Queue ι) (t : ι) : List (Event ι) × Queue ι :=
  if q.limits.slots + q.limits.capacity ≤ q.active + q.waiting then
    ([.reject t], { q with rejected := q.rejected + 1 })
  else
    let r := enterPass (q.drawTicket t) t q.next
    (.ticket t q.next :: r.1, r.2)

/-- The loop of `vv_queue_try_enter` once; `late` when the deadline has passed. -/
def tryPass (q : Queue ι) (t : ι) (late : Bool) : List (Event ι) × Queue ι :=
  if q.waiting = 0 ∧ q.active < q.limits.slots then
    ([.tryAdmit t], { q with active := q.active + 1 }.setPhase t .inside)
  else if late then
    ([.reject t], { q with rejected := q.rejected + 1 }.setPhase t .outside)
  else
    ([], q.setPhase t (.trying false))

/-- `vv_queue_leave`. -/
def queueLeave (q : Queue ι) (t : ι) : List (Event ι) × Queue ι :=
  ([.left t], ({ q with active := q.active - 1 }.setPhase t .outside).broadcast)

/-- The section a thread runs next. -/
inductive Act (ι : Type)
  | enter (t : ι)
  | wakeUp (t : ι)
  | tryEnter (t : ι) (late : Bool)
  | wakeTry (t : ι) (late : Bool)
  | leave (t : ι)

/-- One step, `none` when the thread stands elsewhere; only an admitted thread leaves. -/
def step (q : Queue ι) : Act ι → Option (List (Event ι) × Queue ι)
  | .enter t =>
    match q.phase t with
    | .outside => some (queueEnter q t)
    | _ => none
  | .wakeUp t =>
    match q.phase t with
    | .waiting ticket _ => some (enterPass q t ticket)
    | _ => none
  | .tryEnter t late =>
    match q.phase t with
    | .outside => some (tryPass q t late)
    | _ => none
  | .wakeTry t late =>
    match q.phase t with
    | .trying _ => some (tryPass q t late)
    | _ => none
  | .leave t =>
    match q.phase t with
    | .inside => some (queueLeave q t)
    | _ => none

/-! ### Tickets -/

/-- `n` tickets in a row from `a`. -/
def ticketsFrom (a : UInt64) : ℕ → List UInt64
  | 0 => []
  | n + 1 => a :: ticketsFrom (a + 1) n

lemma ticketsFrom_snoc (a : UInt64) (n : ℕ) :
    ticketsFrom a (n + 1) = ticketsFrom a n ++ [a + UInt64.ofNat n] := by
  induction n generalizing a with
  | zero => simp [ticketsFrom]
  | succ n ih =>
    have hlast : a + 1 + UInt64.ofNat n = a + UInt64.ofNat (n + 1) := by
      rw [UInt64.ofNat_add, UInt64.add_assoc, UInt64.add_comm 1]
      rfl
    rw [ticketsFrom, ih, hlast, ticketsFrom, List.cons_append]

lemma mem_ticketsFrom {a x : UInt64} {n : ℕ} :
    x ∈ ticketsFrom a n ↔ ∃ i < n, x = a + UInt64.ofNat i := by
  induction n with
  | zero => simp [ticketsFrom]
  | succ n ih =>
    rw [ticketsFrom_snoc, List.mem_append, ih, List.mem_singleton]
    constructor
    · rintro (⟨i, hi, rfl⟩ | rfl)
      · exact ⟨i, by omega, rfl⟩
      · exact ⟨n, by omega, rfl⟩
    · rintro ⟨i, hi, rfl⟩
      rcases Nat.lt_succ_iff_lt_or_eq.mp hi with h | rfl
      · exact .inl ⟨i, h, rfl⟩
      · exact .inr rfl

/-- Fewer than `2 ^ 64` tickets in a row do not come round to the first. -/
lemma not_mem_ticketsFrom {a : UInt64} {n : ℕ} (hn : n < 2 ^ 64) :
    a ∉ ticketsFrom (a + 1) n := by
  rw [mem_ticketsFrom]
  rintro ⟨i, hi, h⟩
  have hnat := congrArg UInt64.toNat h
  have ha := a.toNat_lt
  rw [UInt64.toNat_add, UInt64.toNat_add, UInt64.toNat_ofNat', UInt64.toNat_one] at hnat
  omega

lemma nodup_ticketsFrom {a : UInt64} {n : ℕ} (hn : n < 2 ^ 64) : (ticketsFrom a n).Nodup := by
  induction n generalizing a with
  | zero => exact List.nodup_nil
  | succ n ih =>
    exact List.nodup_cons.mpr ⟨not_mem_ticketsFrom (by omega), ih (by omega)⟩

/-! ### The line -/

/-- What holds between two sections: `line` lists the threads that hold a ticket with their
tickets, first come first. -/
structure Line (q : Queue ι) (line : List (ι × UInt64)) : Prop where
  holds : ∀ t n, (∃ woken, q.phase t = .waiting n woken) ↔ (t, n) ∈ line
  nodup : (line.map Prod.fst).Nodup
  tickets : line.map Prod.snd = ticketsFrom q.serving line.length
  next : q.next = q.serving + UInt64.ofNat line.length
  waiting : q.waiting = line.length
  inside : ∃ threads : Finset ι, (∀ t, q.phase t = .inside ↔ t ∈ threads) ∧
    q.active = threads.card
  active_le : q.active ≤ q.limits.slots
  room : q.active + q.waiting ≤ q.limits.slots + q.limits.capacity
  awake : ∀ t, q.phase t = .waiting q.serving false → q.limits.slots ≤ q.active

namespace Line

variable {q : Queue ι} {line : List (ι × UInt64)}

omit [DecidableEq ι] in
/-- The line is shorter than the tickets before they come round. -/
lemma length_lt (h : Line q line) : line.length < 2 ^ 64 := by
  obtain ⟨threads, -, hactive⟩ := h.inside
  have hroom := h.room
  have hs := q.limits.slots_int
  have hc := q.limits.capacity_int
  rw [h.waiting, hactive] at hroom
  omega

omit [DecidableEq ι] in
lemma ticket_mem (h : Line q line) (i : ℕ) :
    i < line.length → ∃ t, (t, q.serving + UInt64.ofNat i) ∈ line := by
  intro hi
  have hmem : q.serving + UInt64.ofNat i ∈ ticketsFrom q.serving line.length :=
    mem_ticketsFrom.mpr ⟨i, hi, rfl⟩
  rw [← h.tickets] at hmem
  obtain ⟨x, hx, hsnd⟩ := List.mem_map.mp hmem
  exact ⟨x.1, hsnd ▸ hx⟩

omit [DecidableEq ι] in
/-- No two threads hold one ticket. -/
lemma ticket_unique (h : Line q line) {t u : ι} {n : UInt64} (ht : (t, n) ∈ line)
    (hu : (u, n) ∈ line) : t = u := by
  have hnodup : (line.map Prod.snd).Nodup := by
    rw [h.tickets]
    exact nodup_ticketsFrom h.length_lt
  exact congrArg Prod.fst (List.inj_on_of_nodup_map hnodup ht hu rfl)

omit [DecidableEq ι] in
/-- `waiting` is `next - serving`. -/
lemma waiting_eq (h : Line q line) : q.waiting = (q.next - q.serving).toNat := by
  have hlt := h.length_lt
  rw [h.waiting, h.next, UInt64.add_comm, UInt64.add_sub_cancel, UInt64.toNat_ofNat',
    Nat.mod_eq_of_lt hlt]

omit [DecidableEq ι] in
lemma init (limits : Limits) : Line (Queue.init limits : Queue ι) [] where
  holds t n := by simp [Queue.init]
  nodup := List.nodup_nil
  tickets := rfl
  next := rfl
  waiting := rfl
  inside := ⟨∅, by simp [Queue.init], rfl⟩
  active_le := by
    have h := limits.slots_pos
    simp only [Queue.init]
    omega
  room := by
    have h := limits.slots_pos
    have h' := limits.capacity_nonneg
    simp only [Queue.init]
    omega
  awake t h := by simp [Queue.init] at h

omit [DecidableEq ι] in
/-- The thread that is served next is the head of the line. -/
lemma eq_head (h : Line q line) {t : ι} (ht : (t, q.serving) ∈ line) :
    ∃ rest, line = (t, q.serving) :: rest := by
  have hlt := h.length_lt
  have htickets := h.tickets
  cases line with
  | nil => cases ht
  | cons x rest =>
    simp only [List.map_cons, List.length_cons, ticketsFrom, List.cons.injEq] at htickets hlt
    rcases List.mem_cons.mp ht with rfl | hrest
    · exact ⟨rest, rfl⟩
    · refine absurd (List.mem_map_of_mem (f := Prod.snd) hrest) ?_
      rw [htickets.2]
      exact not_mem_ticketsFrom (by omega)

/-- A phase that holds no ticket is not in the line. -/
lemma holds_update (h : Line q line) {t : ι} {ph : Phase} (hph : ∀ n w, ph ≠ .waiting n w)
    (ht : ∀ n w, q.phase t ≠ .waiting n w) (u : ι) (n : UInt64) :
    (∃ woken, Function.update q.phase t ph u = .waiting n woken) ↔ (u, n) ∈ line := by
  by_cases hu : u = t
  · subst hu
    rw [Function.update_self, ← h.holds]
    exact iff_of_false (fun ⟨w, hw⟩ => hph n w hw) (fun ⟨w, hw⟩ => ht n w hw)
  · rw [Function.update_of_ne hu]
    exact h.holds u n

lemma inside_update {threads : Finset ι} (h : ∀ u, q.phase u = .inside ↔ u ∈ threads) {t : ι}
    {ph : Phase} (hph : ph ≠ .inside) (ht : q.phase t ≠ .inside) (u : ι) :
    Function.update q.phase t ph u = .inside ↔ u ∈ threads := by
  by_cases hu : u = t
  · subst hu
    rw [Function.update_self, ← h]
    exact iff_of_false hph ht
  · rw [Function.update_of_ne hu]
    exact h u

lemma inside_insert {threads : Finset ι} (h : ∀ u, q.phase u = .inside ↔ u ∈ threads) (t : ι)
    (u : ι) : Function.update q.phase t .inside u = .inside ↔ u ∈ insert t threads := by
  by_cases hu : u = t
  · subst hu
    simp
  · rw [Function.update_of_ne hu, h, Finset.mem_insert]
    simp [hu]

lemma inside_erase {threads : Finset ι} (h : ∀ u, q.phase u = .inside ↔ u ∈ threads) {t : ι}
    {ph : Phase} (hph : ph ≠ .inside) (u : ι) :
    Function.update q.phase t ph u = .inside ↔ u ∈ threads.erase t := by
  by_cases hu : u = t
  · subst hu
    simp [hph]
  · rw [Function.update_of_ne hu, h, Finset.mem_erase]
    simp [hu]

/-- Drawing a ticket puts a thread at the end of the line. -/
lemma drawTicket (h : Line q line) {t : ι} (ht : q.phase t = .outside)
    (hroom : q.active + q.waiting < q.limits.slots + q.limits.capacity) :
    Line (q.drawTicket t) (line ++ [(t, q.next)]) := by
  have hfree : ∀ n, (t, n) ∉ line := by
    intro n hn
    obtain ⟨w, hw⟩ := (h.holds t n).mpr hn
    rw [ht] at hw
    cases hw
  obtain ⟨threads, hthreads, hactive⟩ := h.inside
  refine ⟨fun u n => ?_, ?_, ?_, ?_, ?_, ⟨threads, ?_, hactive⟩, h.active_le, ?_, fun u hu => ?_⟩
  · rw [List.mem_append, List.mem_singleton, ← h.holds]
    by_cases hu : u = t
    · subst hu
      simp [Queue.drawTicket, Queue.setPhase, ht, eq_comm]
    · simp [Queue.drawTicket, Queue.setPhase, hu]
  · rw [List.map_append, List.map_singleton, List.nodup_append]
    refine ⟨h.nodup, List.nodup_singleton _, fun u hu v hv huv => ?_⟩
    obtain ⟨x, hx, hfst⟩ := List.mem_map.mp hu
    have hxt : x.1 = t := hfst.trans (huv.trans (List.mem_singleton.mp hv))
    refine hfree x.2 ?_
    rw [← hxt]
    exact hx
  · rw [List.map_append, List.length_append, h.tickets, List.length_singleton, ticketsFrom_snoc]
    exact congrArg (ticketsFrom q.serving line.length ++ [·]) h.next
  · rw [List.length_append, List.length_singleton, UInt64.ofNat_add, ← UInt64.add_assoc]
    change q.next + 1 = q.serving + UInt64.ofNat line.length + 1
    rw [h.next]
  · rw [List.length_append, List.length_singleton, Nat.cast_add, ← h.waiting]
    rfl
  · exact inside_update hthreads (by simp) (by simp [ht])
  · simp only [Queue.drawTicket, Queue.setPhase]
    omega
  · refine h.awake u ?_
    by_cases hut : u = t
    · subst hut
      simp [Queue.drawTicket, Queue.setPhase] at hu
    · simpa [Queue.drawTicket, Queue.setPhase, hut] using hu

/-- A thread of the line goes back to sleep behind the test it made. -/
lemma sleep (h : Line q line) {t : ι} {n : UInt64} (hmem : (t, n) ∈ line)
    (htest : n ≠ q.serving ∨ q.limits.slots ≤ q.active) :
    Line (q.setPhase t (.waiting n false)) line := by
  obtain ⟨w, hw⟩ := (h.holds t n).mpr hmem
  obtain ⟨threads, hthreads, hactive⟩ := h.inside
  refine ⟨fun u m => ?_, h.nodup, h.tickets, h.next, h.waiting,
    ⟨threads, inside_update hthreads (by simp) (by simp [hw]), hactive⟩, h.active_le, h.room,
    fun u hu => ?_⟩
  · rw [← h.holds]
    by_cases hut : u = t
    · subst hut
      simp [Queue.setPhase, hw]
    · simp [Queue.setPhase, hut]
  · by_cases hut : u = t
    · subst hut
      simp only [Queue.setPhase, Function.update_self, Phase.waiting.injEq, and_true] at hu
      exact htest.resolve_left (not_not.mpr hu)
    · exact h.awake u (by simpa [Queue.setPhase, hut] using hu)

/-- The head of the line is admitted, and everyone is woken. -/
lemma serve {t : ι} {rest : List (ι × UInt64)} (h : Line q ((t, q.serving) :: rest))
    (hfree : q.active < q.limits.slots) :
    Line (({ q with
      waiting := q.waiting - 1
      active := q.active + 1
      serving := q.serving + 1 }.setPhase t .inside).broadcast) rest := by
  obtain ⟨w, hw⟩ := (h.holds t q.serving).mpr (by simp)
  obtain ⟨threads, hthreads, hactive⟩ := h.inside
  have hnodup := h.nodup
  have htickets := h.tickets
  have hwaiting := h.waiting
  have hroom := h.room
  simp only [List.map_cons, List.nodup_cons, List.length_cons, ticketsFrom,
    List.cons.injEq, Nat.cast_add, Nat.cast_one, true_and] at hnodup htickets hwaiting
  refine ⟨fun u n => ?_, hnodup.2, htickets, ?_, ?_, ⟨insert t threads, fun u => ?_, ?_⟩, ?_, ?_,
    fun u hu => absurd hu (Phase.wake_ne_asleep _ _)⟩
  · rw [Queue.broadcast, Phase.holds_wake]
    by_cases hut : u = t
    · subst hut
      refine iff_of_false (by simp [Queue.setPhase]) fun hmem => hnodup.1 ?_
      exact List.mem_map.mpr ⟨_, hmem, rfl⟩
    · simp only [Queue.setPhase, Function.update_of_ne hut]
      rw [h.holds, List.mem_cons, Prod.mk.injEq]
      simp [hut]
  · have hnext := h.next
    rw [List.length_cons, Nat.add_comm, UInt64.ofNat_add, ← UInt64.add_assoc] at hnext
    exact hnext
  · simp only [Queue.broadcast, Queue.setPhase]
    omega
  · rw [Queue.broadcast, Phase.wake_eq_inside]
    exact inside_insert hthreads t u
  · have ht : t ∉ threads := by rw [← hthreads, hw]; simp
    rw [Finset.card_insert_of_notMem ht]
    simp [Queue.broadcast, Queue.setPhase, hactive]
  · simp only [Queue.broadcast, Queue.setPhase]
    omega
  · simp only [Queue.broadcast, Queue.setPhase]
    omega

/-- `vv_queue_try_enter` admits a thread only when the line is empty. -/
lemma tryAdmit (h : Line q line) {t : ι} (ht : ∀ n w, q.phase t ≠ .waiting n w)
    (ht' : q.phase t ≠ .inside) (hwait : q.waiting = 0) (hfree : q.active < q.limits.slots) :
    line = [] ∧ Line ({ q with active := q.active + 1 }.setPhase t .inside) line := by
  obtain ⟨threads, hthreads, hactive⟩ := h.inside
  have hwaiting := h.waiting
  have hcap := q.limits.capacity_nonneg
  refine ⟨List.length_eq_zero_iff.mp (by omega), h.holds_update (by simp) ht, h.nodup, h.tickets,
    h.next, h.waiting, ⟨insert t threads, inside_insert hthreads t, ?_⟩, ?_, ?_, fun u hu => ?_⟩
  · rw [Finset.card_insert_of_notMem (by rw [← hthreads]; exact ht')]
    simp [Queue.setPhase, hactive]
  · simp only [Queue.setPhase]
    omega
  · simp only [Queue.setPhase]
    omega
  · have hempty := (h.holds u q.serving).mp
    by_cases hut : u = t
    · subst hut
      simp [Queue.setPhase] at hu
    · have hmem := hempty ⟨false, by simpa [Queue.setPhase, hut] using hu⟩
      rw [List.length_eq_zero_iff.mp (by omega : line.length = 0)] at hmem
      cases hmem

/-- Moving a thread without a ticket from outside the slots to outside the slots. -/
lemma setPhase (h : Line q line) {t : ι} {ph : Phase} (hph : ∀ n w, ph ≠ .waiting n w)
    (hph' : ph ≠ .inside) (ht : ∀ n w, q.phase t ≠ .waiting n w) (ht' : q.phase t ≠ .inside) :
    Line (q.setPhase t ph) line := by
  obtain ⟨threads, hthreads, hactive⟩ := h.inside
  refine ⟨h.holds_update hph ht, h.nodup, h.tickets, h.next, h.waiting,
    ⟨threads, inside_update hthreads hph' ht', hactive⟩, h.active_le, h.room, fun u hu => ?_⟩
  by_cases hut : u = t
  · subst hut
    simp only [Queue.setPhase, Function.update_self] at hu
    exact absurd hu (hph _ _)
  · exact h.awake u (by simpa [Queue.setPhase, hut] using hu)

/-- A thread that leaves frees its slot and wakes everyone. -/
lemma leave (h : Line q line) {t : ι} (ht : q.phase t = .inside) :
    Line ({ q with active := q.active - 1 }.setPhase t .outside).broadcast line := by
  obtain ⟨threads, hthreads, hactive⟩ := h.inside
  have hle := h.active_le
  have hroom := h.room
  have hmem := (hthreads t).mp ht
  have hpos := Finset.card_pos.mpr ⟨t, hmem⟩
  refine ⟨fun u n => ?_, h.nodup, h.tickets, h.next, h.waiting,
    ⟨threads.erase t, fun u => ?_, ?_⟩, ?_, ?_, fun u hu => absurd hu (Phase.wake_ne_asleep _ _)⟩
  · rw [Queue.broadcast, Phase.holds_wake]
    exact h.holds_update (by simp) (by simp [ht]) u n
  · rw [Queue.broadcast, Phase.wake_eq_inside]
    exact inside_erase hthreads (by simp) u
  · rw [Finset.card_erase_of_mem hmem]
    simp only [Queue.broadcast, Queue.setPhase]
    omega
  · simp only [Queue.broadcast, Queue.setPhase]
    omega
  · simp only [Queue.broadcast, Queue.setPhase]
    omega

omit [DecidableEq ι] in
/-- A request turned away leaves the line as it is. -/
lemma reject (h : Line q line) : Line { q with rejected := q.rejected + 1 } line :=
  ⟨h.holds, h.nodup, h.tickets, h.next, h.waiting, h.inside, h.active_le, h.room, h.awake⟩

end Line

/-! ### One step -/

/-- The tickets drawn, with the threads that drew them. -/
def issued (events : List (Event ι)) : List (ι × UInt64) :=
  events.filterMap fun
    | .ticket t n => some (t, n)
    | _ => none

/-- The tickets admitted, with their threads. -/
def admitted (events : List (Event ι)) : List (ι × UInt64) :=
  events.filterMap fun
    | .serve t n => some (t, n)
    | _ => none

omit [DecidableEq ι] in
lemma issued_append (as bs : List (Event ι)) : issued (as ++ bs) = issued as ++ issued bs :=
  List.filterMap_append

omit [DecidableEq ι] in
lemma admitted_append (as bs : List (Event ι)) :
    admitted (as ++ bs) = admitted as ++ admitted bs :=
  List.filterMap_append

/-- What a step does to the line: it is taken from in front and added to behind, and
`vv_queue_try_enter` admits only past an empty one. -/
structure Moved (line line' : List (ι × UInt64)) (events : List (Event ι)) : Prop where
  flow : line ++ issued events = admitted events ++ line'
  tryAdmit : ∀ t, .tryAdmit t ∈ events → line = []

variable {q q' : Queue ι} {line : List (ι × UInt64)} {events : List (Event ι)}

lemma Line.enterPass (h : Line q line) {t : ι} {n : UInt64} (hmem : (t, n) ∈ line) :
    ∃ line', Line (enterPass q t n).2 line' ∧ Moved line line' (enterPass q t n).1 ∧
      issued (Admission.enterPass q t n).1 = [] := by
  rw [Admission.enterPass]
  split_ifs with htest
  · exact ⟨line, h.sleep hmem htest, ⟨by simp [issued, admitted], by simp⟩, rfl⟩
  · rw [not_or, not_not, not_le] at htest
    obtain ⟨rfl, hfree⟩ := htest
    obtain ⟨rest, rfl⟩ := h.eq_head hmem
    exact ⟨rest, h.serve hfree, ⟨by simp [issued, admitted], by simp⟩, rfl⟩

lemma Line.tryPass (h : Line q line) {t : ι} (ht : ∀ n w, q.phase t ≠ .waiting n w)
    (ht' : q.phase t ≠ .inside) (late : Bool) :
    Line (tryPass q t late).2 line ∧ Moved line line (tryPass q t late).1 := by
  rw [Admission.tryPass]
  split_ifs with hfree hlate
  · obtain ⟨hempty, hline⟩ := h.tryAdmit ht ht' hfree.1 hfree.2
    exact ⟨hline, by simp [issued, admitted], fun _ _ => hempty⟩
  · exact ⟨h.reject.setPhase (by simp) (by simp) ht ht', by simp [issued, admitted], by simp⟩
  · exact ⟨h.setPhase (by simp) (by simp) ht ht', by simp [issued, admitted], by simp⟩

lemma Line.queueEnter (h : Line q line) {t : ι} (ht : q.phase t = .outside) :
    ∃ line', Line (queueEnter q t).2 line' ∧ Moved line line' (queueEnter q t).1 := by
  rw [Admission.queueEnter]
  split_ifs with hfull
  · exact ⟨line, h.reject, by simp [issued, admitted], by simp⟩
  · have hdraw := h.drawTicket ht (not_le.mp hfull)
    obtain ⟨line', hline, hmoved, hnone⟩ := hdraw.enterPass (t := t) (n := q.next) (by simp)
    refine ⟨line', hline, ?_, fun u hu => ?_⟩
    · have hflow := hmoved.flow
      rw [hnone, List.append_nil] at hflow
      have hissued : issued (.ticket t q.next :: (Admission.enterPass (q.drawTicket t) t q.next).1)
          = [(t, q.next)] := congrArg ((t, q.next) :: ·) hnone
      rw [hissued]
      exact hflow
    · have hlast := hmoved.tryAdmit u (by simpa using hu)
      simp at hlast

/-- **One step keeps the line.** -/
lemma Line.step {a : Act ι} {r : List (Event ι) × Queue ι} (h : Line q line)
    (hs : step q a = some r) : ∃ line', Line r.2 line' ∧ Moved line line' r.1 := by
  cases a with
  | enter t =>
    cases ht : q.phase t <;> simp only [Admission.step, ht, reduceCtorEq] at hs
    obtain rfl := Option.some.inj hs
    exact h.queueEnter ht
  | wakeUp t =>
    cases ht : q.phase t <;> simp only [Admission.step, ht, reduceCtorEq] at hs
    obtain rfl := Option.some.inj hs
    obtain ⟨line', hline, hmoved, -⟩ := h.enterPass ((h.holds t _).mp ⟨_, ht⟩)
    exact ⟨line', hline, hmoved⟩
  | tryEnter t late =>
    cases ht : q.phase t <;> simp only [Admission.step, ht, reduceCtorEq] at hs
    obtain rfl := Option.some.inj hs
    exact ⟨line, h.tryPass (by simp [ht]) (by simp [ht]) late⟩
  | wakeTry t late =>
    cases ht : q.phase t <;> simp only [Admission.step, ht, reduceCtorEq] at hs
    obtain rfl := Option.some.inj hs
    exact ⟨line, h.tryPass (by simp [ht]) (by simp [ht]) late⟩
  | leave t =>
    cases ht : q.phase t <;> simp only [Admission.step, ht, reduceCtorEq] at hs
    obtain rfl := Option.some.inj hs
    exact ⟨line, h.leave ht, by simp [queueLeave, issued, admitted], by simp [queueLeave]⟩

lemma enterPass_limits (q : Queue ι) (t : ι) (n : UInt64) :
    (enterPass q t n).2.limits = q.limits := by
  rw [enterPass]
  split_ifs <;> rfl

lemma tryPass_limits (q : Queue ι) (t : ι) (late : Bool) :
    (tryPass q t late).2.limits = q.limits := by
  rw [tryPass]
  split_ifs <;> rfl

lemma step_limits {a : Act ι} {r : List (Event ι) × Queue ι} (hs : step q a = some r) :
    r.2.limits = q.limits := by
  cases a with
  | enter t =>
    cases ht : q.phase t <;> simp only [step, ht, reduceCtorEq] at hs
    obtain rfl := Option.some.inj hs
    rw [queueEnter]
    split_ifs
    · rfl
    · exact enterPass_limits _ t _
  | wakeUp t =>
    cases ht : q.phase t <;> simp only [step, ht, reduceCtorEq] at hs
    obtain rfl := Option.some.inj hs
    exact enterPass_limits q t _
  | tryEnter t late =>
    cases ht : q.phase t <;> simp only [step, ht, reduceCtorEq] at hs
    obtain rfl := Option.some.inj hs
    exact tryPass_limits q t late
  | wakeTry t late =>
    cases ht : q.phase t <;> simp only [step, ht, reduceCtorEq] at hs
    obtain rfl := Option.some.inj hs
    exact tryPass_limits q t late
  | leave t =>
    cases ht : q.phase t <;> simp only [step, ht, reduceCtorEq] at hs
    obtain rfl := Option.some.inj hs
    rfl

/-! ### Every schedule -/

/-- Everything that happened along a schedule. -/
def history (limits : Limits) (as : List (Act ι)) : List (Event ι) :=
  (Machine.outputs step (Queue.init limits) as).flatten

/-- Along a schedule the tickets drawn are the tickets admitted and then the line. -/
lemma line_of_run {limits : Limits} {as : List (Act ι)} {q : Queue ι}
    (h : Machine.run step (Queue.init limits) as = some q) : ∃ line, Line q line ∧
      issued (history limits as) = admitted (history limits as) ++ line := by
  refine Machine.run_induct (P := fun as q => ∃ line, Line q line ∧
    issued (history limits as) = admitted (history limits as) ++ line)
    ⟨[], Line.init limits, rfl⟩ ?_ h
  rintro as q a events q' hrun ⟨line, hline, hflow⟩ hs
  obtain ⟨line', hline', hmoved⟩ := hline.step hs
  refine ⟨line', hline', ?_⟩
  have hhist : history limits (as ++ [a]) = history limits as ++ events := by
    rw [history, Machine.outputs_snoc step hrun hs, List.flatten_append, List.flatten_singleton]
    rfl
  calc issued (history limits (as ++ [a]))
      = issued (history limits as) ++ issued events := by rw [hhist, issued_append]
    _ = admitted (history limits as) ++ (line ++ issued events) := by
        rw [hflow, List.append_assoc]
    _ = admitted (history limits (as ++ [a])) ++ line' := by
        rw [hmoved.flow, hhist, admitted_append, List.append_assoc]

lemma limits_of_run {limits : Limits} {as : List (Act ι)} {q : Queue ι}
    (h : Machine.run step (Queue.init limits) as = some q) : q.limits = limits :=
  Machine.Reachable.induct (P := fun q => q.limits = limits) ⟨as, h⟩ rfl
    fun _ _ _ _ hq hs => (step_limits hs).trans hq

/-- **The admission queue is a bounded FIFO**, along every schedule of any number of threads:

* the threads admitted and waiting stay within the slots and the room;
* `waiting` is `next - serving`, and each ticket from `serving` up to `next` is held by exactly
  one thread;
* the tickets admitted so far are the first ones drawn, in the order they were drawn;
* when `vv_queue_try_enter` admits a thread, every ticket drawn so far has been admitted;
* a thread that sleeps with the ticket to be served next, no broadcast having reached it, finds
  every slot taken. -/
theorem queue_fifo (limits : Limits) (as : List (Act ι)) (q : Queue ι)
    (h : Machine.run step (Queue.init limits) as = some q) :
    (q.active ≤ limits.slots ∧ q.active + q.waiting ≤ limits.slots + limits.capacity) ∧
      (q.waiting = (q.next - q.serving).toNat ∧
        (∀ t n woken, q.phase t = .waiting n woken →
          ∃ i : ℕ, i < q.waiting ∧ n = q.serving + UInt64.ofNat i) ∧
        ∀ i : ℕ, i < q.waiting →
          ∃! t, ∃ woken, q.phase t = .waiting (q.serving + UInt64.ofNat i) woken) ∧
      admitted (history limits as) <+: issued (history limits as) ∧
      (∀ a r t, step q a = some r → .tryAdmit t ∈ r.1 →
        admitted (history limits as) = issued (history limits as)) ∧
      ∀ t, q.phase t = .waiting q.serving false → limits.slots ≤ q.active := by
  obtain ⟨line, hline, hflow⟩ := line_of_run h
  have hlimits := limits_of_run h
  refine ⟨?_, ⟨?_, ?_, ?_⟩, ⟨line, hflow.symm⟩, fun a r t hs ht => ?_, ?_⟩
  · rw [← hlimits]
    exact ⟨hline.active_le, hline.room⟩
  · exact hline.waiting_eq
  · intro t n woken ht
    have hmem := List.mem_map_of_mem (f := Prod.snd) ((hline.holds t n).mp ⟨woken, ht⟩)
    rw [hline.tickets, mem_ticketsFrom] at hmem
    obtain ⟨i, hi, hn⟩ := hmem
    exact ⟨i, by rw [hline.waiting]; exact_mod_cast hi, hn⟩
  · intro i hi
    rw [hline.waiting] at hi
    obtain ⟨t, ht⟩ := hline.ticket_mem i (by exact_mod_cast hi)
    refine ⟨t, (hline.holds t _).mpr ht, fun u hu => ?_⟩
    exact hline.ticket_unique ((hline.holds u _).mp hu) ht
  · obtain ⟨line', -, hmoved⟩ := hline.step hs
    rw [hflow, hmoved.tryAdmit t ht, List.append_nil]
  · rw [← hlimits]
    exact hline.awake

/-- One slot and room for one more: a thread inside, and the head of the line asleep behind it. -/
theorem queue_fifo_two :
    ∃ q, Machine.run step (Queue.init ⟨1, 1, by decide, by decide, by decide, by decide⟩)
        [.enter true, .enter false] = some q ∧
      q.waiting = (q.next - q.serving).toNat ∧ q.active + q.waiting ≤ 1 + 1 ∧
      q.phase false = .waiting q.serving false ∧ 1 ≤ q.active := by
  have hrun : ∃ q, Machine.run step (Queue.init ⟨1, 1, by decide, by decide, by decide,
      by decide⟩) [.enter true, .enter false] = some q ∧
      q.phase false = .waiting q.serving false := ⟨_, rfl, rfl⟩
  obtain ⟨q, hq, hphase⟩ := hrun
  obtain ⟨⟨-, hroom⟩, ⟨hwaiting, -, -⟩, -, -, hawake⟩ := queue_fifo _ _ q hq
  exact ⟨q, hq, hwaiting, hroom, hphase, hawake false hphase⟩

end VibeVoice.Admission
