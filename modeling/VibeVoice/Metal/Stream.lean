import Mathlib.Data.UInt
import Mathlib.Tactic

/-!
Command buffers of a Metal stream (`metal_runtime.m`): what is in flight, and which failures a drain
reports.

A command buffer is its number in the order of the commits. `ended` and `fails` are the GPU: how many
buffers have ended when the host looks for the `n`-th time, and which ones end in an error.

* `retireFinished`, `flushLocked`, `drainLocked`: the queue of a stream.
* `step`, `run`: the calls on a stream, and the drains they make.
* `Inv`: what holds between any two calls.
* `drains_report_iff`: the waiting loop ends, the counts are right, and the drains that report every
  failure.
-/

namespace VibeVoice.Metal

/-- `VVStream`, with the GPU's side of its queue. -/
structure VVStream where
  /-- The launches and the groups of the buffer that is being filled. -/
  cb : Option (ℕ × UInt64)
  /-- The buffers in flight, with their groups. -/
  queued : List (ℕ × UInt64)
  groupsOut : UInt64
  last : Option ℕ
  error : Bool
  capturing : Bool
  /-- How many buffers have been committed, and how many of them have ended. -/
  committed : ℕ
  ended : ℕ
  /-- How many times the host has looked. -/
  looks : ℕ
  /-- How many had ended when the queue was gone through last, and at the last drain. -/
  seen : ℕ
  drained : ℕ

/-- A new stream. -/
def VVStream.new : VVStream := ⟨none, [], 0, none, false, false, 0, 0, 0, 0, 0⟩

/-- A drain: the buffers committed since the one before it, how many of all had been seen to end,
and whether it returns an error. -/
structure Drain where
  lo : ℕ
  hi : ℕ
  seen : ℕ
  error : Bool
  deriving DecidableEq

section Calls

variable (ended : ℕ → ℕ) (fails : ℕ → Bool)

/-- The host looks at the states of the buffers. -/
def look (s : VVStream) : VVStream :=
  { s with ended := max s.ended (min (ended s.looks) s.committed), looks := s.looks + 1 }

/-- `waitUntilCompleted`. -/
def waitFor (id : ℕ) (s : VVStream) : VVStream := { s with ended := max s.ended (id + 1) }

/-- `retire_finished`. -/
def retireFinished (s : VVStream) : VVStream :=
  let s := look ended s
  let done := s.queued.takeWhile fun q => q.1 < s.ended
  { s with
    queued := s.queued.drop done.length
    error := s.error || done.any fun q => fails q.1
    groupsOut := done.foldl (fun out q => out - q.2) s.groupsOut
    seen := s.ended }

/-- The condition of the waiting loop in `flush_locked`. -/
def full (ng : UInt64) (s : VVStream) : Bool :=
  s.queued.length = 8 || (0 < s.queued.length && s.groupsOut + ng > 192 * 1024)

/-- The waiting loop, for so many turns. -/
def makeRoom (ng : UInt64) : ℕ → VVStream → Option VVStream
  | 0, s => if full ng s then none else some s
  | n + 1, s =>
    if full ng s then
      match s.queued with
      | [] => none
      | q :: _ => makeRoom ng n (retireFinished ended fails (waitFor q.1 s))
    else some s

/-- `flush_locked`; nothing if its loop does not end. -/
def flushLocked (s : VVStream) : Option VVStream :=
  match s.cb with
  | none => some s
  | some (_, ng) =>
    let id := s.committed
    (makeRoom ended fails ng 9 (retireFinished ended fails { s with last := some id })).map
      fun s => { s with
        queued := s.queued ++ [(id, ng)]
        groupsOut := s.groupsOut + ng
        cb := none
        committed := id + 1 }

/-- `drain_locked`. -/
def drainLocked (s₀ : VVStream) : Option (Drain × VVStream) :=
  (flushLocked ended fails s₀).map fun s =>
    let t := { s with queued := [], groupsOut := 0 }
    let t := match t.last with
      | none => t
      | some id => { waitFor id t with error := t.error || fails id, last := none }
    (⟨s₀.drained, s.committed, s.seen, t.error⟩, { t with error := false, drained := t.committed })

/-- `encode_cmd`, into the current buffer or a new one. -/
def encodeCmd (groups : UInt64) (s : VVStream) : VVStream :=
  { s with cb := some (match s.cb with
    | none => (1, groups)
    | some (n, ng) => (n + 1, ng + groups)) }

/-- `idle_locked`. -/
def idleLocked (s : VVStream) : Bool :=
  s.cb.isNone && match s.last with
    | none => true
    | some id => id < s.ended

/-- The calls on a stream. `null` is the default stream, which waits for everything first. A copy to
the device may come from the device. `sync` is a call that drains the stream, such as a copy to the
host; one that drains all streams does so while a graph is recorded, too. -/
inductive Op
  | launch (null : Bool) (groups : UInt64)
  | replay (null : Bool) (groups : List UInt64)
  | record
  | waitEvent
  | h2d (fromDevice : Bool) (groups : UInt64)
  | sync (all : Bool)
  | graphBegin
  | graphEnd

/-- A flush without a drain. -/
def flushed (s : VVStream) : Option (List Drain × VVStream) :=
  (flushLocked ended fails s).map fun s => ([], s)

/-- A drain. -/
def drains (s : VVStream) : Option (List Drain × VVStream) :=
  (drainLocked ended fails s).map fun r => ([r.1], r.2)

/-- The end of `vv_mtl_run`, on a stream that does not record. -/
def submit (each : Bool) (groups : UInt64) (s : VVStream) : Option (List Drain × VVStream) :=
  let s := encodeCmd groups s
  if each then drains ended fails s
  else
    match s.cb with
    | some (n, ng) => if 128 ≤ n || 64 * 1024 ≤ ng then flushed ended fails s else some ([], s)
    | none => some ([], s)

/-- The loop of `vv_dev_graph_launch`. -/
def replayCmds : List UInt64 → VVStream → Option VVStream
  | [], s => some s
  | groups :: rest, s =>
    let s := encodeCmd groups s
    match s.cb with
    | some (_, ng) =>
      if 64 * 1024 ≤ ng then flushLocked ended fails s >>= replayCmds rest
      else replayCmds rest s
    | none => replayCmds rest s

/-- The end of `vv_dev_graph_launch`. -/
def submitAll (each : Bool) (groups : List UInt64) (s : VVStream) :
    Option (List Drain × VVStream) :=
  replayCmds ended fails groups s >>= fun s => flushLocked ended fails s >>= fun s =>
    if each then drains ended fails s else some ([], s)

/-- Behind a drain of the default stream that has reported nothing. -/
def afterSync (null : Bool) (go : VVStream → Option (List Drain × VVStream)) (s : VVStream) :
    Option (List Drain × VVStream) :=
  if null then
    drainLocked ended fails s >>= fun r =>
      if r.1.error then some ([r.1], r.2)
      else (go r.2).map fun t => (r.1 :: t.1, t.2)
  else go s

/-- One call; `each` is `VV_METAL_SYNC`. While a graph is recorded nothing is submitted. -/
def step (each : Bool) (s : VVStream) : Op → Option (List Drain × VVStream)
  | .launch null groups => afterSync ended fails null (fun s =>
    if s.capturing then some ([], s) else submit ended fails (null || each) groups s) s
  | .replay null groups => afterSync ended fails null (fun s =>
    if s.capturing then some ([], s) else submitAll ended fails (null || each) groups s) s
  | .record =>
    if s.capturing then some ([], s)
    else flushed ended fails { s with cb := some (s.cb.getD (0, 0)) }
  | .waitEvent =>
    if s.capturing then some ([], s)
    else some ([], { s with cb := some (s.cb.getD (0, 0)) })
  | .h2d fromDevice groups =>
    if s.capturing then some ([], s)
    else if fromDevice then submit ended fails each groups s
    else
      let s := look ended s
      -- with nothing in front of it, the copy is done by the host
      if idleLocked s then some ([], s) else submit ended fails each groups s
  | .sync all => if s.capturing && !all then some ([], s) else drains ended fails s
  | .graphBegin => some ([], { s with capturing := true })
  | .graphEnd => some ([], { s with capturing := false })

/-- A run, with its drains. -/
def run (each : Bool) : List Op → VVStream → Option (List Drain × VVStream)
  | [], s => some ([], s)
  | op :: ops, s =>
    step ended fails each s op >>= fun r => (run each ops r.2).map fun t => (r.1 ++ t.1, t.2)

end Calls

/-! ### The queue -/

/-- The counts of a queue: the buffers in flight are those from `max drained seen` on, and the error
is that of the ones that were seen to end. -/
structure Queue (fails : ℕ → Bool) (s : VVStream) : Prop where
  ids : s.queued.map Prod.fst =
    List.range' (max s.drained s.seen) (s.committed - max s.drained s.seen)
  seen_le : s.seen ≤ s.ended
  ended_le : s.ended ≤ s.committed
  drained_le : s.drained ≤ s.committed
  sum : s.groupsOut = (s.queued.map Prod.snd).sum
  error : s.error = true ↔ ∃ id, s.drained ≤ id ∧ id < s.seen ∧ fails id = true

/-- What retiring and waiting leave alone. -/
structure Same (s t : VVStream) : Prop where
  cb : t.cb = s.cb
  last : t.last = s.last
  capturing : t.capturing = s.capturing
  committed : t.committed = s.committed
  drained : t.drained = s.drained

section Queue

variable (ended : ℕ → ℕ) {fails : ℕ → Bool} {s : VVStream}

lemma look_queue (hs : Queue fails s) : Queue fails (look ended s) :=
  ⟨hs.ids, hs.seen_le.trans (le_max_left ..), max_le hs.ended_le (min_le_right ..), hs.drained_le,
    hs.sum, hs.error⟩

lemma wait_queue {id : ℕ} (hs : Queue fails s) (hid : id < s.committed) :
    Queue fails (waitFor id s) :=
  ⟨hs.ids, hs.seen_le.trans (le_max_left ..), max_le hs.ended_le hid, hs.drained_le, hs.sum,
    hs.error⟩

/-- The buffers in front that have ended. -/
lemma takeWhile_length {q : List (ℕ × UInt64)} {b n : ℕ} (e : ℕ)
    (hids : q.map Prod.fst = List.range' b n) :
    (q.takeWhile fun x => x.1 < e).length = min n (e - b) := by
  induction q generalizing b n with
  | nil =>
    cases n with
    | zero => simp
    | succ n => simp [List.range'_succ] at hids
  | cons x q ih =>
    cases n with
    | zero => simp at hids
    | succ n =>
      rw [List.map_cons, List.range'_succ, List.cons.injEq] at hids
      by_cases hx : x.1 < e
      · rw [List.takeWhile_cons_of_pos (by simpa using hx), List.length_cons, ih hids.2]
        omega
      · rw [List.takeWhile_cons_of_neg (by simpa using hx), List.length_nil]
        omega

lemma foldl_sub (q : List (ℕ × UInt64)) (out : UInt64) :
    q.foldl (fun out x => out - x.2) out = out - (q.map Prod.snd).sum := by
  induction q generalizing out with
  | nil => simp
  | cons x q ih => rw [List.foldl_cons, ih, List.map_cons, List.sum_cons, sub_sub]

/-- What is dropped are the buffers that have ended, oldest first. -/
lemma retire_queue (hs : Queue fails s) :
    Queue fails (retireFinished ended fails s) ∧ Same s (retireFinished ended fails s) ∧
      (retireFinished ended fails s).seen = (look ended s).ended := by
  have ht := look_queue ended hs
  refine ⟨?_, ⟨rfl, rfl, rfl, rfl, rfl⟩, rfl⟩
  rw [retireFinished]
  generalize look ended s = t at ht ⊢
  obtain ⟨hids, hseen, hended, hdrained, hsum, herror⟩ := ht
  have hlen := takeWhile_length t.ended hids
  have htake : (t.queued.takeWhile fun q => q.1 < t.ended) =
      t.queued.take (t.queued.takeWhile fun q => q.1 < t.ended).length :=
    List.prefix_iff_eq_take.mp (List.takeWhile_prefix _)
  generalize (t.queued.takeWhile fun q => q.1 < t.ended).length = k at hlen htake
  rw [htake]
  have hnext : max t.drained t.ended = max t.drained t.seen + k := by omega
  refine ⟨?_, le_rfl, hended, hdrained, ?_, ?_⟩
  · change (t.queued.drop k).map Prod.fst = _
    rw [List.map_drop, hids, List.drop_range', Nat.mul_one, ← hnext, Nat.sub_sub, ← hnext]
  · change (t.queued.take k).foldl (fun out q => out - q.2) t.groupsOut = _
    rw [foldl_sub, hsum, sub_eq_iff_eq_add', ← List.sum_append, ← List.map_append,
      List.take_append_drop]
  · have hdone : ((t.queued.take k).any fun q => fails q.1) = true ↔
        ∃ id, max t.drained t.seen ≤ id ∧ id < max t.drained t.seen + k ∧ fails id = true := by
      have hmap : ((t.queued.take k).any fun q => fails q.1) =
          ((t.queued.take k).map Prod.fst).any fails := List.any_map.symm
      rw [hmap, List.map_take, hids, List.take_range'_of_length_ge (by omega), List.any_eq_true]
      simp only [List.mem_range'_1, and_assoc]
    change (t.error || (t.queued.take k).any fun q => fails q.1) = true ↔ _
    rw [Bool.or_eq_true, herror, hdone]
    constructor
    · rintro (⟨id, hlo, hhi, hfail⟩ | ⟨id, hlo, hhi, hfail⟩)
      · exact ⟨id, hlo, hhi.trans_le hseen, hfail⟩
      · exact ⟨id, (le_max_left ..).trans hlo, by change id < t.ended; omega, hfail⟩
    · rintro ⟨id, hlo, hhi, hfail⟩
      change t.drained ≤ id at hlo
      change id < t.ended at hhi
      by_cases hold : id < t.seen
      · exact .inl ⟨id, hlo, hold, hfail⟩
      · exact .inr ⟨id, max_le hlo (not_lt.mp hold), by omega, hfail⟩

/-- A queue that is not empty begins with a buffer that has not been seen to end, or before it. -/
lemma head_eq (hs : Queue fails s) {q : ℕ × UInt64} {qs : List (ℕ × UInt64)}
    (hq : s.queued = q :: qs) : q.1 = max s.drained s.seen ∧ q.1 < s.committed := by
  have hids := hs.ids
  rw [hq, List.map_cons] at hids
  cases hn : s.committed - max s.drained s.seen with
  | zero =>
    rw [hn] at hids
    cases hids
  | succ n =>
    rw [hn, List.range'_succ, List.cons.injEq] at hids
    exact ⟨hids.1, by omega⟩

lemma length_queued (hs : Queue fails s) :
    s.queued.length = s.committed - max s.drained s.seen := by
  have hlength := congrArg List.length hs.ids
  rwa [List.length_map, List.length_range'] at hlength

/-- The waiting loop ends with room for one more buffer. -/
lemma makeRoom_ok (ng : UInt64) {n : ℕ} (hn : s.queued.length < n) (hs : Queue fails s)
    (h8 : s.queued.length ≤ 8) : ∃ t, makeRoom ended fails ng n s = some t ∧ Queue fails t ∧
      Same s t ∧ t.queued.length < 8 := by
  induction n generalizing s with
  | zero => exact absurd hn (Nat.not_lt_zero _)
  | succ n ih =>
    rw [makeRoom]
    by_cases hfull : full ng s = true
    · rw [if_pos hfull]
      cases hq : s.queued with
      | nil =>
        rw [full, hq] at hfull
        exact absurd hfull (by simp)
      | cons q qs =>
        obtain ⟨hq1, hlt⟩ := head_eq hs hq
        have hwait := wait_queue hs hlt
        obtain ⟨hqueue, hsame, hseen⟩ := retire_queue ended hwait
        -- the buffer that was waited for is retired
        have hlen := length_queued hqueue
        rw [hsame.committed, hsame.drained, hseen] at hlen
        have hold := length_queued hs
        have hmore : q.1 + 1 ≤ (look ended (waitFor q.1 s)).ended :=
          (le_max_right ..).trans (le_max_left ..)
        change _ = s.committed - max s.drained _ at hlen
        obtain ⟨t, ht, hqueue', hsame', hroom⟩ := ih (by omega) hqueue (by omega)
        exact ⟨t, ht, hqueue', ⟨hsame'.cb.trans hsame.cb, hsame'.last.trans hsame.last,
          hsame'.capturing.trans hsame.capturing, hsame'.committed.trans hsame.committed,
          hsame'.drained.trans hsame.drained⟩, hroom⟩
    · rw [if_neg hfull]
      refine ⟨s, rfl, hs, ⟨rfl, rfl, rfl, rfl, rfl⟩, ?_⟩
      have hne : s.queued.length ≠ 8 := fun h => hfull (by rw [full, h]; rfl)
      omega

end Queue

/-! ### Calls -/

/-- What holds between two calls. -/
structure Inv (fails : ℕ → Bool) (s : VVStream) : Prop extends Queue fails s where
  room : s.queued.length ≤ 8
  last : s.last = if s.drained < s.committed then some (s.committed - 1) else none

/-- What a drain returns. -/
structure Drain.Exact (fails : ℕ → Bool) (d : Drain) : Prop where
  le : d.lo ≤ d.hi
  error_iff : d.error = true ↔ (∃ id, d.lo ≤ id ∧ id < d.seen ∧ fails id = true) ∨
    d.lo < d.hi ∧ fails (d.hi - 1) = true

/-- Drains that follow one another, from one number of buffers to another. -/
def Spans : ℕ → List Drain → ℕ → Prop
  | lo, [], hi => lo = hi
  | lo, d :: ds, hi => d.lo = lo ∧ Spans d.hi ds hi

section Calls

variable (ended : ℕ → ℕ) {fails : ℕ → Bool} {s : VVStream}

lemma Spans.append {lo mid hi : ℕ} {ds ds' : List Drain} (h : Spans lo ds mid)
    (h' : Spans mid ds' hi) : Spans lo (ds ++ ds') hi := by
  induction ds generalizing lo with
  | nil => exact h ▸ h'
  | cons d ds ih => exact ⟨h.1, ih h.2⟩

/-- What a call is known to do: it ends, keeps the invariant, and its drains are exact. -/
def Good (fails : ℕ → Bool) (s : VVStream) (r : Option (List Drain × VVStream)) : Prop :=
  ∃ ds t, r = some (ds, t) ∧ Inv fails t ∧ Spans s.drained ds t.drained ∧
    ∀ d ∈ ds, Drain.Exact fails d

lemma inv_new (fails : ℕ → Bool) : Inv fails VVStream.new where
  ids := rfl
  seen_le := le_rfl
  ended_le := le_rfl
  drained_le := le_rfl
  sum := rfl
  error := ⟨nofun, fun ⟨_, _, h, _⟩ => absurd h (Nat.not_lt_zero _)⟩
  room := Nat.zero_le _
  last := rfl

/-- A flush ends, and the buffer that was being filled is in flight. -/
lemma flush_ok (hs : Inv fails s) : ∃ t, flushLocked ended fails s = some t ∧ Inv fails t ∧
    t.drained = s.drained ∧ t.capturing = s.capturing := by
  rw [flushLocked]
  cases hcb : s.cb with
  | none => exact ⟨s, rfl, hs, rfl, rfl⟩
  | some cb =>
    obtain ⟨nd, ng⟩ := cb
    have hq : Queue fails { s with cb := some (nd, ng), last := some s.committed } :=
      ⟨hs.ids, hs.seen_le, hs.ended_le, hs.drained_le, hs.sum, hs.error⟩
    obtain ⟨hq₁, hsame₁, hseen⟩ := retire_queue ended hq
    have hlen := length_queued hq₁
    rw [hsame₁.committed, hsame₁.drained] at hlen
    have hold := length_queued hs.toQueue
    have hroom := hs.room
    have hmono : s.seen ≤ (retireFinished ended fails
        { s with cb := some (nd, ng), last := some s.committed }).seen :=
      hseen ▸ hs.seen_le.trans (le_max_left ..)
    change _ = s.committed - max s.drained _ at hlen
    obtain ⟨t, ht, hq₂, hsame₂, hroom₂⟩ := makeRoom_ok ended ng
      (show _ < 9 by omega) hq₁ (by omega)
    have hcommitted : t.committed = s.committed := hsame₂.committed.trans hsame₁.committed
    have hdrained : t.drained = s.drained := hsame₂.drained.trans hsame₁.drained
    have hle : max t.drained t.seen ≤ t.committed :=
      max_le hq₂.drained_le (hq₂.seen_le.trans hq₂.ended_le)
    dsimp only
    rw [ht]
    refine ⟨_, rfl, ⟨⟨?_, hq₂.seen_le, ?_, ?_, ?_, hq₂.error⟩, ?_, ?_⟩, hdrained,
      hsame₂.capturing.trans hsame₁.capturing⟩
    · change (t.queued ++ [(s.committed, ng)]).map Prod.fst =
        List.range' (max t.drained t.seen) (s.committed + 1 - max t.drained t.seen)
      rw [List.map_append, hq₂.ids, ← hcommitted, Nat.sub_add_comm hle, List.range'_concat,
        Nat.one_mul, Nat.add_sub_cancel' hle]
      rfl
    · exact (hcommitted ▸ hq₂.ended_le).trans (Nat.le_succ _)
    · exact (hcommitted ▸ hq₂.drained_le).trans (Nat.le_succ _)
    · change t.groupsOut + ng = ((t.queued ++ [(s.committed, ng)]).map Prod.snd).sum
      rw [List.map_append, List.sum_append, ← hq₂.sum, List.map_singleton, List.sum_singleton]
    · change (t.queued ++ [(s.committed, ng)]).length ≤ 8
      rw [List.length_append, List.length_singleton]
      exact hroom₂
    · have hlt : t.drained < s.committed + 1 :=
        Nat.lt_succ_of_le (hcommitted ▸ hq₂.drained_le)
      exact (hsame₂.last.trans hsame₁.last).trans (if_pos hlt).symm

/-- A drain ends, and returns the errors that were seen and that of the last buffer. -/
lemma drain_ok (hs : Inv fails s) : ∃ d t, drainLocked ended fails s = some (d, t) ∧ Inv fails t ∧
    d.lo = s.drained ∧ d.hi = t.drained ∧ t.capturing = s.capturing ∧ d.Exact fails := by
  obtain ⟨u, hu, hinv, hdrained, hcapturing⟩ := flush_ok ended hs
  rw [drainLocked, hu]
  have hlast := hinv.last
  rw [hdrained] at hlast
  have hle : s.drained ≤ u.committed := hdrained ▸ hinv.drained_le
  have herror := hinv.error
  rw [hdrained] at herror
  have hempty : ([] : List ℕ) =
      List.range' (max u.committed u.seen) (u.committed - max u.committed u.seen) := by
    rw [max_eq_left (hinv.seen_le.trans hinv.ended_le), Nat.sub_self]
    rfl
  have hnone : false = true ↔ ∃ id, u.committed ≤ id ∧ id < u.seen ∧ fails id = true :=
    ⟨nofun, fun ⟨id, hlo, hhi, _⟩ =>
      absurd (hlo.trans_lt hhi) (hinv.seen_le.trans hinv.ended_le).not_gt⟩
  by_cases hnew : s.drained < u.committed
  · rw [if_pos hnew] at hlast
    dsimp only [Option.map_some]
    rw [hlast]
    have hlt : u.committed - 1 + 1 = u.committed := by omega
    refine ⟨_, _, rfl, ⟨⟨hempty, hinv.seen_le.trans (le_max_left ..), ?_, le_rfl, rfl, hnone⟩,
      Nat.zero_le _, (if_neg (lt_irrefl _)).symm⟩, rfl, rfl, hcapturing, hle, ?_⟩
    · exact max_le hinv.ended_le hlt.le
    · change (u.error || fails (u.committed - 1)) = true ↔ _
      rw [Bool.or_eq_true, herror]
      simp only [hnew, true_and]
  · rw [if_neg hnew] at hlast
    dsimp only [Option.map_some]
    rw [hlast]
    refine ⟨_, _, rfl, ⟨⟨hempty, hinv.seen_le, hinv.ended_le, le_rfl, rfl, hnone⟩,
      Nat.zero_le _, ?_⟩, rfl, rfl, hcapturing, hle, ?_⟩
    · exact (if_neg (Nat.lt_irrefl u.committed)).symm
    · exact herror.trans ⟨Or.inl, fun h => h.resolve_right fun h => hnew h.1⟩

lemma Inv.withCb (hs : Inv fails s) (cb : Option (ℕ × UInt64)) : Inv fails { s with cb := cb } :=
  ⟨⟨hs.ids, hs.seen_le, hs.ended_le, hs.drained_le, hs.sum, hs.error⟩, hs.room, hs.last⟩

lemma Inv.withCapturing (hs : Inv fails s) (b : Bool) : Inv fails { s with capturing := b } :=
  ⟨⟨hs.ids, hs.seen_le, hs.ended_le, hs.drained_le, hs.sum, hs.error⟩, hs.room, hs.last⟩

lemma Inv.look (hs : Inv fails s) : Inv fails (look ended s) :=
  ⟨look_queue ended hs.toQueue, hs.room, hs.last⟩

lemma good_nil {t : VVStream} (ht : Inv fails t) (hdrained : t.drained = s.drained) :
    Good fails s (some ([], t)) :=
  ⟨[], t, rfl, ht, hdrained.symm, nofun⟩

lemma good_flushed {t : VVStream} (ht : Inv fails t) (hdrained : t.drained = s.drained) :
    Good fails s (flushed ended fails t) := by
  obtain ⟨u, hu, hinv, hsame, -⟩ := flush_ok ended ht
  rw [flushed, hu]
  exact good_nil hinv (hsame.trans hdrained)

lemma good_drains {t : VVStream} (ht : Inv fails t) (hdrained : t.drained = s.drained) :
    Good fails s (drains ended fails t) := by
  obtain ⟨d, u, hu, hinv, hlo, hhi, -, hexact⟩ := drain_ok ended ht
  rw [drains, hu]
  refine ⟨[d], u, rfl, hinv, ⟨hlo.trans hdrained, hhi⟩, fun d' hd' => ?_⟩
  obtain rfl := List.mem_singleton.mp hd'
  exact hexact

lemma good_submit {t : VVStream} (each : Bool) (groups : UInt64) (ht : Inv fails t)
    (hdrained : t.drained = s.drained) : Good fails s (submit ended fails each groups t) := by
  have hencoded : Inv fails (encodeCmd groups t) := ht.withCb _
  rw [submit]
  cases each with
  | true => exact good_drains ended hencoded hdrained
  | false =>
    rw [if_neg Bool.false_ne_true]
    split
    · split
      · exact good_flushed ended hencoded hdrained
      · exact good_nil hencoded hdrained
    · exact good_nil hencoded hdrained

lemma replay_ok (groups : List UInt64) (hs : Inv fails s) :
    ∃ t, replayCmds ended fails groups s = some t ∧ Inv fails t ∧ t.drained = s.drained := by
  induction groups generalizing s with
  | nil => exact ⟨s, rfl, hs, rfl⟩
  | cons g groups ih =>
    have hencoded : Inv fails (encodeCmd g s) := hs.withCb _
    rw [replayCmds]
    split
    · split
      · obtain ⟨u, hu, hinv, hsame, -⟩ := flush_ok ended hencoded
        obtain ⟨t, ht, hinv', hsame'⟩ := ih hinv
        rw [hu]
        exact ⟨t, ht, hinv', hsame'.trans hsame⟩
      · exact ih hencoded
    · exact ih hencoded

lemma good_submitAll {t : VVStream} (each : Bool) (groups : List UInt64) (ht : Inv fails t)
    (hdrained : t.drained = s.drained) : Good fails s (submitAll ended fails each groups t) := by
  obtain ⟨u, hu, hinv, hsame⟩ := replay_ok ended groups ht
  obtain ⟨v, hv, hinv', hsame', -⟩ := flush_ok ended hinv
  have hback : v.drained = s.drained := hsame'.trans (hsame.trans hdrained)
  rw [submitAll, hu]
  change Good fails s (flushLocked ended fails u >>= _)
  rw [hv]
  change Good fails s (if each = true then drains ended fails v else some ([], v))
  cases each with
  | true => exact good_drains ended hinv' hback
  | false => exact good_nil hinv' hback

lemma good_afterSync (null : Bool) {go : VVStream → Option (List Drain × VVStream)}
    (hgo : ∀ t, Inv fails t → Good fails t (go t)) (hs : Inv fails s) :
    Good fails s (afterSync ended fails null go s) := by
  rw [afterSync]
  cases null with
  | false => exact hgo s hs
  | true =>
    obtain ⟨d, t, ht, hinv, hlo, hhi, -, hexact⟩ := drain_ok ended hs
    rw [if_pos rfl, ht]
    change Good fails s (if d.error = true then _ else _)
    by_cases herror : d.error = true
    · rw [if_pos herror]
      refine ⟨[d], t, rfl, hinv, ⟨hlo, hhi⟩, fun d' hd' => ?_⟩
      obtain rfl := List.mem_singleton.mp hd'
      exact hexact
    · rw [if_neg herror]
      obtain ⟨ds, u, hu, hinv', hspans, hall⟩ := hgo t hinv
      rw [hu]
      refine ⟨d :: ds, u, rfl, hinv', ⟨hlo, hhi ▸ hspans⟩, fun d' hd' => ?_⟩
      rcases List.mem_cons.mp hd' with rfl | hd'
      · exact hexact
      · exact hall d' hd'

/-- Every call ends, keeps the invariant, and its drains are exact. -/
lemma good_step (each : Bool) (hs : Inv fails s) (op : Op) :
    Good fails s (step ended fails each s op) := by
  have hidle : Good fails s (some ([], s)) := good_nil hs rfl
  cases op with
  | launch null groups =>
    rw [step]
    refine good_afterSync ended null (fun t ht => ?_) hs
    split
    · exact good_nil ht rfl
    · exact good_submit ended _ groups ht rfl
  | replay null groups =>
    rw [step]
    refine good_afterSync ended null (fun t ht => ?_) hs
    split
    · exact good_nil ht rfl
    · exact good_submitAll ended _ groups ht rfl
  | record =>
    rw [step]
    split
    · exact hidle
    · exact good_flushed ended (hs.withCb _) rfl
  | waitEvent =>
    rw [step]
    split
    · exact hidle
    · exact good_nil (hs.withCb _) rfl
  | h2d fromDevice groups =>
    have hlook := hs.look ended
    rw [step]
    split
    · exact hidle
    · split
      · exact good_submit ended _ groups hs rfl
      · dsimp only
        split
        · exact good_nil hlook rfl
        · exact good_submit ended _ groups hlook rfl
  | sync all =>
    rw [step]
    split
    · exact hidle
    · exact good_drains ended hs rfl
  | graphBegin => exact good_nil (hs.withCapturing _) rfl
  | graphEnd => exact good_nil (hs.withCapturing _) rfl

/-- So does every run. -/
lemma good_run (each : Bool) (ops : List Op) (hs : Inv fails s) :
    Good fails s (run ended fails each ops s) := by
  induction ops generalizing s with
  | nil => exact good_nil hs rfl
  | cons op ops ih =>
    obtain ⟨ds, t, ht, hinv, hspans, hall⟩ := good_step ended each hs op
    obtain ⟨ds', u, hu, hinv', hspans', hall'⟩ := ih hinv
    rw [run, ht]
    change Good fails s ((run ended fails each ops t).map _)
    rw [hu]
    refine ⟨ds ++ ds', u, rfl, hinv', hspans.append hspans', fun d hd => ?_⟩
    exact (List.mem_append.mp hd).elim (hall d) (hall' d)

end Calls

/-! ### Failures -/

/-- A drain reports the failures of the buffers committed since the one before it. -/
def Drain.Reports (fails : ℕ → Bool) (d : Drain) : Prop :=
  (∃ id, d.lo ≤ id ∧ id < d.hi ∧ fails id = true) → d.error = true

/-- If one of those buffers fails, then one that fails was seen to end, or it is the last one. -/
def Drain.Shown (fails : ℕ → Bool) (d : Drain) : Prop :=
  (∃ id, d.lo ≤ id ∧ id < d.hi ∧ fails id = true) →
    (∃ id, d.lo ≤ id ∧ id < d.seen ∧ fails id = true) ∨ fails (d.hi - 1) = true

/-- In every run the waiting loop ends, at most eight buffers are in flight and their groups are
counted; and a drain reports the failures since the last one just where one of them was seen to end,
or the last buffer failed. -/
theorem drains_report_iff (ended : ℕ → ℕ) (fails : ℕ → Bool) (each : Bool) (ops : List Op) :
    ∃ ds s, run ended fails each ops VVStream.new = some (ds, s) ∧ s.queued.length ≤ 8 ∧
      s.groupsOut = (s.queued.map Prod.snd).sum ∧ Spans 0 ds s.drained ∧
      ∀ d ∈ ds, d.Reports fails ↔ d.Shown fails := by
  obtain ⟨ds, s, hrun, hinv, hspans, hall⟩ := good_run ended each ops (inv_new fails)
  refine ⟨ds, s, hrun, hinv.room, hinv.sum, hspans, fun d hd => forall_congr' fun hfail => ?_⟩
  obtain ⟨id, hlo, hhi, -⟩ := hfail
  have hlt : d.lo < d.hi := hlo.trans_lt hhi
  rw [(hall d hd).error_iff]
  simp only [hlt, true_and]

/-- Two buffers in flight, of which the first fails: nothing is reported. -/
theorem drain_lost :
    (run (fun _ => 0) (fun id => id = 0) false [.record, .record, .sync false] VVStream.new).map
        Prod.fst = some [⟨0, 2, 0, false⟩] ∧
      ¬ Drain.Reports (fun id => id = 0) ⟨0, 2, 0, false⟩ :=
  ⟨by decide, fun h => absurd (h ⟨0, by decide, by decide, rfl⟩) (by decide)⟩

end VibeVoice.Metal
