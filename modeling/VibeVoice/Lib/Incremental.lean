import Mathlib.Tactic

/-!
Decoders that are fed a stream in pieces.

A decoder looks at the front of what it has not used yet.  It waits for more input, stops for
good, or takes some of the input, gives something out and goes on in a new state.  What a
decoder must promise is that more input behind what it sees changes none of its decisions but
the one to wait.

* `Decoder.drain`: the loop that takes as long as it can.
* `drain_append`: draining a longer stream goes on where draining its front ended.
* `feedAll_drain`: however the stream is cut, feeding the pieces one by one gives what draining
  the whole stream gives.
* `Decoder.Parses`: streams written as a sequence of takes, and `Parses.drain` for them.
-/

namespace Incremental

variable {α σ ε ω : Type*}

/-- What a decoder makes of the input in front of it. -/
inductive Move (σ ε ω : Type*)
  | wait
  | stop (why : ε)
  | take (n : ℕ) (out : List ω) (next : σ)

/-- A decoder: its decision in a state, and the promise that a decision stands when more input
follows. -/
structure Decoder (α σ ε ω : Type*) where
  move : σ → List α → Move σ ε ω
  move_nil : ∀ s, move s [] = .wait
  take_pos : ∀ {s f n out s'}, move s f = .take n out s' → 0 < n
  take_le : ∀ {s f n out s'}, move s f = .take n out s' → n ≤ f.length
  take_append : ∀ {s f n out s'}, move s f = .take n out s' →
    ∀ g, move s (f ++ g) = .take n out s'
  stop_append : ∀ {s f why}, move s f = .stop why → ∀ g, move s (f ++ g) = .stop why

/-- Where a decoder stands: its state, the input it has not used, all it gave out, and why it
stopped if it did. -/
@[ext] structure Standing (α σ ε ω : Type*) where
  state : σ
  rest : List α
  out : List ω
  stopped : Option ε

namespace Standing

/-- A decoder that has seen nothing. -/
def start (s : σ) : Standing α σ ε ω := ⟨s, [], [], none⟩

/-- The same standing with `out` given out before it. -/
def behind (out : List ω) (r : Standing α σ ε ω) : Standing α σ ε ω :=
  { r with out := out ++ r.out }

@[simp] lemma behind_state (out : List ω) (r : Standing α σ ε ω) :
    (r.behind out).state = r.state := rfl

@[simp] lemma behind_rest (out : List ω) (r : Standing α σ ε ω) :
    (r.behind out).rest = r.rest := rfl

@[simp] lemma behind_out (out : List ω) (r : Standing α σ ε ω) :
    (r.behind out).out = out ++ r.out := rfl

@[simp] lemma behind_stopped (out : List ω) (r : Standing α σ ε ω) :
    (r.behind out).stopped = r.stopped := rfl

@[simp] lemma behind_nil (r : Standing α σ ε ω) : r.behind [] = r := rfl

lemma behind_behind (out out' : List ω) (r : Standing α σ ε ω) :
    (r.behind out').behind out = r.behind (out ++ out') := by
  simp [behind, List.append_assoc]

end Standing

namespace Decoder

variable (d : Decoder α σ ε ω)

/-- Takes from the input until the decoder waits or stops. -/
def drain (s : σ) (f : List α) : Standing α σ ε ω :=
  match _h : d.move s f with
  | .wait => ⟨s, f, [], none⟩
  | .stop why => ⟨s, f, [], some why⟩
  | .take n out s' => (drain s' (f.drop n)).behind out
termination_by f.length
decreasing_by
  have hpos := d.take_pos _h
  have hle := d.take_le _h
  rw [List.length_drop]
  omega

variable {d} {s s' : σ} {f g : List α} {out : List ω} {why : ε} {n : ℕ}

lemma drain_wait (h : d.move s f = .wait) : d.drain s f = ⟨s, f, [], none⟩ := by
  rw [drain]
  split
  · rfl
  · next h' => rw [h] at h'; cases h'
  · next h' => rw [h] at h'; cases h'

lemma drain_stop (h : d.move s f = .stop why) : d.drain s f = ⟨s, f, [], some why⟩ := by
  rw [drain]
  split
  · next h' => rw [h] at h'; cases h'
  · next h' => rw [h] at h'; cases h'; rfl
  · next h' => rw [h] at h'; cases h'

lemma drain_take (h : d.move s f = .take n out s') :
    d.drain s f = (d.drain s' (f.drop n)).behind out := by
  rw [drain]
  split
  · next h' => rw [h] at h'; cases h'
  · next h' => rw [h] at h'; cases h'
  · next h' => rw [h] at h'; cases h'; rfl

/-- The induction behind every fact about `drain`: one case for each decision. -/
lemma drain_induct {P : σ → List α → Prop}
    (wait : ∀ s f, d.move s f = .wait → P s f)
    (stop : ∀ s f why, d.move s f = .stop why → P s f)
    (take : ∀ s f n out s', d.move s f = .take n out s' → P s' (f.drop n) → P s f)
    (s : σ) (f : List α) : P s f := by
  induction hn : f.length using Nat.strong_induction_on generalizing s f with
  | _ k ih =>
    cases h : d.move s f with
    | wait => exact wait s f h
    | stop why => exact stop s f why h
    | take n out s' =>
      have hpos := d.take_pos h
      have hle := d.take_le h
      refine take s f n out s' h (ih (f.drop n).length ?_ s' (f.drop n) rfl)
      rw [List.length_drop]
      omega

/-- A decoder that did not stop waits for input behind what it has not used. -/
lemma drain_waits (h : (d.drain s f).stopped = none) :
    d.move (d.drain s f).state (d.drain s f).rest = .wait := by
  induction s, f using drain_induct (d := d) with
  | wait s f hw => rw [drain_wait hw]; exact hw
  | stop s f why hs => rw [drain_stop hs] at h; cases h
  | take s f n out s' ht ih =>
    rw [drain_take ht] at h ⊢
    exact ih h

/-- A property of states that every take preserves holds where the decoder stands. -/
lemma drain_state {P : σ → Prop}
    (hstep : ∀ s f n out s', P s → d.move s f = .take n out s' → P s') (hs : P s) :
    P (d.drain s f).state := by
  induction s, f using drain_induct (d := d) with
  | wait s f h => rw [drain_wait h]; exact hs
  | stop s f why h => rw [drain_stop h]; exact hs
  | take s f n out s' h ih =>
    rw [drain_take h]
    exact ih (hstep s f n out s' hs h)

/-- The decoder after one more piece of its stream; once stopped it looks at nothing. -/
def feed (d : Decoder α σ ε ω) (r : Standing α σ ε ω) (piece : List α) : Standing α σ ε ω :=
  match r.stopped with
  | some _ => r
  | none => (d.drain r.state (r.rest ++ piece)).behind r.out

lemma feed_stopped {r : Standing α σ ε ω} (h : r.stopped = some why) (piece : List α) :
    d.feed r piece = r := by
  rw [feed, h]

lemma feed_running {r : Standing α σ ε ω} (h : r.stopped = none) (piece : List α) :
    d.feed r piece = (d.drain r.state (r.rest ++ piece)).behind r.out := by
  rw [feed, h]

/-- Draining a stream stops where draining its front stops. -/
lemma drain_append_stopped (h : (d.drain s f).stopped = some why) (g : List α) :
    d.drain s (f ++ g) = { d.drain s f with rest := (d.drain s f).rest ++ g } := by
  induction s, f using drain_induct (d := d) with
  | wait s f hw => rw [drain_wait hw] at h; cases h
  | stop s f why' hs => rw [drain_stop (d.stop_append hs g), drain_stop hs]
  | take s f n out s' ht ih =>
    rw [drain_take ht] at h ⊢
    rw [drain_take (d.take_append ht g), List.drop_append_of_le_length (d.take_le ht), ih h]
    rfl

/-- Draining a stream goes on where draining its front ended. -/
lemma drain_append (h : (d.drain s f).stopped = none) (g : List α) :
    d.drain s (f ++ g) =
      (d.drain (d.drain s f).state ((d.drain s f).rest ++ g)).behind (d.drain s f).out := by
  induction s, f using drain_induct (d := d) with
  | wait s f hw => rw [drain_wait hw]; rfl
  | stop s f why' hs => rw [drain_stop hs] at h; cases h
  | take s f n out s' ht ih =>
    rw [drain_take ht] at h ⊢
    rw [drain_take (d.take_append ht g), List.drop_append_of_le_length (d.take_le ht), ih h,
      Standing.behind_behind]
    rfl

/-- The decoder after all the pieces of a stream. -/
def feedAll (d : Decoder α σ ε ω) (s : σ) (pieces : List (List α)) : Standing α σ ε ω :=
  pieces.foldl d.feed (.start s)

lemma feedAll_snoc (s : σ) (pieces : List (List α)) (piece : List α) :
    d.feedAll s (pieces ++ [piece]) = d.feed (d.feedAll s pieces) piece := by
  rw [feedAll, List.foldl_append]
  rfl

/-- **Cuts do not matter**: fed a stream in any pieces, the decoder ends in the state, with the
output and with the reason to stop that the whole stream gives; and with the same input unused
unless it stopped. -/
theorem feedAll_drain (s : σ) (pieces : List (List α)) :
    (d.feedAll s pieces).state = (d.drain s pieces.flatten).state ∧
      (d.feedAll s pieces).out = (d.drain s pieces.flatten).out ∧
      (d.feedAll s pieces).stopped = (d.drain s pieces.flatten).stopped ∧
      ((d.feedAll s pieces).stopped = none →
        (d.feedAll s pieces).rest = (d.drain s pieces.flatten).rest) := by
  induction pieces using List.reverseRecOn with
  | nil =>
    rw [List.flatten_nil, drain_wait (d.move_nil s)]
    exact ⟨rfl, rfl, rfl, fun _ => rfl⟩
  | append_singleton pieces piece ih =>
    obtain ⟨hstate, hout, hstop, hrest⟩ := ih
    rw [feedAll_snoc, List.flatten_append, List.flatten_singleton]
    cases hs : (d.feedAll s pieces).stopped with
    | some why =>
      rw [feed_stopped hs, drain_append_stopped (hstop.symm.trans hs)]
      exact ⟨hstate, hout, hstop, fun h => by rw [hs] at h; cases h⟩
    | none =>
      rw [feed_running hs, drain_append (hstop.symm.trans hs), hstate, hout, hrest hs]
      exact ⟨rfl, rfl, rfl, fun _ => rfl⟩

/-- A decoder that has not stopped had not stopped before. -/
lemma running_of_prefix {pieces more : List (List α)}
    (h : (d.feedAll s (pieces ++ more)).stopped = none) :
    (d.feedAll s pieces).stopped = none := by
  induction more using List.reverseRecOn with
  | nil => rwa [List.append_nil] at h
  | append_singleton more piece ih =>
    rw [← List.append_assoc, feedAll_snoc] at h
    refine ih ?_
    cases hs : (d.feedAll s (pieces ++ more)).stopped with
    | none => rfl
    | some why => rwa [feed_stopped hs, hs] at h

/-! ### Streams written as takes -/

variable (d)

/-- A stream `w` that takes the decoder from `s` to `s'` and gives out `out`, whatever follows
it. -/
inductive Parses : σ → List α → List ω → σ → Prop
  | nil (s : σ) : Parses s [] [] s
  | cons {s s' t : σ} {w v : List α} {out outs : List ω}
      (take : ∀ g, d.move s (w ++ g) = .take w.length out s') (rest : Parses s' v outs t) :
      Parses s (w ++ v) (out ++ outs) t

variable {d}

lemma Parses.append {s t u : σ} {w v : List α} {out outs : List ω} (h : d.Parses s w out t)
    (h' : d.Parses t v outs u) : d.Parses s (w ++ v) (out ++ outs) u := by
  induction h with
  | nil s => exact h'
  | cons take _ ih =>
    rw [List.append_assoc, List.append_assoc]
    exact .cons take (ih h')

lemma Parses.single {s s' : σ} {w : List α} {out : List ω}
    (take : ∀ g, d.move s (w ++ g) = .take w.length out s') : d.Parses s w out s' := by
  have h := Parses.cons take (.nil s')
  rwa [List.append_nil, List.append_nil] at h

/-- A stream written as takes is drained to its end. -/
lemma Parses.drain {s t : σ} {w : List α} {out : List ω} (h : d.Parses s w out t) :
    d.drain s w = ⟨t, [], out, none⟩ := by
  induction h with
  | nil s => exact drain_wait (d.move_nil s)
  | cons take _ ih =>
    rw [drain_take (take _), List.drop_left, ih]
    rfl

end Decoder

end Incremental
