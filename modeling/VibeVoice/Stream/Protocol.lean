import VibeVoice.Stream.Session

/-!
The event protocol of a session, as its listener sees it.

A `Listener` is an automaton over the events: it knows the texts of the completed chunks, the
text of the chunk in progress, and whether the session has ended.  It accepts an event only
where the protocol allows it.  `Heard` says what follows for a whole sequence of events.
-/

namespace VibeVoice.Stream

open Machine

/-- What a listener knows. -/
structure Listener where
  chunks : List (List UInt8)
  current : List UInt8
  ended : Bool
  deriving DecidableEq

namespace Listener

/-- Nothing is heard yet. -/
def start : Listener := { chunks := [], current := [], ended := false }

/-- The protocol: which event may come next. -/
def hear (l : Listener) : Event → Option (Unit × Listener)
  | .delta i d =>
    if l.ended = false ∧ i = l.chunks.length then
      some ((), { l with current := l.current ++ d })
    else none
  | .chunk i text _ _ _ _ _ =>
    if l.ended = false ∧ i = l.chunks.length ∧ text = l.current then
      some ((), { l with chunks := l.chunks ++ [text], current := [] })
    else none
  | .done n text _ =>
    if l.ended = false ∧ l.current = [] ∧ n = l.chunks.length ∧ text = l.chunks.flatten then
      some ((), { l with ended := true })
    else none
  | .error _ st _ =>
    if l.ended = false ∧ st ≠ .cancelled then some ((), { l with ended := true }) else none

/-- The events lead the listener to `l`. -/
def Follows (l : Listener) (evs : List Event) : Prop := run hear start evs = some l

lemma Follows.nil : start.Follows [] := rfl

lemma Follows.snoc {evs : List Event} {l l' : Listener} {ev : Event} (h : l.Follows evs)
    (hev : l.hear ev = some ((), l')) : l'.Follows (evs ++ [ev]) := by
  rw [Follows, run_snoc hear h, hev]
  rfl

end Listener

namespace Event

/-- The events after which none may come. -/
def terminal : Event → Bool
  | .done .. => true
  | .error .. => true
  | _ => false

/-- The index of a `CHUNK` event. -/
def chunkIndex : Event → Option ℕ
  | .chunk i .. => some i
  | _ => none

/-- The text of a `CHUNK` event. -/
def chunkText : Event → Option (List UInt8)
  | .chunk _ text .. => some text
  | _ => none

/-- The text of a `DELTA` event of chunk `i`. -/
def deltaText (i : ℕ) : Event → Option (List UInt8)
  | .delta j d => if j = i then some d else none
  | _ => none

end Event

/-- A last event that a filter drops. -/
lemma filterMap_none {β γ : Type} {f : β → Option γ} {xs : List β} {x : β} (h : f x = none) :
    (xs ++ [x]).filterMap f = xs.filterMap f := by
  rw [List.filterMap_append, List.filterMap_cons_none h, List.filterMap_nil, List.append_nil]

/-- A last event that a filter keeps. -/
lemma filterMap_some {β γ : Type} {f : β → Option γ} {xs : List β} {x : β} {y : γ}
    (h : f x = some y) : (xs ++ [x]).filterMap f = xs.filterMap f ++ [y] := by
  rw [List.filterMap_append, List.filterMap_cons_some h, List.filterMap_nil]

/-- What the protocol promises of the events heard so far. -/
structure Heard (evs : List Event) (l : Listener) : Prop where
  indices : evs.filterMap Event.chunkIndex = List.range l.chunks.length
  texts : evs.filterMap Event.chunkText = l.chunks
  chunk : ∀ i text n stop lo hi kv, .chunk i text n stop lo hi kv ∈ evs → l.chunks[i]? = some text
  deltas : ∀ i, (evs.filterMap (Event.deltaText i)).flatten =
    ((l.chunks ++ [l.current])[i]?).getD []
  done : ∀ n text total, .done n text total ∈ evs → n = l.chunks.length ∧ text = l.chunks.flatten
  errors : ∀ i st text, .error i st text ∈ evs → st ≠ .cancelled
  silent : l.ended = false → ∀ e ∈ evs, e.terminal = false
  last : ∀ pre e post, evs = pre ++ e :: post → e.terminal = true → post = []

namespace Heard

variable {evs : List Event} {l : Listener}

lemma start : Heard [] Listener.start where
  indices := rfl
  texts := rfl
  chunk := by simp
  deltas i := by cases i <;> rfl
  done := by simp
  errors := by simp
  silent := by simp
  last pre e post h := by simp at h

/-- An event after which the session was still open leaves the last place free. -/
lemma last_snoc (h : Heard evs l) (hopen : l.ended = false) (ev : Event) :
    ∀ pre e post, evs ++ [ev] = pre ++ e :: post → e.terminal = true → post = [] := by
  intro pre e post heq hterm
  induction post using List.reverseRecOn with
  | nil => rfl
  | append_singleton post' z _ =>
    have hsplit : evs = pre ++ e :: post' := by
      rw [← List.cons_append, ← List.append_assoc] at heq
      exact (List.append_inj' heq rfl).1
    have hnot := h.silent hopen e (hsplit ▸ by simp)
    rw [hnot] at hterm
    cases hterm

/-- There is no `DONE` before the end. -/
lemma not_done (h : Heard evs l) (hopen : l.ended = false) {n total : ℕ} {text : List UInt8} :
    .done n text total ∉ evs := by
  intro hmem
  have hterm := h.silent hopen _ hmem
  cases hterm

/-- A delta belongs to the chunk in progress. -/
lemma getD_delta (cs : List (List UInt8)) (c d : List UInt8) (i : ℕ) :
    ((cs ++ [c])[i]?).getD [] ++ (if cs.length = i then d else [])
      = ((cs ++ [c ++ d])[i]?).getD [] := by
  rcases Nat.lt_trichotomy i cs.length with h | h | h
  · rw [List.getElem?_append_left h, List.getElem?_append_left h, if_neg h.ne', List.append_nil]
  · subst h
    simp
  · rw [List.getElem?_eq_none (by simp; omega), List.getElem?_eq_none (by simp; omega),
      if_neg h.ne]
    rfl

/-- The chunk in progress becomes a completed one. -/
lemma getD_chunk (cs : List (List UInt8)) (c : List UInt8) (i : ℕ) :
    ((cs ++ [c] ++ [[]])[i]?).getD [] = ((cs ++ [c])[i]?).getD [] := by
  rcases Nat.lt_or_ge i (cs ++ [c]).length with h | h
  · rw [List.getElem?_append_left h]
  · rw [List.getElem?_append_right h, List.getElem?_eq_none h]
    cases i - (cs ++ [c]).length <;> rfl

/-- **One event**: what the protocol promises survives every event it allows. -/
lemma snoc {l' : Listener} {ev : Event} (h : Heard evs l)
    (hev : l.hear ev = some ((), l')) : Heard (evs ++ [ev]) l' := by
  cases ev with
  | delta i d =>
    simp only [Listener.hear] at hev
    split_ifs at hev with hc
    cases hev
    obtain ⟨hopen, rfl⟩ := hc
    exact
      { indices := (filterMap_none rfl).trans h.indices
        texts := (filterMap_none rfl).trans h.texts
        chunk := fun i text n stop lo hi kv hmem =>
          h.chunk i text n stop lo hi kv (by simpa using hmem)
        deltas := fun j => by
          rw [← getD_delta, ← h.deltas j]
          by_cases hj : l.chunks.length = j
          · have hsome : Event.deltaText j (.delta l.chunks.length d) = some d := if_pos hj
            rw [filterMap_some hsome, List.flatten_append, if_pos hj, List.flatten_singleton]
          · have hnone : Event.deltaText j (.delta l.chunks.length d) = none := if_neg hj
            rw [filterMap_none hnone, if_neg hj, List.append_nil]
        done := fun n text total hmem => by
          simp [h.not_done hopen] at hmem
        errors := fun j st text hmem => h.errors j st text (by simpa using hmem)
        silent := fun _ =>
          List.forall_mem_append.mpr ⟨h.silent hopen, List.forall_mem_singleton.mpr rfl⟩
        last := h.last_snoc hopen _ }
  | chunk i text n stop lo hi kv =>
    simp only [Listener.hear] at hev
    split_ifs at hev with hc
    cases hev
    obtain ⟨hopen, rfl, rfl⟩ := hc
    exact
      { indices := by
          rw [filterMap_some (f := Event.chunkIndex) rfl, h.indices, List.length_append,
            List.length_singleton, List.range_succ]
        texts := by rw [filterMap_some (f := Event.chunkText) rfl, h.texts]
        chunk := fun i text n stop lo hi kv hmem => by
          rcases List.mem_append.mp hmem with hmem | hmem
          · have hi := h.chunk i text n stop lo hi kv hmem
            rw [List.getElem?_append_left (List.getElem?_eq_some_iff.mp hi).1, hi]
          · cases List.mem_singleton.mp hmem
            simp
        deltas := fun j => by
          rw [getD_chunk, ← h.deltas j, filterMap_none rfl]
        done := fun n text total hmem => by
          simp [h.not_done hopen] at hmem
        errors := fun j st text hmem => h.errors j st text (by simpa using hmem)
        silent := fun _ =>
          List.forall_mem_append.mpr ⟨h.silent hopen, List.forall_mem_singleton.mpr rfl⟩
        last := h.last_snoc hopen _ }
  | done n text total =>
    simp only [Listener.hear] at hev
    split_ifs at hev with hc
    cases hev
    obtain ⟨hopen, hcur, rfl, rfl⟩ := hc
    exact
      { indices := (filterMap_none rfl).trans h.indices
        texts := (filterMap_none rfl).trans h.texts
        chunk := fun i text n stop lo hi kv hmem =>
          h.chunk i text n stop lo hi kv (by simpa using hmem)
        deltas := fun j => by rw [filterMap_none rfl, h.deltas j]
        done := fun n text total hmem => by
          rcases List.mem_append.mp hmem with hmem | hmem
          · exact h.done n text total hmem
          · cases List.mem_singleton.mp hmem
            exact ⟨rfl, rfl⟩
        errors := fun j st text hmem => h.errors j st text (by simpa using hmem)
        silent := fun hfalse => by cases hfalse
        last := h.last_snoc hopen _ }
  | error i st text =>
    simp only [Listener.hear] at hev
    split_ifs at hev with hc
    cases hev
    obtain ⟨hopen, hst⟩ := hc
    exact
      { indices := (filterMap_none rfl).trans h.indices
        texts := (filterMap_none rfl).trans h.texts
        chunk := fun i text n stop lo hi kv hmem =>
          h.chunk i text n stop lo hi kv (by simpa using hmem)
        deltas := fun j => by rw [filterMap_none rfl, h.deltas j]
        done := fun n text total hmem => h.done n text total (by simpa using hmem)
        errors := fun j st' text' hmem => by
          rcases List.mem_append.mp hmem with hmem | hmem
          · exact h.errors j st' text' hmem
          · cases List.mem_singleton.mp hmem
            exact hst
        silent := fun hfalse => by cases hfalse
        last := h.last_snoc hopen _ }

/-- **A whole sequence**: the promises hold of all events an accepting listener has heard. -/
theorem of_follows (h : l.Follows evs) : Heard evs l :=
  run_induct start (fun _ _ _ _ _ _ ih hs => ih.snoc hs) h

end Heard

end VibeVoice.Stream
