import VibeVoice.Stream.Geom

/-!
The chunk scheduler `vv_stream_chunker_*`.

The buffer is the whole allocation of `cap` cells.  What the allocator leaves in new cells is
arbitrary: a `Block` is what `vv_alloc` or `vv_realloc` answered, with the contents of its
fresh cells.

* `upstreamWindow`: window `i` of the upstream loop over a whole stream.
* `Tracks c xs i`: the chunker has been given the samples `xs` and has popped `i` windows.
* `Tracks.push`, `Tracks.next`, `Tracks.popUpTo`: what each operation does to it.
* `chunker_upstream`: the windows popped over a whole run are the upstream ones.
-/

namespace VibeVoice.Stream

/-- An answer of the allocator: nothing, or a block with these cells. -/
abbrev Block (α : Type) := Option (ℕ → α)

/-- `vv_stream_window_t` with the samples that `out` receives. -/
structure Window (α : Type) where
  index : ℕ
  start : ℕ
  nValid : ℕ
  isLast : Bool
  samples : List α
  deriving DecidableEq, Repr

/-- `vv_stream_chunker`. -/
structure Chunker (α : Type) where
  geom : Geom
  chunk : ℕ
  window : ℕ
  buf : List α
  cap : ℕ
  len : ℕ
  base : ℕ
  total : ℕ
  nextIdx : ℕ
  finished : Bool

variable {α : Type}

/-- `memcpy` and `memmove` into a buffer. -/
def overwrite (buf : List α) (off : ℕ) (src : List α) : List α :=
  buf.take off ++ src ++ buf.drop (off + src.length)

/-- The cells `[from, to)` of a block. -/
def cells (mem : ℕ → α) (lo hi : ℕ) : List α := (List.range' lo (hi - lo)).map mem

/-- `while (cap < need) cap *= 2`, which only ends for a nonempty buffer. -/
def growCap (cap need : ℕ) : ℕ :=
  if cap < need ∧ 0 < cap then growCap (cap * 2) need else cap
termination_by need - cap

/-- `vv_stream_chunker_create`, with the answer to the allocation of the buffer. -/
def chunkerCreate (g : Geom) (mem : Block α) : Except Status (Chunker α) := do
  geomValidate g
  let cap := (windowSamples g + chunkSamples g).toNat
  match mem with
  | none => .error .outOfMemory
  | some cell =>
    .ok
      { geom := g
        chunk := (chunkSamples g).toNat
        window := (windowSamples g).toNat
        buf := cells cell 0 cap
        cap := cap
        len := 0
        base := 0
        total := 0
        nextIdx := 0
        finished := false }

/-- `vv_stream_chunker_push`; `pcm` is `none` for a null pointer with a nonzero count. -/
def chunkerPush (c : Chunker α) (pcm : Option (List α)) (mem : Block α) :
    Except Status (Chunker α) :=
  if c.finished then .error .invalidArg
  else
    match pcm with
    | none => .error .nullPtr
    | some xs =>
      if xs.length = 0 then .ok c
      else if c.cap < c.len + xs.length then
        let cap := growCap c.cap (c.len + xs.length)
        match mem with
        | none => .error .outOfMemory
        | some cell =>
          .ok { c with
            buf := overwrite (c.buf ++ cells cell c.cap cap) c.len xs
            cap := cap
            len := c.len + xs.length
            total := c.total + xs.length }
      else
        .ok { c with
          buf := overwrite c.buf c.len xs
          len := c.len + xs.length
          total := c.total + xs.length }

/-- `vv_stream_chunker_finish`. -/
def chunkerFinish (c : Chunker α) : Chunker α := { c with finished := true }

/-- `vv_stream_chunker_ready`. -/
def chunkerReady (c : Chunker α) : ℕ :=
  let start := c.base
  if c.finished then
    if c.total ≤ start then 0 else (c.total - start + c.chunk - 1) / c.chunk
  else if c.total < start + c.window then 0
  else (c.total - start - c.window) / c.chunk + 1

/-- `vv_stream_chunker_next`. -/
def chunkerNext [Zero α] (c : Chunker α) : Option (Window α × Chunker α) :=
  if chunkerReady c = 0 then none
  else
    let avail := c.len
    let nValid := if avail < c.window then avail else c.window
    let drop := if avail < c.chunk then avail else c.chunk
    some
      ({ index := c.nextIdx
         start := c.base
         nValid := nValid
         isLast := c.finished && decide (c.total ≤ c.base + c.chunk)
         samples := c.buf.take nValid ++ List.replicate (c.window - nValid) 0 },
        { c with
          buf := overwrite c.buf 0 ((c.buf.drop drop).take (avail - drop))
          len := avail - drop
          base := c.base + c.chunk
          nextIdx := c.nextIdx + 1 })

/-- At most `n` windows popped one after another. -/
def popUpTo [Zero α] : ℕ → Chunker α → List (Window α) × Chunker α
  | 0, c => ([], c)
  | n + 1, c =>
    match chunkerNext c with
    | none => ([], c)
    | some (w, c) => let r := popUpTo n c; (w :: r.1, r.2)

/-- Windows are numbered in order. -/
lemma chunkerNext_index [Zero α] {c c' : Chunker α} {w : Window α}
    (h : chunkerNext c = some (w, c')) : w.index = c.nextIdx ∧ c'.nextIdx = c.nextIdx + 1 := by
  rw [chunkerNext] at h
  by_cases hready : chunkerReady c = 0
  · rw [if_pos hready] at h
    cases h
  · rw [if_neg hready] at h
    cases h
    exact ⟨rfl, rfl⟩

lemma popUpTo_index [Zero α] (n : ℕ) (c : Chunker α) :
    (popUpTo n c).1.map Window.index = List.range' c.nextIdx (popUpTo n c).1.length ∧
      (popUpTo n c).2.nextIdx = c.nextIdx + (popUpTo n c).1.length := by
  induction n generalizing c with
  | zero => exact ⟨rfl, rfl⟩
  | succ n ih =>
    rw [popUpTo]
    cases hnext : chunkerNext c with
    | none => exact ⟨rfl, rfl⟩
    | some r =>
      obtain ⟨hw, hc⟩ := chunkerNext_index hnext
      obtain ⟨hws, hlast⟩ := ih r.2
      constructor
      · simp [List.range'_succ, hw, hws, hc]
      · simp only [List.length_cons, hlast, hc]
        omega

lemma chunkerCreate_nextIdx {g : Geom} {mem : Block α} {c : Chunker α}
    (h : chunkerCreate g mem = .ok c) : c.nextIdx = 0 := by
  simp only [chunkerCreate] at h
  cases hv : geomValidate g with
  | error st =>
    rw [hv] at h
    cases h
  | ok u =>
    rw [hv] at h
    cases mem with
    | none => cases h
    | some cell =>
      cases h
      rfl

lemma chunkerPush_nextIdx {c c' : Chunker α} {pcm : Option (List α)} {mem : Block α}
    (h : chunkerPush c pcm mem = .ok c') : c'.nextIdx = c.nextIdx := by
  simp only [chunkerPush] at h
  split_ifs at h
  cases pcm with
  | none => cases h
  | some xs =>
    dsimp only at h
    split_ifs at h
    · cases h
      rfl
    · cases mem with
      | none => cases h
      | some cell =>
        cases h
        rfl
    · cases h
      rfl

/-! ### The upstream loop -/

/-- Window `i` of the upstream loop over the stream `xs`, with chunks of `C` samples and windows
of `W`: the samples from `i * C` on, with zeros for the missing part. -/
def upstreamWindow [Zero α] (C W : ℕ) (xs : List α) (i : ℕ) (isLast : Bool) : Window α where
  index := i
  start := i * C
  nValid := min W (xs.length - i * C)
  isLast := isLast
  samples := (xs.drop (i * C)).take (min W (xs.length - i * C)) ++
    List.replicate (W - min W (xs.length - i * C)) 0

/-- A window that lies inside the stream does not change when more samples arrive. -/
lemma upstreamWindow_append [Zero α] {C W i : ℕ} {xs : List α} (h : i * C + W ≤ xs.length)
    (ys : List α) (isLast : Bool) :
    upstreamWindow C W (xs ++ ys) i isLast = upstreamWindow C W xs i isLast := by
  have hmin : min W (xs.length - i * C) = W := by omega
  have hmin' : min W ((xs ++ ys).length - i * C) = W := by
    rw [List.length_append]; omega
  have htake : ((xs ++ ys).drop (i * C)).take W = (xs.drop (i * C)).take W := by
    rw [List.drop_append_of_le_length (by omega), List.take_append_of_le_length]
    rw [List.length_drop]; omega
  simp only [upstreamWindow, hmin, hmin', htake]

/-! ### The buffer -/

lemma take_overwrite {buf src : List α} {off : ℕ} (hoff : off ≤ buf.length) :
    (overwrite buf off src).take (off + src.length) = buf.take off ++ src := by
  refine List.take_left' ?_
  rw [List.length_append, List.length_take, Nat.min_eq_left hoff]

lemma length_overwrite {buf src : List α} {off : ℕ} (h : off + src.length ≤ buf.length) :
    (overwrite buf off src).length = buf.length := by
  simp only [overwrite, List.length_append, List.length_take, List.length_drop]
  omega

lemma length_cells (mem : ℕ → α) (lo hi : ℕ) : (cells mem lo hi).length = hi - lo := by
  simp [cells]

lemma le_growCap (cap need : ℕ) (h : 0 < cap) :
    need ≤ growCap cap need ∧ cap ≤ growCap cap need := by
  fun_induction growCap cap need with
  | case1 cap hc ih =>
    obtain ⟨h₁, h₂⟩ := ih (by omega)
    exact ⟨h₁, by omega⟩
  | case2 cap hc => omega

/-! ### What the chunker keeps -/

/-- The chunker was given the samples `xs` and has popped `i` windows: the buffer holds the
samples from `i * C` on. -/
structure Tracks (C W : ℕ) (c : Chunker α) (xs : List α) (i : ℕ) : Prop where
  chunk : c.chunk = C
  window : c.window = W
  chunk_pos : 0 < C
  le_window : C ≤ W
  cap : c.buf.length = c.cap
  cap_pos : 0 < c.cap
  fits : c.len ≤ c.cap
  base : c.base = i * C
  total : c.total = xs.length
  nextIdx : c.nextIdx = i
  held : c.buf.take c.len = xs.drop (i * C)
  inside : c.finished = false → i * C ≤ xs.length

section Tracks

variable {C W i : ℕ} {c : Chunker α} {xs : List α}

lemma Tracks.len (h : Tracks C W c xs i) : c.len = xs.length - i * C := by
  have hlen := congrArg List.length h.held
  rw [List.length_take, h.cap, Nat.min_eq_left h.fits, List.length_drop] at hlen
  exact hlen

lemma Tracks.create {g : Geom} {mem : Block α} (hw : g.NoWrap)
    (h : chunkerCreate g mem = .ok c) :
    Tracks (chunkSamples g).toNat (windowSamples g).toNat c [] 0 ∧ c.finished = false := by
  simp only [chunkerCreate] at h
  cases hv : geomValidate g with
  | error st => rw [hv] at h; cases h
  | ok u =>
    rw [hv] at h
    cases mem with
    | none => cases h
    | some cell =>
      cases h
      have hpos := chunkSamples_pos hv
      have hle := chunkSamples_le_windowSamples hv hw
      refine ⟨⟨rfl, rfl, by omega, by omega, by simp [length_cells], ?_, Nat.zero_le _,
        (Nat.zero_mul _).symm, rfl, rfl, by simp, by simp⟩, rfl⟩
      show 0 < (windowSamples g + chunkSamples g).toNat
      omega

lemma Tracks.finish (h : Tracks C W c xs i) : Tracks C W (chunkerFinish c) xs i :=
  ⟨h.chunk, h.window, h.chunk_pos, h.le_window, h.cap, h.cap_pos, h.fits, h.base, h.total,
    h.nextIdx, h.held, by simp [chunkerFinish]⟩

/-- The samples pushed stand behind the ones held. -/
lemma Tracks.append {buf ys : List α} {cap : ℕ} (h : Tracks C W c xs i)
    (hbuf : buf.take c.len = c.buf.take c.len) (hcap : buf.length = cap) (hle : c.cap ≤ cap)
    (hfits : c.len + ys.length ≤ cap) (hfin : c.finished = false) :
    Tracks C W { c with
      buf := overwrite buf c.len ys
      cap := cap
      len := c.len + ys.length
      total := c.total + ys.length } (xs ++ ys) i where
  chunk := h.chunk
  window := h.window
  chunk_pos := h.chunk_pos
  le_window := h.le_window
  cap := by rw [length_overwrite (by omega), hcap]
  cap_pos := lt_of_lt_of_le h.cap_pos hle
  fits := hfits
  base := h.base
  total := by rw [List.length_append, h.total]
  nextIdx := h.nextIdx
  held := by
    show (overwrite buf c.len ys).take (c.len + ys.length) = (xs ++ ys).drop (i * C)
    rw [take_overwrite (by omega), hbuf, h.held,
      List.drop_append_of_le_length (h.inside hfin)]
  inside _ := by
    rw [List.length_append]
    exact Nat.le_add_right_of_le (h.inside hfin)

/-- A push that succeeds appends its samples, and one that fails changes nothing. -/
theorem Tracks.push {pcm : Option (List α)} {mem : Block α} {c' : Chunker α}
    (h : Tracks C W c xs i) (hp : chunkerPush c pcm mem = .ok c') :
    ∃ ys, pcm = some ys ∧ Tracks C W c' (xs ++ ys) i ∧ c'.finished = c.finished := by
  simp only [chunkerPush] at hp
  split_ifs at hp with hfin
  rw [Bool.not_eq_true] at hfin
  cases pcm with
  | none => cases hp
  | some ys =>
    refine ⟨ys, rfl, ?_⟩
    simp only at hp
    split_ifs at hp with hempty hgrow
    · cases hp
      rw [List.length_eq_zero_iff.mp hempty, List.append_nil]
      exact ⟨h, rfl⟩
    · cases mem with
      | none => cases hp
      | some cell =>
        cases hp
        obtain ⟨hneed, hle⟩ := le_growCap c.cap (c.len + ys.length) h.cap_pos
        refine ⟨h.append ?_ ?_ hle hneed hfin, rfl⟩
        · rw [List.take_append_of_le_length (by rw [h.cap]; exact h.fits)]
        · rw [List.length_append, length_cells, h.cap]; omega
    · cases hp
      exact ⟨h.append rfl h.cap le_rfl (by omega) hfin, rfl⟩

/-! ### Readiness -/

/-- The windows that are ready: after finish those that start inside the stream, before it those
that lie inside it. -/
lemma Tracks.ready (h : Tracks C W c xs i) :
    chunkerReady c = if c.finished then (xs.length - i * C) ⌈/⌉ C
      else if xs.length < i * C + W then 0 else (xs.length - i * C - W) / C + 1 := by
  simp only [chunkerReady, h.chunk, h.window, h.base, h.total, Nat.ceilDiv_eq_add_pred_div]
  split_ifs with hfin hstart hwin
  · have hpos := h.chunk_pos
    rw [Nat.div_eq_of_lt (by omega)]
  · rfl
  · rfl
  · rfl

/-- A window is ready when it starts inside the finished stream, or lies inside the stream. -/
lemma Tracks.ready_ne_zero (h : Tracks C W c xs i) :
    chunkerReady c ≠ 0 ↔ if c.finished then i * C < xs.length else i * C + W ≤ xs.length := by
  have hpos := h.chunk_pos
  rw [h.ready]
  split_ifs with hfin hwin
  · rw [← Nat.pos_iff_ne_zero, Nat.ceilDiv_eq_add_pred_div, Nat.div_pos_iff]
    omega
  · simpa using hwin
  · simpa using hwin

/-- Popping takes exactly one window off the count. -/
lemma ready_sub {C W n i : ℕ} (hC : 0 < C) (fin : Bool)
    (hready : if fin then i * C < n else i * C + W ≤ n) :
    (if fin then (n - (i + 1) * C) ⌈/⌉ C
      else if n < (i + 1) * C + W then 0 else (n - (i + 1) * C - W) / C + 1) + 1
      = if fin then (n - i * C) ⌈/⌉ C
        else if n < i * C + W then 0 else (n - i * C - W) / C + 1 := by
  have hstep : (i + 1) * C = i * C + C := by ring
  cases fin with
  | true =>
    simp only [if_true, Nat.ceilDiv_eq_add_pred_div] at hready ⊢
    rw [hstep]
    by_cases hlast : n ≤ i * C + C
    · have h₁ : (n - (i * C + C) + C - 1) / C = 0 := Nat.div_eq_of_lt (by omega)
      have h₂ : (n - i * C + C - 1) / C = 1 := by
        rw [Nat.div_eq_iff hC]
        omega
      rw [h₁, h₂]
    · have hsplit : n - i * C + C - 1 = n - (i * C + C) + C - 1 + C := by omega
      rw [hsplit, Nat.add_div_right _ hC]
  | false =>
    simp only [Bool.false_eq_true, if_false] at hready ⊢
    rw [if_neg (by omega : ¬ n < i * C + W), hstep]
    split_ifs with hlast
    · rw [Nat.div_eq_of_lt (by omega)]
    · have hsplit : n - i * C - W = n - (i * C + C) - W + C := by omega
      rw [hsplit, Nat.add_div_right _ hC]

/-! ### Popping -/

/-- Compaction keeps the samples behind the first `drop` ones. -/
lemma take_compact {buf : List α} {len drop : ℕ} (hlen : len ≤ buf.length) (hdrop : drop ≤ len) :
    (overwrite buf 0 ((buf.drop drop).take (len - drop))).take (len - drop)
      = (buf.take len).drop drop := by
  have hsrc : ((buf.drop drop).take (len - drop)).length = len - drop := by
    rw [List.length_take, List.length_drop]; omega
  have h := @take_overwrite _ buf ((buf.drop drop).take (len - drop)) 0 (Nat.zero_le _)
  rw [hsrc, Nat.zero_add] at h
  rw [h, List.take_zero, List.nil_append, List.drop_take]

/-- One stride further, the samples of the chunk leave the buffer. -/
lemma Tracks.advance (h : Tracks C W c xs i)
    (hinside : if c.finished then i * C < xs.length else i * C + W ≤ xs.length) (drop : ℕ)
    (hdrop : drop = if c.len < C then c.len else C) :
    Tracks C W { c with
      buf := overwrite c.buf 0 ((c.buf.drop drop).take (c.len - drop))
      len := c.len - drop
      base := c.base + c.chunk
      nextIdx := c.nextIdx + 1 } xs (i + 1) := by
  have hlen := h.len
  have hfits := h.fits
  have hle := h.le_window
  have hstep : (i + 1) * C = i * C + C := by ring
  have hdle : drop ≤ c.len := by rw [hdrop]; split_ifs <;> omega
  refine ⟨h.chunk, h.window, h.chunk_pos, h.le_window, ?_, h.cap_pos,
    le_trans (Nat.sub_le _ _) hfits, ?_, h.total, by rw [h.nextIdx], ?_, fun hfin => ?_⟩
  · rw [length_overwrite, h.cap]
    rw [List.length_take, List.length_drop, h.cap]
    omega
  · rw [hstep, ← h.base, ← h.chunk]
  · show (overwrite c.buf 0 ((c.buf.drop drop).take (c.len - drop))).take (c.len - drop) = _
    rw [take_compact (by rw [h.cap]; exact hfits) hdle, h.held, List.drop_drop, hstep, hdrop]
    -- past the end of the stream nothing is left on either side
    split_ifs with hshort
    · rw [List.drop_of_length_le (by omega), List.drop_of_length_le (by omega)]
    · rfl
  · have hfin' : c.finished = false := hfin
    rw [hfin'] at hinside
    simp only [Bool.false_eq_true, if_false] at hinside
    omega

/-- A ready window pops as the upstream one, and the chunker goes on to the next. -/
theorem Tracks.next [Zero α] (h : Tracks C W c xs i) (hready : chunkerReady c ≠ 0) :
    ∃ c', chunkerNext c = some
        (upstreamWindow C W xs i (c.finished && decide (xs.length ≤ i * C + C)), c') ∧
      Tracks C W c' xs (i + 1) ∧ c'.finished = c.finished ∧
      chunkerReady c' + 1 = chunkerReady c := by
  have hlen := h.len
  have hinside := h.ready_ne_zero.mp hready
  have htracks := h.advance hinside _ rfl
  have hmin : (if c.len < W then c.len else W) = min W (xs.length - i * C) := by
    split_ifs <;> omega
  have hbuf : c.buf.take (min W (xs.length - i * C))
      = (xs.drop (i * C)).take (min W (xs.length - i * C)) := by
    rw [← h.held, List.take_take]
    congr 1
    omega
  refine ⟨_, ?_, htracks, rfl, ?_⟩
  · rw [chunkerNext, if_neg hready]
    simp only [upstreamWindow, h.chunk, h.window, h.base, h.total, h.nextIdx, hmin, hbuf]
  · rw [htracks.ready, h.ready]
    exact ready_sub h.chunk_pos c.finished hinside

lemma chunkerNext_eq_none [Zero α] (h : chunkerReady c = 0) : chunkerNext c = none := by
  rw [chunkerNext, if_pos h]

/-- Popping takes the next ready windows, as many as asked for. -/
theorem Tracks.popUpTo [Zero α] (h : Tracks C W c xs i) (n : ℕ) :
    (popUpTo n c).1 = ((List.range' i (min n (chunkerReady c))).map fun j =>
        upstreamWindow C W xs j (c.finished && decide (xs.length ≤ j * C + C))) ∧
      Tracks C W (popUpTo n c).2 xs (i + min n (chunkerReady c)) ∧
      (popUpTo n c).2.finished = c.finished := by
  induction n generalizing c i with
  | zero => simpa [Stream.popUpTo] using h
  | succ n ih =>
    by_cases hready : chunkerReady c = 0
    · simpa [Stream.popUpTo, chunkerNext_eq_none hready, hready] using h
    · obtain ⟨c', hnext, htracks, hfin, hcount⟩ := h.next hready
      obtain ⟨hpop, hrest, hflag⟩ := ih htracks
      have hmin : min (n + 1) (chunkerReady c) = min n (chunkerReady c') + 1 := by omega
      have hadd : i + (min n (chunkerReady c') + 1) = i + 1 + min n (chunkerReady c') := by
        omega
      rw [Stream.popUpTo, hnext]
      rw [hmin, hadd, List.range'_succ, List.map_cons, ← hfin]
      exact ⟨congrArg (List.cons _) hpop, hrest, hflag⟩

/-- `vv_stream_chunker_ready` is the number of windows that would pop now. -/
lemma Tracks.length_popUpTo [Zero α] (h : Tracks C W c xs i) (n : ℕ) :
    (Stream.popUpTo n c).1.length = min n (chunkerReady c) := by
  rw [(h.popUpTo n).1, List.length_map, List.length_range']

/-- Every window popped is one less to pop. -/
lemma Tracks.ready_popUpTo [Zero α] (h : Tracks C W c xs i) (n : ℕ) :
    chunkerReady (Stream.popUpTo n c).2 + min n (chunkerReady c) = chunkerReady c := by
  induction n generalizing c i with
  | zero => simp [Stream.popUpTo]
  | succ n ih =>
    by_cases hready : chunkerReady c = 0
    · simp [Stream.popUpTo, chunkerNext_eq_none hready, hready]
    · obtain ⟨c', hnext, htracks, _, hcount⟩ := h.next hready
      have hrest := ih htracks
      rw [Stream.popUpTo, hnext]
      dsimp only
      omega

end Tracks

/-! ### A whole run -/

/-- What a caller does before it finishes the chunker. -/
inductive Op (α : Type)
  | push (pcm : Option (List α)) (mem : Block α)
  | next

/-- A chunker in use, with the samples it has accepted and the windows popped from it. -/
structure Feed (α : Type) where
  chunker : Chunker α
  stream : List α
  popped : List (Window α)

/-- One operation. -/
def Feed.op [Zero α] (f : Feed α) : Op α → Feed α
  | .push pcm mem =>
    match chunkerPush f.chunker pcm mem with
    | .ok c => { f with chunker := c, stream := f.stream ++ pcm.getD [] }
    | .error _ => f
  | .next =>
    match chunkerNext f.chunker with
    | some (w, c) => { f with chunker := c, popped := f.popped ++ [w] }
    | none => f

/-- A run of a new chunker. -/
def feed [Zero α] (c : Chunker α) (ops : List (Op α)) : Feed α :=
  ops.foldl Feed.op { chunker := c, stream := [], popped := [] }

/-- What holds of a chunker in use: it has popped the first windows of its stream, each of them
inside the stream. -/
structure Feed.Good [Zero α] (C W : ℕ) (f : Feed α) : Prop where
  tracks : Tracks C W f.chunker f.stream f.popped.length
  unfinished : f.chunker.finished = false
  popped : f.popped = (List.range f.popped.length).map fun i =>
    upstreamWindow C W f.stream i false
  arrived : ∀ i < f.popped.length, i * C + W ≤ f.stream.length

/-- Every operation before finish keeps this. -/
lemma Feed.Good.op [Zero α] {C W : ℕ} {f : Feed α} (h : f.Good C W) (o : Op α) :
    (f.op o).Good C W := by
  cases o with
  | push pcm mem =>
    simp only [Feed.op]
    cases hp : chunkerPush f.chunker pcm mem with
    | error st => exact h
    | ok c =>
      obtain ⟨ys, rfl, htracks, hfin⟩ := h.tracks.push hp
      refine ⟨htracks, hfin.trans h.unfinished, h.popped.trans ?_, fun i hi => ?_⟩
      · refine List.map_congr_left fun i hi => ?_
        exact (upstreamWindow_append (h.arrived i (List.mem_range.mp hi)) ys false).symm
      · rw [List.length_append]
        exact Nat.le_add_right_of_le (h.arrived i hi)
  | next =>
    simp only [Feed.op]
    by_cases hready : chunkerReady f.chunker = 0
    · rw [chunkerNext_eq_none hready]
      exact h
    · obtain ⟨c', hnext, htracks, hfin, _⟩ := h.tracks.next hready
      have hinside := h.tracks.ready_ne_zero.mp hready
      rw [h.unfinished] at hnext hfin hinside
      rw [hnext]
      have hlen : (f.popped ++ [upstreamWindow C W f.stream f.popped.length false]).length
          = f.popped.length + 1 := List.length_append
      refine ⟨?_, hfin, ?_, fun i hi => ?_⟩
      · simpa [hlen] using htracks
      · simp only [Bool.false_and, hlen, List.range_succ, List.map_append, List.map_cons,
          List.map_nil]
        rw [← h.popped]
      · simp only [Bool.false_eq_true, if_false] at hinside
        simp only [Bool.false_and, hlen] at hi
        rcases Nat.lt_succ_iff_lt_or_eq.mp hi with hi | rfl
        · exact h.arrived i hi
        · exact hinside

lemma Feed.Good.feed [Zero α] {g : Geom} {mem : Block α} {c : Chunker α} (hw : g.NoWrap)
    (h : chunkerCreate g mem = .ok c) (ops : List (Op α)) :
    (feed c ops).Good (chunkSamples g).toNat (windowSamples g).toNat := by
  obtain ⟨htracks, hfin⟩ := Tracks.create hw h
  have hnew : Feed.Good (chunkSamples g).toNat (windowSamples g).toNat
      { chunker := c, stream := [], popped := [] } := ⟨htracks, hfin, rfl, by simp⟩
  rw [Stream.feed]
  generalize ({ chunker := c, stream := [], popped := [] } : Feed α) = f at hnew
  induction ops generalizing f with
  | nil => exact hnew
  | cons o ops ih => exact ih (f.op o) (hnew.op o)

/-- The samples of a push that is given a buffer and, should it need one, a larger block. -/
def Op.samples : Op α → Option (List α)
  | .push (some xs) (some _) => some xs
  | .push _ _ => none
  | .next => some []

/-- Before finish a push that is given both succeeds. -/
lemma chunkerPush_ok {c : Chunker α} (hfin : c.finished = false) (xs : List α) (cell : ℕ → α) :
    ∃ c', chunkerPush c (some xs) (some cell) = .ok c' := by
  simp only [chunkerPush, hfin, Bool.false_eq_true, if_false]
  split_ifs <;> exact ⟨_, rfl⟩

/-- Before finish such a push is accepted. -/
lemma Feed.op_stream [Zero α] {f : Feed α} (hfin : f.chunker.finished = false) {o : Op α}
    {xs : List α} (ho : o.samples = some xs) : (f.op o).stream = f.stream ++ xs := by
  cases o with
  | next =>
    cases ho
    simp only [Feed.op, List.append_nil]
    cases chunkerNext f.chunker <;> rfl
  | push pcm mem =>
    cases pcm with
    | none => cases ho
    | some ys =>
      cases mem with
      | none => cases ho
      | some cell =>
        cases ho
        obtain ⟨c', hc'⟩ := chunkerPush_ok hfin xs cell
        simp [Feed.op, hc']

/-- A run whose pushes are all accepted has the stream they spell. -/
lemma feed_stream [Zero α] {g : Geom} {mem : Block α} {c : Chunker α} (hw : g.NoWrap)
    (h : chunkerCreate g mem = .ok c) {ops : List (Op α)} {pieces : List (List α)}
    (hops : ops.map Op.samples = pieces.map some) : (feed c ops).stream = pieces.flatten := by
  induction ops using List.reverseRecOn generalizing pieces with
  | nil =>
    have hnil : pieces = [] := by simpa using hops.symm
    rw [hnil]; rfl
  | append_singleton ops o ih =>
    rcases List.eq_nil_or_concat' pieces with rfl | ⟨rest, xs, rfl⟩
    · simp at hops
    · simp only [List.map_append, List.map_cons, List.map_nil] at hops
      obtain ⟨hrest, ho⟩ := List.append_inj' hops rfl
      have hgood := Feed.Good.feed hw h ops
      rw [feed, List.foldl_concat, ← feed]
      rw [Feed.op_stream hgood.unfinished (List.singleton_inj.mp ho), ih hrest]
      simp

/-! ### The upstream loop over a whole run -/

/-- A run of the chunker is the upstream loop over the samples it accepted, with `k` windows
popped before finish: what it has popped, what is ready now and what is left after finish. -/
structure Feed.Upstream [Zero α] (C W : ℕ) (f : Feed α) : Prop where
  before : f.popped = (List.range f.popped.length).map fun i => upstreamWindow C W f.stream i false
  ready : ∀ i, i < f.popped.length + chunkerReady f.chunker ↔ i * C + W ≤ f.stream.length
  pops : ∀ n, (popUpTo n f.chunker).1.length = min n (chunkerReady f.chunker)
  readyAfter : ∀ m, f.popped.length + (popUpTo m (chunkerFinish f.chunker)).1.length +
    chunkerReady (popUpTo m (chunkerFinish f.chunker)).2 = f.stream.length ⌈/⌉ C
  popsAfter : ∀ m n, (popUpTo n (popUpTo m (chunkerFinish f.chunker)).2).1.length
    = min n (chunkerReady (popUpTo m (chunkerFinish f.chunker)).2)
  all : ∀ n, f.stream.length ⌈/⌉ C ≤ f.popped.length + n →
    f.popped ++ (popUpTo n (chunkerFinish f.chunker)).1
      = (List.range (f.stream.length ⌈/⌉ C)).map fun i =>
          upstreamWindow C W f.stream i
            (decide (f.popped.length ≤ i ∧ i + 1 = f.stream.length ⌈/⌉ C))

/-- Window `j` of a stream is the last one when the stream ends in its chunk. -/
lemma isLast_iff {C n j : ℕ} (hC : 0 < C) (hj : j < n ⌈/⌉ C) :
    n ≤ j * C + C ↔ j + 1 = n ⌈/⌉ C := by
  have hle : n ⌈/⌉ C ≤ j + 1 ↔ n ≤ j * C + C := by
    rw [ceilDiv_le_iff_le_smul hC, smul_eq_mul, mul_comm, add_mul, one_mul]
  omega

/-- After finish the windows that are left are ready. -/
lemma Tracks.ready_finished {C W i : ℕ} {c : Chunker α} {xs : List α} (h : Tracks C W c xs i)
    (hfin : c.finished = true) : chunkerReady c = xs.length ⌈/⌉ C - i := by
  rw [h.ready, hfin, if_pos rfl]
  refine eq_of_forall_ge_iff fun m => ?_
  rw [ceilDiv_le_iff_le_smul h.chunk_pos, tsub_le_iff_right, tsub_le_iff_right,
    ceilDiv_le_iff_le_smul h.chunk_pos, smul_eq_mul, smul_eq_mul, mul_add, mul_comm i C]

/-- Before finish the windows that are ready are the next ones inside the stream. -/
lemma Tracks.lt_ready_iff {C W k : ℕ} {c : Chunker α} {xs : List α} (h : Tracks C W c xs k)
    (hfin : c.finished = false) (harr : ∀ i < k, i * C + W ≤ xs.length) (i : ℕ) :
    i < k + chunkerReady c ↔ i * C + W ≤ xs.length := by
  rcases Nat.lt_or_ge i k with hik | hki
  · exact ⟨fun _ => harr i hik, fun _ => by omega⟩
  · obtain ⟨d, rfl⟩ := Nat.exists_eq_add_of_le hki
    have hmul : (k + d) * C = k * C + d * C := add_mul k d C
    rw [h.ready, hfin, if_neg Bool.false_ne_true]
    split_ifs with hshort
    · omega
    · have hdiv : d ≤ (xs.length - k * C - W) / C ↔ d * C ≤ xs.length - k * C - W :=
        Nat.le_div_iff_mul_le h.chunk_pos
      omega

lemma Feed.Good.popped_le [Zero α] {C W : ℕ} {f : Feed α} (h : f.Good C W) :
    f.popped.length ≤ f.stream.length ⌈/⌉ C := by
  have hpos := h.tracks.chunk_pos
  have hinside := h.tracks.inside h.unfinished
  by_contra hlt
  have hle : f.stream.length ⌈/⌉ C ≤ f.popped.length - 1 := by omega
  rw [ceilDiv_le_iff_le_smul hpos, smul_eq_mul, mul_comm] at hle
  have hstep : f.popped.length * C = (f.popped.length - 1) * C + C := by
    obtain ⟨k, hk⟩ : ∃ k, f.popped.length = k + 1 := ⟨f.popped.length - 1, by omega⟩
    rw [hk, Nat.add_sub_cancel]
    ring
  omega

/-- What a run keeps makes it the upstream loop. -/
theorem Feed.Good.upstream [Zero α] {C W : ℕ} {f : Feed α} (h : f.Good C W) :
    f.Upstream C W := by
  have hpos := h.tracks.chunk_pos
  have hle := h.popped_le
  have hfinish := h.tracks.finish
  have hleft := hfinish.ready_finished rfl
  refine ⟨h.popped, h.tracks.lt_ready_iff h.unfinished h.arrived, h.tracks.length_popUpTo,
    fun m => ?_, fun m n => ?_, fun n hn => ?_⟩
  · obtain ⟨_, hrest, hfin⟩ := hfinish.popUpTo m
    rw [hfinish.length_popUpTo, hrest.ready_finished hfin, hleft]
    omega
  · exact (hfinish.popUpTo m).2.1.length_popUpTo n
  · have hall : min n (chunkerReady (chunkerFinish f.chunker))
        = f.stream.length ⌈/⌉ C - f.popped.length := by omega
    have hsplit : List.range (f.stream.length ⌈/⌉ C) = List.range f.popped.length ++
        List.range' f.popped.length (f.stream.length ⌈/⌉ C - f.popped.length) := by
      have happ := @List.range'_append_1 0 f.popped.length
        (f.stream.length ⌈/⌉ C - f.popped.length)
      rw [Nat.zero_add, Nat.add_sub_cancel' hle] at happ
      rw [List.range_eq_range', List.range_eq_range', happ]
    rw [(hfinish.popUpTo n).1, hall, hsplit, List.map_append]
    congr 1
    · refine h.popped.trans (List.map_congr_left fun i hi => ?_)
      have hi := List.mem_range.mp hi
      rw [decide_eq_false (by omega)]
    · refine List.map_congr_left fun j hj => ?_
      have hj := List.mem_range'_1.mp hj
      have hlast := isLast_iff (n := f.stream.length) hpos (j := j) (by omega)
      congr 1
      simp only [chunkerFinish, Bool.true_and, hlast]
      exact decide_eq_decide.mpr ⟨fun h => ⟨hj.1, h⟩, fun h => h.2⟩

/-- **The chunk scheduler is the upstream chunk loop**: for every valid geometry, however the
stream is split into pushes and wherever windows are popped between them. -/
theorem chunker_upstream [Zero α] (g : Geom) (cell : ℕ → α) (ops : List (Op α))
    (hv : geomValidate g = .ok ()) (hw : g.NoWrap) :
    ∃ c, chunkerCreate g (some cell) = .ok c ∧
      (feed c ops).Upstream (chunkSamples g).toNat (windowSamples g).toNat ∧
      nWindows g (feed c ops).stream.length
        = (((feed c ops).stream.length ⌈/⌉ (chunkSamples g).toNat : ℕ) : ℤ) ∧
      ∀ pieces : List (List α), ops.map Op.samples = pieces.map some →
        (feed c ops).stream = pieces.flatten := by
  have hcreate : ∃ c, chunkerCreate g (some cell) = .ok c := by
    simp only [chunkerCreate, hv]
    exact ⟨_, rfl⟩
  obtain ⟨c, hc⟩ := hcreate
  exact ⟨c, hc, (Feed.Good.feed hw hc ops).upstream, nWindows_eq_ceilDiv hv _,
    fun pieces hops => feed_stream hw hc hops⟩

/-- Chunks of two samples with one sample of lookahead, five samples pushed in two pieces. -/
theorem chunker_upstream_five :
    ∃ c, chunkerCreate ⟨1, 1, 2, 1, false⟩ (some fun _ => (9 : ℤ)) = .ok c ∧
      (feed c [.push (some [1, 2, 3, 4]) (some fun _ => 9), .next,
        .push (some [5]) (some fun _ => 9)]).Upstream 2 3 := by
  obtain ⟨c, hc, hup, _⟩ := chunker_upstream ⟨1, 1, 2, 1, false⟩ (fun _ => (9 : ℤ))
    [.push (some [1, 2, 3, 4]) (some fun _ => 9), .next, .push (some [5]) (some fun _ => 9)]
    (by decide) (by decide)
  exact ⟨c, hc, hup⟩

end VibeVoice.Stream
