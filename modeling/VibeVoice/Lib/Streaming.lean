import Mathlib.Data.List.Basic

/-!
Machines of several layers that take a signal in chunks and give out, layer by layer, the columns
of a function of all of it.

A step takes a state, whether the chunk is the last one, and the chunk; it may fail.

* `Out`: the columns of every layer, and what leaves the machine.
* `Computes`: an invariant by which the chunks of any cut give out `whole` of their concatenation.
* `Computes.feeds`, `Computes.run`: the rules for a run over chunks.
* `Computes.comp`: one machine feeding another one.
* `Computes.buffered`: a machine that waits for enough input.
* `Computes.of_sim`: a machine that follows another one.
* `Law`: the same from a start on, its invariant left out; it composes in the same ways.
-/

namespace VibeVoice.Streaming

variable {α σ τ : Type}

/-! ### Columns by layer -/

/-- The columns of every layer, and those that leave the machine. -/
structure Out (α : Type) where
  layers : List (List α)
  out : List α

/-- More columns behind those there are. -/
def Out.join (z y : Out α) : Out α := ⟨List.zipWith (· ++ ·) z.layers y.layers, z.out ++ y.out⟩

/-- No columns in any of `n` layers. -/
def Out.none (α : Type) (n : ℕ) : Out α := ⟨List.replicate n [], []⟩

/-- The layers of a machine behind those of the one that feeds it. -/
def Out.andThen (z₁ z₂ : Out α) : Out α := ⟨z₁.layers ++ z₂.layers, z₂.out⟩

section Join

variable {z y z₁ z₂ y₁ y₂ : Out α}

lemma Out.length_join (h : z.layers.length = y.layers.length) :
    (z.join y).layers.length = z.layers.length := by
  rw [Out.join, List.length_zipWith, h, Nat.min_self]

lemma zipWith_append_assoc (as bs cs : List (List α)) :
    List.zipWith (· ++ ·) (List.zipWith (· ++ ·) as bs) cs =
      List.zipWith (· ++ ·) as (List.zipWith (· ++ ·) bs cs) := by
  induction as generalizing bs cs with
  | nil => rfl
  | cons a as ih =>
    cases bs with
    | nil => rfl
    | cons b bs =>
      cases cs with
      | nil => rfl
      | cons c cs => exact congrArg₂ List.cons (List.append_assoc _ _ _) (ih bs cs)

lemma Out.join_assoc (z y w : Out α) : (z.join y).join w = z.join (y.join w) :=
  congrArg₂ Out.mk (zipWith_append_assoc _ _ _) (List.append_assoc _ _ _)

lemma Out.join_andThen (h : z₁.layers.length = y₁.layers.length) :
    (z₁.andThen z₂).join (y₁.andThen y₂) = (z₁.join y₁).andThen (z₂.join y₂) :=
  congrArg₂ Out.mk (List.zipWith_append h) rfl

lemma Out.join_none {n : ℕ} (h : z.layers.length = n) : z.join (.none α n) = z := by
  obtain ⟨layers, out⟩ := z
  refine congrArg₂ Out.mk ?_ (List.append_nil out)
  induction layers generalizing n with
  | nil => rfl
  | cons zs layers ih =>
    cases n with
    | zero => exact nomatch h
    | succ n => exact congrArg₂ List.cons (List.append_nil zs) (ih (Nat.succ.inj h))

lemma Out.none_join {n : ℕ} (h : z.layers.length = n) : (Out.none α n).join z = z := by
  obtain ⟨layers, out⟩ := z
  refine congrArg₂ Out.mk ?_ (List.nil_append out)
  induction layers generalizing n with
  | nil => exact List.zipWith_nil_right
  | cons zs layers ih =>
    cases n with
    | zero => exact nomatch h
    | succ n => exact congrArg₂ List.cons (List.nil_append zs) (ih (Nat.succ.inj h))

end Join

/-! ### Machines -/

/-- A step of a machine, `true` for the last chunk. -/
abbrev Step (α σ : Type) := σ → Bool → List α → Option (Out α × σ)

/-- `I xs z s`: in state `s` the machine of `n` layers has taken `xs` and given out `z`. -/
structure Computes (T : Step α σ) (n : ℕ) (whole : List α → Out α)
    (I : List α → Out α → σ → Prop) (done : σ → Prop) : Prop where
  length : ∀ {xs z s}, I xs z s → z.layers.length = n
  feed : ∀ {xs z s}, I xs z s → ∀ cs,
    ∃ y s', T s false cs = some (y, s') ∧ y.layers.length = n ∧ I (xs ++ cs) (z.join y) s'
  finish : ∀ {xs z s}, I xs z s → ∀ cs,
    ∃ y s', T s true cs = some (y, s') ∧ y.layers.length = n ∧ z.join y = whole (xs ++ cs) ∧
      done s'

/-- The state behind chunks that are not the last one. -/
def feeds (T : Step α σ) (s : σ) (chunks : List (List α)) : Option σ :=
  chunks.foldlM (fun s cs => (T s false cs).map Prod.snd) s

/-- Chunks in a row, and the last one. -/
def run (T : Step α σ) : σ → List (List α) → List α → Option (Out α × σ)
  | s, [], last => T s true last
  | s, cs :: rest, last =>
    (T s false cs).bind fun r => (run T r.2 rest last).map fun r' => (r.1.join r'.1, r'.2)

section Run

variable {T : Step α σ} {n : ℕ} {whole : List α → Out α} {I : List α → Out α → σ → Prop}
  {done : σ → Prop}

/-- The invariant holds behind every chunk. -/
theorem Computes.feeds (h : Computes T n whole I done) {xs : List α} {z : Out α} {s : σ}
    (hs : I xs z s) (chunks : List (List α)) :
    ∃ z' s', Streaming.feeds T s chunks = some s' ∧ I (xs ++ chunks.flatten) z' s' := by
  induction chunks generalizing xs z s with
  | nil =>
    refine ⟨z, s, rfl, ?_⟩
    rwa [List.flatten_nil, List.append_nil]
  | cons cs rest ih =>
    obtain ⟨y, s₁, hstep, -, h₁⟩ := h.feed hs cs
    obtain ⟨z', s', hrest, h'⟩ := ih h₁
    refine ⟨z', s', ?_, ?_⟩
    · rw [Streaming.feeds, List.foldlM_cons, hstep]
      exact hrest
    · rwa [List.flatten_cons, ← List.append_assoc]

/-- However the signal is cut, the run gives out `whole` of it. -/
theorem Computes.run (h : Computes T n whole I done) {xs : List α} {z : Out α} {s : σ}
    (hs : I xs z s) (chunks : List (List α)) (last : List α) :
    ∃ y s', Streaming.run T s chunks last = some (y, s') ∧ y.layers.length = n ∧
      z.join y = whole (xs ++ (chunks.flatten ++ last)) ∧ done s' := by
  induction chunks generalizing xs z s with
  | nil => exact h.finish hs last
  | cons cs rest ih =>
    obtain ⟨y, s₁, hstep, hlen, h₁⟩ := h.feed hs cs
    obtain ⟨y', s₂, hrun, hlen', hall, hdone⟩ := ih h₁
    refine ⟨y.join y', s₂, ?_, ?_, ?_, hdone⟩
    · rw [Streaming.run, hstep, Option.bind_some, hrun, Option.map_some]
    · rw [Out.length_join (hlen.trans hlen'.symm), hlen]
    · rw [← Out.join_assoc, hall, List.flatten_cons, List.append_assoc, List.append_assoc]

/-- A run from the start of a signal. -/
theorem Computes.run_start (h : Computes T n whole I done) {s : σ} (hs : I [] (.none α n) s)
    (chunks : List (List α)) (last : List α) :
    ∃ s', Streaming.run T s chunks last = some (whole (chunks.flatten ++ last), s') ∧ done s' := by
  obtain ⟨y, s', hrun, hlen, hall, hdone⟩ := h.run hs chunks last
  rw [Out.none_join hlen, List.nil_append] at hall
  exact ⟨s', hall ▸ hrun, hdone⟩

end Run

/-! ### Machines made of machines -/

section Combine

variable {T : Step α σ} {n : ℕ} {whole : List α → Out α} {I : List α → Out α → σ → Prop}
  {done : σ → Prop}

/-- One machine behind another one. -/
def comp (T₁ : Step α σ) (T₂ : Step α τ) : Step α (σ × τ) := fun s fin xs =>
  (T₁ s.1 fin xs).bind fun r₁ =>
    (T₂ s.2 fin r₁.1.out).map fun r₂ => (r₁.1.andThen r₂.1, (r₁.2, r₂.2))

theorem Computes.comp {T₂ : Step α τ} {n₂ : ℕ} {whole₂ : List α → Out α}
    {I₂ : List α → Out α → τ → Prop} {done₂ : τ → Prop} (h₁ : Computes T n whole I done)
    (h₂ : Computes T₂ n₂ whole₂ I₂ done₂) :
    Computes (comp T T₂) (n + n₂) (fun xs => (whole xs).andThen (whole₂ (whole xs).out))
      (fun xs z s => ∃ z₁ z₂, z = z₁.andThen z₂ ∧ I xs z₁ s.1 ∧ I₂ z₁.out z₂ s.2)
      (fun s => done s.1 ∧ done₂ s.2) := by
  constructor
  · rintro xs _ s ⟨z₁, z₂, rfl, hs₁, hs₂⟩
    rw [Out.andThen, List.length_append, h₁.length hs₁, h₂.length hs₂]
  · rintro xs _ ⟨s₁, s₂⟩ ⟨z₁, z₂, rfl, hs₁, hs₂⟩ cs
    obtain ⟨y₁, s₁', hstep₁, hlen₁, hs₁'⟩ := h₁.feed hs₁ cs
    obtain ⟨y₂, s₂', hstep₂, hlen₂, hs₂'⟩ := h₂.feed hs₂ y₁.out
    have heq : z₁.layers.length = y₁.layers.length := (h₁.length hs₁).trans hlen₁.symm
    refine ⟨y₁.andThen y₂, (s₁', s₂'), ?_, ?_, _, _, Out.join_andThen heq, hs₁', hs₂'⟩
    · rw [Streaming.comp, hstep₁, Option.bind_some, hstep₂, Option.map_some]
    · rw [Out.andThen, List.length_append, hlen₁, hlen₂]
  · rintro xs _ ⟨s₁, s₂⟩ ⟨z₁, z₂, rfl, hs₁, hs₂⟩ cs
    obtain ⟨y₁, s₁', hstep₁, hlen₁, hall₁, hdone₁⟩ := h₁.finish hs₁ cs
    obtain ⟨y₂, s₂', hstep₂, hlen₂, hall₂, hdone₂⟩ := h₂.finish hs₂ y₁.out
    have heq : z₁.layers.length = y₁.layers.length := (h₁.length hs₁).trans hlen₁.symm
    refine ⟨y₁.andThen y₂, (s₁', s₂'), ?_, ?_, ?_, hdone₁, hdone₂⟩
    · rw [Streaming.comp, hstep₁, Option.bind_some, hstep₂, Option.map_some]
    · rw [Out.andThen, List.length_append, hlen₁, hlen₂]
    · rw [Out.join_andThen heq, hall₂, ← hall₁]
      rfl

/-- A machine that holds its input back until there is enough of it, or no more to come. -/
def buffered (enough n : ℕ) (T : Step α σ) : Step α (List α × σ) := fun s fin xs =>
  if fin = false ∧ (s.1 ++ xs).length < enough then some (.none α n, (s.1 ++ xs, s.2))
  else (T s.2 fin (s.1 ++ xs)).map fun r => (r.1, ([], r.2))

theorem Computes.buffered (h : Computes T n whole I done) (enough : ℕ) :
    Computes (buffered enough n T) n whole
      (fun xs z s => ∃ taken, xs = taken ++ s.1 ∧ I taken z s.2) (fun s => done s.2) := by
  constructor
  · rintro xs z s ⟨taken, rfl, hs⟩
    exact h.length hs
  · rintro xs z ⟨buf, s⟩ ⟨taken, rfl, hs⟩ cs
    by_cases hfew : (buf ++ cs).length < enough
    · refine ⟨.none α n, (buf ++ cs, s), if_pos ⟨rfl, hfew⟩, List.length_replicate, taken,
        List.append_assoc _ _ _, ?_⟩
      rwa [Out.join_none (h.length hs)]
    · obtain ⟨y, s', hstep, hlen, hs'⟩ := h.feed hs (buf ++ cs)
      refine ⟨y, ([], s'), ?_, hlen, taken ++ (buf ++ cs), ?_, hs'⟩
      · rw [Streaming.buffered, if_neg fun h => hfew h.2]
        exact congrArg (Option.map fun r => (r.1, ([], r.2))) hstep
      · rw [List.append_nil, List.append_assoc]
  · rintro xs z ⟨buf, s⟩ ⟨taken, rfl, hs⟩ cs
    obtain ⟨y, s', hstep, hlen, hall, hdone⟩ := h.finish hs (buf ++ cs)
    refine ⟨y, ([], s'), ?_, hlen, ?_, hdone⟩
    · rw [Streaming.buffered, if_neg fun h => nomatch h.1]
      exact congrArg (Option.map fun r => (r.1, ([], r.2))) hstep
    · rw [hall, List.append_assoc]

/-- A machine that follows another one, `R` relating their states, computes the same. -/
theorem Computes.of_sim (h : Computes T n whole I done) {T' : Step α τ} {R : τ → σ → Prop}
    {done' : τ → Prop}
    (hsim : ∀ {s' s}, R s' s → ∀ {fin xs y t}, T s fin xs = some (y, t) →
      ∃ t', T' s' fin xs = some (y, t') ∧ (fin = false → R t' t) ∧ (fin = true → done' t')) :
    Computes T' n whole (fun xs z s' => ∃ s, R s' s ∧ I xs z s) done' := by
  constructor
  · rintro xs z s' ⟨s, -, hs⟩
    exact h.length hs
  · rintro xs z s' ⟨s, hR, hs⟩ cs
    obtain ⟨y, t, hstep, hlen, ht⟩ := h.feed hs cs
    obtain ⟨t', hstep', hR', -⟩ := hsim hR hstep
    exact ⟨y, t', hstep', hlen, t, hR' rfl, ht⟩
  · rintro xs z s' ⟨s, hR, hs⟩ cs
    obtain ⟨y, t, hstep, hlen, hall, -⟩ := h.finish hs cs
    obtain ⟨t', hstep', -, hdone⟩ := hsim hR hstep
    exact ⟨y, t', hstep', hlen, hall, hdone rfl⟩

end Combine

/-! ### Machines from their start -/

/-- From `start` on the machine computes `whole`, and `ok` holds of all its states before the last
chunk. -/
def Law (T : Step α σ) (n : ℕ) (whole : List α → Out α) (start : σ) (ok : σ → Prop) : Prop :=
  ∃ (I : List α → Out α → σ → Prop) (done : σ → Prop), Computes T n whole I done ∧
    I [] (.none α n) start ∧ ∀ xs z s, I xs z s → ok s

section Law

variable {T : Step α σ} {n : ℕ} {whole : List α → Out α} {start : σ} {ok : σ → Prop}

theorem Law.feeds (h : Law T n whole start ok) (chunks : List (List α)) :
    ∃ s, Streaming.feeds T start chunks = some s ∧ ok s := by
  obtain ⟨I, done, hT, hstart, hok⟩ := h
  obtain ⟨z, s, hrun, hs⟩ := hT.feeds hstart chunks
  exact ⟨s, hrun, hok _ _ _ hs⟩

theorem Law.run (h : Law T n whole start ok) (chunks : List (List α)) (last : List α) :
    ∃ s, Streaming.run T start chunks last = some (whole (chunks.flatten ++ last), s) := by
  obtain ⟨I, done, hT, hstart, -⟩ := h
  obtain ⟨s, hrun, -⟩ := hT.run_start hstart chunks last
  exact ⟨s, hrun⟩

theorem Law.comp {T₂ : Step α τ} {n₂ : ℕ} {whole₂ : List α → Out α} {start₂ : τ} {ok₂ : τ → Prop}
    (h₁ : Law T n whole start ok) (h₂ : Law T₂ n₂ whole₂ start₂ ok₂) :
    Law (comp T T₂) (n + n₂) (fun xs => (whole xs).andThen (whole₂ (whole xs).out))
      (start, start₂) (fun s => ok s.1 ∧ ok₂ s.2) := by
  obtain ⟨I₁, done₁, hT₁, hstart₁, hok₁⟩ := h₁
  obtain ⟨I₂, done₂, hT₂, hstart₂, hok₂⟩ := h₂
  refine ⟨_, _, hT₁.comp hT₂, ⟨.none α n, .none α n₂, ?_, hstart₁, hstart₂⟩, ?_⟩
  · exact congrArg (Out.mk · []) (List.replicate_add n n₂ [])
  · rintro xs z s ⟨z₁, z₂, -, hs₁, hs₂⟩
    exact ⟨hok₁ _ _ _ hs₁, hok₂ _ _ _ hs₂⟩

theorem Law.buffered (h : Law T n whole start ok) (enough : ℕ) :
    Law (buffered enough n T) n whole ([], start) (fun s => ok s.2) := by
  obtain ⟨I, done, hT, hstart, hok⟩ := h
  refine ⟨_, _, hT.buffered enough, ⟨[], rfl, hstart⟩, ?_⟩
  rintro xs z s ⟨taken, -, hs⟩
  exact hok _ _ _ hs

/-- A machine that follows another one, from starts that correspond. -/
theorem Law.of_sim (h : Law T n whole start ok) {T' : Step α τ} {start' : τ} {ok' : τ → Prop}
    {R : τ → σ → Prop} (hstart' : R start' start) (hok' : ∀ s' s, R s' s → ok s → ok' s')
    (hsim : ∀ {s' s}, R s' s → ∀ {fin xs y t}, T s fin xs = some (y, t) →
      ∃ t', T' s' fin xs = some (y, t') ∧ R t' t) :
    Law T' n whole start' ok' := by
  obtain ⟨I, done, hT, hstart, hok⟩ := h
  refine ⟨_, fun _ => True, hT.of_sim (R := R) fun hR _ _ _ _ hstep => ?_, ⟨start, hstart', hstart⟩,
    ?_⟩
  · obtain ⟨t', hstep', hR'⟩ := hsim hR hstep
    exact ⟨t', hstep', fun _ => hR', fun _ => trivial⟩
  · rintro xs z s' ⟨s, hR, hs⟩
    exact hok' s' s hR (hok _ _ _ hs)

end Law

end VibeVoice.Streaming
