import Mathlib.Data.List.Pairwise
import Mathlib.Tactic

/-!
Buffers cut out of one room of memory, and the calls that work on them.

* `Span`, `Sound`: ranges of bytes, inside of the room and apart from each other.
* `carve`, `sound_carve`: buffers one behind the other.
* `Op`, `Run`: steps that may refuse, fail, or leave something behind that stays.
* `Clean`: every check passes and every buffer that is reached is sound. `clean_flatMap` takes it
  part by part.
* `Clean.keeps`, `clean_of_keeps`: what it takes that every run keeps to the room.
-/

namespace Carve

/-! ### Ranges -/

/-- A range of bytes. -/
structure Span where
  start : ℕ
  bytes : ℕ
  deriving DecidableEq, Repr

/-- The end of a range. -/
def Span.stop (s : Span) : ℕ := s.start + s.bytes

/-- No byte is in both. -/
def Span.Apart (s t : Span) : Prop :=
  s.bytes = 0 ∨ t.bytes = 0 ∨ s.stop ≤ t.start ∨ t.stop ≤ s.start

/-- Ranges inside of a room, and apart. -/
structure Sound (room : ℕ) (spans : List Span) : Prop where
  inside : ∀ s ∈ spans, s.stop ≤ room
  apart : spans.Pairwise Span.Apart

/-- Buffers of some sizes, one behind the other. -/
def carve : ℕ → List ℕ → List Span
  | _, [] => []
  | start, n :: sizes => ⟨start, n⟩ :: carve (start + n) sizes

lemma carve_within {start : ℕ} {sizes : List ℕ} {s : Span} (h : s ∈ carve start sizes) :
    start ≤ s.start ∧ s.stop ≤ start + sizes.sum := by
  induction sizes generalizing start with
  | nil => exact nomatch h
  | cons n sizes ih =>
    rw [List.sum_cons]
    rcases List.mem_cons.mp h with rfl | h
    · exact ⟨le_rfl, by rw [Span.stop]; dsimp only; omega⟩
    · have hrest := ih h
      omega

/-- Buffers of one size. -/
lemma carve_replicate (start n k : ℕ) :
    carve start (List.replicate n k) = (List.range n).map fun i => ⟨start + i * k, k⟩ := by
  induction n generalizing start with
  | zero => rfl
  | succ n ih =>
    rw [List.replicate_succ, carve, ih, List.range_succ_eq_map, List.map_cons, List.map_map,
      Nat.zero_mul, Nat.add_zero]
    refine congrArg _ (List.map_congr_left fun i _ => ?_)
    have hnext : start + k + i * k = start + (i + 1) * k := by ring
    rw [Function.comp_apply, hnext]

/-- Ranges in front of a place and ranges behind it. -/
lemma Sound.append {room place : ℕ} {front rest : List Span} (hf : Sound room front)
    (hr : Sound room rest) (hfront : ∀ s ∈ front, s.stop ≤ place)
    (hrest : ∀ s ∈ rest, place ≤ s.start) : Sound room (front ++ rest) where
  inside s hs := (List.mem_append.mp hs).elim (hf.inside s) (hr.inside s)
  apart := List.pairwise_append.mpr ⟨hf.apart, hr.apart, fun s hs t ht =>
    .inr (.inr (.inl ((hfront s hs).trans (hrest t ht))))⟩

/-- Buffers one behind the other are sound where the room holds them all. -/
theorem sound_carve {room start : ℕ} {sizes : List ℕ} (h : start + sizes.sum ≤ room) :
    Sound room (carve start sizes) := by
  induction sizes generalizing start with
  | nil => exact ⟨nofun, .nil⟩
  | cons n sizes ih =>
    rw [List.sum_cons] at h
    have hfront : Sound room [⟨start, n⟩] := by
      refine ⟨fun s hs => ?_, List.pairwise_singleton _ _⟩
      rw [List.mem_singleton.mp hs, Span.stop]
      dsimp only
      omega
    refine hfront.append (ih (by omega)) (fun s hs => ?_) fun s hs => (carve_within hs).1
    rw [List.mem_singleton.mp hs, Span.stop]

lemma exists_of_forall₂ {α β : Type} {r : α → β → Prop} {l : List α} {l' : List β} {x : α}
    (h : List.Forall₂ r l l') (hx : x ∈ l) : ∃ y ∈ l', r x y := by
  induction h with
  | nil => exact nomatch hx
  | @cons a b _ _ hr _ ih =>
    rcases List.mem_cons.mp hx with rfl | hx
    · exact ⟨b, List.mem_cons_self, hr⟩
    · obtain ⟨y, hy, hxy⟩ := ih hx
      exact ⟨y, List.mem_cons_of_mem _ hy, hxy⟩

/-- Ranges that start where others do, and are no longer. -/
lemma Sound.shrink {room : ℕ} {spans spans' : List Span} (h : Sound room spans)
    (hle : List.Forall₂ (fun s' s => s'.start = s.start ∧ s'.bytes ≤ s.bytes) spans' spans) :
    Sound room spans' := by
  induction hle with
  | nil => exact h
  | @cons s' s rest' rest hs hrest ih =>
    obtain ⟨hstart, hbytes⟩ := hs
    have htail := ih ⟨fun t ht => h.inside t (List.mem_cons_of_mem _ ht), h.apart.of_cons⟩
    refine ⟨fun t ht => ?_, List.pairwise_cons.mpr ⟨fun t' ht' => ?_, htail.apart⟩⟩
    · rcases List.mem_cons.mp ht with rfl | ht
      · have hroom := h.inside s List.mem_cons_self
        rw [Span.stop] at hroom ⊢
        omega
      · exact htail.inside t ht
    · obtain ⟨t, ht, htstart, htbytes⟩ := exists_of_forall₂ hrest ht'
      have hapart := List.rel_of_pairwise_cons h.apart ht
      simp only [Span.Apart, Span.stop] at hapart ⊢
      omega

/-! ### Steps -/

variable {σ : Type}

/-- A step on the room. -/
inductive Op (σ : Type)
  /-- A check of the room. -/
  | check (ok : Bool) (refusal : σ)
  /-- A check of something else. -/
  | guard (ok : Bool) (refusal : σ)
  /-- A call on some buffers, which may fail. -/
  | call (uses : List Span)
  /-- A call that leaves something behind where it does not fail. -/
  | commit (uses : List Span)
  deriving DecidableEq, Repr

/-- The buffers of a step. -/
def Op.uses : Op σ → List Span
  | .check .. | .guard .. => []
  | .call uses | .commit uses => uses

/-- Whether a step can be passed. -/
def Op.Passes : Op σ → Prop
  | .check ok _ | .guard ok _ => ok = true
  | .call _ | .commit _ => True

instance : (op : Op σ) → Decidable op.Passes
  | .check ok _ | .guard ok _ => inferInstanceAs (Decidable (ok = true))
  | .call _ | .commit _ => inferInstanceAs (Decidable True)

/-- The statuses a step can end the run with. -/
def Op.Fails : Op σ → σ → Prop
  | .check ok refusal, s | .guard ok refusal, s => ok = false ∧ s = refusal
  | .call _, _ | .commit _, _ => True

/-- The steps passed, and the one that ends the run in front of its end. -/
inductive Run (ops : List (Op σ)) : List (Op σ) → Option (Op σ × σ) → Prop
  | done (h : ∀ op ∈ ops, op.Passes) : Run ops ops none
  | stop {l rest op s} (h : ops = l ++ op :: rest) (hl : ∀ op ∈ l, op.Passes) (hs : op.Fails s) :
      Run ops l (some (op, s))

/-- Something has been left behind. -/
def Committed (l : List (Op σ)) : Prop := ∃ uses, Op.commit uses ∈ l

/-- The steps of a run, also the one that ends it. -/
def reached (l : List (Op σ)) (stop : Option (Op σ × σ)) : List (Op σ) :=
  l ++ (stop.map Prod.fst).toList

/-- A run is refused for want of room before it leaves anything behind, or it passes every check of
the room and works on sound buffers only. -/
def Keeps (room : ℕ) (want : σ) (l : List (Op σ)) (stop : Option (Op σ × σ)) : Prop :=
  (¬Committed l ∧ ∃ op, stop = some (op, want)) ∨
    ((∀ op ∈ reached l stop, Sound room op.uses) ∧ ∀ ok s t, stop ≠ some (.check ok s, t))

/-! ### Clean steps -/

/-- Every check of the room passes and every buffer is sound, as far as the other checks let the
steps come. -/
def Clean (room : ℕ) : List (Op σ) → Prop
  | [] => True
  | .check ok _ :: ops => ok = true ∧ Clean room ops
  | .guard ok _ :: ops => ok = true → Clean room ops
  | .call uses :: ops | .commit uses :: ops => Sound room uses ∧ Clean room ops

/-- The checks of other things pass. -/
def Open (ops : List (Op σ)) : Prop := ∀ ok s, Op.guard ok s ∈ ops → ok = true

section Clean

variable {room : ℕ} {ops ops' : List (Op σ)} {uses : List Span} {ok : Bool} {s : σ}

@[simp] lemma clean_nil : Clean room ([] : List (Op σ)) := trivial

@[simp] lemma clean_check : Clean room (.check ok s :: ops) ↔ ok = true ∧ Clean room ops := Iff.rfl

@[simp] lemma clean_guard : Clean room (.guard ok s :: ops) ↔ (ok = true → Clean room ops) :=
  Iff.rfl

@[simp] lemma clean_call : Clean room (.call uses :: ops) ↔ Sound room uses ∧ Clean room ops :=
  Iff.rfl

@[simp] lemma clean_commit :
    Clean room (.commit uses :: ops) ↔ Sound room uses ∧ Clean room ops := Iff.rfl

@[simp] lemma open_nil : Open ([] : List (Op σ)) := nofun

@[simp] lemma open_check : Open (.check ok s :: ops) ↔ Open ops := by simp [Open]

@[simp] lemma open_guard : Open (.guard ok s :: ops) ↔ ok = true ∧ Open ops := by
  simp only [Open, List.mem_cons, Op.guard.injEq]
  constructor
  · exact fun h => ⟨h ok s (.inl ⟨rfl, rfl⟩), fun ok s hs => h ok s (.inr hs)⟩
  · rintro ⟨hok, h⟩ ok' s' (⟨rfl, rfl⟩ | hs)
    · exact hok
    · exact h ok' s' hs

@[simp] lemma open_call : Open (.call uses :: ops) ↔ Open ops := by simp [Open]

@[simp] lemma open_commit : Open (.commit uses :: ops) ↔ Open ops := by simp [Open]

@[simp] lemma open_append : Open (ops ++ ops') ↔ Open ops ∧ Open ops' := by
  simp only [Open, List.mem_append]
  exact ⟨fun h => ⟨fun ok s hs => h ok s (.inl hs), fun ok s hs => h ok s (.inr hs)⟩,
    fun h ok s hs => hs.elim (h.1 ok s) (h.2 ok s)⟩

lemma clean_append : Clean room (ops ++ ops') ↔ Clean room ops ∧ (Open ops → Clean room ops') := by
  induction ops with
  | nil => simp
  | cons op ops ih =>
    cases op with
    | check ok s => simp only [List.cons_append, clean_check, open_check, ih, and_assoc]
    | guard ok s =>
      simp only [List.cons_append, clean_guard, open_guard, ih]
      tauto
    | call uses => simp only [List.cons_append, clean_call, open_call, ih, and_assoc]
    | commit uses => simp only [List.cons_append, clean_commit, open_commit, ih, and_assoc]

/-- Steps in parts are clean if every part is that the other checks let the steps come to. -/
theorem clean_flatMap {ι : Type} {f : ι → List (Op σ)} {l : List ι} :
    Clean room (l.flatMap f) ↔
      ∀ front i rest, l = front ++ i :: rest → (∀ j ∈ front, Open (f j)) → Clean room (f i) := by
  induction l with
  | nil => simp
  | cons j l ih =>
    rw [List.flatMap_cons, clean_append, ih]
    constructor
    · rintro ⟨hj, hl⟩ front i rest hsplit hopen
      cases front with
      | nil =>
        obtain ⟨rfl, -⟩ := List.cons.inj hsplit
        exact hj
      | cons k front =>
        obtain ⟨rfl, htail⟩ := List.cons.inj hsplit
        exact hl (hopen _ List.mem_cons_self) front i rest htail fun i hi =>
          hopen i (List.mem_cons_of_mem _ hi)
    · intro h
      refine ⟨h [] j l rfl (by simp), fun hopen front i rest hsplit hfront => ?_⟩
      refine h (j :: front) i rest (by rw [hsplit]; rfl) fun k hk => ?_
      rcases List.mem_cons.mp hk with rfl | hk
      · exact hopen
      · exact hfront k hk

/-- A step that is reached over passed ones is clean. -/
lemma Clean.of_split {l rest : List (Op σ)} {op : Op σ} (h : Clean room ops)
    (hsplit : ops = l ++ op :: rest) (hl : ∀ op ∈ l, op.Passes) : Clean room (op :: rest) := by
  rw [hsplit, clean_append] at h
  exact h.2 fun ok s hs => hl _ hs

lemma Clean.sound {op : Op σ} {rest : List (Op σ)} (h : Clean room (op :: rest)) :
    Sound room op.uses := by
  cases op with
  | check ok s => exact ⟨nofun, .nil⟩
  | guard ok s => exact ⟨nofun, .nil⟩
  | call uses => exact h.1
  | commit uses => exact h.1

/-- Where the steps are clean every run keeps to the room. -/
theorem Clean.keeps {want : σ} {l : List (Op σ)} {stop : Option (Op σ × σ)} (h : Clean room ops)
    (hrun : Run ops l stop) : Keeps room want l stop := by
  have hsound : ∀ front op rest, ops = front ++ op :: rest → (∀ op ∈ front, op.Passes) →
      Sound room op.uses := fun front op rest hsplit hfront => (h.of_split hsplit hfront).sound
  cases hrun with
  | done hpass =>
    refine .inr ⟨fun op hop => ?_, nofun⟩
    rw [reached, Option.map_none, Option.toList_none, List.append_nil] at hop
    obtain ⟨front, rest, hsplit⟩ := List.append_of_mem hop
    exact hsound front op rest hsplit fun op hop =>
      hpass op (hsplit ▸ List.mem_append_left _ hop)
  | @stop l rest op s hsplit hl hs =>
    refine .inr ⟨fun op' hop => ?_, fun ok s' t heq => ?_⟩
    · rcases List.mem_append.mp hop with hop | hop
      · obtain ⟨front, rest', rfl⟩ := List.append_of_mem hop
        refine hsound front op' (rest' ++ op :: rest) (by rw [hsplit]; simp) fun op hop => ?_
        exact hl op (List.mem_append_left _ hop)
      · obtain rfl : op' = op := by simpa using hop
        exact hsound l op' rest hsplit hl
    · obtain ⟨rfl, rfl⟩ := Prod.mk.inj (Option.some.inj heq)
      have hok := (h.of_split hsplit hl).1
      exact absurd hok (by rw [hs.1]; simp)

/-- Where every run keeps to the room the steps are clean, but for a refusal for want of room that
nothing has been left in front of. -/
theorem clean_of_keeps {want other : σ} (hother : other ≠ want)
    (h : ∀ l stop, Run ops l stop → Keeps room want l stop)
    (hwant : ∀ l rest, ops = l ++ .check false want :: rest → (∀ op ∈ l, op.Passes) → Committed l) :
    Clean room ops := by
  have hstep : ∀ l rest, ops = l ++ rest → (∀ op ∈ l, op.Passes) → Clean room rest := by
    intro l rest
    induction rest generalizing l with
    | nil => exact fun _ _ => trivial
    | cons op rest ih =>
      intro hsplit hl
      have hnext : op.Passes → Clean room rest := fun hop =>
        ih (l ++ [op]) (by rw [hsplit, List.append_assoc]; rfl) fun op' hop' =>
          (List.mem_append.mp hop').elim (hl op') fun hlast =>
            List.mem_singleton.mp hlast ▸ hop
      have hfail : ∀ t, op.Fails t → Keeps room want l (some (op, t)) := fun t ht =>
        h l _ (.stop hsplit hl ht)
      have huses : op.Fails other → Sound room op.uses := by
        intro hs
        rcases hfail other hs with ⟨-, op', heq⟩ | ⟨hsound, -⟩
        · exact absurd (Prod.mk.inj (Option.some.inj heq)).2 hother
        · exact hsound op (List.mem_append_right _ (by simp))
      cases op with
      | check ok s =>
        cases ok with
        | true => exact ⟨rfl, hnext rfl⟩
        | false =>
          rcases hfail s ⟨rfl, rfl⟩ with ⟨hnone, op', heq⟩ | ⟨-, hcheck⟩
          · obtain rfl := (Prod.mk.inj (Option.some.inj heq)).2
            exact absurd (hwant l rest hsplit hl) hnone
          · exact absurd rfl (hcheck false s s)
      | guard ok s => exact fun hok => hnext hok
      | call uses => exact ⟨huses trivial, hnext trivial⟩
      | commit uses => exact ⟨huses trivial, hnext trivial⟩
  exact hstep [] ops rfl (by simp)

/-- Steps that refuse at once for want of room. -/
lemma keeps_of_refused {want : σ} {rest l : List (Op σ)} {stop : Option (Op σ × σ)}
    (hrun : Run (.check false want :: rest) l stop) : Keeps room want l stop := by
  cases hrun with
  | done hpass => exact absurd (hpass _ List.mem_cons_self) Bool.false_ne_true
  | @stop l rest' op s hsplit hl hs =>
    cases l with
    | nil =>
      obtain ⟨rfl, -⟩ := List.cons.inj hsplit
      exact .inl ⟨nofun, _, by rw [hs.2]⟩
    | cons op' l =>
      obtain ⟨rfl, -⟩ := List.cons.inj hsplit
      exact absurd (hl _ List.mem_cons_self) Bool.false_ne_true

/-- A refusal for want of room comes behind a commit that it does not stand in front of. -/
lemma committed_of_split {want : σ} {front rest l rest' : List (Op σ)}
    (hfront : Op.check false want ∉ front)
    (h : front ++ .commit uses :: rest = l ++ .check false want :: rest') : Committed l := by
  rcases List.append_eq_append_iff.mp h with ⟨mid, rfl, hmid⟩ | ⟨mid, rfl, hmid⟩
  · cases mid with
    | nil => exact nomatch (List.cons.inj hmid).1
    | cons op mid =>
      obtain ⟨rfl, -⟩ := List.cons.inj hmid
      exact ⟨uses, by simp⟩
  · cases mid with
    | nil => exact nomatch (List.cons.inj hmid).1
    | cons op mid =>
      obtain ⟨rfl, -⟩ := List.cons.inj hmid
      exact absurd (by simp) hfront

end Clean

end Carve
