import Mathlib.Tactic
import VibeVoice.Lib.Reader

/-!
Readers with a sticky failure, as they run: a read that does not fit turns the cursor bad, and the
program goes on with zeros until it looks.  The cursor keeps a record of what was read and of what
was done.

* `Costs`: a run keeps an invariant, and does at most `r` steps for every letter it passes, and
  `k` more where it ends badly.  `Costs.bind`, `Costs.repeatGood`, `Costs.collectGood` put runs
  together; a loop costs no more than its last round where every round passes some letters.
* `Follows`: a run does what a reader does that stops at its first failure.
-/

namespace VibeVoice

/-- A place in a file, whether a read has failed, the ranges that were read, the steps that were
done, the deepest call, and whatever else the program keeps. -/
structure Meter (σ : Type) where
  pos : ℕ
  bad : Bool
  reads : List (ℕ × ℕ)
  work : ℕ
  depth : ℕ
  store : σ

/-- A program over a metered cursor. -/
abbrev Metered (σ α : Type) := StateM (Meter σ) α

namespace Metered

variable {σ α β γ ε : Type}

/-! ### Programs -/

/-- What is left of a file in front of its end, as a difference of pointers in `size_t`. -/
def left (file : List β) (s : Meter σ) : ℕ := (((file.length : ℤ) - s.pos) % 2 ^ 64).toNat

lemma left_eq {file : List β} {s : Meter σ} (h : s.pos ≤ file.length)
    (hfile : file.length < 2 ^ 64) : left file s = file.length - s.pos := by
  have hmod : ((file.length : ℤ) - s.pos) % 2 ^ 64 = (file.length : ℤ) - s.pos := by
    refine Int.emod_eq_of_lt ?_ ?_ <;> omega
  rw [left, hmod]
  omega

/-- The failure. -/
def fail : Metered σ Unit := fun s => ((), { s with bad := true, work := s.work + 1 })

/-- The next `n` letters, copied. -/
def take (file : List β) (n : ℕ) : Metered σ (List β) := fun s =>
  if s.bad = true ∨ left file s < n then ([], { s with bad := true, work := s.work + 1 })
  else
    ((file.drop s.pos).take n,
      { s with pos := s.pos + n, reads := (s.pos, n) :: s.reads, work := s.work + n + 1 })

/-- `n` times `size` letters, passed over; the product is one of `size_t`. -/
def skip (file : List β) (n size : ℕ) : Metered σ Unit := fun s =>
  if s.bad = true ∨ left file s / size < n then ((), { s with bad := true, work := s.work + 1 })
  else ((), { s with pos := s.pos + n * size % 2 ^ 64, work := s.work + 1 })

/-- A call at some depth. -/
def enter (depth : ℕ) : Metered σ Unit := fun s =>
  ((), { s with depth := max s.depth depth, work := s.work + 1 })

/-- `n` rounds of a loop that looks for the failure before each. -/
def repeatGood : ℕ → Metered σ Unit → Metered σ Unit
  | 0, _ => pure ()
  | n + 1, m => fun s =>
    if s.bad = true then ((), s)
    else (m >>= fun _ => repeatGood n m) { s with work := s.work + 1 }

/-- The same loop, for the answers of its rounds. -/
def collectGood : ℕ → Metered σ α → Metered σ (List α)
  | 0, _ => pure []
  | n + 1, m => fun s =>
    if s.bad = true then ([], s)
    else (m >>= fun a => collectGood n m >>= fun as => pure (a :: as))
      { s with work := s.work + 1 }

/-! ### What a run costs -/

/-- The cursor is inside of the file, as all it has read; no call was deeper than `deepest`; and
`J` holds of the place and of what the program keeps. -/
structure Inside (file : List β) (deepest : ℕ) (J : ℕ → σ → Prop) (s : Meter σ) : Prop where
  pos_le : s.pos ≤ file.length
  reads : ∀ r ∈ s.reads, r.1 + r.2 ≤ file.length
  depth_le : s.depth ≤ deepest
  store : J s.pos s.store

/-- From `s` to `s'`: `r` steps for every letter and `k` more, or `j` less where nothing failed. -/
structure Step (I : Meter σ → Prop) (r : ℕ) (j : ℤ) (k : ℕ) (s s' : Meter σ) : Prop where
  inv : I s'
  sticky : s.bad = true → s'.bad = true
  good : s'.bad = false → (s'.work : ℤ) + j + r * s.pos ≤ s.work + r * s'.pos
  bounded : s'.work + r * s.pos ≤ s.work + r * s'.pos + k

/-- All runs of a program. -/
def Costs (I : Meter σ → Prop) (r : ℕ) (j : ℤ) (k : ℕ) (m : Metered σ α) : Prop :=
  ∀ s, I s → Step I r j k s (m s).2

variable {I : Meter σ → Prop} {r k k' : ℕ} {j j' : ℤ}

lemma Step.refl {s : Meter σ} (h : I s) : Step I r 0 0 s s :=
  ⟨h, id, fun _ => by omega, le_rfl⟩

lemma Step.trans {s s' s'' : Meter σ} (h : Step I r j k s s') (h' : Step I r j' k' s' s'') :
    Step I r (j + j') (k + k') s s'' := by
  have hb := h.bounded
  have hb' := h'.bounded
  refine ⟨h'.inv, fun hs => h'.sticky (h.sticky hs), fun hgood => ?_, by omega⟩
  have hmid : s'.bad = false := by
    by_contra hbad
    rw [h'.sticky (by simpa using hbad)] at hgood
    cases hgood
  have h₁ := h.good hmid
  have h₂ := h'.good hgood
  omega

lemma Step.mono {s s' : Meter σ} (h : Step I r j k s s') (hj : j' ≤ j) (hk : k ≤ k') :
    Step I r j' k' s s' := by
  have hb := h.bounded
  exact ⟨h.inv, h.sticky, fun hg => by have := h.good hg; omega, by omega⟩

lemma Costs.mono {m : Metered σ α} (h : Costs I r j k m) (hj : j' ≤ j) (hk : k ≤ k') :
    Costs I r j' k' m := fun s hs => (h s hs).mono hj hk

lemma Costs.pure (a : α) : Costs I r 0 0 (pure a : Metered σ α) := fun _ hs => Step.refl hs

lemma Costs.bind {m : Metered σ α} {f : α → Metered σ γ} (hm : Costs I r j k m)
    (hf : ∀ a, Costs I r j' k' (f a)) : Costs I r (j + j') (k + k') (m >>= f) := fun s hs =>
  (hm s hs).trans (hf _ _ (hm s hs).inv)

lemma Costs.map {m : Metered σ α} (hm : Costs I r j k m) (f : α → γ) : Costs I r j k (f <$> m) :=
  fun s hs => hm s hs

lemma Costs.ite {m m' : Metered σ α} {P : Prop} [Decidable P] (hm : Costs I r j k m)
    (hm' : Costs I r j k m') : Costs I r j k (if P then m else m') := by
  split_ifs
  · exact hm
  · exact hm'

lemma repeatGood_bad (n : ℕ) (m : Metered σ Unit) {s : Meter σ} (h : s.bad = true) :
    repeatGood n m s = ((), s) := by
  cases n with
  | zero => rfl
  | succ n => exact if_pos h

lemma collectGood_bad (n : ℕ) (m : Metered σ α) {s : Meter σ} (h : s.bad = true) :
    collectGood n m s = ([], s) := by
  cases n with
  | zero => rfl
  | succ n => exact if_pos h

/-- One round, and the rest of the loop unless the round failed. -/
lemma Step.round {s s₁ s₂ : Meter σ} (hbad : s.bad ≠ true)
    (h : Step I r 1 k { s with work := s.work + 1 } s₁)
    (hrest : s₁.bad = false → Step I r 0 (k + 1) s₁ s₂) (hstop : s₁.bad = true → s₂ = s₁) :
    Step I r 0 (k + 1) s s₂ := by
  cases hmid : s₁.bad with
  | false =>
    have h₁ := h.good hmid
    have h₂ := hrest hmid
    have hb := h₂.bounded
    push_cast at h₁
    refine ⟨h₂.inv, fun hb => absurd hb hbad, fun hg => ?_, ?_⟩
    · have := h₂.good hg
      omega
    · zify at hb ⊢
      omega
  | true =>
    have h₁ := h.bounded
    obtain rfl := hstop hmid
    refine ⟨h.inv, fun hb => absurd hb hbad, fun hg => ?_, ?_⟩
    · rw [hg] at hmid
      cases hmid
    · dsimp only at h₁
      omega

/-- **A loop whose rounds pay for themselves** costs what a failing round costs. -/
lemma Costs.repeatGood {m : Metered σ Unit} (hwork : ∀ s, I s → I { s with work := s.work + 1 })
    (hm : Costs I r 1 k m) (n : ℕ) : Costs I r 0 (k + 1) (repeatGood n m) := by
  induction n with
  | zero => exact (Costs.pure ()).mono le_rfl (Nat.zero_le _)
  | succ n ih =>
    intro s hs
    by_cases hbad : s.bad = true
    · rw [repeatGood_bad _ _ hbad]
      exact (Step.refl hs).mono le_rfl (Nat.zero_le _)
    · have hround : Metered.repeatGood (n + 1) m s =
          (m >>= fun _ => Metered.repeatGood n m) { s with work := s.work + 1 } := if_neg hbad
      have hstep := hm _ (hwork s hs)
      rw [hround]
      exact hstep.round hbad (fun _ => ih _ hstep.inv)
        fun hmid => congrArg Prod.snd (repeatGood_bad n m hmid)

lemma Costs.collectGood {m : Metered σ α} (hwork : ∀ s, I s → I { s with work := s.work + 1 })
    (hm : Costs I r 1 k m) (n : ℕ) : Costs I r 0 (k + 1) (collectGood n m) := by
  induction n with
  | zero => exact (Costs.pure []).mono le_rfl (Nat.zero_le _)
  | succ n ih =>
    intro s hs
    by_cases hbad : s.bad = true
    · rw [collectGood_bad _ _ hbad]
      exact (Step.refl hs).mono le_rfl (Nat.zero_le _)
    · have hround : Metered.collectGood (n + 1) m s =
          ((m >>= fun a => Metered.collectGood n m >>= fun as => Pure.pure (a :: as)) :
            Metered σ (List α)) { s with work := s.work + 1 } := if_neg hbad
      have hstep := hm _ (hwork s hs)
      rw [hround]
      exact hstep.round hbad (fun _ => ih _ hstep.inv)
        fun hmid => congrArg Prod.snd (collectGood_bad n m hmid)

/-! ### The programs on a file -/

variable {file : List β} {deepest : ℕ} {J : ℕ → σ → Prop}

lemma Inside.work {s : Meter σ} (h : Inside file deepest J s) (n : ℕ) :
    Inside file deepest J { s with work := n } := ⟨h.pos_le, h.reads, h.depth_le, h.store⟩

/-- A failure leaves the cursor where it is. -/
lemma Step.fail {s : Meter σ} (h : Inside file deepest J s) :
    Step (Inside file deepest J) r j 1 s { s with bad := true, work := s.work + 1 } := by
  refine ⟨⟨h.pos_le, h.reads, h.depth_le, h.store⟩, fun _ => rfl, nofun, ?_⟩
  dsimp only
  omega

lemma Costs.fail : Costs (Inside file deepest J) r j 1 fail := fun _ hs => Step.fail hs

/-- The range read next is inside of the file, and the cursor behind it. -/
lemma Costs.take (hfile : file.length < 2 ^ 64) (hJ : ∀ p p' st, p ≤ p' → J p st → J p' st)
    (hr : 0 < r) (n : ℕ) : Costs (Inside file deepest J) r (r * n - n - 1) 1 (take file n) := by
  intro s hs
  have hn : n ≤ r * n := Nat.le_mul_of_pos_left n hr
  have hpos := hs.pos_le
  rw [Metered.take]
  split_ifs with hbad
  · exact Step.fail hs
  · rw [left_eq hpos hfile, not_or, not_lt] at hbad
    refine ⟨⟨?_, ?_, hs.depth_le, hJ _ _ _ (Nat.le_add_right _ _) hs.store⟩,
      fun h => absurd h hbad.1, fun _ => ?_, ?_⟩
    · dsimp only
      omega
    · rintro x hx
      rcases List.mem_cons.mp hx with rfl | hx
      · dsimp only
        omega
      · exact hs.reads x hx
    · push_cast
      rw [mul_add]
      omega
    · dsimp only
      rw [mul_add]
      omega

/-- What is passed over fits without wrapping. -/
lemma skip_fits (hfile : file.length < 2 ^ 64) {s : Meter σ} (hpos : s.pos ≤ file.length)
    {n size : ℕ} (h : ¬(s.bad = true ∨ left file s / size < n)) (hsize : 0 < size) :
    s.bad = false ∧ n * size % 2 ^ 64 = n * size ∧ s.pos + n * size ≤ file.length := by
  rw [left_eq hpos hfile, not_or, not_lt] at h
  have hfit : n * size ≤ file.length - s.pos := (Nat.le_div_iff_mul_le hsize).mp h.2
  exact ⟨by simpa using h.1, Nat.mod_eq_of_lt (by omega), by omega⟩

lemma Costs.skip (hfile : file.length < 2 ^ 64) (hJ : ∀ p p' st, p ≤ p' → J p st → J p' st)
    (n : ℕ) {size : ℕ} (hsize : 0 < size) :
    Costs (Inside file deepest J) r (r * (n * size) - 1) 1 (skip file n size) := by
  intro s hs
  rw [Metered.skip]
  split_ifs with hbad
  · exact Step.fail hs
  · obtain ⟨hgood, hwrap, hfit⟩ := skip_fits hfile hs.pos_le hbad hsize
    rw [hwrap]
    refine ⟨⟨hfit, hs.reads, hs.depth_le, hJ _ _ _ (Nat.le_add_right _ _) hs.store⟩,
      id, fun _ => ?_, ?_⟩
    · push_cast
      rw [mul_add]
      omega
    · dsimp only
      rw [mul_add]
      omega

lemma Costs.enter {depth : ℕ} (hdepth : depth ≤ deepest) :
    Costs (Inside file deepest J) r (-1) 1 (enter depth : Metered σ Unit) := by
  intro s hs
  rw [Metered.enter]
  refine ⟨⟨hs.pos_le, hs.reads, max_le hs.depth_le hdepth, hs.store⟩, id, fun _ => ?_, ?_⟩
  · push_cast
    omega
  · dsimp only
    omega

/-! ### What a run does -/

/-- The program does what a reader does whose one failure is `e`, and stays bad once it is. -/
structure Follows (file : List β) (e : ε) (m : Metered σ α) (p : Reader ε β α) : Prop where
  sticky : ∀ s, s.bad = true → (m s).2.bad = true
  sim : ∀ s, s.bad = false → s.pos ≤ file.length →
    match p.run ⟨s.pos, file.drop s.pos⟩ with
    | .ok (a, c) => (m s).1 = a ∧ (m s).2.bad = false ∧ c = ⟨(m s).2.pos, file.drop (m s).2.pos⟩ ∧
        (m s).2.pos ≤ file.length
    | .error e' => e' = e ∧ (m s).2.bad = true

variable {e : ε}

lemma Follows.pure (a : α) :
    Follows file e (pure a : Metered σ α) (pure a : Reader ε β α) :=
  ⟨fun _ hs => hs, fun _ hs hpos => ⟨rfl, hs, rfl, hpos⟩⟩

lemma Follows.bind {m : Metered σ α} {f : α → Metered σ γ} {p : Reader ε β α}
    {g : α → Reader ε β γ} (hm : Follows file e m p) (hf : ∀ a, Follows file e (f a) (g a)) :
    Follows file e (m >>= f) (p >>= g) := by
  refine ⟨fun s hs => (hf _).sticky _ (hm.sticky s hs), fun s hs hpos => ?_⟩
  have hsim := hm.sim s hs hpos
  cases hp : p.run ⟨s.pos, file.drop s.pos⟩ with
  | error e =>
    rw [hp] at hsim
    rw [StateT.run_bind, hp]
    exact ⟨hsim.1, (hf _).sticky _ hsim.2⟩
  | ok r =>
    obtain ⟨a, c⟩ := r
    rw [hp] at hsim
    obtain ⟨rfl, hgood, rfl, hle⟩ := hsim
    rw [Reader.run_bind_of_ok hp]
    exact (hf _).sim _ hgood hle

lemma Follows.map {m : Metered σ α} {p : Reader ε β α} (hm : Follows file e m p) (f : α → γ) :
    Follows file e (f <$> m) (f <$> p) :=
  hm.bind fun a => Follows.pure (f a)

lemma Follows.ite {m m' : Metered σ α} {p p' : Reader ε β α} {P : Prop} [Decidable P]
    (hm : Follows file e m p) (hm' : Follows file e m' p') :
    Follows file e (if P then m else m') (if P then p else p') := by
  split_ifs
  · exact hm
  · exact hm'

/-- After a failure nothing matters any more. -/
lemma Follows.fail {f : Unit → Metered σ α}
    (hf : ∀ s, s.bad = true → (f () s).2.bad = true) :
    Follows file e (Metered.fail >>= f) (Reader.fail e : Reader ε β α) :=
  ⟨fun _ _ => hf _ rfl, fun _ _ _ => ⟨rfl, hf _ rfl⟩⟩

/-- A step that the reader does not see. -/
lemma Follows.silent {m : Metered σ Unit} {f : Unit → Metered σ α} {p : Reader ε β α}
    (hm : ∀ s, (m s).2.pos = s.pos ∧ (m s).2.bad = s.bad) (hf : Follows file e (f ()) p) :
    Follows file e (m >>= f) p := by
  refine ⟨fun s hs => hf.sticky _ ((hm s).2.trans hs), fun s hs hpos => ?_⟩
  have hsim := hf.sim (m s).2 ((hm s).2.trans hs) ((hm s).1.trans_le hpos)
  rw [(hm s).1] at hsim
  exact hsim

lemma run_take_eq (e : ε) (n : ℕ) (c : Cursor β) : (Reader.take e n).run c =
    if n ≤ c.rest.length then .ok (c.rest.take n, ⟨c.pos + n, c.rest.drop n⟩) else .error e := rfl

lemma Follows.take (hfile : file.length < 2 ^ 64) (n : ℕ) :
    Follows file e (take file n : Metered σ (List β)) (Reader.take e n) := by
  refine ⟨fun s hs => ?_, fun s hs hpos => ?_⟩
  · rw [Metered.take, if_pos (.inl hs)]
  · have hleft := left_eq hpos hfile
    rw [run_take_eq, List.length_drop, Metered.take]
    by_cases hle : n ≤ file.length - s.pos
    · rw [if_pos hle, if_neg (by rw [hs, hleft]; simpa using hle)]
      refine ⟨rfl, hs, ?_, ?_⟩
      · rw [List.drop_drop]
      · dsimp only
        omega
    · rw [if_neg hle, if_pos (.inr (by omega))]
      exact ⟨rfl, rfl⟩

/-- Letters that are passed over, with the test of a product in front or without it. -/
lemma Follows.skip (hfile : file.length < 2 ^ 64) (n : ℕ) {size : ℕ} (hsize : 0 < size) :
    Follows file e (skip file n size : Metered σ Unit)
        (Reader.take e (n * size) >>= fun _ => Pure.pure ()) ∧
      Follows file e (skip file n size : Metered σ Unit)
        (Reader.guardRest e (fun left => n ≤ left / size) >>= fun _ =>
          Reader.take e (n * size) >>= fun _ => Pure.pure ()) := by
  have hsticky : ∀ s : Meter σ, s.bad = true → (Metered.skip file n size s).2.bad = true := by
    intro s hs
    rw [Metered.skip, if_pos (.inl hs)]
  have htake : Follows file e (Metered.skip file n size : Metered σ Unit)
      (Reader.take e (n * size) >>= fun _ => Pure.pure ()) := by
    refine ⟨hsticky, fun s hs hpos => ?_⟩
    rw [StateT.run_bind, run_take_eq, List.length_drop]
    by_cases hle : n * size ≤ file.length - s.pos
    · have hfits : ¬(s.bad = true ∨ left file s / size < n) := by
        rw [hs, left_eq hpos hfile, not_or, not_lt, Nat.le_div_iff_mul_le hsize]
        exact ⟨Bool.false_ne_true, hle⟩
      obtain ⟨-, hwrap, hfit⟩ := skip_fits hfile hpos hfits hsize
      rw [if_pos hle, Metered.skip, if_neg hfits, hwrap]
      exact ⟨rfl, hs, by rw [List.drop_drop], hfit⟩
    · rw [if_neg hle, Metered.skip, if_pos]
      · exact ⟨rfl, rfl⟩
      · rw [left_eq hpos hfile, ← not_le, Nat.le_div_iff_mul_le hsize]
        exact .inr hle
  refine ⟨htake, hsticky, fun s hs hpos => ?_⟩
  have hsim := htake.sim s hs hpos
  have hrun : (Reader.guardRest e (fun left => n ≤ left / size)).run ⟨s.pos, file.drop s.pos⟩ =
      if decide (n ≤ (file.drop s.pos).length / size) = true then
        .ok ((), ⟨s.pos, file.drop s.pos⟩) else .error e := rfl
  rw [StateT.run_bind, hrun]
  by_cases hle : n ≤ (file.drop s.pos).length / size
  · rw [if_pos (decide_eq_true hle)]
    exact hsim
  · rw [if_neg (by simpa using hle), Metered.skip, if_pos]
    · exact ⟨rfl, rfl⟩
    · rw [left_eq hpos hfile, ← List.length_drop]
      exact .inr (not_le.mp hle)

lemma Follows.repeatGood {m : Metered σ Unit} {p : Reader ε β Unit} (hm : Follows file e m p)
    (n : ℕ) : Follows file e (repeatGood n m) (Reader.skipMany n p) := by
  induction n with
  | zero => exact Follows.pure ()
  | succ n ih =>
    have hround := hm.bind fun _ => ih
    refine ⟨fun s hs => ?_, fun s hs hpos => ?_⟩
    · rw [repeatGood_bad _ _ hs]
      exact hs
    · have heq : Metered.repeatGood (n + 1) m s =
          (m >>= fun _ => Metered.repeatGood n m) { s with work := s.work + 1 } :=
        if_neg (by rw [hs]; exact Bool.false_ne_true)
      rw [heq]
      exact hround.sim { s with work := s.work + 1 } hs hpos

lemma Follows.collectGood {m : Metered σ α} {p : Reader ε β α} (hm : Follows file e m p)
    (n : ℕ) : Follows file e (collectGood n m) (Reader.many n p) := by
  induction n with
  | zero => exact Follows.pure []
  | succ n ih =>
    have hround := hm.bind fun a => ih.bind fun as => Follows.pure (a :: as)
    refine ⟨fun s hs => ?_, fun s hs hpos => ?_⟩
    · rw [collectGood_bad _ _ hs]
      exact hs
    · have heq : Metered.collectGood (n + 1) m s =
          ((m >>= fun a => Metered.collectGood n m >>= fun as => Pure.pure (a :: as)) :
            Metered σ (List α)) { s with work := s.work + 1 } :=
        if_neg (by rw [hs]; exact Bool.false_ne_true)
      rw [heq]
      exact hround.sim { s with work := s.work + 1 } hs hpos

end Metered

end VibeVoice
