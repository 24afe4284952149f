import VibeVoice.Lib.Barrier

/-!
Loops of a block over tiles that its threads bring into shared memory.

* `ring`: a ring of stages, filled by asynchronous copies some tiles ahead.
* `single`: one stage, with a barrier before and behind the reads.
* `ring_disciplined`, `single_disciplined`: their barriers and waits are enough.
* `ring_sees`, `single_sees`: so a thread finds the tile.
-/

namespace Pipeline

open Barrier

variable {T A V : Type}

/-! ### A ring of stages -/

section Ring

variable (stages tiles : ℕ) (cells : ℕ → T → List (A × V))

/-- The copies of tile `i` into a slot; behind the last tile there are none. -/
def fetch (slot i : ℕ) : Action T A V :=
  .write true slot fun t => if i < tiles then cells i t else []

/-- Turn `i` of the loop: wait for the tile, meet, copy the tile `stages - 1` further on, read. -/
def turn (i : ℕ) : ℕ → Action T A V
  | 0 => .wait (stages - 2)
  | 1 => .barrier
  | 2 => fetch tiles cells ((i + (stages - 1)) % stages) (i + (stages - 1))
  | _ => .read (i % stages)

/-- The loop, with the first `stages - 1` tiles under way in front of it. -/
def ring : Program T A V := fun q =>
  let i := (q - (stages - 1)) / 4
  if q < stages - 1 then some (fetch tiles cells q q)
  else if i < tiles then some (turn stages tiles cells i ((q - (stages - 1)) % 4))
  else if q = stages - 1 + 4 * tiles then some (.wait 0)
  else none

/-- Where tile `a` is fetched. -/
def fetchPos (a : ℕ) : ℕ := if a < stages - 1 then a else stages - 1 + 4 * (a - (stages - 1)) + 2

/-- Where tile `i` is read. -/
def readPos (i : ℕ) : ℕ := stages - 1 + 4 * i + 3

variable {stages tiles cells} {i a b q slot : ℕ}

lemma ring_turn (hi : i < tiles) {r : ℕ} (hr : r < 4) :
    ring stages tiles cells (stages - 1 + 4 * i + r) = some (turn stages tiles cells i r) := by
  have hturn : (stages - 1 + 4 * i + r - (stages - 1)) / 4 = i := by omega
  have hplace : (stages - 1 + 4 * i + r - (stages - 1)) % 4 = r := by omega
  simp only [ring, hturn, hplace, if_neg (show ¬stages - 1 + 4 * i + r < stages - 1 by omega),
    if_pos hi]

lemma ring_fetchPos (ha : a < stages - 1 + tiles) :
    ring stages tiles cells (fetchPos stages a) = some (fetch tiles cells (a % stages) a) := by
  rw [fetchPos]
  split_ifs with hfirst
  · rw [ring, if_pos hfirst, Nat.mod_eq_of_lt (by omega)]
  · rw [ring_turn (by omega) (by omega), turn, Nat.sub_add_cancel (by omega)]

/-- What the places of the program are. -/
lemma ring_cases {x : Action T A V} (h : ring stages tiles cells q = some x) :
    (∃ a < stages - 1 + tiles, q = fetchPos stages a ∧ x = fetch tiles cells (a % stages) a) ∨
      (∃ i < tiles, q = readPos stages i ∧ x = .read (i % stages)) ∨
      x = .barrier ∨ ∃ n, x = .wait n := by
  rcases Nat.lt_or_ge q (stages - 1) with hfirst | hge
  · refine .inl ⟨q, by omega, (if_pos hfirst).symm, ?_⟩
    rw [Nat.mod_eq_of_lt (by omega)]
    exact (Option.some.inj ((if_pos hfirst).symm.trans h)).symm
  obtain ⟨i, r, hr, rfl⟩ : ∃ i r, r < 4 ∧ q = stages - 1 + 4 * i + r :=
    ⟨(q - (stages - 1)) / 4, (q - (stages - 1)) % 4, Nat.mod_lt _ (by omega), by omega⟩
  rcases Nat.lt_or_ge i tiles with hi | hi
  · rw [ring_turn hi hr, Option.some.injEq] at h
    interval_cases r
    · exact .inr (.inr (.inr ⟨_, h.symm⟩))
    · exact .inr (.inr (.inl h.symm))
    · refine .inl ⟨i + (stages - 1), by omega, ?_, h.symm⟩
      rw [fetchPos, if_neg (by omega), Nat.add_sub_cancel]
    · exact .inr (.inl ⟨i, hi, rfl, h.symm⟩)
  · simp only [ring] at h
    rw [if_neg (by omega), if_neg (by omega)] at h
    split_ifs at h
    exact .inr (.inr (.inr ⟨0, (Option.some.inj h).symm⟩))

lemma isWrite_ring : IsWrite (ring stages tiles cells) q slot ↔
    ∃ a < stages - 1 + tiles, q = fetchPos stages a ∧ slot = a % stages := by
  constructor
  · rintro ⟨async, cells', h⟩
    rcases ring_cases h with ⟨a, ha, rfl, hx⟩ | ⟨i, -, -, hx⟩ | hx | ⟨n, hx⟩
    · simp only [fetch, Action.write.injEq] at hx
      exact ⟨a, ha, rfl, hx.2.1⟩
    all_goals simp at hx
  · rintro ⟨a, ha, rfl, rfl⟩
    exact ⟨_, _, ring_fetchPos ha⟩

lemma read_ring : ring stages tiles cells q = some (.read slot) ↔
    ∃ i < tiles, q = readPos stages i ∧ slot = i % stages := by
  constructor
  · intro h
    rcases ring_cases h with ⟨a, -, -, hx⟩ | ⟨i, hi, rfl, hx⟩ | hx | ⟨n, hx⟩
    · simp [fetch] at hx
    · exact ⟨i, hi, rfl, Action.read.inj hx⟩
    all_goals simp at hx
  · rintro ⟨i, hi, rfl, rfl⟩
    exact ring_turn hi (by omega)

/-! ### Positions -/

lemma fetchPos_lt_iff : fetchPos stages a < fetchPos stages b ↔ a < b := by
  rw [fetchPos, fetchPos]
  split_ifs <;> omega

/-- Tile `a` is fetched before the read of tile `i` unless it is a round further on. -/
lemma fetchPos_lt_readPos_iff : fetchPos stages a < readPos stages i ↔ a ≤ i + (stages - 1) := by
  rw [fetchPos, readPos]
  split_ifs <;> omega

/-- Two tiles of one slot are a round apart. -/
lemma add_le_of_slot (hlt : a < b) (hslot : a % stages = b % stages) : a + stages ≤ b := by
  have hdvd : stages ∣ b - a := (Nat.modEq_iff_dvd' hlt.le).mp hslot
  have hle := Nat.le_of_dvd (by omega) hdvd
  omega

lemma ring_front (h : q < stages - 1) :
    ring stages tiles cells q = some (fetch tiles cells q q) := if_pos h

lemma copies_front (hq : q ≤ stages - 1) : copies (ring stages tiles cells) q = q := by
  induction q with
  | zero => exact Nat.count_zero _
  | succ q ih =>
    rw [copies_succ, ih (by omega), ring_front (by omega)]
    rfl

/-- The copies in turn `i`. -/
lemma copies_turn (hi : i < tiles) (h : copies (ring stages tiles cells) (stages - 1 + 4 * i) = q) :
    copies (ring stages tiles cells) (stages - 1 + 4 * i + 2) = q ∧
      copies (ring stages tiles cells) (stages - 1 + 4 * i + 3) = q + 1 ∧
      copies (ring stages tiles cells) (stages - 1 + 4 * (i + 1)) = q + 1 := by
  have hturn : ∀ r < 4, ring stages tiles cells (stages - 1 + 4 * i + r) =
      some (turn stages tiles cells i r) := fun r hr => ring_turn hi hr
  have hwait := hturn 0 (by omega)
  rw [Nat.add_zero] at hwait
  have htwo : copies (ring stages tiles cells) (stages - 1 + 4 * i + 2) = q := by
    rw [copies_succ, hturn 1 (by omega), copies_succ, hwait, h]
    rfl
  have hthree : copies (ring stages tiles cells) (stages - 1 + 4 * i + 3) = q + 1 := by
    rw [copies_succ, hturn 2 (by omega), htwo]
    rfl
  refine ⟨htwo, hthree, ?_⟩
  rw [show stages - 1 + 4 * (i + 1) = stages - 1 + 4 * i + 3 + 1 by ring, copies_succ,
    hturn 3 (by omega), hthree]
  rfl

/-- The copies in front of turn `i`. -/
lemma copies_wait (hi : i ≤ tiles) :
    copies (ring stages tiles cells) (stages - 1 + 4 * i) = stages - 1 + i := by
  induction i with
  | zero => exact copies_front le_rfl
  | succ i ih => exact (copies_turn (by omega) (ih (by omega))).2.2

lemma copies_fetchPos (ha : a < stages - 1 + tiles) :
    copies (ring stages tiles cells) (fetchPos stages a + 1) = a + 1 := by
  rw [fetchPos]
  split_ifs with hfirst
  · exact copies_front hfirst
  · rw [(copies_turn (by omega) (copies_wait (by omega))).2.1]
    omega

/-- The wait of turn `i` covers the tiles up to `i`. -/
lemma settled_fetch (hS : 2 ≤ stages) (hi : i < tiles) (ha : a ≤ i) :
    Settled (ring stages tiles cells) (fetchPos stages a) (stages - 1 + 4 * i + 1) where
  barrier := ring_turn hi (by omega)
  lt := by
    rw [fetchPos]
    split_ifs <;> omega
  waited _ _ _ := by
    refine ⟨stages - 1 + 4 * i, stages - 2, ?_, by omega, ring_turn (r := 0) hi (by omega), ?_⟩
    · rw [fetchPos]
      split_ifs <;> omega
    · rw [copies_wait hi.le, copies_fetchPos (by omega)]
      omega

/-- One barrier a turn is enough, as the copies into a slot follow the barrier behind its reads. -/
theorem ring_disciplined (hS : 2 ≤ stages) : Disciplined (ring stages tiles cells) where
  writes {w w' slot} hlt hw hw' := by
    obtain ⟨a, -, rfl, rfl⟩ := isWrite_ring.mp hw
    obtain ⟨b, hb, rfl, hslot⟩ := isWrite_ring.mp hw'
    have hround := add_le_of_slot (fetchPos_lt_iff.mp hlt) hslot
    refine ⟨stages - 1 + 4 * (b - (stages - 1)) + 1, ?_, settled_fetch hS (by omega) (by omega)⟩
    rw [fetchPos, if_neg (by omega)]
    omega
  reads {w q slot} hlt hw hq := by
    obtain ⟨a, -, rfl, rfl⟩ := isWrite_ring.mp hw
    obtain ⟨i, hi, rfl, hslot⟩ := read_ring.mp hq
    have hle := fetchPos_lt_readPos_iff.mp hlt
    have ha : a ≤ i := by
      by_contra hgt
      have := add_le_of_slot (Nat.lt_of_not_le hgt) hslot.symm
      omega
    exact ⟨stages - 1 + 4 * i + 1, by rw [readPos]; omega, settled_fetch hS hi ha⟩
  after {q w slot} hlt hq hw := by
    obtain ⟨i, hi, rfl, rfl⟩ := read_ring.mp hq
    obtain ⟨a, ha, rfl, hslot⟩ := isWrite_ring.mp hw
    have hgt : ¬a ≤ i + (stages - 1) := fun hle =>
      absurd (fetchPos_lt_readPos_iff.mpr hle) (Nat.lt_asymm hlt)
    refine ⟨stages - 1 + 4 * (a - (stages - 1)) + 1, ?_, ?_, ring_turn (by omega) (by omega)⟩
    · rw [readPos]
      omega
    · rw [fetchPos, if_neg (by omega)]
      omega

/-- Between the copies of a tile and its reads nothing is copied into its slot. -/
lemma last_fetch (hS : 2 ≤ stages) (hw : fetchPos stages i < q) (hq : q < readPos stages i) :
    ¬IsWrite (ring stages tiles cells) q (i % stages) := by
  intro hwrite
  obtain ⟨a, -, rfl, hslot⟩ := isWrite_ring.mp hwrite
  have hround := add_le_of_slot (fetchPos_lt_iff.mp hw) hslot
  have hle := fetchPos_lt_readPos_iff.mp hq
  omega

section
variable [DecidableEq T] [DecidableEq A]

/-- What is in the slot at a read: the tile, with no copy under way. -/
theorem ring_read (hS : 2 ≤ stages) (hi : i < tiles) (hcons : Consistent (cells i))
    {s : State T A V} (hs : Reachable (ring stages tiles cells) s) {t : T}
    (ht : s.pos t = readPos stages i) :
    (∀ u p, s.flying u p → ¬IsWrite (ring stages tiles cells) p (i % stages)) ∧
      ∀ u, ∀ c ∈ cells i u, s.mem (i % stages) c.1 = c.2 := by
  have hq : ring stages tiles cells (s.pos t) = some (.read (i % stages)) := by
    rw [ht]
    exact ring_turn hi (by omega)
  obtain ⟨hidle, hcells⟩ := (ring_disciplined hS).read_sees hs hq
  have hfetch : ring stages tiles cells (fetchPos stages i) = _ :=
    ring_fetchPos (show i < stages - 1 + tiles by omega)
  simp only [fetch, if_pos hi] at hfetch
  rw [ht] at hcells
  exact ⟨hidle, hcells _ true (cells i) (fetchPos_lt_readPos_iff.mpr (by omega)) hfetch hcons
    fun w' => last_fetch hS⟩

/-- No thread copies a tile into the slot of tile `i` before all have read that. -/
theorem ring_write_waits (hS : 2 ≤ stages) (hi : i < tiles) (ha : a < stages - 1 + tiles)
    (hlt : i < a) (hslot : a % stages = i % stages) {s : State T A V}
    (hs : Reachable (ring stages tiles cells) s) {u : T} (hu : fetchPos stages a ≤ s.pos u)
    (t : T) :
    readPos stages i < s.pos t := by
  have hround := add_le_of_slot hlt hslot.symm
  refine (ring_disciplined hS).write_waits hs (read_ring.mpr ⟨i, hi, rfl, rfl⟩)
    (isWrite_ring.mpr ⟨a, ha, rfl, hslot.symm⟩) ?_ hu t
  rw [fetchPos, if_neg (by omega), readPos]
  omega

/-- A thread finds the tile. -/
theorem ring_sees (hS : 2 ≤ stages) (hi : i < tiles) (hcons : Consistent (cells i)) {t : T}
    {f : A → V} (hsees : Sees (ring stages tiles cells) (readPos stages i) (i % stages) t f)
    (u : T) : ∀ c ∈ cells i u, f c.1 = c.2 := by
  intro c hc
  obtain ⟨s, hs, ht, hcell⟩ := hsees c.1
  rw [hcell]
  exact (ring_read hS hi hcons hs ht).2 u c hc

/-- The threads can get to every read. -/
theorem exists_ring_sees [Fintype T] (mem : ℕ → A → V) (hi : i < tiles) :
    ∃ f : A → V, ∀ t, Sees (ring stages tiles cells) (readPos stages i) (i % stages) t f := by
  refine exists_sees mem (fun q hq => ?_) _
  rw [readPos] at hq
  rcases Nat.lt_or_ge q (stages - 1) with hfirst | hge
  · rw [ring_front hfirst, Option.isSome_some]
  · obtain ⟨j, r, hr, rfl⟩ : ∃ j r, r < 4 ∧ q = stages - 1 + 4 * j + r :=
      ⟨(q - (stages - 1)) / 4, (q - (stages - 1)) % 4, Nat.mod_lt _ (by omega), by omega⟩
    rw [ring_turn (by omega) hr, Option.isSome_some]

end

end Ring

/-! ### One stage -/

section Single

variable (tiles : ℕ) (cells : ℕ → T → List (A × V))

/-- Turn `i` of the loop: store the tile, meet, read, and meet again. -/
def singleTurn (i : ℕ) : ℕ → Action T A V
  | 0 => .write false 0 (cells i)
  | 1 => .barrier
  | 2 => .read 0
  | _ => .barrier

def single : Program T A V := fun q =>
  if q / 4 < tiles then some (singleTurn cells (q / 4) (q % 4)) else none

variable {tiles cells} {i q slot : ℕ}

lemma single_turn (hi : i < tiles) {r : ℕ} (hr : r < 4) :
    single tiles cells (4 * i + r) = some (singleTurn cells i r) := by
  have hturn : (4 * i + r) / 4 = i := by omega
  have hplace : (4 * i + r) % 4 = r := by omega
  simp only [single, hturn, hplace, if_pos hi]

/-- What the places of the program are. -/
lemma single_cases {x : Action T A V} (h : single tiles cells q = some x) :
    ∃ i < tiles, ∃ r < 4, q = 4 * i + r ∧ x = singleTurn cells i r := by
  rw [single] at h
  split_ifs at h with hi
  exact ⟨q / 4, hi, q % 4, Nat.mod_lt q (by omega), (Nat.div_add_mod q 4).symm,
    (Option.some.inj h).symm⟩

lemma isWrite_single (h : IsWrite (single tiles cells) q slot) :
    ∃ i < tiles, q = 4 * i ∧ slot = 0 := by
  obtain ⟨async, cells', h⟩ := h
  obtain ⟨i, hi, r, hr, rfl, hx⟩ := single_cases h
  interval_cases r
  · simp only [singleTurn, Action.write.injEq] at hx
    exact ⟨i, hi, rfl, hx.2.1⟩
  all_goals simp [singleTurn] at hx

lemma read_single (h : single tiles cells q = some (.read slot)) :
    ∃ i < tiles, q = 4 * i + 2 ∧ slot = 0 := by
  obtain ⟨i, hi, r, hr, rfl, hx⟩ := single_cases h
  interval_cases r
  · simp [singleTurn] at hx
  · simp [singleTurn] at hx
  · exact ⟨i, hi, rfl, Action.read.inj hx⟩
  · simp [singleTurn] at hx

/-- A store is done when the barrier behind it is reached. -/
lemma settled_store (hi : i < tiles) : Settled (single tiles cells) (4 * i) (4 * i + 1) where
  barrier := single_turn hi (by omega)
  lt := by omega
  waited slot cells' h := by
    rw [show 4 * i = 4 * i + 0 from rfl, single_turn hi (by omega)] at h
    simp [singleTurn] at h

/-- One stage needs both barriers of a turn. -/
theorem single_disciplined : Disciplined (single tiles cells) where
  writes {w w' slot} hlt hw hw' := by
    obtain ⟨i, hi, rfl, -⟩ := isWrite_single hw
    obtain ⟨j, -, rfl, -⟩ := isWrite_single hw'
    exact ⟨4 * i + 1, by omega, settled_store hi⟩
  reads {w q slot} hlt hw hq := by
    obtain ⟨i, hi, rfl, -⟩ := isWrite_single hw
    obtain ⟨j, -, rfl, -⟩ := read_single hq
    exact ⟨4 * i + 1, by omega, settled_store hi⟩
  after {q w slot} hlt hq hw := by
    obtain ⟨i, hi, rfl, -⟩ := read_single hq
    obtain ⟨j, -, rfl, -⟩ := isWrite_single hw
    exact ⟨4 * i + 3, by omega, by omega, single_turn hi (by omega)⟩

section
variable [DecidableEq T] [DecidableEq A]

/-- What is in the stage at a read. -/
theorem single_read (hi : i < tiles) (hcons : Consistent (cells i)) {s : State T A V}
    (hs : Reachable (single tiles cells) s) {t : T} (ht : s.pos t = 4 * i + 2) :
    ∀ u, ∀ c ∈ cells i u, s.mem 0 c.1 = c.2 := by
  have hq : single tiles cells (s.pos t) = some (.read 0) := by
    rw [ht]
    exact single_turn hi (by omega)
  have hcells := (single_disciplined.read_sees hs hq).2
  rw [ht] at hcells
  refine hcells (4 * i) false (cells i) (by omega) (single_turn (r := 0) hi (by omega)) hcons
    fun w' hlow hhigh hw' => ?_
  obtain ⟨j, -, rfl, -⟩ := isWrite_single hw'
  omega

/-- No thread stores the next tile before all have read this one. -/
theorem single_write_waits (hi : i < tiles) {a : ℕ} (ha : a < tiles) (hlt : i < a)
    {s : State T A V} (hs : Reachable (single tiles cells) s) {u : T} (hu : 4 * a ≤ s.pos u)
    (t : T) :
    4 * i + 2 < s.pos t :=
  single_disciplined.write_waits hs (single_turn hi (by omega))
    ⟨false, cells a, single_turn (r := 0) ha (by omega)⟩ (by omega) hu t

/-- A thread finds the tile. -/
theorem single_sees (hi : i < tiles) (hcons : Consistent (cells i)) {t : T} {f : A → V}
    (hsees : Sees (single tiles cells) (4 * i + 2) 0 t f) (u : T) :
    ∀ c ∈ cells i u, f c.1 = c.2 := by
  intro c hc
  obtain ⟨s, hs, ht, hcell⟩ := hsees c.1
  rw [hcell]
  exact single_read hi hcons hs ht u c hc

/-- The threads can get to every read. -/
theorem exists_single_sees [Fintype T] (mem : ℕ → A → V) (hi : i < tiles) :
    ∃ f : A → V, ∀ t, Sees (single tiles cells) (4 * i + 2) 0 t f := by
  refine exists_sees mem (fun q hq => ?_) _
  rw [single, if_pos (by omega), Option.isSome_some]

end

end Single

end Pipeline
