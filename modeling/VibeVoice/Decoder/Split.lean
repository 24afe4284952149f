import Mathlib.Algebra.BigOperators.Group.List.Basic
import Mathlib.Data.List.GetD
import Mathlib.Data.Rat.Floor
import Mathlib.Tactic

/-!
The layers of a model on several devices (`split_layers`).

Ratios are exact, and an `int` has room for every number of layers.

* `pick_spec`: the loop over the devices finds the largest share, or the smallest one.
* `settle_covers`: the repair keeps every share at one layer or more and ends with the exact sum;
  it never stops in front of a share of one, since then there are too few devices for the sum.
* `splitLayers_covers`: every layer falls into the range of exactly one device.
-/

namespace VibeVoice.Split

/-! ### The shares -/

/-- A share before the repair: `(int)(n_layers * (room + 1.0) / total + 0.5)`, at least `1`. -/
def share (nLayers : ℤ) (total : ℚ) (room : ℕ) : ℤ :=
  let out := ⌊(nLayers : ℚ) * ((room : ℚ) + 1) / total + 1 / 2⌋
  if out < 1 then 1 else out

/-- `out` and `assigned`. -/
structure Shares where
  out : List ℤ
  assigned : ℤ

/-- The entry at an index of the loops. -/
def entry (out : List ℤ) (i : ℕ) : ℤ := out.getD i 0

/-- `pick`: the first largest share where too many are assigned, the first smallest one else. -/
def pick (tooMany : Bool) (out : List ℤ) : ℕ :=
  (List.range' 1 (out.length - 1)).foldl
    (fun pick i =>
      if if tooMany then entry out i > entry out pick else entry out i < entry out pick then i
      else pick) 0

/-- The loop that settles what rounding has left. -/
def settle (nLayers : ℤ) (s : Shares) : Shares :=
  if s.assigned = nLayers then s
  else
    let p := pick (nLayers < s.assigned) s.out
    if nLayers < s.assigned then
      if entry s.out p ≤ 1 then s
      else settle nLayers ⟨s.out.set p (entry s.out p - 1), s.assigned - 1⟩
    else settle nLayers ⟨s.out.set p (entry s.out p + 1), s.assigned + 1⟩
termination_by (s.assigned - nLayers).natAbs
decreasing_by all_goals omega

/-- `split_layers`. -/
def splitLayers (room : List ℕ) (nLayers : ℤ) : List ℤ :=
  let total := (room.map fun r : ℕ => (r : ℚ) + 1).sum
  let out := room.map (share nLayers total)
  (settle nLayers ⟨out, out.sum⟩).out

/-- The ranges of the shards, from the layer `next` on. -/
def shardRanges : ℤ → List ℤ → List (ℤ × ℤ)
  | _, [] => []
  | next, n :: split => (next, n) :: shardRanges (next + n) split

/-- The first layer of each device and how many it has: the primary's, then those of the shards. -/
def layerRanges : List ℤ → List (ℤ × ℤ)
  | [] => []
  | primary :: split => (0, primary) :: shardRanges primary split

/-! ### The device that is picked -/

/-- The loop for the first largest value. -/
lemma foldl_largest (f : ℕ → ℤ) (count : ℕ) :
    (List.range' 1 count).foldl (fun p i => if f p < f i then i else p) 0 ≤ count ∧
      ∀ j ≤ count, f j ≤ f ((List.range' 1 count).foldl (fun p i => if f p < f i then i else p) 0) := by
  induction count with
  | zero => exact ⟨le_rfl, fun j hj => by rw [Nat.le_zero.mp hj]; exact le_rfl⟩
  | succ n ih =>
    obtain ⟨hp, hmax⟩ := ih
    rw [List.range'_1_concat, List.foldl_append, List.foldl_cons, List.foldl_nil]
    have hlast : ∀ j ≤ n + 1, j ≤ n ∨ j = 1 + n := fun j hj => by omega
    split_ifs with hlt
    · refine ⟨by omega, fun j hj => ?_⟩
      rcases hlast j hj with hj | rfl
      · exact (hmax j hj).trans hlt.le
      · exact le_rfl
    · refine ⟨by omega, fun j hj => ?_⟩
      rcases hlast j hj with hj | rfl
      · exact hmax j hj
      · exact not_lt.mp hlt

lemma pick_largest {out : List ℤ} (hne : out ≠ []) :
    pick true out < out.length ∧ ∀ j < out.length, entry out j ≤ entry out (pick true out) := by
  have hlen := List.length_pos_of_ne_nil hne
  obtain ⟨hp, hmax⟩ := foldl_largest (entry out) (out.length - 1)
  have hpick : pick true out = (List.range' 1 (out.length - 1)).foldl
      (fun p i => if entry out p < entry out i then i else p) 0 := by
    simp [pick]
  rw [hpick]
  exact ⟨by omega, fun j hj => hmax j (by omega)⟩

lemma pick_lt (tooMany : Bool) {out : List ℤ} (hne : out ≠ []) : pick tooMany out < out.length := by
  cases tooMany with
  | true => exact (pick_largest hne).1
  | false =>
    have hlen := List.length_pos_of_ne_nil hne
    obtain ⟨hp, -⟩ := foldl_largest (fun i => -entry out i) (out.length - 1)
    have hpick : pick false out = (List.range' 1 (out.length - 1)).foldl
        (fun p i => if -entry out p < -entry out i then i else p) 0 := by
      simp [pick]
    rw [hpick]
    omega

/-! ### The repair -/

/-- What every round keeps. -/
structure Fair (devices : ℕ) (s : Shares) : Prop where
  length : s.out.length = devices
  pos : ∀ n ∈ s.out, 1 ≤ n
  sum : s.out.sum = s.assigned

lemma entry_mem {out : List ℤ} {i : ℕ} (hi : i < out.length) : entry out i ∈ out := by
  rw [entry, List.getD_eq_getElem _ _ hi]
  exact List.getElem_mem hi

/-- A round that changes one share and the sum alike. -/
lemma Fair.set {devices : ℕ} {s : Shares} (h : Fair devices s) {p : ℕ} (hp : p < s.out.length)
    {d : ℤ} (hd : 1 ≤ entry s.out p + d) :
    Fair devices ⟨s.out.set p (entry s.out p + d), s.assigned + d⟩ where
  length := by rw [List.length_set, h.length]
  pos n hn := by
    rcases List.mem_or_eq_of_mem_set hn with hn | rfl
    · exact h.pos n hn
    · exact hd
  sum := by
    have hentry : entry s.out p = s.out[p] := List.getD_eq_getElem _ _ hp
    rw [List.sum_set', dif_pos hp, h.sum, hentry]
    ring

/-- Shares of one layer each are too few. -/
lemma Fair.sum_le {devices : ℕ} {s : Shares} (h : Fair devices s)
    (hone : ∀ j < s.out.length, entry s.out j ≤ 1) : s.assigned ≤ devices := by
  have hall : ∀ n ∈ s.out, n ≤ 1 := by
    intro n hn
    obtain ⟨j, hj, rfl⟩ := List.mem_iff_getElem.mp hn
    have hentry : entry s.out j = s.out[j] := List.getD_eq_getElem _ _ hj
    exact hentry ▸ hone j hj
  have hsum := List.sum_le_card_nsmul s.out 1 hall
  rw [h.sum, h.length, nsmul_one] at hsum
  exact hsum

/-- The repair ends with the exact sum. -/
lemma settle_covers {devices : ℕ} {nLayers : ℤ} (hpos : 0 < devices)
    (hle : (devices : ℤ) ≤ nLayers) (s : Shares) (h : Fair devices s) :
    Fair devices (settle nLayers s) ∧ (settle nLayers s).assigned = nLayers := by
  have hne : ∀ {s : Shares}, Fair devices s → s.out ≠ [] := by
    intro s hs hnil
    have hlen := hs.length
    rw [hnil, List.length_nil] at hlen
    omega
  induction s using settle.induct nLayers with
  | case1 s heq =>
    rw [settle, if_pos heq]
    exact ⟨h, heq⟩
  | case2 s hneq p hmany hone =>
    -- the largest share is one layer, and so are all
    obtain ⟨-, hmax⟩ := pick_largest (hne h)
    have hpick : p = pick true s.out := by simp [p, hmany]
    rw [hpick] at hone
    have hsum := h.sum_le fun j hj => (hmax j hj).trans hone
    omega
  | case3 s hneq p hmany hone ih =>
    have hp : p < s.out.length := pick_lt _ (hne h)
    have hkept : 1 ≤ entry s.out p + -1 := by omega
    have hround : settle nLayers s =
        settle nLayers ⟨s.out.set p (entry s.out p - 1), s.assigned - 1⟩ := by
      rw [settle, if_neg hneq]
      simp only [if_pos hmany]
      exact if_neg hone
    rw [hround]
    exact ih (h.set hp hkept)
  | case4 s hneq p hfew ih =>
    have hp : p < s.out.length := pick_lt _ (hne h)
    have hkept : 1 ≤ entry s.out p + 1 := by
      have := h.pos _ (entry_mem hp)
      omega
    rw [settle, if_neg hneq]
    simp only [if_neg hfew]
    exact ih (h.set hp hkept)

/-! ### The ranges -/

lemma share_pos (nLayers : ℤ) (total : ℚ) (room : ℕ) : 1 ≤ share nLayers total room := by
  rw [share]
  split_ifs with h
  · exact le_rfl
  · exact not_lt.mp h

lemma shardRanges_low {split : List ℤ} (hpos : ∀ n ∈ split, 1 ≤ n) {next : ℤ} {i : ℕ}
    {r : ℤ × ℤ} (h : (shardRanges next split)[i]? = some r) : next ≤ r.1 := by
  induction split generalizing next i with
  | nil => cases h
  | cons n split ih =>
    cases i with
    | zero =>
      cases h
      exact le_rfl
    | succ i =>
      have hn := hpos n List.mem_cons_self
      have hnext := ih (fun m hm => hpos m (List.mem_cons_of_mem n hm)) h
      omega

/-- In a row of ranges every layer lies in one. -/
lemma shardRanges_covers {split : List ℤ} (hpos : ∀ n ∈ split, 1 ≤ n) {next layer : ℤ}
    (hlow : next ≤ layer) (hhigh : layer < next + split.sum) :
    ∃! i : ℕ, ∃ r, (shardRanges next split)[i]? = some r ∧ r.1 ≤ layer ∧ layer < r.1 + r.2 := by
  induction split generalizing next with
  | nil =>
    rw [List.sum_nil] at hhigh
    omega
  | cons n split ih =>
    have hrest : ∀ m ∈ split, 1 ≤ m := fun m hm => hpos m (List.mem_cons_of_mem n hm)
    rw [List.sum_cons] at hhigh
    rcases lt_or_ge layer (next + n) with hin | hout
    · refine ⟨0, ⟨(next, n), rfl, hlow, hin⟩, ?_⟩
      rintro (- | i) ⟨r, hr, hr₁, -⟩
      · rfl
      · have hnext := shardRanges_low hrest hr
        omega
    · obtain ⟨i, ⟨r, hr, hin⟩, hunique⟩ := ih hrest hout (by omega)
      refine ⟨i + 1, ⟨r, hr, hin⟩, ?_⟩
      rintro (- | j) ⟨r', hr', hin'⟩
      · cases hr'
        omega
      · exact congrArg (· + 1) (hunique j ⟨r', hr', hin'⟩)

lemma layerRanges_eq (split : List ℤ) : layerRanges split = shardRanges 0 split := by
  cases split with
  | nil => rfl
  | cons n split => rw [layerRanges, shardRanges, zero_add]

/-! ### The whole -/

/-- With a layer or more for each device, the shares are positive, have the exact sum and give
every layer to exactly one device. -/
theorem splitLayers_covers {room : List ℕ} {nLayers : ℕ} (hdev : 0 < room.length)
    (hle : room.length ≤ nLayers) :
    (splitLayers room nLayers).length = room.length ∧ (∀ n ∈ splitLayers room nLayers, 1 ≤ n) ∧
      (splitLayers room nLayers).sum = nLayers ∧
      ∀ layer : ℤ, 0 ≤ layer → layer < nLayers →
        ∃! i : ℕ, ∃ r, (layerRanges (splitLayers room nLayers))[i]? = some r ∧
          r.1 ≤ layer ∧ layer < r.1 + r.2 := by
  have hstart : ∀ total : ℚ, Fair room.length
      ⟨room.map (share nLayers total), (room.map (share nLayers total)).sum⟩ := by
    refine fun total => ⟨List.length_map _, fun n hn => ?_, rfl⟩
    obtain ⟨r, -, rfl⟩ := List.mem_map.mp hn
    exact share_pos _ total r
  obtain ⟨hfair, hsum⟩ := settle_covers hdev (Int.ofNat_le.mpr hle) _
    (hstart (room.map fun r : ℕ => (r : ℚ) + 1).sum)
  have hexact : (splitLayers room nLayers).sum = nLayers := hfair.sum.trans hsum
  refine ⟨hfair.length, hfair.pos, hexact, fun layer hlow hhigh => ?_⟩
  rw [layerRanges_eq]
  refine shardRanges_covers hfair.pos hlow ?_
  rw [zero_add]
  exact hhigh.trans_eq hexact.symm

theorem splitLayers_covers_three : (splitLayers [5, 0, 3] 7).sum = 7 :=
  (splitLayers_covers (by decide) (by decide)).2.2.1

end VibeVoice.Split
