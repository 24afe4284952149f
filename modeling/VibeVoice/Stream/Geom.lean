import Mathlib.Tactic
import Mathlib.Algebra.Order.Floor.Div
import VibeVoice.Status

/-!
The window geometry of a streaming checkpoint (`stream.c`).

The counts are C `int`s, and `chunk_frames + lookahead_frames` is an `int` sum: it is kept in
`Int32`, where it wraps, and `Geom.NoWrap` says that it does not.  The products are taken in
`int64_t`, which holds them.

* `geomValidate_sound_iff`: the check is sound as long as that sum does not wrap.
-/

namespace VibeVoice.Stream

/-- `vv_stream_geom_t`. -/
structure Geom where
  sampleRate : Int32
  frameSamples : Int32
  chunkFrames : Int32
  lookaheadFrames : Int32
  normalizeAudio : Bool
  deriving DecidableEq

/-- `vv_stream_geom_default`. -/
def geomDefault : Geom where
  sampleRate := 24000
  frameSamples := 3200
  chunkFrames := 22
  lookaheadFrames := 4
  normalizeAudio := false

/-- `vv_stream_window_frames`. -/
def windowFrames (g : Geom) : Int32 := g.chunkFrames + g.lookaheadFrames

/-- `vv_stream_chunk_samples`. -/
def chunkSamples (g : Geom) : ℤ := g.chunkFrames.toInt * g.frameSamples.toInt

/-- `vv_stream_window_samples`. -/
def windowSamples (g : Geom) : ℤ := (g.chunkFrames + g.lookaheadFrames).toInt * g.frameSamples.toInt

/-- `vv_stream_geom_validate`. -/
def geomValidate (g : Geom) : Except Status Unit :=
  if g.sampleRate ≤ 0 ∨ g.frameSamples ≤ 0 ∨ g.chunkFrames ≤ 0 ∨ g.lookaheadFrames < 0 then
    .error .invalidArg
  else if 2 ^ 26 < (g.chunkFrames + g.lookaheadFrames).toInt * g.frameSamples.toInt then
    .error .invalidArg
  else .ok ()

/-- `vv_stream_n_windows`. -/
def nWindows (g : Geom) (total : ℤ) : ℤ :=
  if total ≤ 0 then 0 else (total + chunkSamples g - 1).tdiv (chunkSamples g)

/-- The sum of the frame counts stays in the range of an `int`. -/
def Geom.NoWrap (g : Geom) : Prop := g.chunkFrames.toInt + g.lookaheadFrames.toInt < 2 ^ 31

instance (g : Geom) : Decidable g.NoWrap := inferInstanceAs (Decidable (_ < _))

/-- The defaults pass their own check. -/
example : geomValidate geomDefault = .ok () ∧ geomDefault.NoWrap := ⟨by decide, by decide⟩

section Valid

variable {g : Geom}

/-- What a valid geometry promises. -/
lemma geomValidate_ok (h : geomValidate g = .ok ()) :
    0 < g.sampleRate.toInt ∧ 0 < g.frameSamples.toInt ∧ 0 < g.chunkFrames.toInt ∧
      0 ≤ g.lookaheadFrames.toInt ∧ windowSamples g ≤ 2 ^ 26 := by
  simp only [geomValidate] at h
  split_ifs at h with hcounts hwindow
  simp only [not_or, Int32.lt_iff_toInt_lt, Int32.le_iff_toInt_le, not_le, not_lt,
    Int32.toInt_zero] at hcounts
  obtain ⟨hrate, hframe, hchunk, hlook⟩ := hcounts
  exact ⟨hrate, hframe, hchunk, hlook, not_lt.mp hwindow⟩

lemma windowFrames_toInt (h : geomValidate g = .ok ()) (hw : g.NoWrap) :
    (windowFrames g).toInt = g.chunkFrames.toInt + g.lookaheadFrames.toInt := by
  obtain ⟨_, _, hchunk, hlook, _⟩ := geomValidate_ok h
  simp only [Geom.NoWrap] at hw
  rw [windowFrames, Int32.toInt_add]
  refine Int.bmod_eq_of_le ?_ ?_ <;> omega

lemma chunkSamples_pos (h : geomValidate g = .ok ()) : 0 < chunkSamples g := by
  obtain ⟨_, hframe, hchunk, _, _⟩ := geomValidate_ok h
  exact mul_pos hchunk hframe

/-- A window is a chunk and its lookahead. -/
lemma windowSamples_eq (h : geomValidate g = .ok ()) (hw : g.NoWrap) :
    windowSamples g = chunkSamples g + g.lookaheadFrames.toInt * g.frameSamples.toInt := by
  have hsum := windowFrames_toInt h hw
  rw [windowFrames] at hsum
  rw [windowSamples, hsum, add_mul, chunkSamples]

lemma chunkSamples_le_windowSamples (h : geomValidate g = .ok ()) (hw : g.NoWrap) :
    chunkSamples g ≤ windowSamples g := by
  obtain ⟨_, hframe, _, hlook, _⟩ := geomValidate_ok h
  rw [windowSamples_eq h hw]
  exact le_add_of_nonneg_right (mul_nonneg hlook hframe.le)

/-- The number of windows is the number of chunks, rounded up. -/
lemma nWindows_eq_ceilDiv (h : geomValidate g = .ok ()) (total : ℕ) :
    nWindows g total = ((total ⌈/⌉ (chunkSamples g).toNat : ℕ) : ℤ) := by
  have hpos := chunkSamples_pos h
  have hcast : ((chunkSamples g).toNat : ℤ) = chunkSamples g := Int.toNat_of_nonneg hpos.le
  rw [Nat.ceilDiv_eq_add_pred_div]
  by_cases ht : total = 0
  · subst ht
    simp only [nWindows, Nat.cast_zero, le_refl, if_true, zero_add]
    rw [Nat.div_eq_of_lt (by omega), Nat.cast_zero]
  · rw [nWindows, if_neg (by omega), Int.tdiv_eq_ediv_of_nonneg (by omega)]
    rw [Int.natCast_div, Nat.cast_sub (by omega), Nat.cast_add, hcast, Nat.cast_one]

/-- A sum that wraps leaves a negative window, which passes the check. -/
lemma windowSamples_neg (h : geomValidate g = .ok ()) (hw : ¬ g.NoWrap) : windowSamples g < 0 := by
  obtain ⟨_, hframe, hchunk, hlook, _⟩ := geomValidate_ok h
  have hc := g.chunkFrames.toInt_lt
  have hl := g.lookaheadFrames.toInt_lt
  rw [Geom.NoWrap, not_lt] at hw
  have hsum : (g.chunkFrames + g.lookaheadFrames).toInt =
      g.chunkFrames.toInt + g.lookaheadFrames.toInt - 2 ^ 32 := by
    rw [Int32.toInt_add, ← Int.sub_bmod_right]
    refine Int.bmod_eq_of_le ?_ ?_ <;> omega
  rw [windowSamples, hsum]
  exact mul_neg_of_neg_of_pos (by omega) hframe

/-- What the check is for: the counts of an accepted geometry are in order, and none of the `int`
and `int64_t` operations that compute them overflows. -/
structure Geom.Sound (g : Geom) : Prop where
  chunk_pos : 0 < chunkSamples g
  chunk_le : chunkSamples g ≤ windowSamples g
  window_le : windowSamples g ≤ 2 ^ 26
  sum_eq : (windowFrames g).toInt = g.chunkFrames.toInt + g.lookaheadFrames.toInt
  chunk_fits : -2 ^ 63 ≤ chunkSamples g ∧ chunkSamples g < 2 ^ 63
  window_fits : -2 ^ 63 ≤ windowSamples g ∧ windowSamples g < 2 ^ 63

/-- An accepted geometry is sound, and even its window is no shorter than its chunk, just if the
sum of its frame counts is an `int`. -/
theorem geomValidate_sound_iff (h : geomValidate g = .ok ()) :
    (g.Sound ↔ g.NoWrap) ∧ (chunkSamples g ≤ windowSamples g ↔ g.NoWrap) := by
  have hpos := chunkSamples_pos h
  have hmax := (geomValidate_ok h).2.2.2.2
  have hle : chunkSamples g ≤ windowSamples g ↔ g.NoWrap := by
    refine ⟨fun hle => not_not.mp fun hw => ?_, chunkSamples_le_windowSamples h⟩
    have hneg := windowSamples_neg h hw
    omega
  refine ⟨⟨fun hsound => hle.mp hsound.chunk_le, fun hw => ?_⟩, hle⟩
  have hchunk := hle.mpr hw
  exact ⟨hpos, hchunk, hmax, windowFrames_toInt h hw, by omega, by omega⟩

/-- The geometry of the published checkpoint. -/
theorem geomValidate_sound_default :
    (geomDefault.Sound ↔ geomDefault.NoWrap) ∧
      (chunkSamples geomDefault ≤ windowSamples geomDefault ↔ geomDefault.NoWrap) :=
  geomValidate_sound_iff (g := geomDefault) (by decide)

/-- 2147483647 frames and one of lookahead pass, with a window of -2147483648 frames. -/
theorem geomValidate_unsound :
    geomValidate ⟨24000, 3200, 2147483647, 1, false⟩ = .ok () ∧
      windowSamples ⟨24000, 3200, 2147483647, 1, false⟩ = -6871947673600 ∧
      ¬ Geom.Sound ⟨24000, 3200, 2147483647, 1, false⟩ := by
  refine ⟨by decide, by decide, fun hsound => ?_⟩
  have hle := hsound.chunk_le
  revert hle
  decide

end Valid

end VibeVoice.Stream
