import VibeVoice.Lib.History
import VibeVoice.Lib.Loop
import VibeVoice.Status

/-!
The resamplers of `resample.c`.

Positions are taken exactly, as natural numbers; the arithmetic on the taps is left open, so an
output is given by the taps it sums over (`Output`).  A tap outside the samples at hand is a fault
(`none`), and every allocation succeeds.

* `resample`: the resampler for a whole file.
* `push`, `finish`: the resampler for a stream, which keeps the end of its input only.
* `stream_eq_resample`: however a signal is cut into pushes, the stream gives what the resampler
  for the whole file gives, and reads nothing it has given up.
-/

namespace VibeVoice.Resample

variable {α : Type}

/-- An output sample, by what it is computed from: a copied sample, or the sum of output `i` over
the taps at offsets `j` from its center. -/
inductive Output (α : Type)
  | copy (sample : α)
  | filtered (i : ℕ) (taps : List (ℤ × α))
  deriving DecidableEq, Repr

/-- `SINC_HALF_WIDTH`. -/
def sincHalfWidth : ℕ := 16

/-- Two sampling rates. -/
structure Rates where
  inSr : ℕ
  outSr : ℕ
  inSr_pos : 0 < inSr
  outSr_pos : 0 < outSr

/-- The rates both functions accept. -/
def rates (inSr outSr : ℤ) : Checked Rates :=
  if h : 0 < inSr ∧ 0 < outSr then
    pure ⟨inSr.toNat, outSr.toNat, by omega, by omega⟩
  else throw .invalidArg

/-- The input sample under output `i`: `(int64_t)((double)i / ratio)`. -/
def center (rs : Rates) (i : ℕ) : ℕ := i * rs.inSr / rs.outSr

/-- As many outputs as `inLen` samples make. -/
def total (rs : Rates) (inLen : ℕ) : ℕ := inLen * rs.outSr / rs.inSr + 1

/-- The offsets `-half_w .. half_w`. -/
def offsets : List ℤ :=
  (List.range (2 * sincHalfWidth + 1)).map fun k : ℕ => (k : ℤ) - sincHalfWidth

/-- `resample_one`: output `i` from the samples of `inp`, with taps before `inLen`. -/
def resampleOne (rs : Rates) (inp : History α) (inLen i : ℕ) : Option (Output α) :=
  let inside := offsets.filter fun j => 0 ≤ (center rs i : ℤ) + j ∧ (center rs i : ℤ) + j < inLen
  (inside.mapM fun j => (inp.read (center rs i + j)).map fun sample => (j, sample)).map
    (Output.filtered i)

/-- `vv_audio_resample`. -/
def resample (inp : List α) (inSr targetSr : ℤ) : Checked (List (Output α)) := do
  let rs ← rates inSr targetSr
  if inp = [] then throw .invalidArg
  else if rs.inSr = rs.outSr then pure (inp.map .copy)
  else
    ExceptT.lift <| (List.range (total rs inp.length)).mapM
      (resampleOne rs ⟨0, inp⟩ inp.length)

/-- `vv_resampler_t`. -/
structure Resampler (α : Type) where
  rates : Rates
  hist : History α
  next : ℕ
  finished : Bool

/-- `vv_resampler_create`. -/
def create (inSr outSr : ℤ) : Checked (Resampler α) := do
  let rs ← rates inSr outSr
  pure ⟨rs, ⟨0, []⟩, 0, false⟩

/-- The history once outputs below `next` are out: no later one reaches what is dropped. -/
def dropOld (rs : Rates) (hist : History α) (next : ℕ) : History α :=
  let keepFrom : ℤ := (center rs next : ℤ) - sincHalfWidth - 1
  if hist.base < keepFrom then hist.drop (keepFrom - hist.base).toNat else hist

/-- `rs_emit`. -/
def emit (r : Resampler α) (limit inLen : ℕ) : Option (List (Output α) × Resampler α) :=
  if limit ≤ r.next then some ([], r)
  else do
    let outs ← (List.range' r.next (limit - r.next)).mapM (resampleOne r.rates r.hist inLen)
    pure (outs, { r with next := limit, hist := dropOld r.rates r.hist limit })

lemma lt_of_center_lt {rs : Rates} {i n : ℕ} (h : center rs i < n) : i < n * rs.outSr := by
  have hmul : i * rs.inSr < n * rs.outSr := (Nat.div_lt_iff_lt_mul rs.outSr_pos).mp h
  exact lt_of_le_of_lt (Nat.le_mul_of_pos_right i rs.inSr_pos) hmul

/-- The loop of `vv_resampler_push` for the outputs whose taps have all arrived. -/
def limitFrom (rs : Rates) (arrived limit : ℕ) : ℕ :=
  if _h : center rs limit + sincHalfWidth < arrived then limitFrom rs arrived (limit + 1)
  else limit
termination_by arrived * rs.outSr - limit
decreasing_by
  have hlt : limit < arrived * rs.outSr := lt_of_center_lt (show center rs limit < arrived by omega)
  omega

/-- `vv_resampler_push`. -/
def push (r : Resampler α) (inp : List α) : Checked (List (Output α) × Resampler α) :=
  if r.finished then throw .invalidArg
  else if r.rates.inSr = r.rates.outSr then pure (inp.map .copy, r)
  else
    let hist := r.hist.push inp
    ExceptT.lift <|
      emit { r with hist := hist } (limitFrom r.rates hist.arrived r.next) hist.arrived

/-- `vv_resampler_finish`. -/
def finish (r : Resampler α) : Checked (List (Output α) × Resampler α) :=
  if r.finished then pure ([], r)
  else
    let r := { r with finished := true }
    if r.rates.inSr = r.rates.outSr then pure ([], r)
    else if r.hist.arrived = 0 then pure ([], r)
    else ExceptT.lift <| emit r (total r.rates r.hist.arrived) r.hist.arrived

/-- Pushes in a row, for all they give out. -/
def pushAll (r : Resampler α) : List (List α) → Checked (List (Output α) × Resampler α)
  | [] => pure ([], r)
  | inp :: inps => do
      let (outs, r) ← push r inp
      let (outs', r) ← pushAll r inps
      pure (outs ++ outs', r)

/-- A stream: its pushes, and the flush behind them. -/
def stream (inSr outSr : ℤ) (inps : List (List α)) : Checked (List (Output α)) := do
  let r ← create inSr outSr
  let (outs, r) ← pushAll r inps
  let (outs', _) ← finish r
  pure (outs ++ outs')

/-! ### The taps of one output -/

/-- Output `i` of the whole signal `xs`. -/
def outputOf (rs : Rates) (xs : List α) (i : ℕ) : Output α :=
  .filtered i <| offsets.filterMap fun j =>
    if 0 ≤ (center rs i : ℤ) + j then
      xs[((center rs i : ℤ) + j).toNat]?.map fun sample => (j, sample)
    else none

lemma mem_offsets {j : ℤ} (h : j ∈ offsets) : -16 ≤ j ∧ j ≤ 16 := by
  obtain ⟨k, hk, rfl⟩ := List.mem_map.mp h
  rw [List.mem_range, sincHalfWidth] at hk
  rw [sincHalfWidth]
  omega

lemma mapM_filter_eq_some {β γ : Type} {p : β → Bool} {f g : β → Option γ} {xs : List β}
    (hf : ∀ x ∈ xs, p x → f x = g x ∧ (g x).isSome) (hg : ∀ x ∈ xs, ¬p x → g x = none) :
    (xs.filter p).mapM f = some (xs.filterMap g) := by
  induction xs with
  | nil => rfl
  | cons x xs ih =>
    have htail := ih (fun y hy => hf y (List.mem_cons_of_mem x hy))
      fun y hy => hg y (List.mem_cons_of_mem x hy)
    cases hx : p x with
    | true =>
      obtain ⟨hfx, hsome⟩ := hf x List.mem_cons_self hx
      obtain ⟨y, hy⟩ := Option.isSome_iff_exists.mp hsome
      rw [List.filter_cons_of_pos hx, List.mapM_cons, hfx, hy, htail,
        List.filterMap_cons_some hy]
      rfl
    | false =>
      have hnone := hg x List.mem_cons_self (by rw [hx]; exact Bool.false_ne_true)
      rw [List.filter_cons_of_neg (by rw [hx]; exact Bool.false_ne_true), htail,
        List.filterMap_cons_none hnone]

/-- An output is that of the whole signal when the history still reaches its taps, and the taps
end with the signal or have all arrived. -/
lemma resampleOne_eq {rs : Rates} {hist : History α} {seen xs : List α} {i : ℕ}
    (hh : hist.Of seen) (hseen : seen <+: xs) (hbase : hist.base ≤ center rs i - 16)
    (hlast : seen = xs ∨ center rs i + 16 < seen.length) :
    resampleOne rs hist seen.length i = some (outputOf rs xs i) := by
  obtain ⟨ys, rfl⟩ := hseen
  rw [resampleOne, outputOf]
  have hinside : ∀ k < seen.length, (seen ++ ys)[k]? = seen[k]? := fun k hk =>
    List.getElem?_append_left hk
  rw [mapM_filter_eq_some (g := fun j => if 0 ≤ (center rs i : ℤ) + j then
      (seen ++ ys)[((center rs i : ℤ) + j).toNat]?.map fun sample => (j, sample) else none)]
  · rfl
  · intro j hj hin
    obtain ⟨h0, hlt⟩ := of_decide_eq_true hin
    obtain ⟨k, hk⟩ := Int.eq_ofNat_of_zero_le h0
    have hklt : k < seen.length := by omega
    have hkbase : hist.base ≤ k := by
      have hmem := mem_offsets hj
      omega
    rw [if_pos h0, hk, Int.toNat_natCast, hh.read hkbase, hinside k hklt]
    exact ⟨rfl, by rw [List.getElem?_eq_getElem hklt]; rfl⟩
  · intro j hj hout
    have hmem := mem_offsets hj
    split_ifs with h0
    · have hge : (seen.length : ℤ) ≤ center rs i + j := by
        by_contra hlt
        exact hout (decide_eq_true ⟨h0, not_le.mp hlt⟩)
      rcases hlast with hall | hlt
      · have hys : ys = [] := List.append_right_eq_self.mp hall.symm
        rw [hys, List.append_nil, List.getElem?_eq_none (by omega)]
        rfl
      · omega
    · rfl

/-! ### The outputs of one call -/

lemma center_mono (rs : Rates) {i k : ℕ} (h : i ≤ k) : center rs i ≤ center rs k :=
  Nat.div_le_div_right (Nat.mul_le_mul_right _ h)

/-- An output whose center has arrived is one of those the whole signal makes. -/
lemma lt_total {rs : Rates} {i n : ℕ} (h : center rs i < n) : i < total rs n := by
  have hmul : i * rs.inSr < n * rs.outSr := (Nat.div_lt_iff_lt_mul rs.outSr_pos).mp h
  exact Nat.lt_succ_of_le ((Nat.le_div_iff_mul_le rs.inSr_pos).mpr hmul.le)

lemma limitFrom_spec (rs : Rates) (arrived limit : ℕ) :
    limit ≤ limitFrom rs arrived limit ∧ ∀ i, limit ≤ i → i < limitFrom rs arrived limit →
      center rs i + 16 < arrived := by
  induction h : arrived * rs.outSr - limit using Nat.strong_induction_on generalizing limit with
  | _ n ih =>
    rw [limitFrom]
    split_ifs with hlt
    · have hcenter : center rs limit < arrived := by omega
      have hbound := lt_of_center_lt hcenter
      obtain ⟨hle, hall⟩ := ih _ (by omega) (limit + 1) rfl
      refine ⟨by omega, fun i hi hil => ?_⟩
      rcases hi.eq_or_lt with rfl | hgt
      · exact hlt
      · exact hall i hgt hil
    · exact ⟨le_rfl, fun i hi hil => absurd hil (by omega)⟩

/-- What is dropped is out of the reach of every later output. -/
lemma dropOld_base {rs : Rates} {hist : History α} {next : ℕ}
    (h : hist.base ≤ center rs next - 17) :
    (dropOld rs hist next).base ≤ center rs next - 17 := by
  rw [dropOld, sincHalfWidth]
  split_ifs with hkeep
  · change hist.base + min _ hist.buf.length ≤ _
    omega
  · exact h

lemma dropOld_of {rs : Rates} {hist : History α} {seen : List α} (next : ℕ) (h : hist.Of seen) :
    (dropOld rs hist next).Of seen := by
  rw [dropOld]
  split_ifs
  · exact h.drop _
  · exact h

/-- A stream between two calls: what it has given out of the signal `xs`, of which `seen` has
arrived. -/
structure Follows (xs seen : List α) (r : Resampler α) : Prop where
  arrived : seen <+: xs
  hist : r.hist.Of seen
  base : r.hist.base ≤ center r.rates r.next - 17
  out : ∀ i < r.next, center r.rates i + 16 < seen.length

/-- `rs_emit` gives out the outputs of the whole signal up to its limit. -/
lemma emit_eq {xs seen : List α} {r : Resampler α} {limit : ℕ} (h : Follows xs seen r)
    (hnext : r.next ≤ limit)
    (hlast : seen = xs ∨ ∀ i < limit, center r.rates i + 16 < seen.length) :
    ∃ hist, emit r limit seen.length =
        some ((List.range' r.next (limit - r.next)).map (outputOf r.rates xs),
          { r with next := limit, hist := hist }) ∧
      hist.Of seen ∧ hist.base ≤ center r.rates limit - 17 := by
  rw [emit]
  split_ifs with hle
  · have heq : limit = r.next := le_antisymm hle hnext
    subst heq
    exact ⟨r.hist, by rw [Nat.sub_self]; rfl, h.hist, h.base⟩
  · have hbase : ∀ i, r.next ≤ i → r.hist.base ≤ center r.rates i - 17 := by
      intro i hi
      have hmono := center_mono r.rates hi
      have hb := h.base
      omega
    have houts : (List.range' r.next (limit - r.next)).mapM
        (resampleOne r.rates r.hist seen.length) =
        some ((List.range' r.next (limit - r.next)).map (outputOf r.rates xs)) := by
      refine Loop.mapM_eq_pure fun i hi => ?_
      rw [List.mem_range'_1] at hi
      have hb := hbase i hi.1
      exact resampleOne_eq h.hist h.arrived (by omega) (hlast.imp_right fun hall => hall i (by omega))
    refine ⟨dropOld r.rates r.hist limit, ?_, dropOld_of limit h.hist,
      dropOld_base (hbase limit hnext)⟩
    rw [houts]
    rfl

/-! ### Runs -/

lemma range'_append_range' {i k n : ℕ} (hik : i ≤ k) (hkn : k ≤ n) :
    List.range' i (k - i) ++ List.range' k (n - k) = List.range' i (n - i) := by
  have happend := List.range'_append_1 (s := i) (m := k - i) (n := n - k)
  rw [Nat.add_sub_cancel' hik] at happend
  rw [happend]
  congr 1
  omega

/-- A push gives out the outputs whose taps have all arrived. -/
lemma push_eq {xs seen inp : List α} {r : Resampler α} (h : Follows xs seen r)
    (hrun : r.finished = false) (hne : r.rates.inSr ≠ r.rates.outSr) (hinp : seen ++ inp <+: xs) :
    ∃ r', push r inp = pure ((List.range' r.next (r'.next - r.next)).map
        (outputOf r.rates xs), r') ∧ r'.rates = r.rates ∧ r'.finished = false ∧
      r.next ≤ r'.next ∧ Follows xs (seen ++ inp) r' := by
  have hhist : (r.hist.push inp).Of (seen ++ inp) := h.hist.push inp
  have harrived := hhist.arrived_eq
  obtain ⟨hle, hall⟩ := limitFrom_spec r.rates (r.hist.push inp).arrived r.next
  have hout : ∀ i < limitFrom r.rates (r.hist.push inp).arrived r.next,
      center r.rates i + 16 < (seen ++ inp).length := by
    intro i hi
    rcases Nat.lt_or_ge i r.next with hlt | hge
    · have hbefore := h.out i hlt
      rw [List.length_append]
      omega
    · exact harrived ▸ hall i hge hi
  have hfollows : Follows xs (seen ++ inp) { r with hist := r.hist.push inp } :=
    ⟨hinp, hhist, h.base, fun i hi => hout i (lt_of_lt_of_le hi hle)⟩
  obtain ⟨hist, hemit, hof, hbase⟩ := emit_eq hfollows hle (.inr hout)
  refine ⟨{ r with next := limitFrom r.rates (r.hist.push inp).arrived r.next, hist := hist },
    ?_, rfl, hrun, hle, hinp, hof, hbase, hout⟩
  rw [← harrived] at hemit
  rw [push, if_neg (by rw [hrun]; exact Bool.false_ne_true), if_neg hne]
  dsimp only
  rw [hemit]
  rfl

/-- A run of pushes gives out the first outputs of the whole signal. -/
lemma pushAll_eq {xs seen : List α} {inps : List (List α)} {r : Resampler α}
    (h : Follows xs seen r) (hrun : r.finished = false) (hne : r.rates.inSr ≠ r.rates.outSr)
    (hinps : seen ++ inps.flatten <+: xs) :
    ∃ r', pushAll r inps = pure ((List.range' r.next (r'.next - r.next)).map
        (outputOf r.rates xs), r') ∧ r'.rates = r.rates ∧ r'.finished = false ∧
      r.next ≤ r'.next ∧ Follows xs (seen ++ inps.flatten) r' := by
  induction inps generalizing seen r with
  | nil =>
    refine ⟨r, by rw [Nat.sub_self]; rfl, rfl, hrun, le_rfl, ?_⟩
    rwa [List.flatten_nil, List.append_nil]
  | cons inp inps ih =>
    rw [List.flatten_cons, ← List.append_assoc] at hinps ⊢
    obtain ⟨r₁, hpush, hrates, hrun₁, hle, hfollows⟩ :=
      push_eq h hrun hne ((List.prefix_append _ _).trans hinps)
    obtain ⟨r₂, hall, hrates₂, hrun₂, hle₂, hfollows₂⟩ :=
      ih hfollows hrun₁ (hrates ▸ hne) hinps
    refine ⟨r₂, ?_, hrates₂.trans hrates, hrun₂, hle.trans hle₂, hfollows₂⟩
    rw [pushAll, hpush, pure_bind]
    dsimp only
    rw [hall, pure_bind, hrates, ← List.map_append, range'_append_range' hle hle₂]

/-- The flush gives out the rest. -/
lemma finish_eq {xs : List α} {r : Resampler α} (h : Follows xs xs r) (hrun : r.finished = false)
    (hne : r.rates.inSr ≠ r.rates.outSr) (hxs : xs ≠ []) :
    r.next ≤ total r.rates xs.length ∧
      ∃ r', finish r = pure ((List.range' r.next (total r.rates xs.length - r.next)).map
        (outputOf r.rates xs), r') := by
  have hle : r.next ≤ total r.rates xs.length := by
    rcases Nat.eq_zero_or_pos r.next with h0 | hpos
    · omega
    · have hlast := h.out (r.next - 1) (by omega)
      have hlt : r.next - 1 < total r.rates xs.length := lt_total (by omega)
      omega
  have hfollows : Follows xs xs { r with finished := true } := ⟨h.arrived, h.hist, h.base, h.out⟩
  obtain ⟨hist, hemit, -⟩ := emit_eq hfollows hle (.inl rfl)
  refine ⟨hle, { r with finished := true, next := total r.rates xs.length, hist := hist }, ?_⟩
  have hlen : r.hist.arrived ≠ 0 := by
    rw [h.hist.arrived_eq]
    exact fun h0 => hxs (List.length_eq_zero_iff.mp h0)
  rw [finish, hrun, if_neg Bool.false_ne_true]
  dsimp only
  rw [if_neg hne, if_neg hlen, h.hist.arrived_eq, hemit]
  rfl

/-- With one rate, pushes are copied. -/
lemma pushAll_copy {inps : List (List α)} {r : Resampler α} (hrun : r.finished = false)
    (heq : r.rates.inSr = r.rates.outSr) :
    pushAll r inps = pure (inps.flatten.map .copy, r) := by
  induction inps with
  | nil => rfl
  | cons inp inps ih =>
    rw [pushAll, push, hrun, if_neg Bool.false_ne_true, if_pos heq, pure_bind]
    dsimp only
    rw [ih, pure_bind, List.flatten_cons, List.map_append]

/-- The resampler for the whole signal, by its outputs. -/
lemma resample_eq {rs : Rates} {inSr outSr : ℤ} {xs : List α}
    (hrates : rates inSr outSr = pure rs) (hxs : xs ≠ []) :
    resample xs inSr outSr = pure (if rs.inSr = rs.outSr then xs.map .copy
      else (List.range (total rs xs.length)).map (outputOf rs xs)) := by
  have houts : (List.range (total rs xs.length)).mapM (resampleOne rs ⟨0, xs⟩ xs.length) =
      some ((List.range (total rs xs.length)).map (outputOf rs xs)) :=
    Loop.mapM_eq_pure fun i _ => resampleOne_eq (.all xs) List.prefix_rfl (Nat.zero_le _) (.inl rfl)
  rw [resample, hrates, pure_bind, if_neg hxs]
  split_ifs
  · rfl
  · rw [houts]
    rfl

/-- **The streaming resampler is the resampler for the whole file**: from a signal that is not
empty, however it is cut into pushes, both make the same outputs from the same samples under the
same taps, and neither reads a sample that is not at hand. -/
theorem stream_eq_resample (inSr outSr : ℤ) (hin : 0 < inSr) (hout : 0 < outSr)
    (inps : List (List α)) (hinps : inps.flatten ≠ []) :
    ∃ outs, stream inSr outSr inps = pure outs ∧ resample inps.flatten inSr outSr = pure outs := by
  obtain ⟨rs, hrates⟩ : ∃ rs, rates inSr outSr = pure rs := ⟨_, dif_pos ⟨hin, hout⟩⟩
  refine ⟨_, ?_, resample_eq hrates hinps⟩
  rw [stream, create, hrates, pure_bind, pure_bind]
  split_ifs with heq
  · rw [pushAll_copy rfl heq, pure_bind]
    dsimp only
    rw [finish, if_neg Bool.false_ne_true, if_pos heq, pure_bind, List.append_nil]
  · have hstart : Follows inps.flatten [] (⟨rs, ⟨0, []⟩, 0, false⟩ : Resampler α) :=
      ⟨List.nil_prefix, .all [], Nat.zero_le _, fun i hi => absurd hi (Nat.not_lt_zero i)⟩
    obtain ⟨r, hall, hr, hrun, -, hfollows⟩ := pushAll_eq hstart rfl heq List.prefix_rfl
    obtain ⟨hle, r', hfinish⟩ := finish_eq hfollows hrun (hr ▸ heq) hinps
    rw [hr] at hfinish hle
    rw [hall, pure_bind]
    dsimp only at hfinish hle ⊢
    rw [hfinish, pure_bind, ← List.map_append, range'_append_range' (Nat.zero_le _) hle,
      Nat.sub_zero, List.range_eq_range']

/-- Three samples at 3 Hz in two pushes, for 2 Hz. -/
theorem stream_eq_resample_sample :
    ∃ outs, stream 3 2 [['a'], ['b', 'c']] = pure outs ∧ resample ['a', 'b', 'c'] 3 2 = pure outs :=
  stream_eq_resample 3 2 (by decide) (by decide) [['a'], ['b', 'c']] (by decide)

end VibeVoice.Resample
