import Mathlib.Data.Int.Notation
import Mathlib.Data.List.Basic
import VibeVoice.Status

/-!
The two decode loops of a one-shot transcription (`pipeline.c`), from the token behind the prompt to
the tokens that are post-processed.

The teacher tokens of a debug run are left out: the host path ignores them.

* `gpuLoop`, `transcribeGpu`: the loop on the accelerator.
* `cpuLoop`, `transcribeCpu`: the loop on the host.
* `follow`: where the results of the steps lead, whatever the device.
* `transcribeGpu_eq`, `transcribeCpu_eq`: what each loop makes of that.
* `agree_iff`: the runs on which the two are the same request.
-/

namespace VibeVoice.Decode

/-! ### Requests -/

/-- The results of a decode step: of the embedding, of the layers and of the head. -/
structure Step (α : Type) where
  embed : Except Status Unit
  layers : Except Status Unit
  head : Except Status α

/-- What a transcription comes to: the token behind the prompt, the results of the steps, and which
allocations succeed. -/
structure Request (α : Type) where
  maxNewTokens : ℤ
  ends : α → Bool
  first : Except Status α
  steps : ℕ → Step α
  outAlloc : Bool
  grows : ℕ → Bool
  textAlloc : Bool
  postprocess : List α → Except Status Unit

variable {α : Type} (r : Request α)

/-- `max_new_tokens`, which is 64000 where none is asked for. -/
def Request.cap : ℕ := if r.maxNewTokens ≤ 0 then 64000 else r.maxNewTokens.toNat

/-- `out_cap`, before it grows. -/
def Request.outCap : ℕ := if r.cap < 8192 then r.cap else 8192

/-- `token_texts` is allocated. `vv_alloc` gives no block of size zero. -/
def Request.texts (out : List α) : Bool := decide (out ≠ []) && r.textAlloc

/-! ### On the accelerator -/

/-- What a decode loop leaves: the tokens, and the status unless it is `VV_OK`; the tokens are lost
where their array could not grow. -/
structure Left (α : Type) where
  out : Option (List α)
  status : Except Status Unit

/-- The decode loop of `transcribe_gpu`, with `left` tokens to the cap. -/
def gpuLoop : ℕ → ℕ → α → List α → ℕ → Left α
  | 0, _, _, out, _ => ⟨some out, .ok ()⟩
  | left + 1, k, token, out, outCap =>
    if r.ends token then ⟨some out, .ok ()⟩
    else
      match (r.steps k).embed with
      | .error e => ⟨some out, .error e⟩
      | .ok () =>
        match (r.steps k).layers with
        | .error .overflow => ⟨some out, .ok ()⟩
        | .error e => ⟨some out, .error e⟩
        | .ok () =>
          match (r.steps k).head with
          | .error e => ⟨some out, .error e⟩
          | .ok t =>
            if r.ends t then ⟨some out, .ok ()⟩
            else if outCap ≤ out.length then
              if r.grows k then gpuLoop left (k + 1) t (out ++ [t]) (outCap * 2)
              else ⟨none, .error .outOfMemory⟩
            else gpuLoop left (k + 1) t (out ++ [t]) outCap

/-- `transcribe_gpu`, from the token behind the prompt on. The result is what `*result` is set to,
which is the transcript of the tokens. -/
def transcribeGpu : Checked (Option (List α)) :=
  match r.first with
  | .error e => throw e
  | .ok token =>
    if r.outAlloc then
      let out := if r.ends token then [] else [token]
      let l := gpuLoop r (r.cap - out.length) 0 token out r.outCap
      match l.status, l.out with
      | .error e, _ => throw e
      | .ok (), none => ExceptT.mk none
      | .ok (), some out =>
        if r.texts out then
          match r.postprocess out with
          | .error e => throw e
          | .ok () => pure (some out)
        else throw .outOfMemory
    else throw .outOfMemory

/-! ### On the host -/

/-- The decode loop of `transcribe_cpu`. -/
def cpuLoop : ℕ → ℕ → α → List α → ℕ → Left α
  | 0, _, _, out, _ => ⟨some out, .ok ()⟩
  | left + 1, k, token, out, outCap =>
    if r.ends token then ⟨some out, .ok ()⟩
    else
      match (r.steps k).embed with
      | .error e => ⟨some out, .error e⟩
      | .ok () =>
        match (r.steps k).layers with
        | .error e => ⟨some out, .error e⟩
        | .ok () =>
          match (r.steps k).head with
          | .error e => ⟨some out, .error e⟩
          | .ok t =>
            if r.ends t then ⟨some out, .ok ()⟩
            else if outCap ≤ out.length then
              if r.grows k then cpuLoop left (k + 1) t (out ++ [t]) (outCap * 2)
              else ⟨none, .error .outOfMemory⟩
            else cpuLoop left (k + 1) t (out ++ [t]) outCap

/-- `transcribe_cpu`, from the token behind the prompt on. Without texts the status of the loop is
returned, and `*result` is not set; without tokens their texts are read through a null pointer. -/
def transcribeCpu : Checked (Option (List α)) :=
  match r.first with
  | .error e => throw e
  | .ok token =>
    if r.outAlloc then
      let out := if r.ends token then [] else [token]
      let l := cpuLoop r (r.cap - out.length) 0 token out r.outCap
      match l.out with
      | none => if r.textAlloc then ExceptT.mk none else
          match l.status with
          | .error e => throw e
          | .ok () => pure none
      | some out =>
        if r.texts out then
          match r.postprocess out with
          | .error e => throw e
          | .ok () => pure (some out)
        else
          match l.status with
          | .error e => throw e
          | .ok () => pure none
    else throw .outOfMemory

/-! ### Where the steps lead -/

/-- What a step comes to. -/
inductive Outcome (α : Type)
  | token (t : α)
  | full
  | fail (e : Status)

/-- The first of its parts that fails decides on a step; a window without room is no failure. -/
def Step.outcome (s : Step α) : Outcome α :=
  match s.embed, s.layers, s.head with
  | .error e, _, _ => .fail e
  | .ok (), .error .overflow, _ => .full
  | .ok (), .error e, _ => .fail e
  | .ok (), .ok (), .error e => .fail e
  | .ok (), .ok (), .ok t => .token t

/-- How the decoding ends: at an end token or the cap, at a full window, at a step that fails, or
at an array of tokens that does not grow. -/
inductive Exit
  | ended
  | full
  | failed (e : Status)
  | noMemory

/-- The tokens the steps from `k` on bring behind `out`, and how they end. -/
def follow : ℕ → ℕ → List α → ℕ → List α × Exit
  | 0, _, out, _ => (out, .ended)
  | left + 1, k, out, outCap =>
    match (r.steps k).outcome with
    | .full => (out, .full)
    | .fail e => (out, .failed e)
    | .token t =>
      if r.ends t then (out, .ended)
      else if outCap ≤ out.length then
        if r.grows k then follow left (k + 1) (out ++ [t]) (outCap * 2) else (out, .noMemory)
      else follow left (k + 1) (out ++ [t]) outCap

/-- The tokens of a transcription whose first token is `token`, and how they end. -/
def Request.run (token : α) : List α × Exit :=
  if r.ends token then ([], .ended) else follow r (r.cap - 1) 0 [token] r.outCap

/-- The accelerator's loop takes a full window for an end. -/
def gpuLeft : List α × Exit → Left α
  | (out, .ended) => ⟨some out, .ok ()⟩
  | (out, .full) => ⟨some out, .ok ()⟩
  | (out, .failed e) => ⟨some out, .error e⟩
  | (_, .noMemory) => ⟨none, .error .outOfMemory⟩

/-- The host's loop leaves the status of a full window. -/
def cpuLeft : List α × Exit → Left α
  | (out, .ended) => ⟨some out, .ok ()⟩
  | (out, .full) => ⟨some out, .error .overflow⟩
  | (out, .failed e) => ⟨some out, .error e⟩
  | (_, .noMemory) => ⟨none, .error .outOfMemory⟩

variable {r}

/-- Both loops go as `follow` does. -/
lemma loops_eq {left k : ℕ} {token : α} {out : List α} {outCap : ℕ} (h : r.ends token = false) :
    gpuLoop r left k token out outCap = gpuLeft (follow r left k out outCap) ∧
      cpuLoop r left k token out outCap = cpuLeft (follow r left k out outCap) := by
  induction left generalizing k token out outCap with
  | zero => exact ⟨rfl, rfl⟩
  | succ left ih =>
    rw [gpuLoop, cpuLoop, follow, Step.outcome, h, if_neg Bool.false_ne_true,
      if_neg Bool.false_ne_true]
    cases (r.steps k).embed with
    | error e => exact ⟨rfl, rfl⟩
    | ok _ =>
      cases (r.steps k).layers with
      | error e => cases e <;> exact ⟨rfl, rfl⟩
      | ok _ =>
        cases (r.steps k).head with
        | error e => exact ⟨rfl, rfl⟩
        | ok t =>
          dsimp only
          cases ht : r.ends t with
          | true => exact ⟨rfl, rfl⟩
          | false =>
            simp only [Bool.false_eq_true, if_false]
            split
            · split
              · exact ih ht
              · exact ⟨rfl, rfl⟩
            · exact ih ht

/-- The tokens of a run before its end, which are none only where the first token ends it. -/
lemma follow_ne_nil {left k : ℕ} {out : List α} {outCap : ℕ} (h : out ≠ []) :
    (follow r left k out outCap).1 ≠ [] := by
  induction left generalizing k out outCap with
  | zero => exact h
  | succ left ih =>
    have happend : ∀ t : α, out ++ [t] ≠ [] := fun t => List.append_ne_nil_of_left_ne_nil h _
    rw [follow]
    cases (r.steps k).outcome with
    | full => exact h
    | fail e => exact h
    | token t =>
      dsimp only
      split
      · exact h
      · split
        · split
          · exact ih (happend t)
          · exact h
        · exact ih (happend t)

/-- A run whose first token is its end has no loop. -/
lemma gpuLoop_run (token : α) :
    gpuLoop r (r.cap - (if r.ends token then [] else [token]).length) 0 token
      (if r.ends token then [] else [token]) r.outCap = gpuLeft (r.run token) := by
  rw [Request.run]
  cases hends : r.ends token with
  | true =>
    show gpuLoop r (r.cap - 0) 0 token [] r.outCap = _
    cases r.cap - 0 with
    | zero => rfl
    | succ left => rw [gpuLoop, hends]; rfl
  | false => exact (loops_eq hends).1

lemma cpuLoop_run (token : α) :
    cpuLoop r (r.cap - (if r.ends token then [] else [token]).length) 0 token
      (if r.ends token then [] else [token]) r.outCap = cpuLeft (r.run token) := by
  rw [Request.run]
  cases hends : r.ends token with
  | true =>
    show cpuLoop r (r.cap - 0) 0 token [] r.outCap = _
    cases r.cap - 0 with
    | zero => rfl
    | succ left => rw [cpuLoop, hends]; rfl
  | false => exact (loops_eq hends).2

variable (r)

/-- The tokens post-processed, whatever they came by. -/
def Request.handed (out : List α) : Checked (Option (List α)) :=
  match r.postprocess out with
  | .error e => throw e
  | .ok () => pure (some out)

/-- The accelerator's request, by where its steps lead. -/
lemma transcribeGpu_eq {token : α} (hfirst : r.first = .ok token) (halloc : r.outAlloc = true) :
    transcribeGpu r =
      match (r.run token).2 with
      | .ended | .full =>
        if r.texts (r.run token).1 then r.handed (r.run token).1 else throw .outOfMemory
      | .failed e => throw e
      | .noMemory => throw .outOfMemory := by
  rw [transcribeGpu, hfirst]
  dsimp only
  rw [if_pos halloc, gpuLoop_run]
  cases r.run token with
  | mk out exit => cases exit <;> rfl

/-- The host's request: a step that fails is post-processed like one that does not. -/
lemma transcribeCpu_eq {token : α} (hfirst : r.first = .ok token) (halloc : r.outAlloc = true) :
    transcribeCpu r =
      match (r.run token).2 with
      | .ended =>
        if r.texts (r.run token).1 then r.handed (r.run token).1 else pure none
      | .full =>
        if r.texts (r.run token).1 then r.handed (r.run token).1 else throw .overflow
      | .failed e =>
        if r.texts (r.run token).1 then r.handed (r.run token).1 else throw e
      | .noMemory => if r.textAlloc then ExceptT.mk none else throw .outOfMemory := by
  rw [transcribeCpu, hfirst]
  dsimp only
  rw [if_pos halloc, cpuLoop_run]
  cases r.run token with
  | mk out exit => cases exit <;> rfl

/-! ### Agreement -/

/-- The two devices make the same of a request: a step that fails fails it, and a full window ends
the transcript. -/
structure Agree : Prop where
  same : transcribeCpu r = transcribeGpu r
  failing : ∀ token, r.first = .ok token → r.outAlloc = true → ∀ e, (r.run token).2 = .failed e →
    (∃ e', transcribeCpu r = throw e') ∧ ∃ e', transcribeGpu r = throw e'
  window : ∀ token, r.first = .ok token → r.outAlloc = true → (r.run token).2 = .full →
    transcribeCpu r = r.handed (r.run token).1 ∧ transcribeGpu r = r.handed (r.run token).1

/-- There is a token before the end, and its text has room; no step fails, unless the text has no
room either or its post-processing fails alike. -/
def Clean : Prop :=
  ∀ token, r.first = .ok token → r.outAlloc = true →
    match (r.run token).2 with
    | .ended => r.ends token = false ∧ r.textAlloc = true
    | .full => r.textAlloc = true
    | .failed e => r.textAlloc = true → r.postprocess (r.run token).1 = .error e
    | .noMemory => r.textAlloc = false

variable {r}

/-- Every token before the end is there from the first one on. -/
lemma run_ne_nil {token : α} : (r.run token).1 ≠ [] ↔ r.ends token = false := by
  rw [Request.run]
  cases r.ends token with
  | true => exact iff_of_false (fun h => h rfl) Bool.true_eq_false.mp
  | false => exact iff_of_true (follow_ne_nil (List.cons_ne_nil _ _)) rfl

lemma texts_run {token : α} :
    r.texts (r.run token).1 = true ↔ r.ends token = false ∧ r.textAlloc = true := by
  rw [Request.texts, Bool.and_eq_true, decide_eq_true_eq, run_ne_nil]

lemma handed_eq_throw {out : List α} {e : Status} :
    r.handed out = throw e ↔ r.postprocess out = .error e := by
  rw [Request.handed]
  cases r.postprocess out with
  | ok _ => exact iff_of_false nofun nofun
  | error e' =>
    constructor
    · rintro ⟨⟩
      rfl
    · rintro ⟨⟩
      rfl

/-- Only a run that goes past its first token ends otherwise than well. -/
lemma ends_eq_false {token : α} (h : (r.run token).2 ≠ .ended) : r.ends token = false := by
  by_contra hends
  rw [Request.run, if_pos (eq_true_of_ne_false hends)] at h
  exact h rfl

lemma texts_of_exit {token : α} {exit : Exit} (h : (r.run token).2 = exit) (hne : exit ≠ .ended) :
    r.texts (r.run token).1 = r.textAlloc := by
  rw [Bool.eq_iff_iff, texts_run, and_iff_right (ends_eq_false (h.trans_ne hne))]

/-- A clean request is the same on both devices. -/
lemma Clean.same (h : Clean r) : transcribeCpu r = transcribeGpu r := by
  cases hfirst : r.first with
  | error e => rw [transcribeCpu, transcribeGpu, hfirst]
  | ok token =>
    cases halloc : r.outAlloc with
    | false => rw [transcribeCpu, transcribeGpu, hfirst, halloc]; rfl
    | true =>
      have hclean := h token hfirst halloc
      rw [transcribeCpu_eq r hfirst halloc, transcribeGpu_eq r hfirst halloc]
      cases hexit : (r.run token).2 with
      | ended =>
        rw [hexit, ← texts_run] at hclean
        dsimp only
        rw [if_pos hclean, if_pos hclean]
      | full =>
        rw [hexit] at hclean
        have htexts := (texts_of_exit hexit nofun).trans hclean
        dsimp only
        rw [if_pos htexts, if_pos htexts]
      | failed e =>
        rw [hexit] at hclean
        have htexts := texts_of_exit hexit nofun
        dsimp only
        split
        · exact handed_eq_throw.mpr (hclean (htexts ▸ ‹_›))
        · rfl
      | noMemory =>
        rw [hexit] at hclean
        dsimp only
        rw [if_neg (Bool.not_eq_true _ ▸ hclean)]

/-- The two loops make the same of a request exactly where nothing fails behind the prompt. -/
theorem agree_iff (r : Request α) : Agree r ↔ Clean r := by
  constructor
  · intro h token hfirst halloc
    have hsame := h.same
    rw [transcribeCpu_eq r hfirst halloc, transcribeGpu_eq r hfirst halloc] at hsame
    cases hexit : (r.run token).2 with
    | ended =>
      rw [hexit] at hsame
      by_contra hnot
      rw [← texts_run] at hnot
      dsimp only at hsame
      rw [if_neg hnot, if_neg hnot] at hsame
      exact nomatch hsame
    | full =>
      have htexts := texts_of_exit hexit nofun
      rw [hexit, htexts] at hsame
      by_contra hnot
      dsimp only at hsame
      rw [if_neg hnot, if_neg hnot] at hsame
      exact nomatch hsame
    | failed e =>
      intro htext
      have htexts := texts_of_exit hexit nofun
      rw [hexit, htexts, htext] at hsame
      exact handed_eq_throw.mp hsame
    | noMemory =>
      rw [hexit] at hsame
      by_contra hnot
      dsimp only at hsame
      rw [if_pos (eq_true_of_ne_false hnot)] at hsame
      exact nomatch hsame
  · intro h
    refine ⟨h.same, fun token hfirst halloc e hexit => ?_, fun token hfirst halloc hexit => ?_⟩
    · have hgpu := transcribeGpu_eq r hfirst halloc
      rw [hexit] at hgpu
      exact ⟨⟨e, h.same.trans hgpu⟩, e, hgpu⟩
    · have hclean := h token hfirst halloc
      have hgpu := transcribeGpu_eq r hfirst halloc
      have htexts := texts_of_exit hexit nofun
      rw [hexit] at hclean
      rw [hexit, htexts, hclean] at hgpu
      exact ⟨h.same.trans hgpu, hgpu⟩

/-- A step out of memory fails the request on the accelerator, and is a transcript on the host; so is
a first token that ends it, which the accelerator takes for an allocation that failed. -/
theorem transcribe_disagrees :
    let r : Request ℕ := {
      maxNewTokens := 2
      ends := fun t => t == 0
      first := .ok 1
      steps := fun _ => ⟨.ok (), .error .outOfMemory, .ok 1⟩
      outAlloc := true
      grows := fun _ => true
      textAlloc := true
      postprocess := fun _ => .ok () }
    transcribeCpu r = pure (some [1]) ∧ transcribeGpu r = throw .outOfMemory ∧
      transcribeCpu { r with first := .ok 0 } = pure none ∧
      transcribeGpu { r with first := .ok 0 } = throw .outOfMemory :=
  ⟨rfl, rfl, rfl, rfl⟩

end VibeVoice.Decode
