import VibeVoice.Stream.Geom

/-!
The prompt and the row layout of a chunk (`stream.c`), and the settings of a session.

* `chunkLayout_eq`: a folded chunk end is one row in front of the chunk's own rows.
-/

namespace VibeVoice.Stream

/-- `vv_stream_ids_t`. -/
structure Ids where
  speechStart : ℤ
  speechEnd : ℤ
  textChunkEnd : ℤ
  eos : ℤ
  deriving DecidableEq, Repr

/-- `VV_STREAM_ROW_FEATURE`. -/
def rowFeature : ℤ := -2

/-- The parameters a session reads (`vv_stream_params_t`). -/
structure Params where
  geom : Geom
  ids : Ids
  contextInfo : Option String
  maxNewTokens : ℤ
  foldChunkEnd : Bool
  deriving DecidableEq

/-- `vv_stream_prompt_text`. -/
def promptText (contextInfo : Option String) : String :=
  let head := "You are a helpful assistant that transcribes audio input into text " ++
    "output. Please transcribe the following audios streamingly with " ++
    "these keys: speaker, content"
  match contextInfo with
  | some info => if info = "" then head ++ "\n" else head ++ " and extra info: " ++ info ++ "\n"
  | none => head ++ "\n"

/-- `vv_stream_chunk_layout`: the rows and the offset of the first feature. -/
def chunkLayout (ids : Ids) (lead nFrames cap : ℤ) : Option (List ℤ × ℕ) :=
  if nFrames ≤ 0 then none
  else if ids.speechStart < 0 ∨ ids.speechEnd < 0 then none
  else
    let need := (if 0 ≤ lead then 1 else 0) + nFrames + 2
    if cap < need then none
    else
      let rows := (if 0 ≤ lead then [lead] else []) ++ [ids.speechStart]
      some (rows ++ List.replicate nFrames.toNat rowFeature ++ [ids.speechEnd], rows.length)

/-- The rows of a chunk without a lead. -/
def chunkRows (ids : Ids) (nFrames : ℕ) : List ℤ :=
  ids.speechStart :: (List.replicate nFrames rowFeature ++ [ids.speechEnd])

/-- The row of a folded chunk end, if there is one. -/
def leadRows (lead : ℤ) : List ℤ := if 0 ≤ lead then [lead] else []

@[simp] lemma length_chunkRows (ids : Ids) (n : ℕ) : (chunkRows ids n).length = n + 2 := by
  simp [chunkRows]

@[simp] lemma leadRows_none : leadRows (-1) = [] := rfl

lemma leadRows_of_nonneg {lead : ℤ} (h : 0 ≤ lead) : leadRows lead = [lead] := if_pos h

/-- The layout of a chunk, in a row buffer with room for a lead. -/
lemma chunkLayout_eq {ids : Ids} {lead nFrames cap : ℤ} (hcap : nFrames + 3 ≤ cap) :
    chunkLayout ids lead nFrames cap =
      if 0 < nFrames ∧ 0 ≤ ids.speechStart ∧ 0 ≤ ids.speechEnd then
        some (leadRows lead ++ chunkRows ids nFrames.toNat, (leadRows lead).length + 1)
      else none := by
  have hneed : ¬ cap < (if 0 ≤ lead then 1 else 0) + nFrames + 2 := by
    split_ifs <;> omega
  rw [chunkLayout]
  by_cases hframes : nFrames ≤ 0
  · rw [if_pos hframes, if_neg (by omega)]
  · rw [if_neg hframes]
    by_cases hids : ids.speechStart < 0 ∨ ids.speechEnd < 0
    · rw [if_pos hids, if_neg (by omega)]
    · have hvalid : 0 < nFrames ∧ 0 ≤ ids.speechStart ∧ 0 ≤ ids.speechEnd := by omega
      simp only [if_neg hids, if_neg hneed, if_pos hvalid]
      simp [leadRows, chunkRows]

end VibeVoice.Stream
