import VibeVoice.Encoder.Cpu
import VibeVoice.Encoder.GpuStream

/-!
Streaming against encoding the whole signal, for the layers themselves, the accelerator and the
host.

* `streaming_eq_whole`: however a signal is cut, every layer gives out its columns of the whole.
* `wide_mixer_refused`: the accelerator takes no mixer wider than its kernel.
-/

namespace VibeVoice.Encoder

variable {α : Type}

/-- The contexts of a fresh stream. -/
def freshCtxs (ζ : α) (Ls : List (Layer α)) : List (List α) := Ls.map fun L => L.pad ζ

/-- The layers on their own, from a fresh stream on. -/
lemma law_stack (ζ : α) (Ls : List (Layer α)) :
    Streaming.Law (stackStep ζ Ls) Ls.length (wholeOut ζ Ls) (freshCtxs ζ Ls)
      (List.Forall₂ Layer.Fits Ls) :=
  ⟨_, _, computes_stack ζ Ls, stacked_none Ls, fun _ _ _ h => h.1.fits⟩

/-- However a signal is cut, the layers give out what they make of the whole of it, with contexts
within their bounds: on their own, on the accelerator unless it refuses the plan, on the host. -/
theorem streaming_eq_whole (ζ : α) :
    (∀ (Ls : List (Layer α)) (chunks : List (List α)) (last : List α),
      (∃ ctxs, Streaming.run (stackStep ζ Ls) (freshCtxs ζ Ls) chunks last =
        some (wholeOut ζ Ls (chunks.flatten ++ last), ctxs)) ∧
      (∃ ctxs, Streaming.feeds (stackStep ζ Ls) (freshCtxs ζ Ls) chunks = some ctxs ∧
        List.Forall₂ Layer.Fits Ls ctxs) ∧
      (wholeOut ζ Ls (chunks.flatten ++ last)).out.length =
        frames Ls (chunks.flatten ++ last).length) ∧
    ∀ P : Plan α,
      (∀ chunks last, (∃ st, stream ζ P.layers .create chunks last =
          pure (wholeOut ζ P.layers ((chunks.map Prod.snd).flatten ++ last.2), st)) ∨
        stream ζ P.layers .create chunks last = throw .invalidArg ∧ Refused P.layers) ∧
      (∀ st, Reached ζ P.layers st → st.Valid P.layers) ∧
      (∀ chunks last, ∃ r, Streaming.run (runTile ζ P) (.start ζ P) chunks last =
        some (wholeOut ζ P.layers (chunks.flatten ++ last), r)) ∧
      (∀ chunks, ∃ r, Streaming.feeds (runTile ζ P) (.start ζ P) chunks = some r ∧
        r.Fits P) ∧
      ∀ audio ≠ [], encodeCpu ζ P audio = pure (wholeOut ζ P.layers audio) := by
  refine ⟨fun Ls chunks last => ?_, fun P => ⟨fun chunks last => ?_, fun st h => h.valid,
    (law_cpu ζ P).run, (law_cpu ζ P).feeds, fun audio => encodeCpu_eq P⟩⟩
  · exact ⟨(law_stack ζ Ls).run chunks last, (law_stack ζ Ls).feeds chunks,
      length_wholeStack Ls _⟩
  · rcases gpu_stream (ζ := ζ) P chunks last with ⟨st, hstream, -⟩ | hrefused
    · exact .inl ⟨st, hstream⟩
    · exact .inr hrefused

/-- A plan with one layer of each kind but for downsamples, and a mixer of 17 taps. -/
def widePlan : Plan ℕ where
  stem := .adding .stem 0
  stages := [⟨[.adding .mixer 16], none, fun _ h => by rw [List.mem_singleton.mp h]; rfl, nofun⟩]
  head := .adding .head 0
  stem_kind := Eq.refl Kind.stem
  head_kind := Eq.refl Kind.head

/-- The accelerator takes no mixer wider than its kernel. -/
theorem wide_mixer_refused :
    ¬ ∀ (P : Plan ℕ) (chunks : List (Others P.layers × List ℕ))
      (last : Others P.layers × List ℕ), ∃ st, stream 0 P.layers .create chunks last =
        pure (wholeOut 0 P.layers ((chunks.map Prod.snd).flatten ++ last.2), st) := by
  intro hall
  obtain ⟨st, hstream⟩ := hall widePlan [] (⟨[], [], nofun⟩, [1])
  have hrefused : stream 0 widePlan.layers .create [] (⟨[], [], nofun⟩, [1]) =
      throw .invalidArg := rfl
  exact nomatch Option.some.inj (hrefused.symm.trans hstream)

end VibeVoice.Encoder
