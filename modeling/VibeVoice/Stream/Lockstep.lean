import VibeVoice.Stream.Session

/-!
Sessions in lockstep on two worlds.

A relation between cores is a lockstep when the allocator, the threads that cancel and the
callback keep it, and when the cores agree on their own progress.  With a model that keeps it too,
the steps of a chunk do.

* `Lockstep.stepText`, `Lockstep.report`: the text of a chunk and the report of a failure.
* `LockstepModel.decode`: the decode loop.
-/

namespace VibeVoice.Stream

open Prog

variable {α β σ τ : Type}

/-- What a core works on besides the world, the pending chunk end and the log. -/
structure Progress where
  text : Text
  chunkText : List UInt8
  transcript : List UInt8
  failed : Option Status
  done : Bool
  chunks : ℕ
  tokens : ℕ

/-- The progress of a core. -/
def progress (s : Core α σ) : Progress where
  text := s.text
  chunkText := s.chunkText
  transcript := s.transcript
  failed := s.failed
  done := s.done
  chunks := s.chunks
  tokens := s.tokens

/-- A core with its progress replaced. -/
def Core.withProgress (s : Core α σ) (F : Progress) : Core α σ := { s with
  text := F.text
  chunkText := F.chunkText
  transcript := F.transcript
  failed := F.failed
  done := F.done
  chunks := F.chunks
  tokens := F.tokens }

/-- A relation between cores with the same progress that their surroundings keep. -/
structure Lockstep (env : Env α σ) (env' : Env α τ) (R : Core α σ → Core α τ → Prop) : Prop where
  progress : ∀ {s t}, R s t → progress s = progress t
  update : ∀ {s t} (u : Progress → Progress), R s t →
    R (s.withProgress (u (Stream.progress s))) (t.withProgress (u (Stream.progress t)))
  allocate : Related R (allocate env) (allocate env') R R
  cancelled : Related R (cancelled env) (cancelled env') R R
  emit : ∀ ev, Related R (emit env ev) (emit env' ev) R R

/-- A lockstep that decoding a token keeps. -/
structure LockstepModel (env : Env α σ) (env' : Env α τ) (R : Core α σ → Core α τ → Prop) : Prop
    extends Lockstep env env' R where
  tokenBytes : ∀ tok, Related R (call (.tokenBytes tok) (env.tokenBytes tok))
    (call (.tokenBytes tok) (env'.tokenBytes tok)) R R
  decodeStep : ∀ tok, Related R (call (.decodeStep tok) (env.decodeStep tok))
    (call (.decodeStep tok) (env'.decodeStep tok)) R R
  kvLen : ∀ {s t}, R s t → kvLen env s = kvLen env' t
  kvCap : ∀ {s t}, R s t → kvCap env s = kvCap env' t

section Surroundings

variable {env : Env α σ} {env' : Env α τ} {R : Core α σ → Core α τ → Prop}

/-- A change of the progress. -/
lemma Lockstep.modify (h : Lockstep env env' R) (u : Progress → Progress) :
    Related R (modify fun s => s.withProgress (u (Stream.progress s)) : Act α σ PUnit)
      (modify fun t => t.withProgress (u (Stream.progress t))) R R :=
  Related.modify fun _ _ hst => h.update u hst

lemma Lockstep.checkCancelled (h : Lockstep env env' R) :
    Related R (checkCancelled env) (checkCancelled env') R R :=
  Related.bind h.cancelled fun _ => Related.failIf Iff.rfl (fun _ _ h => h) fun _ _ h => h

lemma Lockstep.growGen (h : Lockstep env env' R) (nGen genCap : ℕ) :
    Related R (growGen env nGen genCap) (growGen env' nGen genCap) R R :=
  Related.ite Iff.rfl
    (fun _ => Related.bind h.allocate fun _ => Related.pure fun _ _ h => h)
    fun _ => Related.pure fun _ _ h => h

lemma Lockstep.emitDelta (h : Lockstep env env' R) (n : ℕ) (d : List UInt8) :
    Related R (emitDelta env n d) (emitDelta env' n d) R R := by
  refine Related.ite Iff.rfl (fun _ => Related.pure fun _ _ h => h) fun _ => ?_
  refine Related.bind h.allocate fun _ => Related.bind ?_ fun _ => h.emit _
  exact h.modify fun F => { F with chunkText := F.chunkText ++ d }

/-- A step of the text and its delta. -/
lemma Lockstep.stepText (h : Lockstep env env' R) (n : ℕ) (step : Text → Text) :
    Related R (stepText env n step) (stepText env' n step) R R := by
  refine Related.bind h.allocate fun _ => Related.bind
    (h.modify fun F => { F with text := step F.text }) fun _ => Related.get_bind fun s t hst => ?_
  rw [show t.text = s.text from (congrArg Progress.text (h.progress hst)).symm]
  exact h.emitDelta n s.text.out s t hst

/-- A failure is reported alike. -/
lemma Lockstep.fail {S : Core α σ → Core α τ → Prop} (h : Lockstep env env' R) (st : Status)
    (chunk : ℤ) : Related R (fail env st chunk : Act α σ β) (fail env' st chunk) S R := by
  refine Related.get_bind fun s t hst => ?_
  rw [show t.failed = s.failed from (congrArg Progress.failed (h.progress hst)).symm]
  cases s.failed with
  | some e => exact ⟨rfl, hst⟩
  | none =>
    refine Related.bind (h.modify fun F => { F with failed := some st }) (fun _ => ?_) s t hst
    exact Related.ite Iff.rfl (fun _ => Related.throw fun _ _ h => h) fun _ =>
      Related.bind (h.emit _) fun _ => Related.throw fun _ _ h => h

/-- Programs in lockstep report their failures in lockstep. -/
lemma Lockstep.report {P S : Core α σ → Core α τ → Prop} {f : Act α σ β} {g : Act α τ β}
    (h : Lockstep env env' R) (hfg : Related P f g S R) (chunk : ℤ) :
    Related P (report env chunk f) (report env' chunk g) S R :=
  Related.tryCatch hfg fun e => h.fail e chunk

end Surroundings

section Model

variable {env : Env α σ} {env' : Env α τ} {R : Core α σ → Core α τ → Prop}

lemma LockstepModel.checkFits (h : LockstepModel env env' R) (n : ℤ) :
    Related R (checkFits env n) (checkFits env' n) R R := by
  refine Related.get_bind fun s t hst => ?_
  have hfits : kvFits env s n ↔ kvFits env' t n := by
    rw [kvFits, kvFits, h.kvLen hst, h.kvCap hst]
  exact Related.failIf (not_congr hfits) (fun _ _ h => h) (fun _ _ h => h) s t hst

lemma LockstepModel.feedToken (h : LockstepModel env env' R) (n : ℕ) (tok : ℤ) :
    Related R (feedToken env n tok) (feedToken env' n tok) R R := by
  refine Related.bind (h.modify fun F => { F with tokens := F.tokens + 1 }) fun _ => ?_
  refine Related.bind (h.tokenBytes tok) fun bytes => ?_
  refine Related.bind (h.stepText n _) fun _ => ?_
  refine Related.bind h.checkCancelled fun _ => ?_
  exact Related.bind (h.checkFits 2) fun _ => h.decodeStep tok

/-- **The decode loop** stays in lockstep. -/
lemma LockstepModel.decode {p p' : Params} (h : LockstepModel env env' R) (hids : p.ids = p'.ids)
    (n left : ℕ) (tok : ℤ) (nGen genCap : ℕ) :
    Related R (decode env p n left tok nGen genCap) (decode env' p' n left tok nGen genCap)
      R R := by
  induction left generalizing tok nGen genCap with
  | zero => exact Related.pure fun _ _ h => h
  | succ left ih =>
    rw [Stream.decode, Stream.decode, hids]
    refine Related.ite Iff.rfl (fun _ => Related.pure fun _ _ h => h) fun _ => ?_
    refine Related.ite Iff.rfl (fun _ => Related.pure fun _ _ h => h) fun _ => ?_
    refine Related.bind (h.growGen _ _) fun genCap => ?_
    exact Related.bind (h.feedToken n tok) fun next => ih next _ genCap

end Model

end VibeVoice.Stream
