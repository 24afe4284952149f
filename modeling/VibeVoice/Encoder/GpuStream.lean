import VibeVoice.Encoder.Gpu

/-!
Streams on the accelerator (`vae_gpu.c`): what an item of a batch gets is what it gets on its own,
and the chunks of a stream give out what the layers make of its whole signal.

* `Item.step`: an item on its own, by `chunkAll`.
* `encode_eq`: every item of a batch gets what it would get on its own.
* `computes_gpu`: a stream on its own follows the stack of its layers.
* `gpu_stream`: the same among other items, in every batch others.
* `Reached.valid`: the contexts of a stream stay within their bounds.
-/

namespace VibeVoice.Encoder

open Streaming (Out)

section Walk

variable {α : Type} {ζ : α} {Ls : List (Layer α)} {L : Layer α} {li : ℕ}

/-! ### A batch through a stack -/

variable (ζ)

/-- The contexts of an item from layer `li` on. -/
def Item.ctxs (it : Item α) : ℕ → List (Layer α) → List (List α)
  | _, [] => []
  | li, L :: Ls => it.ctx ζ L li :: it.ctxs (li + 1) Ls

/-- What an item gets out of the layers from `li` on, from its columns there. -/
def Item.chunks (li : ℕ) (Ls : List (Layer α)) (ic : Item α × List α) :
    List (List α) × List (List α) :=
  chunkAll ζ Ls (ic.1.ctxs ζ li Ls) ic.1.fin ic.2

/-- The items of a batch with what a layer makes of their columns. -/
def behind (L : Layer α) (li : ℕ) (ics : List (Item α × List α)) : List (Item α × List α) :=
  ics.map fun ic => (ic.1, (Item.chunk ζ L li ic).1)

/-- The layers from `li` on over every item on its own. -/
def walked : ℕ → List (Layer α) → List (Item α × List α) → List (Launched α)
  | _, [], _ => []
  | li, L :: Ls, ics => launched ζ L li ics :: walked (li + 1) Ls (behind ζ L li ics)

/-- A layer that is too wide for the device. -/
def Refused (Ls : List (Layer α)) : Prop := ∃ L ∈ Ls, L.tooWide = true

variable {ζ}

lemma behind_fst (L : Layer α) (li : ℕ) (ics : List (Item α × List α)) :
    (behind ζ L li ics).map Prod.fst = ics.map Prod.fst := by
  rw [behind, List.map_map]
  rfl

lemma packed_behind (L : Layer α) (li : ℕ) (ics : List (Item α × List α)) :
    packed (behind ζ L li ics) = (launched ζ L li ics).cols := by
  rw [packed, behind, List.map_map]
  rfl

lemma lengths_behind (L : Layer α) (li : ℕ) (ics : List (Item α × List α)) :
    lengths (behind ζ L li ics) = (launched ζ L li ics).lens := by
  rw [lengths, behind, List.map_map]
  rfl

lemma valid_behind (L : Layer α) (li : ℕ) {ics : List (Item α × List α)}
    (h : ∀ ic ∈ ics, ic.1.Valid Ls) : ∀ ic ∈ behind ζ L li ics, ic.1.Valid Ls := by
  intro ic hic
  obtain ⟨ic', hmem, rfl⟩ := List.mem_map.mp hic
  exact h ic' hmem

/-- One layer in front of the rest of a walk. -/
lemma walk_cons {Ls' : List (Layer α)} {x : List α} {ics : List (Item α × List α)}
    (hL : Ls[li]? = some L) (hvalid : ∀ ic ∈ ics, ic.1.Valid Ls)
    (hstem : L.kind = .stem → ∀ ic ∈ ics, ic.2 = ic.1.audio) (hx : L.kind ≠ .stem → x = packed ics)
    (hrest : walk ζ (ics.map Prod.fst) (li + 1) Ls' (packed (behind ζ L li ics))
        (lengths (behind ζ L li ics)) = pure (walked ζ (li + 1) Ls' (behind ζ L li ics)) ∨
      walk ζ (ics.map Prod.fst) (li + 1) Ls' (packed (behind ζ L li ics))
        (lengths (behind ζ L li ics)) = throw .invalidArg ∧ Refused Ls') :
    walk ζ (ics.map Prod.fst) li (L :: Ls') x (lengths ics) =
        pure (walked ζ li (L :: Ls') ics) ∨
      walk ζ (ics.map Prod.fst) li (L :: Ls') x (lengths ics) = throw .invalidArg ∧
        Refused (L :: Ls') := by
  rw [walk, launch_eq hL hvalid hstem hx]
  by_cases hrefused : 0 < (launched ζ L li ics).lens.sum ∧ L.tooWide = true
  · rw [if_pos hrefused]
    exact .inr ⟨rfl, L, List.mem_cons_self, hrefused.2⟩
  · rw [if_neg hrefused, pure_bind, ← packed_behind, ← lengths_behind]
    rcases hrest with hok | ⟨hthrow, L', hL', hwide⟩
    · rw [hok]
      exact .inl rfl
    · rw [hthrow]
      exact .inr ⟨rfl, L', List.mem_cons_of_mem _ hL', hwide⟩

/-- `Ls'` is what the plan `Ls` has from layer `li` on. -/
def From (Ls : List (Layer α)) (li : ℕ) (Ls' : List (Layer α)) : Prop :=
  ∀ j L, Ls'[j]? = some L → Ls[li + j]? = some L

lemma From.head {Ls' : List (Layer α)} (h : From Ls li (L :: Ls')) : Ls[li]? = some L := h 0 L rfl

lemma From.tail {Ls' : List (Layer α)} (h : From Ls li (L :: Ls')) : From Ls (li + 1) Ls' := by
  intro j L' hL'
  have hshift := h (j + 1) L' hL'
  rwa [Nat.add_assoc, Nat.add_comm 1 j]

/-- The layers behind the stem. -/
lemma walk_rest {Ls' : List (Layer α)} (ics : List (Item α × List α)) (hLs : From Ls li Ls')
    (hplain : ∀ L ∈ Ls', L.kind ≠ .stem)
    (hvalid : ∀ ic ∈ ics, ic.1.Valid Ls) :
    walk ζ (ics.map Prod.fst) li Ls' (packed ics) (lengths ics) = pure (walked ζ li Ls' ics) ∨
      walk ζ (ics.map Prod.fst) li Ls' (packed ics) (lengths ics) = throw .invalidArg ∧
        Refused Ls' := by
  induction Ls' generalizing li ics with
  | nil => exact .inl rfl
  | cons L Ls' ih =>
    have hne := hplain L List.mem_cons_self
    refine walk_cons hLs.head hvalid (fun hk => absurd hk hne) (fun _ => rfl) ?_
    have hnext := ih (behind ζ L li ics) hLs.tail (fun L' hL' => hplain L' (List.mem_cons_of_mem _ hL'))
      (valid_behind (ζ := ζ) L li hvalid)
    rwa [behind_fst] at hnext

/-! ### What an item gets -/

section Share

variable {ics : List (Item α × List α)} {ic : Item α × List α} {i : ℕ}

variable (ζ) in
/-- The items with what the layers from `li` on make of their columns. -/
def through (li : ℕ) (Ls : List (Layer α)) (ics : List (Item α × List α)) :
    List (Item α × List α) :=
  ics.map fun ic => (ic.1, outputOf ic.2 (Item.chunks ζ li Ls ic).1)

lemma through_cons (L : Layer α) (Ls' : List (Layer α)) (ics : List (Item α × List α)) :
    through ζ li (L :: Ls') ics = through ζ (li + 1) Ls' (behind ζ L li ics) := by
  rw [through, through, behind, List.map_map]
  refine List.map_congr_left fun ic _ => ?_
  exact congrArg (Prod.mk ic.1) (outputOf_cons _ _ _)

lemma through_nil (ics : List (Item α × List α)) : through ζ li [] ics = ics :=
  List.map_id ics

/-- The packed columns behind the last layer, and the lengths of the items in them. -/
lemma walked_last (li : ℕ) (Ls' : List (Layer α)) (ics : List (Item α × List α)) :
    ((walked ζ li Ls' ics).getLast?.map Launched.cols).getD (packed ics) =
        packed (through ζ li Ls' ics) ∧
      ((walked ζ li Ls' ics).getLast?.map Launched.lens).getD (lengths ics) =
        lengths (through ζ li Ls' ics) := by
  induction Ls' generalizing li ics with
  | nil =>
    rw [through_nil]
    exact ⟨rfl, rfl⟩
  | cons L Ls' ih =>
    obtain ⟨hcols, hlens⟩ := ih (li + 1) (behind ζ L li ics)
    rw [packed_behind] at hcols
    rw [lengths_behind] at hlens
    rw [through_cons, walked, List.getLast?_cons, Option.map_some, Option.map_some,
      Option.getD_some, Option.getD_some, ← hcols, ← hlens]
    cases (walked ζ (li + 1) Ls' (behind ζ L li ics)).getLast? with
    | none => exact ⟨rfl, rfl⟩
    | some r => exact ⟨rfl, rfl⟩

lemma getElem?_behind (L : Layer α) (hic : ics[i]? = some ic) :
    (behind ζ L li ics)[i]? = some (ic.1, (Item.chunk ζ L li ic).1) := by
  rw [behind, List.getElem?_map, hic, Option.map_some]

lemma Item.keep_eq {L : Layer α} (hL : Ls[li]? = some L) (hvalid : ic.1.Valid Ls)
    (hfin : ic.1.fin = false) : Item.keep ζ L li ic = (Item.chunk ζ L li ic).2.length := by
  rw [Item.keep, Item.chunk, hfin]
  exact (L.chunk_bounds ζ (hvalid.ctx_fits hL).1 ic.2).1.symm

/-- How much context an item keeps in each layer. -/
lemma walked_keeps {Ls' : List (Layer α)} (hLs : From Ls li Ls')
    (hic : ics[i]? = some ic) (hvalid : ic.1.Valid Ls) (hfin : ic.1.fin = false) (j : ℕ) :
    ((walked ζ li Ls' ics)[j]?.bind fun r => r.keeps[i]?) =
      (Item.chunks ζ li Ls' ic).2[j]?.map List.length := by
  induction Ls' generalizing li ics ic j with
  | nil => rfl
  | cons L Ls' ih =>
    cases j with
    | zero =>
      show (ics.map fun ic => Item.keep ζ L li ic)[i]? =
        some (Item.chunk ζ L li ic).2.length
      rw [List.getElem?_map, hic, Option.map_some,
        Item.keep_eq hLs.head hvalid hfin]
    | succ j => exact ih hLs.tail (getElem?_behind L hic) hvalid hfin j

/-- The contexts an item is left with. -/
lemma walked_tails {Ls' : List (Layer α)} (hLs : From Ls li Ls')
    (hic : ics[i]? = some ic) (hvalid : ic.1.Valid Ls) (hfin : ic.1.fin = false) (j : ℕ) :
    ((walked ζ li Ls' ics)[j]?.bind fun r => r.tails[i]?.join) =
      (Item.chunks ζ li Ls' ic).2[j]?.filter fun ctx => 0 < ctx.length := by
  induction Ls' generalizing li ics ic j with
  | nil => rfl
  | cons L Ls' ih =>
    cases j with
    | zero =>
      have hsome : ic.1.state.isSome = true := by
        rw [Item.fin, Bool.or_eq_false_iff] at hfin
        rw [← Option.not_isNone, hfin.1]
        rfl
      show ((ics.map fun ic => if ic.1.saves (Item.keep ζ L li ic) then
          some (Item.chunk ζ L li ic).2 else none)[i]?).join =
        (some (Item.chunk ζ L li ic).2).filter fun ctx => 0 < ctx.length
      rw [List.getElem?_map, hic, Option.map_some, Option.join_some,
        Item.keep_eq hLs.head hvalid hfin, Item.saves, hsome, hfin, Option.filter_some]
      rfl
    | succ j => exact ih hLs.tail (getElem?_behind L hic) hvalid hfin j

end Share

end Walk

/-! ### A batch and its items -/

section Batch

variable {α : Type} {ζ : α} {P : Plan α}

lemma Plan.rest_kind {L : Layer α} (hL : L ∈ P.stages.flatMap Stage.layers ++ [P.head]) :
    L.kind ≠ .stem := by
  rcases List.mem_append.mp hL with hstage | hhead
  · obtain ⟨S, -, hS⟩ := List.mem_flatMap.mp hstage
    rcases List.mem_append.mp hS with hmixer | hdown
    · exact fun hk => nomatch (S.mixers_kind L hmixer).symm.trans hk
    · exact fun hk => nomatch (S.down_kind L (Option.mem_toList.mp hdown)).symm.trans hk
  · rw [List.mem_singleton.mp hhead]
    exact fun hk => nomatch P.head_kind.symm.trans hk

lemma from_refl (Ls : List (Layer α)) : From Ls 0 Ls := by
  intro j L hL
  rwa [Nat.zero_add]

/-- The items of a batch with their samples. -/
def samples (items : List (Item α)) : List (Item α × List α) :=
  items.map fun it => (it, it.audio)

/-- A state behind a chunk that left the contexts `ctxs`. -/
def GpuState.next (st : GpuState α) (fin : Bool) (ctxs : List (List α)) : GpuState α :=
  if fin then st.reset
  else st.commit (fun li => ctxs[li]?.map List.length)
    (fun li => ctxs[li]?.filter fun ctx => 0 < ctx.length)

variable (ζ) in
/-- An item on its own. -/
def Item.step (Ls : List (Layer α)) (it : Item α) : Result α :=
  let r := Item.chunks ζ 0 Ls (it, it.audio)
  let out := outputOf it.audio r.1
  { rows := out.drop it.skipFrames
    nFrames := out.length
    state := it.state.map fun st => st.next it.isFinal r.2 }

/-- The layers of a plan over a batch. -/
lemma walk_plan {items : List (Item α)} (hvalid : ∀ it ∈ items, it.Valid P.layers) :
    walk ζ items 0 P.layers [] (lengths (samples items)) =
        pure (walked ζ 0 P.layers (samples items)) ∨
      walk ζ items 0 P.layers [] (lengths (samples items)) = throw .invalidArg ∧
        Refused P.layers := by
  have hfst : (samples items).map Prod.fst = items := by
    rw [samples, List.map_map]
    exact List.map_id items
  have haudio : ∀ ic ∈ samples items, ic.1.Valid P.layers ∧ ic.2 = ic.1.audio := by
    intro ic hic
    obtain ⟨it, hit, rfl⟩ := List.mem_map.mp hic
    exact ⟨hvalid it hit, rfl⟩
  have hhead := (from_refl P.layers).head
  have hrest := walk_rest (ζ := ζ) (behind ζ P.stem 0 (samples items))
    (from_refl P.layers).tail (fun L hL => P.rest_kind hL)
    (valid_behind P.stem 0 fun ic hic => (haudio ic hic).1)
  have hwalk := walk_cons (ζ := ζ) (x := []) hhead (fun ic hic => (haudio ic hic).1)
    (fun _ ic hic => (haudio ic hic).2) (fun hk => absurd P.stem_kind hk)
    ((behind_fst (ζ := ζ) P.stem 0 (samples items)) ▸ hrest)
  rwa [hfst] at hwalk

lemma fin_of_state {it : Item α} {st : GpuState α} (hst : it.state = some st)
    (hfinal : it.isFinal ≠ true) : it.fin = false := by
  rw [Item.fin, hst, Option.isNone_some, Bool.false_or]
  exact Bool.not_eq_true _ ▸ hfinal

/-- What the launches leave for an item is what it gets on its own. -/
lemma resultOf_eq {items : List (Item α)} {i : ℕ} {it : Item α} (hi : items[i]? = some it)
    (hvalid : it.Valid P.layers) :
    resultOf (walked ζ 0 P.layers (samples items)) [] (lengths (samples items)) i it =
      it.step ζ P.layers := by
  obtain ⟨rs, hrs⟩ : ∃ rs, rs = walked ζ 0 P.layers (samples items) := ⟨_, rfl⟩
  obtain ⟨last, hlast⟩ : ∃ last, rs.getLast? = some last := by
    rw [hrs, Plan.layers, walked, List.getLast?_cons]
    exact ⟨_, rfl⟩
  have hic : (samples items)[i]? = some (it, it.audio) := by
    rw [samples, List.getElem?_map, hi, Option.map_some]
  obtain ⟨hcols, hlens⟩ := walked_last (ζ := ζ) 0 P.layers (samples items)
  rw [← hrs, hlast, Option.map_some, Option.getD_some] at hcols hlens
  obtain ⟨out, hout⟩ : ∃ out, out = outputOf it.audio
      (Item.chunks ζ 0 P.layers (it, it.audio)).1 := ⟨_, rfl⟩
  have hthrough : (through ζ 0 P.layers (samples items))[i]? = some (it, out) := by
    rw [through, List.getElem?_map, hic, Option.map_some, hout]
  have hlen : (lengths (through ζ 0 P.layers (samples items)))[i]? = some out.length := by
    rw [lengths, List.getElem?_map, hthrough, Option.map_some]
  have hslice : ((packed (through ζ 0 P.layers (samples items))).drop
      ((lengths (through ζ 0 P.layers (samples items))).take i).sum).take out.length = out := by
    have hcol : ((through ζ 0 P.layers (samples items)).map Prod.snd)[i]? = some out := by
      rw [List.getElem?_map, hthrough, Option.map_some]
    have hcut := Packed.slice_flatten hcol
    rw [List.map_map] at hcut
    exact hcut
  have hstate : (it.state.map fun st =>
      if it.isFinal then st.reset
      else st.commit (fun li => rs[li]?.bind fun r => r.keeps[i]?)
        (fun li => rs[li]?.bind fun r => r.tails[i]?.join)) = (it.step ζ P.layers).state := by
    rw [Item.step]
    refine Option.map_congr fun st hst => ?_
    rw [GpuState.next]
    by_cases hfinal : it.isFinal = true
    · rw [if_pos hfinal, if_pos hfinal]
    · have hfin := fin_of_state hst hfinal
      rw [if_neg hfinal, if_neg hfinal, hrs]
      congr 1
      · funext li
        exact walked_keeps (from_refl _) hic hvalid hfin li
      · funext li
        exact walked_tails (from_refl _) hic hvalid hfin li
  rw [← hrs]
  show Result.mk _ _ _ = Result.mk _ _ _
  rw [hlast, Option.map_some, Option.getD_some, Option.map_some, Option.getD_some, hcols, hlens,
    hlen, Option.getD_some, hslice, hstate, hout]
  rfl

/-- Every item of a batch gets what it gets on its own, or the device refuses the plan. -/
theorem encode_eq (items : List (Item α)) (hvalid : ∀ it ∈ items, it.Valid P.layers) :
    encode ζ P.layers items = pure (items.map (Item.step ζ P.layers)) ∨
      encode ζ P.layers items = throw .invalidArg ∧ Refused P.layers := by
  have hlens : (items.map fun it => it.audio.length) = lengths (samples items) := by
    rw [lengths, samples, List.map_map]
    rfl
  rw [encode, hlens]
  rcases walk_plan (ζ := ζ) hvalid with hok | ⟨hthrow, hrefused⟩
  · left
    rw [hok, pure_bind]
    refine congrArg pure (List.ext_getElem? fun i => ?_)
    rw [List.getElem?_mapIdx, List.getElem?_map]
    refine Option.map_congr fun it hi => ?_
    exact resultOf_eq hi (hvalid it (List.mem_of_getElem? hi))
  · right
    rw [hthrow]
    exact ⟨rfl, hrefused⟩

end Batch

/-! ### A stream on the accelerator -/

section Stream

variable {α : Type} {ζ : α} {Ls : List (Layer α)}

variable (ζ) in
/-- The contexts of a stack that a state holds. -/
structure GpuState.Holds (st : GpuState α) (Ls : List (Layer α)) (ctxs : List (List α)) :
    Prop where
  valid : st.Valid Ls
  length : ctxs.length = Ls.length
  ctx : ∀ li L, Ls[li]? = some L → ctxs[li]? = some (st.ctx ζ L li)

variable (ζ) in
/-- A chunk of a stream on its own. -/
def gpuStep (Ls : List (Layer α)) : Streaming.Step α (GpuState α) := fun st fin xs =>
  let it : Item α := ⟨xs, some st, fin, 0⟩
  some (⟨(Item.chunks ζ 0 Ls (it, xs)).1, (it.step ζ Ls).rows⟩,
    (it.step ζ Ls).state.getD st)

lemma holds_create : (GpuState.create (α := α)).Holds ζ Ls (Ls.map fun L => L.pad ζ) := by
  refine ⟨nofun, List.length_map _, fun li L hL => ?_⟩
  rw [List.getElem?_map, hL, Option.map_some]
  rfl

lemma getElem?_ctxs (it : Item α) (li j : ℕ) (Ls' : List (Layer α)) :
    (it.ctxs ζ li Ls')[j]? = Ls'[j]?.map fun L => it.ctx ζ L (li + j) := by
  induction Ls' generalizing li j with
  | nil => rfl
  | cons L Ls' ih =>
    cases j with
    | zero => rfl
    | succ j =>
      rw [Item.ctxs, List.getElem?_cons_succ, List.getElem?_cons_succ, ih, Nat.add_assoc,
        Nat.add_comm 1 j]

/-- The contexts of an item are those its state holds. -/
lemma GpuState.Holds.ctxs_eq {st : GpuState α} {ctxs : List (List α)} (h : st.Holds ζ Ls ctxs)
    {it : Item α} (hst : it.state = some st) : it.ctxs ζ 0 Ls = ctxs := by
  refine List.ext_getElem? fun j => ?_
  rw [getElem?_ctxs, Nat.zero_add]
  cases hL : Ls[j]? with
  | none =>
    have hle := List.getElem?_eq_none_iff.mp hL
    rw [Option.map_none, List.getElem?_eq_none (h.length ▸ hle)]
  | some L =>
    rw [Option.map_some, h.ctx j L hL, Item.ctx, hst, Option.map_some, Option.getD_some]

lemma GpuState.Holds.fits {st : GpuState α} {ctxs : List (List α)} (h : st.Holds ζ Ls ctxs) :
    List.Forall₂ Layer.Fits Ls ctxs := by
  refine List.forall₂_iff_get.mpr ⟨h.length.symm, fun i hi hi' => ?_⟩
  have hL : Ls[i]? = some Ls[i] := List.getElem?_eq_getElem hi
  have hctx := h.ctx i _ hL
  rw [List.getElem?_eq_getElem hi', Option.some.injEq] at hctx
  show Ls[i].Fits ctxs[i]
  rw [hctx]
  exact h.valid.ctx_fits hL

lemma commit_haveCols (st : GpuState α) (keeps : ℕ → Option ℕ) (tails : ℕ → Option (List α))
    (li : ℕ) : (st.commit keeps tails).haveCols li = (keeps li).getD (st.haveCols li) := rfl

/-- The other buffer becomes the live one. -/
lemma commit_live (st : GpuState α) (keeps : ℕ → Option ℕ) (tails : ℕ → Option (List α))
    (li : ℕ) : (st.commit keeps tails).tails (st.commit keeps tails).cur li =
      (tails li).getD (st.tails (!st.cur) li) := if_pos rfl

/-- A state behind a chunk holds the contexts the chunk left. -/
lemma GpuState.Holds.commit {st : GpuState α} {ctxs : List (List α)} (h : st.Holds ζ Ls ctxs)
    (cs : List α) :
    (st.next false (chunkAll ζ Ls ctxs false cs).2).Holds ζ Ls
      (chunkAll ζ Ls ctxs false cs).2 := by
  have hfits := chunkAll_fits (ζ := ζ) h.fits cs
  obtain ⟨next, hnext⟩ : ∃ next, next = (chunkAll ζ Ls ctxs false cs).2 := ⟨_, rfl⟩
  rw [← hnext] at hfits ⊢
  obtain ⟨hlen, hall⟩ := List.forall₂_iff_get.mp hfits
  have hentry : ∀ (li : ℕ) (L : Layer α), Ls[li]? = some L →
      ∃ ctx, next[li]? = some ctx ∧ L.Fits ctx := by
    intro li L hL
    obtain ⟨hi, rfl⟩ := List.getElem?_eq_some_iff.mp hL
    exact ⟨_, List.getElem?_eq_getElem (hlen ▸ hi), hall li hi (hlen ▸ hi)⟩
  obtain ⟨st', hst'⟩ : ∃ st', st' = st.commit (fun li => next[li]?.map List.length)
      (fun li => next[li]?.filter fun ctx => 0 < ctx.length) := ⟨_, rfl⟩
  rw [GpuState.next, if_neg Bool.false_ne_true]
  have hhave : ∀ li ctx, next[li]? = some ctx → st'.haveCols li = ctx.length := by
    intro li ctx hctx
    rw [hst', commit_haveCols, hctx, Option.map_some, Option.getD_some]
  have htake : ∀ li ctx, next[li]? = some ctx →
      (st'.tails st'.cur li).take ctx.length = ctx ∧ ctx.length ≤ (st'.tails st'.cur li).length := by
    intro li ctx hctx
    rcases Nat.eq_zero_or_pos ctx.length with hnil | hpos
    · rw [hnil, List.take_zero, List.eq_nil_of_length_eq_zero hnil]
      exact ⟨rfl, Nat.zero_le _⟩
    · have htail : st'.tails st'.cur li = ctx := by
        rw [hst', commit_live, hctx, Option.filter_some, if_pos (decide_eq_true hpos),
          Option.getD_some]
      rw [htail, List.take_length]
      exact ⟨rfl, le_rfl⟩
  rw [← hst']
  have hfresh : st'.fresh = false := by rw [hst', GpuState.commit]
  refine ⟨fun _ li L hL => ?_, hlen.symm, fun li L hL => ?_⟩
  · obtain ⟨ctx, hctx, hlow, hhigh⟩ := hentry li L hL
    rw [hhave li ctx hctx]
    exact ⟨hlow, hhigh, (htake li ctx hctx).2⟩
  · obtain ⟨ctx, hctx, -, -⟩ := hentry li L hL
    rw [GpuState.ctx, hfresh, if_neg Bool.false_ne_true, hhave li ctx hctx, (htake li ctx hctx).1,
      hctx]

/-- A chunk of a stream, on the state and on the contexts it holds. -/
lemma gpuStep_sim {st : GpuState α} {ctxs : List (List α)} (h : st.Holds ζ Ls ctxs) (fin : Bool)
    (xs : List α) {y : Out α} {t : List (List α)}
    (hstep : stackStep ζ Ls ctxs fin xs = some (y, t)) :
    ∃ st', gpuStep ζ Ls st fin xs = some (y, st') ∧ (fin = false → st'.Holds ζ Ls t) ∧
      (fin = true → st' = st.reset) := by
  obtain ⟨it, hit⟩ : ∃ it : Item α, it = ⟨xs, some st, fin, 0⟩ := ⟨_, rfl⟩
  have hstate : it.state = some st := by rw [hit]
  have hfin : it.fin = fin := by rw [hit, Item.fin, Option.isNone_some, Bool.false_or]
  obtain ⟨rfl, rfl⟩ := Prod.mk.inj (Option.some.inj hstep)
  have hchunks : Item.chunks ζ 0 Ls (it, xs) = chunkAll ζ Ls ctxs fin xs := by
    rw [Item.chunks, h.ctxs_eq hstate, hfin]
  have hresult : it.step ζ Ls = ⟨(outputOf xs (chunkAll ζ Ls ctxs fin xs).1).drop 0,
      (outputOf xs (chunkAll ζ Ls ctxs fin xs).1).length,
      some (st.next fin (chunkAll ζ Ls ctxs fin xs).2)⟩ := by
    rw [hit] at hchunks ⊢
    rw [Item.step, hchunks]
    rfl
  refine ⟨st.next fin (chunkAll ζ Ls ctxs fin xs).2, ?_, fun hfalse => ?_, fun htrue => ?_⟩
  · rw [gpuStep, ← hit, hchunks, hresult, List.drop_zero]
    rfl
  · subst hfalse
    exact h.commit xs
  · exact if_pos htrue

variable (ζ) in
/-- A stream on the accelerator, one chunk after the other. -/
theorem computes_gpu (Ls : List (Layer α)) :
    Streaming.Computes (gpuStep ζ Ls) Ls.length (wholeOut ζ Ls)
      (fun xs z st => ∃ ctxs, st.Holds ζ Ls ctxs ∧
        Stacked ζ Ls xs z.layers ctxs ∧ z.out = outputOf xs z.layers)
      (fun st => st.fresh = true ∧ st.cur = false) := by
  refine (computes_stack ζ Ls).of_sim fun h fin xs _ _ hstep => ?_
  obtain ⟨st', hgpu, hnext, hreset⟩ := gpuStep_sim h fin xs hstep
  refine ⟨st', hgpu, hnext, fun hfin => ?_⟩
  rw [hreset hfin]
  exact ⟨rfl, rfl⟩

end Stream

/-! ### A stream among other items -/

section Served

variable {α : Type} {ζ : α} {P : Plan α}

/-- The other items of a batch, in front of a stream's chunk and behind it. -/
structure Others (Ls : List (Layer α)) where
  before : List (Item α)
  after : List (Item α)
  valid : ∀ it ∈ before ++ after, it.Valid Ls

/-- The columns of item `i` in the packed output of a layer. -/
def Launched.share (i : ℕ) (r : Launched α) : List α :=
  (r.cols.drop (r.lens.take i).sum).take (r.lens[i]?.getD 0)

variable (ζ) in
/-- A chunk of a stream in a batch: its columns in every layer, its rows and its next state. -/
def serve (Ls : List (Layer α)) (o : Others Ls) (st : GpuState α) (fin : Bool) (xs : List α) :
    Checked (Out α × GpuState α) := do
  let it : Item α := ⟨xs, some st, fin, 0⟩
  let items := o.before ++ it :: o.after
  let lens := items.map fun it => it.audio.length
  let rs ← walk ζ items 0 Ls [] lens
  let r := resultOf rs [] lens o.before.length it
  pure (⟨rs.map (Launched.share o.before.length), r.rows⟩, r.state.getD st)

variable (ζ) in
/-- A stream, every chunk in a batch of its own. -/
def stream (Ls : List (Layer α)) : GpuState α → List (Others Ls × List α) → Others Ls × List α →
    Checked (Out α × GpuState α)
  | st, [], last => serve ζ Ls last.1 st true last.2
  | st, c :: rest, last => do
      let r ← serve ζ Ls c.1 st false c.2
      let r' ← stream Ls r.2 rest last
      pure (r.1.join r'.1, r'.2)

lemma share_walked {Ls' : List (Layer α)} {li i : ℕ} {ics : List (Item α × List α)}
    {ic : Item α × List α} (hic : ics[i]? = some ic) :
    (walked ζ li Ls' ics).map (Launched.share i) = (Item.chunks ζ li Ls' ic).1 := by
  induction Ls' generalizing li ics ic with
  | nil => rfl
  | cons L Ls' ih =>
    have hout : ((behind ζ L li ics).map Prod.snd)[i]? =
        some (Item.chunk ζ L li ic).1 := by
      rw [List.getElem?_map, getElem?_behind L hic, Option.map_some]
    have hlen : (lengths (behind ζ L li ics))[i]? =
        some (Item.chunk ζ L li ic).1.length := by
      rw [lengths, List.getElem?_map, getElem?_behind L hic, Option.map_some]
    have hslice := Packed.slice_flatten hout
    rw [List.map_map] at hslice
    have hshare : (launched ζ L li ics).share i = (Item.chunk ζ L li ic).1 := by
      rw [Launched.share, ← packed_behind, ← lengths_behind, hlen, Option.getD_some]
      exact hslice
    exact congrArg₂ List.cons hshare (ih (getElem?_behind L hic))

/-- A chunk in a batch gives out what it gives out on its own. -/
lemma serve_eq (o : Others P.layers) {st : GpuState α} (hst : st.Valid P.layers) (fin : Bool)
    (xs : List α) :
    (∃ r, gpuStep ζ P.layers st fin xs = some r ∧ serve ζ P.layers o st fin xs = pure r) ∨
      serve ζ P.layers o st fin xs = throw .invalidArg ∧ Refused P.layers := by
  obtain ⟨it, hit⟩ : ∃ it : Item α, it = ⟨xs, some st, fin, 0⟩ := ⟨_, rfl⟩
  obtain ⟨items, hitems⟩ : ∃ items, items = o.before ++ it :: o.after := ⟨_, rfl⟩
  have hself : it.Valid P.layers := by
    rw [hit]
    rintro st' ⟨⟩
    exact hst
  have hvalid : ∀ it ∈ items, it.Valid P.layers := by
    intro it' hmem
    rw [hitems, List.mem_append, List.mem_cons] at hmem
    rcases hmem with hbefore | rfl | hafter
    · exact o.valid it' (List.mem_append_left _ hbefore)
    · exact hself
    · exact o.valid it' (List.mem_append_right _ hafter)
  have hi : items[o.before.length]? = some it := by
    rw [hitems, List.getElem?_append_right le_rfl, Nat.sub_self, List.getElem?_cons_zero]
  have hic : (samples items)[o.before.length]? = some (it, it.audio) := by
    rw [samples, List.getElem?_map, hi, Option.map_some]
  have hlens : (items.map fun it => it.audio.length) = lengths (samples items) := by
    rw [lengths, samples, List.map_map]
    rfl
  rw [serve, ← hit, ← hitems, hlens]
  rcases walk_plan (ζ := ζ) hvalid with hok | ⟨hthrow, hrefused⟩
  · left
    rw [hok, pure_bind, share_walked hic, resultOf_eq hi hself]
    refine ⟨_, rfl, ?_⟩
    rw [hit]
  · right
    rw [hthrow]
    exact ⟨rfl, hrefused⟩

/-- Behind its first chunks a stream goes on as it does on its own. -/
lemma stream_eq {xs : List α} {z : Out α} {st : GpuState α}
    (hst : ∃ ctxs, st.Holds ζ P.layers ctxs ∧
      Stacked ζ P.layers xs z.layers ctxs ∧ z.out = outputOf xs z.layers)
    (chunks : List (Others P.layers × List α)) (last : Others P.layers × List α) :
    (∃ r, Streaming.run (gpuStep ζ P.layers) st (chunks.map Prod.snd) last.2 = some r ∧
      stream ζ P.layers st chunks last = pure r) ∨
      stream ζ P.layers st chunks last = throw .invalidArg ∧ Refused P.layers := by
  induction chunks generalizing xs z st with
  | nil =>
    obtain ⟨ctxs, hholds, -⟩ := hst
    exact serve_eq last.1 hholds.valid true last.2
  | cons c rest ih =>
    obtain ⟨y, st₁, hstep, -, hst₁⟩ := (computes_gpu ζ P.layers).feed hst c.2
    obtain ⟨ctxs, hholds, -⟩ := hst
    rcases serve_eq c.1 hholds.valid false c.2 with ⟨r, hstep', hserve⟩ | ⟨hthrow, hrefused⟩
    · obtain rfl := Option.some.inj (hstep.symm.trans hstep')
      rw [stream, hserve, pure_bind]
      rcases ih hst₁ with ⟨r', hrun, hstream⟩ | ⟨hthrow, hrefused⟩
      · refine .inl ⟨(y.join r'.1, r'.2), ?_, ?_⟩
        · rw [List.map_cons, Streaming.run, hstep, Option.bind_some, hrun, Option.map_some]
        · rw [hstream, pure_bind]
      · right
        rw [hthrow]
        exact ⟨rfl, hrefused⟩
    · right
      rw [stream, hthrow]
      exact ⟨rfl, hrefused⟩

/-- A stream gives out what the layers make of its whole signal, whatever its cut and whatever
items its chunks share their batches with, or the device refuses the plan. -/
theorem gpu_stream (P : Plan α) (chunks : List (Others P.layers × List α))
    (last : Others P.layers × List α) :
    (∃ st', stream ζ P.layers .create chunks last =
        pure (wholeOut ζ P.layers ((chunks.map Prod.snd).flatten ++ last.2), st') ∧
      st'.fresh = true ∧ st'.cur = false) ∨
      stream ζ P.layers .create chunks last = throw .invalidArg ∧ Refused P.layers := by
  have hst : ∃ ctxs, (GpuState.create (α := α)).Holds ζ P.layers ctxs ∧
      Stacked ζ P.layers [] (Out.none α P.layers.length).layers ctxs ∧
      (Out.none α P.layers.length).out = outputOf [] (Out.none α P.layers.length).layers :=
    ⟨_, holds_create, stacked_none P.layers⟩
  rcases stream_eq hst chunks last with ⟨r, hrun, hstream⟩ | hrefused
  · left
    obtain ⟨st', hrun', hdone⟩ := (computes_gpu ζ P.layers).run_start hst
      (chunks.map Prod.snd) last.2
    obtain rfl := Option.some.inj (hrun.symm.trans hrun')
    exact ⟨st', hstream, hdone⟩
  · exact .inr hrefused

/-- The states of a stream: fresh, and behind chunks in batches. -/
inductive Reached (ζ : α) (Ls : List (Layer α)) : GpuState α → Prop
  | create : Reached ζ Ls .create
  | reset {st : GpuState α} : Reached ζ Ls st → Reached ζ Ls st.reset
  | served {st : GpuState α} {o : Others Ls} {fin : Bool} {xs : List α}
      {r : Out α × GpuState α} : Reached ζ Ls st → serve ζ Ls o st fin xs = pure r →
      Reached ζ Ls r.2

lemma GpuState.Valid.holds {st : GpuState α} {Ls : List (Layer α)} (h : st.Valid Ls) :
    ∃ ctxs, st.Holds ζ Ls ctxs := by
  refine ⟨Ls.mapIdx fun li L => st.ctx ζ L li, h, List.length_mapIdx, fun li L hL => ?_⟩
  rw [List.getElem?_mapIdx, hL, Option.map_some]

/-- In every state of a stream the counts fit the buffers and the layers. -/
theorem Reached.valid {st : GpuState α} (h : Reached ζ P.layers st) : st.Valid P.layers := by
  induction h with
  | create => exact nofun
  | reset => exact nofun
  | @served st o fin xs r _ hserve ih =>
    obtain ⟨ctxs, hholds⟩ := ih.holds (ζ := ζ)
    obtain ⟨st', hstep, hnext, hreset⟩ := gpuStep_sim hholds fin xs rfl
    rcases serve_eq o ih fin xs with ⟨r', hstep', hok⟩ | ⟨hthrow, -⟩
    · obtain rfl := Option.some.inj (hstep.symm.trans hstep')
      obtain rfl : _ = r := Except.ok.inj (Option.some.inj (hok.symm.trans hserve))
      cases fin with
      | false => exact (hnext rfl).valid
      | true =>
        show st'.Valid P.layers
        rw [hreset rfl]
        exact nofun
    · exact nomatch Option.some.inj (hthrow.symm.trans hserve)

end Served

end VibeVoice.Encoder
