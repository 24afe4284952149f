import VibeVoice.Lib.Machine
import VibeVoice.Lib.Ranges
import VibeVoice.Status
import Mathlib.Tactic

/-!
The allocation table of the Metal backend and its lazy zero fill (`metal_runtime.m`).

`Env` is what a call finds outside of the table: where the system puts a buffer, what becomes of a
launch. The GPU writes at any time into what is bound by a command that waits or runs.

* `allocFind`, `allocInsert`, `allocRemove`, `resolve`, `touch`, `stillZero`: the table.
* `newBuffer`, `vvMtlRun`, `memcpyH2d`, `memcpyD2h`, `memset`: the calls of `device.h` on memory.
* `Inv`, `step_inv`: what holds between calls, as long as no copy to the host goes into a buffer that
  is still fresh.
* `sound_iff`: the table is right, and a fill that is skipped leaves zeros, in exactly those runs.
-/

namespace VibeVoice.Metal.Alloc

/-- An `MTLBuffer`, by its number. -/
structure MTLBuffer where
  number : ℕ
  contents : ℕ
  length : ℕ
  deriving DecidableEq

/-- `mtl_alloc_t`. -/
structure MtlAlloc where
  base : ℕ
  len : ℕ
  buf : MTLBuffer
  pinned : Bool
  fresh : Bool
  deriving DecidableEq

/-- Where an allocation ends, and where its buffer does. -/
def MtlAlloc.stop (a : MtlAlloc) : ℕ := a.base + a.len

def MtlAlloc.bufStop (a : MtlAlloc) : ℕ := a.base + a.buf.length

/-- `VVMetal`, as far as memory goes. A command is the buffers it holds. -/
structure VVMetal where
  allocs : List MtlAlloc
  capAllocs : ℕ
  allocBytes : ℕ
  /-- How many buffers have been made. -/
  made : ℕ
  /-- The commands that wait or run, and those of the captured graphs. -/
  queued : List (List MTLBuffer)
  graphs : List (List (List MTLBuffer))
  mem : ℕ → UInt8
  /-- Which bytes have been written since they were allocated. -/
  written : ℕ → Bool

/-- No allocations, and memory with anything in it. -/
def VVMetal.new (mem : ℕ → UInt8) : VVMetal := ⟨[], 0, 0, 0, [], [], mem, fun _ => true⟩

/-- The buffers that the GPU may still write. -/
def VVMetal.held (m : VVMetal) : List MTLBuffer := m.queued.flatten ++ m.graphs.flatten.flatten

section Table

/-- `alloc_find_locked`. -/
def allocFind (m : VVMetal) (p : ℕ) : Option ℕ :=
  Ranges.find MtlAlloc.base MtlAlloc.stop m.allocs p

/-- The allocation containing `p`, with its index. -/
def allocAt (m : VVMetal) (p : ℕ) : Option (ℕ × MtlAlloc) :=
  (allocFind m p).bind fun i => m.allocs[i]?.map fun a => (i, a)

/-- `alloc_insert`; `grown` is whether there is memory for a larger table. -/
def allocInsert (grown : Bool) (b : MTLBuffer) (len : ℕ) (pinned fresh : Bool) (m : VVMetal) :
    Except Status VVMetal :=
  if m.allocs.length = m.capAllocs && !grown then .error .outOfMemory
  else .ok { m with
    allocs := Ranges.insert MtlAlloc.base ⟨b.contents, len, b, pinned, fresh⟩ m.allocs
    capAllocs :=
      if m.allocs.length = m.capAllocs then
        if m.capAllocs = 0 then 256 else m.capAllocs * 2
      else m.capAllocs
    allocBytes := m.allocBytes + len }

/-- `alloc_remove`. -/
def allocRemove (p : ℕ) (pinned : Bool) (m : VVMetal) : Option VVMetal :=
  (allocAt m p).bind fun r =>
    if r.2.base = p && r.2.pinned = pinned then
      some { m with allocs := m.allocs.eraseIdx r.1, allocBytes := m.allocBytes - r.2.len }
    else none

/-- An allocation that has been written. -/
def MtlAlloc.stale (a : MtlAlloc) : MtlAlloc := { a with fresh := false }

/-- `touch`. -/
def touch (p : ℕ) (m : VVMetal) : VVMetal :=
  match allocAt m p with
  | none => m
  | some (i, _) => { m with allocs := m.allocs.modify i MtlAlloc.stale }

/-- `resolve`. -/
def resolve (p : ℕ) (m : VVMetal) : Option (MTLBuffer × ℕ) × VVMetal :=
  ((allocAt m p).map fun r => (r.2.buf, p - r.2.base), touch p m)

/-- `still_zero`; the sum is one of `uintptr_t`. -/
def stillZero (p n : ℕ) (m : VVMetal) : Bool :=
  match allocAt m p with
  | none => false
  | some (_, a) => a.fresh && (p + n) % 2 ^ 64 ≤ a.stop

/-- `vv_mtl_is_device_ptr`. -/
def isDevicePtr (p : ℕ) (m : VVMetal) : Bool := p ≠ 0 && (allocAt m p).isSome

end Table

/-- What becomes of a launch besides its pointers. -/
inductive Fate
  /-- The grid is empty. -/
  | empty
  /-- There is no such kernel, or it allows fewer threads. -/
  | refused
  /-- The default stream has failed before, or there is no memory for one more command. -/
  | lost (e : Status)
  | queued
  | recorded (g : ℕ)

/-- What a call finds outside of the table. -/
structure Env where
  /-- Whether a new buffer can be had, where, and with what in it. -/
  memory : Bool
  base : ℕ
  content : ℕ → UInt8
  /-- Whether there is memory for a larger table. -/
  grown : Bool
  /-- How `device_sync` or `drain_locked` ends. -/
  sync : Except Status Unit
  fate : Fate

/-- The stream a call is given. -/
inductive Stream
  | null | idle | busy | capturing
  deriving DecidableEq

section Calls

/-- The bytes from `p` on. -/
def put (p n : ℕ) (content : ℕ → UInt8) (write : Bool) (m : VVMetal) : VVMetal :=
  { m with
    mem := fun x => if p ≤ x ∧ x < p + n then content (x - p) else m.mem x
    written := fun x => if p ≤ x ∧ x < p + n then write else m.written x }

/-- `memcpy`. -/
def memcpy (dst src n : ℕ) (m : VVMetal) : VVMetal := put dst n (fun i => m.mem (src + i)) true m

/-- The length of the mapping of a large buffer. -/
def mapLength (size : ℕ) : ℕ := (size + 16384 - 1) / 16384 * 16384

/-- A buffer that is made. -/
def newMTLBuffer (base length : ℕ) (content : ℕ → UInt8) (m : VVMetal) : MTLBuffer × VVMetal :=
  (⟨m.made, base, length⟩, { put base length content false m with made := m.made + 1 })

/-- The buffer of `new_buffer`: pages of zeros for a large one. -/
def makeBuffer (env : Env) (size : ℕ) (m : VVMetal) : MTLBuffer × VVMetal :=
  if 64 * 1024 ≤ size then newMTLBuffer env.base (mapLength size) (fun _ => 0) m
  else newMTLBuffer env.base size env.content m

/-- `new_buffer`, behind the check of its pointer. -/
def newBuffer (maxLen : ℕ) (env : Env) (size : ℕ) (pinned : Bool) (m : VVMetal) :
    Except Status VVMetal :=
  let size := if size = 0 then 1 else size
  if maxLen < size then .error .cudaOom
  else if !env.memory then .error .cudaOom
  else
    let made := makeBuffer env size m
    allocInsert env.grown made.1 size pinned (64 * 1024 ≤ size) made.2

/-- `free_buffer`. -/
def freeBuffer (p : ℕ) (pinned : Bool) (m : VVMetal) : Except Status VVMetal :=
  if p = 0 then .ok m
  else match allocRemove p pinned m with
    | none => .error .invalidArg
    | some m => .ok m

/-- The loops of `vv_mtl_run` over its pointers. -/
def resolveAll : List ℕ → VVMetal → Option (List MTLBuffer) × VVMetal
  | [], m => (some [], m)
  | p :: ps, m =>
    if p = 0 then resolveAll ps m
    else match resolve p m with
      | (none, m) => (none, m)
      | (some (b, _), m) => ((resolveAll ps m).1.map (b :: ·), (resolveAll ps m).2)

/-- `vv_mtl_run` on the buffers `ps`. -/
def vvMtlRun (env : Env) (ps : List ℕ) (m : VVMetal) : Except Status Unit × VVMetal :=
  match env.fate with
  | .empty => (.ok (), m)
  | .refused => (.error .cudaLaunch, m)
  | .lost e => match resolveAll ps m with
    | (none, m) => (.error .invalidArg, m)
    | (some _, m) => (.error e, m)
  | .queued => match resolveAll ps m with
    | (none, m) => (.error .invalidArg, m)
    | (some bs, m) => (.ok (), { m with queued := m.queued ++ [bs] })
  | .recorded g => match resolveAll ps m with
    | (none, m) => (.error .invalidArg, m)
    | (some bs, m) => (.ok (), { m with graphs := m.graphs.modify g (· ++ [bs]) })

/-- The end of `vv_dev_memcpy_h2d`: a copy through a buffer that is dropped at once. -/
def stageCopy (env : Env) (dst src n : ℕ) (m : VVMetal) : Except Status Unit × VVMetal :=
  if !env.memory then (.error .cudaOom, m)
  else
    let stage := newMTLBuffer env.base n (fun i => m.mem (src + i)) m
    match allocInsert env.grown stage.1 n true false stage.2 with
    | .error _ => (.error .outOfMemory, m)
    | .ok m =>
      let r := vvMtlRun env [dst, env.base] m
      (r.1, (allocRemove env.base true r.2).getD r.2)

/-- `vv_dev_memcpy_h2d`. -/
def memcpyH2d (env : Env) (st : Stream) (dst src n : ℕ) (m : VVMetal) :
    Except Status Unit × VVMetal :=
  if dst = 0 || src = 0 then (.error .nullPtr, m)
  else if n = 0 then (.ok (), m)
  else if st = .null then (env.sync, memcpy dst src n (touch dst m))
  else if isDevicePtr src m then vvMtlRun env [dst, src] m
  else if st = .idle then (.ok (), memcpy dst src n (touch dst m))
  else if n ≤ 2048 then vvMtlRun env [dst] m
  else if st = .capturing then (.error .unsupported, m)
  else stageCopy env dst src n m

/-- `vv_dev_memcpy_d2h`. -/
def memcpyD2h (env : Env) (st : Stream) (dst src n : ℕ) (m : VVMetal) :
    Except Status Unit × VVMetal :=
  if dst = 0 || src = 0 then (.error .nullPtr, m)
  else if n = 0 then (.ok (), m)
  else if st = .capturing then (.error .unsupported, m)
  else (env.sync, memcpy dst src n m)

/-- `vv_dev_memcpy_d2d`. -/
def memcpyD2d (env : Env) (dst src n : ℕ) (m : VVMetal) : Except Status Unit × VVMetal :=
  if dst = 0 || src = 0 then (.error .nullPtr, m)
  else if n = 0 then (.ok (), m)
  else vvMtlRun env [dst, src] m

/-- The byte of a fill. -/
def fillByte (value : ℤ) : UInt8 := UInt8.ofNat (value % 256).toNat

/-- `vv_dev_memset`. -/
def memset (env : Env) (p : ℕ) (value : ℤ) (n : ℕ) (m : VVMetal) : Except Status Unit × VVMetal :=
  if p = 0 then (.error .nullPtr, m)
  else if value = 0 && stillZero p n m then (.ok (), m)
  else (env.sync, put p n (fun _ => fillByte value) true (touch p m))

/-- `vv_dev_memset_async`. -/
def memsetAsync (env : Env) (st : Stream) (p : ℕ) (value : ℤ) (n : ℕ) (m : VVMetal) :
    Except Status Unit × VVMetal :=
  if p = 0 then (.error .nullPtr, m)
  else if n = 0 then (.ok (), m)
  else if st = .null then memset env p value n m
  else if value = 0 && stillZero p n m then (.ok (), m)
  else vvMtlRun env [p] m

/-- The calls, and what the GPU does by itself: a command writes into a buffer it holds, or ends. -/
inductive Call
  | alloc (size : ℕ) (pinned : Bool)
  | free (p : ℕ) (pinned : Bool)
  | h2d (st : Stream) (dst src n : ℕ)
  | d2h (st : Stream) (dst src n : ℕ)
  | d2d (dst src n : ℕ)
  | launch (ps : List ℕ)
  | addr (p : ℕ)
  | fill (p : ℕ) (value : ℤ) (n : ℕ)
  | fillAsync (st : Stream) (p : ℕ) (value : ℤ) (n : ℕ)
  | graphBegin
  | graphLaunch (g : ℕ)
  | graphDestroy (g : ℕ)
  | write (cmd : ℕ) (p n : ℕ)
  | retire (cmd : ℕ)

/-- A call that makes a buffer, or fails. -/
def orSame (m : VVMetal) : Except Status VVMetal → Except Status Unit × VVMetal
  | .error e => (.error e, m)
  | .ok m => (.ok (), m)

/-- A call; `maxLen` is the length the device allows. -/
def call (maxLen : ℕ) (env : Env) (m : VVMetal) : Call → Except Status Unit × VVMetal
  | .alloc size pinned => orSame m (newBuffer maxLen env size pinned m)
  | .free p pinned => orSame m (freeBuffer p pinned m)
  | .h2d st dst src n => memcpyH2d env st dst src n m
  | .d2h st dst src n => memcpyD2h env st dst src n m
  | .d2d dst src n => memcpyD2d env dst src n m
  | .launch ps => vvMtlRun env ps m
  | .addr p => (.ok (), if p = 0 then m else (resolve p m).2)
  | .fill p value n => memset env p value n m
  | .fillAsync st p value n => memsetAsync env st p value n m
  | .graphBegin => (.ok (), { m with graphs := m.graphs ++ [[]] })
  | .graphLaunch g => (.ok (), { m with queued := m.queued ++ m.graphs.getD g [] })
  | .graphDestroy g => (.ok (), { m with graphs := m.graphs.modify g fun _ => [] })
  | .write _ p n => (.ok (), put p n env.content true m)
  | .retire cmd => (.ok (), { m with queued := m.queued.eraseIdx cmd })

end Calls

/-! ### What callers and the system promise -/

section Promises

variable (m : VVMetal)

/-- A range in one allocation, or in memory of the host. -/
def Fits (p n : ℕ) : Prop :=
  ∀ a ∈ m.allocs, p + n ≤ a.base ∨ a.stop ≤ p ∨ (a.base ≤ p ∧ p + n ≤ a.stop)

instance (p n : ℕ) : Decidable (Fits m p n) := List.decidableBAll ..

/-- A new buffer is put where none is, and where none is written any more. -/
def Unused (p n : ℕ) : Prop :=
  p + n < 2 ^ 64 ∧ (∀ a ∈ m.allocs, p + n ≤ a.base ∨ a.bufStop ≤ p) ∧
    ∀ b ∈ m.held, p + n ≤ b.contents ∨ b.contents + b.length ≤ p

instance (p n : ℕ) : Decidable (Unused m p n) := inferInstanceAs (Decidable (_ ∧ _ ∧ _))

/-- What a call may rely on: copies and fills are of ranges that are there, and the GPU writes what
its command holds. -/
def Allowed (env : Env) : Call → Prop
  | .alloc size _ => Unused m env.base (makeBuffer env (if size = 0 then 1 else size) m).1.length
  | .h2d st dst _ n => Fits m dst n ∧ (st = .busy → Unused m env.base n)
  | .d2h _ dst _ n => Fits m dst n
  | .fill p _ n => Fits m p n
  | .fillAsync _ p _ n => Fits m p n
  | .write cmd p n => ∃ b ∈ m.queued.getD cmd [], b.contents ≤ p ∧ p + n ≤ b.contents + b.length
  | _ => True

instance (env : Env) (c : Call) : Decidable (Allowed m env c) := by
  cases c <;> dsimp only [Allowed] <;> infer_instance

end Promises

/-- A call that is allowed, or nothing. -/
def step (maxLen : ℕ) (m : VVMetal) (c : Env × Call) : Option (Except Status Unit × VVMetal) :=
  if Allowed m c.1 c.2 then some (call maxLen c.1 m c.2) else none

/-! ### What holds between calls -/

/-- An allocation keeps its range where a write clears its flag. -/
structure Cleared (l l' : List MtlAlloc) : Prop where
  map : l'.map MtlAlloc.stale = l.map MtlAlloc.stale
  fresh : ∀ a ∈ l', a.fresh = true → a ∈ l

/-- The invariant of the table and of the memory under it. -/
structure Inv (m : VVMetal) : Prop where
  apart : Ranges.Apart MtlAlloc.base MtlAlloc.bufStop m.allocs
  buf : ∀ a ∈ m.allocs, a.buf.contents = a.base ∧ 0 < a.len ∧ a.len ≤ a.buf.length ∧
    a.bufStop < 2 ^ 64
  bytes : m.allocBytes = (m.allocs.map MtlAlloc.len).sum
  zero : ∀ a ∈ m.allocs, a.fresh = true → ∀ x, a.base ≤ x → x < a.stop →
    m.mem x = 0 ∧ m.written x = false
  unheld : ∀ a ∈ m.allocs, a.fresh = true → ∀ b ∈ m.held,
    b.contents + b.length ≤ a.base ∨ a.stop ≤ b.contents

section Clearing

variable {m : VVMetal} {l l' l'' : List MtlAlloc}

lemma Cleared.refl (l : List MtlAlloc) : Cleared l l := ⟨rfl, fun _ ha _ => ha⟩

lemma Cleared.trans (h : Cleared l l') (h' : Cleared l' l'') : Cleared l l'' :=
  ⟨h'.map.trans h.map, fun a ha hfresh => h.fresh a (h'.fresh a ha hfresh) hfresh⟩

lemma cleared_modify (l : List MtlAlloc) (i : ℕ) : Cleared l (l.modify i MtlAlloc.stale) := by
  induction l generalizing i with
  | nil => exact ⟨by simp, by simp⟩
  | cons a l ih =>
    cases i with
    | zero =>
      refine ⟨rfl, fun b hb hfresh => ?_⟩
      rcases List.mem_cons.mp hb with rfl | hb
      · cases hfresh
      · exact List.mem_cons_of_mem a hb
    | succ i =>
      refine ⟨?_, fun b hb hfresh => ?_⟩
      · rw [List.modify_succ_cons, List.map_cons, (ih i).map, List.map_cons]
      · rcases List.mem_cons.mp hb with rfl | hb
        · exact List.mem_cons_self
        · exact List.mem_cons_of_mem a ((ih i).fresh b hb hfresh)

/-- Where the flags are cleared, the ranges are those of before. -/
lemma Cleared.exists (h : Cleared l l') {a : MtlAlloc} (ha : a ∈ l') :
    ∃ b ∈ l, b.stale = a.stale := by
  have hmem : a.stale ∈ l.map MtlAlloc.stale := h.map ▸ List.mem_map_of_mem ha
  exact List.mem_map.mp hmem

lemma Inv.cleared (hm : Inv m) (h : Cleared m.allocs l') : Inv { m with allocs := l' } where
  apart := by
    have hmap := (Ranges.apart_map (f := MtlAlloc.stale) (fun _ => rfl) fun _ => rfl).mpr hm.apart
    rw [← h.map] at hmap
    exact (Ranges.apart_map (f := MtlAlloc.stale) (fun _ => rfl) fun _ => rfl).mp hmap
  buf a ha := by
    obtain ⟨b, hb, hab⟩ := h.exists ha
    have hbuf := hm.buf b hb
    obtain ⟨base, len, buf, pinned, fresh⟩ := a
    obtain ⟨base', len', buf', pinned', fresh'⟩ := b
    cases hab
    exact hbuf
  bytes := by
    have hlen : ∀ l : List MtlAlloc, l.map MtlAlloc.len = (l.map MtlAlloc.stale).map MtlAlloc.len :=
      fun l => by rw [List.map_map]; rfl
    rw [hm.bytes, hlen, hlen l', h.map]
  zero a ha hfresh := hm.zero a (h.fresh a ha hfresh) hfresh
  unheld a ha hfresh := hm.unheld a (h.fresh a ha hfresh) hfresh

end Clearing

section Lookup

variable {m : VVMetal} {p : ℕ}

lemma Inv.apart_stop (hm : Inv m) : Ranges.Apart MtlAlloc.base MtlAlloc.stop m.allocs :=
  hm.apart.shorten (fun a ha => Nat.lt_add_of_pos_right (hm.buf a ha).2.1)
    fun a ha => Nat.add_le_add_left (hm.buf a ha).2.2.1 a.base

/-- The allocation containing a pointer is the one that does. -/
lemma allocAt_eq_some_iff (hm : Inv m) {i : ℕ} {a : MtlAlloc} :
    allocAt m p = some (i, a) ↔ m.allocs[i]? = some a ∧ a.base ≤ p ∧ p < a.stop := by
  simp only [allocAt, allocFind, Option.bind_eq_some_iff, Option.map_eq_some_iff,
    Ranges.find_eq_some_iff hm.apart_stop, Prod.mk.injEq]
  constructor
  · rintro ⟨j, ⟨b, hb, hin⟩, c, hc, rfl, rfl⟩
    rw [hb] at hc
    cases hc
    exact ⟨hb, hin⟩
  · rintro ⟨ha, hin⟩
    exact ⟨i, ⟨a, ha, hin⟩, a, ha, rfl, rfl⟩

/-- At most one allocation contains a pointer. -/
lemma Inv.unique (hm : Inv m) {a b : MtlAlloc} (ha : a ∈ m.allocs) (hb : b ∈ m.allocs)
    (hpa : a.base ≤ p ∧ p < a.stop) (hpb : b.base ≤ p ∧ p < b.stop) : a = b := by
  by_contra hab
  have := hm.apart_stop.disjoint ha hb hab
  omega

lemma allocAt_of_mem (hm : Inv m) {a : MtlAlloc} (ha : a ∈ m.allocs) (hp : a.base ≤ p)
    (hlt : p < a.stop) : ∃ i, allocAt m p = some (i, a) := by
  obtain ⟨i, hi⟩ := List.mem_iff_getElem?.mp ha
  exact ⟨i, (allocAt_eq_some_iff hm).mpr ⟨hi, hp, hlt⟩⟩

lemma touch_eq (p : ℕ) (m : VVMetal) : touch p m = { m with allocs := (touch p m).allocs } := by
  rw [touch]
  split <;> rfl

lemma touch_cleared (p : ℕ) (m : VVMetal) : Cleared m.allocs (touch p m).allocs := by
  rw [touch]
  split
  · exact Cleared.refl _
  · exact cleared_modify _ _

lemma touch_inv (hm : Inv m) : Inv (touch p m) := by
  rw [touch_eq]
  exact hm.cleared (touch_cleared p m)

/-- What contains a pointer that has been touched is not fresh. -/
lemma touch_stale (hm : Inv m) {a : MtlAlloc} (ha : a ∈ (touch p m).allocs) (hp : a.base ≤ p)
    (hlt : p < a.stop) : a.fresh = false := by
  rw [Bool.eq_false_iff]
  intro hfresh
  obtain ⟨i, hi⟩ := allocAt_of_mem hm ((touch_cleared p m).fresh a ha hfresh) hp hlt
  have hget := ((allocAt_eq_some_iff hm).mp hi).1
  obtain ⟨hil, hgeti⟩ := List.getElem?_eq_some_iff.mp hget
  obtain ⟨j, hj⟩ := List.mem_iff_getElem?.mp ha
  have hallocs : (touch p m).allocs = m.allocs.modify i MtlAlloc.stale := by rw [touch, hi]
  have hiti : (touch p m).allocs[i]? = some a.stale := by
    rw [hallocs, List.getElem?_modify_eq, hget]
    rfl
  have hij : i = j := by
    have hapart := (touch_inv (p := p) hm).apart_stop
    rcases Nat.lt_trichotomy i j with hij | hij | hij
    · have := hapart.getElem hiti hj hij
      change a.stop ≤ a.base at this
      omega
    · exact hij
    · have := hapart.getElem hj hiti hij
      change a.stop ≤ a.base at this
      omega
  rw [← hij, hiti, Option.some.injEq] at hj
  rw [← hj] at hfresh
  cases hfresh

end Lookup

section Preserved

variable {m m' : VVMetal} {p n : ℕ} {env : Env}

/-- A write that stays out of what is fresh. -/
lemma put_inv (hm : Inv m) {content : ℕ → UInt8} {write : Bool}
    (hout : ∀ a ∈ m.allocs, a.fresh = true → ∀ x, a.base ≤ x → x < a.stop →
      ¬(p ≤ x ∧ x < p + n)) : Inv (put p n content write m) where
  apart := hm.apart
  buf := hm.buf
  bytes := hm.bytes
  zero a ha hfresh x hx hlt := by
    have hx' := hout a ha hfresh x hx hlt
    have hzero := hm.zero a ha hfresh x hx hlt
    simp only [put, if_neg hx']
    exact hzero
  unheld := hm.unheld

/-- The host writes a range of a buffer that it has touched. -/
lemma put_touch_inv (hm : Inv m) (hfits : Fits m p n) (content : ℕ → UInt8) (write : Bool) :
    Inv (put p n content write (touch p m)) := by
  refine put_inv (touch_inv hm) fun a ha hfresh x hx hlt hin => ?_
  rcases hfits a ((touch_cleared p m).fresh a ha hfresh) with hbelow | habove | hinside
  · omega
  · omega
  · have hstale := touch_stale hm ha hinside.1 (by omega)
    rw [hfresh] at hstale
    cases hstale

/-- What else is held is not fresh. -/
lemma Inv.hold (hm : Inv m) {queued : List (List MTLBuffer)}
    {graphs : List (List (List MTLBuffer))}
    (hheld : ∀ b ∈ queued.flatten ++ graphs.flatten.flatten, b ∈ m.held ∨
      ∃ a ∈ m.allocs, a.buf = b ∧ a.fresh = false) :
    Inv { m with queued := queued, graphs := graphs } where
  apart := hm.apart
  buf := hm.buf
  bytes := hm.bytes
  zero := hm.zero
  unheld a ha hfresh b hb := by
    rcases hheld b hb with hb | ⟨a', ha', rfl, hstale⟩
    · exact hm.unheld a ha hfresh b hb
    · have hne : a' ≠ a := by
        rintro rfl
        rw [hfresh] at hstale
        cases hstale
      have hbuf := hm.buf a ha
      rw [(hm.buf a' ha').1]
      rcases hm.apart.disjoint ha' ha hne with hbefore | hbehind
      · exact .inl hbefore
      · exact .inr ((Nat.add_le_add_left hbuf.2.2.1 a.base).trans hbehind)

/-- Resolving clears flags, and what it has found is not fresh. -/
lemma resolveAll_spec (hm : Inv m) (ps : List ℕ) :
    ∃ l, (resolveAll ps m).2 = { m with allocs := l } ∧ Cleared m.allocs l ∧
      ∀ bs, (resolveAll ps m).1 = some bs → ∀ b ∈ bs, ∃ a ∈ l, a.buf = b ∧ a.fresh = false := by
  induction ps generalizing m with
  | nil => exact ⟨m.allocs, rfl, Cleared.refl _, by simp [resolveAll]⟩
  | cons p ps ih =>
    rw [resolveAll]
    by_cases hp : p = 0
    · rw [if_pos hp]
      exact ih hm
    rw [if_neg hp, resolve]
    cases hat : allocAt m p with
    | none => exact ⟨(touch p m).allocs, touch_eq p m, touch_cleared p m, nofun⟩
    | some r =>
      obtain ⟨i, a⟩ := r
      obtain ⟨l, hl, hcleared, hfound⟩ := ih (touch_inv (p := p) hm)
      refine ⟨l, ?_, (touch_cleared p m).trans hcleared, fun bs hbs b hb => ?_⟩
      · change (resolveAll ps (touch p m)).2 = _
        rw [hl, touch_eq]
      · obtain ⟨bs, hrest, rfl⟩ := Option.map_eq_some_iff.mp hbs
        rcases List.mem_cons.mp hb with rfl | hb
        · obtain ⟨hget, hbase, hlt⟩ := (allocAt_eq_some_iff hm).mp hat
          have hmem : a.stale ∈ l.map MtlAlloc.stale := by
            rw [((touch_cleared p m).trans hcleared).map]
            exact List.mem_map_of_mem (List.mem_of_getElem? hget)
          obtain ⟨a', ha', hstale⟩ := List.mem_map.mp hmem
          have hbuf : a'.stale.buf = a.stale.buf := congrArg MtlAlloc.buf hstale
          have hbase' : a'.stale.base = a.stale.base := congrArg MtlAlloc.base hstale
          have hstop : a'.stale.stop = a.stale.stop := congrArg MtlAlloc.stop hstale
          refine ⟨a', ha', hbuf, ?_⟩
          rw [Bool.eq_false_iff]
          intro hfresh
          have htouched := touch_stale hm (hcleared.fresh a' ha' hfresh) (hbase'.trans_le hbase)
            (hlt.trans_eq hstop.symm)
          rw [hfresh] at htouched
          cases htouched
        · exact hfound bs hrest b hb

/-- A graph holds what its commands do. -/
lemma mem_held {graph : List (List MTLBuffer)} {cmd : List MTLBuffer} {b : MTLBuffer}
    (hgraph : graph ∈ m.graphs) (hcmd : cmd ∈ graph) (hb : b ∈ cmd) : b ∈ m.held :=
  List.mem_append_right _
    (List.mem_flatten.mpr ⟨cmd, List.mem_flatten.mpr ⟨graph, hgraph, hcmd⟩, hb⟩)

lemma mem_getD_nil {α : Type} {l : List (List α)} {i : ℕ} {a : α} (h : a ∈ l.getD i []) :
    ∃ b ∈ l, a ∈ b := by
  rw [List.getD_eq_getElem?_getD] at h
  cases hi : l[i]? with
  | none => simp [hi] at h
  | some b => exact ⟨b, List.mem_of_getElem? hi, by simpa [hi] using h⟩

lemma mem_modify {α : Type} {l : List α} {i : ℕ} {f : α → α} {a : α} (h : a ∈ l.modify i f) :
    a ∈ l ∨ ∃ b ∈ l, f b = a := by
  obtain ⟨j, hj⟩ := List.mem_iff_getElem?.mp h
  rw [List.getElem?_modify] at hj
  obtain ⟨b, hb, hba⟩ := Option.map_eq_some_iff.mp hj
  have hmem := List.mem_of_getElem? hb
  split at hba
  · exact .inr ⟨b, hmem, hba⟩
  · exact .inl (hba ▸ hmem)

/-- A launch leaves memory alone. -/
lemma vvMtlRun_inv (hm : Inv m) (ps : List ℕ) : Inv (vvMtlRun env ps m).2 := by
  obtain ⟨l, hl, hcleared, hfound⟩ := resolveAll_spec hm ps
  have hinv : Inv (resolveAll ps m).2 := hl ▸ hm.cleared hcleared
  have hbound : ∀ bs, (resolveAll ps m).1 = some bs → ∀ b ∈ bs,
      ∃ a ∈ (resolveAll ps m).2.allocs, a.buf = b ∧ a.fresh = false := by
    rw [hl]
    exact hfound
  rw [vvMtlRun]
  generalize resolveAll ps m = r at hinv hbound
  obtain ⟨bs, m'⟩ := r
  cases env.fate with
  | empty => exact hm
  | refused => exact hm
  | lost e => cases bs <;> exact hinv
  | queued =>
    cases bs with
    | none => exact hinv
    | some bs =>
      refine hinv.hold fun b hb => ?_
      simp only [List.flatten_append, List.flatten_singleton, List.mem_append] at hb
      rcases hb with (hb | hb) | hb
      · exact .inl (List.mem_append_left _ hb)
      · exact .inr (hbound bs rfl b hb)
      · exact .inl (List.mem_append_right _ hb)
  | recorded g =>
    cases bs with
    | none => exact hinv
    | some bs =>
      refine hinv.hold fun b hb => ?_
      rcases List.mem_append.mp hb with hb | hb
      · exact .inl (List.mem_append_left _ hb)
      · obtain ⟨cmd, hcmd, hb⟩ := List.mem_flatten.mp hb
        obtain ⟨graph, hgraph, hcmd⟩ := List.mem_flatten.mp hcmd
        rcases mem_modify hgraph with hold | ⟨old, hold, rfl⟩
        · exact .inl (mem_held hold hcmd hb)
        · rcases List.mem_append.mp hcmd with hcmd | hcmd
          · exact .inl (mem_held hold hcmd hb)
          · exact .inr (hbound bs rfl b (List.mem_singleton.mp hcmd ▸ hb))

/-- A buffer that is entered where nothing is. -/
lemma allocInsert_inv {grown pinned fresh : Bool} {b : MTLBuffer} {len : ℕ} (hm : Inv m)
    (hlen : 0 < len) (hle : len ≤ b.length) (hunused : Unused m b.contents b.length)
    (hfresh : fresh = true → ∀ x, b.contents ≤ x → x < b.contents + len →
      m.mem x = 0 ∧ m.written x = false)
    (h : allocInsert grown b len pinned fresh m = .ok m') : Inv m' := by
  rw [allocInsert] at h
  split at h
  · cases h
  · cases h
    obtain ⟨hspace, halloc, hheld⟩ := hunused
    have hmem : ∀ a, a ∈ Ranges.insert MtlAlloc.base ⟨b.contents, len, b, pinned, fresh⟩ m.allocs ↔
        a = ⟨b.contents, len, b, pinned, fresh⟩ ∨ a ∈ m.allocs := fun a =>
      (Ranges.insert_perm _ _).mem_iff.trans List.mem_cons
    constructor
    · refine Ranges.insert_apart hm.apart ?_ fun a ha => (halloc a ha).symm
      exact Nat.lt_add_of_pos_right (hlen.trans_le hle)
    · intro a ha
      rcases (hmem a).mp ha with rfl | ha
      · exact ⟨rfl, hlen, hle, hspace⟩
      · exact hm.buf a ha
    · have hsum := ((@Ranges.insert_perm _ MtlAlloc.base
        ⟨b.contents, len, b, pinned, fresh⟩ m.allocs).map MtlAlloc.len).sum_eq
      dsimp only
      rw [hsum, List.map_cons, List.sum_cons, hm.bytes, Nat.add_comm]
    · intro a ha hf x hx hlt
      rcases (hmem a).mp ha with rfl | ha
      · exact hfresh hf x hx hlt
      · exact hm.zero a ha hf x hx hlt
    · intro a ha hf c hc
      rcases (hmem a).mp ha with rfl | ha
      · rcases hheld c hc with hbefore | hbehind
        · exact .inr ((Nat.add_le_add_left hle b.contents).trans hbefore)
        · exact .inl hbehind
      · exact hm.unheld a ha hf c hc

lemma allocRemove_inv {pinned : Bool} (hm : Inv m) (h : allocRemove p pinned m = some m') :
    Inv m' := by
  obtain ⟨⟨i, a⟩, hat, hr⟩ := Option.bind_eq_some_iff.mp h
  dsimp only at hr
  split at hr
  · cases hr
    have hget := ((allocAt_eq_some_iff hm).mp hat).1
    obtain ⟨hil, hgeti⟩ := List.getElem?_eq_some_iff.mp hget
    have hsub : (m.allocs.eraseIdx i).Sublist m.allocs := List.eraseIdx_sublist ..
    refine ⟨hm.apart.sublist hsub, fun b hb => hm.buf b (hsub.subset hb), ?_,
      fun b hb => hm.zero b (hsub.subset hb), fun b hb => hm.unheld b (hsub.subset hb)⟩
    have hsum := ((List.getElem_cons_eraseIdx_perm hil).map MtlAlloc.len).sum_eq
    rw [List.map_cons, List.sum_cons, hgeti] at hsum
    dsimp only
    rw [hm.bytes, ← hsum]
    exact Nat.add_sub_cancel_left ..
  · cases hr

/-- A buffer that is made where nothing is, and entered. -/
lemma entered_inv {base len : ℕ} {content : ℕ → UInt8} {grown pinned fresh : Bool} (hm : Inv m)
    (hunused : Unused m base n) (hlen : 0 < len) (hle : len ≤ n)
    (hfresh : fresh = true → ∀ i, content i = 0)
    (h : allocInsert grown (newMTLBuffer base n content m).1 len pinned fresh
      (newMTLBuffer base n content m).2 = .ok m') : Inv m' := by
  have hput : Inv (put base n content false m) := put_inv hm fun a ha _ x hx hlt hin => by
    have hle := (hm.buf a ha).2.2.1
    have hout := hunused.2.1 a ha
    simp only [MtlAlloc.stop, MtlAlloc.bufStop] at hlt hout
    omega
  have hmade : Inv (newMTLBuffer base n content m).2 :=
    ⟨hput.apart, hput.buf, hput.bytes, hput.zero, hput.unheld⟩
  have hunused' : Unused (newMTLBuffer base n content m).2
    (newMTLBuffer base n content m).1.contents (newMTLBuffer base n content m).1.length := hunused
  refine allocInsert_inv hmade hlen hle hunused' (fun hf x hx hlt => ?_) h
  have hin : base ≤ x ∧ x < base + n := ⟨hx, hlt.trans_le (Nat.add_le_add_left hle _)⟩
  simp only [newMTLBuffer, put, if_pos hin, and_true]
  exact hfresh hf _

lemma le_mapLength (size : ℕ) : size ≤ mapLength size := by
  rw [mapLength]
  omega

lemma newBuffer_inv {maxLen size : ℕ} {pinned : Bool} (hm : Inv m)
    (hunused : Unused m env.base (makeBuffer env (if size = 0 then 1 else size) m).1.length)
    (h : newBuffer maxLen env size pinned m = .ok m') : Inv m' := by
  rw [newBuffer] at h
  have hpos : 0 < if size = 0 then 1 else size := by split <;> omega
  generalize (if size = 0 then 1 else size) = size at h hpos hunused
  dsimp only at h
  split at h
  · cases h
  split at h
  · cases h
  rw [makeBuffer] at h hunused
  by_cases hlarge : 64 * 1024 ≤ size
  · rw [if_pos hlarge] at h hunused
    exact entered_inv hm hunused hpos (le_mapLength size) (fun _ _ => rfl) h
  · rw [if_neg hlarge] at h hunused
    exact entered_inv hm hunused hpos le_rfl
      (fun hfresh => absurd (of_decide_eq_true hfresh) hlarge) h

lemma stageCopy_inv {dst src : ℕ} (hm : Inv m) (hn : 0 < n) (hunused : Unused m env.base n) :
    Inv (stageCopy env dst src n m).2 := by
  rw [stageCopy]
  split
  · exact hm
  dsimp only
  split
  · exact hm
  · rename_i m' hinsert
    have hm' : Inv m' := entered_inv hm hunused hn le_rfl (absurd · Bool.false_ne_true) hinsert
    have hrun : Inv (vvMtlRun env [dst, env.base] m').2 := vvMtlRun_inv hm' _
    cases hremove : allocRemove env.base true (vvMtlRun env [dst, env.base] m').2 with
    | none => exact hrun
    | some m'' => exact allocRemove_inv hrun hremove

lemma memcpyH2d_inv {st : Stream} {dst src : ℕ} (hm : Inv m) (hfits : Fits m dst n)
    (hunused : st = .busy → Unused m env.base n) : Inv (memcpyH2d env st dst src n m).2 := by
  rw [memcpyH2d]
  split_ifs with hnull hn hst hdev hidle hsmall hcapturing
  · exact hm
  · exact hm
  · dsimp only [memcpy]
    exact put_touch_inv hm hfits _ _
  · exact vvMtlRun_inv hm _
  · dsimp only [memcpy]
    exact put_touch_inv hm hfits _ _
  · exact vvMtlRun_inv hm _
  · exact hm
  · refine stageCopy_inv hm (Nat.pos_of_ne_zero hn) (hunused ?_)
    cases st with
    | null => exact absurd rfl hst
    | idle => exact absurd rfl hidle
    | busy => rfl
    | capturing => exact absurd rfl hcapturing

lemma memset_inv {value : ℤ} (hm : Inv m) (hfits : Fits m p n) :
    Inv (memset env p value n m).2 := by
  rw [memset]
  split_ifs with hnull hskip
  · exact hm
  · exact hm
  · dsimp only [memcpy]
    exact put_touch_inv hm hfits _ _

lemma memsetAsync_inv {st : Stream} {value : ℤ} (hm : Inv m) (hfits : Fits m p n) :
    Inv (memsetAsync env st p value n m).2 := by
  rw [memsetAsync]
  split_ifs with hnull hn hst hskip
  · exact hm
  · exact hm
  · exact memset_inv hm hfits
  · exact hm
  · exact vvMtlRun_inv hm _

end Preserved

/-- A copy to the host does not write into a buffer that is still fresh. -/
def Spares (m : VVMetal) : Call → Prop
  | .d2h st dst src n => dst ≠ 0 → src ≠ 0 → n ≠ 0 → st ≠ .capturing →
      ∀ a ∈ m.allocs, a.base ≤ dst → dst < a.stop → a.fresh = false
  | _ => True

section Runs

variable {maxLen : ℕ} {m m' : VVMetal}

/-- **One step**: the invariant is kept by every call that spares what is fresh. -/
theorem step_inv {c : Env × Call} {o : Except Status Unit} (hm : Inv m)
    (hspares : Allowed m c.1 c.2 → Spares m c.2) (h : step maxLen m c = some (o, m')) :
    Inv m' := by
  obtain ⟨env, c⟩ := c
  rw [step] at h
  split at h
  case isFalse => cases h
  case isTrue hallowed =>
    have hspares := hspares hallowed
    have hm' : m' = (call maxLen env m c).2 := congrArg Prod.snd (Option.some.inj h).symm
    rw [hm']
    cases c with
    | alloc size pinned =>
      simp only [call]
      cases hnew : newBuffer maxLen env size pinned m with
      | error e => exact hm
      | ok m'' => exact newBuffer_inv hm hallowed hnew
    | free p pinned =>
      simp only [call, freeBuffer]
      split_ifs
      · exact hm
      · cases hremove : allocRemove p pinned m with
        | none => exact hm
        | some m'' => exact allocRemove_inv hm hremove
    | h2d st dst src n => exact memcpyH2d_inv hm hallowed.1 hallowed.2
    | d2h st dst src n =>
      simp only [call, memcpyD2h]
      split_ifs with hnull hn hcapturing
      · exact hm
      · exact hm
      · exact hm
      · dsimp only [memcpy]
        refine put_inv hm fun a ha hfresh x hx hlt hin => ?_
        simp only [Bool.or_eq_true, decide_eq_true_eq, not_or] at hnull
        have hstale := hspares hnull.1 hnull.2 hn hcapturing a ha
        rcases hallowed a ha with hbelow | habove | hinside
        · omega
        · omega
        · rw [hstale hinside.1 (by omega)] at hfresh
          cases hfresh
    | d2d dst src n =>
      simp only [call, memcpyD2d]
      split_ifs
      · exact hm
      · exact hm
      · exact vvMtlRun_inv hm _
    | launch ps => exact vvMtlRun_inv hm ps
    | addr p =>
      simp only [call]
      split_ifs
      · exact hm
      · exact touch_inv hm
    | fill p value n => exact memset_inv hm hallowed
    | fillAsync st p value n => exact memsetAsync_inv hm hallowed
    | graphBegin =>
      refine hm.hold fun b hb => .inl ?_
      simpa [VVMetal.held] using hb
    | graphLaunch g =>
      refine hm.hold fun b hb => .inl ?_
      rw [List.flatten_append, List.append_assoc] at hb
      rcases List.mem_append.mp hb with hb | hb
      · exact List.mem_append_left _ hb
      · rcases List.mem_append.mp hb with hb | hb
        · obtain ⟨cmd, hcmd, hb⟩ := List.mem_flatten.mp hb
          obtain ⟨graph, hgraph, hcmd⟩ := mem_getD_nil hcmd
          exact mem_held hgraph hcmd hb
        · exact List.mem_append_right _ hb
    | graphDestroy g =>
      refine hm.hold fun b hb => .inl ?_
      rcases List.mem_append.mp hb with hb | hb
      · exact List.mem_append_left _ hb
      · obtain ⟨cmd, hcmd, hb⟩ := List.mem_flatten.mp hb
        obtain ⟨graph, hgraph, hcmd⟩ := List.mem_flatten.mp hcmd
        rcases mem_modify hgraph with hold | ⟨old, hold, rfl⟩
        · exact mem_held hold hcmd hb
        · cases hcmd
    | write cmd p n =>
      obtain ⟨b, hb, hlo, hhi⟩ := hallowed
      obtain ⟨bs, hbs, hb⟩ := mem_getD_nil hb
      have hheld : b ∈ m.held := List.mem_append_left _ (List.mem_flatten.mpr ⟨bs, hbs, hb⟩)
      dsimp only [call]
      refine put_inv hm fun a ha hfresh x hx hlt hin => ?_
      have hapart := hm.unheld a ha hfresh b hheld
      omega
    | retire cmd =>
      refine hm.hold fun b hb => .inl ?_
      rcases List.mem_append.mp hb with hb | hb
      · obtain ⟨bs, hbs, hb⟩ := List.mem_flatten.mp hb
        have hold : bs ∈ m.queued := (List.eraseIdx_sublist ..).subset hbs
        exact List.mem_append_left _ (List.mem_flatten.mpr ⟨bs, hold, hb⟩)
      · exact List.mem_append_right _ hb

/-- What the table and the lazy fill are to do. -/
structure Sound (m : VVMetal) : Prop where
  sorted : Ranges.Apart MtlAlloc.base MtlAlloc.stop m.allocs
  bytes : m.allocBytes = (m.allocs.map MtlAlloc.len).sum
  unique : ∀ p, ∀ a ∈ m.allocs, ∀ b ∈ m.allocs, a.base ≤ p ∧ p < a.stop →
    b.base ≤ p ∧ p < b.stop → a = b
  resolve : ∀ p b off, (resolve p m).1 = some (b, off) ↔
    ∃ a ∈ m.allocs, a.buf = b ∧ a.base ≤ p ∧ p < a.stop ∧ off = p - a.base
  /-- A fill of zeros that is skipped leaves zeros. -/
  skipped : ∀ p n, p + n < 2 ^ 64 → stillZero p n m = true → ∀ x, p ≤ x → x < p + n → m.mem x = 0
  untouched : ∀ a ∈ m.allocs, a.fresh = true → ∀ x, a.base ≤ x → x < a.stop →
    m.written x = false

lemma resolve_eq_some_iff (hm : Inv m) {p off : ℕ} {b : MTLBuffer} :
    (resolve p m).1 = some (b, off) ↔
      ∃ a ∈ m.allocs, a.buf = b ∧ a.base ≤ p ∧ p < a.stop ∧ off = p - a.base := by
  simp only [resolve, Option.map_eq_some_iff, Prod.exists, Prod.mk.injEq,
    allocAt_eq_some_iff hm]
  constructor
  · rintro ⟨i, a, ⟨hget, hbase, hlt⟩, rfl, rfl⟩
    exact ⟨a, List.mem_of_getElem? hget, rfl, hbase, hlt, rfl⟩
  · rintro ⟨a, ha, rfl, hbase, hlt, rfl⟩
    obtain ⟨i, hget⟩ := List.mem_iff_getElem?.mp ha
    exact ⟨i, a, ⟨hget, hbase, hlt⟩, rfl, rfl⟩

lemma Inv.sound (hm : Inv m) : Sound m where
  sorted := hm.apart_stop
  bytes := hm.bytes
  unique _ _ ha _ hb hpa hpb := hm.unique ha hb hpa hpb
  resolve _ _ _ := resolve_eq_some_iff hm
  skipped p n hp hskip x hx hlt := by
    rw [stillZero] at hskip
    split at hskip
    · cases hskip
    · rename_i i a hat
      obtain ⟨hget, hbase, -⟩ := (allocAt_eq_some_iff hm).mp hat
      rw [Bool.and_eq_true, decide_eq_true_eq, Nat.mod_eq_of_lt hp] at hskip
      exact (hm.zero a (List.mem_of_getElem? hget) hskip.1 x (hbase.trans hx)
        (hlt.trans_le hskip.2)).1
  untouched a ha hfresh x hx hlt := (hm.zero a ha hfresh x hx hlt).2

lemma new_inv (mem : ℕ → UInt8) : Inv (VVMetal.new mem) :=
  ⟨Ranges.Apart.nil, nofun, rfl, nofun, nofun⟩

/-- A copy into a buffer that is fresh leaves it so. -/
lemma not_sound_of_fresh {env : Env} {st : Stream} {dst src n : ℕ} (hdst : dst ≠ 0)
    (hsrc : src ≠ 0) (hn : n ≠ 0) (hst : st ≠ .capturing) {a : MtlAlloc} (ha : a ∈ m.allocs)
    (hbase : a.base ≤ dst) (hlt : dst < a.stop) (hfresh : a.fresh = true) :
    ¬Sound (memcpyD2h env st dst src n m).2 := by
  intro hsound
  have hnull : ¬(decide (dst = 0) || decide (src = 0)) = true := by simp [hdst, hsrc]
  rw [memcpyD2h, if_neg hnull, if_neg hn, if_neg hst] at hsound
  have hwritten := hsound.untouched a ha hfresh dst hbase hlt
  have hin : dst ≤ dst ∧ dst < dst + n := ⟨le_rfl, Nat.lt_add_of_pos_right (by omega)⟩
  simp only [memcpy, put, if_pos hin] at hwritten
  cases hwritten

/-- **The table and the lazy fill**: they are right in a run exactly if no copy to the host writes
into a buffer that is still fresh. -/
theorem sound_iff (maxLen : ℕ) (mem : ℕ → UInt8) (calls : List (Env × Call)) :
    Machine.Along (step maxLen) Sound (VVMetal.new mem) calls ↔
      Machine.Guarded (step maxLen) (fun m c => Allowed m c.1 c.2 → Spares m c.2)
        (VVMetal.new mem) calls := by
  constructor
  · intro hsound pre c hpre m hrun hallowed
    obtain ⟨env, c⟩ := c
    cases c with
    | d2h st dst src n =>
      intro hdst hsrc hn hst a ha hbase hlt
      rw [Bool.eq_false_iff]
      intro hfresh
      have hnext := Machine.run_snoc (step maxLen) (a := (env, Call.d2h st dst src n)) hrun
      rw [step, if_pos hallowed, Option.map_some] at hnext
      exact not_sound_of_fresh hdst hsrc hn hst ha hbase hlt hfresh (hsound _ hpre _ hnext)
    | _ => trivial
  · intro hspares pre hpre m hrun
    have hinv : Machine.Along (step maxLen) Inv (VVMetal.new mem) calls :=
      Machine.Along.of_guarded (new_inv mem) (fun m c o m' hm hs h => step_inv hm hs h) hspares
    exact (hinv pre hpre m hrun).sound

/-- A byte of 7, read back into a pinned buffer of 64 KiB. -/
def readBack : List (Env × Call) :=
  let env (base : ℕ) : Env := ⟨true, base, fun _ => 0, true, .ok (), .queued⟩
  [(env 4096, .alloc 1 false), (env 0, .fill 4096 7 1), (env 65536, .alloc 65536 true),
    (env 0, .d2h .null 65536 4096 1)]

/-- Behind the copy the buffer is still taken for zeros. -/
theorem readBack_lost :
    (Machine.run (step (2 ^ 30)) (VVMetal.new fun _ => 0) readBack).map
        (fun m => (stillZero 65536 65536 m, m.mem 65536)) = some (true, 7) ∧
      ¬Machine.Along (step (2 ^ 30)) Sound (VVMetal.new fun _ => 0) readBack := by
  have hrun : (Machine.run (step (2 ^ 30)) (VVMetal.new fun _ => 0) readBack).map
      (fun m => (stillZero 65536 65536 m, m.mem 65536)) = some (true, 7) := by decide +kernel
  refine ⟨hrun, fun hsound => ?_⟩
  obtain ⟨m, hm, hread⟩ := Option.map_eq_some_iff.mp hrun
  obtain ⟨hskip, hseven⟩ := Prod.mk.inj hread
  have hzero := (hsound _ List.prefix_rfl m hm).skipped 65536 65536 (by norm_num) hskip 65536
    le_rfl (by norm_num)
  rw [hseven] at hzero
  exact absurd hzero (by decide)

end Runs

end VibeVoice.Metal.Alloc
