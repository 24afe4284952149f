import VibeVoice.Lib.Meter
import VibeVoice.Model.Gguf

/-!
The cursor of `gguf.c` as it runs: with its `bad` flag, the differences and products of `size_t`,
the ranges it reads, the steps it does and the arena the strings are copied to.

* `parseTables`: `parse`, up to the end of the tensor table.
* `parseTables_follows`: it answers what `readHeader` answers.
* `parseTables_costs`: it reads inside of the file only, nests no deeper than the limit, and its
  work is bounded by the size of the file.
* `arrStrReads`: what `vv_gguf_arr_str` reads and hands out.
* `reads_inside`: all of it, for a file that opens; the strings of an array are where the
  walk looks for them in the versions with lengths of 64 bits.
* `inside_iff`: the files of the first version for which they are.
-/

namespace VibeVoice.Gguf.Mapped

open Metered

/-! ### The programs -/

/-- `strings_used`, `strings_cap`, and the steps that were spent on moving the arena. -/
structure Arena where
  used : ℕ
  cap : ℕ
  moved : ℕ

/-- A program over the cursor. -/
abbrev Prog (α : Type) := Metered Arena α

/-- The flag. -/
def isBad : Prog Bool := fun s => (s.bad, s)

/-- `c->p`. -/
def position : Prog ℕ := fun s => (s.pos, s)

variable (file : List UInt8)

/-- `c->end - c->p`. -/
def remaining : Prog ℕ := fun s => (left file s, s)

/-- `cur_u32`; where the read fails the number stays `0`. -/
def curU32 : Prog ℕ := ofLe <$> take file 4

/-- `cur_u64`. -/
def curU64 : Prog ℕ := ofLe <$> take file 8

/-- A length or a count, of 32 bits in the first version. -/
def curLen (v1 : Bool) : Prog ℕ := if v1 then curU32 file else curU64 file

/-- The size of the first arena. -/
def firstCap : ℕ := 65536

lemma firstCap_pos : 0 < firstCap := by norm_num [firstCap]

/-- `while (cap < need) cap *= 2`, with the number of its rounds; `fuel` rounds at most. -/
def growCap : ℕ → ℕ → ℕ → ℕ × ℕ
  | 0, cap, _ => (cap, 0)
  | fuel + 1, cap, need =>
    if cap < need then
      let r := growCap fuel (cap * 2) need
      (r.1, r.2 + 1)
    else (cap, 0)

/-- Room for `len` bytes and a NUL: the arena moves where there is too little. -/
def reserve (a : Arena) (len : ℕ) : Arena :=
  if a.cap < a.used + len + 1 then
    let need := a.used + len + 1
    let r := growCap need (if a.cap = 0 then firstCap else a.cap * 2) need
    { a with cap := r.1, moved := a.moved + r.2 + a.used }
  else a

/-- The bytes of a string, copied into the arena. -/
def copyStr (len : ℕ) : Prog (List UInt8) := fun s =>
  if s.bad = true ∨ left file s < len then ([], { s with bad := true, work := s.work + 1 })
  else
    let arena := reserve s.store len
    (cString ((file.drop s.pos).take len),
      { s with
        pos := s.pos + len, reads := (s.pos, len) :: s.reads, work := s.work + len + 1,
        store := { arena with used := arena.used + len + 1 } })

/-- `cur_str`. -/
def curStr (v1 : Bool) : Prog (List UInt8) := do
  let len ← curLen file v1
  copyStr file len

/-- The elements of an array, with a program for those that have no fixed size. -/
def skipElems (elem : Prog Unit) (elemType n : ℕ) : Prog Unit :=
  let esz := scalarSize elemType
  if esz ≠ 0 then skip file n esz else repeatGood n elem

/-- `skip_value`. -/
def skipValue (v1 : Bool) (code depth : ℕ) : Prog Unit := do
  enter depth
  if _h : 4 < depth then fail
  else
    let sz := scalarSize code
    if sz ≠ 0 then skip file 1 sz
    else
      match valueType code with
      | some .string => do
          let len ← curLen file v1
          skip file len 1
      | some .array => do
          let elemType ← curU32 file
          let n ← curLen file v1
          skipElems file (skipValue v1 elemType (depth + 1)) elemType n
      | _ => fail
termination_by 5 - depth

/-- `read_scalar`; the type is that of a scalar. -/
def readScalar (t : ValueType) : Prog Value := scalarValue t <$> take file t.scalarSize

/-- The value of a key. -/
def readValue (v1 : Bool) : ValueType → Prog Value
  | .string => .str <$> curStr file v1
  | .array => do
      let elemType ← curU32 file
      let n ← curLen file v1
      let data ← position
      skipElems file (skipValue file v1 elemType 1) elemType n
      pure (.arr elemType n data)
  | t => readScalar file t

/-- One round of the loop over the keys; the entry of an unknown type is dropped with the file. -/
def readKv (v1 : Bool) : Prog Kv := do
  let key ← curStr file v1
  let code ← curU32 file
  match valueType code with
  | none => do
      fail
      pure ⟨key, .u8, .u 0⟩
  | some type => do
      let value ← readValue file v1 type
      pure ⟨key, type, value⟩

/-- The dimensions of a tensor. -/
def readDims (v1 : Bool) : ℕ → Prog (List ℤ)
  | 0 => pure []
  | n + 1 => do
      let ne ← curLen file v1
      if 2 ^ 40 < ne then do
        fail
        pure []
      else do
        let dims ← readDims v1 n
        pure ((ne : ℤ) :: dims)

/-- One round of the loop over the tensors. -/
def readTensor (v1 : Bool) : Prog Tensor := do
  let name ← curStr file v1
  let nd ← curU32 file
  if nd < 1 ∨ 4 < nd then do
    fail
    pure ⟨name, 0, [], 0, 0, 0, none⟩
  else do
    let dims ← readDims file v1 nd
    let type ← curU32 file
    let offset ← curU64 file
    pure ⟨name, nd, dims ++ List.replicate (4 - nd) 1, type, offset, 0, none⟩

/-- `parse`, from the counts on. -/
def parseEntries (version nKv nTensors : ℕ) : Prog (Except Status Header) := do
  let kvs ← collectGood nKv (readKv file (version = 1))
  let bad ← isBad
  if bad then pure (.error .parse)
  else do
    let tensors ← collectGood nTensors (readTensor file (version = 1))
    let bad ← isBad
    if bad then pure (.error .parse) else pure (.ok ⟨version, kvs, tensors⟩)

/-- `parse`, from the version on. -/
def parseCounts (version : ℕ) : Prog (Except Status Header) := do
  let nTensors ← curLen file (version = 1)
  let nKv ← curLen file (version = 1)
  let bad ← isBad
  if bad then pure (.error .parse)
  else do
    let left ← remaining file
    if left / 12 < nKv ∨ left / 28 < nTensors ∨ 2 ^ 20 < nTensors then pure (.error .parse)
    else parseEntries file version nKv nTensors

/-- `parse`, up to the end of the tensor table. -/
def parseTables : Prog (Except Status Header) := do
  let magic ← curU32 file
  let bad ← isBad
  if bad ∨ magic ≠ ggufMagic then pure (.error .parse)
  else do
    let version ← curU32 file
    if version < 1 ∨ 3 < version then pure (.error .modelVersion)
    else parseCounts file version

/-- Where `parse` starts. -/
def start : Meter Arena := ⟨0, false, [], 0, 0, ⟨0, 0, 0⟩⟩

variable {file}

/-! ### The arena -/

/-- Every byte in the arena was paid for by the file, and it was moved no more often than that. -/
structure Arena.Paid (pos : ℕ) (a : Arena) : Prop where
  used_le : a.used ≤ pos
  used_le_cap : a.used ≤ a.cap
  cap_le : a.cap ≤ max firstCap (2 * a.used)
  moved_le : a.moved ≤ a.cap

/-- The loop ends where there is room, and no later than twice of that. -/
lemma growCap_spec {fuel cap need : ℕ} (hcap : 0 < cap) (hfuel : need ≤ cap + fuel) :
    cap + (growCap fuel cap need).2 ≤ (growCap fuel cap need).1 ∧
      need ≤ (growCap fuel cap need).1 ∧
      ((growCap fuel cap need).1 = cap ∨ (growCap fuel cap need).1 < 2 * need) := by
  induction fuel generalizing cap with
  | zero => exact ⟨le_rfl, hfuel, .inl rfl⟩
  | succ fuel ih =>
    rw [growCap]
    split_ifs with hlt
    · obtain ⟨hrounds, hneed, hcases⟩ := @ih (cap * 2) (by omega) (by omega)
      refine ⟨?_, hneed, .inr ?_⟩
      · dsimp only
        omega
      · dsimp only
        omega
    · exact ⟨le_rfl, not_lt.mp hlt, .inl rfl⟩

/-- An arena that moves from room for `cap` bytes on. -/
lemma Arena.Paid.move {pos : ℕ} {a : Arena} (h : a.Paid pos) {pos' len cap : ℕ} (hcap : 0 < cap)
    (hle : 2 * a.cap ≤ cap) (hmax : cap ≤ max firstCap (2 * (a.used + len + 1)))
    (hpos : a.used + len + 1 ≤ pos') :
    Arena.Paid pos' ⟨a.used + len + 1, (growCap (a.used + len + 1) cap (a.used + len + 1)).1,
      a.moved + (growCap (a.used + len + 1) cap (a.used + len + 1)).2 + a.used⟩ := by
  obtain ⟨hrounds, hneed, hcases⟩ :=
    growCap_spec hcap (Nat.le_add_left (a.used + len + 1) cap)
  have hmoved := h.moved_le
  have hused := h.used_le_cap
  refine ⟨hpos, hneed, ?_, ?_⟩
  · dsimp only
    omega
  · dsimp only
    omega

/-- The arena, with one more string in it. -/
lemma Arena.Paid.reserve {pos : ℕ} {a : Arena} (h : a.Paid pos) {pos' len : ℕ}
    (hpos : a.used + len + 1 ≤ pos') :
    ({ Mapped.reserve a len with used := (Mapped.reserve a len).used + len + 1 } : Arena).Paid
      pos' := by
  have hcap := h.cap_le
  by_cases hgrow : a.cap < a.used + len + 1
  · rw [Mapped.reserve, if_pos hgrow]
    by_cases h0 : a.cap = 0
    · rw [if_pos h0]
      exact h.move firstCap_pos (by omega) (le_max_left _ _) hpos
    · rw [if_neg h0]
      exact h.move (by omega) (by omega) (by omega) hpos
  · rw [Mapped.reserve, if_neg hgrow]
    exact ⟨hpos, not_lt.mp hgrow, by dsimp only; omega, h.moved_le⟩

lemma Arena.Paid.mono {pos pos' : ℕ} {a : Arena} (hpos : pos ≤ pos') (h : a.Paid pos) :
    a.Paid pos' := ⟨h.used_le.trans hpos, h.used_le_cap, h.cap_le, h.moved_le⟩

/-! ### What the programs cost -/

/-- The cursor and the arena, with five nested calls at most. -/
abbrev Safe (file : List UInt8) : Meter Arena → Prop :=
  Inside file 5 fun pos a => a.Paid pos

/-- A program that stays safe, with three steps for every byte. -/
abbrev Bounded (file : List UInt8) (j : ℤ) (k : ℕ) {α : Type} (m : Prog α) : Prop :=
  Costs (Safe file) 3 j k m

lemma position_bounded : Bounded file 0 0 position := fun _ hs => Step.refl hs

lemma isBad_bounded : Bounded file 0 0 isBad := fun _ hs => Step.refl hs

lemma remaining_bounded : Bounded file 0 0 (remaining file) := fun _ hs => Step.refl hs

section

variable (hfile : file.length < 2 ^ 64) (v1 : Bool)

include hfile

lemma take_bounded (n : ℕ) {j : ℤ} (hj : j ≤ 2 * n - 1) : Bounded file j 1 (take file n) := by
  have h : Bounded file ((3 : ℕ) * n - n - 1) 1 (take file n) :=
    Costs.take hfile (fun _ _ _ hle hpaid => hpaid.mono hle) three_pos n
  exact h.mono (by push_cast; omega) le_rfl

lemma curU32_bounded : Bounded file 7 1 (curU32 file) :=
  (take_bounded hfile 4 (by norm_num)).map ofLe

lemma curU64_bounded : Bounded file 15 1 (curU64 file) :=
  (take_bounded hfile 8 (by norm_num)).map ofLe

lemma curLen_bounded : Bounded file 7 1 (curLen file v1) :=
  (curU32_bounded hfile).ite ((curU64_bounded hfile).mono (by norm_num) le_rfl)

lemma skip_bounded (n : ℕ) {size : ℕ} (hsize : 0 < size) {j : ℤ} (hj : j ≤ 3 * (n * size) - 1) :
    Bounded file j 1 (skip file n size) := by
  have h : Bounded file ((3 : ℕ) * (n * size) - 1) 1 (skip file n size) :=
    Costs.skip hfile (fun _ _ _ hle hpaid => hpaid.mono hle) n hsize
  exact h.mono (by push_cast; omega) le_rfl

/-- A string whose length was read before it. -/
lemma copyStr_step {s : Meter Arena} (hs : Safe file s) (hroom : s.store.used + 1 ≤ s.pos)
    (len : ℕ) : Step (Safe file) 3 (-1) 1 s (copyStr file len s).2 := by
  have hpos := hs.pos_le
  rw [copyStr]
  split_ifs with hbad
  · exact Step.fail hs
  · rw [left_eq hpos hfile, not_or, not_lt] at hbad
    refine ⟨⟨?_, ?_, hs.depth_le, hs.store.reserve ?_⟩, id, fun _ => ?_, ?_⟩
    · dsimp only
      omega
    · intro x hx
      rcases List.mem_cons.mp hx with rfl | hx
      · dsimp only
        omega
      · exact hs.reads x hx
    · dsimp only
      omega
    · push_cast
      omega
    · dsimp only
      omega

omit hfile in
lemma take_good {n : ℕ} {s : Meter Arena} (h : (take file n s).2.bad = false) :
    (take file n s).2.store = s.store ∧ (take file n s).2.pos = s.pos + n := by
  rw [take] at h ⊢
  split_ifs at h ⊢
  exact ⟨rfl, rfl⟩

omit hfile in
/-- A length that was read takes four bytes at least. -/
lemma curLen_good {s : Meter Arena} (h : (curLen file v1 s).2.bad = false) :
    (curLen file v1 s).2.store = s.store ∧ s.pos + 4 ≤ (curLen file v1 s).2.pos := by
  rw [curLen] at h ⊢
  cases v1 with
  | false =>
    obtain ⟨hstore, hpos⟩ := take_good (n := 8) h
    exact ⟨hstore, by rw [if_neg Bool.false_ne_true]; exact hpos ▸ Nat.add_le_add_left (by norm_num) _⟩
  | true =>
    obtain ⟨hstore, hpos⟩ := take_good (n := 4) h
    exact ⟨hstore, hpos.ge⟩

lemma curStr_bounded : Bounded file 6 2 (curStr file v1) := by
  intro s hs
  have hlen := curLen_bounded hfile v1 s hs
  cases hbad : (curLen file v1 s).2.bad with
  | false =>
    obtain ⟨hstore, hpos⟩ := curLen_good v1 hbad
    have hused := hs.store.used_le
    exact hlen.trans (copyStr_step hfile hlen.inv (by rw [hstore]; omega) _)
  | true =>
    have hstop : (copyStr file (curLen file v1 s).1 (curLen file v1 s).2).2 =
        { (curLen file v1 s).2 with bad := true, work := (curLen file v1 s).2.work + 1 } := by
      rw [copyStr, if_pos (.inl hbad)]
    have hfail := Step.fail (r := 3) (j := -1) hlen.inv
    rw [← hstop] at hfail
    exact hlen.trans hfail

lemma skipElems_bounded {elem : Prog Unit} {k : ℕ} (h : Bounded file 1 k elem)
    (elemType n : ℕ) : Bounded file (-1) (k + 1) (skipElems file elem elemType n) := by
  rw [skipElems]
  split_ifs with hesz
  · have hnonneg : (0 : ℤ) ≤ n * scalarSize elemType := by positivity
    exact (skip_bounded hfile n (Nat.pos_of_ne_zero hesz) (by omega)).mono le_rfl (by omega)
  · exact (Costs.repeatGood (fun s hs => hs.work _) h n).mono (by norm_num) le_rfl

/-- A value, at some depth of nesting. -/
lemma skipValue_bounded (code : ℕ) {depth : ℕ} (hdepth : depth ≤ 5) :
    Bounded file 1 (4 * (5 - depth) + 3) (skipValue file v1 code depth) := by
  induction hroom : 5 - depth generalizing code depth with
  | zero =>
    rw [skipValue, dif_pos (by omega)]
    exact ((Costs.enter hdepth).bind fun _ => Costs.fail (j := 2)).mono (by norm_num) (by omega)
  | succ room ih =>
    have hdeep : ¬4 < depth := by omega
    rw [skipValue, dif_neg hdeep]
    have hbody : Bounded file 2 (4 * room + 6)
        (if scalarSize code ≠ 0 then skip file 1 (scalarSize code)
        else
          match valueType code with
          | some .string => do
              let len ← curLen file v1
              skip file len 1
          | some .array => do
              let elemType ← curU32 file
              let n ← curLen file v1
              skipElems file (skipValue file v1 elemType (depth + 1)) elemType n
          | _ => fail) := by
      split_ifs with hsz
      · have hone : (1 : ℤ) ≤ scalarSize code := by omega
        exact (skip_bounded hfile 1 (Nat.pos_of_ne_zero hsz) (by push_cast; omega)).mono le_rfl
          (by omega)
      · split
        · exact ((curLen_bounded hfile v1).bind fun len =>
            skip_bounded hfile len one_pos (j := -1) (by push_cast; omega)).mono (by norm_num)
            (by omega)
        · exact ((curU32_bounded hfile).bind fun elemType =>
            (curLen_bounded hfile v1).bind fun n =>
              skipElems_bounded hfile (@ih elemType (depth + 1) (by omega) (by omega))
                elemType n).mono (by norm_num) (by omega)
        · exact Costs.fail.mono le_rfl (by omega)
    exact ((Costs.enter hdepth).bind fun _ => hbody).mono (by norm_num) (by omega)

lemma readScalar_bounded {t : ValueType} (h : t.scalarSize ≠ 0) :
    Bounded file 1 1 (readScalar file t) :=
  (take_bounded hfile t.scalarSize (by omega)).map (scalarValue t)

lemma readValue_bounded (t : ValueType) : Bounded file 1 23 (readValue file v1 t) := by
  cases t with
  | string => exact ((curStr_bounded hfile v1).map Value.str).mono (by norm_num) (by norm_num)
  | array =>
    exact ((curU32_bounded hfile).bind fun elemType => (curLen_bounded hfile v1).bind fun n =>
      position_bounded.bind fun data =>
        (skipElems_bounded hfile (skipValue_bounded hfile v1 elemType (by norm_num))
          elemType n).bind fun _ => Costs.pure _).mono (by norm_num) (by norm_num)
  | _ => exact (readScalar_bounded hfile (by decide)).mono le_rfl (by norm_num)

lemma readKv_bounded : Bounded file 1 26 (readKv file v1) := by
  have hentry (key : List UInt8) (code : ℕ) : Bounded file 1 23 (match valueType code with
      | none => do
          fail
          pure ⟨key, .u8, .u 0⟩
      | some type => do
          let value ← readValue file v1 type
          pure (⟨key, type, value⟩ : Kv)) := by
    cases valueType code with
    | none =>
      exact ((Costs.fail (j := 1)).bind fun _ => Costs.pure _).mono (by norm_num) (by norm_num)
    | some type => exact (readValue_bounded hfile v1 type).bind fun value => Costs.pure _
  exact ((curStr_bounded hfile v1).bind fun key => (curU32_bounded hfile).bind fun code =>
    hentry key code).mono (by norm_num) le_rfl

lemma readDims_bounded (n : ℕ) : Bounded file 0 (n + 1) (readDims file v1 n) := by
  induction n with
  | zero => exact (Costs.pure []).mono le_rfl (by norm_num)
  | succ n ih =>
    have hrest (ne : ℕ) : Bounded file 0 (n + 1) (if 2 ^ 40 < ne then do
        fail
        pure []
      else do
        let dims ← readDims file v1 n
        pure ((ne : ℤ) :: dims)) := by
      split_ifs
      · exact ((Costs.fail (j := 0)).bind fun _ => Costs.pure []).mono (by norm_num) (by omega)
      · exact ih.bind fun dims => Costs.pure _
    exact ((curLen_bounded hfile v1).bind hrest).mono (by norm_num) (by omega)

lemma readTensor_bounded : Bounded file 1 10 (readTensor file v1) := by
  have hentry (name : List UInt8) (nd : ℕ) : Bounded file 1 7 (if nd < 1 ∨ 4 < nd then do
        fail
        pure ⟨name, 0, [], 0, 0, 0, none⟩
      else do
        let dims ← readDims file v1 nd
        let type ← curU32 file
        let offset ← curU64 file
        pure (⟨name, nd, dims ++ List.replicate (4 - nd) 1, type, offset, 0, none⟩ : Tensor)) := by
    split_ifs with hnd
    · exact ((Costs.fail (j := 1)).bind fun _ => Costs.pure _).mono (by norm_num) (by norm_num)
    · exact ((readDims_bounded hfile v1 nd).bind fun dims => (curU32_bounded hfile).bind fun type =>
        (curU64_bounded hfile).bind fun offset => Costs.pure _).mono (by norm_num) (by omega)
  exact ((curStr_bounded hfile v1).bind fun name => (curU32_bounded hfile).bind fun nd =>
    hentry name nd).mono (by norm_num) le_rfl

omit hfile in
/-- A loop over entries. -/
lemma entries_bounded {α : Type} {m : Prog α} {k : ℕ} (h : Bounded file 1 k m) (n : ℕ) :
    Bounded file 0 (k + 1) (collectGood n m) :=
  Costs.collectGood (fun _ hs => hs.work _) h n

lemma parseEntries_bounded (version nKv nTensors : ℕ) :
    Bounded file 0 38 (parseEntries file version nKv nTensors) := by
  have hlast (header : Header) (bad : Bool) : Bounded file 0 0
      (if bad = true then pure (Except.error Status.parse) else pure (Except.ok header)) :=
    (Costs.pure _).ite (Costs.pure _)
  have htensors (kvs : List Kv) (bad : Bool) : Bounded file 0 11 (if bad = true then
        pure (Except.error Status.parse)
      else do
        let tensors ← collectGood nTensors (readTensor file (version = 1))
        let bad ← isBad
        if bad = true then pure (Except.error Status.parse)
        else pure (Except.ok (⟨version, kvs, tensors⟩ : Header))) := by
    split_ifs
    · exact (Costs.pure _).mono le_rfl (by norm_num)
    · exact ((entries_bounded (readTensor_bounded hfile _) nTensors).bind fun tensors =>
        isBad_bounded.bind fun bad => hlast _ bad).mono le_rfl le_rfl
  exact ((entries_bounded (readKv_bounded hfile _) nKv).bind fun kvs =>
    isBad_bounded.bind fun bad => htensors kvs bad).mono (by norm_num) le_rfl

lemma parseCounts_bounded (version : ℕ) : Bounded file 0 40 (parseCounts file version) := by
  have hcounts (nTensors nKv : ℕ) (bad : Bool) : Bounded file 0 38 (if bad = true then
        pure (.error .parse)
      else do
        let left ← remaining file
        if left / 12 < nKv ∨ left / 28 < nTensors ∨ 2 ^ 20 < nTensors then pure (.error .parse)
        else parseEntries file version nKv nTensors) := by
    split_ifs
    · exact (Costs.pure _).mono le_rfl (by norm_num)
    · have hentries (left : ℕ) : Bounded file 0 38
          (if left / 12 < nKv ∨ left / 28 < nTensors ∨ 2 ^ 20 < nTensors then pure (.error .parse)
            else parseEntries file version nKv nTensors) :=
        ((Costs.pure _).mono le_rfl (by norm_num)).ite (parseEntries_bounded hfile _ _ _)
      exact (remaining_bounded.bind hentries).mono (by norm_num) le_rfl
  exact ((curLen_bounded hfile _).bind fun nTensors => (curLen_bounded hfile _).bind fun nKv =>
    isBad_bounded.bind fun bad => hcounts nTensors nKv bad).mono (by norm_num) le_rfl

lemma parseTables_bounded : Bounded file 0 42 (parseTables file) := by
  have hversion (version : ℕ) : Bounded file 0 40 (if version < 1 ∨ 3 < version then
        pure (.error .modelVersion)
      else parseCounts file version) := by
    split_ifs
    · exact (Costs.pure _).mono le_rfl (by norm_num)
    · exact parseCounts_bounded hfile version
  have hmagic (magic : ℕ) (bad : Bool) : Bounded file 0 41 (if bad = true ∨ magic ≠ ggufMagic then
        pure (.error .parse)
      else do
        let version ← curU32 file
        if version < 1 ∨ 3 < version then pure (.error .modelVersion)
        else parseCounts file version) := by
    split_ifs
    · exact (Costs.pure _).mono le_rfl (by norm_num)
    · exact ((curU32_bounded hfile).bind hversion).mono (by norm_num) le_rfl
  exact ((curU32_bounded hfile).bind fun magic => isBad_bounded.bind fun bad =>
    hmagic magic bad).mono (by norm_num) le_rfl

end

lemma start_safe (file : List UInt8) : Safe file start :=
  ⟨Nat.zero_le _, nofun, Nat.zero_le _, le_rfl, le_rfl, Nat.zero_le _, le_rfl⟩

/-- **What `parse` costs.**  Every byte range that is read lies inside of the file, calls nest no
deeper than the limit and the one call that refuses, and steps, copies and moves of the arena are
bounded by the size of the file. -/
lemma parseTables_costs (hfile : file.length < 2 ^ 64) :
    (∀ r ∈ (parseTables file start).2.reads, r.1 + r.2 ≤ file.length) ∧
      (parseTables file start).2.depth ≤ 5 ∧
      (parseTables file start).2.work ≤ 3 * file.length + 42 ∧
      (parseTables file start).2.store.moved ≤ max 65536 (2 * file.length) := by
  have hstep := parseTables_bounded hfile start (start_safe file)
  have hpos := hstep.inv.pos_le
  have hwork := hstep.bounded
  have hpaid := hstep.inv.store
  refine ⟨hstep.inv.reads, hstep.inv.depth_le, ?_, ?_⟩
  · change _ + 3 * 0 ≤ 0 + _ + 42 at hwork
    omega
  · calc (parseTables file start).2.store.moved ≤ (parseTables file start).2.store.cap :=
          hpaid.moved_le
      _ ≤ max firstCap (2 * (parseTables file start).2.store.used) := hpaid.cap_le
      _ ≤ max 65536 (2 * file.length) :=
          max_le_max le_rfl (Nat.mul_le_mul_left 2 (hpaid.used_le.trans hpos))

/-! ### What the programs answer -/

/-- The program does what the reader does, which fails as a file that does not parse. -/
abbrev Does (file : List UInt8) {α : Type} (m : Prog α) (p : Read α) : Prop :=
  Follows file Status.parse m p

lemma does_fail {α : Type} (a : α) :
    Does file (fail >>= fun _ => pure a) (Reader.fail .parse : Read α) :=
  Follows.fail fun _ hs => hs

lemma does_position : Does file position Reader.position :=
  ⟨fun _ hs => hs, fun _ hs hpos => ⟨rfl, hs, rfl, hpos⟩⟩

section

variable (hfile : file.length < 2 ^ 64) (v1 : Bool)

include hfile

lemma does_take (n : ℕ) : Does file (take file n) (curTake n) := Follows.take hfile n

lemma does_curU32 : Does file (curU32 file) Gguf.curU32 := (does_take hfile 4).map ofLe

lemma does_curU64 : Does file (curU64 file) Gguf.curU64 := (does_take hfile 8).map ofLe

lemma does_curLen : Does file (curLen file v1) (Gguf.curLen v1) :=
  (does_curU32 hfile).ite (does_curU64 hfile)

lemma does_copyStr (len : ℕ) :
    Does file (copyStr file len) (curTake len >>= fun bytes => pure (cString bytes)) := by
  have hsim := (does_take hfile len).map cString
  refine ⟨fun s hs => ?_, fun s hs hpos => ?_⟩
  · rw [copyStr, if_pos (.inl hs)]
  · have htake := hsim.sim s hs hpos
    have hcopy : (copyStr file len s).1 = ((cString <$> take file len : Prog (List UInt8)) s).1 ∧
        (copyStr file len s).2.bad = ((cString <$> take file len : Prog (List UInt8)) s).2.bad ∧
        (copyStr file len s).2.pos = ((cString <$> take file len : Prog (List UInt8)) s).2.pos := by
      change _ = cString (take file len s).1 ∧ _ = (take file len s).2.bad ∧
        _ = (take file len s).2.pos
      rw [copyStr, take]
      split_ifs <;> exact ⟨rfl, rfl, rfl⟩
    rw [← hcopy.1, ← hcopy.2.1, ← hcopy.2.2] at htake
    exact htake

lemma does_curStr : Does file (curStr file v1) (Gguf.curStr v1) := by
  have h := (does_curLen hfile v1).bind (does_copyStr hfile)
  rw [← bind_assoc] at h
  exact h

lemma does_skipElems {elem : Prog Unit} {skip : ℕ → Read Unit} {elemType : ℕ}
    (h : Does file elem (skip elemType)) (n : ℕ) :
    Does file (skipElems file elem elemType n) (Gguf.skipElems skip elemType n) := by
  rw [skipElems, Gguf.skipElems]
  by_cases hesz : scalarSize elemType ≠ 0
  · rw [if_pos hesz, if_pos hesz]
    exact (Follows.skip hfile n (Nat.pos_of_ne_zero hesz)).2
  · rw [if_neg hesz, if_neg hesz]
    exact h.repeatGood n

omit hfile in
lemma scalarSize_of_eq {code : ℕ} {t : ValueType} (h : valueType code = some t) :
    scalarSize code = t.scalarSize := by
  rw [scalarSize, h]
  rfl

lemma does_skipValue (code : ℕ) {depth : ℕ} (hdepth : depth ≤ 5) :
    Does file (skipValue file v1 code depth) (Gguf.skipValue v1 (5 - depth) code) := by
  induction hroom : 5 - depth generalizing code depth with
  | zero =>
    rw [skipValue, dif_pos (by omega)]
    exact Follows.silent (fun _ => ⟨rfl, rfl⟩) (does_fail ())
  | succ room ih =>
    rw [skipValue, dif_neg (by omega), Gguf.skipValue]
    refine Follows.silent (fun _ => ⟨rfl, rfl⟩) ?_
    cases hcode : valueType code with
    | none =>
      have hsize : scalarSize code = 0 := by rw [scalarSize, hcode]; rfl
      rw [if_neg (not_not.mpr hsize)]
      exact does_fail ()
    | some t =>
      have hsize := scalarSize_of_eq hcode
      by_cases hscalar : t.scalarSize ≠ 0
      · rw [if_pos (hsize ▸ hscalar), hsize]
        have hskip := (Follows.skip hfile (e := Status.parse) (σ := Arena) 1
          (Nat.pos_of_ne_zero hscalar)).1
        rw [Nat.one_mul] at hskip
        cases t <;> first | exact hskip | exact absurd rfl hscalar
      · rw [if_neg (hsize ▸ hscalar)]
        cases t with
        | string =>
          have hbytes := (does_curLen hfile v1).bind fun len =>
            (Follows.skip hfile (e := Status.parse) (σ := Arena) len one_pos).1
          simp only [Nat.mul_one] at hbytes
          rw [← bind_assoc] at hbytes
          exact hbytes
        | array =>
          exact (does_curU32 hfile).bind fun elemType => (does_curLen hfile v1).bind fun n =>
            does_skipElems hfile (ih elemType (by omega) (by omega)) n
        | _ => exact absurd (by decide) hscalar

lemma does_readScalar (t : ValueType) : Does file (readScalar file t) (Gguf.readScalar t) :=
  (does_take hfile t.scalarSize).map (scalarValue t)

lemma does_readValue (t : ValueType) : Does file (readValue file v1 t) (Gguf.readValue v1 t) := by
  cases t with
  | string => exact (does_curStr hfile v1).map Value.str
  | array =>
    exact (does_curU32 hfile).bind fun elemType => (does_curLen hfile v1).bind fun n =>
      does_position.bind fun data =>
        (does_skipElems hfile (does_skipValue hfile v1 elemType (by norm_num)) n).bind fun _ =>
          Follows.pure _
  | _ => exact does_readScalar hfile _

lemma does_readKv : Does file (readKv file v1) (Gguf.readKv v1) := by
  refine (does_curStr hfile v1).bind fun key => (does_curU32 hfile).bind fun code => ?_
  cases valueType code with
  | none => exact does_fail _
  | some type => exact (does_readValue hfile v1 type).bind fun value => Follows.pure _

lemma does_readDims (n : ℕ) :
    Does file (readDims file v1 n) (Reader.many n (Gguf.readDim v1)) := by
  induction n with
  | zero => exact Follows.pure []
  | succ n ih =>
    have hround (ne : ℕ) : Does file (if 2 ^ 40 < ne then do
          fail
          pure []
        else do
          let dims ← readDims file v1 n
          pure ((ne : ℤ) :: dims))
        ((if 2 ^ 40 < ne then Reader.fail .parse else pure (ne : ℤ)) >>= fun d =>
          Reader.many n (Gguf.readDim v1) >>= fun ds => pure (d :: ds)) := by
      split_ifs
      · exact does_fail []
      · exact ih.bind fun dims => Follows.pure _
    have h := (does_curLen hfile v1).bind hround
    rw [← bind_assoc] at h
    exact h

lemma does_readTensor : Does file (readTensor file v1) (Gguf.readTensor v1) := by
  refine (does_curStr hfile v1).bind fun name => (does_curU32 hfile).bind fun nd => ?_
  split_ifs
  · exact does_fail _
  · exact (does_readDims hfile v1 nd).bind fun dims => (does_curU32 hfile).bind fun type =>
      (does_curU64 hfile).bind fun offset => Follows.pure _

end

/-- The program answers what the reader answers, and ends where it ends. -/
def Answers (file : List UInt8) {α : Type} (m : Prog (Except Status α)) (p : Read α) : Prop :=
  ∀ s, s.bad = false → s.pos ≤ file.length →
    match p.run ⟨s.pos, file.drop s.pos⟩ with
    | .ok (a, c) => (m s).1 = .ok a ∧ (m s).2.pos = c.pos
    | .error e => (m s).1 = .error e

/-- A step whose failure is found out later on. -/
lemma Answers.bind {α γ : Type} {m : Prog γ} {f : γ → Prog (Except Status α)} {p : Read γ}
    {g : γ → Read α} (hm : Does file m p)
    (hbad : ∀ a s, s.bad = true → (f a s).1 = .error .parse) (hf : ∀ a, Answers file (f a) (g a)) :
    Answers file (m >>= f) (p >>= g) := by
  intro s hs hpos
  have hsim := hm.sim s hs hpos
  cases hp : p.run ⟨s.pos, file.drop s.pos⟩ with
  | error e =>
    rw [hp] at hsim
    rw [StateT.run_bind, hp, hsim.1]
    exact hbad _ _ hsim.2
  | ok r =>
    obtain ⟨a, c⟩ := r
    rw [hp] at hsim
    obtain ⟨rfl, hgood, rfl, hle⟩ := hsim
    rw [Reader.run_bind_of_ok hp]
    exact hf _ _ hgood hle

lemma Answers.ok {α : Type} (a : α) : Answers file (pure (.ok a)) (pure a) :=
  fun _ _ _ => ⟨rfl, rfl⟩

lemma Answers.error {α : Type} (e : Status) :
    Answers file (pure (.error e) : Prog (Except Status α)) (Reader.fail e) := fun _ _ _ => rfl

/-- The look at the flag. -/
lemma Answers.isBad {α : Type} {m : Prog (Except Status α)} {p : Read α} (h : Answers file m p) :
    Answers file (isBad >>= fun bad => if bad = true then pure (.error .parse) else m) p := by
  intro s hs hpos
  have heq : (Mapped.isBad >>= fun bad => if bad = true then pure (.error .parse) else m) s =
      m s := by
    change (if s.bad = true then pure (.error .parse) else m) s = m s
    rw [if_neg (by rw [hs]; exact Bool.false_ne_true)]
  rw [heq]
  exact h s hs hpos

/-- What is behind the look at the flag, where it is set. -/
lemma isBad_error {α : Type} (m : Prog (Except Status α)) {s : Meter Arena} (h : s.bad = true) :
    ((isBad >>= fun bad => if bad = true then pure (.error .parse) else m) s).1 =
      .error .parse := by
  change ((if s.bad = true then pure (.error .parse) else m) s).1 = _
  rw [if_pos h]
  rfl

section

variable (hfile : file.length < 2 ^ 64)

include hfile

lemma answers_parseEntries (version nKv nTensors : ℕ) :
    Answers file (parseEntries file version nKv nTensors) (do
      let kvs ← Reader.many nKv (Gguf.readKv (version = 1))
      let tensors ← Reader.many nTensors (Gguf.readTensor (version = 1))
      pure ⟨version, kvs, tensors⟩) :=
  Answers.bind ((does_readKv hfile _).collectGood nKv) (fun _ _ hs => isBad_error _ hs) fun _ =>
    Answers.isBad (Answers.bind ((does_readTensor hfile _).collectGood nTensors)
      (fun _ _ hs => isBad_error _ hs) fun _ => Answers.isBad (Answers.ok _))

lemma answers_parseCounts (version : ℕ) :
    Answers file (parseCounts file version) (do
      let nTensors ← Gguf.curLen (version = 1)
      let nKv ← Gguf.curLen (version = 1)
      Reader.guardRest .parse fun left =>
        nKv ≤ left / 12 ∧ nTensors ≤ left / 28 ∧ nTensors ≤ 2 ^ 20
      let kvs ← Reader.many nKv (Gguf.readKv (version = 1))
      let tensors ← Reader.many nTensors (Gguf.readTensor (version = 1))
      pure ⟨version, kvs, tensors⟩) := by
  have hlen := does_curLen hfile (decide (version = 1))
  refine Answers.bind hlen (fun _ s hs => isBad_error _ (hlen.sticky s hs)) fun nTensors =>
    Answers.bind hlen (fun _ _ hs => isBad_error _ hs) fun nKv => Answers.isBad ?_
  intro s hs hpos
  have hentries := answers_parseEntries hfile version nKv nTensors s hs hpos
  have hleft : left file s = (file.drop s.pos).length := by
    rw [left_eq hpos hfile, List.length_drop]
  have hguard : (Reader.guardRest .parse fun left =>
      nKv ≤ left / 12 ∧ nTensors ≤ left / 28 ∧ nTensors ≤ 2 ^ 20 : Read Unit).run
        ⟨s.pos, file.drop s.pos⟩ =
      if decide (nKv ≤ left file s / 12 ∧ nTensors ≤ left file s / 28 ∧ nTensors ≤ 2 ^ 20) = true
        then .ok ((), ⟨s.pos, file.drop s.pos⟩) else .error .parse := by
    rw [hleft]
    rfl
  rw [StateT.run_bind, hguard]
  by_cases hfits : nKv ≤ left file s / 12 ∧ nTensors ≤ left file s / 28 ∧ nTensors ≤ 2 ^ 20
  · have hgo : (remaining file >>= fun left =>
        if left / 12 < nKv ∨ left / 28 < nTensors ∨ 2 ^ 20 < nTensors then pure (.error .parse)
        else parseEntries file version nKv nTensors) s =
          parseEntries file version nKv nTensors s := by
      change (if left file s / 12 < nKv ∨ left file s / 28 < nTensors ∨ 2 ^ 20 < nTensors then
        pure (.error .parse) else parseEntries file version nKv nTensors) s = _
      rw [if_neg (by omega)]
    rw [if_pos (decide_eq_true hfits), hgo]
    exact hentries
  · have hstop : ((remaining file >>= fun left =>
        if left / 12 < nKv ∨ left / 28 < nTensors ∨ 2 ^ 20 < nTensors then pure (.error .parse)
        else parseEntries file version nKv nTensors) s).1 = .error .parse := by
      change ((if left file s / 12 < nKv ∨ left file s / 28 < nTensors ∨ 2 ^ 20 < nTensors then
        pure (.error .parse) else parseEntries file version nKv nTensors) s).1 = _
      rw [if_pos (by omega)]
      rfl
    rw [if_neg (by simpa using hfits)]
    exact hstop

omit hfile in
/-- A version that is cut off reads as `0`. -/
lemma curU32_bad {s : Meter Arena} (h : (curU32 file s).2.bad = true) (hs : s.bad = false) :
    (curU32 file s).1 = 0 := by
  change (take file 4 s).2.bad = true at h
  change ofLe (take file 4 s).1 = 0
  rw [take] at h ⊢
  split_ifs at h ⊢
  · rfl
  · rw [hs] at h
    cases h

lemma answers_version {α : Type} {m : ℕ → Prog (Except Status α)} {p : ℕ → Read α}
    (h : ∀ version, Answers file (m version) (p version)) :
    Answers file (curU32 file >>= fun version =>
        if version < 1 ∨ 3 < version then pure (.error .modelVersion) else m version)
      (Reader.orFail .modelVersion Gguf.curU32 >>= fun version =>
        if version < 1 ∨ 3 < version then Reader.fail .modelVersion else p version) := by
  intro s hs hpos
  have hsim := (does_curU32 hfile).sim s hs hpos
  obtain ⟨hok, herror⟩ := Reader.run_orFail Status.modelVersion Gguf.curU32
    ⟨s.pos, file.drop s.pos⟩
  rw [StateT.run_bind]
  cases hp : Gguf.curU32.run ⟨s.pos, file.drop s.pos⟩ with
  | error e =>
    rw [hp] at hsim
    have hzero := curU32_bad hsim.2 hs
    rw [herror e hp]
    change ((if (curU32 file s).1 < 1 ∨ 3 < (curU32 file s).1 then pure (.error .modelVersion)
      else m (curU32 file s).1) (curU32 file s).2).1 = .error .modelVersion
    rw [hzero, if_pos (.inl one_pos)]
    rfl
  | ok r =>
    obtain ⟨version, c⟩ := r
    rw [hp] at hsim
    obtain ⟨rfl, hgood, rfl, hle⟩ := hsim
    have hrest : Answers file
        (if (curU32 file s).1 < 1 ∨ 3 < (curU32 file s).1 then pure (.error .modelVersion)
          else m (curU32 file s).1)
        (if (curU32 file s).1 < 1 ∨ 3 < (curU32 file s).1 then Reader.fail .modelVersion
          else p (curU32 file s).1) := by
      split_ifs
      · exact Answers.error _
      · exact h _
    rw [hok _ hp]
    exact hrest _ hgood hle

/-- **The tables are read as the reader reads them.** -/
lemma parseTables_follows : Answers file (parseTables file) readHeader := by
  refine Answers.bind (does_curU32 hfile) (fun magic s hs => ?_) fun magic => ?_
  · change ((if s.bad = true ∨ magic ≠ ggufMagic then pure (.error .parse) else _ :
      Prog (Except Status Header)) s).1 = _
    rw [if_pos (.inl hs)]
    rfl
  · intro s hs hpos
    have hversion := answers_version hfile (answers_parseCounts hfile) s hs hpos
    by_cases hmagic : magic ≠ ggufMagic
    · rw [if_pos hmagic]
      change ((if s.bad = true ∨ magic ≠ ggufMagic then pure (.error .parse) else _ :
        Prog (Except Status Header)) s).1 = _
      rw [if_pos (.inr hmagic)]
      rfl
    · have hgo : (isBad >>= fun bad => if bad = true ∨ magic ≠ ggufMagic then
            pure (.error .parse)
          else curU32 file >>= fun version =>
            if version < 1 ∨ 3 < version then pure (.error .modelVersion)
            else parseCounts file version) s =
          (curU32 file >>= fun version =>
            if version < 1 ∨ 3 < version then pure (.error .modelVersion)
            else parseCounts file version) s := by
        change (if s.bad = true ∨ magic ≠ ggufMagic then pure (.error .parse) else _ :
          Prog (Except Status Header)) s = _
        rw [if_neg (not_or.mpr ⟨by rw [hs]; exact Bool.false_ne_true, hmagic⟩)]
      rw [if_neg hmagic, hgo]
      exact hversion

end

/-! ### The strings of an array -/

/-- What `vv_gguf_arr_str` reads at `p` for element `idx`: the length in front of every string it
passes, and the string it hands out. -/
def arrStrReads (file : List UInt8) : ℕ → ℕ → List (ℕ × ℕ)
  | 0, p => [(p, 8), (p + 8, ofLe ((file.drop p).take 8))]
  | idx + 1, p =>
    (p, 8) :: arrStrReads file idx ((p + (8 + ofLe ((file.drop p).take 8))) % 2 ^ 64)

/-- A reader that succeeds stays on the file. -/
lemma Does.stays {α : Type} {m : Prog α} {p : Read α} (h : Does file m p) {pos : ℕ}
    (hpos : pos ≤ file.length) {a : α} {c : Cursor UInt8}
    (hp : p.run ⟨pos, file.drop pos⟩ = .ok (a, c)) :
    c = ⟨c.pos, file.drop c.pos⟩ ∧ c.pos ≤ file.length := by
  have hsim := h.sim { start with pos := pos } rfl hpos
  have hrun : p.run ⟨({ start with pos := pos } : Meter Arena).pos,
      file.drop ({ start with pos := pos } : Meter Arena).pos⟩ = .ok (a, c) := hp
  rw [hrun] at hsim
  obtain ⟨-, -, rfl, hle⟩ := hsim
  exact ⟨rfl, hle⟩

/-- Every answer of a loop is one its reader gave somewhere on the file. -/
lemma Does.mem_many {α : Type} {m : Prog α} {p : Read α} (h : Does file m p) {n pos : ℕ}
    (hpos : pos ≤ file.length) {as : List α} {c : Cursor UInt8}
    (hp : (Reader.many n p).run ⟨pos, file.drop pos⟩ = .ok (as, c)) {a : α} (ha : a ∈ as) :
    ∃ pos' ≤ file.length, ∃ c', p.run ⟨pos', file.drop pos'⟩ = .ok (a, c') := by
  induction n generalizing pos as with
  | zero =>
    cases hp
    cases ha
  | succ n ih =>
    obtain ⟨b, c₁, hb, hrest⟩ := Reader.bind_eq_ok.mp hp
    obtain ⟨bs, c₂, hbs, hend⟩ := Reader.bind_eq_ok.mp hrest
    cases hend
    rcases List.mem_cons.mp ha with rfl | ha
    · exact ⟨pos, hpos, c₁, hb⟩
    · obtain ⟨hc₁, hle⟩ := h.stays hpos hb
      rw [hc₁] at hbs
      exact ih hle hbs ha

/-- A string of an array, with its length of 64 bits. -/
lemma skip_string {p depth : ℕ} {c : Cursor UInt8}
    (h : (Gguf.skipValue false (depth + 1) ValueType.string.code).run ⟨p, file.drop p⟩ =
      .ok ((), c)) :
    8 ≤ (file.drop p).length ∧ ofLe ((file.drop p).take 8) ≤ (file.drop (p + 8)).length ∧
      c = ⟨p + (8 + ofLe ((file.drop p).take 8)),
        file.drop (p + (8 + ofLe ((file.drop p).take 8)))⟩ := by
  have hskip : Gguf.skipValue false (depth + 1) ValueType.string.code =
      (Gguf.curBytes false >>= fun _ => pure ()) := rfl
  rw [hskip] at h
  obtain ⟨bytes, c₁, hbytes, hend⟩ := Reader.bind_eq_ok.mp h
  cases hend
  obtain ⟨len, c₂, hlen, hstring⟩ := Reader.bind_eq_ok.mp hbytes
  obtain ⟨raw, c₃, hraw, hvalue⟩ :=
    (Reader.bind_eq_ok (p := curTake 8) (f := fun raw => pure (ofLe raw))).mp hlen
  cases hvalue
  obtain ⟨hroom, rfl, rfl⟩ := Reader.run_take hraw
  obtain ⟨hfits, -, rfl⟩ := Reader.run_take hstring
  rw [List.drop_drop] at hfits ⊢
  refine ⟨hroom, hfits, ?_⟩
  dsimp only
  rw [List.drop_drop, Nat.add_assoc]

/-- The file has `n` strings from `p` on, each behind its length of 64 bits. -/
def Strings (file : List UInt8) : ℕ → ℕ → Prop
  | 0, _ => True
  | n + 1, p => p + 8 + ofLe ((file.drop p).take 8) ≤ file.length ∧
      Strings file n (p + 8 + ofLe ((file.drop p).take 8))

/-- Strings that were skipped are there. -/
lemma strings_of_skip {depth n p : ℕ} {c : Cursor UInt8}
    (h : (Reader.skipMany n (Gguf.skipValue false (depth + 1) ValueType.string.code)).run
      ⟨p, file.drop p⟩ = .ok ((), c)) : Strings file n p := by
  induction n generalizing p with
  | zero => trivial
  | succ n ih =>
    obtain ⟨u, c₁, hstring, hrest⟩ := Reader.bind_eq_ok.mp h
    obtain ⟨hroom, hfits, rfl⟩ := skip_string hstring
    rw [List.length_drop] at hroom hfits
    rw [← Nat.add_assoc] at hrest
    exact ⟨by omega, ih hrest⟩

/-- The walk over an array stays inside of the file exactly where the file has its strings. -/
lemma arrStrReads_inside_iff (hfile : file.length < 2 ^ 64) {n p : ℕ} :
    (∀ idx < n, ∀ r ∈ arrStrReads file idx p, r.1 + r.2 ≤ file.length) ↔ Strings file n p := by
  induction n generalizing p with
  | zero => exact ⟨fun _ => trivial, fun _ idx hidx => absurd hidx (Nat.not_lt_zero idx)⟩
  | succ n ih =>
    have hnext (hle : p + 8 + ofLe ((file.drop p).take 8) ≤ file.length) :
        (p + (8 + ofLe ((file.drop p).take 8))) % 2 ^ 64 =
          p + 8 + ofLe ((file.drop p).take 8) := by
      rw [← Nat.add_assoc, Nat.mod_eq_of_lt (by omega)]
    constructor
    · intro h
      have hle := h 0 n.succ_pos _ (List.mem_cons_of_mem _ List.mem_cons_self)
      refine ⟨hle, ih.mp fun idx hidx r hr => h (idx + 1) (Nat.succ_lt_succ hidx) r ?_⟩
      rw [arrStrReads, hnext hle]
      exact List.mem_cons_of_mem _ hr
    · rintro ⟨hle, hrest⟩ idx hidx r hr
      cases idx with
      | zero =>
        rcases List.mem_cons.mp hr with rfl | hr
        · dsimp only
          omega
        · obtain rfl := List.mem_singleton.mp hr
          exact hle
      | succ idx =>
        rw [arrStrReads, hnext hle] at hr
        rcases List.mem_cons.mp hr with rfl | hr
        · dsimp only
          omega
        · exact ih.mpr hrest idx (Nat.lt_of_succ_lt_succ hidx) r hr

/-- The array of strings of a key was skipped where it starts. -/
lemma readKv_strings {pos n data : ℕ} {kv : Kv} {c : Cursor UInt8} {v1 : Bool}
    (hfile : file.length < 2 ^ 64) (hpos : pos ≤ file.length)
    (h : (Gguf.readKv v1).run ⟨pos, file.drop pos⟩ = .ok (kv, c))
    (hvalue : kv.value = .arr ValueType.string.code n data) :
    data ≤ file.length ∧ ∃ c', (Reader.skipMany n
      (Gguf.skipValue v1 4 ValueType.string.code)).run ⟨data, file.drop data⟩ = .ok ((), c') := by
  obtain ⟨key, c₁, hkey, hrest⟩ := Reader.bind_eq_ok.mp h
  obtain ⟨hc₁, hle₁⟩ := (does_curStr hfile v1).stays hpos hkey
  rw [hc₁] at hrest
  obtain ⟨code, c₂, hcode, hentry⟩ := Reader.bind_eq_ok.mp hrest
  obtain ⟨hc₂, hle₂⟩ := (does_curU32 hfile).stays hle₁ hcode
  rw [hc₂] at hentry
  cases htype : valueType code with
  | none => rw [htype] at hentry; cases hentry
  | some type =>
    rw [htype] at hentry
    obtain ⟨value, c₃, hread, hend⟩ := Reader.bind_eq_ok.mp hentry
    cases hend
    change value = _ at hvalue
    subst hvalue
    cases type with
    | array =>
      obtain ⟨elemType, c₄, helem, hread⟩ := Reader.bind_eq_ok.mp hread
      obtain ⟨hc₄, hle₄⟩ := (does_curU32 hfile).stays hle₂ helem
      rw [hc₄] at hread
      obtain ⟨n', c₅, hn, hread⟩ := Reader.bind_eq_ok.mp hread
      obtain ⟨hc₅, hle₅⟩ := (does_curLen hfile v1).stays hle₄ hn
      rw [hc₅] at hread
      obtain ⟨data', c₆, hdata, hread⟩ := Reader.bind_eq_ok.mp hread
      cases hdata
      obtain ⟨u, c₇, helems, hend⟩ := Reader.bind_eq_ok.mp hread
      cases hend
      exact ⟨hle₅, _, helems⟩
    | string =>
      obtain ⟨raw, c₄, -, hstr⟩ :=
        (Reader.bind_eq_ok (p := Gguf.curStr v1) (f := fun raw => pure (Value.str raw))).mp
          hread
      cases hstr
    | _ =>
      obtain ⟨raw, c₄, -, hscalar⟩ :=
        (Reader.bind_eq_ok (p := curTake _) (f := fun raw => pure (scalarValue _ raw))).mp hread
      cases hscalar

/-- A version that was read. -/
lemma orFail_stays (hfile : file.length < 2 ^ 64) {pos version : ℕ} (hpos : pos ≤ file.length)
    {c : Cursor UInt8}
    (h : (Reader.orFail .modelVersion Gguf.curU32).run ⟨pos, file.drop pos⟩ = .ok (version, c)) :
    c = ⟨c.pos, file.drop c.pos⟩ ∧ c.pos ≤ file.length := by
  obtain ⟨hok, herror⟩ := Reader.run_orFail Status.modelVersion Gguf.curU32 ⟨pos, file.drop pos⟩
  cases hp : Gguf.curU32.run ⟨pos, file.drop pos⟩ with
  | error e =>
    rw [herror e hp] at h
    cases h
  | ok r =>
    rw [hok r hp] at h
    cases h
    exact (does_curU32 hfile).stays hpos hp

/-- Every key of a header was read somewhere on the file. -/
lemma header_kv (hfile : file.length < 2 ^ 64) {g : Header} {c : Cursor UInt8}
    (h : readHeader.run ⟨0, file⟩ = .ok (g, c)) {kv : Kv} (hkv : kv ∈ g.kvs) :
    ∃ pos ≤ file.length, ∃ c',
      (Gguf.readKv (decide (g.version = 1))).run ⟨pos, file.drop pos⟩ = .ok (kv, c') := by
  obtain ⟨magic, c₁, hmagic, h⟩ := Reader.bind_eq_ok.mp h
  obtain ⟨hc₁, hle₁⟩ := (does_curU32 hfile).stays (Nat.zero_le _) hmagic
  split_ifs at h
  · cases h
  rw [hc₁] at h
  obtain ⟨version, c₂, hversion, h⟩ := Reader.bind_eq_ok.mp h
  obtain ⟨hc₂, hle₂⟩ := orFail_stays hfile hle₁ hversion
  split_ifs at h
  · cases h
  rw [hc₂] at h
  obtain ⟨nTensors, c₃, hnTensors, h⟩ := Reader.bind_eq_ok.mp h
  obtain ⟨hc₃, hle₃⟩ := (does_curLen hfile _).stays hle₂ hnTensors
  rw [hc₃] at h
  obtain ⟨nKv, c₄, hnKv, h⟩ := Reader.bind_eq_ok.mp h
  obtain ⟨hc₄, hle₄⟩ := (does_curLen hfile _).stays hle₃ hnKv
  rw [hc₄] at h
  obtain ⟨u, c₅, hguard, h⟩ := Reader.bind_eq_ok.mp h
  have hc₅ : c₅ = ⟨c₄.pos, file.drop c₄.pos⟩ := by
    change (if _ then Except.ok ((), _) else Except.error _) = Except.ok (u, c₅) at hguard
    split_ifs at hguard
    cases hguard
    rfl
  rw [hc₅] at h
  obtain ⟨kvs, c₆, hkvs, h⟩ := Reader.bind_eq_ok.mp h
  obtain ⟨tensors, c₇, htensors, hend⟩ := Reader.bind_eq_ok.mp h
  cases hend
  exact (does_readKv hfile _).mem_many hle₄ hkvs hkv

/-- **Parsing stays inside of the mapping, and so do the later walks over strings.**  `parse` reads
inside of the file only, nests no deeper than the limit and the one call that refuses, does no more
work than the file has bytes to pay for, and answers what the reader of the tables answers.  In a
file with lengths of 64 bits that opens, `vv_gguf_arr_str` reads inside of the file, and the string
it hands out lies there too. -/
theorem reads_inside (file : List UInt8) (hfile : file.length < 2 ^ 64) :
    ((∀ r ∈ (parseTables file start).2.reads, r.1 + r.2 ≤ file.length) ∧
        (parseTables file start).2.depth ≤ 5 ∧
        (parseTables file start).2.work ≤ 3 * file.length + 42 ∧
        (parseTables file start).2.store.moved ≤ max 65536 (2 * file.length)) ∧
      Answers file (parseTables file) readHeader ∧
      ∀ h, parse file = .ok h → h.version ≠ 1 → ∀ kv ∈ h.kvs, ∀ n data,
        kv.value = .arr ValueType.string.code n data → ∀ idx < n,
          ∀ r ∈ arrStrReads file idx data, r.1 + r.2 ≤ file.length := by
  refine ⟨parseTables_costs hfile, parseTables_follows hfile, ?_⟩
  intro h hparse hversion kv hkv n data hvalue idx hidx
  obtain ⟨g, pos, hopen⟩ := parse_spec hparse
  obtain ⟨rest, hheader⟩ := hopen.header
  rw [hopen.kvs] at hkv
  obtain ⟨pos', hpos', c', hread⟩ := header_kv hfile hheader hkv
  rw [decide_eq_false (hopen.version ▸ hversion)] at hread
  obtain ⟨hdata, c'', hskip⟩ := readKv_strings hfile hpos' hread hvalue
  exact (arrStrReads_inside_iff hfile).mpr (strings_of_skip hskip) idx hidx

/-- What is read of a file, by `parse` and by the walks over the arrays of strings behind it, lies
inside of it, and `parse` ends after work that the bytes pay for. -/
structure Inside (file : List UInt8) : Prop where
  reads : ∀ r ∈ (parseTables file start).2.reads, r.1 + r.2 ≤ file.length
  depth : (parseTables file start).2.depth ≤ 5
  work : (parseTables file start).2.work ≤ 3 * file.length + 42
  moved : (parseTables file start).2.store.moved ≤ max 65536 (2 * file.length)
  answers : Answers file (parseTables file) readHeader
  walks : ∀ h, parse file = .ok h → ∀ kv ∈ h.kvs, ∀ n data,
    kv.value = .arr ValueType.string.code n data → ∀ idx < n,
      ∀ r ∈ arrStrReads file idx data, r.1 + r.2 ≤ file.length

/-- **Which files are only read inside**: those of the versions with lengths of 64 bits, and of the
first version those whose arrays of strings also hold their strings if lengths had 64 bits. -/
theorem inside_iff (file : List UInt8) (hfile : file.length < 2 ^ 64) :
    Inside file ↔ ∀ h, parse file = .ok h → h.version = 1 → ∀ kv ∈ h.kvs, ∀ n data,
      kv.value = .arr ValueType.string.code n data → Strings file n data := by
  obtain ⟨⟨hreads, hdepth, hwork, hmoved⟩, hanswers, hwalks⟩ := reads_inside file hfile
  constructor
  · intro hinside h hparse _ kv hkv n data hvalue
    exact (arrStrReads_inside_iff hfile).mp (hinside.walks h hparse kv hkv n data hvalue)
  · intro hstrings
    refine ⟨hreads, hdepth, hwork, hmoved, hanswers, fun h hparse kv hkv n data hvalue => ?_⟩
    by_cases hversion : h.version = 1
    · exact (arrStrReads_inside_iff hfile).mpr (hstrings h hparse hversion kv hkv n data hvalue)
    · exact hwalks h hparse hversion kv hkv n data hvalue

/-- The first version, with an array of the strings of four and of no bytes under the key `a`. -/
def shortLengths : List UInt8 :=
  [0x47, 0x47, 0x55, 0x46, 1, 0, 0, 0] ++ [0, 0, 0, 0, 1, 0, 0, 0] ++ [1, 0, 0, 0, 97] ++
    [9, 0, 0, 0] ++ [8, 0, 0, 0] ++ [2, 0, 0, 0] ++ [4, 0, 0, 0, 255, 255, 255, 255] ++
    [0, 0, 0, 0] ++ List.replicate 23 0

/-- The same array in the third version. -/
def longLengths : List UInt8 :=
  [0x47, 0x47, 0x55, 0x46, 3, 0, 0, 0] ++ [0, 0, 0, 0, 0, 0, 0, 0] ++ [1, 0, 0, 0, 0, 0, 0, 0] ++
    [1, 0, 0, 0, 0, 0, 0, 0, 97] ++ [9, 0, 0, 0] ++ [8, 0, 0, 0] ++ [2, 0, 0, 0, 0, 0, 0, 0] ++
    [4, 0, 0, 0, 0, 0, 0, 0, 255, 255, 255, 255] ++ [0, 0, 0, 0, 0, 0, 0, 0] ++
    List.replicate 27 0

/-- The third version is only read inside. -/
theorem inside_longLengths : Inside longLengths := by
  have hparse : parse longLengths = .ok ⟨⟨3, [⟨[97], .array, .arr 8 2 49⟩], []⟩, 32, 96⟩ := by
    decide +kernel
  refine (inside_iff longLengths (by decide +kernel)).mpr fun h hok hversion => ?_
  obtain rfl := Except.ok.inj (hparse.symm.trans hok)
  exact absurd hversion (by decide)

/-- In the first version the walk takes eight bytes for a length of four, and leaves the file. -/
theorem short_lengths_left :
    ¬∀ file h, parse file = .ok h → ∀ kv ∈ h.kvs, ∀ n data,
      kv.value = .arr ValueType.string.code n data → ∀ idx < n,
        ∀ r ∈ arrStrReads file idx data, r.1 + r.2 ≤ file.length := by
  intro hall
  have hparse : parse shortLengths = .ok ⟨⟨1, [⟨[97], .array, .arr 8 2 33⟩], []⟩, 32, 64⟩ := by
    decide +kernel
  have hreads := hall shortLengths _ hparse _ List.mem_cons_self 2 33 rfl 1 (by decide)
  exact absurd hreads (by decide +kernel)

end VibeVoice.Gguf.Mapped
