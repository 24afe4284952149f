import VibeVoice.Lib.Search
import VibeVoice.Lib.Strtol
import VibeVoice.Status

/-!
The device flags `--gpus` and `--gpu-memory` (`gpu_select.c`).

A C string is its bytes without the NUL. The number of visible devices is a parameter, and so are
`strtod` and the arithmetic on its values.

* `vvGpuSetParse`, `vvGpuSetCaps`: the two flags, each with the set it leaves.
* `Lists`, `Begins`: a text lists ids, or begins to; `Entries`: the entries of a list of caps.
* `gpu_flags`: which texts the flags take, and what they store.
-/

namespace VibeVoice.GpuSelect

open Strtol

/-- `VV_MAX_GPUS`. -/
def maxGpus : ℕ := 16

/-- `vv_mem_cap_t`. -/
structure Cap (F : Type) where
  bytes : ℕ
  frac : F

/-- `vv_gpu_set_t`, the first `n` of its ids. -/
structure GpuSet (F : Type) where
  ids : List ℤ
  cap : Fin maxGpus → Cap F

/-- `strtod`, which gives nothing where there is no number, and what is done with a `double`. -/
structure Doubles (D F : Type) where
  strtod : List UInt8 → Option (D × List UInt8)
  neg : D → Bool
  overHundred : D → Bool
  /-- `(float)(v / 100.0)`. -/
  percent : D → F
  /-- `(size_t)(v * mul)`. -/
  bytes : D → ℕ → ℕ
  zero : F

variable {D F : Type}

/-! ### One cap -/

/-- `toupper`. -/
def toupper (c : UInt8) : UInt8 := if 0x61 ≤ c ∧ c ≤ 0x7A then c - 0x20 else c

/-- `if (toupper(*end) == c) end++`. -/
def swallow (c : UInt8) : List UInt8 → List UInt8
  | [] => []
  | b :: p => if toupper b = c then p else b :: p

/-- The suffix of a size: its factor, and what stands behind the letter. -/
def suffix : List UInt8 → Option (ℕ × List UInt8)
  | [] => some (1, [])
  | b :: p =>
    if toupper b = 0x4B then some (2 ^ 10, p)
    else if toupper b = 0x4D then some (2 ^ 20, p)
    else if toupper b = 0x47 then some (2 ^ 30, p)
    else if toupper b = 0x54 then some (2 ^ 40, p)
    else if toupper b = 0x42 then some (1, b :: p)
    else none

/-- The end of `vv_parse_mem_cap`: blanks, and nothing behind them. -/
def closed (c : Cap F) (p : List UInt8) : Except Status (Cap F) :=
  if p.dropWhile isspace = [] then .ok c else .error .invalidArg

/-- `vv_parse_mem_cap`. -/
def vvParseMemCap (dbl : Doubles D F) (text : List UInt8) : Except Status (Cap F) :=
  match dbl.strtod (text.dropWhile isspace) with
  | none => .error .invalidArg
  | some (v, rest) =>
    if dbl.neg v then .error .invalidArg
    else
      let p := rest.dropWhile isspace
      if p.head? = some 0x25 then
        if dbl.overHundred v then .error .invalidArg else closed ⟨0, dbl.percent v⟩ p.tail
      else
        match suffix p with
        | none => .error .invalidArg
        | some (mul, p) =>
          if dbl.bytes v mul = 0 then .error .invalidArg
          else closed ⟨dbl.bytes v mul, dbl.zero⟩ (swallow 0x42 (swallow 0x49 p))

/-! ### The two flags -/

/-- The set after `memset`. -/
def cleared (dbl : Doubles D F) (ids : List ℤ) : GpuSet F := ⟨ids, fun _ => ⟨0, dbl.zero⟩⟩

/-- `*p == ',' || isspace(*p)`. -/
def isGap (c : UInt8) : Bool := c == 0x2C || isspace c

/-- The loop of `vv_gpu_set_parse`: whether it got to the end, and the ids so far. -/
def parseFrom (p : List UInt8) (ids : List ℤ) : Bool × List ℤ :=
  if p.dropWhile isGap = [] then (true, ids)
  else
    match h : strtol (p.dropWhile isGap) with
    | none => (false, ids)
    | some (v, rest) =>
      if v < 0 then (false, ids)
      else if v.bmod (2 ^ 32) ∈ ids then (false, ids)
      else if maxGpus ≤ ids.length then (false, ids)
      else
        if rest.dropWhile isspace ≠ [] ∧ (rest.dropWhile isspace).head? ≠ some 0x2C then
          (false, ids ++ [v.bmod (2 ^ 32)])
        else parseFrom (rest.dropWhile isspace) (ids ++ [v.bmod (2 ^ 32)])
termination_by p.length
decreasing_by
  have := length_lt_of_strtol h
  have := (rest.dropWhile_sublist isspace).length_le
  have := (p.dropWhile_sublist isGap).length_le
  omega

/-- `"all"`. -/
def all : List UInt8 := [0x61, 0x6C, 0x6C]

/-- `vv_gpu_set_parse` where `devDeviceCount` devices are visible. -/
def vvGpuSetParse (dbl : Doubles D F) (devDeviceCount : ℤ) (text : List UInt8) :
    Except Status Unit × GpuSet F :=
  if text = all then
    if devDeviceCount ≤ 0 then (.error .notFound, cleared dbl [])
    else
      (.ok (), cleared dbl ((List.range (min devDeviceCount maxGpus).toNat).map Int.ofNat))
  else
    let (done, ids) := parseFrom text []
    if done = false ∨ ids = [] then (.error .invalidArg, cleared dbl ids)
    else (.ok (), cleared dbl ids)

/-- The loop of `vv_gpu_set_caps` over the places of `caps` that are left. -/
def readCaps (dbl : Doubles D F) : ℕ → List UInt8 → Except Status (List (Cap F))
  | 0, _ => .ok []
  | n + 1, p =>
    if p = [] then .ok []
    else
      let item := p.takeWhile (· ≠ 0x2C)
      if item.length = 0 ∨ 64 ≤ item.length then .error .invalidArg
      else
        match vvParseMemCap dbl item with
        | .error s => .error s
        | .ok c =>
          match p.dropWhile (· ≠ 0x2C) with
          | [] => .ok [c]
          | _ :: rest => (readCaps dbl n rest).map (c :: ·)

/-- `set->n > 0 ? set->n : 1`. -/
def GpuSet.devices (set : GpuSet F) : ℕ := if 0 < set.ids.length then set.ids.length else 1

/-- The caps of the first devices. -/
def GpuSet.withCaps (set : GpuSet F) (caps : List (Cap F)) : GpuSet F :=
  { set with cap := fun i => caps.getD i (set.cap i) }

/-- `vv_gpu_set_caps`. -/
def vvGpuSetCaps (dbl : Doubles D F) (text : List UInt8) (set : GpuSet F) :
    Except Status Unit × GpuSet F :=
  match readCaps dbl maxGpus text with
  | .error s => (.error s, set)
  | .ok [] => (.error .invalidArg, set)
  | .ok [c] => (.ok (), { set with cap := fun _ => c })
  | .ok caps =>
    if caps.length ≠ set.devices then (.error .invalidArg, set)
    else (.ok (), set.withCaps caps)

/-! ### Lists of ids -/

/-- The text lists the ids: numbers with commas between them, blanks anywhere around them, and any
further commas in front of a number or at the end. -/
inductive Lists : List UInt8 → List ℕ → Prop
  | nil {s : List UInt8} (hs : ∀ c ∈ s, isGap c) : Lists s []
  | cons {s w t p : List UInt8} {v : ℕ} {vs : List ℕ} (hs : ∀ c ∈ s, isGap c) (hw : Numeral w v)
      (ht : ∀ c ∈ t, isspace c) (hp : p = [] ∨ p.head? = some 0x2C) (hvs : Lists p vs) :
      Lists (s ++ (w ++ (t ++ p))) (v :: vs)

/-- The text begins with the numbers, with what may stand around those of a list. -/
inductive Begins : List UInt8 → List ℕ → Prop
  | nil {p : List UInt8} : Begins p []
  | cons {s w t p : List UInt8} {v : ℕ} {vs : List ℕ} (hs : ∀ c ∈ s, isGap c) (hw : Numeral w v)
      (hstops : Stops (t ++ p)) (ht : ∀ c ∈ t, isspace c)
      (hp : p = [] ∨ p.head? = some 0x2C ∨ vs = []) (hvs : Begins p vs) :
      Begins (s ++ (w ++ (t ++ p))) (v :: vs)

/-- Numbers that fit an `int`, stored as typed; of others nothing is said. -/
def Stored (vs : List ℕ) (ids : List ℤ) : Prop :=
  List.Forall₂ (fun (v : ℕ) (i : ℤ) => v < 2 ^ 31 → i = v) vs ids

/-- The ids stored one after another, up to the first that is there or finds no place. -/
def fill (ids : List ℤ) : List ℕ → Bool × List ℤ
  | [] => (true, ids)
  | v :: vs => if (v : ℤ) ∈ ids ∨ maxGpus ≤ ids.length then (false, ids) else fill (ids ++ [↑v]) vs

/-- No comma and no blank is in front. -/
lemma numeral_head {w : List UInt8} {v : ℕ} (h : Numeral w v) (p : List UInt8) :
    (w ++ p).dropWhile isGap = w ++ p ∧ w ++ p ≠ [] := by
  have hdigit : ∀ c, isdigit c → isGap c = false := by
    intro c hc
    rw [isGap, not_isspace_of_isdigit hc, Bool.or_false, beq_eq_false_iff_ne]
    rintro rfl
    exact absurd hc (by decide)
  have hcons : ∀ (c : UInt8) (ds : List UInt8), isGap c = false →
      (c :: ds ++ p).dropWhile isGap = c :: ds ++ p ∧ c :: ds ++ p ≠ [] := by
    intro c ds hc
    rw [List.cons_append, List.dropWhile_cons_of_neg (by simp [hc])]
    exact ⟨rfl, List.cons_ne_nil _ _⟩
  cases h with
  | plain hne hds =>
    obtain ⟨c, ds, rfl⟩ := List.exists_cons_of_ne_nil hne
    exact hcons c ds (hdigit c (hds c List.mem_cons_self))
  | plus hne hds => exact hcons _ _ (by decide)
  | minus hne hds hzero => exact hcons _ _ (by decide)

lemma bmod_of_lt {v : ℕ} (h : v < 2 ^ 31) : (v : ℤ).bmod (2 ^ 32) = v :=
  Int.bmod_eq_of_le (by omega) (by omega)

lemma parseFrom_none {p : List UInt8} {ids : List ℤ} (hne : p.dropWhile isGap ≠ [])
    (h : strtol (p.dropWhile isGap) = none) : parseFrom p ids = (false, ids) := by
  rw [parseFrom.eq_def, if_neg hne]
  split
  · rfl
  · next hsome => rw [h] at hsome; exact absurd hsome (by simp)

/-- One round of the loop. -/
lemma parseFrom_some {p rest : List UInt8} {ids : List ℤ} {v : ℤ} (hne : p.dropWhile isGap ≠ [])
    (h : strtol (p.dropWhile isGap) = some (v, rest)) :
    parseFrom p ids =
      if v < 0 then (false, ids)
      else if v.bmod (2 ^ 32) ∈ ids then (false, ids)
      else if maxGpus ≤ ids.length then (false, ids)
      else if rest.dropWhile isspace ≠ [] ∧ (rest.dropWhile isspace).head? ≠ some 0x2C then
        (false, ids ++ [v.bmod (2 ^ 32)])
      else parseFrom (rest.dropWhile isspace) (ids ++ [v.bmod (2 ^ 32)]) := by
  rw [parseFrom.eq_def, if_neg hne]
  split
  · next hnone => rw [h] at hnone; exact absurd hnone (by simp)
  · next hsome =>
      rw [h] at hsome
      obtain ⟨rfl, rfl⟩ := Prod.mk.inj (Option.some.inj hsome)
      rfl

/-- The loop stores what is listed. -/
lemma parseFrom_of_lists {p : List UInt8} {vs : List ℕ} (h : Lists p vs)
    (hv : ∀ v ∈ vs, v < 2 ^ 31) (ids : List ℤ) : parseFrom p ids = fill ids vs := by
  induction h generalizing ids with
  | nil hs =>
    rw [parseFrom.eq_def, if_pos (List.dropWhile_eq_nil_iff.mpr hs)]
    rfl
  | @cons s w t p v vs hs hw ht hp hvs ih =>
    have hlt : v < 2 ^ 31 := hv v List.mem_cons_self
    have hhead : p.dropWhile isspace = p := by
      cases p with
      | nil => rfl
      | cons c p =>
        obtain rfl : c = 0x2C := by simpa using hp
        exact List.dropWhile_cons_of_neg (by decide)
    have hrest : (t ++ p).dropWhile isspace = p := by
      rw [List.dropWhile_append_of_pos ht, hhead]
    have hstops : Stops (t ++ p) := by
      intro c hc
      by_contra hdigit
      have hspace := not_isspace_of_isdigit (by simpa using hdigit)
      cases t with
      | nil =>
        cases p with
        | nil => exact absurd hc (by simp)
        | cons c' p =>
          obtain rfl : c' = 0x2C := by simpa using hp
          obtain rfl : 0x2C = c := by simpa using hc
          exact absurd hdigit (by decide)
      | cons c' t =>
        obtain rfl : c' = c := by simpa using hc
        rw [ht c' List.mem_cons_self] at hspace
        exact absurd hspace (by simp)
    obtain ⟨hdrop, hne⟩ := numeral_head hw (t ++ p)
    have hread := strtol_numeral hw hstops
    rw [clamp_of_lt (hlt.trans (by norm_num))] at hread
    have hfront : (s ++ (w ++ (t ++ p))).dropWhile isGap = w ++ (t ++ p) := by
      rw [List.dropWhile_append_of_pos hs, hdrop]
    rw [parseFrom_some (by rw [hfront]; exact hne) (by rw [hfront]; exact hread),
      if_neg (by omega), bmod_of_lt hlt, hrest, fill]
    by_cases hmem : (v : ℤ) ∈ ids
    · rw [if_pos hmem, if_pos (.inl hmem)]
    · rw [if_neg hmem]
      by_cases hfull : maxGpus ≤ ids.length
      · rw [if_pos hfull, if_pos (.inr hfull)]
      · rw [if_neg hfull, if_neg (not_or_intro hmem hfull),
          if_neg fun hend => hp.elim hend.1 hend.2,
          ih (fun v hmem => hv v (List.mem_cons_of_mem _ hmem))]

/-- The loop stores the numbers that the text begins with; they are all that it lists where it gets
to the end. -/
lemma parseFrom_begins (p : List UInt8) (ids : List ℤ) :
    ∃ vs new, Begins p vs ∧ Stored vs new ∧ (parseFrom p ids).2 = ids ++ new ∧
      ((parseFrom p ids).1 = true → Lists p vs) := by
  induction hn : p.length using Nat.strong_induction_on generalizing p ids with
  | _ n ih =>
    have hstop : ∀ done, parseFrom p ids = (done, ids) → (done = true → Lists p []) →
        ∃ vs new, Begins p vs ∧ Stored vs new ∧ (parseFrom p ids).2 = ids ++ new ∧
          ((parseFrom p ids).1 = true → Lists p vs) := fun done heq hlists =>
      ⟨[], [], .nil, .nil, by rw [heq, List.append_nil], by rw [heq]; exact hlists⟩
    have hgap : ∀ c ∈ p.takeWhile isGap, isGap c := fun c hc => List.mem_takeWhile_imp hc
    by_cases hnil : p.dropWhile isGap = []
    · refine hstop true ?_ fun _ => .nil (List.dropWhile_eq_nil_iff.mp hnil)
      rw [parseFrom.eq_def, if_pos hnil]
    cases hread : strtol (p.dropWhile isGap) with
    | none => exact hstop false (parseFrom_none hnil hread) (by simp)
    | some r =>
      obtain ⟨v, rest⟩ := r
      have hround : parseFrom p ids = _ := parseFrom_some hnil hread
      split_ifs at hround with hneg hmem hfull hend
      iterate 3 exact hstop false hround (by simp)
      all_goals
        obtain ⟨s, w, k, hq, hs, hw, hstops, hv⟩ := numeral_of_strtol hread (not_lt.mp hneg)
        have hstored : k < 2 ^ 31 → v.bmod (2 ^ 32) = k := fun hk => by
          rw [hv, clamp_of_lt (hk.trans (by norm_num)), bmod_of_lt hk]
        have hrest : rest.takeWhile isspace ++ rest.dropWhile isspace = rest :=
          List.takeWhile_append_dropWhile
        have hsplit : p = p.takeWhile isGap ++ s ++
            (w ++ (rest.takeWhile isspace ++ rest.dropWhile isspace)) := by
          rw [hrest, List.append_assoc, ← hq, List.takeWhile_append_dropWhile]
        have hfront : ∀ c ∈ p.takeWhile isGap ++ s, isGap c := fun c hc =>
          (List.mem_append.mp hc).elim (hgap c) fun hc => by simp [isGap, hs c hc]
        have hblank : ∀ c ∈ rest.takeWhile isspace, isspace c := fun c hc =>
          List.mem_takeWhile_imp hc
      · refine ⟨[k], [v.bmod (2 ^ 32)], ?_, .cons hstored .nil, by rw [hround], ?_⟩
        · rw [hsplit]
          exact .cons hfront hw (hrest.symm ▸ hstops) hblank (.inr (.inr rfl)) .nil
        · rw [hround]
          simp
      · have hlen : (rest.dropWhile isspace).length < n := by
          have h1 := length_lt_of_strtol hread
          have h2 := (rest.dropWhile_sublist isspace).length_le
          have h3 := (p.dropWhile_sublist isGap).length_le
          omega
        obtain ⟨vs, new, hbegins, hnew, hids, hlists⟩ :=
          ih _ hlen _ (ids ++ [v.bmod (2 ^ 32)]) rfl
        have hcomma : rest.dropWhile isspace = [] ∨
            (rest.dropWhile isspace).head? = some 0x2C := by
          rw [not_and_or, not_not, not_not] at hend
          exact hend
        refine ⟨k :: vs, v.bmod (2 ^ 32) :: new, ?_, .cons hstored hnew, ?_, ?_⟩
        · rw [hsplit]
          exact .cons hfront hw (hrest.symm ▸ hstops) hblank (hcomma.imp_right .inl) hbegins
        · rw [hround, hids, List.append_assoc]
          rfl
        · rw [hround, hsplit]
          exact fun h => .cons hfront hw hblank hcomma (hlists h)

lemma fill_eq_iff {ids : List ℤ} {vs : List ℕ} (hids : ids.Nodup) (hlen : ids.length ≤ maxGpus)
    (r : List ℤ) :
    fill ids vs = (true, r) ↔
      (ids ++ vs.map Int.ofNat).Nodup ∧ ids.length + vs.length ≤ maxGpus ∧
        r = ids ++ vs.map Int.ofNat := by
  induction vs generalizing ids with
  | nil => simp [fill, hids, hlen, eq_comm]
  | cons v vs ih =>
    have happ : ids ++ (v :: vs).map Int.ofNat = ids ++ [(v : ℤ)] ++ vs.map Int.ofNat := by simp
    rw [fill, happ]
    by_cases hmem : (v : ℤ) ∈ ids
    · rw [if_pos (.inl hmem)]
      refine ⟨fun h => absurd h (by simp), fun h => absurd h.1.of_append_left ?_⟩
      exact fun h => (List.nodup_append.mp h).2.2 _ hmem _ List.mem_cons_self rfl
    by_cases hfull : maxGpus ≤ ids.length
    · rw [if_pos (.inr hfull)]
      refine ⟨fun h => absurd h (by simp), fun h => absurd h.2.1 ?_⟩
      rw [List.length_cons]
      omega
    · rw [if_neg (not_or_intro hmem hfull), ih, List.length_append, List.length_cons,
        List.length_cons, List.length_nil]
      · constructor <;> rintro ⟨h1, h2, h3⟩ <;> exact ⟨h1, by omega, h3⟩
      · refine List.nodup_append.mpr ⟨hids, List.nodup_singleton _, fun a ha b hb => ?_⟩
        rintro rfl
        exact hmem (List.mem_singleton.mp hb ▸ ha)
      · rw [List.length_append, List.length_singleton]
        omega

/-- `"all"` is no list of ids. -/
lemma not_lists_all (vs : List ℕ) : ¬ Lists all vs := by
  intro h
  generalize hp : all = p at h
  cases h with
  | nil hs => exact absurd (hs 0x61 (hp ▸ List.mem_cons_self)) (by decide)
  | @cons s w t p v vs hs hw ht hcomma hvs =>
    cases s with
    | cons c s =>
      obtain ⟨rfl, -⟩ := List.cons.inj hp
      exact absurd (hs _ List.mem_cons_self) (by decide)
    | nil =>
      cases hw with
      | plain hne hds =>
        obtain ⟨c, ds, rfl⟩ := List.exists_cons_of_ne_nil hne
        obtain ⟨rfl, -⟩ := List.cons.inj hp
        exact absurd (hds _ List.mem_cons_self) (by decide)
      | plus hne hds => exact absurd (List.cons.inj hp).1 (by decide)
      | minus hne hds hzero => exact absurd (List.cons.inj hp).1 (by decide)

/-! ### Lists of caps -/

/-- The entries of a list: texts with a comma between them, where one more may stand at the end. -/
inductive Entries : List UInt8 → List (List UInt8) → Prop
  | nil : Entries [] []
  | last {item : List UInt8} (hne : item ≠ []) (hitem : 0x2C ∉ item) : Entries item [item]
  | cons {item p : List UInt8} {items : List (List UInt8)} (hitem : 0x2C ∉ item)
      (h : Entries p items) : Entries (item ++ 0x2C :: p) (item :: items)

/-- One entry, of 1 to 63 bytes. -/
def entry (dbl : Doubles D F) (item : List UInt8) : Except Status (Cap F) :=
  if item.length = 0 ∨ 64 ≤ item.length then .error .invalidArg else vvParseMemCap dbl item

/-- One round of the loop. -/
lemma readCaps_succ (dbl : Doubles D F) {p : List UInt8} (hp : p ≠ []) (n : ℕ) :
    readCaps dbl (n + 1) p = entry dbl (p.takeWhile (· ≠ 0x2C)) >>= fun c =>
      match p.dropWhile (· ≠ 0x2C) with
      | [] => .ok [c]
      | _ :: rest => (readCaps dbl n rest).map (c :: ·) := by
  rw [readCaps, if_neg hp, entry]
  dsimp only
  split_ifs
  · rfl
  · cases vvParseMemCap dbl (p.takeWhile (· ≠ 0x2C)) <;> rfl

/-- The loop reads the entries. -/
lemma readCaps_of_entries (dbl : Doubles D F) {p : List UInt8} {items : List (List UInt8)}
    (h : Entries p items) {n : ℕ} (hn : items.length ≤ n) :
    readCaps dbl n p = items.mapM (entry dbl) := by
  induction h generalizing n with
  | nil =>
    cases n with
    | zero => rfl
    | succ n => rw [readCaps, if_pos rfl]; rfl
  | @last item hne hitem =>
    obtain ⟨n, rfl⟩ : ∃ m, n = m + 1 := ⟨n - 1, by rw [List.length_singleton] at hn; omega⟩
    have hcomma : ∀ b ∈ item, decide (b ≠ 0x2C) = true := fun b hb =>
      decide_eq_true fun heq => hitem (heq ▸ hb)
    rw [readCaps_succ dbl hne, List.takeWhile_eq_self_iff.mpr hcomma,
      List.dropWhile_eq_nil_iff.mpr hcomma, List.mapM_cons]
    rfl
  | @cons item p items hitem h ih =>
    obtain ⟨n, rfl⟩ : ∃ m, n = m + 1 := ⟨n - 1, by rw [List.length_cons] at hn; omega⟩
    rw [List.length_cons, Nat.add_le_add_iff_right] at hn
    rw [readCaps_succ dbl (by simp), Search.takeWhile_mark hitem, Search.dropWhile_mark hitem,
      List.mapM_cons]
    dsimp only
    rw [ih hn]
    rfl

/-! ### What the flags take -/

lemma vvGpuSetParse_eq (dbl : Doubles D F) (n : ℤ) {text : List UInt8} (h : text ≠ all) :
    vvGpuSetParse dbl n text =
      if (parseFrom text []).1 = false ∨ (parseFrom text []).2 = [] then
        (.error .invalidArg, cleared dbl (parseFrom text []).2)
      else (.ok (), cleared dbl (parseFrom text []).2) := by
  rw [vvGpuSetParse, if_neg h]

/-- A list of ids that each fit an `int` is taken where they are distinct and not too many. -/
theorem vvGpuSetParse_lists (dbl : Doubles D F) (n : ℤ) {text : List UInt8} {vs : List ℕ}
    (h : Lists text vs) (hv : ∀ v ∈ vs, v < 2 ^ 31) (set : GpuSet F) :
    vvGpuSetParse dbl n text = (.ok (), set) ↔
      1 ≤ vs.length ∧ vs.length ≤ maxGpus ∧ vs.Nodup ∧ set = cleared dbl (vs.map Int.ofNat) := by
  have hall : text ≠ all := by
    rintro rfl
    exact not_lists_all vs h
  have hfill := @fill_eq_iff [] vs List.nodup_nil (Nat.zero_le maxGpus)
  rw [List.nil_append, List.length_nil, Nat.zero_add,
    List.nodup_map_iff fun a b => Int.ofNat.inj] at hfill
  rw [vvGpuSetParse_eq dbl n hall, parseFrom_of_lists h hv]
  rcases hr : fill [] vs with ⟨done, ids⟩
  dsimp only
  constructor
  · intro hset
    split_ifs at hset with hno
    · exact absurd (Prod.mk.inj hset).1 (by simp)
    · rw [not_or, Bool.not_eq_false] at hno
      obtain ⟨rfl, hids⟩ := hno
      obtain ⟨hnodup, hlen, rfl⟩ := (hfill ids).mp hr
      refine ⟨?_, hlen, hnodup, (Prod.mk.inj hset).2.symm⟩
      exact Nat.one_le_iff_ne_zero.mpr fun hzero =>
        hids (by rw [List.eq_nil_of_length_eq_zero hzero]; rfl)
  · rintro ⟨hpos, hlen, hnodup, rfl⟩
    have htrue := (hfill _).mpr ⟨hnodup, hlen, rfl⟩
    rw [hr] at htrue
    obtain ⟨rfl, rfl⟩ := Prod.mk.inj htrue
    refine if_neg (not_or_intro (by simp) fun hnil => ?_)
    rw [List.map_eq_nil_iff] at hnil
    rw [hnil] at hpos
    exact absurd hpos (by simp)

/-- Caps are taken where every entry is one, and there is one or as many as there are devices. -/
theorem vvGpuSetCaps_eq_iff (dbl : Doubles D F) {text : List UInt8} {items : List (List UInt8)}
    (h : Entries text items) (hlen : items.length ≤ maxGpus) (set set' : GpuSet F) :
    vvGpuSetCaps dbl text set = (.ok (), set') ↔
      ∃ caps, items.mapM (entry dbl) = .ok caps ∧
        ((∃ c, caps = [c] ∧ set' = { set with cap := fun _ => c }) ∨
          (1 < caps.length ∧ caps.length = set.devices ∧ set' = set.withCaps caps)) := by
  rw [vvGpuSetCaps, readCaps_of_entries dbl h hlen]
  cases hcaps : items.mapM (entry dbl) with
  | error s => simp
  | ok caps =>
    match caps with
    | [] => simp
    | [c] => simp [eq_comm]
    | c :: c' :: caps =>
      dsimp only
      split_ifs with hne
      · refine ⟨fun h => absurd (Prod.mk.inj h).1 (by simp), ?_⟩
        rintro ⟨caps', hcaps', ⟨d, rfl, -⟩ | ⟨-, hdev, -⟩⟩
        · exact absurd hcaps' (by simp)
        · exact absurd (Except.ok.inj hcaps' ▸ hdev) hne
      · refine ⟨fun h => ⟨_, rfl, .inr ⟨by simp, not_not.mp hne, (Prod.mk.inj h).2.symm⟩⟩, ?_⟩
        rintro ⟨caps', hcaps', ⟨d, rfl, -⟩ | ⟨-, -, rfl⟩⟩
        · exact absurd hcaps' (by simp)
        · rw [Except.ok.inj hcaps']

/-- Integers for the numbers that `strtod` reads. -/
def integers : Doubles ℤ ℚ where
  strtod := strtol
  neg v := v < 0
  overHundred v := 100 < v
  percent v := v / 100
  bytes v mul := (v * mul).toNat
  zero := 0

/-- A comma in front of an id is passed over. -/
theorem vvGpuSetParse_comma :
    vvGpuSetParse integers 1 [0x2C, 0x30] = (.ok (), cleared integers [0]) := by
  have hlist : Lists [0x2C, 0x30] [0] :=
    .cons (s := [0x2C]) (w := [0x30]) (t := []) (by simp [isGap])
      (.plain (by simp) (by simp; decide)) (by simp) (.inl rfl) (.nil (by simp))
  rw [vvGpuSetParse, if_neg (by decide), parseFrom_of_lists hlist (by simp)]
  rfl

/-- Which texts the flags take, and what they store. -/
theorem gpu_flags (dbl : Doubles D F) (devDeviceCount : ℤ) (text : List UInt8) :
    (text = all → vvGpuSetParse dbl devDeviceCount text =
      if devDeviceCount ≤ 0 then (.error .notFound, cleared dbl [])
      else (.ok (),
        cleared dbl ((List.range (min devDeviceCount maxGpus).toNat).map Int.ofNat))) ∧
    (∀ vs, Lists text vs → (∀ v ∈ vs, v < 2 ^ 31) → ∀ set,
      (vvGpuSetParse dbl devDeviceCount text = (.ok (), set) ↔
        1 ≤ vs.length ∧ vs.length ≤ maxGpus ∧ vs.Nodup ∧
          set = cleared dbl (vs.map Int.ofNat))) ∧
    (text ≠ all → (∀ vs, ¬ Lists text vs) →
      (vvGpuSetParse dbl devDeviceCount text).1 = .error .invalidArg) ∧
    (text ≠ all → ∃ vs ids, Begins text vs ∧ Stored vs ids ∧
      (vvGpuSetParse dbl devDeviceCount text).2 = cleared dbl ids) ∧
    (∀ items, Entries text items → items.length ≤ maxGpus → ∀ set set',
      (vvGpuSetCaps dbl text set = (.ok (), set') ↔
        ∃ caps, items.mapM (entry dbl) = .ok caps ∧
          ((∃ c, caps = [c] ∧ set' = { set with cap := fun _ => c }) ∨
            (1 < caps.length ∧ caps.length = set.devices ∧ set' = set.withCaps caps)))) ∧
    (∀ set s set', vvGpuSetCaps dbl text set = (.error s, set') → set' = set) := by
  refine ⟨fun hall => ?_, fun vs hvs hv => vvGpuSetParse_lists dbl devDeviceCount hvs hv,
    fun hall hnone => ?_, fun hall => ?_, fun items hitems hlen => vvGpuSetCaps_eq_iff dbl hitems hlen,
    fun set s set' h => ?_⟩
  · rw [vvGpuSetParse, if_pos hall]
  · have hstop : (parseFrom text []).1 = false := by
      by_contra htrue
      obtain ⟨vs, -, -, -, -, hlists⟩ := parseFrom_begins text []
      exact hnone vs (hlists (Bool.not_eq_false _ ▸ htrue))
    rw [vvGpuSetParse_eq dbl _ hall, if_pos (.inl hstop)]
  · obtain ⟨vs, ids, hbegins, hstored, hids, -⟩ := parseFrom_begins text []
    refine ⟨vs, ids, hbegins, hstored, ?_⟩
    rw [vvGpuSetParse_eq dbl _ hall, hids]
    split_ifs <;> rfl
  · rw [vvGpuSetCaps] at h
    split at h
    · exact (Prod.mk.inj h).2.symm
    · exact (Prod.mk.inj h).2.symm
    · exact absurd (Prod.mk.inj h).1 (by simp)
    · split_ifs at h
      · exact (Prod.mk.inj h).2.symm
      · exact absurd (Prod.mk.inj h).1 (by simp)

/-- Two ids, and a cap for each of them. -/
theorem gpu_flags_two :
    vvGpuSetParse integers 2 [0x32, 0x2C, 0x30] = (.ok (), cleared integers [2, 0]) ∧
      ∃ set, vvGpuSetCaps integers [0x38, 0x47, 0x2C, 0x39, 0x30, 0x25]
        (cleared integers [2, 0]) = (.ok (), set) := by
  have hlist : Lists [0x32, 0x2C, 0x30] [2, 0] :=
    .cons (s := []) (w := [0x32]) (t := []) (p := [0x2C, 0x30]) (by simp)
      (.plain (by simp) (by simp; decide)) (by simp) (.inr rfl)
      (.cons (s := [0x2C]) (w := [0x30]) (t := []) (by simp [isGap])
        (.plain (by simp) (by simp; decide)) (by simp) (.inl rfl) (.nil (by simp)))
  have hentries : Entries [0x38, 0x47, 0x2C, 0x39, 0x30, 0x25]
      [[0x38, 0x47], [0x39, 0x30, 0x25]] :=
    @Entries.cons [0x38, 0x47] _ _ (by decide) (.last (by simp) (by decide))
  constructor
  · exact ((gpu_flags integers 2 _).2.1 [2, 0] hlist (by simp) _).mpr
      ⟨by decide, by decide, by decide, rfl⟩
  · exact ⟨_, ((gpu_flags integers 2 _).2.2.2.2.1 _ hentries (by decide) _ _).mpr
      ⟨[⟨8 * 2 ^ 30, 0⟩, ⟨0, integers.percent 90⟩], rfl, .inr ⟨by simp, rfl, rfl⟩⟩⟩

end VibeVoice.GpuSelect
