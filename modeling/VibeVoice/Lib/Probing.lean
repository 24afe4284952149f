import Mathlib.Tactic

/-!
Hash tables with open addressing and linear probing.

A table is a list of slots.  An entry is put into the first free slot from its home on, and looked
up from there to the next free slot; past the last slot the search goes on at the first one.  A
loop that has seen every slot goes round for ever, and is `none` here.

* `put`, `get`: the two loops.
* `Holds`: the table holds a list of entries, put in that order.
* `build_holds`: what building a table from a list gives.
* `get_holds`: a lookup is a search of the list from its front.
-/

namespace Probing

variable {ι β : Type*}

section Loops

variable (wrap : ℕ → ℕ)

/-- The entry goes into the first free slot from `i` on; at most `fuel` slots are looked at. -/
def put (x : ι) : ℕ → ℕ → List (Option ι) → Option (List (Option ι))
  | 0, _, _ => none
  | fuel + 1, i, slots =>
    if (slots.getD i none).isSome then put x fuel (wrap (i + 1)) slots
    else some (slots.set i (some x))

/-- The first answer of an entry from slot `i` on, `some none` when a free slot comes first. -/
def get (f : ι → Option β) : ℕ → ℕ → List (Option ι) → Option (Option β)
  | 0, _, _ => none
  | fuel + 1, i, slots =>
    match slots.getD i none with
    | none => some none
    | some x =>
      match f x with
      | some r => some (some r)
      | none => get f fuel (wrap (i + 1)) slots

/-- A table of `n` slots with the entries of a list, put one after another. -/
def build (home : ι → ℕ) (n : ℕ) (es : List ι) : Option (List (Option ι)) :=
  es.foldlM (fun slots x => put wrap x slots.length (home x) slots) (List.replicate n none)

end Loops

/-! ### Positions -/

variable {slots : List (Option ι)} {i d : ℕ} {x : ι}

/-- The slot `d` steps behind `i`, in a table of `n` slots. -/
def pos (n i d : ℕ) : ℕ := (i + d) % n

lemma pos_zero {n : ℕ} (h : i < n) : pos n i 0 = i := Nat.mod_eq_of_lt h

lemma pos_lt {n : ℕ} (hn : 0 < n) : pos n i d < n := Nat.mod_lt _ hn

lemma pos_next (n i d : ℕ) : pos n ((i + 1) % n) d = pos n i (d + 1) := by
  rw [pos, pos, Nat.mod_add_mod, Nat.add_assoc, Nat.add_comm 1 d]

/-- The steps from a slot to another are determined. -/
lemma pos_inj {n d' : ℕ} (hd : d < n) (hd' : d' < n) (h : pos n i d = pos n i d') : d = d' := by
  have hmod : d ≡ d' [MOD n] := Nat.ModEq.add_left_cancel' i h
  rwa [Nat.ModEq, Nat.mod_eq_of_lt hd, Nat.mod_eq_of_lt hd'] at hmod

/-- The slot `d` steps behind `i`. -/
def slotAt (slots : List (Option ι)) (i d : ℕ) : Option ι := slots.getD (pos slots.length i d) none

/-- The first free slot from `i` on is `d` steps away. -/
def Gap (slots : List (Option ι)) (i d : ℕ) : Prop :=
  slotAt slots i d = none ∧ ∀ k < d, (slotAt slots i k).isSome

lemma Gap.unique {d' : ℕ} (h : Gap slots i d) (h' : Gap slots i d') : d = d' := by
  rcases lt_trichotomy d d' with hlt | heq | hgt
  · have := h'.2 d hlt
    rw [h.1] at this
    cases this
  · exact heq
  · have := h.2 d' hgt
    rw [h'.1] at this
    cases this

lemma slotAt_next (slots : List (Option ι)) (i d : ℕ) :
    slotAt slots ((i + 1) % slots.length) d = slotAt slots i (d + 1) := by
  rw [slotAt, slotAt, pos_next]

lemma Gap.next (h : Gap slots i (d + 1)) : Gap slots ((i + 1) % slots.length) d :=
  ⟨by rw [slotAt_next]; exact h.1, fun k hk => by
    rw [slotAt_next]
    exact h.2 (k + 1) (by omega)⟩

lemma slotAt_zero (h : i < slots.length) : slotAt slots i 0 = slots.getD i none := by
  rw [slotAt, pos_zero h]

/-- A table with a free slot has one behind every slot. -/
lemma exists_gap (hi : i < slots.length) (hfree : slots.countP Option.isSome < slots.length) :
    ∃ d < slots.length, Gap slots i d := by
  obtain ⟨q, hq, hqnone⟩ : ∃ q, q < slots.length ∧ slots.getD q none = none := by
    by_contra hno
    push Not at hno
    refine absurd (List.countP_eq_length.mpr fun o ho => ?_) (Nat.ne_of_lt hfree)
    obtain ⟨q, hq, rfl⟩ := List.getElem_of_mem ho
    have hsome := hno q hq
    rw [List.getD_eq_getElem?_getD, List.getElem?_eq_getElem hq, Option.getD_some] at hsome
    exact Option.isSome_iff_ne_none.mpr hsome
  have hreach : ∃ d, slotAt slots i d = none := by
    refine ⟨q + slots.length - i, ?_⟩
    have hpos : pos slots.length i (q + slots.length - i) = q := by
      rw [pos, show i + (q + slots.length - i) = q + slots.length by omega, Nat.add_mod_right,
        Nat.mod_eq_of_lt hq]
    rw [slotAt, hpos, hqnone]
  classical
  refine ⟨Nat.find hreach, ?_, Nat.find_spec hreach, fun k hk =>
    Option.isSome_iff_ne_none.mpr (Nat.find_min hreach hk)⟩
  by_contra hge
  -- a whole round of occupied slots leaves no slot over
  refine Nat.find_min hreach (m := (q + slots.length - i) % slots.length)
    (lt_of_lt_of_le (Nat.mod_lt _ (by omega)) (Nat.le_of_not_lt hge)) ?_
  have hpos : pos slots.length i ((q + slots.length - i) % slots.length) = q := by
    rw [pos, Nat.add_mod_mod, show i + (q + slots.length - i) = q + slots.length by omega,
      Nat.add_mod_right, Nat.mod_eq_of_lt hq]
  rw [slotAt, hpos, hqnone]

/-- The entries in the first `d` slots from `i` on. -/
def front (slots : List (Option ι)) (i d : ℕ) : List ι :=
  (List.range d).filterMap fun k => slotAt slots i k

lemma front_succ (h : slotAt slots i 0 = some x) :
    front slots i (d + 1) = x :: front slots ((i + 1) % slots.length) d := by
  rw [front, List.range_succ_eq_map, List.filterMap_cons, h, List.filterMap_map, front]
  simp only [Function.comp_def, slotAt_next]

/-! ### What the loops do -/

section Spec

variable {wrap : ℕ → ℕ} (hwrap : ∀ i, wrap i = i % slots.length)

include hwrap

/-- The entry goes to the end of the occupied slots. -/
theorem put_gap (hgap : Gap slots i d) (hi : i < slots.length) {fuel : ℕ} (hfuel : d < fuel) :
    put wrap x fuel i slots = some (slots.set (pos slots.length i d) (some x)) := by
  induction d generalizing i fuel with
  | zero =>
    obtain ⟨fuel, rfl⟩ : ∃ m, fuel = m + 1 := ⟨fuel - 1, by omega⟩
    have hfree := hgap.1
    rw [slotAt_zero hi] at hfree
    rw [put, hfree, if_neg (by simp), pos_zero hi]
  | succ d ih =>
    obtain ⟨fuel, rfl⟩ : ∃ m, fuel = m + 1 := ⟨fuel - 1, by omega⟩
    have hfull := hgap.2 0 (Nat.succ_pos d)
    rw [slotAt_zero hi] at hfull
    rw [put, if_pos hfull, hwrap, ih hgap.next (Nat.mod_lt _ (by omega)) (by omega), pos_next]

/-- The first answer of the entries in the occupied slots. -/
theorem get_gap (f : ι → Option β) (hgap : Gap slots i d) (hi : i < slots.length) {fuel : ℕ}
    (hfuel : d < fuel) : get wrap f fuel i slots = some ((front slots i d).findSome? f) := by
  induction d generalizing i fuel with
  | zero =>
    obtain ⟨fuel, rfl⟩ : ∃ m, fuel = m + 1 := ⟨fuel - 1, by omega⟩
    have hfree := hgap.1
    rw [slotAt_zero hi] at hfree
    rw [get, hfree]
    rfl
  | succ d ih =>
    obtain ⟨fuel, rfl⟩ : ∃ m, fuel = m + 1 := ⟨fuel - 1, by omega⟩
    obtain ⟨x, hx⟩ := Option.isSome_iff_exists.mp (hgap.2 0 (Nat.succ_pos d))
    rw [front_succ hx, List.findSome?_cons]
    rw [slotAt_zero hi] at hx
    rw [get, hx]
    dsimp only
    cases f x with
    | some r => rfl
    | none =>
      dsimp only
      rw [hwrap, ih hgap.next (Nat.mod_lt _ (by omega)) (by omega)]

end Spec

/-! ### Tables -/

/-- The table holds the entries: no free slot stands between an entry and its home, and the
entries of one home are met in the order they were put. -/
structure Holds (home : ι → ℕ) (es : List ι) (slots : List (Option ι)) : Prop where
  reach : ∀ i < slots.length, ∀ d < slots.length, ∀ x, slotAt slots i d = some x → home x = i →
    ∀ k < d, (slotAt slots i k).isSome
  order : ∀ i < slots.length, ∀ d < slots.length, Gap slots i d →
    (front slots i d).filter (home · = i) = es.filter (home · = i)
  count : slots.countP Option.isSome = es.length

variable {home : ι → ℕ} {es : List ι}

lemma holds_empty (home : ι → ℕ) (n : ℕ) : Holds home [] (List.replicate n none) := by
  have hnone : ∀ i d, slotAt (List.replicate n (none : Option ι)) i d = none := fun i d => by
    rw [slotAt, List.getD_eq_getElem?_getD, List.getElem?_replicate]
    split_ifs <;> rfl
  refine ⟨fun i _ d _ x hx => ?_, fun i _ d _ _ => ?_, ?_⟩
  · rw [hnone] at hx
    cases hx
  · simp [front, hnone]
  · simp [List.countP_replicate]

lemma slotAt_set {p : ℕ} (hp : p < slots.length) (k : ℕ) :
    slotAt (slots.set p (some x)) i k =
      if pos slots.length i k = p then some x else slotAt slots i k := by
  rw [slotAt, slotAt, List.length_set, List.getD_eq_getElem?_getD, List.getElem?_set,
    List.getD_eq_getElem?_getD]
  split_ifs with h h' h' <;> first | rfl | omega

/-- An occupied slot stays occupied. -/
lemma isSome_slotAt_set {p k : ℕ} (hp : p < slots.length) (h : (slotAt slots i k).isSome) :
    (slotAt (slots.set p (some x)) i k).isSome := by
  rw [slotAt_set hp]
  split_ifs
  · rfl
  · exact h

lemma front_add (slots : List (Option ι)) (i d k : ℕ) :
    front slots i (d + k) =
      front slots i d ++ (List.range k).filterMap fun m => slotAt slots i (d + m) := by
  rw [front, List.range_add, List.filterMap_append, List.filterMap_map]
  rfl

lemma front_congr {slots' : List (Option ι)}
    (h : ∀ k < d, slotAt slots' i k = slotAt slots i k) : front slots' i d = front slots i d :=
  List.filterMap_congr fun k hk => h k (List.mem_range.mp hk)

/-- Before the end of a run no slot changes when its free slot is filled. -/
lemma slotAt_set_of_lt {p e k : ℕ} (hp : p < slots.length) (hfree : slots[p] = none)
    (hgap : Gap slots i e) (hk : k < e) :
    slotAt (slots.set p (some x)) i k = slotAt slots i k := by
  rw [slotAt_set hp, if_neg]
  intro hpos
  have hsome := hgap.2 k hk
  rw [slotAt, hpos, List.getD_eq_getElem?_getD, List.getElem?_eq_getElem hp, hfree] at hsome
  cases hsome

/-- A run whose free slot is filled goes on with the entry, and behind it no entry has the home
of the run. -/
lemma Holds.front_set (h : Holds home es slots) (hi : i < slots.length) {e m : ℕ}
    (hm : e + 1 + m < slots.length) (hgap : Gap slots i e)
    (hp : pos slots.length i e < slots.length) (hfree : slots[pos slots.length i e] = none) :
    (front (slots.set (pos slots.length i e) (some x)) i (e + 1 + m)).filter (home · = i) =
      (front slots i e).filter (home · = i) ++ [x].filter (home · = i) := by
  have hx : slotAt (slots.set (pos slots.length i e) (some x)) i e = some x := by
    rw [slotAt_set hp, if_pos rfl]
  have hrest : ((List.range m).filterMap fun k => slotAt
      (slots.set (pos slots.length i e) (some x)) i (e + 1 + k)).filter (home · = i) = [] := by
    rw [List.filter_eq_nil_iff]
    intro y hy hyi
    obtain ⟨k, hk, hy⟩ := List.mem_filterMap.mp hy
    rw [List.mem_range] at hk
    rw [slotAt_set hp] at hy
    split_ifs at hy with hpos
    · have := pos_inj (by omega) (by omega) hpos
      omega
    · have hsome := h.reach i hi _ (by omega) y hy (by simpa using hyi) e (by omega)
      rw [hgap.1] at hsome
      cases hsome
  have hone : front (slots.set (pos slots.length i e) (some x)) i (e + 1) = front slots i e ++ [x] := by
    rw [front_add, front_congr fun k hk => slotAt_set_of_lt hp hfree hgap hk]
    simp [hx]
  rw [front_add, List.filter_append, hrest, List.append_nil, hone, List.filter_append]

/-- A run that ends at another slot stays as it is; one that ended where the entry is put is a
run of its home. -/
lemma Holds.order_set (h : Holds home es slots)
    (hgap : Gap slots (home x) d) (hp : pos slots.length (home x) d < slots.length)
    (hfree : slots[pos slots.length (home x) d] = none) {e : ℕ} (hi : i < slots.length)
    (he : e < slots.length)
    (hgap' : Gap (slots.set (pos slots.length (home x) d) (some x)) i e) :
    (front (slots.set (pos slots.length (home x) d) (some x)) i e).filter (home · = i) =
      (es ++ [x]).filter (home · = i) := by
  have hlt : slots.countP Option.isSome < slots.length := by
    refine lt_of_le_of_ne List.countP_le_length fun heq => ?_
    have := List.countP_eq_length.mp heq _ (List.getElem_mem hp)
    rw [hfree] at this
    cases this
  obtain ⟨e₀, he₀, hgap₀⟩ := exists_gap hi hlt
  rw [List.filter_append, ← h.order i hi e₀ he₀ hgap₀]
  have hend := slotAt_set (x := x) (i := i) hp e₀
  by_cases hpos : pos slots.length i e₀ = pos slots.length (home x) d
  · rw [if_pos hpos] at hend
    have hlt' : e₀ < e := by
      rcases lt_trichotomy e₀ e with hlt' | rfl | hgt
      · exact hlt'
      · rw [hgap'.1] at hend
        cases hend
      · have hsome := hgap₀.2 e hgt
        rw [← slotAt_set_of_lt hp hfree hgap₀ hgt, hgap'.1] at hsome
        cases hsome
    obtain ⟨m, rfl⟩ := Nat.exists_eq_add_of_lt hlt'
    rw [show e₀ + m + 1 = e₀ + 1 + m by omega] at he ⊢
    simp only [← hpos] at hp hfree ⊢
    exact h.front_set hi he hgap₀ hp hfree
  · have hhome : home x ≠ i := by
      rintro rfl
      exact hpos (by rw [hgap₀.unique hgap])
    rw [if_neg hpos, hgap₀.1] at hend
    obtain rfl := hgap'.unique ⟨hend, fun k hk => by
      rw [slotAt_set_of_lt hp hfree hgap₀ hk]
      exact hgap₀.2 k hk⟩
    rw [front_congr fun k hk => slotAt_set_of_lt hp hfree hgap₀ hk]
    simp [hhome]

/-- Putting an entry behind the others of its home. -/
lemma Holds.put (h : Holds home es slots) (hd : d < slots.length) (hgap : Gap slots (home x) d) :
    Holds home (es ++ [x]) (slots.set (pos slots.length (home x) d) (some x)) := by
  have hp : pos slots.length (home x) d < slots.length := pos_lt (by omega)
  have hfree : slots[pos slots.length (home x) d] = none := by
    have := hgap.1
    rwa [slotAt, List.getD_eq_getElem?_getD, List.getElem?_eq_getElem hp, Option.getD_some] at this
  refine ⟨fun i hi e he y hy hyi k hk => ?_, fun i hi e he hgap' => ?_, ?_⟩
  · rw [List.length_set] at hi he
    apply isSome_slotAt_set hp
    rw [slotAt_set hp] at hy
    split_ifs at hy with hpos
    · obtain rfl := Option.some.inj hy
      subst hyi
      obtain rfl := pos_inj he hd hpos
      exact hgap.2 k hk
    · exact h.reach i hi e he y hy hyi k hk
  · rw [List.length_set] at hi he
    exact h.order_set hgap hp hfree hi he hgap'
  · rw [List.countP_set hp, hfree, h.count, List.length_append]
    rfl

section Tables

variable {wrap : ℕ → ℕ} {n : ℕ} (hwrap : ∀ i, wrap i = i % n) (hhome : ∀ x, home x < n)

include hwrap hhome

/-- Entries that fit are put, and the table holds them in order. -/
theorem build_holds (hfit : es.length ≤ n) :
    ∃ slots, build wrap home n es = some slots ∧ slots.length = n ∧ Holds home es slots := by
  have hstep : ∀ (rest done : List ι) (slots : List (Option ι)), Holds home done slots →
      slots.length = n → done.length + rest.length ≤ n →
      ∃ slots', rest.foldlM (fun slots x => put wrap x slots.length (home x) slots) slots =
        some slots' ∧ slots'.length = n ∧ Holds home (done ++ rest) slots' := by
    intro rest
    induction rest with
    | nil =>
      intro done slots hholds hlen _
      exact ⟨slots, rfl, hlen, by rwa [List.append_nil]⟩
    | cons x rest ih =>
      intro done slots hholds hlen hle
      subst hlen
      rw [List.length_cons] at hle
      obtain ⟨d, hd, hgap⟩ := exists_gap (hhome x) (by rw [hholds.count]; omega)
      obtain ⟨slots', hfold, hlen', hholds'⟩ := ih (done ++ [x]) _
        (hholds.put hd hgap) (List.length_set ..)
        (by rw [List.length_append, List.length_singleton]; omega)
      refine ⟨slots', ?_, hlen', by rwa [List.append_assoc] at hholds'⟩
      rw [List.foldlM_cons, put_gap hwrap hgap (hhome x) hd]
      exact hfold
  exact hstep es [] _ (holds_empty home n) List.length_replicate (by simpa using hfit)

omit hhome in
/-- With a slot to spare a lookup ends, and is a search of the list from its front. -/
theorem get_holds (h : Holds home es slots) (hlen : slots.length = n) (hroom : es.length < n)
    (hi : i < n) (f : ι → Option β) (hf : ∀ x, home x ≠ i → f x = none) :
    get wrap f n i slots = some (es.findSome? f) := by
  subst hlen
  have hfilter : ∀ l : List ι, (l.filter (home · = i)).findSome? f = l.findSome? f := by
    intro l
    induction l with
    | nil => rfl
    | cons x l ih =>
      by_cases hx : home x = i
      · rw [List.filter_cons_of_pos (by simpa using hx), List.findSome?_cons,
          List.findSome?_cons, ih]
      · rw [List.filter_cons_of_neg (by simpa using hx), List.findSome?_cons, hf x hx, ih]
  obtain ⟨d, hd, hgap⟩ := exists_gap hi (by rw [h.count]; exact hroom)
  rw [get_gap hwrap f hgap hi hd, ← hfilter (front slots i d), h.order i hi d hd hgap, hfilter]

end Tables

end Probing
