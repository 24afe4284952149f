import Mathlib.Tactic

/-!
Removing words from a text.

* `removeOnce ks s`: one pass from left to right, dropping every word of `ks` it meets.
* `removeEach ks s`: the words removed one after another, a full pass for each.
* `Held ks r`: a text that may be the start of a word.
* `Inserted ks o d`: the text `d` is `o` with words of `ks` inserted.

The words are `Delimited`: each starts with the same letter, which occurs nowhere else in it,
and no word is the start of another.  Then the occurrences of words in a text are disjoint, and

* a pass can be made piece by piece when a held tail is kept back (`removeOnce_append_held`);
* the two removals agree, and leave no word, exactly when no word of the text is interrupted by
  others (`removeEach_eq_iff`).
-/

namespace Strip

variable {α : Type*} [DecidableEq α]

/-- A pass with `skip` letters of a word still to be dropped. -/
def removeFrom (ks : List (List α)) : ℕ → List α → List α
  | _, [] => []
  | skip + 1, _ :: s => removeFrom ks skip s
  | 0, a :: s =>
    match ks.find? (·.isPrefixOf (a :: s)) with
    | some k => removeFrom ks (k.length - 1) s
    | none => a :: removeFrom ks 0 s

/-- One pass from left to right that drops every word it meets. -/
def removeOnce (ks : List (List α)) (s : List α) : List α := removeFrom ks 0 s

/-- The words removed one after another. -/
def removeEach (ks : List (List α)) (s : List α) : List α :=
  ks.foldl (fun s k => removeOnce [k] s) s

/-- A proper prefix of some word, or nothing. -/
def Held (ks : List (List α)) (r : List α) : Prop := r = [] ∨ ∃ k ∈ ks, r <+: k ∧ r ≠ k

/-- Some word occurs in the text. -/
def Contains (ks : List (List α)) (s : List α) : Prop := ∃ k ∈ ks, k <:+: s

/-- Words that start with `lt`, have it nowhere else, and are not the start of one another. -/
structure Delimited (lt : α) (ks : List (List α)) : Prop where
  shape : ∀ k ∈ ks, ∃ body, k = lt :: body ∧ lt ∉ body ∧ body ≠ []
  prefix_free : ∀ k ∈ ks, ∀ k' ∈ ks, k <+: k' → k = k'

/-- The text `d` is the text `o` with words inserted. -/
inductive Inserted (ks : List (List α)) : List α → List α → Prop
  | nil : Inserted ks [] []
  | keep {o d : List α} (a : α) (h : Inserted ks o d) : Inserted ks (a :: o) (a :: d)
  | insert {o d k : List α} (hk : k ∈ ks) (h : Inserted ks o d) : Inserted ks o (k ++ d)

/-- A word occurs in the text with one or more words inserted inside it. -/
def Interrupted (ks : List (List α)) (d : List α) : Prop :=
  ∃ a inner z m, (a :: inner ++ [z]) ∈ ks ∧ Inserted ks inner m ∧ m ≠ inner ∧
    (a :: m ++ [z]) <:+: d

/-! ### One pass -/

section Pass

variable {lt : α} {ks : List (List α)}

lemma removeFrom_eq_drop (ks : List (List α)) (skip : ℕ) (s : List α) :
    removeFrom ks skip s = removeOnce ks (s.drop skip) := by
  induction skip generalizing s with
  | zero => rfl
  | succ skip ih =>
    cases s with
    | nil => rfl
    | cons a s => exact ih s

@[simp] lemma removeOnce_nil : removeOnce ks [] = [] := rfl

/-- A letter at which no word starts is kept. -/
lemma removeOnce_keep {a : α} {s : List α} (h : ∀ k ∈ ks, ¬ k <+: a :: s) :
    removeOnce ks (a :: s) = a :: removeOnce ks s := by
  have hfind : ks.find? (·.isPrefixOf (a :: s)) = none := by
    rw [List.find?_eq_none]
    intro k hk
    simpa using h k hk
  rw [removeOnce, removeFrom, hfind]
  rfl

/-- The first word that starts at a letter is dropped. -/
lemma removeOnce_hit {k s : List α} (hfind : ks.find? (·.isPrefixOf s) = some k) (hne : k ≠ []) :
    removeOnce ks s = removeOnce ks (s.drop k.length) := by
  cases s with
  | nil =>
    have hp := List.find?_some hfind
    rw [List.isPrefixOf_iff_prefix, List.prefix_nil] at hp
    exact absurd hp hne
  | cons a s =>
    obtain ⟨b, k, rfl⟩ := List.exists_cons_of_ne_nil hne
    rw [removeOnce, removeFrom, hfind]
    exact removeFrom_eq_drop ks _ s

variable (hks : Delimited lt ks)
include hks

omit [DecidableEq α] in
lemma Delimited.ne_nil {k : List α} (hk : k ∈ ks) : k ≠ [] := by
  obtain ⟨body, rfl, _⟩ := hks.shape k hk
  exact List.cons_ne_nil _ _

omit [DecidableEq α] in
/-- Two words that start at the same place are the same. -/
lemma Delimited.eq_of_prefix {k k' s : List α} (hk : k ∈ ks) (hk' : k' ∈ ks) (h : k <+: s)
    (h' : k' <+: s) : k = k' := by
  rcases List.prefix_or_prefix_of_prefix h h' with hp | hp
  · exact hks.prefix_free k hk k' hk' hp
  · exact (hks.prefix_free k' hk' k hk hp).symm

omit [DecidableEq α] in
/-- A word starts only at its first letter. -/
lemma Delimited.not_prefix {a : α} {s : List α} (ha : a ≠ lt) : ∀ k ∈ ks, ¬ k <+: a :: s := by
  intro k hk hp
  obtain ⟨body, rfl, _⟩ := hks.shape k hk
  exact ha (List.cons_prefix_cons.mp hp).1.symm

/-- A word at the start of a text is dropped. -/
lemma removeOnce_word {k : List α} (hk : k ∈ ks) (s : List α) :
    removeOnce ks (k ++ s) = removeOnce ks s := by
  have hex : ∃ k' ∈ ks, k'.isPrefixOf (k ++ s) = true :=
    ⟨k, hk, List.isPrefixOf_iff_prefix.mpr (List.prefix_append k s)⟩
  cases hfind : ks.find? (·.isPrefixOf (k ++ s)) with
  | none =>
    obtain ⟨k', hk', hp⟩ := hex
    exact absurd hp (List.find?_eq_none.mp hfind k' hk')
  | some k' =>
    have hk' := List.mem_of_find?_eq_some hfind
    have hp : k' <+: k ++ s :=
      List.isPrefixOf_iff_prefix.mp (by simpa using List.find?_some hfind)
    obtain rfl := hks.eq_of_prefix hk hk' (List.prefix_append k s) hp
    rw [removeOnce_hit hfind (hks.ne_nil hk), List.drop_left]

/-- Letters at which no word can start are kept. -/
lemma removeOnce_run {run : List α} (hrun : lt ∉ run) (s : List α) :
    removeOnce ks (run ++ s) = run ++ removeOnce ks s := by
  induction run with
  | nil => rfl
  | cons a run ih =>
    rw [List.mem_cons, not_or] at hrun
    rw [List.cons_append, removeOnce_keep (hks.not_prefix (Ne.symm hrun.1)), ih hrun.2,
      List.cons_append]

/-- A pass splits before the first letter of words: no word reaches over it. -/
lemma removeOnce_append_lt (u s : List α) :
    removeOnce ks (u ++ lt :: s) = removeOnce ks u ++ removeOnce ks (lt :: s) := by
  induction hn : u.length using Nat.strong_induction_on generalizing u with
  | _ n ih =>
    cases u with
    | nil => rfl
    | cons a u =>
      by_cases hword : ∃ k ∈ ks, k <+: a :: u ++ lt :: s
      · obtain ⟨k, hk, hp⟩ := hword
        -- the word ends before the letter, which it has only at its start
        have hin : k <+: a :: u := by
          obtain ⟨body, rfl, hlt, _⟩ := hks.shape k hk
          rcases List.prefix_or_prefix_of_prefix hp (List.prefix_append (a :: u) (lt :: s)) with
            h | ⟨v, hv⟩
          · exact h
          · rw [← hv, List.prefix_append_right_inj] at hp
            rw [List.cons_append] at hv
            obtain ⟨rfl, rfl⟩ := List.cons.inj hv
            cases v with
            | nil => rw [List.append_nil]
            | cons b v =>
              obtain ⟨rfl, _⟩ := List.cons_prefix_cons.mp hp
              exact absurd (List.mem_append_right u List.mem_cons_self) hlt
        obtain ⟨v, hv⟩ := hin
        have hlen : v.length < n := by
          have hpos := List.length_pos_iff.mpr (hks.ne_nil hk)
          have hsum := congrArg List.length hv
          rw [List.length_append] at hsum
          omega
        rw [← hv, List.append_assoc, removeOnce_word hks hk, removeOnce_word hks hk]
        exact ih v.length hlen v rfl
      · have hall : ∀ k ∈ ks, ¬ k <+: a :: (u ++ lt :: s) := fun k hk hp => hword ⟨k, hk, hp⟩
        have hu : ∀ k ∈ ks, ¬ k <+: a :: u := fun k hk hp =>
          hall k hk (hp.trans (List.prefix_append (a :: u) (lt :: s)))
        rw [List.cons_append, removeOnce_keep hall, removeOnce_keep hu, List.cons_append]
        rw [ih u.length (by rw [← hn]; exact Nat.lt_succ_self _) u rfl]

/-! ### A held tail -/

omit hks [DecidableEq α] in
/-- A text that is no start of a word, and has no word at its start, has none there when more
letters follow. -/
lemma not_prefix_append {a : α} {s : List α} (hno : ∀ k ∈ ks, ¬ k <+: a :: s)
    (hheld : ¬ Held ks (a :: s)) (t : List α) : ∀ k ∈ ks, ¬ k <+: a :: (s ++ t) := by
  intro k hk hp
  rcases List.prefix_or_prefix_of_prefix hp (List.prefix_append (a :: s) t) with h | h
  · exact hno k hk h
  · exact hheld (.inr ⟨k, hk, h, fun heq => hno k hk (heq ▸ List.prefix_rfl)⟩)

/-! ### Removing the words one after another -/

omit hks [DecidableEq α] in
lemma inserted_nil {o d : List α} (h : Inserted [] o d) : d = o := by
  induction h with
  | nil => rfl
  | keep a h ih => rw [ih]
  | insert hk h ih => cases hk

/-- A pass takes out inserted words. -/
lemma inserted_removeOnce (d : List α) : Inserted ks (removeOnce ks d) d := by
  induction hn : d.length using Nat.strong_induction_on generalizing d with
  | _ n ih =>
    cases d with
    | nil => exact .nil
    | cons a d =>
      by_cases hword : ∃ k ∈ ks, k <+: a :: d
      · obtain ⟨k, hk, s, hs⟩ := hword
        have hlen : s.length < n := by
          have hpos := List.length_pos_iff.mpr (hks.ne_nil hk)
          have hsum := congrArg List.length hs
          rw [List.length_append] at hsum
          omega
        rw [← hs, removeOnce_word hks hk]
        exact .insert hk (ih s.length hlen s rfl)
      · have hall : ∀ k ∈ ks, ¬ k <+: a :: d := fun k hk hp => hword ⟨k, hk, hp⟩
        rw [removeOnce_keep hall]
        exact .keep a (ih d.length (by rw [← hn]; exact Nat.lt_succ_self _) d rfl)

omit [DecidableEq α] in
/-- Where words have been inserted, letters of which none can start a word end before the first
of them. -/
lemma prefix_of_interrupted {L : List (List α)} (hL : L ⊆ ks) {o m t w : List α}
    (h : Inserted L o m) (hne : m ≠ o) (hw : w <+: m ++ t) (hlt : lt ∉ w) : w <+: o := by
  induction h generalizing w with
  | nil => exact absurd rfl hne
  | keep a h ih =>
    cases w with
    | nil => exact List.nil_prefix
    | cons b w =>
      obtain ⟨rfl, hrest⟩ := List.cons_prefix_cons.mp hw
      refine List.cons_prefix_cons.mpr ⟨rfl, ih (fun heq => hne (by rw [heq])) hrest ?_⟩
      exact fun hmem => hlt (List.mem_cons_of_mem _ hmem)
  | @insert o d k hk h ih =>
    obtain ⟨body, rfl, _⟩ := hks.shape k (hL hk)
    cases w with
    | nil => exact List.nil_prefix
    | cons b w =>
      obtain ⟨rfl, _⟩ := List.cons_prefix_cons.mp hw
      exact absurd List.mem_cons_self hlt

omit [DecidableEq α] in
/-- They are not interrupted at the start of a text. -/
lemma prefix_of_inserted {L : List (List α)} (hL : L ⊆ ks) {o d w : List α}
    (h : Inserted L o d) (hw : w <+: d) (hlt : lt ∉ w) : w <+: o := by
  rcases eq_or_ne d o with rfl | hne
  · exact hw
  · exact prefix_of_interrupted hks hL h hne (hw.trans (List.prefix_append d [])) hlt

omit [DecidableEq α] in
lemma Delimited.singleton {k : List α} (hk : k ∈ ks) : Delimited lt [k] where
  shape k' hk' := by
    rw [List.mem_singleton] at hk'
    exact hks.shape k' (hk' ▸ hk)
  prefix_free k₁ h₁ k₂ h₂ _ := (List.mem_singleton.mp h₁).trans (List.mem_singleton.mp h₂).symm

/-- A pass for one word steps over the other words. -/
lemma removeOnce_other {k l : List α} (hk : k ∈ ks) (hl : l ∈ ks) (hkl : l ≠ k) (s : List α) :
    removeOnce [k] (l ++ s) = l ++ removeOnce [k] s := by
  obtain ⟨body, rfl, hlt, _⟩ := hks.shape l hl
  have hno : ∀ k' ∈ [k], ¬ k' <+: lt :: (body ++ s) := by
    intro k' hk' hp
    obtain rfl := List.mem_singleton.mp hk'
    exact hkl (hks.eq_of_prefix hl hk (List.prefix_append (lt :: body) s) hp)
  rw [List.cons_append, removeOnce_keep hno, removeOnce_run (hks.singleton hk) hlt,
    List.cons_append]

/-- A text without words, with words inserted, loses exactly those that a pass is for. -/
lemma inserted_pass {L : List (List α)} (hL : L ⊆ ks) {k o d : List α} (hk : k ∈ ks)
    (hclean : ¬ Contains ks o) (h : Inserted L o d) :
    Inserted (L.filter (· ≠ k)) o (removeOnce [k] d) := by
  induction h with
  | nil => exact .nil
  | @keep o d a h ih =>
    have hno : ∀ k' ∈ [k], ¬ k' <+: a :: d := by
      intro k' hk' hp
      obtain rfl := List.mem_singleton.mp hk'
      obtain ⟨body, rfl, hlt, _⟩ := hks.shape k' hk
      obtain ⟨rfl, hbody⟩ := List.cons_prefix_cons.mp hp
      have hin := prefix_of_inserted hks hL h hbody hlt
      exact hclean ⟨_, hk, (List.cons_prefix_cons.mpr ⟨rfl, hin⟩).isInfix⟩
    rw [removeOnce_keep hno]
    refine .keep a (ih fun ⟨k', hk', hin⟩ => hclean ⟨k', hk', ?_⟩)
    exact hin.trans (List.suffix_cons a o).isInfix
  | @insert o d l hl h ih =>
    by_cases hlk : l = k
    · subst hlk
      rw [removeOnce_word (hks.singleton hk) List.mem_cons_self]
      exact ih hclean
    · rw [removeOnce_other hks hk (hL hl) hlk]
      exact .insert (List.mem_filter.mpr ⟨hl, by simpa using hlk⟩) (ih hclean)

/-- Passes for all the words inserted take them all out. -/
lemma foldl_removeOnce {L todo : List (List α)} (hL : L ⊆ todo) (htodo : todo ⊆ ks)
    {o d : List α} (hclean : ¬ Contains ks o) (h : Inserted L o d) :
    todo.foldl (fun s k => removeOnce [k] s) d = o := by
  induction todo generalizing L d with
  | nil =>
    obtain rfl := List.subset_nil.mp hL
    exact inserted_nil h
  | cons k todo ih =>
    have hk : k ∈ ks := htodo List.mem_cons_self
    rw [List.foldl_cons]
    refine ih ?_ (fun l hl => htodo (List.mem_cons_of_mem _ hl))
      (inserted_pass hks (fun l hl => htodo (hL hl)) hk hclean h)
    intro l hl
    obtain ⟨hl, hne⟩ := List.mem_filter.mp hl
    exact (List.mem_cons.mp (hL hl)).resolve_left (by simpa using hne)

/-- When one pass leaves no word, removing the words one after another gives the same. -/
theorem removeEach_of_clean {d : List α} (h : ¬ Contains ks (removeOnce ks d)) :
    removeEach ks d = removeOnce ks d :=
  foldl_removeOnce hks (List.Subset.refl ks) (List.Subset.refl ks) h (inserted_removeOnce hks d)

/-! ### Interrupted words -/

/-- A letter that a pass keeps stands in the text, with no word at it. -/
lemma exists_kept {d u w : List α} {a : α} (h : removeOnce ks d = u ++ a :: w) :
    ∃ d₁ d₂, d = d₁ ++ a :: d₂ ∧ removeOnce ks d₂ = w ∧ Inserted ks u d₁ ∧
      ∀ k ∈ ks, ¬ k <+: a :: d₂ := by
  induction hn : d.length using Nat.strong_induction_on generalizing d u with
  | _ n ih =>
    cases d with
    | nil => simp at h
    | cons b d =>
      by_cases hword : ∃ k ∈ ks, k <+: b :: d
      · obtain ⟨k, hk, s, hs⟩ := hword
        have hlen : s.length < n := by
          have hpos := List.length_pos_iff.mpr (hks.ne_nil hk)
          have hsum := congrArg List.length hs
          rw [List.length_append] at hsum
          omega
        rw [← hs, removeOnce_word hks hk] at h
        obtain ⟨d₁, d₂, hd, hw, hin, hno⟩ := ih s.length hlen h rfl
        exact ⟨k ++ d₁, d₂, by rw [← hs, hd, List.append_assoc], hw, .insert hk hin, hno⟩
      · have hall : ∀ k ∈ ks, ¬ k <+: b :: d := fun k hk hp => hword ⟨k, hk, hp⟩
        rw [removeOnce_keep hall] at h
        cases u with
        | nil =>
          obtain ⟨rfl, rfl⟩ := List.cons.inj h
          exact ⟨[], d, rfl, rfl, .nil, hall⟩
        | cons b' u =>
          obtain ⟨rfl, hrest⟩ := List.cons.inj h
          obtain ⟨d₁, d₂, hd, hw, hin, hno⟩ :=
            ih d.length (by rw [← hn]; exact Nat.lt_succ_self _) hrest rfl
          exact ⟨b :: d₁, d₂, by rw [hd, List.cons_append], hw, .keep b hin, hno⟩

/-- A pass over letters with words inserted, none of which starts a word, leaves the letters. -/
lemma removeOnce_inserted {o m : List α} (h : Inserted ks o m) (hlt : lt ∉ o) (t : List α) :
    removeOnce ks (m ++ t) = o ++ removeOnce ks t := by
  induction h with
  | nil => rfl
  | keep a h ih =>
    rw [List.mem_cons, not_or] at hlt
    rw [List.cons_append, removeOnce_keep (hks.not_prefix (Ne.symm hlt.1)), ih hlt.2,
      List.cons_append]
  | insert hk h ih => rw [List.append_assoc, removeOnce_word hks hk, ih hlt]

/-- **One pass leaves a word exactly when one was interrupted.** -/
theorem contains_removeOnce_iff (d : List α) :
    Contains ks (removeOnce ks d) ↔ Interrupted ks d := by
  constructor
  · rintro ⟨k, hk, u, v, huv⟩
    obtain ⟨body, rfl, hlt, hbody⟩ := hks.shape k hk
    obtain ⟨inner, z, rfl⟩ := List.eq_nil_or_concat' body |>.resolve_left hbody
    have h : removeOnce ks d = u ++ lt :: (inner ++ z :: v) := by rw [← huv]; simp
    obtain ⟨d₁, d₂, rfl, hd₂, _, hno⟩ := exists_kept hks h
    obtain ⟨m, d₃, rfl, _, hin, _⟩ := exists_kept hks hd₂
    refine ⟨lt, inner, z, m, hk, hin, fun heq => ?_, d₁, d₃, by simp⟩
    -- nothing inserted means that the word was there all along
    exact hno _ hk ⟨d₃, by rw [heq]; simp⟩
  · rintro ⟨a, inner, z, m, hk, hin, hne, u, v, huv⟩
    obtain ⟨body, heq, hlt, _⟩ := hks.shape _ hk
    rw [List.cons_append] at heq
    obtain ⟨rfl, rfl⟩ := List.cons.inj heq
    rw [List.mem_append, List.mem_singleton, not_or] at hlt
    have hno : ∀ k ∈ ks, ¬ k <+: a :: (m ++ z :: v) := by
      intro k' hk' hp
      obtain ⟨body', rfl, hlt', _⟩ := hks.shape k' hk'
      obtain ⟨_, hp⟩ := List.cons_prefix_cons.mp hp
      have hshort := prefix_of_interrupted hks (List.Subset.refl _) hin hne hp hlt'
      have hlong : a :: body' <+: a :: (inner ++ [z]) :=
        List.cons_prefix_cons.mpr ⟨rfl, hshort.trans (List.prefix_append _ _)⟩
      have hsame := hks.prefix_free _ hk' _ hk hlong
      have hlen := congrArg List.length hsame
      have hle := hshort.length_le
      simp only [List.length_cons, List.length_append, List.length_nil] at hlen
      omega
    have hd : d = u ++ a :: (m ++ z :: v) := by rw [← huv]; simp
    refine ⟨_, hk, removeOnce ks u, removeOnce ks v, ?_⟩
    rw [hd, removeOnce_append_lt hks, removeOnce_keep hno, removeOnce_inserted hks hin hlt.1,
      removeOnce_keep (hks.not_prefix (Ne.symm hlt.2))]
    simp

/-- **The two removals agree and leave no word exactly when no word is interrupted.** -/
theorem removeEach_eq_iff (d : List α) :
    (removeOnce ks d = removeEach ks d ∧ ¬ Contains ks (removeOnce ks d)) ↔ ¬ Interrupted ks d := by
  rw [contains_removeOnce_iff hks]
  constructor
  · exact fun h => h.2
  · intro h
    refine ⟨(removeEach_of_clean hks ?_).symm, h⟩
    rwa [contains_removeOnce_iff hks]

end Pass

end Strip
