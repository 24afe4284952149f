import VibeVoice.Lib.CommandLine

/-!
The command line of a child process on Windows (`vv_spawn.c`).

Arguments are wide strings without their NUL, the conversion to them is a parameter, and every
allocation succeeds.

* `argument_wbArg`: the runtime reads any argument back.
* `programName_wbArg`: it reads the program name back, with the backslashes at its end twice where
  the name is quoted.
* `command_roundtrip_iff`: the arguments come back exactly where this does not happen.
-/

namespace VibeVoice.Spawn

open CommandLine

/-! ### The command line -/

/-- `wcspbrk(a, L" \t\n\v\"")`. -/
def needsQuotes (a : List UInt16) : Bool :=
  a.any fun c => c = space ∨ c = tab ∨ c = 0x0A ∨ c = 0x0B ∨ c = quote

/-- The loop of `wb_arg`, behind `n` backslashes. -/
def escapeFrom : ℕ → List UInt16 → List UInt16
  | n, [] => slashes (n * 2)
  | n, c :: s =>
    if c = backslash then escapeFrom (n + 1) s
    else if c = quote then slashes (n * 2 + 1) ++ quote :: escapeFrom 0 s
    else slashes n ++ c :: escapeFrom 0 s

/-- `wb_arg`. -/
def wbArg (a : List UInt16) : List UInt16 :=
  if a ≠ [] ∧ needsQuotes a = false then a else quote :: (escapeFrom 0 a ++ [quote])

/-- The loop of `vv_spawn_read` over the arguments. -/
def commandLine : List (List UInt16) → List UInt16
  | [] => []
  | name :: args => wbArg name ++ args.flatMap fun a => space :: wbArg a

/-- The command line of `vv_spawn_read`, where it gets as far. -/
def spawnCommand (widen : List UInt8 → Option (List UInt16)) (argv : List (List UInt8)) :
    Option (List UInt16) :=
  match argv with
  | [] => none
  | name :: _ =>
    if name = [] ∨ 0x22 ∈ name then none
    else
      match argv.mapM widen with
      | none => none
      | some wide => if 32767 ≤ (commandLine wide).length then none else some (commandLine wide)

/-! ### Arguments -/

lemma needsQuotes_eq_false {a : List UInt16} :
    needsQuotes a = false ↔ ∀ c ∈ a, ¬IsBlank c ∧ c ≠ 0x0A ∧ c ≠ 0x0B ∧ c ≠ quote := by
  simp only [needsQuotes, List.any_eq_false, decide_eq_true_eq, not_or, IsBlank, and_assoc]

lemma slashes_succ (n : ℕ) (s : List UInt16) :
    slashes (n + 1) ++ s = slashes n ++ backslash :: s := by
  rw [slashes, slashes, List.replicate_succ', List.append_assoc, List.singleton_append]

/-- A bare argument is read to the blank behind it. -/
lemma argument_bare {a : List UInt16} (ha : needsQuotes a = false) {rest : List UInt16}
    (hrest : rest = [] ∨ rest.head? = some space) (n : ℕ) :
    argument n false (a ++ rest) = (slashes n ++ a, rest) := by
  rw [needsQuotes_eq_false] at ha
  induction a generalizing n with
  | nil => rw [List.nil_append, List.append_nil, argument_end n hrest]
  | cons c a ih =>
    have ih := ih fun d hd => ha d (List.mem_cons_of_mem c hd)
    obtain ⟨hblank, -, -, hquote⟩ := ha c List.mem_cons_self
    rw [List.cons_append]
    by_cases hslash : c = backslash
    · rw [hslash, argument_slash, ih, slashes_succ]
    · rw [argument_plain hslash hquote fun _ => hblank, ih, put]
      simp [slashes]

/-- An escaped argument is read to the quote that closes it. -/
lemma argument_escaped (a : List UInt16) {rest : List UInt16}
    (hrest : rest = [] ∨ rest.head? = some space) (n : ℕ) :
    argument 0 true (escapeFrom n a ++ quote :: rest) = (slashes n ++ a, rest) := by
  have hnoquote : rest.head? ≠ some quote := by
    rcases hrest with rfl | hrest
    · exact nofun
    · rw [hrest]
      decide
  induction a generalizing n with
  | nil =>
    have heven : (0 + n * 2) % 2 = 0 := by omega
    have hhalf : (0 + n * 2) / 2 = n := by omega
    rw [escapeFrom, argument_run, argument_quote heven true hnoquote, hhalf]
    change put (slashes n) (argument 0 false rest) = _
    rw [argument_end 0 hrest]
    rfl
  | cons c a ih =>
    rw [escapeFrom]
    split_ifs with hslash hquote
    · rw [ih, hslash, slashes_succ]
    · have hodd : (0 + (n * 2 + 1)) % 2 = 1 := by omega
      have hhalf : (0 + (n * 2 + 1)) / 2 = n := by omega
      rw [List.append_assoc, argument_run, List.cons_append, argument_literal hodd, hhalf, ih,
        hquote]
      simp [put, slashes]
    · have hopen : true = false → ¬IsBlank c := fun h => Bool.noConfusion h
      rw [List.append_assoc, argument_run, List.cons_append, argument_plain hslash hquote hopen, ih,
        Nat.zero_add]
      simp [put, slashes]

/-- The runtime reads an argument back. -/
lemma argument_wbArg (a : List UInt16) {rest : List UInt16}
    (hrest : rest = [] ∨ rest.head? = some space) :
    argument 0 false (wbArg a ++ rest) = (a, rest) := by
  rw [wbArg]
  split_ifs with h
  · exact argument_bare h.2 hrest 0
  · rw [List.cons_append, argument_open, List.append_assoc]
    exact argument_escaped a hrest 0

/-- An argument does not begin with a blank. -/
lemma wbArg_head (a : List UInt16) : ∃ c s, wbArg a = c :: s ∧ ¬IsBlank c := by
  rw [wbArg]
  split_ifs with h
  · obtain ⟨c, s, rfl⟩ := List.exists_cons_of_ne_nil h.1
    exact ⟨c, s, rfl, (needsQuotes_eq_false.mp h.2 c List.mem_cons_self).1⟩
  · exact ⟨quote, _, rfl, by decide⟩

lemma arguments_wbArg (args : List (List UInt16)) :
    arguments (args.flatMap fun a => space :: wbArg a) = args := by
  induction args with
  | nil => exact arguments_nil
  | cons a args ih =>
    have hrest : (args.flatMap fun a => space :: wbArg a) = [] ∨
        (args.flatMap fun a => space :: wbArg a).head? = some space := by
      cases args with
      | nil => exact Or.inl rfl
      | cons b args => exact Or.inr rfl
    have hread := argument_wbArg a hrest
    obtain ⟨c, s, hs, hc⟩ := wbArg_head a
    rw [hs, List.cons_append] at hread
    rw [List.flatMap_cons, List.cons_append, arguments_space, hs, List.cons_append,
      arguments_cons hc, hread, ih]

/-! ### The program name -/

lemma programName_bare {a : List UInt16} (ha : needsQuotes a = false) {rest : List UInt16}
    (hrest : rest = [] ∨ rest.head? = some space) :
    programName false (a ++ rest) = (a, rest.tail) := by
  rw [needsQuotes_eq_false] at ha
  induction a with
  | nil =>
    rcases hrest with rfl | hrest
    · rfl
    · obtain ⟨t, rfl⟩ := List.head?_eq_some_iff.mp hrest
      rfl
  | cons c a ih =>
    obtain ⟨hblank, -, -, hquote⟩ := ha c List.mem_cons_self
    rw [List.cons_append, programName, if_neg hquote, if_neg fun h => hblank h.2,
      ih fun d hd => ha d (List.mem_cons_of_mem c hd)]

lemma programName_quoted {t : List UInt16} (ht : quote ∉ t) {rest : List UInt16}
    (hrest : rest = [] ∨ rest.head? = some space) :
    programName true (t ++ quote :: rest) = (t, rest.tail) := by
  induction t with
  | nil => exact programName_bare (a := []) rfl hrest
  | cons c t ih =>
    have hquote : c ≠ quote := fun h => ht (h ▸ List.mem_cons_self)
    rw [List.cons_append, programName, if_neg hquote, if_neg fun h => Bool.noConfusion h.1,
      ih fun h => ht (List.mem_cons_of_mem c h)]

lemma quote_notMem_escapeFrom {a : List UInt16} (ha : quote ∉ a) (n : ℕ) :
    quote ∉ escapeFrom n a := by
  have hslashes : ∀ m, quote ∉ slashes m := fun m h =>
    absurd (List.eq_of_mem_replicate h) (by decide)
  induction a generalizing n with
  | nil => exact hslashes _
  | cons c a ih =>
    have ih := ih fun h => ha (List.mem_cons_of_mem c h)
    have hquote : c ≠ quote := fun h => ha (h ▸ List.mem_cons_self)
    rw [escapeFrom, if_neg hquote]
    split_ifs
    · exact ih (n + 1)
    · intro h
      rcases List.mem_append.mp h with h | h
      · exact hslashes n h
      · exact (List.mem_cons.mp h).elim (fun h => hquote h.symm) (ih 0)

/-- Only the backslashes at the end of a name are doubled. -/
lemma escapeFrom_eq_iff {a : List UInt16} (ha : quote ∉ a) (n : ℕ) :
    escapeFrom n a = slashes n ++ a ↔ (slashes n ++ a).getLast? ≠ some backslash := by
  induction a generalizing n with
  | nil =>
    cases n with
    | zero => exact iff_of_true rfl (Option.some_ne_none _).symm
    | succ n =>
      rw [List.append_nil]
      refine iff_of_false (fun h => ?_) (not_not_intro ?_)
      · have hlen := congrArg List.length h
        simp only [escapeFrom, slashes, List.length_replicate] at hlen
        omega
      · rw [slashes, List.replicate_succ', List.getLast?_concat]
  | cons c a ih =>
    have ih := ih fun h => ha (List.mem_cons_of_mem c h)
    have hquote : c ≠ quote := fun h => ha (h ▸ List.mem_cons_self)
    rw [escapeFrom, if_neg hquote]
    split_ifs with hslash
    · rw [hslash, ← slashes_succ]
      exact ih (n + 1)
    · have hlast : (slashes n ++ c :: a).getLast? = some backslash ↔
          a.getLast? = some backslash := by
        rw [List.getLast?_append_of_ne_nil _ (List.cons_ne_nil c a)]
        cases a with
        | nil => exact iff_of_false (fun h => hslash (Option.some.inj h)) (Option.some_ne_none _).symm
        | cons d a => rw [List.getLast?_cons_cons]
      rw [List.append_cancel_left_eq, List.cons.injEq, and_iff_right rfl, ne_eq, hlast]
      exact ih 0

/-- A quoted name comes back where no backslash ends it. -/
lemma programName_wbArg {a : List UInt16} (ha : quote ∉ a) {rest : List UInt16}
    (hrest : rest = [] ∨ rest.head? = some space) :
    (programName false (wbArg a ++ rest)).2 = rest.tail ∧
      ((programName false (wbArg a ++ rest)).1 = a ↔
        (needsQuotes a = true → a.getLast? ≠ some backslash)) := by
  rw [wbArg]
  split_ifs with h
  · rw [programName_bare h.2 hrest]
    exact ⟨rfl, iff_of_true rfl fun h' => absurd h' (by rw [h.2]; decide)⟩
  · have hopen : programName false (quote :: (escapeFrom 0 a ++ [quote]) ++ rest) =
        programName true (escapeFrom 0 a ++ quote :: rest) := by
      rw [List.cons_append, List.append_assoc]
      rfl
    rw [hopen, programName_quoted (quote_notMem_escapeFrom ha 0) hrest]
    refine ⟨rfl, (escapeFrom_eq_iff ha 0).trans ?_⟩
    by_cases hnil : a = []
    · rw [hnil]
      exact iff_of_true nofun nofun
    · have hneeds : needsQuotes a = true := by
        by_contra hno
        exact h ⟨hnil, Bool.eq_false_of_not_eq_true hno⟩
      exact ⟨fun hlast _ => hlast, fun hlast => hlast hneeds⟩

/-! ### The whole -/

lemma parse_commandLine {name : List UInt16} (hname : quote ∉ name) (args : List (List UInt16)) :
    parse (commandLine (name :: args)) = name :: args ↔
      (needsQuotes name = true → name.getLast? ≠ some backslash) := by
  have hrest : (args.flatMap fun a => space :: wbArg a) = [] ∨
      (args.flatMap fun a => space :: wbArg a).head? = some space := by
    cases args with
    | nil => exact Or.inl rfl
    | cons b args => exact Or.inr rfl
  obtain ⟨hbehind, hsame⟩ := programName_wbArg hname hrest
  have hargs : arguments (args.flatMap fun a => space :: wbArg a).tail = args := by
    have hread := arguments_wbArg args
    cases args with
    | nil => exact hread
    | cons b args => rwa [List.flatMap_cons, List.cons_append, arguments_space] at hread
  rw [parse, commandLine, hbehind, hargs, List.cons.injEq, and_iff_left rfl]
  exact hsame

/-- The arguments of a child come back, unless its name is put in quotes and ends in a backslash:
the name is read by a rule that does not halve backslashes. -/
theorem command_roundtrip_iff {widen : List UInt8 → Option (List UInt16)}
    (hwiden : ∀ s w, widen s = some w → quote ∈ w → 0x22 ∈ s) {argv : List (List UInt8)}
    {cmd : List UInt16} (hcmd : spawnCommand widen argv = some cmd) :
    ∃ name args, argv.mapM widen = some (name :: args) ∧
      (parse cmd = name :: args ↔
        (needsQuotes name = true → name.getLast? ≠ some backslash)) := by
  cases argv with
  | nil => cases hcmd
  | cons s argv =>
    rw [spawnCommand] at hcmd
    split_ifs at hcmd with hname
    cases hmap : (s :: argv).mapM widen with
    | none =>
      rw [hmap] at hcmd
      cases hcmd
    | some wide =>
      rw [hmap] at hcmd
      rw [List.mapM_cons] at hmap
      obtain ⟨name, hwide, hmap⟩ := Option.bind_eq_some_iff.mp hmap
      obtain ⟨args, -, hmap⟩ := Option.bind_eq_some_iff.mp hmap
      cases hmap
      dsimp only at hcmd
      split_ifs at hcmd
      cases hcmd
      have hquote : quote ∉ name := fun h => hname (Or.inr (hwiden s name hwide h))
      refine ⟨name, args, rfl, ?_⟩
      exact parse_commandLine hquote args

/-- Bytes as characters. -/
def asciiWiden (s : List UInt8) : Option (List UInt16) := some (s.map fun b => b.toUInt16)

lemma asciiWiden_quote (s : List UInt8) (w : List UInt16) (hw : asciiWiden s = some w)
    (hquote : quote ∈ w) : 0x22 ∈ s := by
  cases hw
  obtain ⟨b, hb, hbq⟩ := List.mem_map.mp hquote
  have hval : b.toNat = (0x22 : UInt8).toNat := congrArg UInt16.toNat hbq
  exact UInt8.toNat_inj.mp hval ▸ hb

theorem command_roundtrip_iff_blanks :
    (spawnCommand asciiWiden [[0x6E, 0x70], [0x61, 0x20, 0x5C], []]).map parse =
      [[0x6E, 0x70], [0x61, 0x20, 0x5C], []].mapM asciiWiden := by
  have hcmd : spawnCommand asciiWiden [[0x6E, 0x70], [0x61, 0x20, 0x5C], []] =
      some (commandLine [[0x6E, 0x70], [0x61, 0x20, 0x5C], []]) := by decide +kernel
  obtain ⟨name, args, hwide, hsame⟩ := command_roundtrip_iff asciiWiden_quote hcmd
  cases hwide
  rw [hcmd, Option.map_some, hsame.mpr (by decide)]
  rfl

/-- The blank puts the name in quotes, and its backslash comes back twice. -/
theorem quoted_directory_doubled :
    (spawnCommand asciiWiden [[0x43, 0x3A, 0x5C, 0x61, 0x20, 0x62, 0x5C]]).map parse =
      some [[0x43, 0x3A, 0x5C, 0x61, 0x20, 0x62, 0x5C, 0x5C]] := by
  decide +kernel

end VibeVoice.Spawn
