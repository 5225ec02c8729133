import OsProjects.Smash.CommandLine

/-! # The arguments of a command

What the constructor of a command stores in its array, and which word it finds first.  The array has
room for the `NULL` behind the last word only if there are fewer than `COMMAND_MAX_ARGS` words
(`stores_bounded`, `commandArgs_eq`).  The word that `CreateCommand` compares is cut off the line in
another way; `createCommand_firstWord` compares the two. -/

namespace OsProjects.Smash.CommandLine

variable {line cmd s u : Text} {ss : List Text} {i : ℕ}

/-! ### The stores -/

theorem mem_stores {p : ℕ × Option Text} (h : p ∈ stores i ss) : p.1 ≤ i + ss.length := by
  induction ss generalizing i with
  | nil => cases h
  | cons s ss ih =>
      rw [stores, List.mem_cons, List.mem_cons] at h
      rw [List.length_cons]
      obtain rfl | rfl | h := h
      · exact Nat.le_add_right _ _
      · simp only
        omega
      · have := ih h
        omega

/-- The `NULL` behind the last word. -/
theorem last_mem_stores (h : ss ≠ []) : (i + ss.length, none) ∈ stores i ss := by
  induction ss generalizing i with
  | nil => exact absurd rfl h
  | cons s ss ih =>
      rw [stores, List.mem_cons, List.mem_cons]
      by_cases hss : ss = []
      · subst hss
        exact .inr (.inl rfl)
      · have := ih (i := i + 1) hss
        rw [List.length_cons, show i + (ss.length + 1) = i + 1 + ss.length by omega]
        exact .inr (.inr this)

/-- **The indices** that are stored to are in bounds exactly if there is room for a `NULL` behind
the words. -/
theorem stores_bounded {n : ℕ} (hn : 0 < n) :
    (∀ p ∈ stores 0 ss, p.1 < n) ↔ ss.length < n := by
  constructor
  · intro h
    by_cases hss : ss = []
    · rwa [hss]
    · have := h _ (last_mem_stores (i := 0) hss)
      simpa using this
  · intro h p hp
    have := mem_stores hp
    omega

/-- With room, the words are in the array, in their order. -/
theorem foldlM_stores (pre slots : List (Option Text)) (h : ss.length < slots.length) :
    ∃ rest, (stores pre.length ss).foldlM store (pre ++ slots) =
      some (pre ++ ss.map some ++ rest) := by
  induction ss generalizing pre slots with
  | nil => exact ⟨slots, by simp [stores]⟩
  | cons s ss ih =>
      obtain ⟨x, y, slots, rfl⟩ : ∃ x y l, slots = x :: y :: l := by
        match slots with
        | x :: y :: l => exact ⟨x, y, l, rfl⟩
        | [x] => simp at h
        | [] => simp at h
      obtain ⟨rest, hrest⟩ := ih (pre ++ [some s]) (none :: slots) (by simpa using h)
      refine ⟨rest, ?_⟩
      have h₁ : store (pre ++ x :: y :: slots) (pre.length, some s) =
          some (pre ++ [some s] ++ y :: slots) := by
        simp [store]
      have h₂ : store (pre ++ [some s] ++ y :: slots) (pre.length + 1, none) =
          some (pre ++ [some s] ++ none :: slots) := by
        simp [store]
      rw [stores, List.foldlM_cons, h₁, Option.bind_eq_bind, Option.bind_some, List.foldlM_cons, h₂,
        Option.bind_eq_bind, Option.bind_some]
      simpa using hrest

/-- Without room, a store is out of bounds. -/
theorem foldlM_stores_none {args : List (Option Text)} (hss : ss ≠ [])
    (h : args.length ≤ i + ss.length) : (stores i ss).foldlM store args = none := by
  induction ss generalizing i args with
  | nil => exact absurd rfl hss
  | cons s ss ih =>
      rw [stores, List.foldlM_cons]
      by_cases hi : i < args.length
      · rw [store, if_pos hi, Option.bind_eq_bind, Option.bind_some, List.foldlM_cons]
        by_cases hi' : i + 1 < args.length
        · rw [store, List.length_set, if_pos hi', Option.bind_eq_bind, Option.bind_some]
          rw [List.length_cons] at h
          apply ih
          · rintro rfl
            simp at h
            omega
          · rw [List.length_set, List.length_set]
            omega
        · rw [store, List.length_set, if_neg hi']
          rfl
      · rw [store, if_neg hi]
        rfl

/-- What the words of a command are taken from: the first characters of the line, without the
background sign. -/
def argLine (line : Text) : Text :=
  (removeBackgroundSign (line.take COMMAND_MAX_LENGTH)).getD []

/-- Its words. -/
def argWords (line : Text) : List Text := words isSpace (argLine line)

theorem trim_eq (s : Text) : trim s = trimBy isSpace s := rfl

theorem parseCommandLine_eq (cmd : Text) :
    parseCommandLine cmd = ((words isSpace cmd).length, stores 0 (words isSpace cmd)) := by
  rw [parseCommandLine, trim_eq, words_trimBy]

/-- The arguments are the words. -/
theorem commandArgs_eq (h : removeBackgroundSign (line.take COMMAND_MAX_LENGTH) = some cmd) :
    commandArgs line =
      if (words isSpace cmd).length < COMMAND_MAX_ARGS then some (words isSpace cmd) else none := by
  rw [commandArgs, h, Option.bind_eq_bind, Option.bind_some, parseCommandLine_eq]
  simp only
  split
  next hlt =>
    have hroom : (words isSpace cmd).length <
        (List.replicate COMMAND_MAX_ARGS (none : Option Text)).length := by simpa using hlt
    obtain ⟨rest, hrest⟩ := foldlM_stores [] _ hroom
    rw [List.nil_append, List.length_nil] at hrest
    rw [hrest, Option.bind_eq_bind, Option.bind_some, List.nil_append,
      List.take_left' (by rw [List.length_map]), List.mapM_map]
    simpa using List.mapM_pure (m := Option) (l := words isSpace cmd) (f := id)
  next hge =>
    rw [foldlM_stores_none, Option.bind_eq_bind, Option.bind_none]
    · rintro h
      rw [h] at hge
      exact hge (by decide)
    · rw [List.length_replicate]
      omega

/-- **When the array is not overrun**: if there are at most 19 words. -/
theorem parseCommandLine_bounded (line : Text) :
    (∀ cmd, removeBackgroundSign (line.take COMMAND_MAX_LENGTH) = some cmd →
      ∀ p ∈ (parseCommandLine cmd).2, p.1 < COMMAND_MAX_ARGS) ↔ (argWords line).length ≤ 19 := by
  rw [argWords, argLine]
  cases removeBackgroundSign (line.take COMMAND_MAX_LENGTH) with
  | none => simp
  | some cmd =>
      simp only [Option.some.injEq, forall_eq', Option.getD_some, parseCommandLine_eq]
      rw [stores_bounded (by decide), COMMAND_MAX_ARGS]
      omega

/-- A line of twenty words. -/
def twentyWords : Text := List.flatten (List.replicate 20 ['a', ' '])

/-- The `NULL` behind the last of them is stored behind the array. -/
theorem parseCommandLine_overrun :
    removeBackgroundSign (twentyWords.take COMMAND_MAX_LENGTH) = some twentyWords ∧
      (argWords twentyWords).length = COMMAND_MAX_ARGS ∧
      (COMMAND_MAX_ARGS, none) ∈ (parseCommandLine twentyWords).2 := by
  decide

/-! ### The first word -/

/-- The line as its words are taken from it, when the sign is taken off its trimmed text. -/
def signless (u : Text) : Text := if u.getLast? = some '&' then u.dropLast else u

/-- The words of a short line are those of its trimmed text without the sign. -/
theorem argWords_eq (hlen : line.length ≤ COMMAND_MAX_LENGTH) (hu : trim line ≠ []) :
    ∃ cmd, removeBackgroundSign (line.take COMMAND_MAX_LENGTH) = some cmd ∧
      words isSpace cmd = words isSpace (signless (trim line)) := by
  obtain ⟨a, b, hline, ha, hb⟩ := trimBy_decompose isSpace line
  rw [← trim_eq] at hline
  rw [List.take_of_length_le hlen]
  generalize hdef : trim line = u at hu hline
  have hlast : ∀ h : a ++ u ≠ [], isSpace ((a ++ u).getLast h) = false := by
    intro h
    rw [List.getLast_append_of_right_ne_nil _ _ hu]
    subst hdef
    exact getLast_trimBy hu
  have hr : rtrim line = a ++ u := by
    rw [rtrim, hline]
    exact rdropWhile_append hlast hb
  have hsome : (a ++ u).getLast? = some (u.getLast hu) := by
    rw [List.getLast?_append_of_ne_nil _ hu, List.getLast?_eq_some_getLast hu]
  rw [removeBackgroundSign, hr, hsome]
  refine ⟨_, rfl, ?_⟩
  simp only [signless, List.getLast?_eq_some_getLast hu, Option.some.injEq]
  split
  · rw [words_append_right (by simp [isSpace, WHITESPACE]), List.dropLast_append_of_ne_nil hu,
      words_append_left ha]
  · rw [hline, words_append_right hb, words_append_left ha]

/-- The command has arguments, and the first of them is the word that was compared. -/
def SameWord (line : Text) : Prop :=
  ∃ cmd args, createCommand line = some cmd ∧ cmd.args = some args ∧
    args.head? = some (firstWord (trim line))

/-- Behind the first word comes a space or a newline, or nothing and then the word does not end with
the background sign. -/
def NameEnds (line : Text) : Prop :=
  (trim line).dropWhile (!isSpace ·) = [] ∧ (trim line).getLast? ≠ some '&' ∨
    ((trim line).dropWhile (!isSpace ·)).head? = some ' ' ∨
    ((trim line).dropWhile (!isSpace ·)).head? = some '\n'

theorem createCommand_simple (hpipe : '|' ∉ line) (hredirection : '>' ∉ line)
    (hu : trim line ≠ []) :
    createCommand line = some (.new (kindOf (firstWord (trim line)) line) line) := by
  rw [createCommand, isSpecialCommand_eq_none.mpr ⟨hpipe, hredirection⟩]
  simp [hu]

/-- With something behind it, the first word is the first argument. -/
theorem head?_words_cons {w r : Text} {c : Char} (hw : w ≠ []) (hword : ∀ x ∈ w, isSpace x = false)
    (hc : isSpace c = true) : (words isSpace (signless (w ++ c :: r))).head? = some w := by
  unfold signless
  split
  next hamp =>
    -- the sign is not the separator
    have hr : r ≠ [] := by
      rintro rfl
      rw [List.getLast?_concat, Option.some.injEq] at hamp
      subst hamp
      exact absurd hc (by decide)
    rw [List.dropLast_append_of_ne_nil (List.cons_ne_nil c r), List.dropLast_cons_of_ne_nil hr,
      words_word_append hword hw hc, List.head?_cons]
  next => rw [words_word_append hword hw hc, List.head?_cons]

/-- Alone, it is if the sign does not belong to it. -/
theorem head?_words_single {w : Text} (hw : w ≠ []) (hword : ∀ x ∈ w, isSpace x = false) :
    (words isSpace (signless w)).head? = some w ↔ w.getLast? ≠ some '&' := by
  unfold signless
  split
  next hamp =>
    refine iff_of_false (fun h => ?_) (not_not.mpr hamp)
    by_cases hnil : w.dropLast = []
    · rw [hnil] at h
      cases h
    · rw [words_word (fun x hx => hword x ((List.dropLast_sublist w).mem hx)) hnil, List.head?_cons,
        Option.some.injEq] at h
      have hlen := congrArg List.length h
      rw [List.length_dropLast] at hlen
      have := List.length_pos_iff.mpr hw
      omega
  next hamp => simp [words_word hword hw, hamp]

/-- The first argument and the word that is compared, for a trimmed line. -/
theorem head?_words_signless (hu : u ≠ []) (hhead : isSpace (u.head hu) = false) :
    (words isSpace (signless u)).head? = some (firstWord u) ↔
      u.dropWhile (!isSpace ·) = [] ∧ u.getLast? ≠ some '&' ∨
        (u.dropWhile (!isSpace ·)).head? = some ' ' ∨
        (u.dropWhile (!isSpace ·)).head? = some '\n' := by
  obtain ⟨w, r, rfl, hw, hword, hr⟩ := exists_word hu hhead
  have hnot : ∀ c ∈ w, (!isSpace c) = true := fun c hc => by rw [hword c hc]; decide
  have hends : ∀ c ∈ w, (c != ' ' && c != '\n') = true := by
    intro c hc
    have := hword c hc
    simp only [isSpace, WHITESPACE] at this
    simp at this
    simp [this]
  rw [List.dropWhile_append_of_pos hnot, firstWord, List.takeWhile_append_of_pos hends]
  cases r with
  | nil =>
      rw [List.append_nil, List.takeWhile_nil, List.append_nil, head?_words_single hw hword]
      simp
  | cons c r =>
      have hc : isSpace c = true := hr c rfl
      rw [head?_words_cons hw hword hc, List.dropWhile_cons_of_neg (by simp [hc]), List.head?_cons,
        Option.some.injEq, List.self_eq_append_right]
      -- the word that is compared goes on unless `c` ends it
      simp only [List.takeWhile_cons]
      by_cases h₁ : c = ' '
      · simp [h₁]
      · by_cases h₂ : c = '\n' <;> simp [h₁, h₂]

/-- **Dispatch and parsing** agree on the name of a command exactly if the line has at most 19
words and its first one ends as `CreateCommand` expects it. -/
theorem createCommand_firstWord (hlen : line.length ≤ COMMAND_MAX_LENGTH) (hpipe : '|' ∉ line)
    (hredirection : '>' ∉ line) (hword : ∃ c ∈ line, isSpace c = false) :
    SameWord line ↔ (argWords line).length ≤ 19 ∧ NameEnds line := by
  have hu : trim line ≠ [] := by
    intro h
    obtain ⟨c, hc, hc'⟩ := hword
    rw [trim_eq, trimBy_eq_nil_iff] at h
    rw [h c hc] at hc'
    cases hc'
  obtain ⟨cmd, hcmd, hwords⟩ := argWords_eq hlen hu
  have hargs : argWords line = words isSpace (signless (trim line)) := by
    rw [argWords, argLine, hcmd, Option.getD_some, hwords]
  rw [NameEnds, ← head?_words_signless hu (head_trimBy hu), hargs, SameWord,
    createCommand_simple hpipe hredirection hu]
  simp only [Option.some.injEq, exists_and_left, exists_eq_left', Command.new]
  rw [commandArgs_eq hcmd, hwords]
  split
  next hlt =>
    have : (words isSpace (signless (trim line))).length ≤ 19 := Nat.le_of_lt_succ hlt
    simp [this]
  next hge =>
    have : ¬(words isSpace (signless (trim line))).length ≤ 19 := fun h => hge (Nat.lt_succ_of_le h)
    simp [this]

theorem createCommand_firstWord_quit : SameWord "quit kill &".toList ↔
    (argWords "quit kill &".toList).length ≤ 19 ∧ NameEnds "quit kill &".toList :=
  createCommand_firstWord (by decide) (by decide) (by decide) ⟨'q', by decide, by decide⟩

/-- With the sign at the word, or with a tab behind it, `quit` is not found. -/
theorem createCommand_quit :
    createCommand "quit&".toList =
        some { kind := .external false, originalCmd := "quit&".toList, background := true,
               args := some ["quit".toList] } ∧
      createCommand "quit\tkill".toList =
        some { kind := .external false, originalCmd := "quit\tkill".toList, background := false,
               args := some ["quit".toList, "kill".toList] } ∧
      ¬SameWord "quit&".toList ∧ ¬SameWord "quit\tkill".toList := by
  have h₁ : createCommand "quit&".toList =
      some { kind := .external false, originalCmd := "quit&".toList, background := true,
             args := some ["quit".toList] } := by decide
  have h₂ : createCommand "quit\tkill".toList =
      some { kind := .external false, originalCmd := "quit\tkill".toList, background := false,
             args := some ["quit".toList, "kill".toList] } := by decide
  refine ⟨h₁, h₂, ?_, ?_⟩
  · rintro ⟨cmd, args, hcmd, hargs, hhead⟩
    rw [h₁] at hcmd
    cases hcmd
    cases hargs
    exact absurd hhead (by decide)
  · rintro ⟨cmd, args, hcmd, hargs, hhead⟩
    rw [h₂] at hcmd
    cases hcmd
    cases hargs
    exact absurd hhead (by decide)

end OsProjects.Smash.CommandLine
