import OsProjects.Smash.CommandLine

/-! # The background sign

`_removeBackgroundSign` on the array of the constructor `Command::Command`, with the indices at
which the array is accessed.  The position of the last character is kept in an `unsigned int` and
compared with the 64-bit `npos`; it leaves the array if the copy of the line is blank.  The `&`
itself becomes a space that stays: the second search looks at the line as it was before
(`removeBackgroundSign_strips_iff`). -/

namespace OsProjects.Smash.CommandLine

variable {line d t : Text} {c : Char}

/-! ### Arrays and positions -/

/-- What `strncpy(cmd, cmd_line, COMMAND_MAX_LENGTH)` copies. -/
def truncated (cmdLine : Text) : Text := (cString cmdLine).take COMMAND_MAX_LENGTH

/-- The array `cmd` behind `strncpy`, which fills it up with NULs. -/
def commandArray (cmdLine : Text) : List Char :=
  truncated cmdLine ++ List.replicate (COMMAND_MAX_LENGTH + 1 - (truncated cmdLine).length) '\x00'

/-- `std::string::npos` -/
def npos : ℕ := 2 ^ 64 - 1

/-- `str.find_last_not_of(WHITESPACE, pos)` -/
def findLastNotOf (str : Text) (pos : ℕ) : ℕ :=
  if rtrim (str.take (pos + 1)) = [] then npos else (rtrim (str.take (pos + 1))).length - 1

/-- `_removeBackgroundSign`: the indices at which `cmd_line` is read or written, in their order,
and the array afterwards, if none of them is out of its bounds.  The first reads are those that make
`str`. -/
def removeBackgroundSignAt (cmdLine : List Char) : List ℕ × Option (List Char) :=
  let str := cString cmdLine
  let reads := List.range (str.length + 1)
  let idx := findLastNotOf str npos % 2 ^ 32
  if idx = npos then (reads, some cmdLine)
  else
    match cmdLine[idx]? with
    | none => (reads ++ [idx], none)
    | some c =>
      if c ≠ '&' then (reads ++ [idx], some cmdLine)
      else
        -- `str` still has the `&`
        let stop := (findLastNotOf str idx + 1) % 2 ^ 64
        (reads ++ [idx, idx, stop],
          if stop < cmdLine.length then some ((cmdLine.set idx ' ').set stop '\x00') else none)

theorem truncated_length_le (line : Text) : (truncated line).length ≤ COMMAND_MAX_LENGTH :=
  List.length_take_le _ _

theorem mem_truncated (h : c ∈ truncated line) : (c != '\x00') = true :=
  List.mem_takeWhile_imp (p := fun c => c != '\x00') (List.mem_of_mem_take h)

theorem cString_append_nul (hd : ∀ c ∈ d, (c != '\x00') = true) (t : Text) :
    cString (d ++ '\x00' :: t) = d := by
  rw [cString, List.takeWhile_append_of_pos hd, List.takeWhile_cons_of_neg (by decide),
    List.append_nil]

/-- The array has a NUL behind the copy. -/
theorem commandArray_eq (line : Text) : ∃ t, commandArray line = truncated line ++ '\x00' :: t := by
  have hle := truncated_length_le line
  refine ⟨List.replicate (COMMAND_MAX_LENGTH - (truncated line).length) '\x00', ?_⟩
  rw [commandArray, Nat.succ_sub hle, List.replicate_succ]

theorem cString_commandArray (line : Text) : cString (commandArray line) = truncated line := by
  obtain ⟨t, ht⟩ := commandArray_eq line
  rw [ht]
  exact cString_append_nul (fun c => mem_truncated) t

theorem commandArray_length (line : Text) : (commandArray line).length = COMMAND_MAX_LENGTH + 1 := by
  have hle := truncated_length_le line
  rw [commandArray, List.length_append, List.length_replicate]
  omega

/-! ### The two searches -/

theorem findLastNotOf_npos (line : Text) : findLastNotOf (truncated line) npos =
    if rtrim (truncated line) = [] then npos else (rtrim (truncated line)).length - 1 := by
  have hle := truncated_length_le line
  have htake : (truncated line).take (npos + 1) = truncated line :=
    List.take_of_length_le (hle.trans (by decide))
  rw [findLastNotOf, htake]

theorem rtrim_prefix (s : Text) : ∃ t, s = rtrim s ++ t :=
  ⟨s.rtakeWhile isSpace, List.rdropWhile_append_rtakeWhile.symm⟩

/-- The second search finds the position of the first one again. -/
theorem findLastNotOf_again {s : Text} (h : rtrim s = d ++ [c]) :
    findLastNotOf s d.length = d.length := by
  obtain ⟨t, ht⟩ := rtrim_prefix s
  have htake : s.take (d.length + 1) = d ++ [c] := by
    rw [ht, h]
    exact List.take_left' (by simp)
  have hr : rtrim (d ++ [c]) = d ++ [c] := by
    rw [← h]
    exact List.rdropWhile_idempotent isSpace s
  rw [findLastNotOf, htake, hr, if_neg (by simp)]
  simp

/-! ### The three cases -/

/-- A blank copy. -/
theorem removeBackgroundSignAt_blank (h : rtrim (truncated line) = []) :
    removeBackgroundSignAt (commandArray line) =
      (List.range ((truncated line).length + 1) ++ [2 ^ 32 - 1], none) := by
  have hidx : findLastNotOf (truncated line) npos % 2 ^ 32 = 2 ^ 32 - 1 := by
    rw [findLastNotOf_npos, if_pos h]
    decide
  have hout : (commandArray line)[2 ^ 32 - 1]? = none :=
    List.getElem?_eq_none (by rw [commandArray_length]; decide)
  rw [removeBackgroundSignAt, cString_commandArray]
  simp only [hidx, hout]
  exact if_neg (by decide)

/-- A copy with the last character `c`. -/
theorem removeBackgroundSignAt_concat (h : rtrim (truncated line) = d ++ [c]) : ∃ t,
    removeBackgroundSignAt (commandArray line) =
      if c ≠ '&' then
        (List.range ((truncated line).length + 1) ++ [d.length], some (commandArray line))
      else (List.range ((truncated line).length + 1) ++ [d.length, d.length, d.length + 1],
        some (d ++ ' ' :: '\x00' :: t)) := by
  obtain ⟨u, hu⟩ := rtrim_prefix (truncated line)
  obtain ⟨v, hv⟩ := commandArray_eq line
  obtain ⟨e, t, het⟩ : ∃ e t, u ++ '\x00' :: v = e :: t := by
    cases u with
    | nil => exact ⟨'\x00', v, rfl⟩
    | cons e u => exact ⟨e, u ++ '\x00' :: v, rfl⟩
  have harray : commandArray line = d ++ c :: e :: t := by
    rw [hv, hu, h, List.append_assoc, het, List.append_assoc]
    rfl
  have hle := truncated_length_le line
  have hlen : d.length + 1 ≤ (truncated line).length := by
    rw [hu, h]
    simp
  simp only [COMMAND_MAX_LENGTH] at hle
  have hidx : findLastNotOf (truncated line) npos % 2 ^ 32 = d.length := by
    rw [findLastNotOf_npos, if_neg (by simp [h]), h, List.length_append, List.length_singleton,
      Nat.add_sub_cancel]
    exact Nat.mod_eq_of_lt (by omega)
  have hne : d.length ≠ npos := by
    have : npos = 2 ^ 64 - 1 := rfl
    omega
  have hget : (commandArray line)[d.length]? = some c := by simp [harray]
  have hstop : (findLastNotOf (truncated line) d.length + 1) % 2 ^ 64 = d.length + 1 := by
    rw [findLastNotOf_again h]
    exact Nat.mod_eq_of_lt (by omega)
  refine ⟨t, ?_⟩
  rw [removeBackgroundSignAt, cString_commandArray]
  simp only [hidx, hget, hstop, if_neg hne]
  congr 1
  rw [if_pos (by rw [commandArray_length, COMMAND_MAX_LENGTH]; omega), harray]
  simp

/-! ### What the constructor gets -/

/-- The string in the array afterwards. -/
def signRemoved (line : Text) : Option Text :=
  (removeBackgroundSignAt (commandArray line)).2.map cString

/-- The string that ends with a space in place of the `&`. -/
theorem signRemoved_concat (h : rtrim (truncated line) = d ++ [c]) :
    signRemoved line = some (if c = '&' then d ++ [' '] else truncated line) := by
  obtain ⟨t, ht⟩ := removeBackgroundSignAt_concat h
  rw [signRemoved, ht]
  by_cases hc : c = '&'
  · obtain ⟨u, hu⟩ := rtrim_prefix (truncated line)
    have hd : ∀ x ∈ d ++ [' '], (x != '\x00') = true := by
      intro x hx
      obtain hx | hx := List.mem_append.mp hx
      · have hx' : x ∈ truncated line := by
          rw [hu, h]
          simp [hx]
        exact mem_truncated hx'
      · rw [List.mem_singleton.mp hx]
        decide
    have hs := cString_append_nul hd t
    rw [List.append_assoc] at hs
    rw [if_neg (not_not.mpr hc), if_pos hc]
    exact congrArg some hs
  · rw [if_pos hc, if_neg hc]
    exact congrArg some (cString_commandArray line)

/-- Every index is at most the length of the copy. -/
def InBounds (line : Text) : Prop :=
  ∀ i ∈ (removeBackgroundSignAt (commandArray line)).1, i ≤ (truncated line).length

theorem inBounds_iff (line : Text) : InBounds line ↔ rtrim (truncated line) ≠ [] := by
  have hle := truncated_length_le line
  simp only [COMMAND_MAX_LENGTH] at hle
  obtain hr | ⟨d, c, hr⟩ := (rtrim (truncated line)).eq_nil_or_concat'
  · refine iff_of_false (fun h => ?_) (not_not.mpr hr)
    rw [InBounds, removeBackgroundSignAt_blank hr] at h
    have := h (2 ^ 32 - 1) (by simp)
    omega
  · refine iff_of_true (fun i hi => ?_) (by simp [hr])
    have hlen : d.length + 1 ≤ (truncated line).length := by
      obtain ⟨u, hu⟩ := rtrim_prefix (truncated line)
      rw [hu, hr]
      simp
    obtain ⟨t, ht⟩ := removeBackgroundSignAt_concat hr
    rw [ht] at hi
    split at hi
    next =>
      simp only [List.mem_append, List.mem_range, List.mem_singleton] at hi
      omega
    next =>
      simp only [List.mem_append, List.mem_range, List.mem_cons, List.not_mem_nil, or_false] at hi
      omega

/-- The copy without the background sign and what follows it, if it has one. -/
def withoutSign (copy : Text) : Text :=
  if (rtrim copy).getLast? = some '&' then (rtrim copy).dropLast else copy

/-- The indices stay inside the string, and only the background sign is lost with what follows
it. -/
structure Strips (line : Text) : Prop where
  bounds : InBounds line
  text : signRemoved line = some (withoutSign (truncated line))

/-- **`_removeBackgroundSign`** stays inside the string unless the copy is blank, and it strips the
copy exactly if there is nothing to strip: in place of an `&` there is a space. -/
theorem removeBackgroundSign_strips_iff (line : Text) :
    (Strips line ↔ ∃ c, (rtrim (truncated line)).getLast? = some c ∧ c ≠ '&') ∧
      (InBounds line ↔ rtrim (truncated line) ≠ []) ∧
      ((rtrim (truncated line)).getLast? = some '&' →
        signRemoved line = some (withoutSign (truncated line) ++ [' '])) := by
  refine ⟨?_, inBounds_iff line, ?_⟩
  · obtain hr | ⟨d, c, hr⟩ := (rtrim (truncated line)).eq_nil_or_concat'
    · refine iff_of_false (fun h => (inBounds_iff line).mp h.bounds hr) ?_
      simp [hr]
    · have hb : InBounds line := (inBounds_iff line).mpr (by simp [hr])
      rw [hr, List.getLast?_concat]
      have htext := signRemoved_concat hr
      constructor
      · rintro ⟨-, h⟩
        refine ⟨c, rfl, fun hc => ?_⟩
        rw [htext, withoutSign, hr, List.getLast?_concat, if_pos hc, if_pos (congrArg some hc),
          List.dropLast_concat] at h
        simp at h
      · rintro ⟨_, hc, hne⟩
        obtain rfl := Option.some.inj hc
        refine ⟨hb, ?_⟩
        rw [htext, withoutSign, hr, List.getLast?_concat, if_neg hne, if_neg (by simpa using hne)]
  · intro h
    obtain ⟨d, hr⟩ := List.getLast?_eq_some_iff.mp h
    rw [signRemoved_concat hr, if_pos rfl, withoutSign, if_pos h, hr, List.dropLast_concat]

/-- A command behind 80 spaces is read at `2 ^ 32 - 1`, and a space stays of the `&`. -/
theorem removeBackgroundSign_leaves :
    (∃ line, (createCommand line).isSome = true ∧
      2 ^ 32 - 1 ∈ (removeBackgroundSignAt (commandArray line)).1 ∧ ¬Strips line) ∧
    ∃ line, (createCommand line).isSome = true ∧ signRemoved line = some "ls ".toList ∧
      withoutSign (truncated line) = "ls".toList ∧ ¬Strips line := by
  have hblank : rtrim (truncated (List.replicate 80 ' ' ++ "ls".toList)) = [] := by decide +kernel
  have hspace : signRemoved "ls&".toList = some "ls ".toList := by decide +kernel
  have hstrip : withoutSign (truncated "ls&".toList) = "ls".toList := by decide +kernel
  refine ⟨⟨_, by decide +kernel, ?_, fun h => (inBounds_iff _).mp h.bounds hblank⟩,
    "ls&".toList, by decide +kernel, hspace, hstrip, fun h => ?_⟩
  · rw [removeBackgroundSignAt_blank hblank]
    exact List.mem_append_right _ (List.mem_singleton_self _)
  · have := h.text
    rw [hspace, hstrip] at this
    exact absurd this (by decide)

end OsProjects.Smash.CommandLine
