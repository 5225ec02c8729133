import OsProjects.Lib.SizeT
import OsProjects.Smash.CommandLine

/-! # Null commands

`executeCommand` and the recursion through `PipeCommand::execute` and `RedirectionCommand::execute`,
as far as they use the pointers that `CreateCommand` returns.  A run is the sequence of the pointers
a member was accessed through, in the shell and in the children; it ends in a process with the first
access through `NULL`.  Which pointers are `NULL` does not depend on what a constructor does to its
array: the pointer to a command whose arguments do not fit is taken as the others are. -/

namespace OsProjects.Smash.CommandLine

variable {line left right a b : Text} {cmd : Command} {index : ℕ} {twice : Bool} {c : Char}
  {trace : List (Option Command)}

/-! ### The parts of a line -/

/-- `original_cmd.substr(0, sep)`; a negative number is a length beyond every string. -/
def leftPart (line : Text) (sep : ℤ) : Text := if 0 ≤ sep then line.take sep.toNat else line

/-- `original_cmd.substr(sep + 1, …)`, or `sep + 2` after a separator of two characters.  Nothing
comes back from a position behind the end, nor if the sum overflows. -/
def rightPart (line : Text) (sep : ℤ) (twice : Bool) : Option Text :=
  let pos := sep + if twice then 2 else 1
  if 0 ≤ pos ∧ pos < 2 ^ 31 ∧ pos ≤ line.length then some (line.drop pos.toNat) else none

/-! ### Runs -/

/-- The class has an `execute` that calls `CreateCommand`. -/
def Kind.isComposed : Kind → Bool
  | pipe .. => true
  | redirection .. => true
  | _ => false

/-- A run of `cmd->execute()` with the accesses in it. -/
inductive Execute : Command → List (Option Command) → Prop
  | simple {cmd : Command} : cmd.kind.isComposed = false → Execute cmd []
  /-- `pipe` fails, or the right part is not to be had. -/
  | pipeStops {cmd : Command} {sep : ℤ} {ampersand : Bool} : cmd.kind = .pipe sep ampersand →
      Execute cmd []
  /-- `cmd1->background = false` -/
  | pipeLeft {cmd : Command} {sep : ℤ} {ampersand : Bool} {right : Text} :
      cmd.kind = .pipe sep ampersand → rightPart cmd.originalCmd sep ampersand = some right →
      createCommand (leftPart cmd.originalCmd sep) = none → Execute cmd [none]
  /-- `cmd2->background = false` -/
  | pipeRight {cmd cmd1 : Command} {sep : ℤ} {ampersand : Bool} {right : Text} :
      cmd.kind = .pipe sep ampersand → rightPart cmd.originalCmd sep ampersand = some right →
      createCommand (leftPart cmd.originalCmd sep) = some cmd1 → createCommand right = none →
      Execute cmd [some cmd1, none]
  /-- `fork` fails, and only the right command is executed. -/
  | pipeNoFork {cmd cmd1 cmd2 : Command} {sep : ℤ} {ampersand : Bool} {right : Text}
      {trace2 : List (Option Command)} :
      cmd.kind = .pipe sep ampersand → rightPart cmd.originalCmd sep ampersand = some right →
      createCommand (leftPart cmd.originalCmd sep) = some cmd1 →
      createCommand right = some cmd2 → Execute cmd2 trace2 →
      Execute cmd (some cmd1 :: some cmd2 :: some cmd2 :: trace2)
  /-- The child executes `cmd1`, the shell uses it in `sfork` and executes `cmd2`. -/
  | pipe {cmd cmd1 cmd2 : Command} {sep : ℤ} {ampersand : Bool} {right : Text}
      {trace1 trace2 : List (Option Command)} :
      cmd.kind = .pipe sep ampersand → rightPart cmd.originalCmd sep ampersand = some right →
      createCommand (leftPart cmd.originalCmd sep) = some cmd1 →
      createCommand right = some cmd2 → Execute cmd1 trace1 → Execute cmd2 trace2 →
      Execute cmd (some cmd1 :: some cmd2 :: some cmd1 ::
        (some cmd1 :: trace1 ++ some cmd2 :: trace2))
  /-- `cmd->background = false` -/
  | redirectionNull {cmd : Command} {sep : ℤ} {append : Bool} :
      cmd.kind = .redirection sep append →
      createCommand (leftPart cmd.originalCmd sep) = none → Execute cmd [none]
  /-- There is no path, or `open` fails. -/
  | redirectionStops {cmd cmd1 : Command} {sep : ℤ} {append : Bool} :
      cmd.kind = .redirection sep append →
      createCommand (leftPart cmd.originalCmd sep) = some cmd1 → Execute cmd [some cmd1]
  | redirection {cmd cmd1 : Command} {sep : ℤ} {append : Bool} {path : Text}
      {trace1 : List (Option Command)} :
      cmd.kind = .redirection sep append → rightPart cmd.originalCmd sep append = some path →
      createCommand (leftPart cmd.originalCmd sep) = some cmd1 → Execute cmd1 trace1 →
      Execute cmd (some cmd1 :: some cmd1 :: trace1)

/-- A run of `executeCommand`. -/
inductive ExecuteCommand (line : Text) : List (Option Command) → Prop
  | null : createCommand line = none → ExecuteCommand line []
  | execute {cmd : Command} {trace : List (Option Command)} : createCommand line = some cmd →
      Execute cmd trace → ExecuteCommand line (some cmd :: trace)

theorem Execute.exists_trace (cmd : Command) : ∃ trace, Execute cmd trace := by
  cases hkind : cmd.kind with
  | pipe sep ampersand => exact ⟨[], .pipeStops hkind⟩
  | redirection sep append =>
      cases h : createCommand (leftPart cmd.originalCmd sep) with
      | none => exact ⟨_, .redirectionNull hkind h⟩
      | some cmd1 => exact ⟨_, .redirectionStops hkind h⟩
  | _ => exact ⟨[], .simple (by rw [hkind]; rfl)⟩

/-! ### What `CreateCommand` returns -/

/-- There is nothing but whitespace. -/
def Blank (s : Text) : Prop := ∀ c ∈ s, isSpace c = true

/-- Separators are not whitespace. -/
theorem not_blank_of_special (h : isSpecialCommand line ≠ none) : ¬Blank line := by
  intro hb
  apply h
  rw [isSpecialCommand_eq_none]
  constructor
  · intro hc
    exact absurd (hb _ hc) (by decide)
  · intro hc
    exact absurd (hb _ hc) (by decide)

theorem createCommand_eq_none : createCommand line = none ↔ Blank line := by
  cases hs : isSpecialCommand line with
  | some s =>
      have hb : ¬Blank line := not_blank_of_special (by rw [hs]; exact Option.some_ne_none s)
      refine iff_of_false ?_ hb
      rw [createCommand, hs]
      cases s with
      | pipe index ampersand => simp
      | redirection index append => simp
  | none =>
      rw [createCommand, hs, Blank, ← trimBy_eq_nil_iff]
      simp [trim, ltrim, rtrim, trimBy]

theorem createCommand_pipe (h : isSpecialCommand line = some (.pipe index twice)) :
    createCommand line = some (.new (.pipe (toInt index) twice) line) := by
  rw [createCommand, h]

theorem createCommand_redirection (h : isSpecialCommand line = some (.redirection index twice)) :
    createCommand line = some (.new (.redirection (toInt index) twice) line) := by
  rw [createCommand, h]

theorem kindOf_isComposed (word cmdLine : Text) : (kindOf word cmdLine).isComposed = false := by
  unfold kindOf
  split_ifs <;> rfl

/-- The class of a command for a line with a separator. -/
def Special.kind : Special → Kind
  | pipe index ampersand => .pipe (toInt index) ampersand
  | redirection index append => .redirection (toInt index) append

/-- A command knows its line, and its class the separator in it. -/
theorem createCommand_cases (h : createCommand line = some cmd) :
    cmd.originalCmd = line ∧ ((∃ s, isSpecialCommand line = some s ∧ cmd.kind = s.kind) ∨
      isSpecialCommand line = none ∧ cmd.kind.isComposed = false) := by
  rw [createCommand] at h
  split at h
  next hs =>
    obtain rfl := Option.some.inj h
    exact ⟨rfl, .inl ⟨_, hs, rfl⟩⟩
  next hs =>
    obtain rfl := Option.some.inj h
    exact ⟨rfl, .inl ⟨_, hs, rfl⟩⟩
  next hs =>
    simp only at h
    split at h
    · cases h
    · obtain rfl := Option.some.inj h
      exact ⟨rfl, .inr ⟨hs, kindOf_isComposed _ _⟩⟩

theorem createCommand_originalCmd (h : createCommand line = some cmd) : cmd.originalCmd = line :=
  (createCommand_cases h).1

/-- A pipe command is one of a line with this separator. -/
theorem special_of_pipe {sep : ℤ} (h : createCommand line = some cmd)
    (hkind : cmd.kind = .pipe sep twice) :
    ∃ index, isSpecialCommand line = some (.pipe index twice) ∧ toInt index = sep := by
  obtain ⟨-, ⟨s, hs, hk⟩ | ⟨-, hk⟩⟩ := createCommand_cases h
  · rw [hkind] at hk
    cases s with
    | pipe index ampersand =>
        obtain ⟨hsep, rfl⟩ := Kind.pipe.inj hk
        exact ⟨index, hs, hsep.symm⟩
    | redirection index append => cases hk
  · rw [hkind] at hk
    cases hk

theorem special_of_redirection {sep : ℤ} (h : createCommand line = some cmd)
    (hkind : cmd.kind = .redirection sep twice) :
    ∃ index, isSpecialCommand line = some (.redirection index twice) ∧ toInt index = sep := by
  obtain ⟨-, ⟨s, hs, hk⟩ | ⟨-, hk⟩⟩ := createCommand_cases h
  · rw [hkind] at hk
    cases s with
    | pipe index ampersand => cases hk
    | redirection index append =>
        obtain ⟨hsep, rfl⟩ := Kind.redirection.inj hk
        exact ⟨index, hs, hsep.symm⟩
  · rw [hkind] at hk
    cases hk

/-! ### Runs with an access through `NULL` -/

/-- Somewhere a part is cut off that is blank. -/
inductive Broken : Text → Prop
  | left {line right : Text} {index : ℕ} {twice : Bool} :
      isSpecialCommand line = some (.pipe index twice) →
      rightPart line (toInt index) twice = some right →
      Blank (leftPart line (toInt index)) → Broken line
  | right {line right : Text} {index : ℕ} {twice : Bool} :
      isSpecialCommand line = some (.pipe index twice) →
      rightPart line (toInt index) twice = some right → Blank right → Broken line
  | inLeft {line right : Text} {index : ℕ} {twice : Bool} :
      isSpecialCommand line = some (.pipe index twice) →
      rightPart line (toInt index) twice = some right →
      Broken (leftPart line (toInt index)) → Broken line
  | inRight {line right : Text} {index : ℕ} {twice : Bool} :
      isSpecialCommand line = some (.pipe index twice) →
      rightPart line (toInt index) twice = some right → Broken right → Broken line
  | redirection {line : Text} {index : ℕ} {twice : Bool} :
      isSpecialCommand line = some (.redirection index twice) →
      Blank (leftPart line (toInt index)) → Broken line
  | inRedirection {line path : Text} {index : ℕ} {twice : Bool} :
      isSpecialCommand line = some (.redirection index twice) →
      rightPart line (toInt index) twice = some path →
      Broken (leftPart line (toInt index)) → Broken line

theorem Broken.special (h : Broken line) : isSpecialCommand line ≠ none := by
  cases h <;> simp [*]

/-- **A run of a command** accesses `NULL` only if its line is broken. -/
theorem Execute.broken (h : Execute cmd trace) (hcmd : createCommand line = some cmd)
    (hnull : none ∈ trace) : Broken line := by
  obtain rfl := createCommand_originalCmd hcmd
  induction h with
  | simple => cases hnull
  | pipeStops => cases hnull
  | pipeLeft hkind hright hleft =>
      obtain ⟨index, hs, rfl⟩ := special_of_pipe hcmd hkind
      exact .left hs hright (createCommand_eq_none.mp hleft)
  | pipeRight hkind hright _ hnone =>
      obtain ⟨index, hs, rfl⟩ := special_of_pipe hcmd hkind
      exact .right hs hright (createCommand_eq_none.mp hnone)
  | pipeNoFork hkind hright _ hcmd2 _ ih =>
      obtain ⟨index, hs, rfl⟩ := special_of_pipe hcmd hkind
      have he := createCommand_originalCmd hcmd2
      have hnull2 := by simpa using hnull
      exact .inRight hs hright (he ▸ ih hnull2 (he ▸ hcmd2))
  | pipe hkind hright hcmd1 hcmd2 _ _ ih1 ih2 =>
      obtain ⟨index, hs, rfl⟩ := special_of_pipe hcmd hkind
      have he1 := createCommand_originalCmd hcmd1
      have he2 := createCommand_originalCmd hcmd2
      obtain hnull1 | hnull2 := by simpa using hnull
      · exact .inLeft hs hright (he1 ▸ ih1 hnull1 (he1 ▸ hcmd1))
      · exact .inRight hs hright (he2 ▸ ih2 hnull2 (he2 ▸ hcmd2))
  | redirectionNull hkind hleft =>
      obtain ⟨index, hs, rfl⟩ := special_of_redirection hcmd hkind
      exact .redirection hs (createCommand_eq_none.mp hleft)
  | redirectionStops => simp at hnull
  | redirection hkind hpath hcmd1 _ ih =>
      obtain ⟨index, hs, rfl⟩ := special_of_redirection hcmd hkind
      have he := createCommand_originalCmd hcmd1
      have hnull1 := by simpa using hnull
      exact .inRedirection hs hpath (he ▸ ih hnull1 (he ▸ hcmd1))

/-- **A broken line** has a run with an access through `NULL`. -/
theorem Broken.execute (h : Broken line) :
    ∃ cmd trace, createCommand line = some cmd ∧ Execute cmd trace ∧ none ∈ trace := by
  induction h with
  | left hs hright hb =>
      exact ⟨_, _, createCommand_pipe hs, .pipeLeft rfl hright (createCommand_eq_none.mpr hb),
        by simp⟩
  | @right line right index twice hs hright hb =>
      have hnone := createCommand_eq_none.mpr hb
      cases hleft : createCommand (leftPart line (toInt index)) with
      | none => exact ⟨_, _, createCommand_pipe hs, .pipeLeft rfl hright hleft, by simp⟩
      | some cmd1 => exact ⟨_, _, createCommand_pipe hs, .pipeRight rfl hright hleft hnone, by simp⟩
  | @inLeft line right index twice hs hright _ ih =>
      obtain ⟨cmd1, trace1, hleft, h1, hnull⟩ := ih
      cases hcmd2 : createCommand right with
      | none => exact ⟨_, _, createCommand_pipe hs, .pipeRight rfl hright hleft hcmd2, by simp⟩
      | some cmd2 =>
          obtain ⟨trace2, h2⟩ := Execute.exists_trace cmd2
          exact ⟨_, _, createCommand_pipe hs, .pipe rfl hright hleft hcmd2 h1 h2, by simp [hnull]⟩
  | @inRight line right index twice hs hright _ ih =>
      obtain ⟨cmd2, trace2, hcmd2, h2, hnull⟩ := ih
      cases hleft : createCommand (leftPart line (toInt index)) with
      | none => exact ⟨_, _, createCommand_pipe hs, .pipeLeft rfl hright hleft, by simp⟩
      | some cmd1 =>
          exact ⟨_, _, createCommand_pipe hs, .pipeNoFork rfl hright hleft hcmd2 h2, by simp [hnull]⟩
  | redirection hs hb =>
      exact ⟨_, _, createCommand_redirection hs, .redirectionNull rfl (createCommand_eq_none.mpr hb),
        by simp⟩
  | inRedirection hs hpath _ ih =>
      obtain ⟨cmd1, trace1, hleft, h1, hnull⟩ := ih
      exact ⟨_, _, createCommand_redirection hs, .redirection rfl hpath hleft h1, by simp [hnull]⟩

/-- No run of the line accesses a member through `NULL`. -/
def NeverNull (line : Text) : Prop := ∀ trace, ExecuteCommand line trace → none ∉ trace

theorem neverNull_iff : NeverNull line ↔ ¬Broken line := by
  constructor
  · intro h hb
    obtain ⟨cmd, trace, hcmd, hrun, hnull⟩ := hb.execute
    exact h _ (.execute hcmd hrun) (List.mem_cons_of_mem _ hnull)
  · intro hb trace h hnull
    cases h with
    | null => cases hnull
    | execute hcmd hrun => exact hb (hrun.broken hcmd (by simpa using hnull))

/-! ### Lines whose indices fit an `int` -/

/-- The part behind `|&` starts behind the `&`. -/
def stripSign (s : Text) : Text := if s.head? = some '&' then s.tail else s

/-- The parts of a line between its pipes. -/
def parts (line : Text) : List Text :=
  match line.splitOn '|' with
  | [] => []
  | part :: rest => part :: rest.map stripSign

/-- What stands in front of the first `>` of a part. -/
def beforeRedirection (part : Text) : Text := part.takeWhile (· != '>')

/-- A command of the line is blank. -/
def HasBlank (line : Text) : Prop := ∃ part ∈ parts line, Blank (beforeRedirection part)

theorem toInt_of_lt {n : ℕ} (h : n < 2 ^ 31) : toInt n = n := bmod_of_int (by omega) (by omega)

theorem findIdx?_cut (h : c ∉ a) : (a ++ c :: b).findIdx? (· == c) = some a.length := by
  rw [List.findIdx?_append, findIdx?_beq_eq_none.mpr h, List.findIdx?_cons]
  simp

theorem getElem?_cut (a b : Text) (c : Char) : (a ++ c :: b)[a.length + 1]? = b.head? := by
  rw [List.getElem?_append_right (Nat.le_succ _), show a.length + 1 - a.length = 1 by omega,
    List.getElem?_cons_succ, List.head?_eq_getElem?]

theorem isSpecialCommand_pipe (h : '|' ∉ a) :
    isSpecialCommand (a ++ '|' :: b) = some (.pipe a.length (b.head? == some '&')) := by
  rw [isSpecialCommand, findIdx?_cut h]
  simp only
  rw [getElem?_cut]

theorem isSpecialCommand_redirection (hpipe : '|' ∉ a ++ '>' :: b) (h : '>' ∉ a) :
    isSpecialCommand (a ++ '>' :: b) = some (.redirection a.length (b.head? == some '>')) := by
  rw [isSpecialCommand, findIdx?_beq_eq_none.mpr hpipe, findIdx?_cut h]
  simp only
  rw [getElem?_cut]

theorem leftPart_cut (hlen : (a ++ c :: b).length < 2 ^ 31) :
    leftPart (a ++ c :: b) (toInt a.length) = a := by
  rw [List.length_append] at hlen
  rw [toInt_of_lt (by omega), leftPart, if_pos (Int.natCast_nonneg _), Int.toNat_natCast,
    List.take_left]

theorem rightPart_cut {d : Char} (hlen : (a ++ c :: b).length < 2 ^ 31) :
    rightPart (a ++ c :: b) (toInt a.length) (b.head? == some d) =
      some (if b.head? = some d then b.tail else b) := by
  rw [List.length_append, List.length_cons] at hlen
  rw [toInt_of_lt (by omega), rightPart, List.length_append, List.length_cons]
  by_cases hd : b.head? = some d
  · obtain ⟨b, rfl⟩ : ∃ b', b = d :: b' := ⟨b.tail, (List.cons_head?_tail hd).symm⟩
    rw [List.length_cons] at hlen ⊢
    simp only [List.head?_cons, BEq.rfl, if_true, List.tail_cons]
    rw [if_pos (by omega), show ((a.length : ℤ) + 2).toNat = a.length + 2 by omega,
      List.drop_append]
    simp
  · simp only [beq_eq_false_iff_ne.mpr hd, Bool.false_eq_true, if_false, if_neg hd]
    rw [if_pos (by omega), show ((a.length : ℤ) + 1).toNat = a.length + 1 by omega,
      List.drop_append]
    simp

theorem parts_single (h : '|' ∉ line) : parts line = [line] := by
  rw [parts, List.splitOn_eq_singleton h]
  rfl

theorem parts_stripSign (s : Text) : parts (stripSign s) = (s.splitOn '|').map stripSign := by
  unfold stripSign
  split
  next hsign =>
    -- the sign is the first character of the first part
    obtain ⟨s, rfl⟩ : ∃ s', s = '&' :: s' := ⟨s.tail, (List.cons_head?_tail hsign).symm⟩
    obtain ⟨part, rest, hs⟩ := List.exists_cons_of_ne_nil (List.splitOn_ne_nil '|' s)
    rw [List.tail_cons, parts, List.splitOn_cons_eq_if_modifyHead, hs]
    simp [stripSign]
  next hsign =>
    obtain ⟨part, rest, hs⟩ := List.exists_cons_of_ne_nil (List.splitOn_ne_nil '|' s)
    have hpart : part.head? ≠ some '&' := by
      intro hpart
      obtain ⟨part, rfl⟩ : ∃ p, part = '&' :: p := ⟨part.tail, (List.cons_head?_tail hpart).symm⟩
      apply hsign
      have hjoin : ['|'].intercalate (s.splitOn '|') = s := List.intercalate_splitOn '|'
      rw [hs] at hjoin
      rw [← hjoin]
      cases rest <;> simp [List.intercalate]
    rw [parts, hs]
    simp [stripSign, hpart]

theorem parts_cut (h : '|' ∉ a) : parts (a ++ '|' :: b) = a :: parts (stripSign b) := by
  rw [parts_stripSign, parts, List.splitOn_append_cons_self_of_not_mem h]

theorem hasBlank_single (h : '|' ∉ line) : HasBlank line ↔ Blank (beforeRedirection line) := by
  rw [HasBlank, parts_single h]
  simp

theorem hasBlank_cut (h : '|' ∉ a) :
    HasBlank (a ++ '|' :: b) ↔ HasBlank a ∨ HasBlank (stripSign b) := by
  rw [hasBlank_single h, HasBlank, parts_cut h]
  simp [HasBlank]

theorem broken_pipe_iff (hlen : (a ++ '|' :: b).length < 2 ^ 31) (h : '|' ∉ a) :
    Broken (a ++ '|' :: b) ↔
      (Blank a ∨ Broken a) ∨ Blank (stripSign b) ∨ Broken (stripSign b) := by
  have hs := isSpecialCommand_pipe (b := b) h
  have hleft := leftPart_cut hlen
  have hright : rightPart (a ++ '|' :: b) (toInt a.length) (b.head? == some '&') =
      some (stripSign b) := rightPart_cut hlen
  constructor
  · intro hb
    cases hb with
    | left hs' hr' hb =>
        obtain ⟨rfl, rfl⟩ := Special.pipe.inj (Option.some.inj (hs.symm.trans hs'))
        rw [hleft] at hb
        exact .inl (.inl hb)
    | right hs' hr' hb =>
        obtain ⟨rfl, rfl⟩ := Special.pipe.inj (Option.some.inj (hs.symm.trans hs'))
        obtain rfl := Option.some.inj (hright.symm.trans hr')
        exact .inr (.inl hb)
    | inLeft hs' hr' hb =>
        obtain ⟨rfl, rfl⟩ := Special.pipe.inj (Option.some.inj (hs.symm.trans hs'))
        rw [hleft] at hb
        exact .inl (.inr hb)
    | inRight hs' hr' hb =>
        obtain ⟨rfl, rfl⟩ := Special.pipe.inj (Option.some.inj (hs.symm.trans hs'))
        obtain rfl := Option.some.inj (hright.symm.trans hr')
        exact .inr (.inr hb)
    | redirection hs' => cases hs.symm.trans hs'
    | inRedirection hs' => cases hs.symm.trans hs'
  · rintro ((hb | hb) | (hb | hb))
    · exact .left hs hright (hleft.symm ▸ hb)
    · exact .inLeft hs hright (hleft.symm ▸ hb)
    · exact .right hs hright hb
    · exact .inRight hs hright hb

theorem broken_redirection_iff (hlen : (a ++ '>' :: b).length < 2 ^ 31)
    (hpipe : '|' ∉ a ++ '>' :: b) (h : '>' ∉ a) : Broken (a ++ '>' :: b) ↔ Blank a := by
  have hs := isSpecialCommand_redirection hpipe h
  have hleft := leftPart_cut hlen
  have ha : ¬Broken a := fun hb => hb.special (isSpecialCommand_eq_none.mpr
    ⟨fun hc => hpipe (List.mem_append_left _ hc), h⟩)
  constructor
  · intro hb
    cases hb with
    | redirection hs' hb =>
        obtain ⟨rfl, rfl⟩ := Special.redirection.inj (Option.some.inj (hs.symm.trans hs'))
        rwa [hleft] at hb
    | inRedirection hs' hr' hb =>
        obtain ⟨rfl, rfl⟩ := Special.redirection.inj (Option.some.inj (hs.symm.trans hs'))
        rw [hleft] at hb
        exact absurd hb ha
    | left hs' => cases hs.symm.trans hs'
    | right hs' => cases hs.symm.trans hs'
    | inLeft hs' => cases hs.symm.trans hs'
    | inRight hs' => cases hs.symm.trans hs'
  · intro hb
    exact .redirection hs (hleft.symm ▸ hb)

theorem length_stripSign_le (s : Text) : (stripSign s).length ≤ s.length := by
  unfold stripSign
  split
  · rw [List.length_tail]
    exact Nat.sub_le _ _
  · exact le_rfl

/-- **Blank commands**: by induction on the length, a part being shorter than its line. -/
theorem blank_or_broken_iff (hlen : line.length < 2 ^ 31) :
    Blank line ∨ Broken line ↔ HasBlank line := by
  induction hn : line.length using Nat.strong_induction_on generalizing line with
  | _ n ih =>
      subst hn
      by_cases hpipe : '|' ∈ line
      · obtain ⟨a, b, rfl, ha⟩ := List.eq_append_cons_of_mem hpipe
        have hlen' := hlen
        rw [List.length_append, List.length_cons] at hlen'
        have hb := length_stripSign_le b
        have hblank : ¬Blank (a ++ '|' :: b) := fun h => absurd (h _ hpipe) (by decide)
        rw [or_iff_right hblank, broken_pipe_iff hlen ha, hasBlank_cut ha]
        rw [ih a.length (by simp) (by omega) rfl, ih _ (by simp; omega) (by omega) rfl]
      · rw [hasBlank_single hpipe]
        by_cases hredirection : '>' ∈ line
        · obtain ⟨a, b, rfl, ha⟩ := List.eq_append_cons_of_mem hredirection
          have hblank : ¬Blank (a ++ '>' :: b) := fun h => absurd (h _ hredirection) (by decide)
          have hbefore : beforeRedirection (a ++ '>' :: b) = a := by
            have hne : ∀ x ∈ a, (x != '>') = true := fun x hx => bne_iff_ne.mpr fun he => ha (he ▸ hx)
            rw [beforeRedirection, List.takeWhile_append_of_pos hne]
            simp
          rw [or_iff_right hblank, broken_redirection_iff hlen hpipe ha, hbefore]
        · have hbroken : ¬Broken line := fun hb =>
            hb.special (isSpecialCommand_eq_none.mpr ⟨hpipe, hredirection⟩)
          have hbefore : beforeRedirection line = line :=
            List.takeWhile_eq_self_iff.mpr fun x hx =>
              bne_iff_ne.mpr fun he => hredirection (he ▸ hx)
          rw [or_iff_left hbroken, hbefore]

/-- **When no command is `NULL` where it is used**: if nothing blank is cut off the line; as long as
an index fits an `int`, that is a line without separators, or one whose every part has a command in
front of its redirection. -/
theorem executeCommand_neverNull (line : Text) :
    (NeverNull line ↔ ¬Broken line) ∧
      (line.length < 2 ^ 31 → (NeverNull line ↔ '|' ∉ line ∧ '>' ∉ line ∨
        ∀ part ∈ parts line, ∃ c ∈ beforeRedirection part, isSpace c = false)) := by
  refine ⟨neverNull_iff, fun hlen => ?_⟩
  have hparts : (∀ part ∈ parts line, ∃ c ∈ beforeRedirection part, isSpace c = false) ↔
      ¬HasBlank line := by
    simp [HasBlank, Blank]
  rw [neverNull_iff, hparts, ← isSpecialCommand_eq_none, ← blank_or_broken_iff hlen]
  by_cases hs : isSpecialCommand line = none
  · exact iff_of_true (fun hb => hb.special hs) (.inl hs)
  · rw [or_iff_right (not_blank_of_special hs), or_iff_right hs]

/-- A pipe without a left command, and a redirection without a command. -/
theorem executeCommand_null :
    ExecuteCommand "| ls".toList
        [some (.new (.pipe 0 false) "| ls".toList), none] ∧
      ExecuteCommand "> f".toList
        [some (.new (.redirection 0 false) "> f".toList), none] ∧
      ¬NeverNull "| ls".toList ∧ ¬NeverNull "> f".toList := by
  have h₁ : ExecuteCommand "| ls".toList
      [some (.new (.pipe 0 false) "| ls".toList), none] := by
    have hright : rightPart "| ls".toList 0 false = some " ls".toList := by decide
    have hleft : createCommand (leftPart "| ls".toList 0) = none := by decide
    exact .execute (by decide) (.pipeLeft rfl hright hleft)
  have h₂ : ExecuteCommand "> f".toList
      [some (.new (.redirection 0 false) "> f".toList), none] := by
    have hleft : createCommand (leftPart "> f".toList 0) = none := by decide
    exact .execute (by decide) (.redirectionNull rfl hleft)
  exact ⟨h₁, h₂, fun h => h _ h₁ (by simp), fun h => h _ h₂ (by simp)⟩

end OsProjects.Smash.CommandLine
