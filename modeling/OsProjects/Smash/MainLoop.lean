import OsProjects.Smash.PipeLines

/-! # The main loop

What holds of every line and of every run of `main`: the descriptors of the shell are restored, the
programs of a pipeline are wired, no program holds the writing end of a pipe that it or an earlier
one reads, and the loop comes to its end with a `quit` only. -/

namespace OsProjects.Smash.CommandLine

open Descriptors

variable {k : Kernel} {w w' : World} {line : Text} {input : List Text} {fuel : ℕ} {e : Event}

/-! ### Descriptors -/

/-- All descriptors were open when the shell started. -/
def Original (t : Descriptors Channel) : Prop := ∀ fd ch, lookup t fd = some ch →
  ∃ id, ch = .inherited id

theorem start_standard (n : ℕ) : Standard (World.start n).fds := by
  intro fd hfd
  obtain rfl | rfl | rfl : fd = 0 ∨ fd = 1 ∨ fd = 2 := by omega
  · exact ⟨_, rfl⟩
  · exact ⟨_, rfl⟩
  · exact ⟨_, rfl⟩

theorem start_original (n : ℕ) : Original (World.start n).fds := by
  intro fd ch h
  obtain hmem | hmem := List.mem_append.mp (List.mem_of_getElem? (lookup_eq_some.mp h))
  · simp only [List.mem_cons, Option.some.injEq, List.not_mem_nil, or_false] at hmem
    obtain rfl | rfl | rfl := hmem
    · exact ⟨_, rfl⟩
    · exact ⟨_, rfl⟩
    · exact ⟨_, rfl⟩
  · rw [List.mem_replicate] at hmem
    exact absurd hmem.2 (by simp)

/-- A kernel that lets nothing fail but paths that are not absolute. -/
def Kernel.working : Kernel where
  pipes _ := true
  forks _ := true
  opens _ _ _ := true
  execs _ _ := true
  getcwds _ := true
  chdir _ _ path := if path.head? = some '/' then some path else none

theorem working_works : Kernel.working.Works := ⟨fun _ => rfl, fun _ => rfl, fun _ _ _ => rfl,
  fun _ _ => rfl⟩

/-- **When the shell gets its descriptors back** after a line: unless there were just two free ones
for a pipe that was made, or just one for a file that was opened. -/
theorem executeCommand_fds (hlen : line.length < 2 ^ 31) (hstd : Standard w.fds)
    (horig : Original w.fds) (hrun : (executeCommand k line).run w = .ok ((), w')) :
    w'.fds = w.fds ↔ ¬Lost k line w := by
  have hran := (spec_executeCommand hlen hstd).of_ok hrun
  refine ⟨fun he hl => ?_, hran.restores.kept⟩
  -- what stands in the place of a lost descriptor is not inherited
  have hset (fd : ℕ) (hfd : fd ≤ 2) (ch : Channel) (hch : ∀ id, ch ≠ .inherited id)
      (hw' : w'.fds = w.fds.set fd (some ch)) : False := by
    obtain ⟨d, hd⟩ := hstd fd hfd
    have hlook : lookup w.fds fd = some ch := by
      rw [← he, hw', lookup_set, if_pos ⟨rfl, lt_length_of_lookup hd⟩]
    obtain ⟨id, hid⟩ := horig fd ch hlook
    exact hch id hid
  obtain ⟨q, -, hq⟩ | ⟨-, path, append, hp⟩ := hran.restores.lost hl
  · exact hset STDIN (by decide) _ (by simp) hq
  · exact hset STDOUT (by decide) _ (by simp) hp

/-- Two free descriptors are enough for the pipe, but the shell is left without its input. -/
theorem executeCommand_fds_two : ∃ w',
    (executeCommand .working "ls | wc".toList).run (.start 2) = .ok ((), w') ∧
      w'.fds ≠ (World.start 2).fds := by
  have hcheck : (executeCommand .working "ls | wc".toList).check (.start 2) (fun _ _ => true) := by
    decide +kernel
  obtain ⟨_, w', hrun, -⟩ := Prog.exists_of_check hcheck
  refine ⟨w', hrun, fun he => ?_⟩
  have hl : Lost .working "ls | wc".toList (.start 2) := ⟨by decide, by decide⟩
  exact (executeCommand_fds (by decide) (start_standard 2) (start_original 2) hrun).mp he hl

/-- **How a pipeline is wired**: the programs that are started are those of the line, in its order,
each with the pipe behind the one before it as its input; and if nothing fails, all of them are. -/
theorem executeCommand_wiring (hlen : line.length < 2 ^ 31) (hstd : Standard w.fds) :
    (executeCommand k line).Spec w
      (fun _ w' => ∃ evs, w'.events = w.events ++ evs ∧
        (evs.filterMap Event.execution).Sublist (w.wiring line) ∧
        (k.Works → 2 ≤ free w.fds → evs.filterMap Event.execution = w.wiring line))
      fun h => ∃ evs, h.world.events = w.events ++ evs ∧
        (evs.filterMap Event.execution).Sublist (w.wiring line) := by
  refine (spec_executeCommand hlen hstd).mono (fun _ w' hran => ?_) fun h hh => ?_
  · obtain ⟨evs, he, hsub, hx, -⟩ := hran.acts.events
    exact ⟨evs, he, hsub, fun hw hfree => hx ⟨hw, hfree⟩⟩
  · obtain ⟨evs, he, hsub, -⟩ := hh.acts.events
    exact ⟨evs, he, hsub⟩

/-- The three programs of a pipeline, one of them with its errors in the pipe. -/
theorem executeCommand_wiring_three : ∃ w',
    (executeCommand .working "a | b |& c > f".toList).run (.start 3) = .ok ((), w') ∧
      w'.events.filterMap Event.execution =
        [⟨["a".toList], some (.inherited 0), some (.writeEnd 0), some (.inherited 2)⟩,
          ⟨["b".toList], some (.readEnd 0), some (.inherited 1), some (.writeEnd 1)⟩,
          ⟨["c".toList], some (.readEnd 1), some (.file "f".toList false), some (.inherited 2)⟩] := by
  have hcheck : (executeCommand .working "a | b |& c > f".toList).check (.start 3)
      (fun _ _ => true) := by decide +kernel
  obtain ⟨_, w', hrun, -⟩ := Prog.exists_of_check hcheck
  obtain ⟨evs, he, -, hall⟩ := (executeCommand_wiring (by decide) (start_standard 3)).of_ok hrun
  refine ⟨w', hrun, ?_⟩
  rw [he]
  exact (hall working_works (by decide)).trans (by decide)

/-- What a command of a class can make of the working directory and the members of `SmallShell`. -/
structure CoreStep (k : Kernel) (kind : Kind) (c c' : Text × SmallShell) : Prop where
  quit : c'.2.quit = true → c.2.quit = true ∨ kind = .quit
  quits : kind = .quit → c'.2.quit = true
  dir : (c'.1 = c.1 ∧ c'.2.lastPwd = c.2.lastPwd) ∨
    kind = .changeDir ∧ c'.2.lastPwd = c.1 ∧ ∃ n path, k.chdir n c.1 path = some c'.1
  prompt : c'.2.displayPrompt = c.2.displayPrompt ∨ kind = .changePrompt

theorem CoreStep.refl {kind : Kind} (h : kind ≠ .quit) (c : Text × SmallShell) :
    CoreStep k kind c c :=
  ⟨.inl, fun he => absurd he h, .inl ⟨rfl, rfl⟩, .inl rfl⟩

theorem coreStep_executeChangeDir {args : List Text} :
    (executeChangeDir k args).Spec w (fun _ w' => CoreStep k .changeDir w.core w'.core)
      fun _ => True := by
  match args with
  | [] => exact trivial
  | [_] => exact .refl (by simp) _
  | [cd, arg] =>
      rw [executeChangeDir]
      apply Prog.Spec.bind
      apply Prog.spec_gets
      apply Prog.Spec.ite
      · intro _
        exact .refl (by simp) _
      · intro _
        apply Prog.Spec.bind
        rw [sgetcwd]
        apply Prog.Spec.bind
        apply Prog.Spec.ite
        · intro _
          apply Prog.spec_gets
          apply Prog.Spec.bind_ok (run_ask _ _)
          split
          next dir hdir =>
            exact ⟨.inl, (fun he => by cases he), .inr ⟨rfl, rfl, _, _, hdir⟩, .inl rfl⟩
          next => exact .refl (by simp) _
        · intro _
          exact .refl (by simp) _
  | _ :: _ :: _ :: _ => exact .refl (by simp) _

theorem coreStep_executeSimple {kind : Kind} {args : List Text} :
    (executeSimple k kind args).Spec w (fun _ w' => CoreStep k kind w.core w'.core)
      fun _ => True := by
  cases kind with
  | changePrompt => exact ⟨.inl, (fun he => by cases he), .inl ⟨rfl, rfl⟩, .inr rfl⟩
  | changeDir => exact coreStep_executeChangeDir
  | getCurrDir =>
      apply Prog.Spec.bind
      rw [sgetcwd]
      apply Prog.Spec.bind
      apply Prog.Spec.ite
      · intro _
        exact .refl (by simp) _
      · intro _
        exact .refl (by simp) _
  | quit =>
      have hquit : CoreStep k .quit w.core (w.process.cwd, { w.process.smash with quit := true }) :=
        ⟨fun _ => .inr rfl, fun _ => rfl, .inl ⟨rfl, rfl⟩, .inl rfl⟩
      apply Prog.Spec.bind
      apply Prog.spec_gets
      apply Prog.Spec.bind
      apply Prog.spec_modify
      apply Prog.Spec.ite
      · intro _
        exact hquit
      · intro _
        exact hquit
  | external special =>
      apply spec_sfork
      · intro _
        exact trivial
      · intro _
        refine spec_execExternal.mono (fun _ _ _ => .refl (by simp) _) fun h hh =>
          ⟨?_, fun _ => trivial, fun _ => .refl (by simp) _⟩
        rw [hh.reason]
        decide
  | _ => exact .refl (by simp) _

theorem kindOf_eq_quit {word : Text} (h : kindOf word line = .quit) : word = "quit".toList := by
  unfold kindOf at h
  split_ifs at h with h₁ h₂ h₃ h₄ h₅ h₆ h₇ h₈ h₉
  exact h₉

/-- The word that decides what a line makes of the members of the shell. -/
def lastWord (line : Text) : Text := firstWord (trim (lastCommand line))

/-- The last command of a line is a simple one. -/
theorem isSpecialCommand_lastCommand (line : Text) : isSpecialCommand (lastCommand line) = none := by
  induction hn : line.length using Nat.strong_induction_on generalizing line with
  | _ n ih =>
      subst hn
      by_cases hpipe : '|' ∈ line
      · obtain ⟨a, b, rfl, ha⟩ := List.eq_append_cons_of_mem hpipe
        have hb := length_stripSign_le b
        rw [lastCommand_cut ha]
        exact ih _ (by simp; omega) _ rfl
      · rw [lastCommand_single hpipe, isSpecialCommand_eq_none]
        constructor
        · intro hmem
          exact hpipe ((List.takeWhile_sublist _).subset hmem)
        · intro hmem
          exact absurd (List.mem_takeWhile_imp hmem) (by simp)

/-- **What a line makes of the members of the shell**: something if its last command is of the class
for that, and nothing otherwise. -/
theorem executeCommand_core (hlen : line.length < 2 ^ 31) (hstd : Standard w.fds)
    (hrun : (executeCommand k line).run w = .ok ((), w')) :
    (∃ kind, CoreStep k kind w.core w'.core ∧
      (kind = .quit → lastWord line = "quit".toList) ∧
      (k.Works ∧ 2 ≤ free w.fds → lastWord line = "quit".toList → kind = .quit)) := by
  have hran := (spec_executeCommand hlen hstd).of_ok hrun
  obtain ⟨hx, hcore⟩ | ⟨w₁, w₂, hlast, h₁, h₂⟩ := hran.affects
  · exact ⟨.showPid, hcore ▸ .refl (by simp) _, by simp, fun h => absurd h hx⟩
  · have hs := isSpecialCommand_lastCommand line
    cases hcmd : createCommand (lastCommand line) with
    | none =>
        have hcreate : (create (lastCommand line)).run w₁ = .ok (none, w₁) := by
          rw [create, hcmd]
          rfl
        rw [executeCommand, Prog.run_bind_ok hcreate] at hlast
        obtain rfl : w₁ = w₂ := congrArg Prod.snd (Except.ok.inj hlast)
        refine ⟨.showPid, h₂ ▸ h₁ ▸ .refl (by simp) _, by simp, fun _ hword => ?_⟩
        have hnil : trim (lastCommand line) = [] := by
          have hb := createCommand_eq_none.mp hcmd
          rw [Blank, ← trimBy_eq_nil_iff] at hb
          exact hb
        rw [lastWord, hnil] at hword
        cases hword
    | some cmd =>
        cases hargs : cmd.args with
        | none =>
            have hcreate : (create (lastCommand line)).run w₁ = .error ⟨.undefined, w₁⟩ := by
              rw [create, hcmd]
              simp [hargs, halt, Prog.run]
            obtain ⟨_, _, hok, -⟩ := Prog.run_bind_eq_ok.mp hlast
            rw [hcreate] at hok
            cases hok
        | some args =>
            rw [run_executeCommand_simple hs hcmd hargs] at hlast
            have hstep := coreStep_executeSimple.of_ok hlast
            rw [h₁, h₂] at hstep
            have hkind : cmd.kind = kindOf (lastWord line) (lastCommand line) := by
              rw [createCommand, hs] at hcmd
              simp only at hcmd
              split at hcmd
              · cases hcmd
              · rw [← Option.some.inj hcmd]
                rfl
            refine ⟨cmd.kind, hstep, fun h => kindOf_eq_quit (hkind ▸ h), fun _ hword => ?_⟩
            rw [hkind, hword]
            rfl

/-! ### Runs of the loop -/

theorem cString_length_lt (hlen : line.length < 2 ^ 31) : (cString line).length < 2 ^ 31 :=
  (List.takeWhile_sublist _).length_le.trans_lt hlen

/-- The line that comes next, or the empty one behind the end of the input. -/
theorem head_length_lt (hlen : ∀ line ∈ input, line.length < 2 ^ 31) :
    (cString (input.head?.getD [])).length < 2 ^ 31 := by
  apply cString_length_lt
  cases input with
  | nil => simp
  | cons line input => exact hlen line (by simp)

/-- A turn of the loop. -/
theorem run_mainLoop_succ (hquit : w.process.smash.quit = false) :
    (mainLoop k (fuel + 1) input).run w =
      (executeCommand k (cString (input.head?.getD [])) >>= fun _ => mainLoop k fuel input.tail).run
        (w.log (.prompt (w.process.smash.displayPrompt ++ "> ".toList))) := by
  rw [mainLoop, Prog.run_bind_ok (Prog.run_gets _ _), hquit]
  rfl

theorem run_mainLoop_quit (hquit : w.process.smash.quit = true) :
    (mainLoop k (fuel + 1) input).run w = .ok ((), w) := by
  rw [mainLoop, Prog.run_bind_ok (Prog.run_gets _ _), hquit]
  rfl

/-- **Invariants of the loop**: what every line keeps holds at every prompt and when the loop has
returned, and what follows from it even if a line ends the shell. -/
theorem mainLoop_invariant (I J : World → Prop) (hlen : ∀ line ∈ input, line.length < 2 ^ 31)
    (hIJ : ∀ w, I w → J w) (hlog : ∀ w text, I w → I (w.log (.prompt text)))
    (hstep : ∀ w line, line.length < 2 ^ 31 → I w → (executeCommand k line).Spec w
      (fun _ w' => I w') fun h => h.reason ≠ .fuel ∧ J h.world) (hI : I w) :
    (mainLoop k fuel input).Spec w (fun _ w' => I w')
      fun h => J h.world ∧ (h.reason = .fuel → I h.world) := by
  induction fuel generalizing w input with
  | zero => exact ⟨hIJ w hI, fun _ => hI⟩
  | succ fuel ih =>
      cases hquit : w.process.smash.quit with
      | true =>
          rw [Prog.Spec, run_mainLoop_quit hquit]
          exact hI
      | false =>
          rw [Prog.Spec, run_mainLoop_succ hquit]
          apply Prog.Spec.bind
          refine (hstep _ _ (head_length_lt hlen) (hlog w _ hI)).mono (fun _ w' h => ?_) fun h hh => ?_
          · exact ih (fun line hl => hlen line (List.mem_of_mem_tail hl)) h
          · exact ⟨hh.2, fun hf => absurd hf hh.1⟩

/-- A program holds the writing ends of one pipe at most, and reads older ones only. -/
def Event.Tidy : Event → Prop
  | .exec _ fds _ => ∃ p, ∀ fd q,
      (lookup fds fd = some (.writeEnd q) → q = p) ∧ (lookup fds fd = some (.readEnd q) → q < p)
  | _ => True

theorem Event.Sees.tidy {t : Descriptors Channel} {n : ℕ} (h : e.Sees t n) (ht : Original t) :
    e.Tidy := by
  cases e with
  | exec argv fds cwd =>
      obtain ⟨p, -, h⟩ := h
      refine ⟨p, fun fd q => ⟨fun hw => ?_, fun hr => ?_⟩⟩
      · obtain ⟨fd', hold⟩ | ⟨_, _, hfile⟩ | ⟨q', -, -, he⟩ | he := h fd _ hw
        · obtain ⟨id, hid⟩ := ht fd' _ hold
          cases hid
        · cases hfile
        · cases he
        · exact Channel.writeEnd.inj he
      · obtain ⟨fd', hold⟩ | ⟨_, _, hfile⟩ | ⟨q', -, hq, he⟩ | he := h fd _ hr
        · obtain ⟨id, hid⟩ := ht fd' _ hold
          cases hid
        · cases hfile
        · rwa [Channel.readEnd.inj he]
        · cases he
  | _ => trivial

/-- **Descriptors over a whole run**: with three free descriptors the shell has the same ones at
every prompt, and no program that it ever starts holds the writing end of a pipe that it reads, or
of more than one pipe. -/
theorem mainLoop_descriptors (hlen : ∀ line ∈ input, line.length < 2 ^ 31) (hstd : Standard w.fds)
    (horig : Original w.fds) (hfree : 3 ≤ free w.fds) (htidy : ∀ e ∈ w.events, e.Tidy) :
    (mainLoop k fuel input).Spec w
      (fun _ w' => w'.fds = w.fds ∧ ∀ e ∈ w'.events, e.Tidy)
      fun h => (∀ e ∈ h.world.events, e.Tidy) ∧ (h.reason = .fuel → h.world.fds = w.fds) := by
  have hspec : (mainLoop k fuel input).Spec w _ _ := mainLoop_invariant
    (fun w' => w'.fds = w.fds ∧ ∀ e ∈ w'.events, e.Tidy) (fun w' => ∀ e ∈ w'.events, e.Tidy) hlen
    (fun _ h => h.2) ?_ ?_ ⟨rfl, htidy⟩
  · exact hspec.mono (fun _ _ h => h) fun h hh => ⟨hh.1, fun hf => (hh.2 hf).1⟩
  · rintro w' text ⟨hfds, hev⟩
    refine ⟨hfds, fun e he => ?_⟩
    obtain he | he := List.mem_append.mp he
    · exact hev e he
    · obtain rfl := List.mem_singleton.mp he
      trivial
  · rintro w₁ line hline ⟨hfds, hev⟩
    have hnew {es : List Execution} {exact : Prop} {w₂ : World}
        (h : Acts exact es (Event.Sees w₁.fds w₁.pipes) w₁ w₂) : ∀ e ∈ w₂.events, e.Tidy := by
      obtain ⟨evs, he, -, -, hsees⟩ := h.events
      intro e hmem
      rw [he] at hmem
      obtain hmem | hmem := List.mem_append.mp hmem
      · exact hev e hmem
      · exact (hsees e hmem).tidy (hfds ▸ horig)
    refine (spec_executeCommand hline (hfds ▸ hstd)).mono (fun _ w₂ h => ?_) fun h hh => ?_
    · refine ⟨(h.restores.kept fun hl => ?_).trans hfds, hnew h.acts⟩
      rw [Lost, hfds] at hl
      split at hl
      · omega
      · omega
      · exact hl
    · exact ⟨hh.reason, hnew hh.acts⟩

/-- A run with a pipeline. -/
theorem mainLoop_descriptors_pipe : ∃ w',
    (mainLoop .working 3 ["ls | wc".toList, "quit".toList]).run (.start 3) = .ok ((), w') ∧
      w'.fds = (World.start 3).fds ∧ ∀ e ∈ w'.events, e.Tidy := by
  have hcheck : (mainLoop .working 3 ["ls | wc".toList, "quit".toList]).check (.start 3)
      (fun _ _ => true) := by decide +kernel
  obtain ⟨_, w', hrun, -⟩ := Prog.exists_of_check hcheck
  exact ⟨w', hrun, (mainLoop_descriptors (by decide) (start_standard 3) (start_original 3) (by decide)
    fun _ he => absurd he List.not_mem_nil).of_ok hrun⟩

/-- **Directories over a whole run**: at every prompt `last_pwd` is empty and the shell is where it
was started, or it is the absolute path of the directory from which `chdir` has led to the current
one. -/
theorem mainLoop_directories (hlen : ∀ line ∈ input, line.length < 2 ^ 31) (hstd : Standard w.fds)
    (hfree : 3 ≤ free w.fds)
    (habs : ∀ n cwd path dir, k.chdir n cwd path = some dir → dir.head? = some '/')
    (hcwd : w.process.cwd.head? = some '/') (hlast : w.process.smash.lastPwd = []) :
    let Inv (w' : World) : Prop := w'.process.cwd.head? = some '/' ∧
      (w'.process.smash.lastPwd = [] ∧ w'.process.cwd = w.process.cwd ∨
        w'.process.smash.lastPwd.head? = some '/' ∧
          ∃ n path, k.chdir n w'.process.smash.lastPwd path = some w'.process.cwd)
    (mainLoop k fuel input).Spec w (fun _ w' => Inv w') fun h => h.reason = .fuel → Inv h.world := by
  intro Inv
  have hspec : (mainLoop k fuel input).Spec w _ _ := mainLoop_invariant
    (fun w' => w'.fds = w.fds ∧ Inv w') (fun _ => True) hlen (fun _ _ => trivial)
    (fun _ _ h => h) ?_ ⟨rfl, hcwd, .inl ⟨hlast, rfl⟩⟩
  · exact hspec.mono (fun _ _ h => h.2) fun h hh hf => (hh.2 hf).2
  · rintro w₁ line hline ⟨hfds, habs₁, hinv⟩
    refine (spec_executeCommand hline (hfds ▸ hstd)).with_run.mono (fun _ w₂ h => ?_)
      fun h hh => ⟨hh.reason, trivial⟩
    have hkept : w₂.fds = w₁.fds := by
      refine h.1.restores.kept fun hl => ?_
      rw [Lost, hfds] at hl
      split at hl
      · omega
      · omega
      · exact hl
    obtain ⟨kind, hstep, -⟩ := executeCommand_core hline (hfds ▸ hstd) h.2
    refine ⟨hkept.trans hfds, ?_⟩
    obtain ⟨hsame, hsame'⟩ | ⟨-, hold, n, path, hdir⟩ := hstep.dir
    · have hs : w₂.process.cwd = w₁.process.cwd := hsame
      have hs' : w₂.process.smash.lastPwd = w₁.process.smash.lastPwd := hsame'
      show w₂.process.cwd.head? = some '/' ∧ _
      rw [hs, hs']
      exact ⟨habs₁, hinv⟩
    · have hs : w₂.process.smash.lastPwd = w₁.process.cwd := hold
      refine ⟨habs n _ path _ hdir, .inr ⟨by rw [hs]; exact habs₁, n, path, ?_⟩⟩
      rw [hs]
      exact hdir

/-- To a directory and back. -/
theorem mainLoop_directories_back : ∃ w',
    (mainLoop .working 4 ["cd /tmp".toList, "cd -".toList, "quit".toList]).run (.start 3) =
      .ok ((), w') ∧ w'.process.cwd.head? = some '/' := by
  have habs : ∀ n cwd path dir, Kernel.working.chdir n cwd path = some dir →
      dir.head? = some '/' := by
    intro n cwd path dir h
    obtain ⟨hhead, hdir⟩ := Option.ite_none_right_eq_some.mp h
    rwa [← Option.some.inj hdir]
  have hcheck : (mainLoop .working 4 ["cd /tmp".toList, "cd -".toList, "quit".toList]).check
      (.start 3) (fun _ _ => true) := by decide +kernel
  obtain ⟨_, w', hrun, -⟩ := Prog.exists_of_check hcheck
  exact ⟨w', hrun, ((mainLoop_directories (by decide) (start_standard 3) (by decide) habs
    (by decide) rfl).of_ok hrun).1⟩

end OsProjects.Smash.CommandLine
