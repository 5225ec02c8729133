import OsProjects.Smash.Wiring

/-! # What a line does

One statement for `executeCommand`: which programs it starts and what they are wired to, what is
left of the descriptors of the shell, and what becomes of the members of `SmallShell`.  It holds for
every kernel, whatever fails, and also says what a process has done that comes to an end. -/

namespace OsProjects.Smash.CommandLine

open Descriptors

variable {k : Kernel} {w w' w₁ : World} {line a b : Text} {cmd : Command} {fuel n : ℕ}
  {e : Event} {P : Event → Prop} {exact : Prop}

/-! ### Programs and their standard descriptors -/

/-- A program that is started, with its standard descriptors. -/
structure Execution where
  argv : List Text
  stdin : Option Channel
  stdout : Option Channel
  stderr : Option Channel
deriving DecidableEq, Repr

def Event.execution : Event → Option Execution
  | .exec argv fds _ => some ⟨argv, lookup fds STDIN, lookup fds STDOUT, lookup fds STDERR⟩
  | _ => none

/-- The arguments of the program that an external command stands for. -/
def programOf (kind : Kind) (args : List Text) : Option (List Text) :=
  match kind with
  | .external true => some ["/bin/bash".toList, "-c".toList, args.flatMap fun s => s ++ [' ']]
  | .external false => if args.isEmpty then none else some args
  | _ => none

/-- The file that the output of a part goes to. -/
def redirected (part : Text) : Option Channel :=
  match isSpecialCommand part with
  | some (.redirection index append) =>
    (rightPart part (toInt index) append).map fun path => .file (trim path) append
  | _ => none

/-- The program of one part of a line, if there is one. -/
def stage (part : Text) (stdin stdout stderr : Option Channel) : List Execution :=
  match (createCommand (beforeRedirection part)).bind fun cmd => cmd.args.bind (programOf cmd.kind) with
  | some argv => [⟨argv, stdin, (redirected part).or stdout, stderr⟩]
  | none => []

/-- The programs of a line: each one writes to a pipe of its own, which the next one reads.  The
pipes are numbered from `n` on. -/
def wiring (stdout stderr : Option Channel) :
    ℕ → Option Channel → List Text → List Bool → List Execution
  | n, stdin, part :: parts, ampersand :: signs =>
    stage part stdin (if ampersand then stdout else some (.writeEnd n))
        (if ampersand then some (.writeEnd n) else stderr) ++
      wiring stdout stderr (n + 1) (some (.readEnd n)) parts signs
  | _, stdin, [part], [] => stage part stdin stdout stderr
  | _, _, _, _ => []

/-- Which of the pipes of a line carry the standard error. -/
def signs (line : Text) : List Bool := (line.splitOn '|').tail.map fun s => s.head? == some '&'

/-- The wiring of a line in a process. -/
def World.wiring (w : World) (line : Text) : List Execution :=
  CommandLine.wiring (lookup w.fds STDOUT) (lookup w.fds STDERR) w.pipes (lookup w.fds STDIN)
    (parts line) (signs line)

theorem signs_single (h : '|' ∉ line) : signs line = [] := by
  rw [signs, List.splitOn_eq_singleton h]
  rfl

theorem signs_cut (h : '|' ∉ a) :
    signs (a ++ '|' :: b) = (b.head? == some '&') :: signs (stripSign b) := by
  rw [signs, List.splitOn_append_cons_self_of_not_mem h, List.tail_cons, signs]
  cases b with
  | nil => rfl
  | cons c b =>
      obtain ⟨part, rest, hs⟩ := List.exists_cons_of_ne_nil (List.splitOn_ne_nil '|' b)
      rw [List.splitOn_cons_eq_if_modifyHead, hs]
      by_cases hsign : c = '&'
      · subst hsign
        simp [stripSign, hs]
      · have hstrip : stripSign (c :: b) = c :: b := by simp [stripSign, hsign]
        rw [hstrip, List.splitOn_cons_eq_if_modifyHead, hs]
        by_cases hpipe : c = '|'
        · subst hpipe
          simp
        · simp [hpipe]

variable {es es' : List Execution}

/-! ### What is done on the way -/

/-- Everything that is open in a program was open before, is a file, or is the reading end of an
older pipe than the one that it may write to. -/
def Event.Sees (t : Descriptors Channel) (n : ℕ) : Event → Prop
  | .exec _ fds _ => ∃ p, n ≤ p ∧ ∀ fd ch, lookup fds fd = some ch →
      (∃ fd', lookup t fd' = some ch) ∨ (∃ path append, ch = .file path append) ∨
        (∃ q, n ≤ q ∧ q < p ∧ ch = .readEnd q) ∨ ch = .writeEnd p
  | _ => True

/-- Everything that is open in a program was open before, or is a file. -/
def Event.Inherits (t : Descriptors Channel) : Event → Prop
  | .exec _ fds _ => ∀ fd ch, lookup fds fd = some ch →
      (∃ fd', lookup t fd' = some ch) ∨ ∃ path append, ch = .file path append
  | _ => True

/-- The programs started on the way from one world to another are some of `es`, in this order, and
every event satisfies `P`. -/
structure Acts (exact : Prop) (es : List Execution) (P : Event → Prop) (w w' : World) : Prop where
  events : ∃ evs, w'.events = w.events ++ evs ∧ (evs.filterMap Event.execution).Sublist es ∧
    (exact → evs.filterMap Event.execution = es) ∧ ∀ e ∈ evs, P e

/-- Nothing fails. -/
structure Kernel.Works (k : Kernel) : Prop where
  pipes : ∀ n, k.pipes n = true
  forks : ∀ n, k.forks n = true
  opens : ∀ n path append, k.opens n path append = true
  execs : ∀ n argv, k.execs n argv = true

/-- The command of a line that is executed in the shell itself. -/
def lastCommand (line : Text) : Text := beforeRedirection ((parts line).getLast?.getD [])

/-- What becomes of the members of the shell: nothing, or what the last command alone makes of
them. -/
def Affects (k : Kernel) (line : Text) (exact : Prop) (w w' : World) : Prop :=
  (¬exact ∧ w'.core = w.core) ∨ ∃ w₁ w₂, (executeCommand k (lastCommand line)).run w₁ = .ok ((), w₂) ∧
    w₁.core = w.core ∧ w₂.core = w'.core

/-- The descriptors run short just where a copy has to be made of the one that is replaced. -/
def Lost (k : Kernel) (line : Text) (w : World) : Prop :=
  match isSpecialCommand line with
  | some (.pipe _ _) => free w.fds = 2 ∧ k.pipes w.clock = true
  | some (.redirection index append) => free w.fds = 1 ∧
      ∃ path, rightPart line (toInt index) append = some path ∧
        k.opens w.clock (trim path) append = true
  | none => False

/-- What is left of the descriptors of the shell. -/
structure Restores (k : Kernel) (line : Text) (w w' : World) : Prop where
  kept : ¬Lost k line w → w'.fds = w.fds
  lost : Lost k line w → (∃ q, w.pipes ≤ q ∧ w'.fds = w.fds.set STDIN (some (.readEnd q))) ∨
    free w.fds = 1 ∧ ∃ path append, w'.fds = w.fds.set STDOUT (some (.file path append))

/-- A line that can be executed: every command in it has words that fit the array. -/
inductive Sound : Text → Prop
  | simple {line : Text} {cmd : Command} {args : List Text} : isSpecialCommand line = none →
      createCommand line = some cmd → cmd.args = some args → args ≠ [] → Sound line
  | redirection {line : Text} {index : ℕ} {append : Bool} :
      isSpecialCommand line = some (.redirection index append) → (commandArgs line).isSome →
      Sound (leftPart line (toInt index)) → Sound line
  | pipe {line right : Text} {index : ℕ} {ampersand : Bool} :
      isSpecialCommand line = some (.pipe index ampersand) → (commandArgs line).isSome →
      rightPart line (toInt index) ampersand = some right →
      Sound (leftPart line (toInt index)) → Sound right → Sound line

/-! ### Composing -/

theorem Acts.refl (he : w'.events = w.events) (hes : exact → es = []) : Acts exact es P w w' where
  events := ⟨[], by rw [he, List.append_nil], List.nil_sublist _, fun hx => (hes hx).symm, by simp⟩

/-- An event that starts no program. -/
theorem Acts.log (he : w'.events = w.events ++ [e]) (hes : exact → es = [])
    (hnone : e.execution = none) (h : P e) : Acts exact es P w w' where
  events := by
    refine ⟨[e], he, ?_, fun hx => ?_, by simpa using h⟩
    · simp [hnone]
    · simp [hnone, hes hx]

theorem Acts.trans (h : Acts exact es P w w₁) (h' : Acts exact es' P w₁ w') :
    Acts exact (es ++ es') P w w' := by
  obtain ⟨⟨evs, he, hsub, hx, hP⟩⟩ := h
  obtain ⟨⟨evs', he', hsub', hx', hP'⟩⟩ := h'
  refine ⟨⟨evs ++ evs', by rw [he', he, List.append_assoc], ?_, fun hex => ?_, ?_⟩⟩
  · rw [List.filterMap_append]
    exact hsub.append hsub'
  · rw [List.filterMap_append, hx hex, hx' hex]
  · intro e hmem
    exact (List.mem_append.mp hmem).elim (hP e) (hP' e)

theorem Acts.mono {exact' : Prop} {P' : Event → Prop} (h : Acts exact es P w w')
    (hx : exact' → exact) (hP : ∀ e, P e → P' e) : Acts exact' es P' w w' := by
  obtain ⟨⟨evs, he, hsub, hex, hPs⟩⟩ := h
  exact ⟨⟨evs, he, hsub, fun h => hex (hx h), fun e hmem => hP e (hPs e hmem)⟩⟩

/-- Only the events matter. -/
theorem Acts.from (h : Acts exact es P w₁ w') (w : World) (he : w₁.events = w.events) :
    Acts exact es P w w' := by
  have hrefl : Acts exact [] P w w₁ := .refl he fun _ => rfl
  simpa using hrefl.trans h

theorem Acts.to (h : Acts exact es P w w₁) (w' : World) (he : w'.events = w₁.events) :
    Acts exact es P w w' := by
  have hrefl : Acts exact [] P w₁ w' := .refl he fun _ => rfl
  simpa using h.trans hrefl

/-! ### Commands without others in them -/

/-- `fork` never fails. -/
def Kernel.Forks (k : Kernel) : Prop := ∀ n, k.forks n = true

/-- Whatever the child comes to, the process is the parent's again; but nothing is known behind
undefined behaviour. -/
theorem spec_subprocess {process : Process} {child : Prog Halt World Unit}
    {Q : Unit → World → Prop} {E : Halt → Prop}
    (h : child.Spec w (fun _ w' => Q () { w' with process := process })
      fun h => h.reason ≠ .fuel ∧ (h.reason = .undefined → E h) ∧
        (h.reason ≠ .undefined → Q () { h.world with process := process })) :
    (subprocess process child).Spec w Q E := by
  unfold Prog.Spec subprocess at *
  unfold Prog.run at *
  simp only
  cases hc : child w with
  | ok r =>
      rw [hc] at h
      exact h
  | error r =>
      rw [hc] at h
      obtain ⟨hfuel, hundefined, hended⟩ := h
      by_cases hr : r.reason = .undefined
      · simp only [if_pos (Or.inr hr)]
        exact hundefined hr
      · simp only [if_neg (not_or_intro hfuel hr)]
        exact hended hr

/-- **`sfork`**: its parent goes on as if nothing had happened to the process, if `fork` has not
failed. -/
theorem spec_sfork {child : Prog Halt World Unit} {Q : Unit → World → Prop} {E : Halt → Prop}
    (hfail : k.forks w.clock = false → E ⟨.undefined, w.tick.log (.syscallFail "fork")⟩)
    (hchild : k.forks w.clock = true → child.Spec w.tick
      (fun _ w' => Q () { w' with process := w.process })
      fun h => h.reason ≠ .fuel ∧ (h.reason = .undefined → E h) ∧
        (h.reason ≠ .undefined → Q () { h.world with process := w.process })) :
    (sfork k child).Spec w Q E := by
  rw [sfork]
  apply Prog.Spec.bind
  apply Prog.spec_gets
  apply Prog.Spec.bind
  apply Prog.Spec.ite
  · intro hk
    exact spec_subprocess (hchild hk)
  · intro hk
    apply Prog.Spec.bind
    apply Prog.spec_modify
    exact hfail (by simpa using hk)

/-- The program that a command starts with the descriptors `t`. -/
def started (kind : Kind) (args : List Text) (t : Descriptors Channel) : List Execution :=
  match programOf kind args with
  | some argv => [⟨argv, lookup t STDIN, lookup t STDOUT, lookup t STDERR⟩]
  | none => []

/-- What a command leaves that has no other command in it. -/
structure Leaves (k : Kernel) (kind : Kind) (args : List Text) (w w' : World) : Prop where
  fds : w'.fds = w.fds
  pipes : w'.pipes = w.pipes
  acts : Acts k.Works (started kind args w.fds) (Event.Inherits w.fds) w w'

/-- What is known of a command whose behaviour is undefined. -/
structure Faulty (k : Kernel) (kind : Kind) (args : List Text) (w : World) (h : Halt) : Prop where
  reason : h.reason = .undefined
  noArgs : k.Forks → args = []
  pipes : h.world.pipes = w.pipes
  acts : Acts k.Works (started kind args w.fds) (Event.Inherits w.fds) w h.world

theorem spec_exec {name : String} {argv : List Text} {E : Halt → Prop} :
    (exec k name argv).Spec w (fun _ w' => w'.pipes = w.pipes ∧ Acts k.Works
      [⟨argv, lookup w.fds STDIN, lookup w.fds STDOUT, lookup w.fds STDERR⟩]
      (Event.Inherits w.fds) w w') E := by
  rw [exec]
  apply Prog.Spec.bind
  apply Prog.spec_gets
  apply Prog.Spec.bind
  apply Prog.Spec.ite
  · intro _
    apply Prog.spec_modify
    refine ⟨rfl, ⟨[_], rfl, ?_, fun _ => rfl, ?_⟩⟩
    · exact List.Sublist.refl _
    · intro e he
      obtain rfl := List.mem_singleton.mp he
      exact fun fd ch h => .inl ⟨fd, h⟩
  · intro hk
    apply Prog.spec_modify
    refine ⟨rfl, ⟨[_], rfl, List.nil_sublist _, fun hw => absurd (hw.execs _ _) hk, ?_⟩⟩
    intro e he
    obtain rfl := List.mem_singleton.mp he
    trivial

theorem spec_execExternal {special : Bool} {args : List Text} :
    (execExternal k special args).Spec w
      (fun _ w' => w'.pipes = w.pipes ∧
        Acts k.Works (started (.external special) args w.fds) (Event.Inherits w.fds) w w')
      fun h => Faulty k (.external special) args w h := by
  rw [execExternal]
  apply Prog.Spec.ite
  · rintro rfl
    exact spec_exec
  · intro hspecial
    obtain rfl : special = false := by simpa using hspecial
    apply Prog.Spec.ite
    · intro hnil
      have hs : started (.external false) args w.fds = [] := by
        rw [started, programOf, if_pos hnil]
      exact ⟨rfl, fun _ => by simpa using hnil, rfl, .refl rfl fun _ => hs⟩
    · intro hne
      have hs : started (.external false) args w.fds =
          [⟨args, lookup w.fds STDIN, lookup w.fds STDOUT, lookup w.fds STDERR⟩] := by
        rw [started, programOf, if_neg hne]
      rw [hs]
      exact spec_exec

theorem spec_executeChangeDir {args : List Text} :
    (executeChangeDir k args).Spec w (fun _ w' => Leaves k .changeDir args w w')
      fun h => Faulty k .changeDir args w h := by
  match args with
  | [] => exact ⟨rfl, fun _ => rfl, rfl, .refl rfl fun _ => rfl⟩
  | [_] => exact ⟨rfl, rfl, .refl rfl fun _ => rfl⟩
  | [cd, arg] =>
      rw [executeChangeDir]
      apply Prog.Spec.bind
      apply Prog.spec_gets
      apply Prog.Spec.ite
      · intro _
        exact ⟨rfl, rfl, .log rfl (fun _ => rfl) rfl trivial⟩
      · intro _
        apply Prog.Spec.bind
        rw [sgetcwd]
        apply Prog.Spec.bind
        apply Prog.Spec.ite
        · intro _
          apply Prog.spec_gets
          apply Prog.Spec.bind_ok (run_ask _ _)
          -- the answer of `chdir`
          split
          next dir => exact ⟨rfl, rfl, .refl rfl fun _ => rfl⟩
          next => exact ⟨rfl, rfl, .log rfl (fun _ => rfl) rfl trivial⟩
        · intro _
          exact ⟨rfl, rfl, .log rfl (fun _ => rfl) rfl trivial⟩
  | _ :: _ :: _ :: _ => exact ⟨rfl, rfl, .log rfl (fun _ => rfl) rfl trivial⟩

/-- **A simple command** leaves the descriptors, and starts no program but its own.  Its behaviour
is undefined if it has no arguments or `fork` fails. -/
theorem spec_executeSimple (kind : Kind) (args : List Text) :
    (executeSimple k kind args).Spec w (fun _ w' => Leaves k kind args w w')
      fun h => Faulty k kind args w h := by
  cases kind with
  | changePrompt => exact ⟨rfl, rfl, .refl rfl fun _ => rfl⟩
  | changeDir => exact spec_executeChangeDir
  | getCurrDir =>
      apply Prog.Spec.bind
      rw [sgetcwd]
      apply Prog.Spec.bind
      apply Prog.Spec.ite
      · intro _
        exact ⟨rfl, rfl, .log rfl (fun _ => rfl) rfl trivial⟩
      · intro _
        have hfail : Acts k.Works [] (Event.Inherits w.fds) w (w.log (.syscallFail "getcwd")) :=
          .log rfl (fun _ => rfl) rfl trivial
        exact ⟨rfl, rfl, hfail.trans (.log rfl (fun _ => rfl) rfl trivial)⟩
  | quit =>
      apply Prog.Spec.bind
      apply Prog.spec_gets
      apply Prog.Spec.bind
      apply Prog.spec_modify
      apply Prog.Spec.ite
      · intro _
        exact ⟨rfl, rfl, .log rfl (fun _ => rfl) rfl trivial⟩
      · intro _
        exact ⟨rfl, rfl, .refl rfl fun _ => rfl⟩
  | external special =>
      apply spec_sfork
      · intro hk
        refine ⟨rfl, fun hforks => absurd (hforks w.clock) (by simp [hk]), rfl, ?_⟩
        exact .log rfl (fun hw => absurd (hw.forks w.clock) (by simp [hk])) rfl trivial
      · intro _
        refine spec_execExternal.mono (fun _ w' h => ?_) fun h hh => ?_
        · exact ⟨rfl, h.1, (h.2.from w rfl).to { w' with process := w.process } rfl⟩
        · have hreason := hh.reason
          refine ⟨by rw [hreason]; decide, fun _ => ?_, fun hne => absurd hreason hne⟩
          exact ⟨hreason, hh.noArgs, hh.pipes, hh.acts.from w rfl⟩
  | _ => exact ⟨rfl, rfl, .log rfl (fun _ => rfl) rfl trivial⟩

/-! ### Redirections -/

theorem execute_simple (h : cmd.kind.isComposed = false) :
    execute k (fuel + 1) cmd = executeSimple k cmd.kind (cmd.args.getD []) := by
  rw [execute]
  cases hkind : cmd.kind with
  | pipe =>
      rw [hkind] at h
      cases h
  | redirection =>
      rw [hkind] at h
      cases h
  | _ => rfl

theorem execute_redirection {sep : ℤ} {append : Bool} (h : cmd.kind = .redirection sep append) :
    execute k (fuel + 1) cmd = executeRedirection k (execute k fuel) cmd sep append := by
  rw [execute, h]

theorem execute_pipe {sep : ℤ} {ampersand : Bool} (h : cmd.kind = .pipe sep ampersand) :
    execute k (fuel + 1) cmd = executePipe k (execute k fuel) cmd sep ampersand := by
  rw [execute, h]

/-- A command without separators. -/
theorem run_executeCommand_simple {args : List Text} (hs : isSpecialCommand line = none)
    (hcmd : createCommand line = some cmd) (hargs : cmd.args = some args) :
    (executeCommand k line).run w = (executeSimple k cmd.kind args).run w := by
  have hkind : cmd.kind.isComposed = false := by
    obtain ⟨-, ⟨s, hs', -⟩ | ⟨-, hk⟩⟩ := createCommand_cases hcmd
    · rw [hs] at hs'
      cases hs'
    · exact hk
  have hcreate : (create line).run w = .ok (some cmd, w) := by
    rw [create, hcmd]
    simp [hargs]
  rw [executeCommand, Prog.run_bind_ok hcreate]
  show (execute k (line.length + 2) cmd).run w = _
  rw [execute_simple hkind, hargs, Option.getD_some]

theorem spec_create {Q : Option Command → World → Prop} {E : Halt → Prop}
    (hnone : createCommand line = none → Q none w)
    (hsome : ∀ cmd, createCommand line = some cmd → cmd.args.isSome → Q (some cmd) w)
    (hundefined : ∀ cmd, createCommand line = some cmd → cmd.args = none → E ⟨.undefined, w⟩) :
    (create line).Spec w Q E := by
  rw [create]
  cases hcmd : createCommand line with
  | none => exact hnone hcmd
  | some cmd =>
      apply Prog.Spec.ite
      · intro hargs
        exact hsome cmd hcmd hargs
      · intro hargs
        exact hundefined cmd hcmd (by simpa using hargs)

/-- Everything that is open in one table is open in the other, or is a file. -/
def Within (t' t : Descriptors Channel) : Prop := ∀ fd ch, lookup t' fd = some ch →
  (∃ fd', lookup t fd' = some ch) ∨ ∃ path append, ch = .file path append

theorem Event.Inherits.within {t t' : Descriptors Channel} (h : e.Inherits t')
    (ht : Within t' t) : e.Inherits t := by
  cases e with
  | exec argv fds cwd =>
      intro fd ch hch
      obtain ⟨fd', hch'⟩ | hfile := h fd ch hch
      · exact ht fd' ch hch'
      · exact .inr hfile
  | _ => trivial

theorem Within.refl (t : Descriptors Channel) : Within t t := fun fd _ h => .inl ⟨fd, h⟩

theorem Within.set {t t' : Descriptors Channel} {ch : Channel} (h : Within t' t) (fd : ℕ)
    (hch : (∃ fd', lookup t fd' = some ch) ∨ ∃ path append, ch = .file path append) :
    Within (t'.set fd (some ch)) t := by
  intro i ch' hi
  rw [Descriptors.lookup_set] at hi
  split at hi
  · obtain rfl := Option.some.inj hi
    exact hch
  · exact h i ch' hi

/-- The program of a simple command is the one of its part. -/
theorem stage_simple (h : isSpecialCommand line = none) (hcmd : createCommand line = some cmd)
    (t : Descriptors Channel) :
    stage line (lookup t STDIN) (lookup t STDOUT) (lookup t STDERR) =
      match cmd.args with | some args => started cmd.kind args t | none => [] := by
  have hbefore : beforeRedirection line = line :=
    List.takeWhile_eq_self_iff.mpr fun x hx =>
      bne_iff_ne.mpr fun he => (isSpecialCommand_eq_none.mp h).2 (he ▸ hx)
  rw [stage, hbefore, hcmd, redirected, h]
  cases hargs : cmd.args with
  | none => simp [hargs]
  | some args => simp [hargs, started]

/-- What a part of a line leaves. -/
structure RanPart (k : Kernel) (line : Text) (w w' : World) : Prop where
  acts : Acts (k.Works ∧ 0 < free w.fds)
    (stage line (lookup w.fds STDIN) (lookup w.fds STDOUT) (lookup w.fds STDERR))
    (Event.Inherits w.fds) w w'
  pipes : w'.pipes = w.pipes
  restores : Restores k line w w'
  affects : Affects k line (k.Works ∧ 0 < free w.fds) w w'

/-- What is known of a part that ends its process. -/
structure HaltPart (line : Text) (k : Kernel) (w : World) (h : Halt) : Prop where
  reason : h.reason ≠ .fuel
  unsound : k.Forks → ¬Sound line
  acts : Acts (k.Works ∧ 0 < free w.fds)
    (stage line (lookup w.fds STDIN) (lookup w.fds STDOUT) (lookup w.fds STDERR))
    (Event.Inherits w.fds) w h.world
  pipes : h.world.pipes = w.pipes

theorem Sound.exists_args (h : Sound line) (hs : isSpecialCommand line = none) :
    ∃ cmd args, createCommand line = some cmd ∧ cmd.args = some args ∧ args ≠ [] := by
  cases h with
  | simple _ hcmd hargs hne => exact ⟨_, _, hcmd, hargs, hne⟩
  | redirection hs' => exact absurd hs (by simp [hs'])
  | pipe hs' => exact absurd hs (by simp [hs'])

theorem lastCommand_single (h : '|' ∉ line) : lastCommand line = beforeRedirection line := by
  rw [lastCommand, parts_single h]
  rfl

/-- **A part without a redirection** is a simple command. -/
theorem spec_simplePart (hs : isSpecialCommand line = none) (hcmd : createCommand line = some cmd)
    (hargs : cmd.args.isSome) (background : Bool) :
    (execute k (fuel + 1) { cmd with background := background }).Spec w
      (fun _ w' => RanPart k line w w') fun h => HaltPart line k w h := by
  have hnot := isSpecialCommand_eq_none.mp hs
  have hbefore : beforeRedirection line = line :=
    List.takeWhile_eq_self_iff.mpr fun x hx => bne_iff_ne.mpr fun he => hnot.2 (he ▸ hx)
  obtain ⟨args, hargs⟩ := Option.isSome_iff_exists.mp hargs
  have hkind : cmd.kind.isComposed = false := by
    obtain ⟨-, ⟨s, hs', -⟩ | ⟨-, hk⟩⟩ := createCommand_cases hcmd
    · rw [hs] at hs'
      cases hs'
    · exact hk
  have hstage := stage_simple hs hcmd w.fds
  rw [hargs] at hstage
  rw [execute_simple (by exact hkind)]
  simp only [hargs, Option.getD_some]
  refine (spec_executeSimple cmd.kind args).with_run.mono (fun _ w' h => ?_) fun h hh => ?_
  · obtain ⟨⟨hfds, hpipes, hacts⟩, hrun⟩ := h
    refine ⟨?_, hpipes, ⟨fun _ => hfds, fun hl => ?_⟩, .inr ⟨w, w', ?_, rfl, rfl⟩⟩
    · rw [hstage]
      exact hacts.mono And.left fun e he => he
    · rw [Lost, hs] at hl
      exact hl.elim
    · rw [lastCommand_single hnot.1, hbefore, run_executeCommand_simple hs hcmd hargs]
      exact hrun
  · obtain ⟨hreason, hnil, hpipes, hacts⟩ := hh
    refine ⟨?_, fun hforks hsound => ?_, ?_, hpipes⟩
    · rw [hreason]
      decide
    · obtain ⟨cmd', args', hcmd', hargs', hne⟩ := hsound.exists_args hs
      obtain rfl := Option.some.inj (hcmd.symm.trans hcmd')
      obtain rfl := Option.some.inj (hargs.symm.trans hargs')
      exact hne (hnil hforks)
    · rw [hstage]
      exact hacts.mono And.left fun e he => he

/-! ### Blocks that only move descriptors -/

/-- Nothing has happened but to the descriptors, and messages. -/
structure Quiet (w w' : World) : Prop where
  events : ∃ evs, w'.events = w.events ++ evs ∧ ∀ e ∈ evs, ∃ name, e = .syscallFail name
  pipes : w'.pipes = w.pipes
  core : w'.core = w.core

theorem Quiet.withFds (w : World) (t : Descriptors Channel) : Quiet w (w.withFds t) :=
  ⟨⟨[], (List.append_nil _).symm, by simp⟩, rfl, rfl⟩

theorem Quiet.log (w : World) (name : String) : Quiet w (w.log (.syscallFail name)) :=
  ⟨⟨[_], rfl, fun _ he => ⟨name, List.mem_singleton.mp he⟩⟩, rfl, rfl⟩

theorem Quiet.trans (h : Quiet w w₁) (h' : Quiet w₁ w') : Quiet w w' := by
  obtain ⟨⟨evs, he, hP⟩, hp, hc⟩ := h
  obtain ⟨⟨evs', he', hP'⟩, hp', hc'⟩ := h'
  refine ⟨⟨evs ++ evs', by rw [he', he, List.append_assoc], ?_⟩, hp'.trans hp, hc'.trans hc⟩
  intro e hmem
  exact (List.mem_append.mp hmem).elim (hP e) (hP' e)

theorem Quiet.acts (h : Quiet w w') (hP : ∀ name, P (.syscallFail name)) :
    Acts exact [] P w w' := by
  obtain ⟨⟨evs, he, hev⟩, -, -⟩ := h
  have hnone : evs.filterMap Event.execution = [] := by
    rw [List.filterMap_eq_nil_iff]
    intro e hmem
    obtain ⟨name, rfl⟩ := hev e hmem
    rfl
  refine ⟨⟨evs, he, by rw [hnone], fun _ => hnone, fun e hmem => ?_⟩⟩
  obtain ⟨name, rfl⟩ := hev e hmem
  exact hP name

/-- **A redirection** around `p`: its output is the file, and the descriptors are as before, but for
the output if there was none left for its copy. -/
theorem spec_redirected {t : Descriptors Channel} {f : ℕ} {ch : Channel}
    {p : Prog Halt World Unit} {Q : Unit → World → Prop} {E : Halt → Prop} (hstd : Standard t)
    (hf : t[f]? = some none) (hw : w.fds = t.set f (some ch))
    (h : ∀ w₁, Quiet w w₁ → lookup w₁.fds STDIN = lookup t STDIN →
      lookup w₁.fds STDOUT = some ch → lookup w₁.fds STDERR = lookup t STDERR →
      Within w₁.fds w.fds → p.Spec w₁ (fun _ w₂ => w₂.fds = w₁.fds ∧ ∀ w', Quiet w₂ w' →
        w'.fds = (if 0 < free w.fds then t else t.set STDOUT (some ch)) → Q () w') E) :
    Prog.Spec (do
      let stdoutCopy ← sdup STDOUT
      sdup2 (some f) STDOUT
      p
      sclose (some f)
      sdup2 stdoutCopy STDOUT
      sclose stdoutCopy) w Q E := by
  obtain ⟨d, hd⟩ := hstd STDOUT (by decide)
  have hlt := lt_length_of_lookup hd
  have hflt := (List.getElem?_eq_some_iff.mp hf).1
  have hf0 := hstd.ne_of_free hf (i := STDIN) (by decide)
  have hf1 := hstd.ne_of_free hf (i := STDOUT) (by decide)
  have hf2 := hstd.ne_of_free hf (i := STDERR) (by decide)
  have hd' : lookup w.fds STDOUT = some d := by
    rw [hw, Descriptors.lookup_set, if_neg fun hc => hf1 hc.1.symm, hd]
  have hch : lookup w.fds f = some ch := by
    rw [hw, Descriptors.lookup_set, if_pos ⟨rfl, hflt⟩]
  by_cases hfree : 0 < free w.fds
  · -- there is a descriptor for the copy
    obtain ⟨c, t', ha⟩ := exists_alloc hfree d
    obtain ⟨hc, rfl, -⟩ := alloc_some ha
    have hcf : c ≠ f := by
      rintro rfl
      rw [hw, List.getElem?_set_self hflt] at hc
      cases hc
    have hc' : t[c]? = some none := by rwa [hw, List.getElem?_set_ne hcf.symm] at hc
    have hclt := (List.getElem?_eq_some_iff.mp hc').1
    have hc0 := hstd.ne_of_free hc' (i := STDIN) (by decide)
    have hc1 := hstd.ne_of_free hc' (i := STDOUT) (by decide)
    have hc2 := hstd.ne_of_free hc' (i := STDERR) (by decide)
    apply Prog.Spec.bind_ok (run_sdup_some ((dup_eq hd').trans ha))
    have h₁ : lookup (w.fds.set c (some d)) f = some ch := by
      rw [Descriptors.lookup_set, if_neg fun he => hcf he.1, hch]
    apply Prog.Spec.bind_ok (run_sdup2 (w := w.withFds _) h₁ (by simp [hw, hlt]))
    rw [withFds_withFds, withFds_fds]
    apply Prog.Spec.bind
    refine (h (w.withFds _) (.withFds _ _) ?_ ?_ ?_ ?_).mono (fun _ w₂ hw₂ => ?_) fun _ he => he
    · rw [withFds_fds, Descriptors.lookup_set, if_neg (by simp [STDIN, STDOUT]),
        Descriptors.lookup_set, if_neg fun he => hc0 he.1.symm, hw, Descriptors.lookup_set,
        if_neg fun he => hf0 he.1.symm]
    · rw [withFds_fds, Descriptors.lookup_set, if_pos ⟨rfl, by simp [hw, hlt]⟩]
    · rw [withFds_fds, Descriptors.lookup_set, if_neg (by simp [STDERR, STDOUT]),
        Descriptors.lookup_set, if_neg fun he => hc2 he.1.symm, hw, Descriptors.lookup_set,
        if_neg fun he => hf2 he.1.symm]
    · exact ((Within.refl _).set c (.inl ⟨_, hd'⟩)).set STDOUT (.inl ⟨_, hch⟩)
    · obtain ⟨hfds, hQ⟩ := hw₂
      rw [withFds_fds] at hfds
      have h₂ : lookup w₂.fds f = some ch := by
        rw [hfds, Descriptors.lookup_set, if_neg fun he => hf1 he.1, h₁]
      apply Prog.Spec.bind_ok (run_sclose h₂)
      have h₃ : lookup (w₂.fds.set f none) c = some d := by
        rw [Descriptors.lookup_set, if_neg fun he => hcf he.1.symm, hfds, Descriptors.lookup_set,
          if_neg fun he => hc1 he.1, Descriptors.lookup_set, if_pos ⟨rfl, by simp [hw, hclt]⟩]
      apply Prog.Spec.bind_ok (run_sdup2 (w := w₂.withFds _) h₃ (by simp [hfds, hw, hlt]))
      rw [withFds_withFds, withFds_fds]
      have h₄ : lookup ((w₂.fds.set f none).set STDOUT (some d)) c = some d := by
        rw [Descriptors.lookup_set, if_neg fun he => hc1 he.1, h₃]
      rw [Prog.Spec, run_sclose (w := w₂.withFds _) h₄, withFds_withFds, withFds_fds]
      refine hQ _ (.withFds _ _) ?_
      rw [withFds_fds, if_pos hfree, hfds, hw]
      exact set_restored hd hf hc'
  · -- the copy fails, and nothing brings the output back
    have hdup : dup w.fds STDOUT = none := by
      rw [dup, Option.bind_eq_none_iff]
      intro _ _
      exact alloc_eq_none.mpr (by omega)
    apply Prog.Spec.bind_ok (run_sdup_none hdup)
    apply Prog.Spec.bind_ok (run_sdup2 (w := w.log _) hch (by simp [hw, hlt]))
    rw [log_fds]
    apply Prog.Spec.bind
    refine (h ((w.log _).withFds _) ((Quiet.log _ _).trans (.withFds _ _)) ?_ ?_ ?_ ?_).mono
      (fun _ w₂ hw₂ => ?_) fun _ he => he
    · rw [withFds_fds, Descriptors.lookup_set, if_neg (by simp [STDIN, STDOUT]), hw,
        Descriptors.lookup_set, if_neg fun he => hf0 he.1.symm]
    · rw [withFds_fds, Descriptors.lookup_set, if_pos ⟨rfl, by simp [hw, hlt]⟩]
    · rw [withFds_fds, Descriptors.lookup_set, if_neg (by simp [STDERR, STDOUT]), hw,
        Descriptors.lookup_set, if_neg fun he => hf2 he.1.symm]
    · exact (Within.refl _).set STDOUT (.inl ⟨_, hch⟩)
    · obtain ⟨hfds, hQ⟩ := hw₂
      rw [withFds_fds] at hfds
      have h₂ : lookup w₂.fds f = some ch := by
        rw [hfds, Descriptors.lookup_set, if_neg fun he => hf1 he.1, hch]
      apply Prog.Spec.bind_ok (run_sclose h₂)
      apply Prog.Spec.bind_ok run_sdup2_none
      refine hQ _ (((Quiet.withFds _ _).trans (.log _ "dup2")).trans (.log _ "close")) ?_
      show w₂.fds.set f none = _
      rw [if_neg hfree, hfds, hw]
      exact set_closed hf hf1

/-- **A part with a redirection** is a simple command with a file as its output. -/
theorem spec_redirectionPart (hpipe : '|' ∉ a ++ '>' :: b) (ha : '>' ∉ a)
    (hlen : (a ++ '>' :: b).length < 2 ^ 31) (hcmd : createCommand (a ++ '>' :: b) = some cmd)
    (hstd : Standard w.fds) (background : Bool) :
    (execute k (fuel + 2) { cmd with background := background }).Spec w
      (fun _ w' => RanPart k (a ++ '>' :: b) w w') fun h => HaltPart (a ++ '>' :: b) k w h := by
  have hs := isSpecialCommand_redirection hpipe ha
  have hpa : '|' ∉ a := fun hc => hpipe (List.mem_append_left _ hc)
  have hsa : isSpecialCommand a = none := isSpecialCommand_eq_none.mpr ⟨hpa, ha⟩
  have hleft := leftPart_cut (c := '>') hlen
  have hright := rightPart_cut (c := '>') (d := '>') hlen
  obtain ⟨path, hpath⟩ : ∃ path, path = if b.head? = some '>' then b.tail else b := ⟨_, rfl⟩
  rw [← hpath] at hright
  have hbefore : beforeRedirection (a ++ '>' :: b) = a := by
    have hne : ∀ x ∈ a, (x != '>') = true := fun x hx => bne_iff_ne.mpr fun he => ha (he ▸ hx)
    rw [beforeRedirection, List.takeWhile_append_of_pos hne]
    simp
  have hred : redirected (a ++ '>' :: b) =
      some (.file (trim path) (b.head? == some '>')) := by
    rw [redirected, hs]
    simp only [hright, Option.map_some]
  have hlast : lastCommand (a ++ '>' :: b) = a := by rw [lastCommand_single hpipe, hbefore]
  have hkind : cmd.kind = .redirection (toInt a.length) (b.head? == some '>') := by
    rw [← Option.some.inj ((createCommand_redirection hs).symm.trans hcmd)]
    rfl
  have horig := createCommand_originalCmd hcmd
  rw [execute_redirection (by exact hkind), executeRedirection]
  simp only [horig, hleft, hright]
  apply Prog.Spec.bind
  have hunsound (h : ∀ cmd args, createCommand a = some cmd → cmd.args = some args → args = []) :
      ¬Sound (a ++ '>' :: b) := by
    intro hsound
    cases hsound with
    | simple hs' => exact absurd hs' (by simp [hs])
    | redirection hs' _ hsound =>
        obtain ⟨rfl, rfl⟩ := Special.redirection.inj (Option.some.inj (hs.symm.trans hs'))
        rw [hleft] at hsound
        obtain ⟨cmd, args, hcmd, hargs, hne⟩ := hsound.exists_args hsa
        exact hne (h cmd args hcmd hargs)
    | pipe hs' => exact absurd hs' (by simp [hs])
  have hstage (t₀ t₁ t₂ : Option Channel) : stage (a ++ '>' :: b) t₀ t₁ t₂ =
      match (createCommand a).bind fun cmd => cmd.args.bind (programOf cmd.kind) with
      | some argv => [⟨argv, t₀, some (.file (trim path) (b.head? == some '>')), t₂⟩]
      | none => [] := by
    rw [stage, hbefore, hred]
    rfl
  apply spec_create
  · intro hnone
    apply Prog.Spec.bind
    have hhalt : HaltPart (a ++ '>' :: b) k w ⟨.null, w⟩ := by
      refine ⟨by simp, fun _ => hunsound ?_, .refl rfl fun _ => ?_, rfl⟩
      · intro cmd args hcmd
        rw [hnone] at hcmd
        cases hcmd
      · rw [hstage, hnone]
        rfl
    exact hhalt
  · intro cmd₁ hcmd₁ hargs₁
    apply Prog.Spec.bind
    apply Prog.spec_pure
    apply Prog.Spec.bind
    apply Prog.spec_pure
    by_cases hopen : k.opens w.clock (trim path) (b.head? == some '>') = true ∧ 0 < free w.fds
    · -- the file is open
      obtain ⟨f, t', halloc, hrun⟩ := run_sopen_some hopen.1 hopen.2
      obtain ⟨hf, rfl, hfree⟩ := alloc_some halloc
      apply Prog.Spec.bind_ok hrun
      apply spec_redirected hstd hf rfl
      intro w₁ hq h₀ h₁ h₂ hwithin
      obtain ⟨args₁, hargs₁⟩ := Option.isSome_iff_exists.mp hargs₁
      have hkind₁ : cmd₁.kind.isComposed = false := by
        obtain ⟨-, ⟨s, hs', -⟩ | ⟨-, hk⟩⟩ := createCommand_cases hcmd₁
        · rw [hsa] at hs'
          cases hs'
        · exact hk
      have hfree' : free (w.tick.withFds (w.fds.set f _)).fds + 1 = free w.fds := hfree
      have hes : started cmd₁.kind args₁ w₁.fds = stage (a ++ '>' :: b) (lookup w.fds STDIN)
          (lookup w.fds STDOUT) (lookup w.fds STDERR) := by
        rw [hstage, started, h₀, h₁, h₂, hcmd₁, Option.bind_some, hargs₁, Option.bind_some]
      have hin : ∀ e : Event, e.Inherits w₁.fds → e.Inherits w.fds := fun e he =>
        (he.within hwithin).within ((Within.refl _).set f (.inr ⟨_, _, rfl⟩))
      have hfrom : Acts (k.Works ∧ 0 < free w.fds) [] (Event.Inherits w.fds) w w₁ :=
        (hq.acts fun _ => trivial).from w rfl
      rw [execute_simple (by exact hkind₁)]
      simp only [hargs₁, Option.getD_some]
      refine (spec_executeSimple cmd₁.kind args₁).with_run.mono (fun _ w₂ h => ?_) fun h hh => ?_
      · obtain ⟨⟨hfds, hpipes, hacts⟩, hrun₂⟩ := h
        refine ⟨hfds, fun w' hq' hfds' => ⟨?_, ?_, ⟨fun hl => ?_, fun hl => .inr ?_⟩, .inr ?_⟩⟩
        · rw [hes] at hacts
          have h := (hfrom.trans (hacts.mono And.left hin)).trans (hq'.acts fun _ => trivial)
          simpa using h
        · exact (hq'.pipes.trans hpipes).trans hq.pipes
        · rw [hfds', if_pos]
          by_contra hzero
          refine hl ?_
          rw [Lost, hs]
          exact ⟨by omega, path, hright, hopen.1⟩
        · rw [Lost, hs] at hl
          have hone := hl.1
          exact ⟨hone, _, _, by rw [hfds', if_neg (by omega)]⟩
        · refine ⟨w₁, w₂, ?_, hq.core, hq'.core.symm⟩
          rw [hlast, run_executeCommand_simple hsa hcmd₁ hargs₁]
          exact hrun₂
      · obtain ⟨hreason, hnil, hpipes, hacts⟩ := hh
        refine ⟨?_, fun hforks => hunsound ?_, ?_, hpipes.trans hq.pipes⟩
        · rw [hreason]
          decide
        · intro cmd' args' hcmd' hargs'
          obtain rfl := Option.some.inj (hcmd₁.symm.trans hcmd')
          obtain rfl := Option.some.inj (hargs₁.symm.trans hargs')
          exact hnil hforks
        · rw [hes] at hacts
          exact hfrom.trans (hacts.mono And.left hin)
    · have hnot : k.opens w.clock (trim path) (b.head? == some '>') = true → free w.fds = 0 := by
        intro hk
        by_contra hne
        exact hopen ⟨hk, by omega⟩
      have hexact : ¬(k.Works ∧ 0 < free w.fds) := fun hx => hopen ⟨hx.1.opens _ _ _, hx.2⟩
      apply Prog.Spec.bind_ok (run_sopen_none hnot)
      apply Prog.spec_pure
      refine ⟨.log rfl (fun hx => absurd hx hexact) rfl trivial, rfl,
        ⟨fun _ => rfl, ?_⟩, .inl ⟨hexact, rfl⟩⟩
      intro hl
      rw [Lost, hs] at hl
      obtain ⟨hone, path', hpath', hk⟩ := hl
      obtain rfl := Option.some.inj (hright.symm.trans hpath')
      have := hnot hk
      omega
  · intro cmd hcmd hargs
    refine ⟨by simp, fun _ => hunsound ?_, .refl rfl fun _ => ?_, rfl⟩
    · intro cmd' args hcmd' hargs'
      obtain rfl := Option.some.inj (hcmd.symm.trans hcmd')
      rw [hargs] at hargs'
      cases hargs'
    · simp [hstage, hcmd, hargs]

/-- **A part of a line.** -/
theorem spec_part (hpipe : '|' ∉ line) (hlen : line.length < 2 ^ 31)
    (hcmd : createCommand line = some cmd) (hargs : cmd.args.isSome) (hstd : Standard w.fds)
    (background : Bool) :
    (execute k (fuel + 2) { cmd with background := background }).Spec w
      (fun _ w' => RanPart k line w w') fun h => HaltPart line k w h := by
  by_cases hredirection : '>' ∈ line
  · obtain ⟨a, b, rfl, ha⟩ := List.eq_append_cons_of_mem hredirection
    exact spec_redirectionPart hpipe ha hlen hcmd hstd background
  · exact spec_simplePart (isSpecialCommand_eq_none.mpr ⟨hpipe, hredirection⟩) hcmd hargs background

end OsProjects.Smash.CommandLine
