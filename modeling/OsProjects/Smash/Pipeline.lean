import OsProjects.Lib.Transition
import OsProjects.Smash.NullCommands

/-! # Pipelines

`PipeCommand::execute` for two external commands, as a transition system: the shell, the child that
it forks for the left command, the command itself, which that child forks in turn, and the right
command, around a pipe of bounded capacity.  The left command writes its output byte by byte and
exits; it has to wait while the pipe is full. -/

namespace OsProjects.Smash.CommandLine

/-- The next step of the shell in `PipeCommand::execute`. -/
inductive PipePc where
  /-- `cmd1->background = false; cmd2->background = false` -/
  | start
  /-- `fork()` in `sfork(*cmd1)` -/
  | fork
  /-- `swaitpid` in `sfork(*cmd1)` -/
  | wait
  /-- `sdup`, `sdup2` and `sclose`, up to the pipe as standard input. -/
  | redirect
  /-- `fork()` in `cmd2->execute()` -/
  | forkRight
  /-- `swaitpid` in `cmd2->execute()` -/
  | waitRight
  | done
deriving DecidableEq, Repr

/-- The left side of the pipe. -/
inductive LeftStatus where
  | notStarted
  /-- The child of the shell, before it forks the command. -/
  | child
  /-- The command runs, and the child waits for it. -/
  | running
  /-- The command has exited. -/
  | exited
  /-- The child has exited too. -/
  | gone
deriving DecidableEq, Repr

inductive RightStatus where
  | notStarted
  | running
  | exited
deriving DecidableEq, Repr

structure PipeState where
  pc : PipePc
  /-- `cmd1->background` -/
  background : Bool
  left : LeftStatus
  right : RightStatus
  /-- What the left command has still to write. -/
  todo : List UInt8
  pipe : List UInt8
  received : List UInt8
deriving DecidableEq, Repr

inductive PipeEvent where
  | shell
  | fork (succeeds : Bool)
  | left
  | write
  | right
  | read
deriving DecidableEq, Repr

inductive PipeStep (capacity : ℕ) : PipeState → PipeEvent → PipeState → Prop
  | start {s : PipeState} : s.pc = .start →
      PipeStep capacity s .shell { s with background := false, pc := .fork }
  /-- The shell waits unless the command is to run in the background. -/
  | fork {s : PipeState} : s.pc = .fork →
      PipeStep capacity s (.fork true)
        { s with left := .child, pc := if s.background then .redirect else .wait }
  /-- In the source `sfork` then returns no value, which is undefined; the shell goes on here, to
  the right command. -/
  | forkFails {s : PipeState} : s.pc = .fork →
      PipeStep capacity s (.fork false) { s with pc := .redirect }
  | waited {s : PipeState} : s.pc = .wait → s.left = .gone →
      PipeStep capacity s .shell { s with pc := .redirect }
  | redirect {s : PipeState} : s.pc = .redirect →
      PipeStep capacity s .shell { s with pc := .forkRight }
  | forkRight {s : PipeState} : s.pc = .forkRight →
      PipeStep capacity s (.fork true) { s with right := .running, pc := .waitRight }
  /-- As `forkFails`. -/
  | forkRightFails {s : PipeState} : s.pc = .forkRight →
      PipeStep capacity s (.fork false) { s with pc := .done }
  | waitedRight {s : PipeState} : s.pc = .waitRight → s.right = .exited →
      PipeStep capacity s .shell { s with pc := .done }
  | leftFork {s : PipeState} : s.left = .child →
      PipeStep capacity s .left { s with left := .running }
  /-- The child cannot fork and exits. -/
  | leftForkFails {s : PipeState} : s.left = .child →
      PipeStep capacity s .left { s with left := .gone }
  | write {s : PipeState} {b : UInt8} {todo : List UInt8} : s.left = .running →
      s.todo = b :: todo → s.pipe.length < capacity →
      PipeStep capacity s .write { s with todo := todo, pipe := s.pipe ++ [b] }
  | leftExit {s : PipeState} : s.left = .running → s.todo = [] →
      PipeStep capacity s .left { s with left := .exited }
  | leftReaped {s : PipeState} : s.left = .exited →
      PipeStep capacity s .left { s with left := .gone }
  | read {s : PipeState} {b : UInt8} {pipe : List UInt8} : s.right = .running →
      s.pipe = b :: pipe →
      PipeStep capacity s .read { s with pipe := pipe, received := s.received ++ [b] }
  | rightExit {s : PipeState} : s.right = .running →
      PipeStep capacity s .right { s with right := .exited }

/-- The line is a pipe between two external commands. -/
structure ExternalPipe (line : Text) (cmd1 cmd2 : Command) : Prop where
  pipe : ∃ (cmd : Command) (sep : ℤ) (ampersand : Bool) (right : Text),
    createCommand line = some cmd ∧ cmd.kind = .pipe sep ampersand ∧
    rightPart line sep ampersand = some right ∧
    createCommand (leftPart line sep) = some cmd1 ∧ createCommand right = some cmd2
  external1 : ∃ special, cmd1.kind = .external special
  external2 : ∃ special, cmd2.kind = .external special

/-- The commands are there, and nothing has been done. -/
def PipeState.start (cmd1 : Command) (output : List UInt8) : PipeState where
  pc := .start
  background := cmd1.background
  left := .notStarted
  right := .notStarted
  todo := output
  pipe := []
  received := []

/-- The execution of `line` where the left command writes `output`. -/
def pipeline (line : Text) (capacity : ℕ) (output : List UInt8) :
    TransitionSystem PipeState PipeEvent where
  init s := ∃ cmd1 cmd2, ExternalPipe line cmd1 cmd2 ∧ s = .start cmd1 output
  step := PipeStep capacity

/-- The left command waits for room in the pipe, the shell for the left command, and nobody reads. -/
structure PipeState.Blocked (capacity : ℕ) (s : PipeState) : Prop where
  waiting : s.pc = .wait
  running : s.left = .running
  unwritten : s.todo ≠ []
  full : capacity ≤ s.pipe.length
  noReader : s.right = .notStarted

variable {line : Text} {cmd1 cmd2 : Command} {capacity : ℕ} {output : List UInt8}
  {s s' : PipeState} {e : PipeEvent}

/-- There is no way out of it. -/
theorem PipeState.Blocked.no_step (h : s.Blocked capacity) : ¬PipeStep capacity s e s' := by
  obtain ⟨hpc, hleft, htodo, hfull, hright⟩ := h
  intro hs
  cases hs with
  | write _ _ hroom => omega
  | leftExit _ hnil => exact htodo hnil
  | _ => simp_all

/-! ### Short outputs -/

/-- No byte is lost or made. -/
def PipeState.Conserves (output : List UInt8) (s : PipeState) : Prop :=
  s.received ++ s.pipe ++ s.todo = output

theorem PipeStep.conserves (h : PipeStep capacity s e s') (hs : s.Conserves output) :
    s'.Conserves output := by
  unfold PipeState.Conserves at hs ⊢
  cases h with
  | write _ htodo _ =>
      rw [htodo] at hs
      simpa using hs
  | read _ hpipe =>
      rw [hpipe] at hs
      simpa using hs
  | _ => exact hs

theorem pipeline_conserves (h : (pipeline line capacity output).Reachable s) :
    s.Conserves output := by
  apply h.invariant
  · rintro s ⟨cmd1, cmd2, -, rfl⟩
    simp [PipeState.Conserves, PipeState.start]
  · intro s a s' hs _ hstep
    exact PipeStep.conserves hstep hs

theorem PipeState.Conserves.not_blocked (h : s.Conserves output)
    (hlen : output.length ≤ capacity) : ¬s.Blocked capacity := by
  intro hb
  have hpos := List.length_pos_iff.mpr hb.unwritten
  have hfull := hb.full
  have := congrArg List.length h
  rw [List.length_append, List.length_append] at this
  omega

/-! ### Long outputs -/

/-- The shell waits, and the left command has written so many bytes. -/
def PipeState.afterWriting (output : List UInt8) (n : ℕ) : PipeState where
  pc := .wait
  background := false
  left := .running
  right := .notStarted
  todo := output.drop n
  pipe := output.take n
  received := []

/-- **As much as fits** can be written while the shell waits. -/
theorem afterWriting_reachable (hline : ExternalPipe line cmd1 cmd2) {n : ℕ} (hn : n ≤ capacity)
    (hlen : n ≤ output.length) :
    (pipeline line capacity output).Reachable (.afterWriting output n) := by
  induction n with
  | zero =>
      have h₀ : (pipeline line capacity output).Reachable (.start cmd1 output) :=
        .init ⟨cmd1, cmd2, hline, rfl⟩
      have h₁ := h₀.step trivial (PipeStep.start rfl)
      have h₂ := h₁.step trivial (PipeStep.fork rfl)
      exact h₂.step trivial (PipeStep.leftFork rfl)
  | succ n ih =>
      have htodo : (PipeState.afterWriting output n).todo = output[n] :: output.drop (n + 1) :=
        List.drop_eq_getElem_cons (by omega)
      have hroom : (PipeState.afterWriting output n).pipe.length < capacity := by
        rw [PipeState.afterWriting, List.length_take]
        omega
      have hwrite := (ih (by omega) (by omega)).step trivial (PipeStep.write rfl htodo hroom)
      have htake : output.take n ++ [output[n]] = output.take (n + 1) :=
        List.take_append_getElem (by omega)
      rw [PipeState.afterWriting, ← htake]
      exact hwrite

theorem afterWriting_blocked (h : capacity < output.length) :
    (PipeState.afterWriting output capacity).Blocked capacity where
  waiting := rfl
  running := rfl
  unwritten := by
    rw [PipeState.afterWriting, ne_eq, List.drop_eq_nil_iff]
    omega
  full := by
    rw [PipeState.afterWriting, List.length_take]
    omega
  noReader := rfl

/-- **When a pipeline cannot block itself**: if the output of the left command fits the pipe. -/
theorem pipeline_never_blocked (hline : ExternalPipe line cmd1 cmd2) :
    (∀ s, (pipeline line capacity output).Reachable s → ¬s.Blocked capacity) ↔
      output.length ≤ capacity := by
  constructor
  · intro h
    by_contra hlen
    have hlt : capacity < output.length := not_le.mp hlen
    exact h _ (afterWriting_reachable hline le_rfl hlt.le) (afterWriting_blocked hlt)
  · intro hlen s hs
    exact (pipeline_conserves hs).not_blocked hlen

def catWc : Text := "cat f|wc".toList

theorem externalPipe_catWc : ExternalPipe catWc (.new (.external false) "cat f".toList)
    (.new (.external false) "wc".toList) where
  pipe := ⟨.new (.pipe 5 false) catWc, 5, false, "wc".toList, by decide⟩
  external1 := ⟨false, rfl⟩
  external2 := ⟨false, rfl⟩

theorem pipeline_never_blocked_catWc :
    (∀ s, (pipeline catWc 4096 [104, 105]).Reachable s → ¬s.Blocked 4096) ↔
      ([104, 105] : List UInt8).length ≤ 4096 :=
  pipeline_never_blocked externalPipe_catWc

/-- One byte more than a pipe of 64 KiB can hold. -/
theorem pipeline_blocks : ∃ s,
    (pipeline catWc 65536 (List.replicate 65537 0)).Reachable s ∧ s.Blocked 65536 := by
  have hlen : (List.replicate 65537 (0 : UInt8)).length = 65537 := List.length_replicate
  refine ⟨.afterWriting (List.replicate 65537 0) 65536, ?_, ?_⟩
  · exact afterWriting_reachable externalPipe_catWc le_rfl (by rw [hlen]; decide)
  · exact afterWriting_blocked (by rw [hlen]; decide)

end OsProjects.Smash.CommandLine
