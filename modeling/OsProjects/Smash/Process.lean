import OsProjects.Lib.Descriptors
import OsProjects.Lib.Triples
import OsProjects.Smash.NullCommands

/-! # The process of the shell

What `execute` does to the process that runs it: its descriptors, its working directory, and the
members of `SmallShell` other than the jobs list.  The kernel is a parameter that answers each
system call, and may let it fail when the shell could not see it coming.  The commands on the jobs
list are events here.

What is assumed:

* **Children.** A child that `sfork` makes runs on a copy of the process, here to its end before
  its parent goes on; what the two do to their own copies does not depend on that order.
* **A failed `fork`.** `sfork` then reaches the end of a function that should return a value, and
  its caller tests what was not returned: undefined behaviour.
* **Undefined behaviour** ends the run, in a child too (`subprocess`): whatever is said of a run
  that ends so is about what was done before.
* **`argv`.** `ExternalCommand::execute` stores its `NULL` one place behind the end of `argv`;
  this is taken to do no harm to the child, which calls `execvp` next.

For one line `executeCommand_fds` says when the descriptors are the same afterwards,
`executeCommand_wiring` which programs it starts and what they are wired to, and
`executeCommand_returns` when it does not end the shell; `mainLoop_descriptors`,
`mainLoop_directories` and `mainLoop_returns` are about whole runs. -/

namespace OsProjects.Smash.CommandLine

/-! ### The state -/

/-- What an open descriptor refers to. -/
inductive Channel where
  /-- Open when the shell started. -/
  | inherited (id : ℕ)
  | readEnd (pipe : ℕ)
  | writeEnd (pipe : ℕ)
  | file (path : Text) (append : Bool)
deriving DecidableEq, Repr

/-- `SmallShell` -/
structure SmallShell where
  quit : Bool
  displayPrompt : Text
  lastPwd : Text
deriving DecidableEq, Repr

def DEFAULT_PROMPT : Text := "smash".toList

def SmallShell.start : SmallShell := ⟨false, DEFAULT_PROMPT, []⟩

structure Process where
  fds : Descriptors Channel
  cwd : Text
  smash : SmallShell
deriving DecidableEq, Repr

inductive Event where
  /-- `std::cout << smash.display_prompt + "> "` -/
  | prompt (text : Text)
  /-- `PRINT_SYSCALL_FAIL` -/
  | syscallFail (name : String)
  /-- `PRINT_RED_ERROR` -/
  | redError (cmd : Text) (err : String)
  /-- The image of a process is replaced. -/
  | exec (argv : List Text) (fds : Descriptors Channel) (cwd : Text)
  | pwd (cwd : Text)
  | showPid
  /-- `jobs`, `fg`, `bg` or `kill` -/
  | jobs (kind : Kind) (args : List Text)
  | killAllJobs
deriving DecidableEq, Repr

/-- The answer to a system call may depend on how many there were before. -/
structure Kernel where
  pipes : ℕ → Bool
  forks : ℕ → Bool
  opens : ℕ → Text → Bool → Bool
  execs : ℕ → List Text → Bool
  getcwds : ℕ → Bool
  /-- The new working directory, from the old one and a path. -/
  chdir : ℕ → Text → Text → Option Text

structure World where
  process : Process
  /-- The number of system calls that the kernel was asked for. -/
  clock : ℕ
  /-- The number of pipes that were made. -/
  pipes : ℕ
  events : List Event
deriving DecidableEq, Repr

/-- The shell after its start, with so many free descriptors. -/
def World.start (free : ℕ) : World where
  process := ⟨[some (.inherited 0), some (.inherited 1), some (.inherited 2)] ++
    List.replicate free none, "/".toList, .start⟩
  clock := 0
  pipes := 0
  events := []

inductive Reason where
  /-- An access through `NULL`. -/
  | null
  /-- `std::out_of_range` from `substr` -/
  | outOfRange
  /-- Undefined behaviour: arguments out of the bounds of an array, or a failed `fork`. -/
  | undefined
  /-- The recursion or the loop has not come to its end. -/
  | fuel
deriving DecidableEq, Repr

/-- A process that came to an end, with what was done until then. -/
structure Halt where
  reason : Reason
  world : World
deriving DecidableEq, Repr

def STDIN : ℕ := 0

def STDOUT : ℕ := 1

def STDERR : ℕ := 2

def halt {α : Type} (reason : Reason) : Prog Halt World α := fun w => .error ⟨reason, w⟩

/-! ### System calls -/

def emit (e : Event) : Prog Halt World Unit :=
  Prog.modify fun w => { w with events := w.events ++ [e] }

/-- Ask the kernel. -/
def ask {α : Type} (answer : ℕ → α) : Prog Halt World α :=
  fun w => .ok (answer w.clock, { w with clock := w.clock + 1 })

def setFds (fds : Descriptors Channel) : Prog Halt World Unit :=
  Prog.modify fun w => { w with process := { w.process with fds := fds } }

def setSmash (smash : SmallShell) : Prog Halt World Unit :=
  Prog.modify fun w => { w with process := { w.process with smash := smash } }

/-- `sdup`, whose message names another call. -/
def sdup (fd : ℕ) : Prog Halt World (Option ℕ) := do
  let fds ← Prog.gets fun w => w.process.fds
  match Descriptors.dup fds fd with
  | some (copy, fds) => do
    setFds fds
    pure (some copy)
  | none => do
    emit (.syscallFail "dup2")
    pure none

/-- `sdup2`; a descriptor of `-1` is `none`. -/
def sdup2 (fd : Option ℕ) (fd₂ : ℕ) : Prog Halt World Unit := do
  let fds ← Prog.gets fun w => w.process.fds
  match fd.bind fun fd => Descriptors.dup2 fds fd fd₂ with
  | some fds => setFds fds
  | none => emit (.syscallFail "dup2")

def sclose (fd : Option ℕ) : Prog Halt World Unit := do
  let fds ← Prog.gets fun w => w.process.fds
  match fd.bind fun fd => Descriptors.close fds fd with
  | some fds => setFds fds
  | none => emit (.syscallFail "close")

/-- `close`, without a message. -/
def close (fd : ℕ) : Prog Halt World Unit := do
  let fds ← Prog.gets fun w => w.process.fds
  match Descriptors.close fds fd with
  | some fds => setFds fds
  | none => pure ()

def sopen (k : Kernel) (path : Text) (append : Bool) : Prog Halt World (Option ℕ) := do
  let opens ← ask fun n => k.opens n path append
  let fds ← Prog.gets fun w => w.process.fds
  match if opens then Descriptors.alloc fds (.file path append) else none with
  | some (fd, fds) => do
    setFds fds
    pure (some fd)
  | none => do
    emit (.syscallFail "open")
    pure none

/-- `pipe`, which fails too if there are no two descriptors left. -/
def makePipe (k : Kernel) : Prog Halt World (Option (ℕ × ℕ)) := do
  let opens ← ask k.pipes
  let w ← Prog.gets id
  match if opens then Descriptors.pipe w.process.fds (.readEnd w.pipes) (.writeEnd w.pipes)
    else none with
  | some (r, w, fds) => do
    setFds fds
    Prog.modify fun w => { w with pipes := w.pipes + 1 }
    pure (some (r, w))
  | none => pure none

def sgetcwd (k : Kernel) : Prog Halt World (Option Text) := do
  if ← ask k.getcwds then
    Prog.gets fun w => some w.process.cwd
  else do
    emit (.syscallFail "getcwd")
    pure none

/-- The child does `child` on its copy of the process and comes to an end, in one way or another;
its parent goes on with its own.  Nothing is known any more behind undefined behaviour. -/
def subprocess (process : Process) (child : Prog Halt World Unit) : Prog Halt World Unit := fun w =>
  match child.run w with
  | .ok (_, w') => .ok ((), { w' with process := process })
  | .error h =>
    if h.reason = .fuel ∨ h.reason = .undefined then .error h
    else .ok ((), { h.world with process := process })

/-- `sfork`, which returns no value if `fork` has failed. -/
def sfork (k : Kernel) (child : Prog Halt World Unit) : Prog Halt World Unit := do
  let process ← Prog.gets fun w => w.process
  if ← ask k.forks then subprocess process child
  else do
    emit (.syscallFail "fork")
    halt .undefined

/-! ### Commands -/

/-- `SmallShell::CreateCommand` in a process. -/
def create (line : Text) : Prog Halt World (Option Command) :=
  match createCommand line with
  | none => pure none
  | some cmd => if cmd.args.isSome then pure (some cmd) else halt .undefined

/-- `cmd->…` -/
def deref : Option Command → Prog Halt World Command
  | some cmd => pure cmd
  | none => halt .null

/-- The result of `substr`. -/
def substr : Option Text → Prog Halt World Text
  | some s => pure s
  | none => halt .outOfRange

/-- `execv` or `execvp`, in a child. -/
def exec (k : Kernel) (name : String) (argv : List Text) : Prog Halt World Unit := do
  let process ← Prog.gets fun w => w.process
  if ← ask fun n => k.execs n argv then emit (.exec argv process.fds process.cwd)
  else emit (.syscallFail name)

/-- The child of `ExternalCommand::execute`.  The `NULL` that is stored behind the end of `argv` is
taken to do no harm. -/
def execExternal (k : Kernel) (special : Bool) (args : List Text) : Prog Halt World Unit :=
  if special then
    exec k "execv" ["/bin/bash".toList, "-c".toList, args.flatMap fun s => s ++ [' ']]
  else if args.isEmpty then halt .undefined
  else exec k "execvp" args

/-- `ChangePrompt::execute` -/
def executeChangePrompt (args : List Text) : Prog Halt World Unit := do
  let smash ← Prog.gets fun w => w.process.smash
  setSmash { smash with displayPrompt := (args[1]?).getD DEFAULT_PROMPT }

/-- `ChangeDirCommand::execute` -/
def executeChangeDir (k : Kernel) : List Text → Prog Halt World Unit
  | [] => halt .undefined
  | [_] => pure ()
  | [cd, arg] => do
    let smash ← Prog.gets fun w => w.process.smash
    if arg = ['-'] ∧ smash.lastPwd = [] then emit (.redError cd "OLDPWD not set")
    else do
      let newDir := if arg = ['-'] then smash.lastPwd else arg
      match ← sgetcwd k with
      | none => pure ()
      | some cwd => do
        match ← ask fun n => k.chdir n cwd newDir with
        | some dir => do
          Prog.modify fun w => { w with process := { w.process with cwd := dir } }
          setSmash { smash with lastPwd := cwd }
        | none => emit (.syscallFail "chdir")
  | cd :: _ => emit (.redError cd "too many arguments")

/-- `GetCurrDirCommand::execute`; nothing but the newline is printed if `getcwd` fails. -/
def executeGetCurrDir (k : Kernel) : Prog Halt World Unit := do
  let cwd ← sgetcwd k
  emit (.pwd (cwd.getD []))

/-- `QuitCommand::execute` -/
def executeQuit (args : List Text) : Prog Halt World Unit := do
  let smash ← Prog.gets fun w => w.process.smash
  setSmash { smash with quit := true }
  if args[1]? = some "kill".toList then emit .killAllJobs

/-- `execute` of the classes that do not call `CreateCommand`. -/
def executeSimple (k : Kernel) (kind : Kind) (args : List Text) : Prog Halt World Unit :=
  match kind with
  | .changePrompt => executeChangePrompt args
  | .changeDir => executeChangeDir k args
  | .getCurrDir => executeGetCurrDir k
  | .showPid => emit .showPid
  | .quit => executeQuit args
  | .external special => sfork k (execExternal k special args)
  | _ => emit (.jobs kind args)

/-- The descriptor that the left command of a pipe writes to. -/
def output (ampersand : Bool) : ℕ := if ampersand then STDERR else STDOUT

/-- What the child of `PipeCommand::execute` does with its descriptors. -/
def leftSide (r w : ℕ) (ampersand : Bool) : Prog Halt World Unit := do
  sdup2 (some w) (output ampersand)
  close r
  sclose (some w)

/-- What the shell does in front of `cmd2->execute()`; it returns `stdin_copy`. -/
def rightSide (r w : ℕ) : Prog Halt World (Option ℕ) := do
  let stdinCopy ← sdup STDIN
  sdup2 (some r) STDIN
  sclose (some r)
  sclose (some w)
  pure stdinCopy

/-- `PipeCommand::execute`, where `execute` is the one of the commands in it. -/
def executePipe (k : Kernel) (execute : Command → Prog Halt World Unit) (cmd : Command) (sep : ℤ)
    (ampersand : Bool) : Prog Halt World Unit := do
  match ← makePipe k with
  | none => emit (.syscallFail "pipe")
  | some (r, w) => do
    let cmd1 ← create (leftPart cmd.originalCmd sep)
    let right ← substr (rightPart cmd.originalCmd sep ampersand)
    let cmd2 ← create right
    let cmd1 ← deref cmd1
    let cmd2 ← deref cmd2
    sfork k do
      leftSide r w ampersand
      execute { cmd1 with background := false }
    let stdinCopy ← rightSide r w
    execute { cmd2 with background := false }
    sdup2 stdinCopy STDIN
    sclose stdinCopy

/-- `RedirectionCommand::execute` -/
def executeRedirection (k : Kernel) (execute : Command → Prog Halt World Unit) (cmd : Command)
    (sep : ℤ) (append : Bool) : Prog Halt World Unit := do
  let cmd1 ← create (leftPart cmd.originalCmd sep)
  let cmd1 ← deref cmd1
  let path ← substr (rightPart cmd.originalCmd sep append)
  match ← sopen k (trim path) append with
  | none => pure ()
  | some file => do
    let stdoutCopy ← sdup STDOUT
    sdup2 (some file) STDOUT
    execute { cmd1 with background := false }
    sclose (some file)
    sdup2 stdoutCopy STDOUT
    sclose stdoutCopy

/-- `cmd->execute()`.  Only `fuel` many commands are executed within each other. -/
def execute (k : Kernel) : ℕ → Command → Prog Halt World Unit
  | 0, _ => halt .fuel
  | fuel + 1, cmd =>
    match cmd.kind with
    | .pipe sep ampersand => executePipe k (execute k fuel) cmd sep ampersand
    | .redirection sep append => executeRedirection k (execute k fuel) cmd sep append
    | kind => executeSimple k kind (cmd.args.getD [])

/-- `SmallShell::executeCommand`.  A command is executed within another one only on a shorter line,
as long as the lengths fit an `int`. -/
def executeCommand (k : Kernel) (line : Text) : Prog Halt World Unit := do
  match ← create line with
  | none => pure ()
  | some cmd => execute k (line.length + 2) cmd

/-- The loop of `main` on the lines that come in; behind the last one `getline` gives empty lines.
Of each line `c_str()` passes on what is in front of a NUL. -/
def mainLoop (k : Kernel) : ℕ → List Text → Prog Halt World Unit
  | 0, _ => halt .fuel
  | fuel + 1, input => do
    let smash ← Prog.gets fun w => w.process.smash
    if smash.quit then pure ()
    else do
      emit (.prompt (smash.displayPrompt ++ "> ".toList))
      executeCommand k (cString (input.head?.getD []))
      mainLoop k fuel input.tail

end OsProjects.Smash.CommandLine
