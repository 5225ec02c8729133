import Mathlib.Algebra.Group.Int.Defs
import Mathlib.Logic.Function.Basic
import OsProjects.Lib.Transition
import OsProjects.Smash.JobsList

/-! # The shell and its children

The process of the shell as a transition system.  Its main flow goes through the functions of
`Commands.cpp` that touch the jobs list in elementary steps, with a program counter that names
the next one; between any two of them a child may exit, stop or continue, and a SIGINT or a
SIGTSTP may be delivered, whose handler of `signals.cpp` runs to its end.  Commands are given
as they are after parsing.

What is assumed:

* **Fork.** `fork` succeeds here, and returns a pid that no unreaped child has.  If it fails, `sfork`
  returns no value at all.
* **Undefined behaviour** has no next step.  By `next_defined` no `NULL` or dangling pointer is
  followed; what is left is `addJob` when the largest id is `INT_MAX`, whose successor is no `int`.
* **Handlers** run between two elementary steps, one at a time, each to its end.
* **Children.** Every change of a child that is not reaped may happen at any time, whoever sends the
  signal; what a child does to its own copy of the shell is not seen.

In every reachable state `jobs_mirror_children` holds of the list, `handler_reads_listed_iff` says
when a handler would follow a dangling pointer, and `no_job_left_foreground` which runs leave a
stopped job in the state of one in the foreground. -/

namespace OsProjects.Smash

/-! ### Children -/

/-- What a child that is not yet reaped does. -/
inductive Status where
  | running
  /-- Stopped; `waitpid` has reported the stop or not. -/
  | stopped (reported : Bool)
  | zombie
deriving DecidableEq, Repr

/-- The changes that may happen to a child at any time. -/
def Status.Changes : Status → Status → Prop
  | running, stopped false => True
  | running, zombie => True
  | stopped _, running => True
  | stopped _, zombie => True
  | _, _ => False

/-- The status after a SIGCONT. -/
def Status.continued : Status → Status
  | zombie => zombie
  | _ => running

/-- What `waitpid` returns: `-1`, `0`, or the pid of a child that exited or stopped. -/
inductive Wait where
  | failed
  | unchanged
  | exited
  | stopped
deriving DecidableEq, Repr

/-- `waitpid` with `WNOHANG`; a pid that is not an unreaped child has no status. -/
def waitNohang : Option Status → Wait
  | none => .failed
  | some .zombie => .exited
  | some _ => .unchanged

/-- `waitpid` with `WUNTRACED`; `none` as long as it blocks. -/
def waitUntraced : Option Status → Option Wait
  | none => some .failed
  | some .zombie => some .exited
  | some (.stopped false) => some .stopped
  | some _ => none

/-! ### Commands -/

/-- Commands as `CreateCommand` builds them.  `other` is a command that does not touch the jobs
list: `chprompt`, `showpid`, `pwd`, `cd`, an empty line, and `fg`, `bg` and `kill` with invalid
arguments. -/
inductive Command where
  | external (background : Bool)
  | pipe (cmd1 cmd2 : Command)
  | redirection (cmd : Command)
  | jobs
  | fg (jobId : Option ℤ)
  | bg (jobId : Option ℤ)
  | kill (jobId : ℤ) (signal : ℤ)
  | other
deriving DecidableEq, Repr

/-- `cmd->background = false` -/
def Command.setForeground : Command → Command
  | external _ => external false
  | c => c

/-- The command makes a pipe or opens a file first, which may fail. -/
def Command.MayFail : Command → Prop
  | pipe .. => True
  | redirection _ => True
  | _ => False

/-! ### The main flow -/

/-- What follows a call of `removeFinishedJobs`. -/
inductive After where
  | addJob (pid : ℤ) (background : Bool)
  | printJobsList
  | fg (jobId : Option ℤ)
  | bg (jobId : Option ℤ)
  | kill (jobId : ℤ) (signal : ℤ)
deriving DecidableEq, Repr

/-- The next elementary step of the main flow. -/
inductive Pc where
  /-- The next command, or the prompt. -/
  | ready
  /-- `fork()` in `sfork` -/
  | fork (background : Bool)
  /-- The loop of `removeFinishedJobs`: `waitpid` for the first of `ids`. -/
  | sweep (ids : List ℤ) (after : After)
  /-- `foreground = NULL` after that `waitpid`; the job `id` is erased next if it is finished. -/
  | sweepClear (finished : Bool) (id : ℤ) (ids : List ℤ) (after : After)
  /-- `jobs.erase(jobId(*it++))` -/
  | sweepErase (id : ℤ) (ids : List ℤ) (after : After)
  /-- `jobs.insert(…)` in `addJob` -/
  | insert (pid : ℤ) (background : Bool)
  /-- `kill(pid, SIGCONT)` in `fg` or `bg` -/
  | cont (id : ℤ) (foreground : Bool)
  /-- `state = …` in `fg` or `bg` -/
  | resume (id : ℤ) (foreground : Bool)
  /-- `foreground = …` in `addJob` or `fg`; the `waitpid` for `pid` follows. -/
  | point (id : ℤ) (pid : ℤ)
  /-- `waitpid(pid, status, WUNTRACED)` in `swaitpid` -/
  | wait (pid : ℤ)
  /-- `removeJobById(jobId(*foreground))` in `swaitpid` -/
  | erase
  /-- `foreground = NULL` in `swaitpid`, after the job stopped or was removed. -/
  | clear (stopped : Bool)
deriving DecidableEq, Repr

/-- The jobs list, the children, the main flow, and the commands it has still to execute. -/
structure State where
  jobs : List Job
  /-- The id of the entry that `foreground` points to. -/
  foreground : Option ℤ
  /-- The children that are not yet reaped. -/
  child : ℤ → Option Status
  pc : Pc
  todo : List Command
  /-- The handler of SIGTSTP has stopped the job since `foreground` points to it. -/
  handled : Bool

namespace State

/-- A call of `removeFinishedJobs`. -/
def removeFinishedJobs (s : State) (after : After) : State :=
  { s with pc := .sweep (s.jobs.map Job.jobId) after }

/-- `cmd->execute()` -/
def execute (s : State) : Command → State
  | .external background => { s with pc := .fork background }
  | .pipe _ cmd2 => { s with pc := .fork false, todo := cmd2.setForeground :: s.todo }
  | .redirection cmd => { s with todo := cmd.setForeground :: s.todo }
  | .jobs => s.removeFinishedJobs .printJobsList
  | .fg jobId => s.removeFinishedJobs (.fg jobId)
  | .bg jobId => s.removeFinishedJobs (.bg jobId)
  | .kill jobId signal => s.removeFinishedJobs (.kill jobId signal)
  | .other => s

/-- The job that `fg` continues: `getJobById` or `getLastJob`. -/
def fgJob (s : State) : Option ℤ → Option Job
  | some jobId => findJob jobId s.jobs
  | none => s.jobs.getLast?

/-- The job that `bg` continues: `getJobById`, if it does not run in the background already, or
`getLastStoppedJob`. -/
def bgJob (s : State) : Option ℤ → Option Job
  | some jobId => (findJob jobId s.jobs).filter fun job => job.state != .background
  | none => lastStoppedJob s.jobs

/-- Behind `removeFinishedJobs`.  What `kill` sends shows in the changes of its target. -/
def proceed (s : State) : After → State
  | .addJob pid background => { s with pc := .insert pid background }
  | .printJobsList => { s with pc := .ready }
  | .fg jobId =>
    match s.fgJob jobId with
    | some job => { s with pc := .cont job.jobId true }
    | none => { s with pc := .ready }
  | .bg jobId =>
    match s.bgJob jobId with
    | some job => { s with pc := .cont job.jobId false }
    | none => { s with pc := .ready }
  | .kill .. => { s with pc := .ready }

/-- `INT_MAX`.  A job id beyond it is undefined behaviour: `addJob` has no next step then. -/
def intMax : ℤ := 2 ^ 31 - 1

/-- The next elementary step of the main flow, but for `fork`; `none` at the prompt and while
`waitpid` blocks.  A `NULL` or dangling pointer has no next step either, nor has `addJob` if the
new id would not be an `int`. -/
def next (s : State) : Option State :=
  match s.pc with
  | .ready =>
    match s.todo with
    | [] => none
    | cmd :: todo => some ({ s with todo := todo }.execute cmd)
  | .fork _ => none
  | .sweep [] after => some (s.proceed after)
  | .sweep (id :: ids) after =>
    match findJob id s.jobs with
    | none => none
    | some job =>
      match waitNohang (s.child job.pid) with
      | .exited => some { s with
          child := Function.update s.child job.pid none
          pc := .sweepClear true id ids after }
      | .failed => some { s with pc := .sweepErase id ids after }
      | _ => some { s with pc := .sweepClear false id ids after }
  | .sweepClear true id ids after =>
    some { s with foreground := none, pc := .sweepErase id ids after }
  | .sweepClear false _ ids after => some { s with foreground := none, pc := .sweep ids after }
  | .sweepErase id ids after => some { s with jobs := eraseJob id s.jobs, pc := .sweep ids after }
  | .insert pid background =>
    let id := newJobId s.jobs
    if intMax < id then none
    else if (findJob id s.jobs).isSome then
      some { s with pc := if background then .ready else .wait pid }
    else
      some { s with
        jobs := insertJob ⟨id, pid, if background then .background else .foreground⟩ s.jobs
        pc := if background then .ready else .point id pid }
  | .cont id foreground =>
    match findJob id s.jobs with
    | none => none
    | some job =>
      match s.child job.pid with
      | none => some { s with pc := .ready }
      | some status => some { s with
          child := Function.update s.child job.pid (some status.continued)
          pc := .resume id foreground }
  | .resume id foreground =>
    match findJob id s.jobs with
    | none => none
    | some job => some { s with
        jobs := setState id (if foreground then .foreground else .background) s.jobs
        pc := if foreground then .point id job.pid else .ready }
  | .point id pid => some { s with foreground := some id, handled := false, pc := .wait pid }
  | .wait pid =>
    match waitUntraced (s.child pid) with
    | none => none
    | some .exited => some { s with child := Function.update s.child pid none, pc := .erase }
    | some .stopped => some { s with
        child := Function.update s.child pid (some (.stopped true))
        pc := .clear true }
    | some _ => some { s with pc := .ready }
  | .erase =>
    match s.foreground.bind fun id => findJob id s.jobs with
    | none => none
    | some job => some { s with jobs := eraseJob job.jobId s.jobs, pc := .clear false }
  | .clear _ => some { s with foreground := none, pc := .ready }

/-- `ctrlZHandler`.  A pointer to an entry that was erased leads to a pid that is no longer a
child; the signal cannot be sent then, and nothing happens. -/
def ctrlZHandler (s : State) : State :=
  match s.foreground.bind fun id => findJob id s.jobs with
  | none => s
  | some job =>
    if (s.child job.pid).isSome then
      { s with jobs := setState job.jobId .stopped s.jobs, handled := true }
    else s

/-- The shell waits for a command line. -/
def AtPrompt (s : State) : Prop := s.pc = .ready ∧ s.todo = []

end State

/-! ### Steps -/

/-- What happens: a step of the main flow, a change of a child, or a signal to the shell. -/
inductive Event where
  | command (cmd : Command)
  | fail
  | fork (pid : ℤ)
  | main
  | child (pid : ℤ) (status : Status)
  | ctrlC
  | ctrlZ

inductive Step : State → Event → State → Prop
  | command {s : State} {cmd : Command} : s.AtPrompt →
      Step s (.command cmd) { s with todo := [cmd] }
  /-- `pipe` or `open` has failed. -/
  | fail {s : State} {cmd : Command} {todo : List Command} : s.pc = .ready →
      s.todo = cmd :: todo → cmd.MayFail → Step s .fail { s with todo := todo }
  /-- `fork` returns the pid of a new child. -/
  | fork {s : State} {background : Bool} {pid : ℤ} : s.pc = .fork background → 0 < pid →
      s.child pid = none →
      Step s (.fork pid) ({ s with
        child := Function.update s.child pid (some .running) }.removeFinishedJobs
          (.addJob pid background))
  | main {s s' : State} : s.next = some s' → Step s .main s'
  | child {s : State} {pid : ℤ} {status status' : Status} : s.child pid = some status →
      status.Changes status' →
      Step s (.child pid status') { s with child := Function.update s.child pid (some status') }
  /-- `ctrlCHandler` only sends a signal, which shows in the changes of its target. -/
  | ctrlC {s : State} : Step s .ctrlC s
  | ctrlZ {s : State} : Step s .ctrlZ s.ctrlZHandler

/-- The shell after its start. -/
def State.start : State := ⟨[], none, fun _ => none, .ready, [], false⟩

/-- The shell with its children. -/
def shell : TransitionSystem State Event := ⟨(· = State.start), Step⟩

end OsProjects.Smash
