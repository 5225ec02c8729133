import OsProjects.Smash.Invariant

/-! # The jobs list, the states of its jobs, and the signal handlers

What the invariants say at the prompt and at every delivery of a signal. -/

namespace OsProjects.Smash

variable {s s' : State} {e : Event}

/-! ### A run -/

/-- The shell waits for a foreground command. -/
def State.waiting : State :=
  { jobs := [⟨1, 7, .foreground⟩]
    foreground := some 1
    child := Function.update (fun _ => none) 7 (some .running)
    pc := .wait 7
    todo := []
    handled := false }

theorem waiting_run {P : State → Event → Prop} (hP : ∀ s e, s.pc ≠ .clear true → P s e) :
    shell.Run P State.waiting := by
  have r₀ : shell.Run P State.start := .init rfl
  have r₁ := r₀.step (hP _ (.command (.external false)) (by simp [State.start]))
    (Step.command ⟨rfl, rfl⟩)
  have r₂ := r₁.step (hP _ .main (by simp [State.start])) (Step.main rfl)
  have r₃ := r₂.step (hP _ (.fork 7) (by simp [State.execute])) (Step.fork rfl (by decide) rfl)
  have r₄ := r₃.step (hP _ .main (by simp [State.removeFinishedJobs])) (Step.main rfl)
  have r₅ := r₄.step (hP _ .main (by simp [State.proceed])) (Step.main rfl)
  exact r₅.step (hP _ .main (by simp)) (Step.main rfl)

/-- The job has stopped, and the wait for it has ended. -/
theorem stopped_run {P : State → Event → Prop} (hP : ∀ s e, s.pc ≠ .clear true → P s e) :
    shell.Run P { State.waiting with
      child := Function.update (Function.update (fun _ => none) 7 (some .running)) 7
        (some (.stopped false)) } :=
  (waiting_run hP).step (hP _ (.child 7 (.stopped false)) (by simp [State.waiting]))
    (Step.child (show _ = some Status.running from rfl) trivial)

/-! ### The jobs list mirrors the children -/

theorem Inv.pointer_of_ready (h : Inv s) (hpc : s.pc = .ready) : s.foreground = none := by
  simpa [Pointer, hpc] using h.pointer

/-- **The jobs list mirrors the children.**  At every prompt the listed pids are those of the
children that are not yet reaped, each under one id, and `foreground` is `NULL`; and `addJob`
lists a new child under an id that is larger than all others, `1` if there is none.  (An `addJob`
with `INT_MAX` in the list has no next step, and `fork` does not fail.) -/
theorem jobs_mirror_children (h : shell.Reachable s) :
    (s.AtPrompt → (∀ pid, (s.child pid).isSome = true ↔ pid ∈ s.jobs.map Job.pid) ∧
      (s.jobs.map Job.pid).Nodup ∧ (s.jobs.map Job.jobId).Nodup ∧ s.foreground = none) ∧
    ∀ pid background s', s.pc = .insert pid background → s.next = some s' →
      ∃ id state, s'.jobs = s.jobs ++ [⟨id, pid, state⟩] ∧ (∀ job ∈ s.jobs, job.jobId < id) ∧
        (s.jobs = [] → id = 1) := by
  have hinv := reachable_inv h
  have hm := hinv.mirror
  refine ⟨fun ⟨hpc, _⟩ => ⟨fun pid => ?_, hm.pids, ?_, hinv.pointer_of_ready hpc⟩,
    fun pid background s' hpc hs => ?_⟩
  · have hc := hm.child pid
    rw [hpc] at hc
    rw [hc, List.mem_map]
    simp [Pc.reaped, Pc.unlisted]
  · rw [List.Nodup, List.pairwise_map]
    exact hm.sorted.imp fun h => Int.ne_of_lt h
  · have hlt : ∀ job ∈ s.jobs, job.jobId < newJobId s.jobs := fun job hj => hm.sorted.lt_newJobId hj
    have hnone : findJob (newJobId s.jobs) s.jobs = none :=
      findJob_none.mpr fun job hj => Int.ne_of_lt (hlt job hj)
    have hins : ∀ pid state, insertJob ⟨newJobId s.jobs, pid, state⟩ s.jobs =
        s.jobs ++ [⟨newJobId s.jobs, pid, state⟩] := fun _ _ => insertJob_of_lt hlt
    simp only [State.next, hpc, hnone, Option.isSome_none, Bool.false_eq_true, if_false,
      hins] at hs
    split at hs
    next => cases hs
    next =>
      cases hs
      exact ⟨newJobId s.jobs, _, rfl, hlt, fun h₀ => by rw [h₀]; rfl⟩

/-- A stopped job at the prompt. -/
theorem jobs_mirror_children_stopped :
    ∃ s : State, s.AtPrompt ∧ s.jobs.map Job.pid = [7] ∧ (s.child 7).isSome = true := by
  have r := (stopped_run (P := fun _ _ => True) fun _ _ _ => trivial).step trivial
    (Step.main rfl)
  have r' := r.step trivial (Step.main rfl)
  exact ⟨_, ⟨rfl, rfl⟩, rfl, (((jobs_mirror_children r').1 ⟨rfl, rfl⟩).1 7).mpr (by simp [State.waiting])⟩

/-- The main flow has a next step but at the prompt, in `fork`, while `waitpid` blocks, and when
the job ids are used up: no `NULL` or dangling pointer is followed. -/
theorem next_defined (h : shell.Reachable s) (hn : s.next = none) :
    s.AtPrompt ∨ (∃ background, s.pc = .fork background) ∨
      (∃ pid, s.pc = .wait pid ∧ waitUntraced (s.child pid) = none) ∨
      (∃ pid background, s.pc = .insert pid background ∧ State.intMax < newJobId s.jobs) := by
  obtain ⟨hm, hp⟩ := reachable_inv h
  cases hpc : s.pc with
  | ready =>
      cases htodo : s.todo with
      | nil => exact .inl ⟨hpc, htodo⟩
      | cons cmd todo => simp [State.next, hpc, htodo] at hn
  | fork background => exact .inr (.inl ⟨background, rfl⟩)
  | sweep ids after =>
      cases ids with
      | nil => simp [State.next, hpc] at hn
      | cons id ids =>
          obtain ⟨job, hj, rfl⟩ := hm.listed id (by rw [hpc]; exact List.mem_cons_self)
          obtain ⟨job', hjob⟩ := findJob_isSome hj
          simp only [State.next, hpc, hjob] at hn
          split at hn <;> cases hn
  | sweepClear finished => cases finished <;> simp [State.next, hpc] at hn
  | sweepErase => simp [State.next, hpc] at hn
  | insert pid background =>
      refine .inr (.inr (.inr ⟨pid, background, rfl, ?_⟩))
      by_contra hle
      simp only [State.next, hpc, if_neg hle] at hn
      split at hn <;> cases hn
  | cont id foreground =>
      obtain ⟨-, job, hj, rfl⟩ : s.foreground = none ∧ ∃ job ∈ s.jobs, job.jobId = id := by
        simpa only [Pointer, hpc] using hp
      obtain ⟨job', hjob⟩ := findJob_isSome hj
      simp only [State.next, hpc, hjob] at hn
      split at hn <;> cases hn
  | resume id foreground =>
      obtain ⟨-, job, hj, rfl⟩ : s.foreground = none ∧ ∃ job ∈ s.jobs, job.jobId = id := by
        simpa only [Pointer, hpc] using hp
      obtain ⟨job', hjob⟩ := findJob_isSome hj
      simp [State.next, hpc, hjob] at hn
  | point => simp [State.next, hpc] at hn
  | wait pid =>
      refine .inr (.inr (.inl ⟨pid, rfl, ?_⟩))
      cases hw : waitUntraced (s.child pid) with
      | none => rfl
      | some w =>
          simp only [State.next, hpc, hw] at hn
          cases w <;> cases hn
  | erase =>
      obtain ⟨job, hj, hf⟩ : ∃ job ∈ s.jobs, s.foreground = some job.jobId := by
        simpa only [Pointer, hpc] using hp
      obtain ⟨job', hjob⟩ := findJob_isSome hj
      simp [State.next, hpc, hf, hjob] at hn
  | clear => simp [State.next, hpc] at hn

/-! ### The signal handlers -/

/-- What a handler reads when a signal is delivered now: `foreground` is `NULL` or points to an
entry that is listed. -/
def State.HandlerReadsListed (s : State) : Prop :=
  ∀ id, s.foreground = some id → ∃ job ∈ s.jobs, job.jobId = id

/-- **The handlers follow no dangling pointer**, unless the signal is delivered between the two
statements of `swaitpid` that remove the entry and set `foreground` to `NULL`.  The states are those
of runs in which `fork` does not fail. -/
theorem handler_reads_listed_iff (h : shell.Reachable s) :
    s.HandlerReadsListed ↔ s.pc ≠ .clear false := by
  have hp := (reachable_inv h).pointer
  constructor
  · intro hl hpc
    simp only [Pointer, hpc] at hp
    obtain ⟨id, hf, hne⟩ := hp
    obtain ⟨job, hj, he⟩ := hl id hf
    exact hne job hj he
  · intro hne id hf
    cases hpc : s.pc with
    | ready | fork | sweep | sweepClear | sweepErase | insert =>
        simp [Pointer, hpc, hf] at hp
    | cont | resume | point =>
        simp [Pointer, hpc, hf] at hp
    | wait pid =>
        simp only [Pointer, hpc, hf] at hp
        obtain ⟨job, hj, he, -⟩ := hp
        exact ⟨job, hj, (Option.some.inj he).symm⟩
    | erase =>
        simp only [Pointer, hpc, hf] at hp
        obtain ⟨job, hj, he⟩ := hp
        exact ⟨job, hj, (Option.some.inj he).symm⟩
    | clear stopped =>
        cases stopped with
        | false => exact absurd hpc hne
        | true =>
            simp only [Pointer, hpc, hf] at hp
            obtain ⟨job, hj, he⟩ := hp
            exact ⟨job, hj, (Option.some.inj he).symm⟩

/-- While the shell waits, the handlers find the job. -/
theorem handler_reads_listed_waiting : State.waiting.HandlerReadsListed :=
  (handler_reads_listed_iff (waiting_run fun _ _ _ => trivial)).mpr (by simp [State.waiting])

/-- The command has exited, and a SIGINT is delivered after its entry was erased. -/
theorem handler_dangles :
    ∃ s s' : State, shell.Reachable s ∧ Step s .ctrlC s' ∧ ¬s.HandlerReadsListed := by
  have hexit : Step State.waiting (.child 7 .zombie) _ :=
    .child (show _ = some Status.running from rfl) trivial
  have r := (waiting_run (P := fun _ _ => True) fun _ _ _ => trivial).step trivial hexit
  have r₁ := r.step trivial (Step.main rfl)
  have r₂ := r₁.step trivial (Step.main rfl)
  refine ⟨_, _, r₂, .ctrlC, fun hl => ?_⟩
  obtain ⟨job, hj, -⟩ := hl 1 rfl
  exact absurd hj List.not_mem_nil

/-! ### Stopped jobs -/

/-- When the wait for a job ends because the job has stopped, a SIGTSTP has been delivered to
the shell, and its handler has stopped the job, since the job was put in the foreground. -/
def StopHandled (s : State) (_ : Event) : Prop := s.pc = .clear true → s.handled = true

/-- The job that is put, or was put, in the foreground. -/
def State.focus (s : State) : Option ℤ :=
  match s.pc with
  | .point id _ => some id
  | .wait _ => s.foreground
  | .erase => s.foreground
  | .clear _ => s.foreground
  | _ => none

/-- The states of the jobs: only the job in the foreground has the state of one, and not after
the handler of SIGTSTP has stopped it. -/
structure Marked (s : State) : Prop where
  focus : ∀ job ∈ s.jobs, job.state = .foreground → s.focus = some job.jobId
  handled : s.handled = true → ∀ job ∈ s.jobs, s.foreground = some job.jobId →
    job.state = .stopped

namespace Marked

/-- No job has the state of a job in the foreground if none is in the foreground. -/
theorem ne_foreground {job : Job} (h : Marked s) (hf : s.focus = none) (hj : job ∈ s.jobs) :
    job.state ≠ .foreground := by
  intro hs
  rw [h.focus job hj hs] at hf
  cases hf

/-- Jobs are erased, and the rest changes but for the job in the foreground. -/
theorem shrink (h : Marked s) (hj : ∀ job ∈ s'.jobs, job ∈ s.jobs) (hf : s'.focus = s.focus)
    (hh : s'.handled = s.handled) (hp : s'.foreground = s.foreground ∨ s'.foreground = none) :
    Marked s' where
  focus job hmem hs := by
    rw [hf]
    exact h.focus job (hj job hmem) hs
  handled hs job hmem he := by
    obtain hp | hp := hp
    · exact h.handled (hh ▸ hs) job (hj job hmem) (hp ▸ he)
    · rw [hp] at he
      cases he

/-- The job in the foreground is no longer in the foreground, and does not have that state. -/
theorem leave (h : Marked s) (hj : ∀ job ∈ s'.jobs, job ∈ s.jobs)
    (hl : ∀ job ∈ s.jobs, s.focus = some job.jobId → job.state ≠ .foreground)
    (hp : s'.foreground = none) : Marked s' where
  focus job hmem hs := absurd hs (hl job (hj job hmem) (h.focus job (hj job hmem) hs))
  handled _ job _ he := by
    rw [hp] at he
    cases he

end Marked

theorem Marked.execute {cmd : Command} (h : Marked s) (hpc : s.pc = .ready) :
    Marked (s.execute cmd) := by
  have hf : s.focus = none := by rw [State.focus, hpc]
  cases cmd with
  | redirection cmd => exact h.shrink (fun _ hj => hj) (by rw [hf, State.focus]; simp [State.execute, hpc]) rfl (.inl rfl)
  | other => exact h
  | _ => exact h.shrink (fun _ hj => hj) hf.symm rfl (.inl rfl)

theorem Marked.proceed {after : After} (h : Marked s) (hf : s.focus = none) :
    Marked (s.proceed after) := by
  cases after with
  | addJob | printJobsList | kill => exact h.shrink (fun _ hj => hj) hf.symm rfl (.inl rfl)
  | fg | bg =>
      rw [State.proceed]
      split <;> exact h.shrink (fun _ hj => hj) hf.symm rfl (.inl rfl)

/-- **The main flow** leaves no job in the foreground behind. -/
theorem Marked.next (h : Marked s) (hinv : Inv s) (hP : StopHandled s .main)
    (hs : s.next = some s') : Marked s' := by
  have hm := hinv.mirror
  have hp := hinv.pointer
  cases hpc : s.pc with
  | ready =>
      simp only [State.next, hpc] at hs
      split at hs
      next => cases hs
      next cmd todo htodo =>
        cases hs
        have hf : s.focus = none := by rw [State.focus, hpc]
        have hr : Marked { s with pc := .ready, todo := todo } :=
          h.shrink (fun _ hj => hj) hf.symm rfl (.inl rfl)
        exact hr.execute rfl
  | fork background => simp [State.next, hpc] at hs
  | sweep ids after =>
      have hf : s.focus = none := by rw [State.focus, hpc]
      cases ids with
      | nil =>
          simp only [State.next, hpc, Option.some.injEq] at hs
          exact hs ▸ h.proceed hf
      | cons id ids =>
          simp only [State.next, hpc] at hs
          split at hs
          next => cases hs
          next job hjob =>
            split at hs <;> cases hs <;> exact h.shrink (fun _ hj => hj) hf.symm rfl (.inl rfl)
  | sweepClear finished id ids after =>
      have hf : s.focus = none := by rw [State.focus, hpc]
      cases finished <;> simp only [State.next, hpc, Option.some.injEq] at hs <;> subst hs <;>
        exact h.shrink (fun _ hj => hj) hf.symm rfl (.inr rfl)
  | sweepErase id ids after =>
      have hf : s.focus = none := by rw [State.focus, hpc]
      simp only [State.next, hpc, Option.some.injEq] at hs
      subst hs
      exact h.shrink (fun _ hj => (mem_eraseJob.mp hj).1) hf.symm rfl (.inl rfl)
  | insert pid background =>
      have hf : s.focus = none := by rw [State.focus, hpc]
      have hfg : s.foreground = none := by simpa [Pointer, hpc] using hp
      have hlt : ∀ job ∈ s.jobs, job.jobId < newJobId s.jobs :=
        fun job hj => hm.sorted.lt_newJobId hj
      have hnone : findJob (newJobId s.jobs) s.jobs = none :=
        findJob_none.mpr fun job hj => Int.ne_of_lt (hlt job hj)
      have hins : ∀ pid state, insertJob ⟨newJobId s.jobs, pid, state⟩ s.jobs =
          s.jobs ++ [⟨newJobId s.jobs, pid, state⟩] := fun _ _ => insertJob_of_lt hlt
      simp only [State.next, hpc, hnone, Option.isSome_none, Bool.false_eq_true, if_false,
        hins] at hs
      split at hs
      next => cases hs
      next =>
        cases hs
        refine ⟨fun job hj hst => ?_, fun _ job _ he => ?_⟩
        · obtain hj | hj := List.mem_append.mp hj
          · exact absurd hst (h.ne_foreground hf hj)
          · obtain rfl := List.mem_singleton.mp hj
            cases background with
            | true => cases hst
            | false => rfl
        · rw [show s.foreground = none from hfg] at he
          cases he
  | cont id foreground =>
      have hf : s.focus = none := by rw [State.focus, hpc]
      simp only [State.next, hpc] at hs
      split at hs
      next => cases hs
      next => split at hs <;> cases hs <;> exact h.shrink (fun _ hj => hj) hf.symm rfl (.inl rfl)
  | resume id foreground =>
      have hf : s.focus = none := by rw [State.focus, hpc]
      obtain ⟨hfg, -⟩ : s.foreground = none ∧ _ := by simpa [Pointer, hpc] using hp
      simp only [State.next, hpc] at hs
      split at hs
      next => cases hs
      next job hjob =>
        cases hs
        refine ⟨fun j hj hst => ?_, fun _ j _ he => ?_⟩
        · obtain ⟨k, hk, rfl⟩ := List.mem_map.mp hj
          split at hst
          next hid =>
            cases foreground with
            | true => rw [if_pos hid]; exact congrArg some hid.symm
            | false => cases hst
          next => exact absurd hst (h.ne_foreground hf hk)
        · rw [show s.foreground = none from hfg] at he
          cases he
  | point id pid =>
      simp only [State.next, hpc, Option.some.injEq] at hs
      subst hs
      refine ⟨fun job hj hst => ?_, fun hh => by cases hh⟩
      have := h.focus job hj hst
      rw [State.focus, hpc] at this
      exact this
  | wait pid =>
      obtain ⟨job, hj, hfg, rfl⟩ : ∃ job ∈ s.jobs, s.foreground = some job.jobId ∧
          job.pid = pid := by simpa only [Pointer, hpc] using hp
      obtain ⟨status, hstatus⟩ := hm.child_of_mem hj (by rw [hpc]; rfl)
      have hf : s.focus = s.foreground := by rw [State.focus, hpc]
      simp only [State.next, hpc, hstatus] at hs
      cases status with
      | running => cases hs
      | zombie =>
          cases hs
          exact h.shrink (fun _ hj => hj) hf.symm rfl (.inl rfl)
      | stopped reported =>
          cases reported with
          | true => cases hs
          | false =>
              cases hs
              exact h.shrink (fun _ hj => hj) hf.symm rfl (.inl rfl)
  | erase =>
      have hf : s.focus = s.foreground := by rw [State.focus, hpc]
      simp only [State.next, hpc] at hs
      split at hs
      next => cases hs
      next =>
        cases hs
        exact h.shrink (fun _ hj => (mem_eraseJob.mp hj).1) hf.symm rfl (.inl rfl)
  | clear stopped =>
      have hf : s.focus = s.foreground := by rw [State.focus, hpc]
      simp only [State.next, hpc, Option.some.injEq] at hs
      subst hs
      refine h.leave (fun _ hj => hj) (fun job hj he => ?_) rfl
      rw [hf] at he
      cases stopped with
      | true =>
          -- the handler has marked the job
          rw [h.handled (hP hpc) job hj he]
          simp
      | false =>
          -- the job is gone
          simp only [Pointer, hpc] at hp
          obtain ⟨id, hfg, hne⟩ := hp
          rw [hfg] at he
          exact absurd (Option.some.inj he).symm (hne job hj)

/-- The handler of SIGTSTP marks the job it stops. -/
theorem Marked.ctrlZHandler (h : Marked s) : Marked s.ctrlZHandler := by
  rw [State.ctrlZHandler]
  split
  next => exact h
  next job hjob =>
    split
    next =>
      obtain ⟨id, hf, hfind⟩ := Option.bind_eq_some_iff.mp hjob
      obtain ⟨-, rfl⟩ := findJob_some hfind
      refine ⟨fun j hj hst => ?_, fun _ j hj he => ?_⟩
      · obtain ⟨k, hk, rfl⟩ := List.mem_map.mp hj
        split at hst
        next => cases hst
        next hid =>
          rw [if_neg hid]
          exact h.focus k hk hst
      · obtain ⟨k, hk, rfl⟩ := List.mem_map.mp hj
        have he' : job.jobId = _ := Option.some.inj (hf.symm.trans he)
        split at he'
        next hid => rw [if_pos hid]
        next hid => exact absurd he'.symm hid
    next => exact h

/-- A step whose wait, if it ends one, meets the condition. -/
theorem Marked.step (h : Marked s) (hinv : Inv s) (hP : StopHandled s e) (hs : Step s e s') :
    Marked s' := by
  cases hs with
  | command hprompt | fail =>
      exact h.shrink (fun _ hj => hj) rfl rfl (.inl rfl)
  | fork hpc =>
      have hf : s.focus = none := by rw [State.focus, hpc]
      exact h.shrink (fun _ hj => hj) hf.symm rfl (.inl rfl)
  | main hs => exact h.next hinv hP hs
  | child => exact h.shrink (fun _ hj => hj) rfl rfl (.inl rfl)
  | ctrlC => exact h
  | ctrlZ => exact h.ctrlZHandler

/-- In a run whose waits all meet the condition, the jobs are marked. -/
theorem run_marked (h : shell.Run StopHandled s) : Inv s ∧ Marked s := by
  refine h.invariant (I := fun s => Inv s ∧ Marked s) (fun s h₀ => ?_) ?_
  · rw [show s = State.start from h₀]
    exact ⟨.init, fun _ hj => absurd hj List.not_mem_nil, fun hh => by cases hh⟩
  · intro s e s' hI hP hs
    exact ⟨hI.1.step hs, hI.2.step hI.1 hP hs⟩

/-- **No job is left in the state of one in the foreground**, in a run in which each wait that
ends because its job has stopped was ended by the handler of SIGTSTP.  As above, `fork` does not
fail. -/
theorem no_job_left_foreground (h : shell.Run StopHandled s) :
    (s.AtPrompt → ∀ job ∈ s.jobs, job.state = .background ∨ job.state = .stopped) ∧
    ∀ s', s.pc = .clear true → StopHandled s .main → s.next = some s' →
      ∃ job ∈ s'.jobs, s.foreground = some job.jobId ∧ job.state = .stopped := by
  obtain ⟨hinv, hm⟩ := run_marked h
  refine ⟨fun ⟨hpc, _⟩ job hj => ?_, fun s' hpc hP hs => ?_⟩
  · have hne := hm.ne_foreground (by rw [State.focus, hpc]) hj
    cases hst : job.state with
    | foreground => exact absurd hst hne
    | background => exact .inl rfl
    | stopped => exact .inr rfl
  · obtain ⟨job, hj, hf⟩ : ∃ job ∈ s.jobs, s.foreground = some job.jobId := by
      simpa only [Pointer, hpc] using hinv.pointer
    simp only [State.next, hpc, Option.some.injEq] at hs
    subst hs
    exact ⟨job, hj, hf, hm.handled (hP hpc) job hj hf⟩

/-- The job is stopped from the keyboard. -/
theorem no_job_left_foreground_ctrlZ :
    ∃ s : State, s.AtPrompt ∧ (∃ job ∈ s.jobs, job.pid = 7) ∧
      ∀ job ∈ s.jobs, job.state = .background ∨ job.state = .stopped := by
  have r := (waiting_run (P := StopHandled) fun s _ hpc h => absurd h hpc).step
    (fun h => by cases h) Step.ctrlZ
  have hstop : Step State.waiting.ctrlZHandler (.child 7 (.stopped false)) _ :=
    .child (show _ = some Status.running from rfl) trivial
  have r₁ := r.step (fun h => by cases h) hstop
  have r₂ := r₁.step (fun h => by cases h) (Step.main rfl)
  have r₃ := r₂.step (fun _ => rfl) (Step.main rfl)
  exact ⟨_, ⟨rfl, rfl⟩, ⟨_, List.mem_cons_self, rfl⟩, (no_job_left_foreground r₃).1 ⟨rfl, rfl⟩⟩

/-- The job is stopped by a signal from elsewhere: it keeps the state of a job in the
foreground. -/
theorem stopped_left_foreground :
    ∃ s : State, shell.Reachable s ∧ s.AtPrompt ∧ ∃ job ∈ s.jobs, job.state = .foreground := by
  have r := (stopped_run (P := fun _ _ => True) fun _ _ _ => trivial).step trivial
    (Step.main rfl)
  have r' := r.step trivial (Step.main rfl)
  exact ⟨_, r', ⟨rfl, rfl⟩, ⟨1, 7, .foreground⟩, List.mem_cons_self, rfl⟩

end OsProjects.Smash
