import OsProjects.Smash.Shell

/-! # What holds between any two elementary steps

The jobs list mirrors the children but for the one child that was just forked and is not yet
listed, and the one entry whose child was just reaped and is not yet erased (`Mirror`); and
where `foreground` points to depends only on the program counter (`Pointer`). -/

namespace OsProjects.Smash

variable {s s' : State} {e : Event}

/-- The child that is forked and not yet listed. -/
def Pc.unlisted : Pc → Option ℤ
  | sweep _ (.addJob pid _) => some pid
  | sweepClear _ _ _ (.addJob pid _) => some pid
  | sweepErase _ _ (.addJob pid _) => some pid
  | insert pid _ => some pid
  | _ => none

/-- The job whose child is reaped and that is not yet erased. -/
def Pc.reaped (foreground : Option ℤ) : Pc → Option ℤ
  | sweepClear true id _ _ => some id
  | sweepErase id _ _ => some id
  | erase => foreground
  | _ => none

/-- The jobs that `removeFinishedJobs` has still to visit. -/
def Pc.unvisited : Pc → List ℤ
  | sweep ids _ => ids
  | sweepClear _ id ids _ => id :: ids
  | sweepErase id ids _ => id :: ids
  | _ => []

/-- The jobs list mirrors the children. -/
structure Mirror (s : State) : Prop where
  sorted : Sorted s.jobs
  pids : (s.jobs.map Job.pid).Nodup
  child : ∀ pid, (s.child pid).isSome = true ↔
    (∃ job ∈ s.jobs, job.pid = pid ∧ s.pc.reaped s.foreground ≠ some job.jobId) ∨
      s.pc.unlisted = some pid
  unlisted : ∀ pid, s.pc.unlisted = some pid → pid ∉ s.jobs.map Job.pid
  unvisited : s.pc.unvisited.Nodup
  listed : ∀ id ∈ s.pc.unvisited, ∃ job ∈ s.jobs, job.jobId = id

/-- Where `foreground` points to. -/
def Pointer (s : State) : Prop :=
  match s.pc with
  | .cont id _ => s.foreground = none ∧ ∃ job ∈ s.jobs, job.jobId = id
  | .resume id _ => s.foreground = none ∧ ∃ job ∈ s.jobs, job.jobId = id
  | .point id pid => s.foreground = none ∧ ∃ job ∈ s.jobs, job.jobId = id ∧ job.pid = pid
  | .wait pid => ∃ job ∈ s.jobs, s.foreground = some job.jobId ∧ job.pid = pid
  | .erase => ∃ job ∈ s.jobs, s.foreground = some job.jobId
  | .clear true => ∃ job ∈ s.jobs, s.foreground = some job.jobId
  | .clear false => ∃ id, s.foreground = some id ∧ ∀ job ∈ s.jobs, job.jobId ≠ id
  | _ => s.foreground = none

/-! ### Changes of one part of the state -/

namespace Mirror

/-- Only the program counter moves on, and it still has the same to do. -/
theorem move {pc : Pc} {foreground : Option ℤ} {todo : List Command} {handled : Bool}
    (h : Mirror s) (hr : pc.reaped foreground = s.pc.reaped s.foreground)
    (hu : pc.unlisted = s.pc.unlisted) (hv : pc.unvisited.Sublist s.pc.unvisited) :
    Mirror { s with pc := pc, foreground := foreground, todo := todo, handled := handled } where
  sorted := h.sorted
  pids := h.pids
  child pid := by
    show (s.child pid).isSome = true ↔ (∃ job ∈ s.jobs, job.pid = pid ∧
      pc.reaped foreground ≠ some job.jobId) ∨ pc.unlisted = some pid
    rw [hr, hu]
    exact h.child pid
  unlisted pid hp := h.unlisted pid (hu ▸ hp)
  unvisited := h.unvisited.sublist hv
  listed id hid := h.listed id (hv.subset hid)

/-- The statuses of the children change. -/
theorem changed {child : ℤ → Option Status} (h : Mirror s)
    (hc : ∀ pid, (child pid).isSome = (s.child pid).isSome) : Mirror { s with child := child } :=
  { h with child := fun pid => by simpa only [hc pid] using h.child pid }

theorem update {pid : ℤ} {status status' : Status} (h : Mirror s)
    (hc : s.child pid = some status) :
    Mirror { s with child := Function.update s.child pid (some status') } := by
  refine h.changed fun p => ?_
  by_cases hp : p = pid
  · subst hp
    rw [Function.update_self, hc]
    rfl
  · rw [Function.update_of_ne hp]

/-- A job gets another state. -/
theorem setState (h : Mirror s) (id : ℤ) (state : JobState) :
    Mirror { s with jobs := Smash.setState id state s.jobs } where
  sorted := h.sorted.setState id state
  pids := by
    show ((Smash.setState id state s.jobs).map Job.pid).Nodup
    rw [setState_pids]
    exact h.pids
  child pid := by
    show (s.child pid).isSome = true ↔ (∃ job ∈ Smash.setState id state s.jobs, job.pid = pid ∧
      s.pc.reaped s.foreground ≠ some job.jobId) ∨ _
    rw [exists_mem_setState (p := fun i p => p = pid ∧ s.pc.reaped s.foreground ≠ some i)]
    exact h.child pid
  unlisted pid hp := by
    show pid ∉ (Smash.setState id state s.jobs).map Job.pid
    rw [setState_pids]
    exact h.unlisted pid hp
  unvisited := h.unvisited
  listed i hi := (exists_mem_setState (p := fun j _ => j = i)).mpr (h.listed i hi)

/-- `waitpid` reaps the child of `job`, whose entry is to be erased next. -/
theorem reap {job : Job} {pc : Pc} (h : Mirror s) (hj : job ∈ s.jobs)
    (hn : s.pc.reaped s.foreground = none) (hr : pc.reaped s.foreground = some job.jobId)
    (hu : pc.unlisted = s.pc.unlisted) (hv : pc.unvisited.Sublist s.pc.unvisited) :
    Mirror { s with child := Function.update s.child job.pid none, pc := pc } where
  sorted := h.sorted
  pids := h.pids
  child pid := by
    have hc := h.child pid
    rw [hn] at hc
    show (Function.update s.child job.pid none pid).isSome = true ↔ (∃ j ∈ s.jobs, j.pid = pid ∧
      pc.reaped s.foreground ≠ some j.jobId) ∨ pc.unlisted = some pid
    rw [hr, hu]
    by_cases hp : pid = job.pid
    · subst hp
      rw [Function.update_self]
      simp only [Option.isSome_none, Bool.false_eq_true, false_iff, not_or]
      refine ⟨?_, fun hl => h.unlisted _ hl (List.mem_map_of_mem hj)⟩
      rintro ⟨j, hjm, hjp, hne⟩
      exact hne (congrArg (some ∘ Job.jobId) (List.inj_on_of_nodup_map h.pids hj hjm hjp.symm))
    · rw [Function.update_of_ne hp, hc]
      refine or_congr_left (exists_congr fun j => and_congr_right fun hjm =>
        and_congr_right fun hjp => ?_)
      refine ⟨fun _ he => hp ?_, fun _ => by simp⟩
      rw [← hjp, h.sorted.eq_of_jobId hj hjm (Option.some.inj he)]
  unlisted pid hp := h.unlisted pid (hu ▸ hp)
  unvisited := h.unvisited.sublist hv
  listed id hid := h.listed id (hv.subset hid)

/-- The entry of the reaped child is erased. -/
theorem erase {id : ℤ} {pc : Pc} (h : Mirror s) (hr : s.pc.reaped s.foreground = some id)
    (hn : pc.reaped s.foreground = none) (hu : pc.unlisted = s.pc.unlisted)
    (hv : pc.unvisited.Sublist s.pc.unvisited) (hid : id ∉ pc.unvisited) :
    Mirror { s with jobs := eraseJob id s.jobs, pc := pc } where
  sorted := h.sorted.eraseJob id
  pids := h.pids.sublist (List.filter_sublist.map _)
  child pid := by
    have hc := h.child pid
    rw [hr] at hc
    show (s.child pid).isSome = true ↔ (∃ j ∈ eraseJob id s.jobs, j.pid = pid ∧
      pc.reaped s.foreground ≠ some j.jobId) ∨ pc.unlisted = some pid
    rw [hc, hn, hu]
    refine or_congr_left (exists_congr fun j => ?_)
    rw [mem_eraseJob]
    constructor
    · rintro ⟨hj, hp, hne⟩
      exact ⟨⟨hj, fun he => hne (by rw [he])⟩, hp, by simp⟩
    · rintro ⟨⟨hj, hne⟩, hp, -⟩
      exact ⟨hj, hp, fun he => hne (Option.some.inj he).symm⟩
  unlisted pid hp hmem := by
    obtain ⟨j, hj, rfl⟩ := List.mem_map.mp hmem
    exact h.unlisted _ (hu ▸ hp) (List.mem_map_of_mem (mem_eraseJob.mp hj).1)
  unvisited := h.unvisited.sublist hv
  listed i hi := by
    obtain ⟨job, hj, rfl⟩ := h.listed i (hv.subset hi)
    exact ⟨job, mem_eraseJob.mpr ⟨hj, fun he => hid (he ▸ hi)⟩, rfl⟩

/-- `fork` returns a new child. -/
theorem fork {pid : ℤ} {background : Bool} (h : Mirror s) (hpc : s.pc = .fork background)
    (hp : s.child pid = none) :
    Mirror ({ s with
      child := Function.update s.child pid (some .running) }.removeFinishedJobs
        (.addJob pid background)) where
  sorted := h.sorted
  pids := h.pids
  child p := by
    have hc := h.child p
    rw [hpc] at hc
    show (Function.update s.child pid (some .running) p).isSome = true ↔
      (∃ j ∈ s.jobs, j.pid = p ∧ none ≠ some j.jobId) ∨ some pid = some p
    by_cases he : p = pid
    · subst he
      rw [Function.update_self]
      simp
    · rw [Function.update_of_ne he, hc]
      simp [Pc.reaped, Pc.unlisted, Ne.symm he]
  unlisted p hl hm := by
    obtain rfl : pid = p := Option.some.inj hl
    obtain ⟨job, hj, rfl⟩ := List.mem_map.mp hm
    have := (h.child job.pid).mpr (.inl ⟨job, hj, rfl, by simp [hpc, Pc.reaped]⟩)
    rw [hp] at this
    cases this
  unvisited := by
    show (s.jobs.map Job.jobId).Nodup
    rw [List.Nodup, List.pairwise_map]
    exact h.sorted.imp fun h => Int.ne_of_lt h
  listed id hid := by
    obtain ⟨job, hj, he⟩ := List.mem_map.mp hid
    exact ⟨job, hj, he⟩

/-- `addJob` lists the new child. -/
theorem insert {pid : ℤ} {background : Bool} {state : JobState} {pc : Pc} (h : Mirror s)
    (hpc : s.pc = .insert pid background) (hr : pc.reaped s.foreground = none)
    (hu : pc.unlisted = none) (hv : pc.unvisited = []) :
    Mirror { s with jobs := s.jobs ++ [⟨newJobId s.jobs, pid, state⟩], pc := pc } where
  sorted := by
    refine List.pairwise_append.mpr ⟨h.sorted, by simp, fun j hj k hk => ?_⟩
    rw [List.mem_singleton.mp hk]
    exact h.sorted.lt_newJobId hj
  pids := by
    show ((s.jobs ++ [(⟨newJobId s.jobs, pid, state⟩ : Job)]).map Job.pid).Nodup
    rw [List.map_append, List.map_singleton]
    refine List.nodup_append.mpr ⟨h.pids, by simp, fun a ha b hb hab => ?_⟩
    obtain rfl : a = pid := hab.trans (List.mem_singleton.mp hb)
    exact h.unlisted a (by rw [hpc]; rfl) ha
  child p := by
    have hc := h.child p
    rw [hpc] at hc
    show (s.child p).isSome = true ↔ (∃ j ∈ s.jobs ++ [⟨newJobId s.jobs, pid, state⟩], j.pid = p ∧
      pc.reaped s.foreground ≠ some j.jobId) ∨ pc.unlisted = some p
    rw [hc, hr, hu]
    simp [Pc.reaped, Pc.unlisted, or_and_right, exists_or]
  unlisted p hl := by
    rw [show pc.unlisted = none from hu] at hl
    cases hl
  unvisited := by
    show pc.unvisited.Nodup
    rw [hv]
    exact List.nodup_nil
  listed id hid := by
    rw [show pc.unvisited = [] from hv] at hid
    cases hid

end Mirror

/-! ### Steps -/

/-- What holds in every reachable state. -/
structure Inv (s : State) : Prop where
  mirror : Mirror s
  pointer : Pointer s

theorem Inv.init : Inv State.start where
  mirror :=
    { sorted := .nil
      pids := List.nodup_nil
      child := by simp [State.start, Pc.unlisted]
      unlisted := by simp [State.start, Pc.unlisted]
      unvisited := List.nodup_nil
      listed := by simp [State.start, Pc.unvisited] }
  pointer := rfl

/-- A job that is listed and not yet reaped has a child. -/
theorem Mirror.child_of_mem {job : Job} (h : Mirror s) (hj : job ∈ s.jobs)
    (hr : s.pc.reaped s.foreground = none) : ∃ status, s.child job.pid = some status := by
  rw [← Option.isSome_iff_exists]
  exact (h.child job.pid).mpr (.inl ⟨job, hj, rfl, by simp [hr]⟩)

/-- Behind `removeFinishedJobs`. -/
theorem Inv.proceed {after : After} (h : Inv s) (hpc : s.pc = .sweep [] after) :
    Inv (s.proceed after) := by
  obtain ⟨hm, hp⟩ := h
  have hf : s.foreground = none := by simpa [Pointer, hpc] using hp
  have hmove : ∀ pc : Pc, pc.reaped s.foreground = none → pc.unlisted = s.pc.unlisted →
      pc.unvisited = [] → Mirror { s with pc := pc } := fun pc hr hu hv =>
    hm.move (by rw [hr, hpc]; rfl) hu (by rw [hv]; exact List.nil_sublist _)
  cases after with
  | addJob pid background => exact ⟨hmove _ rfl (by rw [hpc]; rfl) rfl, hf⟩
  | printJobsList => exact ⟨hmove _ rfl (by rw [hpc]; rfl) rfl, hf⟩
  | kill => exact ⟨hmove _ rfl (by rw [hpc]; rfl) rfl, hf⟩
  | fg jobId =>
      rw [State.proceed]
      split
      next job hjob =>
        refine ⟨hmove _ rfl (by rw [hpc]; rfl) rfl, hf, job, ?_, rfl⟩
        cases jobId with
        | none => exact List.mem_of_getLast? hjob
        | some id => exact (findJob_some hjob).1
      next => exact ⟨hmove _ rfl (by rw [hpc]; rfl) rfl, hf⟩
  | bg jobId =>
      rw [State.proceed]
      split
      next job hjob =>
        refine ⟨hmove _ rfl (by rw [hpc]; rfl) rfl, hf, job, ?_, rfl⟩
        cases jobId with
        | none => exact List.mem_reverse.mp (List.mem_of_find?_eq_some hjob)
        | some id => exact (findJob_some (Option.filter_eq_some_iff.mp hjob).1).1
      next => exact ⟨hmove _ rfl (by rw [hpc]; rfl) rfl, hf⟩

/-- `cmd->execute()` -/
theorem Inv.execute {cmd : Command} (h : Inv s) (hpc : s.pc = .ready) : Inv (s.execute cmd) := by
  obtain ⟨hm, hp⟩ := h
  have hf : s.foreground = none := by simpa [Pointer, hpc] using hp
  have hsweep : ∀ after : After, (∀ ids, (Pc.sweep ids after).unlisted = none) →
      Inv (s.removeFinishedJobs after) := fun after ha =>
    ⟨{ hm with
        child := fun pid => by
          have hc := hm.child pid
          rw [hpc] at hc
          show (s.child pid).isSome = true ↔ (∃ job ∈ s.jobs, job.pid = pid ∧
            none ≠ some job.jobId) ∨ (Pc.sweep (s.jobs.map Job.jobId) after).unlisted = some pid
          rw [hc, ha]
          rfl
        unlisted := fun pid hl => by
          have hl' : (Pc.sweep (s.jobs.map Job.jobId) after).unlisted = some pid := hl
          rw [ha] at hl'
          cases hl'
        unvisited := by
          show (s.jobs.map Job.jobId).Nodup
          rw [List.Nodup, List.pairwise_map]
          exact hm.sorted.imp fun h => Int.ne_of_lt h
        listed := fun id hid => List.mem_map.mp hid }, hf⟩
  have hmove : ∀ (pc : Pc) (todo : List Command), pc.reaped s.foreground = none →
      pc.unlisted = none → pc.unvisited = [] → Mirror { s with pc := pc, todo := todo } :=
    fun pc todo hr hu hv => hm.move (by rw [hr, hpc]; rfl) (by rw [hu, hpc]; rfl)
      (by rw [hv]; exact List.nil_sublist _)
  cases cmd with
  | external background => exact ⟨hmove _ _ rfl rfl rfl, hf⟩
  | pipe cmd1 cmd2 => exact ⟨hmove _ _ rfl rfl rfl, hf⟩
  | redirection cmd =>
      have := hmove s.pc (cmd.setForeground :: s.todo) (by rw [hpc]; rfl) (by rw [hpc]; rfl)
        (by rw [hpc]; rfl)
      exact ⟨this, hp⟩
  | jobs | fg | bg | kill => exact hsweep _ fun _ => rfl
  | other => exact ⟨hm, hp⟩

/-- **The main flow** keeps the invariants. -/
theorem Inv.next (h : Inv s) (hs : s.next = some s') : Inv s' := by
  have hm := h.mirror
  have hp := h.pointer
  cases hpc : s.pc with
  | ready =>
      simp only [State.next, hpc] at hs
      split at hs
      next => cases hs
      next cmd todo htodo =>
        cases hs
        have hf : s.foreground = none := by simpa [Pointer, hpc] using hp
        have hmove : Mirror { s with pc := .ready, todo := todo } :=
          hm.move (by rw [hpc]) (by rw [hpc]) (List.nil_sublist _)
        exact Inv.execute ⟨hmove, hf⟩ rfl
  | fork background =>
      simp [State.next, hpc] at hs
  | sweep ids after =>
      have hf : s.foreground = none := by simpa [Pointer, hpc] using hp
      cases ids with
      | nil =>
          simp only [State.next, hpc, Option.some.injEq] at hs
          exact hs ▸ h.proceed hpc
      | cons id ids =>
          simp only [State.next, hpc] at hs
          split at hs
          next => cases hs
          next job hjob =>
            obtain ⟨hj, rfl⟩ := findJob_some hjob
            obtain ⟨status, hstatus⟩ := hm.child_of_mem hj (by rw [hpc]; rfl)
            rw [hstatus] at hs
            cases status with
            | zombie =>
                -- the child is reaped, its entry is to be erased
                cases hs
                refine ⟨hm.reap hj (by rw [hpc]; rfl) rfl ?_ ?_, hf⟩
                · rw [hpc]
                  cases after <;> rfl
                · rw [hpc]
                  exact List.Sublist.refl _
            | running | stopped =>
                cases hs
                refine ⟨hm.move (by rw [hpc]; rfl) ?_ ?_, hf⟩
                · rw [hpc]
                  cases after <;> rfl
                · rw [hpc]
                  exact List.Sublist.refl _
  | sweepClear finished id ids after =>
      have hunlisted : ∀ finished', (Pc.sweepClear finished' id ids after).unlisted =
          (Pc.sweep ids after).unlisted := fun _ => by cases after <;> rfl
      cases finished with
      | true =>
          simp only [State.next, hpc, Option.some.injEq] at hs
          subst hs
          refine ⟨hm.move (by rw [hpc]; rfl) ?_ ?_, rfl⟩
          · rw [hpc]
            cases after <;> rfl
          · rw [hpc]
            exact List.Sublist.refl _
      | false =>
          simp only [State.next, hpc, Option.some.injEq] at hs
          subst hs
          refine ⟨hm.move (by rw [hpc]; rfl) ?_ ?_, rfl⟩
          · rw [hpc]
            cases after <;> rfl
          · rw [hpc]
            exact List.sublist_cons_self _ _
  | sweepErase id ids after =>
      simp only [State.next, hpc, Option.some.injEq] at hs
      subst hs
      have hf : s.foreground = none := by simpa [Pointer, hpc] using hp
      have hv := hm.unvisited
      rw [hpc] at hv
      refine ⟨hm.erase (by rw [hpc]; rfl) rfl ?_ ?_ (List.nodup_cons.mp hv).1, hf⟩
      · rw [hpc]
        cases after <;> rfl
      · rw [hpc]
        exact List.sublist_cons_self _ _
  | insert pid background =>
      have hf : s.foreground = none := by simpa [Pointer, hpc] using hp
      have hnone : findJob (newJobId s.jobs) s.jobs = none :=
        findJob_none.mpr fun job hj => Int.ne_of_lt (hm.sorted.lt_newJobId hj)
      simp only [State.next, hpc, hnone, Option.isSome_none, Bool.false_eq_true, if_false] at hs
      rw [insertJob_of_lt fun j hj => hm.sorted.lt_newJobId hj] at hs
      split at hs
      next => cases hs
      next =>
        cases hs
        cases background with
        | true => exact ⟨hm.insert hpc rfl rfl rfl, hf⟩
        | false =>
            exact ⟨hm.insert hpc rfl rfl rfl, hf, ⟨newJobId s.jobs, pid, .foreground⟩, by simp,
              rfl, rfl⟩
  | cont id foreground =>
      simp only [State.next, hpc] at hs
      obtain ⟨hf, -⟩ : s.foreground = none ∧ _ := by simpa [Pointer, hpc] using hp
      split at hs
      next => cases hs
      next job hjob =>
        obtain ⟨hj, rfl⟩ := findJob_some hjob
        obtain ⟨status, hstatus⟩ := hm.child_of_mem hj (by rw [hpc]; rfl)
        rw [hstatus] at hs
        cases hs
        have hmove : Mirror { s with pc := .resume job.jobId foreground } :=
          hm.move (by rw [hpc]; rfl) (by rw [hpc]; rfl) (List.nil_sublist _)
        exact ⟨hmove.update hstatus, hf, job, hj, rfl⟩
  | resume id foreground =>
      simp only [State.next, hpc] at hs
      obtain ⟨hf, -⟩ : s.foreground = none ∧ _ := by simpa [Pointer, hpc] using hp
      split at hs
      next => cases hs
      next job hjob =>
        obtain ⟨hj, rfl⟩ := findJob_some hjob
        cases hs
        have hmove : ∀ pc : Pc, pc.reaped s.foreground = none → pc.unlisted = none →
            pc.unvisited = [] → Mirror { s with pc := pc } := fun pc hr hu hv =>
          hm.move (by rw [hr, hpc]; rfl) (by rw [hu, hpc]; rfl) (by rw [hv]; exact List.nil_sublist _)
        cases foreground with
        | false => exact ⟨(hmove .ready rfl rfl rfl).setState _ _, hf⟩
        | true =>
            refine ⟨(hmove (.point job.jobId job.pid) rfl rfl rfl).setState _ _, hf, ?_⟩
            exact (exists_mem_setState (p := fun i p => i = job.jobId ∧ p = job.pid)).mpr
              ⟨job, hj, rfl, rfl⟩
  | point id pid =>
      simp only [State.next, hpc, Option.some.injEq] at hs
      subst hs
      obtain ⟨hf, job, hj, rfl, rfl⟩ : s.foreground = none ∧
          ∃ job ∈ s.jobs, job.jobId = id ∧ job.pid = pid := by simpa only [Pointer, hpc] using hp
      exact ⟨hm.move (by rw [hpc]; rfl) (by rw [hpc]; rfl) (List.nil_sublist _), job, hj, rfl, rfl⟩
  | wait pid =>
      obtain ⟨job, hj, hf, rfl⟩ : ∃ job ∈ s.jobs, s.foreground = some job.jobId ∧ job.pid = pid := by
        simpa only [Pointer, hpc] using hp
      obtain ⟨status, hstatus⟩ := hm.child_of_mem hj (by rw [hpc]; rfl)
      simp only [State.next, hpc, hstatus] at hs
      cases status with
      | running => cases hs
      | zombie =>
          cases hs
          exact ⟨hm.reap hj (by rw [hpc]; rfl) hf (by rw [hpc]; rfl) (List.nil_sublist _), job, hj, hf⟩
      | stopped reported =>
          cases reported with
          | true => cases hs
          | false =>
              cases hs
              have hmove : Mirror { s with pc := .clear true } :=
                hm.move (by rw [hpc]; rfl) (by rw [hpc]; rfl) (List.nil_sublist _)
              exact ⟨hmove.update hstatus, job, hj, hf⟩
  | erase =>
      obtain ⟨job, hj, hf⟩ : ∃ job ∈ s.jobs, s.foreground = some job.jobId := by
        simpa only [Pointer, hpc] using hp
      have hbind : (s.foreground.bind fun id => findJob id s.jobs) = findJob job.jobId s.jobs := by
        rw [hf, Option.bind_some]
      simp only [State.next, hpc, hbind] at hs
      split at hs
      next => cases hs
      next job' hjob' =>
        obtain ⟨hj', he⟩ := findJob_some hjob'
        cases hs
        rw [he]
        refine ⟨hm.erase (by rw [hpc]; exact hf) rfl (by rw [hpc]; rfl) (List.nil_sublist _)
          List.not_mem_nil, job.jobId, hf, fun j hj => ?_⟩
        exact (mem_eraseJob.mp hj).2
  | clear stopped =>
      simp only [State.next, hpc, Option.some.injEq] at hs
      subst hs
      exact ⟨hm.move (by rw [hpc]; rfl) (by rw [hpc]; rfl) (List.nil_sublist _), rfl⟩

/-- The handler of SIGTSTP changes the state of one job at most. -/
theorem Inv.ctrlZHandler (h : Inv s) : Inv s.ctrlZHandler := by
  rw [State.ctrlZHandler]
  split
  next => exact h
  next job hjob =>
    split
    next =>
      refine ⟨(h.mirror.setState job.jobId .stopped).move rfl rfl (List.Sublist.refl _), ?_⟩
      have hp := h.pointer
      have hids : ∀ {p : ℤ → ℤ → Prop}, (∃ j ∈ s.jobs, p j.jobId j.pid) →
          ∃ j ∈ setState job.jobId .stopped s.jobs, p j.jobId j.pid := exists_mem_setState.mpr
      cases hpc : s.pc with
      | ready | fork | sweep | sweepClear | sweepErase | insert => simpa [Pointer, hpc] using hp
      | cont id | resume id =>
          simp only [Pointer, hpc] at hp ⊢
          exact ⟨hp.1, hids (p := fun i _ => i = id) hp.2⟩
      | point id pid =>
          simp only [Pointer, hpc] at hp ⊢
          exact ⟨hp.1, hids (p := fun i p => i = id ∧ p = pid) hp.2⟩
      | wait pid =>
          simp only [Pointer, hpc] at hp ⊢
          exact hids (p := fun i p => s.foreground = some i ∧ p = pid) hp
      | erase =>
          simp only [Pointer, hpc] at hp ⊢
          exact hids (p := fun i _ => s.foreground = some i) hp
      | clear stopped =>
          cases stopped with
          | true =>
              simp only [Pointer, hpc] at hp ⊢
              exact hids (p := fun i _ => s.foreground = some i) hp
          | false =>
              -- the pointer dangles: the handler finds no entry
              simp only [Pointer, hpc] at hp
              obtain ⟨id, hf, hne⟩ := hp
              rw [hf, Option.bind_some] at hjob
              obtain ⟨hj, he⟩ := findJob_some hjob
              exact absurd he (hne job hj)
    next => exact h

theorem Inv.step (h : Inv s) (hs : Step s e s') : Inv s' := by
  cases hs with
  | command hprompt =>
      obtain ⟨hpc, -⟩ := hprompt
      exact ⟨h.mirror.move rfl (by rfl) (List.Sublist.refl s.pc.unvisited), h.pointer⟩
  | fail => exact ⟨h.mirror.move rfl (by rfl) (List.Sublist.refl s.pc.unvisited), h.pointer⟩
  | fork hpc _ hp =>
      have hf : s.foreground = none := by simpa [Pointer, hpc] using h.pointer
      exact ⟨h.mirror.fork hpc hp, hf⟩
  | main hs => exact h.next hs
  | child hc _ => exact ⟨h.mirror.update hc, h.pointer⟩
  | ctrlC => exact h
  | ctrlZ => exact h.ctrlZHandler

/-- **Every reachable state meets the invariants.** -/
theorem reachable_inv (h : shell.Reachable s) : Inv s :=
  h.invariant (fun s h₀ => by rw [show s = State.start from h₀]; exact .init)
    fun _ _ _ hI _ hs => hI.step hs

end OsProjects.Smash
