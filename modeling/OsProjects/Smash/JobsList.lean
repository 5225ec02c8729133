import Mathlib.Data.Int.Notation
import Mathlib.Data.List.Basic
import Mathlib.Data.List.Nodup
import Mathlib.Tactic.Common

/-! # The jobs list

`JobsList::jobs` is a `std::map` from job ids to entries: a list in increasing order of the
ids.  An entry keeps its pid and its state; its time and its command are only printed. -/

namespace OsProjects.Smash

/-- `jobState` -/
inductive JobState where
  | foreground
  | background
  | stopped
deriving DecidableEq, Repr

/-- `JobsList::Job`: a job id with its `JobEntry`. -/
structure Job where
  jobId : ℤ
  pid : ℤ
  state : JobState
deriving DecidableEq, Repr

/-- `jobs.find(job_id)` -/
def findJob (jobId : ℤ) (jobs : List Job) : Option Job := jobs.find? fun j => j.jobId == jobId

/-- `jobs.insert(job)`: a job with an id that is there already is not inserted. -/
def insertJob (job : Job) : List Job → List Job
  | [] => [job]
  | j :: jobs =>
    if job.jobId < j.jobId then job :: j :: jobs
    else if j.jobId < job.jobId then j :: insertJob job jobs
    else j :: jobs

/-- `jobs.erase(job_id)` -/
def eraseJob (jobId : ℤ) (jobs : List Job) : List Job := jobs.filter fun j => j.jobId != jobId

/-- The entry of one job gets another state. -/
def setState (jobId : ℤ) (state : JobState) (jobs : List Job) : List Job :=
  jobs.map fun j => if j.jobId = jobId then { j with state := state } else j

/-- `new_job_id` of `addJob`. -/
def newJobId (jobs : List Job) : ℤ :=
  match jobs.getLast? with
  | none => 1
  | some job => job.jobId + 1

/-- `getLastStoppedJob`, after `removeFinishedJobs`. -/
def lastStoppedJob (jobs : List Job) : Option Job :=
  jobs.reverse.find? fun j => j.state == .stopped

/-! ### Lookups -/

variable {jobs : List Job} {job j : Job} {id pid : ℤ} {state : JobState}

theorem findJob_some (h : findJob id jobs = some job) : job ∈ jobs ∧ job.jobId = id :=
  ⟨List.mem_of_find?_eq_some h, by simpa using List.find?_some h⟩

theorem findJob_isSome (h : job ∈ jobs) : ∃ j, findJob job.jobId jobs = some j := by
  rw [← Option.isSome_iff_exists, findJob, List.find?_isSome]
  exact ⟨job, h, by simp⟩

theorem findJob_none : findJob id jobs = none ↔ ∀ job ∈ jobs, job.jobId ≠ id := by
  simp [findJob]

theorem mem_eraseJob : job ∈ eraseJob id jobs ↔ job ∈ jobs ∧ job.jobId ≠ id := by
  simp [eraseJob]

/-! ### What the changes keep -/

/-- The ids increase. -/
def Sorted (jobs : List Job) : Prop := jobs.Pairwise fun j k => j.jobId < k.jobId

theorem Sorted.eq_of_jobId (h : Sorted jobs) (hj : j ∈ jobs) (hk : job ∈ jobs)
    (he : j.jobId = job.jobId) : j = job := by
  have hd : (jobs.map Job.jobId).Nodup := by
    rw [List.Nodup, List.pairwise_map]
    exact h.imp fun h => Int.ne_of_lt h
  exact List.inj_on_of_nodup_map hd hj hk he

theorem Sorted.eraseJob (h : Sorted jobs) (id : ℤ) : Sorted (eraseJob id jobs) :=
  List.Pairwise.filter _ h

@[simp] theorem setState_pids (id : ℤ) (state : JobState) (jobs : List Job) :
    (setState id state jobs).map Job.pid = jobs.map Job.pid := by
  simp only [setState, List.map_map]
  refine List.map_congr_left fun j _ => ?_
  simp only [Function.comp]
  split <;> rfl

theorem Sorted.setState (h : Sorted jobs) (id : ℤ) (state : JobState) :
    Sorted (setState id state jobs) := by
  rw [Sorted, Smash.setState, List.pairwise_map]
  refine h.imp fun {j k} hjk => ?_
  split <;> split <;> exact hjk

/-- The jobs after a change of state, by their ids and pids. -/
theorem exists_mem_setState {p : ℤ → ℤ → Prop} :
    (∃ job ∈ setState id state jobs, p job.jobId job.pid) ↔ ∃ job ∈ jobs, p job.jobId job.pid := by
  simp only [setState, List.mem_map]
  constructor
  · rintro ⟨_, ⟨j, hj, rfl⟩, hp⟩
    refine ⟨j, hj, ?_⟩
    split at hp <;> exact hp
  · rintro ⟨j, hj, hp⟩
    refine ⟨_, ⟨j, hj, rfl⟩, ?_⟩
    split <;> exact hp

/-- **The id of a new job** is larger than every id that is listed. -/
theorem Sorted.lt_newJobId (h : Sorted jobs) (hj : j ∈ jobs) : j.jobId < newJobId jobs := by
  obtain ⟨l, job, rfl⟩ := (List.eq_nil_or_concat' jobs).resolve_left (List.ne_nil_of_mem hj)
  rw [newJobId, List.getLast?_concat]
  obtain hj | hj := List.mem_append.mp hj
  · have := (List.pairwise_append.mp h).2.2 j hj job (by simp)
    simp only
    omega
  · obtain rfl := List.mem_singleton.mp hj
    simp only
    omega

theorem insertJob_of_lt (h : ∀ j ∈ jobs, j.jobId < job.jobId) :
    insertJob job jobs = jobs ++ [job] := by
  induction jobs with
  | nil => rfl
  | cons j jobs ih =>
      obtain ⟨hj, hjobs⟩ := List.forall_mem_cons.mp h
      rw [insertJob, if_neg (by omega), if_pos hj, ih hjobs, List.cons_append]

end OsProjects.Smash
