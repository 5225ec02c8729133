import OsProjects.WebServer.Refinement

/-! # Safety of the server

What the invariants say about every reachable state: no connection is lost, duplicated or
closed twice, the ring is never overfull, and no thread sleeps through the event it waits
for. -/

namespace OsProjects.WebServer

variable {cfg : Config}

/-! ### Connections -/

/-- **No connection is lost, duplicated or closed twice.**  Each connection that was accepted
is held by the master, or in one occupied slot of the ring, or with one worker, or was closed
once (by a policy or by a worker); none that a policy closed has been given to a worker; and
what the master, the ring and the workers have as arrival time of a connection is the one time
that was stamped for it, in the order of the `Accept`s. -/
theorem connection_conserved {s : State cfg.threadsNum} (h : (server cfg).Reachable s) :
    (∀ c ∈ s.history.accepted, s.places cfg.queueCapacity c = 1) ∧
    (∀ c ∈ s.history.dropped, c ∉ s.history.dispatched.map Request.connfd) ∧
    s.history.accepted.Nodup ∧
    (s.history.accepted = s.history.stamped.map Prod.fst ++
      if s.master.pc = .stamp then [s.master.connfd] else []) ∧
    (s.master.pc ≠ .accept → s.master.pc ≠ .stamp →
      (s.master.connfd, s.master.acceptTime) ∈ s.history.stamped) ∧
    (∀ r ∈ s.queued cfg.queueCapacity, (r.connfd, r.arrivalTime) ∈ s.history.stamped) ∧
    (∀ i r, (s.workers i).pc.handling = some r →
      (r.connfd, r.arrivalTime) ∈ s.history.stamped) ∧
    (∀ i r stats, (s.workers i).pc = .handle r stats →
      stats.arrivalTime = r.arrivalTime) := by
  obtain ⟨-, -, -, ho, ht⟩ := reachable_inv h
  have hone : ∀ c ∈ s.history.accepted, s.places cfg.queueCapacity c = 1 := fun c hc => by
    rw [ho.places c]
    exact List.count_eq_one_of_mem ho.fresh hc
  refine ⟨hone, fun c hc hd => ?_, ho.fresh, ht.accepted, ht.master, ht.waiting, ht.handling,
    ht.statsStamp⟩
  have h₁ := ho.places c
  have h₂ := List.nodup_iff_count_le_one.mp ho.fresh c
  have h₃ := ho.dispatched c
  have h₄ := List.count_pos_iff.mpr hc
  have h₅ := List.count_pos_iff.mpr hd
  simp only [State.places] at h₁
  omega

/-- Four connections, one of them closed by `drop_random`, two at workers, one waiting. -/
theorem connection_conserved_dispatched :
    ∃ s : State 2, s.history.accepted = [4, 5, 6, 7] ∧ s.history.dropped = [6] ∧
      s.history.dispatched.map Request.connfd = [4, 5] ∧
      (∀ c ∈ s.history.accepted, s.places 3 c = 1) ∧
      (6 : ℤ) ∉ s.history.dispatched.map Request.connfd := by
  have hrun : ((State.start ⟨3, 2, .dropRandom, by decide, by decide⟩).replay _ (
      arriving 4 ++ arriving 5 ++ [.workerLock 1, .take 1 ⟨5, 1⟩] ++ arriving 6 ++
      crowded 7 id ++ [.enqueue, .workerLock 0, .take 0 ⟨7, 2⟩])).any (fun s =>
        s.history.accepted = [4, 5, 6, 7] ∧ s.history.dropped = [6] ∧
          s.history.dispatched.map Request.connfd = [4, 5]) = true := by decide
  obtain ⟨s, hs, hp⟩ := exists_replay hrun
  obtain ⟨ha, hdrop, hd⟩ := of_decide_eq_true hp
  obtain ⟨hplaces, hdropped, -⟩ := connection_conserved hs
  exact ⟨s, ha, hdrop, hd, hplaces, hdropped 6 (by simp [hdrop])⟩

/-! ### Occupancy -/

/-- **Bounded occupancy.**  The sizes are not negative, the list counts the busy workers, the
two sizes fit into the capacity together, and the slot into which the master puts a request is
not occupied. -/
theorem occupancy_bounded {s : State cfg.threadsNum} (h : (server cfg).Reachable s) :
    0 ≤ s.requestsQueue.size ∧ 0 ≤ s.requestsList.size ∧
    s.requestsList.size = s.busyWorkers ∧
    s.requestsQueue.size + s.requestsList.size ≤ cfg.queueCapacity ∧
    (s.master.pc = .test → ¬s.Full cfg → ∀ i : ℕ, i < s.requestsQueue.size →
      (s.requestsQueue.head + i) % cfg.queueCapacity ≠ s.requestsQueue.tail) := by
  have hb := (reachable_inv h).bounds
  have hr := hb.ring
  have hn := hr.nonneg
  refine ⟨hn, by rw [hb.list]; omega, hb.list, hb.sum, fun _ hf i hi he => ?_⟩
  have hroom := hb.room hf
  rw [hr.tail] at he
  have := ring_index_inj (by omega) (by omega) he
  omega

/-- A full ring from which `drop_head` has closed a connection; the master has room now. -/
theorem occupancy_bounded_dispatched :
    ∃ s : State 2, s.history.dropped = [5] ∧ s.requestsQueue.size = 1 ∧
      s.requestsQueue.size + s.requestsList.size ≤ 3 ∧
      s.requestsQueue.head ≠ s.requestsQueue.tail := by
  have hrun : ((State.start ⟨3, 2, .dropHead, by decide, by decide⟩).replay _ (
      arriving 4 ++ arriving 5 ++ [.workerLock 1, .take 1 ⟨5, 1⟩] ++ arriving 6 ++
      crowded 7 id)).any (fun s => s.history.dropped = [5] ∧ s.requestsQueue.size = 1 ∧
        s.requestsQueue.head % 3 = s.requestsQueue.head ∧ s.master.pc = .test ∧
        ¬s.Full ⟨3, 2, .dropHead, by decide, by decide⟩) = true := by decide
  obtain ⟨s, hs, hp⟩ := exists_replay hrun
  obtain ⟨hdrop, hsize, hmod, hpc, hfull⟩ := of_decide_eq_true hp
  obtain ⟨-, -, -, hsum, hslot⟩ := occupancy_bounded hs
  have hfree := hslot hpc hfull 0 (by rw [hsize]; decide)
  exact ⟨s, hdrop, hsize, hsum, fun he => hfree (by rw [← he]; exact hmod)⟩

/-! ### Waiting -/

/-- **No lost wake-up and no deadlock.**  While requests wait no worker waits for one, while
the master waits there is no room, and never do all threads wait. -/
theorem no_lost_wakeup {s : State cfg.threadsNum} (h : (server cfg).Reachable s) :
    (0 < s.requestsQueue.size → ∀ i, (s.workers i).pc ≠ .wait) ∧
    (s.master.pc = .wait →
      s.requestsQueue.size + s.requestsList.size = cfg.queueCapacity) ∧
    ((∀ i, (s.workers i).pc = .wait) → s.master.pc ≠ .wait) := by
  obtain ⟨-, hb, hw, -, -⟩ := reachable_inv h
  refine ⟨hw.notEmpty, hw.notFull, fun hall hm => ?_⟩
  -- if all workers wait, nothing is queued and nothing is being handled
  have hcap := cfg.capacity_pos
  have hfull : s.requestsQueue.size + s.requestsList.size = cfg.queueCapacity := hw.notFull hm
  have hbusy : s.busyWorkers = 0 := by
    refine List.countP_eq_zero.mpr fun i _ => ?_
    rw [hall i]
    simp [WorkerPc.busy]
  have hsize : ¬0 < s.requestsQueue.size := fun hpos =>
    hw.notEmpty hpos ⟨0, cfg.threads_pos⟩ (hall _)
  have hlist := hb.list
  have hn := hb.ring.nonneg
  omega

/-- One request at a worker, one in the ring, and the master waits with a third. -/
theorem no_lost_wakeup_dispatched :
    ∃ s : State 2, s.master.pc = .wait ∧ 0 < s.requestsQueue.size ∧
      (∀ i, (s.workers i).pc ≠ .wait) ∧ s.requestsQueue.size + s.requestsList.size = 2 ∧
      ¬∀ i, (s.workers i).pc = .wait := by
  have hrun : ((State.start ⟨2, 2, .block, by decide, by decide⟩).replay _ (
      [.workerLock 1, .workerWait 1] ++ arriving 4 ++ [.workerLock 0, .take 0 ⟨5, 1⟩] ++
      arriving 5 ++ crowded 6 id)).any (fun s =>
        s.master.pc = .wait ∧ 0 < s.requestsQueue.size) = true := by decide
  obtain ⟨s, hs, hp⟩ := exists_replay hrun
  obtain ⟨hwait, hpos⟩ := of_decide_eq_true hp
  obtain ⟨hnotEmpty, hnotFull, hsome⟩ := no_lost_wakeup hs
  exact ⟨s, hwait, hpos, hnotEmpty hpos, hnotFull hwait, fun hall => hsome hall hwait⟩

end OsProjects.WebServer
