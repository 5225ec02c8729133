import OsProjects.Lib.Fifo
import OsProjects.Lib.Slots
import OsProjects.WebServer.DropRandom

/-! # What every step of the server keeps

Four invariants, each about one concern: who holds the mutex (`Control`), the ring and the two
sizes (`Bounds`), who may be waiting (`Waits`), and where each connection is (`Owned`).  They
are invariants of every run (`reachable_inv`), whatever the policy, the interleaving, the
times and the random numbers are. -/

namespace OsProjects.WebServer

variable {cfg : Config} {n : ℕ}

/-! ### Fields of changed states -/

namespace State

variable (s : State n)

@[simp] theorem setWorker_requestsQueue (i : Fin n) (w : ThreadInfo) :
    (s.setWorker i w).requestsQueue = s.requestsQueue := rfl
@[simp] theorem setWorker_requestsList (i : Fin n) (w : ThreadInfo) :
    (s.setWorker i w).requestsList = s.requestsList := rfl
@[simp] theorem setWorker_mutex (i : Fin n) (w : ThreadInfo) :
    (s.setWorker i w).mutex = s.mutex := rfl
@[simp] theorem setWorker_master (i : Fin n) (w : ThreadInfo) :
    (s.setWorker i w).master = s.master := rfl
@[simp] theorem setWorker_history (i : Fin n) (w : ThreadInfo) :
    (s.setWorker i w).history = s.history := rfl
@[simp] theorem setWorker_workers (i : Fin n) (w : ThreadInfo) :
    (s.setWorker i w).workers = Function.update s.workers i w := rfl

@[simp] theorem moveMaster_requestsQueue (pc : MasterPc) :
    (s.moveMaster pc).requestsQueue = s.requestsQueue := rfl
@[simp] theorem moveMaster_requestsList (pc : MasterPc) :
    (s.moveMaster pc).requestsList = s.requestsList := rfl
@[simp] theorem moveMaster_mutex (pc : MasterPc) : (s.moveMaster pc).mutex = s.mutex := rfl
@[simp] theorem moveMaster_workers (pc : MasterPc) : (s.moveMaster pc).workers = s.workers := rfl
@[simp] theorem moveMaster_history (pc : MasterPc) : (s.moveMaster pc).history = s.history := rfl
@[simp] theorem moveMaster_pc (pc : MasterPc) : (s.moveMaster pc).master.pc = pc := rfl
@[simp] theorem moveMaster_connfd (pc : MasterPc) :
    (s.moveMaster pc).master.connfd = s.master.connfd := rfl
@[simp] theorem moveMaster_acceptTime (pc : MasterPc) :
    (s.moveMaster pc).master.acceptTime = s.master.acceptTime := rfl

@[simp] theorem signalNotFull_requestsQueue :
    s.signalNotFull.requestsQueue = s.requestsQueue := by
  unfold signalNotFull; split <;> rfl
@[simp] theorem signalNotFull_requestsList : s.signalNotFull.requestsList = s.requestsList := by
  unfold signalNotFull; split <;> rfl
@[simp] theorem signalNotFull_workers : s.signalNotFull.workers = s.workers := by
  unfold signalNotFull; split <;> rfl
@[simp] theorem signalNotFull_history : s.signalNotFull.history = s.history := by
  unfold signalNotFull; split <;> rfl
@[simp] theorem signalNotFull_connfd : s.signalNotFull.master.connfd = s.master.connfd := by
  unfold signalNotFull; split <;> rfl
@[simp] theorem signalNotFull_acceptTime :
    s.signalNotFull.master.acceptTime = s.master.acceptTime := by
  unfold signalNotFull; split <;> rfl
theorem signalNotFull_pc :
    s.signalNotFull.master.pc = if s.master.pc = .wait then .lock else s.master.pc := by
  unfold signalNotFull; split <;> simp [*]

@[simp] theorem broadcastNotEmpty_requestsQueue :
    s.broadcastNotEmpty.requestsQueue = s.requestsQueue := rfl
@[simp] theorem broadcastNotEmpty_requestsList :
    s.broadcastNotEmpty.requestsList = s.requestsList := rfl
@[simp] theorem broadcastNotEmpty_master : s.broadcastNotEmpty.master = s.master := rfl
@[simp] theorem broadcastNotEmpty_history : s.broadcastNotEmpty.history = s.history := rfl
theorem broadcastNotEmpty_pc (i : Fin n) : (s.broadcastNotEmpty.workers i).pc =
    if (s.workers i).pc = .wait then .lock else (s.workers i).pc := by
  unfold broadcastNotEmpty; simp only; split <;> simp [*]

end State

/-- What `overload` does: the master waits, it gives the mutex back to drop its connection, or
it keeps the mutex and has dropped waiting requests. -/
theorem overload_cases (cfg : Config) (rand : ℕ → ℕ) (s : State n) :
    (cfg.policy = .block ∧ s.overload cfg rand = s.block) ∨
    (cfg.policy ≠ .block ∧ (cfg.policy = .dropTail ∨ s.requestsQueue.size = 0) ∧
      s.overload cfg rand = s.dropTail) ∨
    (cfg.policy = .dropHead ∧ s.requestsQueue.size ≠ 0 ∧ s.overload cfg rand = { s with
      requestsQueue := { s.requestsQueue with
        head := (s.requestsQueue.head + 1) % cfg.queueCapacity
        size := s.requestsQueue.size - 1 }
      history := { s.history with dropped :=
        s.history.dropped ++ [(s.requestsQueue.items s.requestsQueue.head).connfd] } }) ∨
    (cfg.policy = .dropRandom ∧ s.requestsQueue.size ≠ 0 ∧ ∃ picked c,
      picked = (pick s.requestsQueue.size.toNat (s.requestsQueue.size.toNat / 2) rand).randIndexes ∧
      c = compact cfg.queueCapacity s.requestsQueue.head s.requestsQueue.size.toNat picked
        s.requestsQueue.items ∧
      s.overload cfg rand = { s with
        requestsQueue := { s.requestsQueue with
          items := c.items, tail := c.tail, size := (s.requestsQueue.size.toNat / 2 : ℕ) }
        history := { s.history with dropped := s.history.dropped ++ c.closed } }) := by
  cases hp : cfg.policy with
  | block => exact .inl ⟨rfl, by simp [State.overload, hp]⟩
  | dropTail => exact .inr (.inl ⟨by simp, .inl rfl, by simp [State.overload, hp]⟩)
  | dropHead =>
      by_cases h : s.requestsQueue.size = 0
      · exact .inr (.inl ⟨by simp, .inr h, by simp [State.overload, hp, State.dropHead, h]⟩)
      · exact .inr (.inr (.inl ⟨rfl, h, by simp [State.overload, hp, State.dropHead, h]⟩))
  | dropRandom =>
      by_cases h : s.requestsQueue.size = 0
      · exact .inr (.inl ⟨by simp, .inr h, by simp [State.overload, hp, State.dropRandom, h]⟩)
      · exact .inr (.inr (.inr ⟨rfl, h, _, _, rfl, rfl,
          by simp [State.overload, hp, State.dropRandom, h]⟩))

/-! ### The mutex -/

/-- The mutex is held by the thread that is between taking and releasing it, if there is one. -/
structure Control (s : State n) : Prop where
  master : s.master.pc = .test ↔ s.mutex = some .master
  worker : ∀ i, (s.workers i).pc.locked = true ↔ s.mutex = some (.worker i)

/-- A step of the worker that holds the mutex, or takes it, keeps the other workers. -/
theorem Control.update {s : State n} {m : Option (Thread n)} {i : Fin n} {w : ThreadInfo}
    (h : Control s) (hs : s.mutex = none ∨ s.mutex = some (.worker i))
    (hm : m = none ∧ w.pc.locked = false ∨ m = some (.worker i) ∧ w.pc.locked = true) (j : Fin n) :
    (Function.update s.workers i w j).pc.locked = true ↔ m = some (.worker j) := by
  by_cases hj : j = i
  · subst hj
    rw [Function.update_self]
    rcases hm with ⟨rfl, hw⟩ | ⟨rfl, hw⟩ <;> simp [hw]
  · rw [Function.update_of_ne hj, h.worker j]
    have hne : ¬i = j := fun e => hj e.symm
    rcases hs with hs | hs <;> rcases hm with ⟨rfl, -⟩ | ⟨rfl, -⟩ <;> simp [hs, hne]

theorem Control.step {s s' : State cfg.threadsNum} {e : Event cfg.threadsNum} (h : Control s)
    (hs : Step cfg s e s') : Control s' := by
  have hw := h.worker
  have hm := h.master
  cases hs with
  | accept hpc => exact ⟨by simpa [hpc] using hm, hw⟩
  | stamp hpc => exact ⟨by simpa [hpc] using hm, hw⟩
  | masterLock hpc hfree => exact ⟨by simp, fun i => by simpa [hfree] using hw i⟩
  | @overload rand hpc hfull =>
      have hown := hm.mp hpc
      obtain ⟨-, he⟩ | ⟨-, -, he⟩ | ⟨-, -, he⟩ | ⟨-, -, _, _, -, -, he⟩ := overload_cases cfg rand s
      · rw [he]
        exact ⟨by simp [State.block, State.moveMaster],
          fun i => by simpa [State.block, hown] using hw i⟩
      · rw [he]
        exact ⟨by simp [State.dropTail, State.moveMaster],
          fun i => by simpa [State.dropTail, hown] using hw i⟩
      · rw [he]; exact ⟨hm, hw⟩
      · rw [he]; exact ⟨hm, hw⟩
  | closeDropped hpc => exact ⟨by simpa [hpc, State.moveMaster] using hm, hw⟩
  | enqueue hpc hfull =>
      have hown := hm.mp hpc
      refine ⟨by simp [State.enqueue, State.moveMaster], fun i => ?_⟩
      have := hw i
      simp only [State.enqueue, State.broadcastNotEmpty_pc, State.moveMaster_workers]
      split
      next hwait => simp [WorkerPc.locked]
      next hwait => simpa [hown] using this
  | masterWake hpc => exact ⟨by simpa [hpc, State.moveMaster] using hm, hw⟩
  | @workerLock i hpc hfree =>
      refine ⟨?_, h.update (.inl hfree) (.inr ⟨rfl, rfl⟩)⟩
      have hne : s.master.pc ≠ .test := fun e => by simp [hfree] at hm; exact hm e
      simpa [State.moveWorker] using hne
  | @workerWait i hpc hz =>
      have hown := (hw i).mp (by rw [hpc]; rfl)
      refine ⟨?_, h.update (.inr hown) (.inl ⟨rfl, rfl⟩)⟩
      simpa [hown, State.moveWorker] using hm
  | @workerWake i hpc =>
      refine ⟨hm, fun j => ?_⟩
      by_cases hj : j = i
      · subst hj
        have := hw j
        simpa [hpc, WorkerPc.locked, State.moveWorker] using this
      · simpa [State.moveWorker, Function.update_of_ne hj] using hw j
  | @take i temp hpc hz =>
      have hown := (hw i).mp (by rw [hpc]; rfl)
      refine ⟨?_, fun j => ?_⟩
      · have hne : s.master.pc ≠ .test := fun e => by simp [hown] at hm; exact hm e
        simp only [State.take, State.signalNotFull_pc, State.moveWorker, State.setWorker_master]
        split <;> simp [hne]
      · simp only [State.take, State.signalNotFull_workers]
        exact h.update (.inr hown) (.inl ⟨rfl, rfl⟩) j
  | @handle i line files cgiargs req stats result r hpc hr =>
      refine ⟨hm, fun j => ?_⟩
      by_cases hj : j = i
      · subst hj
        have := hw j
        simpa [hpc, WorkerPc.locked] using this
      · simpa [Function.update_of_ne hj] using hw j
  | @close i req result hpc =>
      refine ⟨hm, fun j => ?_⟩
      by_cases hj : j = i
      · subst hj
        have := hw j
        simpa [hpc, WorkerPc.locked, State.moveWorker] using this
      · simpa [State.moveWorker, Function.update_of_ne hj] using hw j
  | @relock i req result hpc hfree =>
      refine ⟨?_, h.update (.inl hfree) (.inr ⟨rfl, rfl⟩)⟩
      have hne : s.master.pc ≠ .test := fun e => by simp [hfree] at hm; exact hm e
      simpa [State.moveWorker] using hne
  | @finish i req result hpc =>
      have hown := (hw i).mp (by rw [hpc]; rfl)
      refine ⟨?_, fun j => ?_⟩
      · have hne : s.master.pc ≠ .test := fun e => by simp [hown] at hm; exact hm e
        simp only [State.finish, State.signalNotFull_pc, State.setWorker_master]
        split <;> simp [hne]
      · simp only [State.finish, State.signalNotFull_workers]
        exact h.update (.inr hown) (.inl ⟨rfl, rfl⟩) j

theorem Control.init {s : State cfg.threadsNum} (h : Initial cfg s) : Control s :=
  ⟨by simp [h.master, h.mutex], fun i => by simp [h.workers i, h.mutex, WorkerPc.locked]⟩

/-! ### The ring -/

/-- `head`, `tail` and `size` agree. -/
structure RingOk (cap : ℕ) (q : RequestsQueue) : Prop where
  head_lt : q.head < cap
  nonneg : 0 ≤ q.size
  le : q.size ≤ cap
  tail : q.tail = (q.head + q.size.toNat) % cap

/-- The waiting requests. -/
def RequestsQueue.contents (cap : ℕ) (q : RequestsQueue) : List Request :=
  ring cap q.items q.head q.size.toNat

namespace RingOk

variable {cap : ℕ} {q : RequestsQueue}

/-- A request is put behind the last one. -/
theorem push (h : RingOk cap q) (hlt : q.size < cap) (x : Request) :
    let q' := { q with items := Function.update q.items q.tail x, tail := (q.tail + 1) % cap,
                       size := q.size + 1 }
    RingOk cap q' ∧ q'.contents cap = q.contents cap ++ [x] := by
  have hn := h.nonneg
  have hs : (q.size + 1).toNat = q.size.toNat + 1 := by omega
  refine ⟨⟨h.head_lt, by simp only; omega, by simp only; omega, ?_⟩, ?_⟩
  · simp only [hs, h.tail, Nat.mod_add_mod, Nat.add_assoc]
  · simp only [RequestsQueue.contents, hs, h.tail]
    exact ring_push (by omega) x

/-- The first request leaves. -/
theorem pop (h : RingOk cap q) (hne : q.size ≠ 0) :
    let q' := { q with head := (q.head + 1) % cap, size := q.size - 1 }
    RingOk cap q' ∧ q.contents cap = q.items q.head :: q'.contents cap := by
  have hn := h.nonneg
  have hle := h.le
  have hcap := h.head_lt
  obtain ⟨k, hk⟩ : ∃ k : ℕ, q.size = k + 1 := ⟨(q.size - 1).toNat, by omega⟩
  have hs : q.size.toNat = k + 1 := by omega
  have hs' : (q.size - 1).toNat = k := by omega
  refine ⟨⟨Nat.mod_lt _ (by omega), by simp only; omega, by simp only; omega, ?_⟩, ?_⟩
  · simp only [hs', h.tail, hs, Nat.mod_add_mod]
    congr 1
    omega
  · simp only [RequestsQueue.contents, hs, hs', ring_pop, Nat.mod_eq_of_lt hcap]

/-- A picked half of the requests stays, the others have been closed. -/
theorem keep (h : RingOk cap q) (rand : ℕ → ℕ) {picked : ℕ → Bool} {c : Compaction}
    (hp : picked = (pick q.size.toNat (q.size.toNat / 2) rand).randIndexes)
    (hc : c = compact cap q.head q.size.toNat picked q.items) :
    let q' := { q with items := c.items, tail := c.tail, size := (q.size.toNat / 2 : ℕ) }
    RingOk cap q' ∧ (q'.contents cap).Sublist (q.contents cap) ∧
      (((q'.contents cap).map Request.connfd) ++ c.closed).Perm
        ((q.contents cap).map Request.connfd) := by
  have hn := h.nonneg
  have hle := h.le
  have hlen := pick_count (Nat.div_le_self q.size.toNat 2) rand
  have hs := compact_eq h.head_lt (n := q.size.toNat) (by omega) picked q.items
  rw [← hc] at hs
  rw [← hp] at hlen
  have hkept : ring cap c.items q.head (q.size.toNat / 2) =
      ((List.range q.size.toNat).filter picked).map fun j => q.items ((q.head + j) % cap) := by
    rw [← hs.kept, hlen]
  refine ⟨⟨h.head_lt, by simp only; omega, by simp only; omega, ?_⟩, ?_, ?_⟩
  · simp only [Int.toNat_natCast]
    rw [hs.tail, hlen]
  · simp only [RequestsQueue.contents, Int.toNat_natCast, hkept]
    exact kept_sublist cap q.head q.size.toNat picked q.items
  · simp only [RequestsQueue.contents, Int.toNat_natCast, hkept, hs.closed, List.map_map]
    exact kept_closed_perm cap q.head q.size.toNat picked q.items

end RingOk

/-! ### Sizes -/

/-- The ring is sound, the list counts the busy workers, and both together fit. -/
structure Bounds (cfg : Config) (s : State n) : Prop where
  ring : RingOk cfg.queueCapacity s.requestsQueue
  list : s.requestsList.size = s.busyWorkers
  sum : s.requestsQueue.size + s.requestsList.size ≤ cfg.queueCapacity

/-- How a change of one worker changes the number of busy workers. -/
theorem busyWorkers_update (s : State n) (i : Fin n) (w : ThreadInfo) :
    ((List.finRange n).countP fun j => (Function.update s.workers i w j).pc.busy) +
        (if (s.workers i).pc.busy then 1 else 0) =
      s.busyWorkers + if w.pc.busy then 1 else 0 :=
  countP_update s.workers (fun w => w.pc.busy) i w

theorem busyWorkers_broadcast (s : State n) : s.broadcastNotEmpty.busyWorkers = s.busyWorkers := by
  refine List.countP_congr fun i _ => ?_
  rw [State.broadcastNotEmpty_pc]
  split
  next h => rw [h]; rfl
  next h => rfl

/-- The workers of `s'` are those of `s` with one of them changed. -/
theorem busyWorkers_of_update {s s' : State n} {i : Fin n} {w : ThreadInfo}
    (h : s'.workers = Function.update s.workers i w) :
    s'.busyWorkers + (if (s.workers i).pc.busy then 1 else 0) =
      s.busyWorkers + if w.pc.busy then 1 else 0 := by
  rw [State.busyWorkers, h]
  exact busyWorkers_update s i w

/-- A worker moves on and neither the ring nor the list changes. -/
theorem Bounds.move {s s' : State n} {i : Fin n} {w : ThreadInfo} (h : Bounds cfg s)
    (hq : s'.requestsQueue = s.requestsQueue) (hl : s'.requestsList = s.requestsList)
    (hw : s'.workers = Function.update s.workers i w) (hb : w.pc.busy = (s.workers i).pc.busy) :
    Bounds cfg s' := by
  have hbusy : s'.busyWorkers = s.busyWorkers := by
    have := busyWorkers_of_update hw
    rw [hb] at this
    exact Nat.add_right_cancel this
  exact ⟨hq ▸ h.ring, by rw [hl, hbusy]; exact h.list, by rw [hq, hl]; exact h.sum⟩

theorem Bounds.step {s s' : State cfg.threadsNum} {e : Event cfg.threadsNum} (h : Bounds cfg s)
    (hs : Step cfg s e s') : Bounds cfg s' := by
  have hr := h.ring
  have hlist := h.list
  have hsum := h.sum
  have hle := hr.le
  cases hs with
  | accept | stamp | masterLock | closeDropped | masterWake => exact ⟨hr, hlist, hsum⟩
  | @overload rand hpc hfull =>
      obtain ⟨-, he⟩ | ⟨-, -, he⟩ | ⟨-, hne, he⟩ | ⟨-, hne, _, _, hp, hc, he⟩ :=
        overload_cases cfg rand s
      · rw [he]; exact ⟨hr, hlist, hsum⟩
      · rw [he]; exact ⟨hr, hlist, hsum⟩
      · rw [he]
        refine ⟨(hr.pop hne).1, hlist, ?_⟩
        simp only
        omega
      · rw [he]
        refine ⟨(hr.keep rand hp hc).1, hlist, ?_⟩
        have := hr.nonneg
        simp only
        omega
  | enqueue hpc hfull =>
      -- the test has found room
      have hlt : s.requestsQueue.size + s.requestsList.size < cfg.queueCapacity :=
        lt_of_le_of_ne hsum hfull
      refine ⟨(hr.push (by omega) _).1, ?_, ?_⟩
      · refine hlist.trans ?_
        exact congrArg Nat.cast (busyWorkers_broadcast _).symm
      · simp only [State.enqueue, State.broadcastNotEmpty_requestsQueue,
          State.broadcastNotEmpty_requestsList, State.moveMaster_requestsList]
        omega
  | workerLock hpc => exact h.move rfl rfl rfl (by rw [hpc]; rfl)
  | workerWait hpc => exact h.move rfl rfl rfl (by rw [hpc]; rfl)
  | workerWake hpc => exact h.move rfl rfl rfl (by rw [hpc]; rfl)
  | @take i temp hpc hne =>
      have hbusy : (s.take cfg i temp).busyWorkers = s.busyWorkers + 1 := by
        have hw : (s.take cfg i temp).workers = Function.update s.workers i _ :=
          State.signalNotFull_workers _
        simpa [hpc, WorkerPc.busy] using busyWorkers_of_update hw
      refine ⟨?_, ?_, ?_⟩
      · simp only [State.take, State.signalNotFull_requestsQueue]
        exact (hr.pop hne).1
      · rw [hbusy]
        simp only [State.take, State.signalNotFull_requestsList, hlist]
        push_cast
        rfl
      · simp only [State.take, State.signalNotFull_requestsQueue, State.signalNotFull_requestsList]
        omega
  | handle hpc => exact h.move rfl rfl rfl (by rw [hpc]; rfl)
  | close hpc => exact h.move rfl rfl rfl (by rw [hpc]; rfl)
  | relock hpc => exact h.move rfl rfl rfl (by rw [hpc]; rfl)
  | @finish i req result hpc =>
      have hbusy : (s.finish i result).busyWorkers + 1 = s.busyWorkers := by
        have hw : (s.finish i result).workers = Function.update s.workers i _ :=
          State.signalNotFull_workers _
        simpa [hpc, WorkerPc.busy] using busyWorkers_of_update hw
      have hl : (s.finish i result).requestsList.size = s.requestsList.size - 1 := by
        simp [State.finish]
      have hq : (s.finish i result).requestsQueue = s.requestsQueue := by simp [State.finish]
      refine ⟨by rw [hq]; exact hr, by omega, by rw [hq]; omega⟩

theorem Bounds.init {s : State cfg.threadsNum} (h : Initial cfg s) : Bounds cfg s := by
  have hcap := cfg.capacity_pos
  refine ⟨⟨by rw [h.head]; omega, by rw [h.size], by rw [h.size]; omega, ?_⟩, ?_, ?_⟩
  · rw [h.head, h.tail, h.size]
    rfl
  · have hz : s.busyWorkers = 0 := by
      refine List.countP_eq_zero.mpr fun i _ => ?_
      rw [h.workers i]
      simp [WorkerPc.busy]
    rw [h.listSize, hz]
    rfl
  · rw [h.size, h.listSize]
    omega

/-! ### Waiting -/

/-- No worker waits while there are requests, and the master waits only while it is full. -/
structure Waits (cfg : Config) (s : State n) : Prop where
  notEmpty : 0 < s.requestsQueue.size → ∀ i, (s.workers i).pc ≠ .wait
  notFull : s.master.pc = .wait → s.Full cfg

/-- A worker moves on to a place where it does not wait, and no requests arrive. -/
theorem Waits.move {s s' : State n} {i : Fin n} {w : ThreadInfo} (h : Waits cfg s)
    (hq : s'.requestsQueue.size ≤ s.requestsQueue.size)
    (hw : s'.workers = Function.update s.workers i w) (hpc : w.pc ≠ .wait)
    (hm : s'.master.pc = .wait → s'.Full cfg) : Waits cfg s' := by
  refine ⟨fun hpos j => ?_, hm⟩
  rw [hw]
  by_cases hj : j = i
  · subst hj
    rwa [Function.update_self]
  · rw [Function.update_of_ne hj]
    exact h.notEmpty (hpos.trans_le hq) j

/-- After a signal the master does not wait. -/
theorem signalNotFull_ne_wait (s : State n) : s.signalNotFull.master.pc ≠ .wait := by
  rw [State.signalNotFull_pc]
  split
  · simp
  · assumption

theorem Waits.step {s s' : State cfg.threadsNum} {e : Event cfg.threadsNum} (h : Waits cfg s)
    (hb : Bounds cfg s) (hs : Step cfg s e s') : Waits cfg s' := by
  have hn := hb.ring.nonneg
  cases hs with
  | accept => exact ⟨h.notEmpty, by simp⟩
  | stamp => exact ⟨h.notEmpty, by simp⟩
  | masterLock => exact ⟨h.notEmpty, by simp⟩
  | @overload rand hpc hfull =>
      have hm : s.master.pc ≠ .wait := by simp [hpc]
      obtain ⟨-, he⟩ | ⟨-, -, he⟩ | ⟨-, hne, he⟩ | ⟨-, hne, _, _, -, -, he⟩ :=
        overload_cases cfg rand s
      · rw [he]; exact ⟨h.notEmpty, fun _ => hfull⟩
      · rw [he]; exact ⟨h.notEmpty, by simp [State.dropTail, State.moveMaster]⟩
      · rw [he]; exact ⟨fun _ => h.notEmpty (by omega), fun hw => absurd hw hm⟩
      · rw [he]; exact ⟨fun _ => h.notEmpty (by omega), fun hw => absurd hw hm⟩
  | closeDropped => exact ⟨h.notEmpty, by simp⟩
  | enqueue hpc hfull =>
      refine ⟨fun _ i => ?_, by simp [State.enqueue]⟩
      simp only [State.enqueue, State.broadcastNotEmpty_pc]
      split
      · simp
      · assumption
  | masterWake => exact ⟨h.notEmpty, by simp⟩
  | workerLock hpc => exact h.move le_rfl rfl (by simp) h.notFull
  | workerWait hpc hz => exact ⟨fun hpos => absurd hz hpos.ne', h.notFull⟩
  | workerWake hpc => exact h.move le_rfl rfl (by simp) h.notFull
  | @take i temp hpc hne =>
      refine h.move (i := i) ?_ (State.signalNotFull_workers _) (by simp)
        fun hw => absurd hw (signalNotFull_ne_wait _)
      simp [State.take]
  | handle hpc => exact h.move le_rfl rfl (by simp) h.notFull
  | close hpc => exact h.move le_rfl rfl (by simp) h.notFull
  | relock hpc => exact h.move le_rfl rfl (by simp) h.notFull
  | @finish i req result hpc =>
      refine h.move (i := i) ?_ (State.signalNotFull_workers _) (by simp)
        fun hw => absurd hw (signalNotFull_ne_wait _)
      simp [State.finish]

theorem Waits.init {s : State cfg.threadsNum} (h : Initial cfg s) : Waits cfg s :=
  ⟨fun _ i => by simp [h.workers i], by simp [h.master]⟩

/-! ### Connections -/

namespace State

/-- How often the connection `c` is held by the master, waits in the ring, is being handled, or
has been closed. -/
def places (cap : ℕ) (s : State n) (c : ℤ) : ℕ :=
  s.held.count c + ((s.queued cap).map Request.connfd).count c +
    (s.handled.map Request.connfd).count c + s.history.dropped.count c + s.history.served.count c

end State

/-- Each connection that was accepted is in one place. -/
structure Owned (cfg : Config) (s : State n) : Prop where
  fresh : s.history.accepted.Nodup
  places : ∀ c, s.places cfg.queueCapacity c = s.history.accepted.count c
  dispatched : ∀ c, (s.history.dispatched.map Request.connfd).count c =
    (s.handled.map Request.connfd).count c + s.history.served.count c

/-- How a change of one worker changes what is being handled. -/
theorem handled_of_update {s s' : State n} {i : Fin n} {w : ThreadInfo}
    (h : s'.workers = Function.update s.workers i w) (c : ℤ) :
    (s'.handled.map Request.connfd).count c +
        ((s.workers i).pc.handling.toList.map Request.connfd).count c =
      (s.handled.map Request.connfd).count c +
        (w.pc.handling.toList.map Request.connfd).count c := by
  have hp := (filterMap_update_perm s.workers (fun w => w.pc.handling) i w).map Request.connfd
  have hc := hp.count_eq c
  rw [List.map_append, List.map_append, List.count_append, List.count_append] at hc
  rwa [State.handled, h]

theorem handled_broadcast (s : State n) : s.broadcastNotEmpty.handled = s.handled := by
  refine List.filterMap_congr fun i _ => ?_
  rw [State.broadcastNotEmpty_pc]
  split
  next h => rw [h]; rfl
  next h => rfl

/-- A worker moves on with the request that it has, if any, and nothing else changes. -/
theorem Owned.move {s s' : State n} {i : Fin n} {w : ThreadInfo} (h : Owned cfg s)
    (hq : s'.requestsQueue = s.requestsQueue) (hm : s'.held = s.held)
    (hh : s'.history = s.history) (hw : s'.workers = Function.update s.workers i w)
    (hr : w.pc.handling = (s.workers i).pc.handling) : Owned cfg s' := by
  have hc : ∀ c, (s'.handled.map Request.connfd).count c =
      (s.handled.map Request.connfd).count c := fun c => by
    have := handled_of_update hw c
    rw [hr] at this
    exact Nat.add_right_cancel this
  refine ⟨by rw [hh]; exact h.fresh, fun c => ?_, fun c => ?_⟩
  · have := h.places c
    simpa only [State.places, State.queued, hq, hm, hh, hc] using this
  · rw [hh, hc]; exact h.dispatched c

/-- A worker closes the connection that it has handled. -/
theorem Owned.close {s s' : State n} {i : Fin n} {w : ThreadInfo} {req : Request}
    (h : Owned cfg s) (hq : s'.requestsQueue = s.requestsQueue) (hm : s'.held = s.held)
    (hh : s'.history = { s.history with served := s.history.served ++ [req.connfd] })
    (hw : s'.workers = Function.update s.workers i w)
    (h₁ : (s.workers i).pc.handling = some req) (h₂ : w.pc.handling = none) : Owned cfg s' := by
  have hc : ∀ c, (s'.handled.map Request.connfd).count c + [req.connfd].count c =
      (s.handled.map Request.connfd).count c := fun c => by
    simpa [h₁, h₂] using handled_of_update hw c
  refine ⟨by rw [hh]; exact h.fresh, fun c => ?_, fun c => ?_⟩
  · have h₃ := h.places c
    have h₄ := hc c
    simp only [State.places, State.queued, hq, hm, hh, List.count_append] at h₃ ⊢
    omega
  · have h₃ := h.dispatched c
    have h₄ := hc c
    rw [hh]
    simp only [List.count_append]
    omega

/-- A signal changes nothing that the master holds. -/
theorem signalNotFull_held (s : State n) : s.signalNotFull.held = s.held := by
  unfold State.signalNotFull
  split
  next h => simp [State.held, h]
  next h => rfl

/-- The master moves on with the connection that it has, and nothing is closed. -/
theorem Owned.same {s s' : State n} (h : Owned cfg s)
    (hq : s'.requestsQueue = s.requestsQueue) (hw : s'.workers = s.workers)
    (hh : s'.history = { s.history with stamped := s'.history.stamped })
    (hheld : s'.held = s.held) : Owned cfg s' := by
  have hhandled : s'.handled = s.handled := by rw [State.handled, hw]; rfl
  refine ⟨by rw [hh]; exact h.fresh, fun c => ?_, fun c => ?_⟩
  · have := h.places c
    rw [State.places, hheld, hhandled, hh, State.queued, hq]
    exact this
  · rw [hh, hhandled]; exact h.dispatched c

theorem Owned.step {s s' : State cfg.threadsNum} {e : Event cfg.threadsNum} (h : Owned cfg s)
    (hb : Bounds cfg s) (hs : Step cfg s e s') : Owned cfg s' := by
  have hplaces := h.places
  have hdisp := h.dispatched
  simp only [State.places, State.queued] at hplaces
  have hr := hb.ring
  cases hs with
  | @accept c hpc hc =>
      refine ⟨?_, fun d => ?_, hdisp⟩
      · refine List.nodup_append.mpr ⟨h.fresh, by simp, fun a ha b hb => ?_⟩
        rintro rfl
        exact hc (by rwa [List.mem_singleton.mp hb] at ha)
      · have := hplaces d
        simp only [State.held, hpc, if_true, List.count_nil] at this
        simp only [State.places, State.held, State.queued, State.handled, List.count_append,
          reduceCtorEq, if_false] at this ⊢
        omega
  | stamp hpc => exact h.same rfl rfl rfl (by simp [State.held, hpc])
  | masterLock hpc => exact h.same rfl rfl rfl (by simp [State.held, hpc])
  | @overload rand hpc hfull =>
      obtain ⟨-, he⟩ | ⟨-, -, he⟩ | ⟨-, hne, he⟩ | ⟨-, hne, _, _, hp, hc, he⟩ :=
        overload_cases cfg rand s
      · rw [he]
        exact h.same rfl rfl rfl (by simp [State.held, hpc, State.block])
      · rw [he]
        exact h.same rfl rfl rfl (by simp [State.held, hpc, State.dropTail])
      · rw [he]
        refine ⟨h.fresh, fun d => ?_, hdisp⟩
        have := hplaces d
        have hpop := congrArg (fun l => (l.map Request.connfd).count d) (hr.pop hne).2
        simp only [RequestsQueue.contents, List.map_cons, List.count_cons] at hpop
        simp only [State.places, State.queued, State.held, State.handled, List.count_append,
          List.count_singleton] at this hpop ⊢
        omega
      · rw [he]
        refine ⟨h.fresh, fun d => ?_, hdisp⟩
        have := hplaces d
        have hkeep := (hr.keep rand hp hc).2.2.count_eq d
        simp only [RequestsQueue.contents] at hkeep
        simp only [State.places, State.queued, State.held, State.handled, List.count_append]
          at this hkeep ⊢
        omega
  | closeDropped hpc =>
      refine ⟨h.fresh, fun d => ?_, hdisp⟩
      have := hplaces d
      simp only [State.held, hpc, reduceCtorEq, if_false] at this
      simp only [State.places, State.held, State.moveMaster_pc, if_true, List.count_nil,
        List.count_append]
      simp only [State.queued, State.handled, State.moveMaster_requestsQueue,
        State.moveMaster_workers] at this ⊢
      omega
  | enqueue hpc hfull =>
      have hlt : s.requestsQueue.size < cfg.queueCapacity := by
        have h₁ := hb.list
        have h₂ := lt_of_le_of_ne hb.sum hfull
        omega
      have hhandled : (s.enqueue cfg).handled = s.handled := handled_broadcast _
      refine ⟨h.fresh, fun d => ?_, fun d => by rw [hhandled]; exact hdisp d⟩
      have := hplaces d
      have hpush := congrArg (fun l => (l.map Request.connfd).count d) (hr.push hlt s.tailReq).2
      simp only [RequestsQueue.contents, List.map_append, List.count_append, List.map_cons,
        List.map_nil] at hpush
      have hconn : s.tailReq.connfd = s.master.connfd := rfl
      rw [hconn] at hpush
      simp only [State.held, hpc, reduceCtorEq, if_false] at this
      rw [State.places, hhandled]
      simp only [State.enqueue, State.queued, State.held, State.broadcastNotEmpty_requestsQueue,
        State.broadcastNotEmpty_master, State.broadcastNotEmpty_history, State.moveMaster_pc,
        if_true, List.count_nil]
      omega
  | masterWake hpc => exact h.same rfl rfl rfl (by simp [State.held, hpc])
  | workerLock hpc => exact h.move rfl rfl rfl rfl (by rw [hpc]; rfl)
  | workerWait hpc => exact h.move rfl rfl rfl rfl (by rw [hpc]; rfl)
  | workerWake hpc => exact h.move rfl rfl rfl rfl (by rw [hpc]; rfl)
  | @take i temp hpc hne =>
      have hw : (s.take cfg i temp).workers = Function.update s.workers i _ :=
        State.signalNotFull_workers _
      have hheld : (s.take cfg i temp).held = s.held := signalNotFull_held _
      have hhist : (s.take cfg i temp).history = { s.history with dispatched :=
          s.history.dispatched ++ [s.requestsQueue.items s.requestsQueue.head] } := by
        simp [State.take, State.moveWorker]
      refine ⟨by rw [hhist]; exact h.fresh, fun d => ?_, fun d => ?_⟩
      · have := hplaces d
        have hh := handled_of_update hw d
        have hpop := congrArg (fun l => (l.map Request.connfd).count d) (hr.pop hne).2
        simp only [RequestsQueue.contents, List.map_cons, List.count_cons] at hpop
        simp only [hpc, WorkerPc.handling, Option.toList_none, List.map_nil, List.count_nil,
          Option.toList_some, List.map_cons, List.count_singleton] at hh
        rw [State.places, hheld, hhist]
        simp only [State.queued, State.take, State.signalNotFull_requestsQueue] at hh ⊢
        omega
      · have := hdisp d
        have hh := handled_of_update hw d
        simp only [hpc, WorkerPc.handling, Option.toList_none, List.map_nil, List.count_nil,
          Option.toList_some, List.map_cons, List.count_singleton] at hh
        rw [hhist]
        simp only [List.map_append, List.count_append, List.map_cons, List.map_nil,
          List.count_singleton]
        omega
  | handle hpc => exact h.move rfl rfl rfl rfl (by rw [hpc]; rfl)
  | close hpc => exact h.close rfl rfl rfl rfl (by rw [hpc]; rfl) rfl
  | relock hpc => exact h.move rfl rfl rfl rfl (by rw [hpc]; rfl)
  | @finish i req result hpc =>
      refine h.move (i := i) ?_ (signalNotFull_held _) ?_ (State.signalNotFull_workers _)
        (by rw [hpc]; rfl)
      · simp [State.finish]
      · simp [State.finish]

theorem Owned.init {s : State cfg.threadsNum} (h : Initial cfg s) : Owned cfg s := by
  have hhandled : s.handled = [] := by
    refine List.filterMap_eq_nil_iff.mpr fun i _ => ?_
    rw [h.workers i]
    rfl
  refine ⟨by simp [h.history], fun c => ?_, fun c => ?_⟩
  · simp [State.places, State.held, State.queued, h.master, h.size, hhandled, h.history]
  · simp [hhandled, h.history]

/-! ### Times -/

/-- The `i`-th stamp belongs to the `i`-th connection, and each request carries the stamp of
its own connection. -/
structure Stamped (cfg : Config) (s : State n) : Prop where
  accepted : s.history.accepted = s.history.stamped.map Prod.fst ++
    if s.master.pc = .stamp then [s.master.connfd] else []
  master : s.master.pc ≠ .accept → s.master.pc ≠ .stamp →
    (s.master.connfd, s.master.acceptTime) ∈ s.history.stamped
  waiting : ∀ r ∈ s.queued cfg.queueCapacity, (r.connfd, r.arrivalTime) ∈ s.history.stamped
  handling : ∀ i r, (s.workers i).pc.handling = some r →
    (r.connfd, r.arrivalTime) ∈ s.history.stamped
  statsStamp : ∀ i r stats, (s.workers i).pc = .handle r stats →
    stats.arrivalTime = r.arrivalTime

/-- The master has the same connection, stamped or not. -/
structure SameHold (m m' : MasterInfo) : Prop where
  connfd : m'.connfd = m.connfd
  acceptTime : m'.acceptTime = m.acceptTime
  stamp : m'.pc = .stamp ↔ m.pc = .stamp
  accept : m'.pc = .accept ↔ m.pc = .accept

theorem SameHold.refl (m : MasterInfo) : SameHold m m := ⟨rfl, rfl, .rfl, .rfl⟩

theorem SameHold.signalNotFull {m : MasterInfo} {s : State n} (hs : s.master = m) :
    SameHold m s.signalNotFull.master := by
  subst hs
  refine ⟨by simp, by simp, ?_, ?_⟩
  · rw [State.signalNotFull_pc]
    split
    next h => simp [h]
    next h => rfl
  · rw [State.signalNotFull_pc]
    split
    next h => simp [h]
    next h => rfl

/-- Nothing is accepted, stamped or put into the ring. -/
theorem Stamped.frame {s s' : State n} (h : Stamped cfg s) (hm : SameHold s.master s'.master)
    (ha : s'.history.accepted = s.history.accepted) (hst : s'.history.stamped = s.history.stamped)
    (hq : ∀ r ∈ s'.queued cfg.queueCapacity, r ∈ s.queued cfg.queueCapacity)
    (hw : ∀ i r, (s'.workers i).pc.handling = some r →
      (r.connfd, r.arrivalTime) ∈ s.history.stamped)
    (hs : ∀ i r stats, (s'.workers i).pc = .handle r stats → stats.arrivalTime = r.arrivalTime) :
    Stamped cfg s' where
  accepted := by
    rw [ha, hst, h.accepted, hm.connfd]
    by_cases hp : s.master.pc = .stamp
    · rw [if_pos hp, if_pos (hm.stamp.mpr hp)]
    · rw [if_neg hp, if_neg fun e => hp (hm.stamp.mp e)]
  master h₁ h₂ := by
    rw [hm.connfd, hm.acceptTime, hst]
    exact h.master (fun e => h₁ (hm.accept.mpr e)) fun e => h₂ (hm.stamp.mpr e)
  waiting r hr := by rw [hst]; exact h.waiting r (hq r hr)
  handling i r hr := by rw [hst]; exact hw i r hr
  statsStamp := hs

/-- A worker moves on and takes nothing from the ring. -/
theorem Stamped.move {s s' : State n} {i : Fin n} {w : ThreadInfo} (h : Stamped cfg s)
    (hm : SameHold s.master s'.master) (ha : s'.history.accepted = s.history.accepted)
    (hst : s'.history.stamped = s.history.stamped) (hq : s'.requestsQueue = s.requestsQueue)
    (hw : s'.workers = Function.update s.workers i w)
    (hr : w.pc.handling = none ∨ w.pc.handling = (s.workers i).pc.handling)
    (hs : ∀ r stats, w.pc ≠ .handle r stats) : Stamped cfg s' := by
  refine h.frame hm ha hst (by simp [State.queued, hq]) (fun j r => ?_) fun j r stats => ?_
  · rw [hw]
    by_cases hj : j = i
    · subst hj
      rw [Function.update_self]
      rcases hr with hr | hr
      · simp [hr]
      · rw [hr]; exact h.handling j r
    · rw [Function.update_of_ne hj]; exact h.handling j r
  · rw [hw]
    by_cases hj : j = i
    · subst hj
      rw [Function.update_self]
      exact fun e => absurd e (hs r stats)
    · rw [Function.update_of_ne hj]; exact h.statsStamp j r stats

theorem Stamped.step {s s' : State cfg.threadsNum} {e : Event cfg.threadsNum}
    (h : Stamped cfg s) (hb : Bounds cfg s) (hs : Step cfg s e s') : Stamped cfg s' := by
  have hr := hb.ring
  cases hs with
  | @accept c hpc hc =>
      refine ⟨?_, fun _ h₂ => absurd rfl h₂, h.waiting, h.handling, h.statsStamp⟩
      have := h.accepted
      simp only [hpc, reduceCtorEq, if_false, List.append_nil] at this
      simp [this]
  | @stamp t hpc =>
      have hsub : ∀ p ∈ s.history.stamped, p ∈ s.history.stamped ++ [(s.master.connfd, t)] :=
        fun p hp => List.mem_append_left _ hp
      refine ⟨?_, fun _ _ => by simp, fun r hr => hsub _ (h.waiting r hr),
        fun i r hr => hsub _ (h.handling i r hr), h.statsStamp⟩
      have := h.accepted
      simp only [hpc, if_true] at this
      simp [this]
  | masterLock hpc =>
      exact h.frame ⟨rfl, rfl, by simp [hpc], by simp [hpc]⟩ rfl rfl (fun _ => id) h.handling
        h.statsStamp
  | @overload rand hpc hfull =>
      obtain ⟨-, he⟩ | ⟨-, -, he⟩ | ⟨-, hne, he⟩ | ⟨-, hne, _, _, hp, hc, he⟩ :=
        overload_cases cfg rand s
      · rw [he]
        exact h.frame ⟨rfl, rfl, by simp [hpc, State.block], by simp [hpc, State.block]⟩ rfl rfl
          (fun _ => id) h.handling h.statsStamp
      · rw [he]
        exact h.frame ⟨rfl, rfl, by simp [hpc, State.dropTail], by simp [hpc, State.dropTail]⟩ rfl
          rfl (fun _ => id) h.handling h.statsStamp
      · rw [he]
        refine h.frame (.refl _) rfl rfl (fun r hmem => ?_) h.handling h.statsStamp
        have hpop := (hr.pop hne).2
        simp only [RequestsQueue.contents] at hpop
        rw [State.queued, hpop]
        exact List.mem_cons_of_mem _ hmem
      · rw [he]
        refine h.frame (.refl _) rfl rfl (fun r hmem => ?_) h.handling h.statsStamp
        exact (hr.keep rand hp hc).2.1.subset hmem
  | closeDropped hpc =>
      refine ⟨?_, fun h₁ _ => absurd rfl h₁, h.waiting, h.handling, h.statsStamp⟩
      have := h.accepted
      simpa [hpc] using this
  | enqueue hpc hfull =>
      have hlt : s.requestsQueue.size < cfg.queueCapacity := by
        have h₁ := hb.list
        have h₂ := lt_of_le_of_ne hb.sum hfull
        omega
      have hpcs : ∀ i, ((s.enqueue cfg).workers i).pc =
          if (s.workers i).pc = .wait then .lock else (s.workers i).pc := fun i =>
        State.broadcastNotEmpty_pc _ i
      refine ⟨?_, fun h₁ _ => absurd rfl h₁, fun r hmem => ?_, fun i r => ?_, fun i r stats => ?_⟩
      · have := h.accepted
        simpa [hpc, State.enqueue] using this
      · have hpush := (hr.push hlt s.tailReq).2
        simp only [RequestsQueue.contents] at hpush
        simp only [State.enqueue, State.queued, State.broadcastNotEmpty_requestsQueue, hpush] at hmem
        rcases List.mem_append.mp hmem with hmem | hmem
        · exact h.waiting r hmem
        · rw [List.mem_singleton.mp hmem]
          exact h.master (by simp [hpc]) (by simp [hpc])
      · rw [hpcs]
        split
        · simp [WorkerPc.handling]
        · exact h.handling i r
      · rw [hpcs]
        split
        · simp
        · exact h.statsStamp i r stats
  | masterWake hpc =>
      exact h.frame ⟨rfl, rfl, by simp [hpc], by simp [hpc]⟩ rfl rfl (fun _ => id) h.handling
        h.statsStamp
  | workerLock hpc => exact h.move (.refl _) rfl rfl rfl rfl (.inl rfl) (by simp)
  | workerWait hpc => exact h.move (.refl _) rfl rfl rfl rfl (.inl rfl) (by simp)
  | workerWake hpc => exact h.move (.refl _) rfl rfl rfl rfl (.inl rfl) (by simp)
  | @take i temp hpc hne =>
      have hpop := (hr.pop hne).2
      simp only [RequestsQueue.contents] at hpop
      have hmem : s.requestsQueue.items s.requestsQueue.head ∈ s.queued cfg.queueCapacity := by
        rw [State.queued, hpop]; exact List.mem_cons_self
      have hw : (s.take cfg i temp).workers = Function.update s.workers i _ :=
        State.signalNotFull_workers _
      refine h.frame ?_ (by simp [State.take, State.moveWorker])
        (by simp [State.take, State.moveWorker]) (fun r hr => ?_) (fun j r => ?_) fun j r stats => ?_
      · simp only [State.take]
        exact SameHold.signalNotFull rfl
      · rw [State.queued, hpop]
        refine List.mem_cons_of_mem _ ?_
        simpa [State.take, State.queued] using hr
      · rw [hw]
        by_cases hj : j = i
        · subst hj
          rw [Function.update_self]
          intro he
          obtain rfl := Option.some.inj he
          exact h.waiting (s.requestsQueue.items s.requestsQueue.head) hmem
        · rw [Function.update_of_ne hj]; exact h.handling j r
      · rw [hw]
        by_cases hj : j = i
        · subst hj
          rw [Function.update_self]
          intro he
          obtain ⟨rfl, rfl⟩ := WorkerPc.handle.inj he
          rfl
        · rw [Function.update_of_ne hj]; exact h.statsStamp j r stats
  | handle hpc => exact h.move (.refl _) rfl rfl rfl rfl (.inr (by rw [hpc]; rfl)) (by simp)
  | close hpc => exact h.move (.refl _) rfl rfl rfl rfl (.inl rfl) (by simp)
  | relock hpc => exact h.move (.refl _) rfl rfl rfl rfl (.inl rfl) (by simp)
  | @finish i req result hpc =>
      refine h.move (i := i) ?_ ?_ ?_ ?_ (State.signalNotFull_workers _) (.inl rfl) (by simp)
      · simp only [State.finish]
        exact SameHold.signalNotFull rfl
      · simp [State.finish]
      · simp [State.finish]
      · simp [State.finish]

theorem Stamped.init {s : State cfg.threadsNum} (h : Initial cfg s) : Stamped cfg s := by
  refine ⟨by simp [h.history, h.master], fun h₁ _ => absurd h.master h₁, fun r hr => ?_,
    fun i r => ?_, fun i r stats => ?_⟩
  · simp [State.queued, h.size] at hr
  · rw [h.workers i]; simp [WorkerPc.handling]
  · rw [h.workers i]; simp

/-! ### Runs -/

/-- All invariants of the server. -/
structure Inv (cfg : Config) (s : State cfg.threadsNum) : Prop where
  control : Control s
  bounds : Bounds cfg s
  waits : Waits cfg s
  owned : Owned cfg s
  stamped : Stamped cfg s

theorem Inv.step {s s' : State cfg.threadsNum} {e : Event cfg.threadsNum} (h : Inv cfg s)
    (hs : Step cfg s e s') : Inv cfg s' :=
  ⟨h.control.step hs, h.bounds.step hs, h.waits.step h.bounds hs, h.owned.step h.bounds hs,
    h.stamped.step h.bounds hs⟩

/-- **Every reachable state meets the invariants.** -/
theorem reachable_inv {s : State cfg.threadsNum} (h : (server cfg).Reachable s) : Inv cfg s :=
  h.invariant (fun _ h₀ => ⟨.init h₀, .init h₀, .init h₀, .init h₀, .init h₀⟩)
    fun _ _ _ hI _ hs => hI.step hs

/-- The state after `createWorkersPool`. -/
def State.start (cfg : Config) : State cfg.threadsNum where
  requestsQueue := ⟨fun _ => ⟨0, ⟨0, 0⟩, ⟨0, 0⟩⟩, 0, 0, 0⟩
  requestsList := ⟨fun _ => ⟨0, ⟨0, 0⟩, ⟨0, 0⟩⟩, 0⟩
  mutex := none
  master := ⟨.accept, 0, ⟨0, 0⟩⟩
  workers _ := ⟨.lock, 0, 0, 0, []⟩
  history := {}

theorem State.start_initial (cfg : Config) : Initial cfg (State.start cfg) :=
  ⟨rfl, rfl, rfl, rfl, rfl, rfl, fun _ => rfl, rfl⟩

end OsProjects.WebServer
