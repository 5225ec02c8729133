import OsProjects.WebServer.Replay

/-! # The ring refines a FIFO queue

The abstract queue of a state is the list of the waiting requests in ring order, with the
requests that were put into the ring and those that workers took.  Every step of the server is
one operation on that queue or none (`Step.refines`); the order of the requests that reach the
workers is then a fact about FIFO queues. -/

namespace OsProjects.WebServer

variable {cfg : Config} {n : ℕ}

/-- `check_queue`, which is compiled for tests only; for capacities up to `2^30` its sum is exact. -/
def checkQueue (head tail : ℕ) (size : ℤ) (capacity : ℕ) : Bool :=
  if head = tail ∧ (size = 0 ∨ size = capacity) then true
  else decide ((((tail + capacity) - head) % capacity : ℕ) = size)

/-- The abstract queue. -/
def State.fifo (cap : ℕ) (s : State n) : Fifo Request :=
  ⟨s.queued cap, s.history.enqueued, s.history.dispatched⟩

/-- The operation on the abstract queue that a step is. -/
def Event.op (cfg : Config) (s : State n) : Event n → Fifo.Op Request
  | enqueue => .enqueue s.tailReq
  | take .. => .take
  | overload _ =>
    if s.requestsQueue.size = 0 then .skip
    else match cfg.policy with
      | .dropHead => .dropFront
      | .dropRandom => .keep (s.requestsQueue.size.toNat / 2)
      | _ => .skip
  | _ => .skip

/-- A sound ring passes `check_queue`. -/
theorem RingOk.checkQueue {cap : ℕ} {q : RequestsQueue} (h : RingOk cap q) :
    checkQueue q.head q.tail q.size cap = true := by
  have hlt := h.head_lt
  obtain ⟨k, hk⟩ : ∃ k : ℕ, q.size = k := ⟨q.size.toNat, (Int.toNat_of_nonneg h.nonneg).symm⟩
  have hle := h.le
  have htail := h.tail
  rw [hk] at htail hle
  rw [WebServer.checkQueue, hk]
  split
  · rfl
  next hne =>
    rw [Int.toNat_natCast] at htail
    have hkc : k < cap := by
      refine lt_of_le_of_ne (by omega) fun e => hne ⟨?_, .inr (by omega)⟩
      rw [htail, e, Nat.add_mod_right, Nat.mod_eq_of_lt hlt]
    -- one turn of the ring at most
    have hdist : (q.tail + cap - q.head) % cap = k := by
      rcases Nat.lt_or_ge (q.head + k) cap with hc | hc
      · rw [Nat.mod_eq_of_lt hc] at htail
        have e : q.tail + cap - q.head = k + cap := by omega
        rw [e, Nat.add_mod_right, Nat.mod_eq_of_lt hkc]
      · rw [Nat.mod_eq_sub_mod hc, Nat.mod_eq_of_lt (by omega)] at htail
        have e : q.tail + cap - q.head = k := by omega
        rw [e, Nat.mod_eq_of_lt hkc]
    rw [hdist, decide_eq_true rfl]

/-- There is room where the test of the master has found some. -/
theorem Bounds.room {s : State n} (h : Bounds cfg s) (hf : ¬s.Full cfg) :
    s.requestsQueue.size < cfg.queueCapacity := by
  have h₁ := h.list
  have h₂ := lt_of_le_of_ne h.sum hf
  omega

/-- **Each step is one operation on the abstract queue.** -/
theorem Step.refines {s s' : State cfg.threadsNum} {e : Event cfg.threadsNum}
    (hb : Bounds cfg s) (hs : Step cfg s e s') :
    (s.fifo cfg.queueCapacity).Step (e.op cfg s) (s'.fifo cfg.queueCapacity) := by
  have hr := hb.ring
  cases hs with
  | @overload rand hpc hfull =>
      obtain ⟨hp, he⟩ | ⟨-, hp, he⟩ | ⟨hp, hne, he⟩ | ⟨hp, hne, picked, c, hpick, hc, he⟩ :=
        overload_cases cfg rand s
      · rw [he, Event.op, hp]
        split <;> exact .skip
      · rw [he, Event.op]
        rcases hp with hp | hp
        · rw [hp]
          split <;> exact .skip
        · rw [if_pos hp]
          exact .skip
      · rw [he, Event.op, if_neg hne, hp]
        exact .dropFront (hr.pop hne).2
      · rw [he, Event.op, if_neg hne, hp]
        -- half of the requests are kept
        have hkeep := Fifo.Step.keep (f := s.fifo cfg.queueCapacity) (hr.keep rand hpick hc).2.1
        rw [RequestsQueue.contents, ring_length, Int.toNat_natCast] at hkeep
        exact hkeep
  | enqueue hpc hfull =>
      have hpush := (hr.push (hb.room hfull) s.tailReq).2
      have he : (s.enqueue cfg).fifo cfg.queueCapacity = { s.fifo cfg.queueCapacity with
          queue := (s.fifo cfg.queueCapacity).queue ++ [s.tailReq]
          enqueued := (s.fifo cfg.queueCapacity).enqueued ++ [s.tailReq] } := by
        simp only [State.fifo, Fifo.mk.injEq]
        exact ⟨hpush, rfl, rfl⟩
      rw [he]
      exact .enqueue
  | @take i temp hpc hne =>
      have hpop := (hr.pop hne).2
      have he : (s.take cfg i temp).fifo cfg.queueCapacity = { s.fifo cfg.queueCapacity with
          queue := RequestsQueue.contents cfg.queueCapacity { s.requestsQueue with
            head := (s.requestsQueue.head + 1) % cfg.queueCapacity
            size := s.requestsQueue.size - 1 }
          dequeued := (s.fifo cfg.queueCapacity).dequeued ++
            [s.requestsQueue.items s.requestsQueue.head] } := by
        simp [State.fifo, State.queued, State.take, State.moveWorker, RequestsQueue.contents]
      rw [he]
      exact .take hpop
  | @finish i req result hpc =>
      have he : (s.finish i result).fifo cfg.queueCapacity = s.fifo cfg.queueCapacity := by
        simp [State.fifo, State.queued, State.finish]
      rw [he]
      exact .skip
  | _ => exact .skip

/-- `block` and `drop_tail` never touch the waiting requests. -/
theorem Event.op_lossless (hp : cfg.policy = .block ∨ cfg.policy = .dropTail) (s : State n)
    (e : Event n) : (e.op cfg s).lossless = true := by
  cases e with
  | overload rand =>
      rw [Event.op]
      split
      · rfl
      · rcases hp with hp | hp <;> rw [hp] <;> rfl
  | _ => rfl

/-- The requests enter the ring in the order in which their connections were accepted. -/
def Sequenced (s : State n) : Prop :=
  (s.history.enqueued.map Request.connfd ++ s.held).Sublist s.history.accepted

theorem Sequenced.step {s s' : State cfg.threadsNum} {e : Event cfg.threadsNum}
    (h : Sequenced s) (hs : Step cfg s e s') : Sequenced s' := by
  unfold Sequenced at *
  cases hs with
  | @accept c hpc hc =>
      simp only [State.held, hpc, if_true, List.append_nil] at h
      simpa [State.held] using h.append_right [c]
  | stamp hpc => simpa [State.held, hpc] using h
  | masterLock hpc => simpa [State.held, hpc] using h
  | @overload rand hpc hfull =>
      obtain ⟨-, he⟩ | ⟨-, -, he⟩ | ⟨-, -, he⟩ | ⟨-, -, _, _, -, -, he⟩ := overload_cases cfg rand s
      · rw [he]; simpa [State.held, hpc, State.block] using h
      · rw [he]; simpa [State.held, hpc, State.dropTail] using h
      · rw [he]; exact h
      · rw [he]; exact h
  | closeDropped hpc =>
      refine List.Sublist.trans ?_ h
      simp [State.held]
  | enqueue hpc hfull =>
      simpa [State.held, hpc, State.enqueue, State.tailReq] using h
  | masterWake hpc => simpa [State.held, hpc] using h
  | @take i temp hpc hne =>
      have hheld : (s.take cfg i temp).held = s.held := signalNotFull_held _
      have henq : (s.take cfg i temp).history.enqueued = s.history.enqueued := by
        simp [State.take, State.moveWorker]
      have hacc : (s.take cfg i temp).history.accepted = s.history.accepted := by
        simp [State.take, State.moveWorker]
      rwa [hheld, henq, hacc]
  | @finish i req result hpc =>
      have hheld : (s.finish i result).held = s.held := signalNotFull_held _
      have hhist : (s.finish i result).history = s.history := by simp [State.finish]
      rwa [hheld, hhist]
  | _ => exact h

/-- The history of every reachable state is in FIFO order. -/
theorem reachable_ordered {s : State cfg.threadsNum} (h : (server cfg).Reachable s) :
    (s.fifo cfg.queueCapacity).Ordered ∧ Sequenced s ∧
      (cfg.policy = .block ∨ cfg.policy = .dropTail → (s.fifo cfg.queueCapacity).Exact) := by
  have hI : Bounds cfg s ∧ (s.fifo cfg.queueCapacity).Ordered ∧ Sequenced s ∧
      (cfg.policy = .block ∨ cfg.policy = .dropTail → (s.fifo cfg.queueCapacity).Exact) := by
    refine h.invariant (I := fun s => Bounds cfg s ∧ (s.fifo cfg.queueCapacity).Ordered ∧
      Sequenced s ∧ (cfg.policy = .block ∨ cfg.policy = .dropTail →
        (s.fifo cfg.queueCapacity).Exact)) (fun s h₀ => ?_) fun s e s' hI _ hs => ?_
    · refine ⟨.init h₀, ?_, ?_, fun _ => ?_⟩
      · simp [Fifo.Ordered, State.fifo, State.queued, h₀.size, h₀.history]
      · simp [Sequenced, State.held, h₀.master, h₀.history]
      · simp [Fifo.Exact, State.fifo, State.queued, h₀.size, h₀.history]
    · obtain ⟨hb, ho, hq, hx⟩ := hI
      exact ⟨hb.step hs, (hs.refines hb).ordered ho, hq.step hs,
        fun hp => (hs.refines hb).exact (Event.op_lossless hp s e) (hx hp)⟩
  exact hI.2

/-- **The ring refines a FIFO queue.**  In every reachable state `head`, `tail` and `size`
agree, every step is the operation on the abstract queue that the event and the policy name,
the requests given to workers are a subsequence of the accepted connections, and under `block`
and `drop_tail` they are a prefix of the requests put into the ring. -/
theorem ring_refines_fifo {s : State cfg.threadsNum} (h : (server cfg).Reachable s) :
    (s.requestsQueue.tail =
        (s.requestsQueue.head + s.requestsQueue.size.toNat) % cfg.queueCapacity ∧
      checkQueue s.requestsQueue.head s.requestsQueue.tail s.requestsQueue.size
        cfg.queueCapacity = true) ∧
    (∀ e s', Step cfg s e s' →
      (s.fifo cfg.queueCapacity).Step (e.op cfg s) (s'.fifo cfg.queueCapacity)) ∧
    (s.history.dispatched.map Request.connfd).Sublist s.history.accepted ∧
    (cfg.policy = .block ∨ cfg.policy = .dropTail →
      s.history.dispatched.IsPrefix s.history.enqueued) := by
  have hb := (reachable_inv h).bounds
  obtain ⟨ho, hq, hx⟩ := reachable_ordered h
  refine ⟨⟨hb.ring.tail, hb.ring.checkQueue⟩, fun e s' hs => hs.refines hb, ?_, fun hp => ?_⟩
  · have h₁ := ho.sublist.map Request.connfd
    exact h₁.trans ((List.sublist_append_left _ _).trans hq)
  · exact (hx hp).isPrefix

/-- Three connections at two slots: `drop_tail` has closed the last one, the others went to
workers. -/
theorem ring_refines_fifo_dispatched :
    ∃ s : State 3, s.history.accepted = [4, 5, 6] ∧ s.history.dropped = [6] ∧
      s.history.dispatched.map Request.connfd = [4, 5] ∧
      s.history.dispatched.IsPrefix s.history.enqueued := by
  have hrun : ((State.start ⟨2, 3, .dropTail, by decide, by decide⟩).replay _ (
      arriving 4 ++ arriving 5 ++ crowded 6 id ++
      [.closeDropped, .workerLock 2, .take 2 ⟨5, 1⟩, .workerLock 0, .take 0 ⟨7, 2⟩])).any (fun s =>
        s.history.accepted = [4, 5, 6] ∧ s.history.dropped = [6] ∧
          s.history.dispatched.map Request.connfd = [4, 5]) = true := by decide
  obtain ⟨s, hs, hp⟩ := exists_replay hrun
  obtain ⟨ha, hdrop, hd⟩ := of_decide_eq_true hp
  exact ⟨s, ha, hdrop, hd, (ring_refines_fifo hs).2.2.2 (.inr rfl)⟩

end OsProjects.WebServer
