import Mathlib.Algebra.Group.Int.Defs
import Mathlib.Data.List.FinRange
import OsProjects.Lib.Ring
import OsProjects.Lib.Transition
import OsProjects.WebServer.Request

/-! # The master and its workers

`server.c` as a transition system.  One step is what one thread does between two points where
the others can see it: taking or releasing the mutex, waiting on a condition variable, and the
calls made without the mutex (`Accept`, `gettimeofday`, `requestHandle`, `Close`).  A thread
that waits has released the mutex; once it is woken, by a signal, a broadcast or spuriously, it
has to take the mutex again.  What the threads cannot know is in the labels: the connections
that `Accept` returns, the times and the results of `rand()`.

What is assumed:

* **Connections.** `Accept` returns a descriptor that it has not returned before, so that a
  connection has a name of its own in the history.
* **Calls that end the server.** `DO_SYS` and the wrappers of `segel.c` exit if a call fails.
  The run ends there: a request on which `requestHandle` exits has no next step.
* **Integers.** The counters of a thread are `int`s and wrap (`toInt`).  The sizes and indexes of
  the ring are bounded by the capacity (`occupancy_bounded`) and never wrap; a sum of two of them,
  as in `drop_random`, fits an `int` for capacities up to `2^30`.  Beyond, `drop_random` is called
  only with more than `2^30` connections open.

Over all runs `connection_conserved` says where a connection is, `ring_refines_fifo` what the
ring is for, `occupancy_bounded` and `no_lost_wakeup` that the threads wait for each other as
they should, `dropRandom_half` and `kept_uniform` what a full queue keeps, and
`statistics_agree_iff` how far the headers can be trusted. -/

namespace OsProjects.WebServer

/-! ### Data -/

/-- `request_t` -/
structure Request where
  connfd : ℤ
  arrivalTime : Timeval
  dispatchInterval : Timeval
deriving DecidableEq, Repr

/-- `requests_queue_t`.  The indexes are below the capacity, so natural numbers stand for them. -/
structure RequestsQueue where
  items : ℕ → Request
  head : ℕ
  tail : ℕ
  size : ℤ

/-- `requests_list_t` -/
structure RequestsList where
  items : ℕ → Request
  size : ℤ

/-- The overload policies. -/
inductive Policy where
  | block
  | dropTail
  | dropHead
  | dropRandom
deriving DecidableEq, Repr

/-- The command line: `queue_capacity`, `threads_num` and the policy. -/
structure Config where
  queueCapacity : ℕ
  threadsNum : ℕ
  policy : Policy
  capacity_pos : 1 ≤ queueCapacity
  threads_pos : 1 ≤ threadsNum

/-- Where the master is. -/
inductive MasterPc where
  /-- before `Accept` -/
  | accept
  /-- between `Accept` and `gettimeofday` -/
  | stamp
  /-- before `pthread_mutex_lock`, or woken and before the mutex is its own again -/
  | lock
  /-- with the mutex, before the test of the `while` loop -/
  | test
  /-- in `pthread_cond_wait(queue_not_full)` -/
  | wait
  /-- in `drop_tail`, the mutex released, before `Close` -/
  | dropTail
deriving DecidableEq, Repr

/-- `master_info_t` -/
structure MasterInfo where
  pc : MasterPc
  connfd : ℤ
  acceptTime : Timeval

/-- Where a worker is, with its local variables `head_req`, `stats_stamp` and `result`. -/
inductive WorkerPc where
  /-- before the first `pthread_mutex_lock`, or woken and before the mutex is its own again -/
  | lock
  /-- with the mutex, before the test of the `while` loop -/
  | test
  /-- in `pthread_cond_wait(queue_not_empty)` -/
  | wait
  /-- before `requestHandle` -/
  | handle (headReq : Request) (statsStamp : Statistics)
  /-- before `Close` -/
  | close (headReq : Request) (result : ℤ)
  /-- before the second `pthread_mutex_lock` -/
  | relock (headReq : Request) (result : ℤ)
  /-- with the mutex, the statistics not yet updated -/
  | finish (headReq : Request) (result : ℤ)
deriving DecidableEq, Repr

/-- `thread_info_t`, and the responses sent so far. -/
structure ThreadInfo where
  pc : WorkerPc
  requestsCount : ℤ
  staticRequestsCount : ℤ
  dynamicRequestsCount : ℤ
  sent : List Response

/-- The threads. -/
inductive Thread (n : ℕ) where
  | master
  | worker (i : Fin n)
deriving DecidableEq

/-- What has happened so far: the connections accepted, the times stamped for them, the
connections closed by a policy and by workers, and the requests put into the queue and taken
out of it by workers. -/
structure History where
  accepted : List ℤ := []
  stamped : List (ℤ × Timeval) := []
  dropped : List ℤ := []
  served : List ℤ := []
  enqueued : List Request := []
  dispatched : List Request := []

/-- The shared data, the owner of the mutex, the threads and the history. -/
structure State (n : ℕ) where
  requestsQueue : RequestsQueue
  requestsList : RequestsList
  mutex : Option (Thread n)
  master : MasterInfo
  workers : Fin n → ThreadInfo
  history : History

namespace State

variable {n : ℕ}

/-- The state after worker `i` has changed. -/
def setWorker (s : State n) (i : Fin n) (w : ThreadInfo) : State n :=
  { s with workers := Function.update s.workers i w }

/-- The state after worker `i` has moved. -/
def moveWorker (s : State n) (i : Fin n) (pc : WorkerPc) : State n :=
  s.setWorker i { s.workers i with pc := pc }

/-- The state after the master has moved. -/
def moveMaster (s : State n) (pc : MasterPc) : State n :=
  { s with master := { s.master with pc := pc } }

/-! ### Condition variables -/

/-- `pthread_cond_signal(queue_not_full)`: only the master waits there. -/
def signalNotFull (s : State n) : State n :=
  if s.master.pc = .wait then s.moveMaster .lock else s

/-- `pthread_cond_broadcast(queue_not_empty)` -/
def broadcastNotEmpty (s : State n) : State n :=
  { s with workers := fun i =>
      if (s.workers i).pc = .wait then { s.workers i with pc := .lock } else s.workers i }

end State

/-! ### `drop_random` -/

/-- The arrays `indexes` and `rand_indexes`. -/
structure Picks where
  indexes : ℕ → ℕ
  randIndexes : ℕ → Bool

/-- The arrays after initialization. -/
def Picks.init : Picks := ⟨id, fun _ => false⟩

/-- One round of the pick-and-swap loop. -/
def Picks.round (n : ℕ) (rand : ℕ → ℕ) (p : Picks) (i : ℕ) : Picks :=
  let index := rand i % (n - i)
  let temp := p.indexes index
  { indexes := Function.update (Function.update p.indexes index (p.indexes (n - i - 1)))
      (n - i - 1) temp
    randIndexes := Function.update p.randIndexes temp true }

/-- The pick-and-swap loop: `limit` of the `n` indexes are picked. -/
def pick (n limit : ℕ) (rand : ℕ → ℕ) : Picks :=
  (List.range limit).foldl (Picks.round n rand) .init

/-- The variables of the loop that moves the picked requests to the head. -/
structure Compaction where
  items : ℕ → Request
  tail : ℕ
  closed : List ℤ

/-- One round of the loop: a picked request moves to `tail`, any other is closed.  Both `head` and
`i` are below the capacity, so that their sum is exact for capacities up to `2^30`. -/
def Compaction.round (cap head : ℕ) (picked : ℕ → Bool) (c : Compaction) (i : ℕ) : Compaction :=
  let item := c.items ((head + i) % cap)
  if picked i = true then
    { c with items := Function.update c.items c.tail item, tail := (c.tail + 1) % cap }
  else { c with closed := c.closed ++ [item.connfd] }

/-- The loop over the `n` waiting requests. -/
def compact (cap head n : ℕ) (picked : ℕ → Bool) (items : ℕ → Request) : Compaction :=
  (List.range n).foldl (Compaction.round cap head picked) ⟨items, head, []⟩

/-! ### The policies -/

namespace State

variable {n : ℕ}

/-- `block` -/
def block (s : State n) : State n := { s.moveMaster .wait with mutex := none }

/-- `drop_tail` up to `pthread_mutex_unlock`. -/
def dropTail (s : State n) : State n := { s.moveMaster .dropTail with mutex := none }

/-- `drop_head` -/
def dropHead (cap : ℕ) (s : State n) : State n :=
  let q := s.requestsQueue
  if q.size = 0 then s.dropTail
  else { s with
    requestsQueue := { q with head := (q.head + 1) % cap, size := q.size - 1 }
    history := { s.history with dropped := s.history.dropped ++ [(q.items q.head).connfd] } }

/-- `drop_random` -/
def dropRandom (cap : ℕ) (rand : ℕ → ℕ) (s : State n) : State n :=
  let q := s.requestsQueue
  if q.size = 0 then s.dropTail
  else
    let n := q.size.toNat
    let limit := n / 2
    let c := compact cap q.head n (pick n limit rand).randIndexes q.items
    { s with
      requestsQueue := { q with items := c.items, tail := c.tail, size := limit }
      history := { s.history with dropped := s.history.dropped ++ c.closed } }

/-- `master_info->policy(sh_info, master_info)` -/
def overload (cfg : Config) (rand : ℕ → ℕ) (s : State n) : State n :=
  match cfg.policy with
  | .block => s.block
  | .dropTail => s.dropTail
  | .dropHead => s.dropHead cfg.queueCapacity
  | .dropRandom => s.dropRandom cfg.queueCapacity rand

/-- The test of the master's `while` loop. -/
def Full (cfg : Config) (s : State n) : Prop :=
  s.requestsQueue.size + s.requestsList.size = cfg.queueCapacity

instance (cfg : Config) (s : State n) : Decidable (s.Full cfg) := by
  unfold Full; infer_instance

/-- The request that the master puts into the slot at `tail`; the slot keeps the
`dispatch_interval` that it held. -/
def tailReq (s : State n) : Request :=
  { s.requestsQueue.items s.requestsQueue.tail with
    arrivalTime := s.master.acceptTime, connfd := s.master.connfd }

/-- The master behind its `while` loop, up to `pthread_mutex_unlock`. -/
def enqueue (cfg : Config) (s : State n) : State n :=
  let q := s.requestsQueue
  { broadcastNotEmpty { s.moveMaster .accept with
      requestsQueue := { q with
        items := Function.update q.items q.tail s.tailReq
        tail := (q.tail + 1) % cfg.queueCapacity
        size := q.size + 1 }
      history := { s.history with enqueued := s.history.enqueued ++ [s.tailReq] } } with
    mutex := none }

/-! ### The workers -/

end State

/-- The difference of two times, with a microsecond part that is not negative. -/
def dispatchInterval (temp arrivalTime : Timeval) : Timeval :=
  let sec := temp.tvSec - arrivalTime.tvSec
  let usec := temp.tvUsec - arrivalTime.tvUsec
  if usec < 0 then ⟨sec - 1, usec + 1000000⟩ else ⟨sec, usec⟩

namespace State

variable {n : ℕ}

/-- A worker behind its `while` loop, up to `pthread_mutex_unlock`; `temp` is the time. -/
def take (cfg : Config) (s : State n) (i : Fin n) (temp : Timeval) : State n :=
  let q := s.requestsQueue
  let w := s.workers i
  let item := q.items q.head
  let headReq := { item with dispatchInterval := dispatchInterval temp item.arrivalTime }
  let statsStamp : Statistics :=
    { threadId := i
      requestsCount := w.requestsCount
      staticRequestsCount := w.staticRequestsCount
      dynamicRequestsCount := w.dynamicRequestsCount
      arrivalTime := headReq.arrivalTime
      dispatchInterval := headReq.dispatchInterval }
  { signalNotFull { s.moveWorker i (.handle headReq statsStamp) with
      requestsQueue := { q with head := (q.head + 1) % cfg.queueCapacity, size := q.size - 1 }
      requestsList := { items := Function.update s.requestsList.items i headReq
                        size := s.requestsList.size + 1 }
      history := { s.history with dispatched := s.history.dispatched ++ [item] } } with
    mutex := none }

/-- A worker after the second `pthread_mutex_lock`, up to `pthread_mutex_unlock`. -/
def finish (s : State n) (i : Fin n) (result : ℤ) : State n :=
  let w := s.workers i
  let item := s.requestsList.items i
  { signalNotFull { s.setWorker i { w with
        pc := .lock
        requestsCount := toInt (w.requestsCount + 1)
        staticRequestsCount :=
          toInt (w.staticRequestsCount + if result = resultStatic then 1 else 0)
        dynamicRequestsCount :=
          toInt (w.dynamicRequestsCount + if result = resultDynamic then 1 else 0) }
      with requestsList := { items := Function.update s.requestsList.items i { item with connfd := -1 }
                             size := s.requestsList.size - 1 } } with
    mutex := none }

end State

/-! ### Steps -/

/-- What a thread does. -/
inductive Event (n : ℕ) where
  | accept (connfd : ℤ)
  | stamp (t : Timeval)
  | masterLock
  | overload (rand : ℕ → ℕ)
  | closeDropped
  | enqueue
  | masterWake
  | workerLock (i : Fin n)
  | workerWait (i : Fin n)
  | workerWake (i : Fin n)
  | take (i : Fin n) (temp : Timeval)
  | handle (i : Fin n) (line : RequestLine) (files : Files) (cgiargs : Text)
  | close (i : Fin n)
  | relock (i : Fin n)
  | finish (i : Fin n)

/-- One step of one thread. -/
inductive Step (cfg : Config) :
    State cfg.threadsNum → Event cfg.threadsNum → State cfg.threadsNum → Prop
  /-- `Accept` returns a connection that it has not returned before. -/
  | accept {s : State cfg.threadsNum} {c : ℤ} : s.master.pc = .accept → c ∉ s.history.accepted →
      Step cfg s (.accept c) { s with
        master := { s.master with pc := .stamp, connfd := c }
        history := { s.history with accepted := s.history.accepted ++ [c] } }
  | stamp {s : State cfg.threadsNum} {t : Timeval} : s.master.pc = .stamp →
      Step cfg s (.stamp t) { s with
        master := { s.master with pc := .lock, acceptTime := t }
        history := { s.history with stamped := s.history.stamped ++ [(s.master.connfd, t)] } }
  | masterLock {s : State cfg.threadsNum} : s.master.pc = .lock → s.mutex = none →
      Step cfg s .masterLock { s.moveMaster .test with mutex := some .master }
  | overload {s : State cfg.threadsNum} {rand : ℕ → ℕ} : s.master.pc = .test → s.Full cfg →
      Step cfg s (.overload rand) (s.overload cfg rand)
  | closeDropped {s : State cfg.threadsNum} : s.master.pc = .dropTail →
      Step cfg s .closeDropped { s.moveMaster .accept with
        history := { s.history with dropped := s.history.dropped ++ [s.master.connfd] } }
  | enqueue {s : State cfg.threadsNum} : s.master.pc = .test → ¬s.Full cfg →
      Step cfg s .enqueue (s.enqueue cfg)
  /-- A spurious wake-up. -/
  | masterWake {s : State cfg.threadsNum} : s.master.pc = .wait →
      Step cfg s .masterWake (s.moveMaster .lock)
  | workerLock {s : State cfg.threadsNum} {i : Fin cfg.threadsNum} : (s.workers i).pc = .lock →
      s.mutex = none →
      Step cfg s (.workerLock i) { s.moveWorker i .test with mutex := some (.worker i) }
  | workerWait {s : State cfg.threadsNum} {i : Fin cfg.threadsNum} : (s.workers i).pc = .test →
      s.requestsQueue.size = 0 →
      Step cfg s (.workerWait i) { s.moveWorker i .wait with mutex := none }
  /-- A spurious wake-up. -/
  | workerWake {s : State cfg.threadsNum} {i : Fin cfg.threadsNum} : (s.workers i).pc = .wait →
      Step cfg s (.workerWake i) (s.moveWorker i .lock)
  | take {s : State cfg.threadsNum} {i : Fin cfg.threadsNum} {temp : Timeval} :
      (s.workers i).pc = .test → s.requestsQueue.size ≠ 0 →
      Step cfg s (.take i temp) (s.take cfg i temp)
  | handle {s : State cfg.threadsNum} {i : Fin cfg.threadsNum} {line : RequestLine}
      {files : Files} {cgiargs : Text} {headReq : Request} {statsStamp : Statistics} {result : ℤ}
      {r : Response} : (s.workers i).pc = .handle headReq statsStamp →
      requestHandle line files cgiargs statsStamp = some (result, r) →
      Step cfg s (.handle i line files cgiargs) (s.setWorker i { s.workers i with
        pc := .close headReq result, sent := (s.workers i).sent ++ [r] })
  | close {s : State cfg.threadsNum} {i : Fin cfg.threadsNum} {headReq : Request} {result : ℤ} :
      (s.workers i).pc = .close headReq result →
      Step cfg s (.close i) { s.moveWorker i (.relock headReq result) with
        history := { s.history with served := s.history.served ++ [headReq.connfd] } }
  | relock {s : State cfg.threadsNum} {i : Fin cfg.threadsNum} {headReq : Request} {result : ℤ} :
      (s.workers i).pc = .relock headReq result → s.mutex = none →
      Step cfg s (.relock i)
        { s.moveWorker i (.finish headReq result) with mutex := some (.worker i) }
  | finish {s : State cfg.threadsNum} {i : Fin cfg.threadsNum} {headReq : Request} {result : ℤ} :
      (s.workers i).pc = .finish headReq result →
      Step cfg s (.finish i) (s.finish i result)

/-- After `createWorkersPool`: the queue and the list are empty, their slots hold anything. -/
structure Initial (cfg : Config) (s : State cfg.threadsNum) : Prop where
  head : s.requestsQueue.head = 0
  tail : s.requestsQueue.tail = 0
  size : s.requestsQueue.size = 0
  listSize : s.requestsList.size = 0
  mutex : s.mutex = none
  master : s.master.pc = .accept
  workers : ∀ i, s.workers i = ⟨.lock, 0, 0, 0, []⟩
  history : s.history = {}

/-- The web server. -/
def server (cfg : Config) : TransitionSystem (State cfg.threadsNum) (Event cfg.threadsNum) :=
  ⟨Initial cfg, Step cfg⟩

/-! ### What a state shows -/

namespace State

variable {n : ℕ}

/-- The waiting requests in the order of the ring. -/
def queued (cap : ℕ) (s : State n) : List Request :=
  ring cap s.requestsQueue.items s.requestsQueue.head s.requestsQueue.size.toNat

/-- The connection that the master holds and has not yet put into the queue. -/
def held (s : State n) : List ℤ := if s.master.pc = .accept then [] else [s.master.connfd]

end State

/-- The request that a worker is handling: taken from the queue and not yet closed. -/
def WorkerPc.handling : WorkerPc → Option Request
  | handle req _ => some req
  | close req _ => some req
  | _ => none

/-- The worker has taken a request and not yet finished it. -/
def WorkerPc.busy : WorkerPc → Bool
  | handle .. => true
  | close .. => true
  | relock .. => true
  | finish .. => true
  | _ => false

/-- The worker holds the mutex. -/
def WorkerPc.locked : WorkerPc → Bool
  | test => true
  | finish .. => true
  | _ => false

namespace State

variable {n : ℕ}

/-- The requests that workers are handling. -/
def handled (s : State n) : List Request :=
  (List.finRange n).filterMap fun i => (s.workers i).pc.handling

/-- The number of workers that have taken a request and not yet finished it. -/
def busyWorkers (s : State n) : ℕ := (List.finRange n).countP fun i => (s.workers i).pc.busy

end State

end OsProjects.WebServer
