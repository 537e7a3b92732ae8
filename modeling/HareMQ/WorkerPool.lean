import HareMQ.Lib.Run

/-! # The threads of a pool (`mqcommon/thread_pool.hpp`)

A pool of any number of workers, with the tasks that other threads push and the thread that calls `stop`. A step of a
worker is one test of the stop signal, one operation on the lock or the condition variable, or one task. The section of
`push` is one step, as it holds the lock to its end. -/

namespace HareMQ
open Lib

/-- Where a worker is in `entry`. -/
inductive WorkerPhase
  /-- Next is the test of `while`. -/
  | looping
  /-- It waits for the lock, at first or after it was woken. -/
  | locking
  /-- It has the lock. Next is the predicate of `wait`. -/
  | testing
  /-- It has the lock, and the predicate was false. Next it releases the lock and sleeps. -/
  | retiring
  | asleep
  /-- It has the lock, and `wait` has returned. Next is `swap`. -/
  | taking
  /-- The tasks that it has taken over and not run yet. -/
  | running (tmp : List Nat)
  | exited
deriving DecidableEq, Repr

namespace WorkerPhase

def holdsLock : WorkerPhase → Bool
  | testing | retiring | taking => true
  | _ => false

def tmp : WorkerPhase → List Nat
  | running tmp => tmp
  | _ => []

/-- A notification reaches the workers that sleep. -/
def wake : WorkerPhase → WorkerPhase
  | asleep => locking
  | phase => phase

end WorkerPhase

/-- Where the thread is that calls `stop`. -/
inductive StopPhase
  | idle
  /-- `__stop_signal` is set. Next is `notify_all`. -/
  | signalled
  | joining
  | returned
deriving DecidableEq, Repr

/-- A task is known by its number in the order of the pushes. -/
structure WorkerPool where
  workers : List WorkerPhase
  taskQueue : List Nat := []
  stop : StopPhase := .idle
  /-- How many tasks were pushed. -/
  pushed : Nat := 0
  /-- The tasks that were run, in order. -/
  executed : List Nat := []
deriving DecidableEq, Repr

/-- The steps of a worker in `entry`. -/
inductive WorkerAct
  /-- The test of `while`. -/
  | loop
  | lock
  /-- The predicate of `wait`. -/
  | test
  | sleep
  /-- It wakes without notification. -/
  | spurious
  | swap
  /-- The next task of the batch, or the end of the batch. -/
  | work
deriving DecidableEq, Repr

inductive PoolAct
  /-- `push`. `notify_one` wakes one of the workers that sleep. -/
  | push (woken : Option Nat)
  | worker (i : Nat) (a : WorkerAct)
  /-- `__stop_signal = true` in `stop`. -/
  | signal
  | notifyAll
  /-- `stop` has joined every worker. -/
  | join
deriving DecidableEq, Repr

namespace WorkerPool
variable (s : WorkerPool)

/-- A new pool of `n` workers. -/
def start (n : Nat) : WorkerPool := { workers := List.replicate n .looping }

def stopSignal : Bool := s.stop ≠ .idle

/-- Nobody is in a section. -/
def unlocked : Bool := s.workers.all fun w => !w.holdsLock

def setWorker (i : Nat) (w : WorkerPhase) : WorkerPool := { s with workers := s.workers.set i w }

def pushBack : WorkerPool := { s with taskQueue := s.taskQueue ++ [s.pushed], pushed := s.pushed + 1 }

/-- The worker `i` goes on from `w`. -/
def entry (i : Nat) : WorkerAct → WorkerPhase → Option WorkerPool
  | .loop, .looping => some (s.setWorker i (if s.stopSignal then .exited else .locking))
  | .lock, .locking => if s.unlocked then some (s.setWorker i .testing) else none
  | .test, .testing => some (s.setWorker i (if s.stopSignal || !s.taskQueue.isEmpty then .taking else .retiring))
  | .sleep, .retiring => some (s.setWorker i .asleep)
  | .spurious, .asleep => some (s.setWorker i .locking)
  | .swap, .taking => some ({ s with taskQueue := [] }.setWorker i (.running s.taskQueue))
  | .work, .running [] => some (s.setWorker i .looping)
  | .work, .running (task :: tmp) => some ({ s with executed := s.executed ++ [task] }.setWorker i (.running tmp))
  | _, _ => none

/-- `none`: the act is not possible. -/
def step (s : WorkerPool) : PoolAct → Option WorkerPool
  | .push none => if s.unlocked ∧ .asleep ∉ s.workers then some s.pushBack else none
  | .push (some i) =>
    if s.unlocked ∧ s.workers[i]? = some .asleep then some (s.pushBack.setWorker i .locking) else none
  | .worker i a => (s.workers[i]?).bind (s.entry i a)
  | .signal => if s.stop = .idle then some { s with stop := .signalled } else none
  | .notifyAll =>
    if s.stop = .signalled then some { s with stop := .joining, workers := s.workers.map WorkerPhase.wake } else none
  | .join =>
    if s.stop = .joining ∧ ∀ w ∈ s.workers, w = .exited then some { s with stop := .returned } else none

end WorkerPool
end HareMQ
