/-! # The thread pool (`mqcommon/thread_pool.hpp`)

A pool of one worker, which is what the server and the client create. The worker takes over all waiting tasks at once
and runs them without the lock; `stop` is called by the destructor only and is not modelled. -/

namespace HareMQ

structure ThreadPool (τ : Type) where
  taskQueue : List τ := []
  /-- The tasks that the worker has taken over and not run yet. -/
  tmp : List τ := []

namespace ThreadPool
variable {τ : Type}

def push (p : ThreadPool τ) (task : τ) : ThreadPool τ := { p with taskQueue := p.taskQueue ++ [task] }

/-- The part of `entry` under the lock. `none`: the worker waits. -/
def swap (p : ThreadPool τ) : Option (ThreadPool τ) :=
  if p.taskQueue.isEmpty then none else some { taskQueue := [], tmp := p.taskQueue }

end ThreadPool
end HareMQ
