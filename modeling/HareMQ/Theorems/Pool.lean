import HareMQ.ThreadPool
import HareMQ.WorkerPool

/-! # Tasks of a pool

Every pushed task is run at most once, and never lost between the queue and the batches of the workers; while the pool
is not stopped there is a worker that will look at a queue that is not empty. -/

namespace HareMQ
open Lib
namespace WorkerPool
variable {s s' t : WorkerPool} {i : Nat} {w w' : WorkerPhase} {a : PoolAct} {acts : List PoolAct}

/-! ### What a worker does -/

/-- What a step of a worker changes: its phase, the queue and the tasks that were run. -/
inductive Moves (s : WorkerPool) : WorkerPhase → WorkerPhase → List Nat → List Nat → Prop
  /-- A step that moves no task and does not lead to sleep. -/
  | goes {w w' : WorkerPhase} (hw : w.tmp = []) (hw' : w'.tmp = []) (hasleep : w' ≠ .asleep) (hretiring : w' ≠ .retiring) :
      Moves s w w' s.taskQueue s.executed
  | retires (hstop : s.stop = .idle) (hqueue : s.taskQueue = []) : Moves s .testing .retiring s.taskQueue s.executed
  | sleeps : Moves s .retiring .asleep s.taskQueue s.executed
  | swaps : Moves s .taking (.running s.taskQueue) [] s.executed
  | runs (task : Nat) (tmp : List Nat) :
      Moves s (.running (task :: tmp)) (.running tmp) s.taskQueue (s.executed ++ [task])

theorem entry_moves {b : WorkerAct} (h : s.entry i b w = some s') :
    ∃ w', Moves s w w' s'.taskQueue s'.executed ∧ s'.workers = s.workers.set i w' ∧ s'.stop = s.stop ∧
      s'.pushed = s.pushed := by
  unfold entry at h
  split at h
  · cases h
    by_cases hstop : s.stopSignal = true
    · exact ⟨.exited, .goes rfl rfl nofun nofun, by rw [if_pos hstop]; rfl, rfl, rfl⟩
    · exact ⟨.locking, .goes rfl rfl nofun nofun, by rw [if_neg hstop]; rfl, rfl, rfl⟩
  · split at h
    · cases h
      exact ⟨.testing, .goes rfl rfl nofun nofun, rfl, rfl, rfl⟩
    · cases h
  · cases h
    by_cases hpred : (s.stopSignal || !s.taskQueue.isEmpty) = true
    · exact ⟨.taking, .goes rfl rfl nofun nofun, by rw [if_pos hpred]; rfl, rfl, rfl⟩
    · have hboth : s.stop = .idle ∧ s.taskQueue = [] := by simpa [stopSignal] using hpred
      exact ⟨.retiring, .retires hboth.1 hboth.2, by rw [if_neg hpred]; rfl, rfl, rfl⟩
  · cases h
    exact ⟨.asleep, .sleeps, rfl, rfl, rfl⟩
  · cases h
    exact ⟨.locking, .goes rfl rfl nofun nofun, rfl, rfl, rfl⟩
  · cases h
    exact ⟨.running s.taskQueue, .swaps, rfl, rfl, rfl⟩
  · cases h
    exact ⟨.looping, .goes rfl rfl nofun nofun, rfl, rfl, rfl⟩
  · next task tmp =>
    cases h
    exact ⟨.running tmp, .runs task tmp, rfl, rfl, rfl⟩
  · cases h

/-- Seen from the worker, tasks only move on, in their order. -/
theorem Moves.balanced {queue executed : List Nat} (h : Moves s w w' queue executed) :
    executed ++ w'.tmp ++ queue = s.executed ++ w.tmp ++ s.taskQueue := by
  cases h with
  | goes hw hw' _ _ => rw [hw, hw']
  | retires _ _ => rfl
  | sleeps => rfl
  | swaps => simp [WorkerPhase.tmp]
  | runs task tmp => simp [WorkerPhase.tmp]

theorem Moves.of_asleep {queue executed : List Nat} (h : Moves s w .asleep queue executed) : w = .retiring := by
  cases h with
  | goes _ _ hasleep _ => exact absurd rfl hasleep
  | sleeps => rfl

theorem Moves.of_retiring {queue executed : List Nat} (h : Moves s w .retiring queue executed) : s.stop = .idle := by
  cases h with
  | goes _ _ _ hretiring => exact absurd rfl hretiring
  | retires hstop _ => exact hstop

theorem exists_workers_split (h : s.workers[i]? = some w) (w' : WorkerPhase) :
    ∃ l₁ l₂, s.workers = l₁ ++ w :: l₂ ∧ s.workers.set i w' = l₁ ++ w' :: l₂ := by
  obtain ⟨hlt, rfl⟩ := List.getElem?_eq_some_iff.mp h
  obtain ⟨l₁, l₂, hsplit, -, hset⟩ : ∃ l₁ l₂, s.workers = l₁ ++ s.workers[i] :: l₂ ∧ l₁.length = i ∧
      s.workers.set i w' = l₁ ++ w' :: l₂ := List.exists_of_set hlt
  exact ⟨l₁, l₂, hsplit, hset⟩

/-! ### The tasks -/

/-- The batches of all workers. -/
def batches (s : WorkerPool) : List Nat := s.workers.flatMap WorkerPhase.tmp

/-- Where the pushed tasks are, and who will take those that wait. -/
structure Handled (s : WorkerPool) : Prop where
  once : (s.executed ++ s.batches ++ s.taskQueue).Perm (List.range s.pushed)
  ordered : s.workers.length = 1 → s.executed ++ s.batches ++ s.taskQueue = List.range s.pushed
  awake : s.stop = .idle → s.workers ≠ [] → s.taskQueue ≠ [] → ∃ w ∈ s.workers, w ≠ .asleep

/-- A worker that is about to sleep has found the queue empty, and it keeps the lock. -/
structure Sound (s : WorkerPool) : Prop extends Handled s where
  retiring : .retiring ∈ s.workers → s.taskQueue = []

theorem batches_split {l₁ l₂ : List WorkerPhase} (h : s.workers = l₁ ++ w :: l₂) :
    s.batches = l₁.flatMap WorkerPhase.tmp ++ (w.tmp ++ l₂.flatMap WorkerPhase.tmp) := by
  rw [batches, h, List.flatMap_append, List.flatMap_cons]

theorem sound_start (n : Nat) : Sound (start n) := by
  have hbatches : (start n).batches = [] := by
    rw [batches, List.flatMap_eq_nil_iff]
    intro w hw
    rw [List.eq_of_mem_replicate hw]
    rfl
  refine ⟨⟨?_, fun _ => ?_, fun _ _ h => absurd rfl h⟩, fun _ => rfl⟩
  · rw [hbatches]
    exact List.Perm.refl _
  · rw [hbatches]
    rfl

/-- Who goes to sleep, or is about to, leaves an empty queue behind. -/
theorem Moves.empty {queue executed : List Nat} (h : Moves s w w' queue executed)
    (hretiring : w = .retiring → s.taskQueue = []) (hw' : w' = .asleep ∨ w' = .retiring) : queue = [] := by
  cases h with
  | goes _ _ hasleep hret => exact absurd hw' (not_or.mpr ⟨hasleep, hret⟩)
  | retires _ hqueue => exact hqueue
  | sleeps => exact hretiring rfl
  | swaps => rfl
  | runs task tmp => simp at hw'

theorem Moves.stays_empty {queue executed : List Nat} (h : Moves s w w' queue executed) (hempty : s.taskQueue = []) :
    queue = [] := by
  cases h with
  | swaps => rfl
  | _ => exact hempty

theorem Sound.worker (h : Sound s) {l₁ l₂ : List WorkerPhase} {queue executed : List Nat}
    (hsplit : s.workers = l₁ ++ w :: l₂) (hmoves : Moves s w w' queue executed) :
    Sound { s with workers := l₁ ++ w' :: l₂, taskQueue := queue, executed } := by
  have hbalanced := hmoves.balanced
  have hretiring : w = .retiring → s.taskQueue = [] := by
    rintro rfl
    exact h.retiring (hsplit ▸ List.mem_append_right _ List.mem_cons_self)
  refine ⟨⟨?_, fun hone => ?_, fun hstop _ hqueue => ?_⟩, fun hret => ?_⟩
  · refine List.Perm.trans (List.perm_iff_count.mpr fun task => ?_) h.once
    have hcount := congrArg (List.count task) hbalanced
    rw [batches_split hsplit, batches_split rfl]
    simp only [List.count_append] at hcount ⊢
    omega
  · rw [List.length_append, List.length_cons] at hone
    have hleft : l₁ = [] := List.length_eq_zero_iff.mp (by omega)
    have hright : l₂ = [] := List.length_eq_zero_iff.mp (by omega)
    have hordered := h.ordered (by rw [hsplit, hleft, hright]; rfl)
    rw [batches_split hsplit, hleft, hright] at hordered
    rw [batches_split rfl, hleft, hright]
    simpa using hbalanced.trans (by simpa using hordered)
  · refine ⟨w', List.mem_append_right _ List.mem_cons_self, ?_⟩
    rintro rfl
    exact hqueue (hmoves.empty hretiring (Or.inl rfl))
  · by_cases hw' : w' = .retiring
    · exact hmoves.empty hretiring (Or.inr hw')
    · apply hmoves.stays_empty
      apply h.retiring
      rw [hsplit]
      obtain hmem | hmem := List.mem_append.mp hret
      · exact List.mem_append_left _ hmem
      · exact List.mem_append_right _ (List.mem_cons_of_mem _ ((List.mem_cons.mp hmem).resolve_left (Ne.symm hw')))

theorem not_mem_retiring_of_unlocked (h : s.unlocked = true) : .retiring ∉ s.workers := by
  intro hmem
  have hfree := List.all_eq_true.mp h _ hmem
  cases hfree

/-- A pushed task comes behind all others, and somebody is awake. -/
theorem Sound.pushBack (h : Sound s) (hret : .retiring ∉ s.workers)
    (hawake : s.workers ≠ [] → ∃ w ∈ s.workers, w ≠ .asleep) : Sound s.pushBack where
  once := by
    show (s.executed ++ s.batches ++ (s.taskQueue ++ [s.pushed])).Perm (List.range (s.pushed + 1))
    rw [← List.append_assoc, List.range_succ]
    exact h.once.append_right _
  ordered hone := by
    show s.executed ++ s.batches ++ (s.taskQueue ++ [s.pushed]) = List.range (s.pushed + 1)
    rw [← List.append_assoc, List.range_succ, h.ordered hone]
  awake _ hne _ := hawake hne
  retiring hmem := absurd hmem hret

/-- A thread that stops the pool moves no task. -/
theorem Sound.stopped (h : Sound s) {stop : StopPhase} (hstop : stop ≠ .idle) : Sound { s with stop } :=
  ⟨⟨h.once, h.ordered, fun hidle => absurd hidle hstop⟩, h.retiring⟩

theorem batches_wake : { s with workers := s.workers.map WorkerPhase.wake }.batches = s.batches := by
  rw [batches, batches, List.flatMap_map]
  congr 1
  funext w
  cases w <;> rfl

theorem wake_ne_asleep (w : WorkerPhase) : w.wake ≠ .asleep := by
  cases w <;> nofun

theorem wake_eq_retiring : w.wake = .retiring ↔ w = .retiring := by
  cases w <;> simp [WorkerPhase.wake]

theorem Sound.woken (h : Sound s) : Sound { s with workers := s.workers.map WorkerPhase.wake } := by
  refine ⟨⟨?_, fun hone => ?_, fun _ hne _ => ?_⟩, fun hret => ?_⟩
  · rw [batches_wake]
    exact h.once
  · rw [batches_wake]
    exact h.ordered (by simpa using hone)
  · obtain ⟨w, hw⟩ := List.exists_mem_of_ne_nil _ hne
    obtain ⟨w₀, -, rfl⟩ := List.mem_map.mp hw
    exact ⟨_, hw, wake_ne_asleep w₀⟩
  · obtain ⟨w, hw, heq⟩ := List.mem_map.mp hret
    exact h.retiring (wake_eq_retiring.mp heq ▸ hw)

theorem step_sound (h : Sound s) (hstep : step s a = some s') : Sound s' := by
  cases a with
  | push woken =>
    cases woken with
    | none =>
      obtain ⟨⟨hfree, hnone⟩, heq⟩ := Option.ite_none_right_eq_some.mp hstep
      cases heq
      refine h.pushBack (not_mem_retiring_of_unlocked hfree) fun hne => ?_
      obtain ⟨w, ws, hws⟩ := List.exists_cons_of_ne_nil hne
      have hmem : w ∈ s.workers := hws ▸ List.mem_cons_self
      exact ⟨w, hmem, fun hw => hnone (hw ▸ hmem)⟩
    | some i =>
      obtain ⟨⟨hfree, hi⟩, heq⟩ := Option.ite_none_right_eq_some.mp hstep
      cases heq
      obtain ⟨l₁, l₂, hsplit, hset⟩ := exists_workers_split hi .locking
      have hwoken : Sound { s with workers := l₁ ++ .locking :: l₂ } :=
        h.worker hsplit (.goes rfl rfl nofun nofun)
      have hmem : WorkerPhase.locking ∈ l₁ ++ .locking :: l₂ := List.mem_append_right _ List.mem_cons_self
      have hret : WorkerPhase.retiring ∉ l₁ ++ .locking :: l₂ := by
        have hret := not_mem_retiring_of_unlocked hfree
        rw [hsplit] at hret
        simpa using hret
      have hpushed := hwoken.pushBack hret fun _ => ⟨.locking, hmem, nofun⟩
      rw [← hset] at hpushed
      exact hpushed
  | worker i b =>
    obtain ⟨w, hi, hentry⟩ := Option.bind_eq_some_iff.mp hstep
    obtain ⟨w', hmoves, hworkers, hstop, hpushed⟩ := entry_moves hentry
    obtain ⟨l₁, l₂, hsplit, hset⟩ := exists_workers_split hi w'
    have hnext := h.worker hsplit hmoves
    rw [← hset, ← hworkers, ← hstop, ← hpushed] at hnext
    exact hnext
  | signal =>
    obtain ⟨-, heq⟩ := Option.ite_none_right_eq_some.mp hstep
    cases heq
    exact h.stopped nofun
  | notifyAll =>
    obtain ⟨-, heq⟩ := Option.ite_none_right_eq_some.mp hstep
    cases heq
    exact h.woken.stopped nofun
  | join =>
    obtain ⟨-, heq⟩ := Option.ite_none_right_eq_some.mp hstep
    cases heq
    exact h.stopped nofun

/-- In every reachable state of a pool each task is in one place, and a queue that is not empty has a worker that is
    awake. -/
theorem run_handled {n : Nat} (hrun : run step (start n) acts = some s) : Handled s :=
  (run_induct (fun _ _ _ => step_sound) (sound_start n) hrun).toHandled

/-- Two workers and three tasks: one worker sleeps, is woken and takes two of them at once. -/
theorem run_handled_two : Handled { workers := [.running [1], .locking], taskQueue := [2], pushed := 3, executed := [0] } := by
  have hrun : run step (start 2) [.worker 0 .loop, .worker 0 .lock, .worker 0 .test, .worker 0 .sleep, .push (some 0),
      .push none, .worker 1 .loop, .worker 0 .lock, .worker 0 .test, .worker 0 .swap, .worker 0 .work, .push none] =
        some { workers := [.running [1], .locking], taskQueue := [2], pushed := 3, executed := [0] } := by
    decide
  exact run_handled hrun

/-! ### One worker -/

/-- The pool of one worker, without what its worker waits for. -/
def toThreadPool (s : WorkerPool) : ThreadPool Nat := { taskQueue := s.taskQueue, tmp := s.batches }

theorem batches_setWorker (hi : s.workers[i]? = some w) (htmp : w'.tmp = w.tmp) :
    (s.pushBack.setWorker i w').batches = s.batches := by
  obtain ⟨l₁, l₂, hsplit, hset⟩ := exists_workers_split hi w'
  rw [batches_split hsplit, batches_split (s := s.pushBack.setWorker i w') hset, htmp]

/-- A pool of one worker makes the steps of `ThreadPool`: it pushes, swaps or takes the next task. -/
theorem step_toThreadPool (hone : s.workers.length = 1) (hstep : step s a = some s') :
    s'.toThreadPool = s.toThreadPool ∨ (∃ task, s'.toThreadPool = s.toThreadPool.push task) ∨
      (s.batches = [] ∧ s.toThreadPool.swap = some s'.toThreadPool) ∨
        ∃ task tmp, s.batches = task :: tmp ∧ s'.toThreadPool = { s.toThreadPool with tmp } := by
  cases a with
  | push woken =>
    right
    left
    refine ⟨s.pushed, ?_⟩
    cases woken with
    | none =>
      obtain ⟨-, heq⟩ := Option.ite_none_right_eq_some.mp hstep
      cases heq
      rfl
    | some i =>
      obtain ⟨⟨-, hi⟩, heq⟩ := Option.ite_none_right_eq_some.mp hstep
      cases heq
      have hbatches : (s.pushBack.setWorker i .locking).batches = s.batches := batches_setWorker hi rfl
      rw [toThreadPool, hbatches]
      rfl
  | worker i b =>
    obtain ⟨w, hi, hentry⟩ := Option.bind_eq_some_iff.mp hstep
    obtain ⟨w', hmoves, hworkers, -, -⟩ := entry_moves hentry
    obtain ⟨l₁, l₂, hsplit, hset⟩ := exists_workers_split hi w'
    have hlength := congrArg List.length hsplit
    rw [hone, List.length_append, List.length_cons] at hlength
    have hleft : l₁ = [] := List.length_eq_zero_iff.mp (by omega)
    have hright : l₂ = [] := List.length_eq_zero_iff.mp (by omega)
    have hbatches : s.batches = w.tmp := by simp [batches, hsplit, hleft, hright]
    have hbatches' : s'.batches = w'.tmp := by simp [batches, hworkers, hset, hleft, hright]
    rw [toThreadPool, toThreadPool, hbatches, hbatches']
    generalize s'.taskQueue = queue at hmoves ⊢
    generalize s'.executed = executed at hmoves
    cases hmoves with
    | goes hw hw' _ _ =>
      rw [hw, hw']
      exact Or.inl rfl
    | retires _ _ => exact Or.inl rfl
    | sleeps => exact Or.inl rfl
    | swaps =>
      by_cases hqueue : s.taskQueue = []
      · rw [hqueue]
        exact Or.inl rfl
      · refine Or.inr (Or.inr (Or.inl ⟨rfl, ?_⟩))
        simp [ThreadPool.swap, hqueue, WorkerPhase.tmp]
    | runs task tmp => exact Or.inr (Or.inr (Or.inr ⟨task, tmp, rfl, rfl⟩))
  | signal =>
    obtain ⟨-, heq⟩ := Option.ite_none_right_eq_some.mp hstep
    cases heq
    exact Or.inl rfl
  | notifyAll =>
    obtain ⟨-, heq⟩ := Option.ite_none_right_eq_some.mp hstep
    cases heq
    exact Or.inl (congrArg (ThreadPool.mk s.taskQueue) batches_wake)
  | join =>
    obtain ⟨-, heq⟩ := Option.ite_none_right_eq_some.mp hstep
    cases heq
    exact Or.inl rfl

end WorkerPool
end HareMQ
