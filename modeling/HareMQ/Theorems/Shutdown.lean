import HareMQ.Theorems.Pool

/-! # Stopping a pool

`stop` sets the signal and notifies without the lock. A worker that has found the predicate false, and does not sleep
yet, is not reached by the notification, and then sleeps forever. -/

namespace HareMQ
open Lib
namespace WorkerPool
variable {s s' t : WorkerPool} {a : PoolAct} {acts : List PoolAct}

/-- `stop` waits for a worker that sleeps. -/
def Hung (s : WorkerPool) : Prop := s.stop = .joining ∧ .asleep ∈ s.workers

/-- Once `stop` joins the workers, it hangs on no way to go on. -/
def Joins (s : WorkerPool) : Prop := s.stop = .joining → ∀ acts t, run step s acts = some t → ¬Hung t

/-- `notify_all` comes when no worker is between the predicate and its sleep. -/
def noneRetiring (s : WorkerPool) : PoolAct → Bool
  | .notifyAll => s.workers.all (· ≠ .retiring)
  | _ => true

/-- No worker sleeps after `notify_all`, or is about to. -/
structure Roused (s : WorkerPool) : Prop where
  stopping : s.stop = .joining ∨ s.stop = .returned
  asleep : .asleep ∉ s.workers
  retiring : .retiring ∉ s.workers

/-- A worker that does not sleep takes the place of another one. -/
theorem Roused.replace (h : Roused s) {l₁ l₂ : List WorkerPhase} {w w' : WorkerPhase} (hsplit : s.workers = l₁ ++ w :: l₂)
    (hasleep : w' ≠ .asleep) (hretiring : w' ≠ .retiring) :
    .asleep ∉ l₁ ++ w' :: l₂ ∧ .retiring ∉ l₁ ++ w' :: l₂ := by
  obtain ⟨-, hnone, hnone'⟩ := h
  rw [hsplit] at hnone hnone'
  simp only [List.mem_append, List.mem_cons, not_or] at hnone hnone' ⊢
  exact ⟨⟨hnone.1, hasleep.symm, hnone.2.2⟩, hnone'.1, hretiring.symm, hnone'.2.2⟩

theorem Roused.step (h : Roused s) (hstep : step s a = some s') : Roused s' := by
  have hidle : s.stop ≠ .idle := by
    obtain hstop | hstop := h.stopping
    · simp [hstop]
    · simp [hstop]
  cases a with
  | push woken =>
    cases woken with
    | none =>
      obtain ⟨-, heq⟩ := Option.ite_none_right_eq_some.mp hstep
      cases heq
      exact ⟨h.stopping, h.asleep, h.retiring⟩
    | some i =>
      obtain ⟨⟨-, hi⟩, -⟩ := Option.ite_none_right_eq_some.mp hstep
      exact absurd (List.mem_of_getElem? hi) h.asleep
  | worker i b =>
    obtain ⟨w, hi, hentry⟩ := Option.bind_eq_some_iff.mp hstep
    obtain ⟨w', hmoves, hworkers, hstop, -⟩ := entry_moves hentry
    obtain ⟨l₁, l₂, hsplit, hset⟩ := exists_workers_split hi w'
    have hawake : w' ≠ .asleep := by
      rintro rfl
      exact h.retiring (hmoves.of_asleep ▸ List.mem_of_getElem? hi)
    have hstays : w' ≠ .retiring := by
      rintro rfl
      exact hidle hmoves.of_retiring
    obtain ⟨hasleep, hretiring⟩ := h.replace hsplit hawake hstays
    rw [← hset, ← hworkers] at hasleep hretiring
    exact ⟨hstop ▸ h.stopping, hasleep, hretiring⟩
  | signal =>
    obtain ⟨hstop, -⟩ := Option.ite_none_right_eq_some.mp hstep
    exact absurd hstop hidle
  | notifyAll =>
    obtain ⟨hstop, -⟩ := Option.ite_none_right_eq_some.mp hstep
    obtain hstop' | hstop' := h.stopping
    · cases hstop.symm.trans hstop'
    · cases hstop.symm.trans hstop'
  | join =>
    obtain ⟨-, heq⟩ := Option.ite_none_right_eq_some.mp hstep
    cases heq
    exact ⟨Or.inr rfl, h.asleep, h.retiring⟩

theorem Roused.joins (h : Roused s) : Joins s := fun _ _ _ hrun hhung =>
  (run_induct (fun _ _ _ hs hstep => hs.step hstep) h hrun).asleep hhung.2

/-- `stop` has not notified yet, or there is nobody left to wake. -/
def Orderly (s : WorkerPool) : Prop := s.stop = .idle ∨ s.stop = .signalled ∨ Roused s

theorem Orderly.joins (h : Orderly s) : Joins s := by
  obtain hstop | hstop | h := h
  · intro hjoin
    cases hstop.symm.trans hjoin
  · intro hjoin
    cases hstop.symm.trans hjoin
  · exact h.joins

theorem roused_notifyAll (h : .retiring ∉ s.workers) :
    Roused { s with stop := .joining, workers := s.workers.map WorkerPhase.wake } := by
  refine ⟨Or.inl rfl, fun hmem => ?_, fun hmem => ?_⟩
  · obtain ⟨w, -, hw⟩ := List.mem_map.mp hmem
    exact wake_ne_asleep w hw
  · obtain ⟨w, hmem, hw⟩ := List.mem_map.mp hmem
    exact h (wake_eq_retiring.mp hw ▸ hmem)

/-- Only the thread that stops the pool changes how far `stop` is. -/
theorem stop_cases (hstep : step s a = some s') : s'.stop = s.stop ∨
    (s.stop = .idle ∧ s'.stop = .signalled) ∨
      (a = .notifyAll ∧ s.stop = .signalled ∧
        s' = { s with stop := .joining, workers := s.workers.map WorkerPhase.wake }) ∨
        s.stop = .joining := by
  cases a with
  | push woken =>
    cases woken with
    | none =>
      obtain ⟨-, heq⟩ := Option.ite_none_right_eq_some.mp hstep
      cases heq
      exact Or.inl rfl
    | some i =>
      obtain ⟨-, heq⟩ := Option.ite_none_right_eq_some.mp hstep
      cases heq
      exact Or.inl rfl
  | worker i b =>
    obtain ⟨w, -, hentry⟩ := Option.bind_eq_some_iff.mp hstep
    obtain ⟨w', -, -, hstop, -⟩ := entry_moves hentry
    exact Or.inl hstop
  | signal =>
    obtain ⟨hidle, heq⟩ := Option.ite_none_right_eq_some.mp hstep
    cases heq
    exact Or.inr (Or.inl ⟨hidle, rfl⟩)
  | notifyAll =>
    obtain ⟨hsignalled, heq⟩ := Option.ite_none_right_eq_some.mp hstep
    exact Or.inr (Or.inr (Or.inl ⟨rfl, hsignalled, (Option.some.inj heq).symm⟩))
  | join =>
    obtain ⟨⟨hjoining, -⟩, -⟩ := Option.ite_none_right_eq_some.mp hstep
    exact Or.inr (Or.inr (Or.inr hjoining))

theorem step_orderly (h : Orderly s) (hstep : step s a = some s') (hcond : noneRetiring s a = true) : Orderly s' := by
  obtain hidle | hsignalled | h := h
  · obtain hstop | ⟨-, hstop⟩ | ⟨-, hstop, -⟩ | hstop := stop_cases hstep
    · exact Or.inl (hstop.trans hidle)
    · exact Or.inr (Or.inl hstop)
    · cases hidle.symm.trans hstop
    · cases hidle.symm.trans hstop
  · obtain hstop | ⟨hstop, -⟩ | ⟨rfl, -, rfl⟩ | hstop := stop_cases hstep
    · exact Or.inr (Or.inl (hstop.trans hsignalled))
    · cases hsignalled.symm.trans hstop
    · have hnone : ∀ w ∈ s.workers, w ≠ .retiring := by simpa [noneRetiring] using hcond
      exact Or.inr (Or.inr (roused_notifyAll fun hmem => hnone _ hmem rfl))
    · cases hsignalled.symm.trans hstop
  · exact Or.inr (Or.inr (h.step hstep))

/-- The worker that was missed goes to sleep. -/
theorem not_joins_of_step (hstep : step s a = some s') (hcond : noneRetiring s a = false) : ¬Joins s' := by
  cases a with
  | notifyAll =>
    have hmem : .retiring ∈ s.workers := by simpa [noneRetiring] using hcond
    obtain ⟨-, heq⟩ := Option.ite_none_right_eq_some.mp hstep
    cases heq
    obtain ⟨i, hi⟩ := List.mem_iff_getElem?.mp hmem
    intro hjoins
    have hwoken : (s.workers.map WorkerPhase.wake)[i]? = some .retiring := by
      rw [List.getElem?_map, hi]
      rfl
    have hlt : i < (s.workers.map WorkerPhase.wake).length := (List.getElem?_eq_some_iff.mp hwoken).1
    have hrun : run step { s with stop := .joining, workers := s.workers.map WorkerPhase.wake } [.worker i .sleep] =
        some (setWorker { s with stop := .joining, workers := s.workers.map WorkerPhase.wake } i .asleep) := by
      rw [run, step, hwoken]
      rfl
    exact hjoins rfl _ _ hrun ⟨rfl, List.mem_set hlt .asleep⟩
  | _ => cases hcond

/-- In every state of a run `stop` can hang no more exactly when it has notified while no worker was about to sleep. -/
theorem run_joins_iff {n : Nat} (hrun : run step (start n) acts = some t) :
    (∀ pre s, pre <+: acts → run step (start n) pre = some s → Joins s) ↔
      always step noneRetiring (start n) acts = true :=
  always_iff_of_exact (fun _ => Orderly.joins) (fun _ _ _ h hstep hcond => step_orderly h hstep hcond)
    (fun _ _ _ _ hstep hcond => not_joins_of_step hstep hcond) (Or.inl rfl) hrun

/-- The only worker sleeps when `stop` notifies it. -/
def stopAsleep : List PoolAct :=
  [.worker 0 .loop, .worker 0 .lock, .worker 0 .test, .worker 0 .sleep, .signal, .notifyAll, .worker 0 .lock,
    .worker 0 .test, .worker 0 .swap, .worker 0 .work, .worker 0 .loop, .join]

theorem run_joins_iff_asleep : run step (start 1) stopAsleep = some { workers := [.exited], stop := .returned } ∧
    ∀ pre s, pre <+: stopAsleep → run step (start 1) pre = some s → Joins s := by
  have hrun : run step (start 1) stopAsleep = some { workers := [.exited], stop := .returned } := by decide
  exact ⟨hrun, (run_joins_iff hrun).mpr (by decide)⟩

/-- The only worker has tested the predicate and not released the lock yet when `stop` notifies: it sleeps, and `stop`
    waits for it. -/
theorem run_hung : ∃ s, run step (start 1) [.worker 0 .loop, .worker 0 .lock, .worker 0 .test, .signal, .notifyAll,
    .worker 0 .sleep] = some s ∧ Hung s :=
  ⟨{ workers := [.asleep], stop := .joining }, by decide, rfl, List.mem_singleton.mpr rfl⟩

end WorkerPool
end HareMQ
