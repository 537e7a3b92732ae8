import HareMQ.Theorems.Delivery
import HareMQ.Theorems.Subscriptions

/-! # Tasks, callbacks and the channels that they capture

A task and the callback of a consumer hold the bare address of a channel. The channel is open when the worker uses it, in
every run that closes a channel only when nothing holds its address any more. -/

namespace HareMQ
open Lib

/-- The task that runs. -/
def Worker.task : Worker → Option Task
  | .idle => none
  | .started task => some task
  | .fetched task _ _ => some task
  | .chosen task _ _ _ => some task
  | .called task _ _ _ => some task

/-- The consumer whose callback is called next. -/
def Worker.callee : Worker → Option Consumer
  | .chosen _ _ _ c => some c
  | _ => none

namespace Sys
variable {pb : PayloadCodec} {s s' : Sys} {act : Act}

/-- The channels that the task that runs, and the callback that is called, captured are open. -/
def NoDangling (s : Sys) : Prop :=
  (∀ task, s.worker.task = some task → s.broker.registry.Open task.channel) ∧
    ∀ c, s.worker.callee = some c → s.broker.registry.Open c.callback

/-- The addresses in the tasks of the pool and in the worker. -/
def captured (s : Sys) : List ChannelRef :=
  s.broker.pool.taskQueue.map Task.channel ++ s.broker.pool.tmp.map Task.channel ++
    s.worker.task.toList.map Task.channel ++ s.worker.callee.toList.map Consumer.callback

/-- A channel is closed only when no task that waits or runs captured it, and its callback is not about to be called. -/
def freed (s : Sys) : Act → Bool
  | .request conn (.closeChannel req) =>
    (s.broker.registry.channelAt conn req.cid).all fun self => decide (self ∉ s.captured)
  | .disconnect conn =>
    (s.broker.conns.lookup conn).all fun channels => channels.entries.all fun e => decide (e.2 ∉ s.captured)
  | _ => true

/-- A channel is closed only when it is free and no consumer stays behind with it. -/
def releases (s : Sys) (act : Act) : Bool := s.clears act && s.freed act

theorem not_closes_work (pb : PayloadCodec) (s : Sys) (self : ChannelRef) :
    ¬s.broker.registry.Closes self (s.registryOp pb .work) := by
  unfold registryOp
  dsimp only
  split <;> exact id

theorem freed_closes (pb : PayloadCodec) {self : ChannelRef} (hfree : s.freed act = true) (hself : self ∈ s.captured) :
    ¬s.broker.registry.Closes self (s.registryOp pb act) := by
  cases act with
  | request conn req =>
    by_cases hreq : ∃ req', req = .closeChannel req'
    · rcases hreq with ⟨req, rfl⟩
      intro hcloses
      have hat : s.broker.registry.channelAt conn req.cid = some self := hcloses
      simp only [freed, hat, Option.all_some, decide_eq_true_eq] at hfree
      exact hfree hself
    · exact not_closes_request (fun req' heq => hreq ⟨req', heq⟩) _ _
  | disconnect conn =>
    rintro ⟨cid, hcid⟩
    rcases Option.bind_eq_some_iff.mp hcid with ⟨channels, hconn, hcid⟩
    have hconn : s.broker.conns.lookup conn = some channels := hconn
    rw [freed, hconn, Option.all_some, List.all_eq_true] at hfree
    exact of_decide_eq_true (hfree ⟨cid, self⟩ (UMap.mem_entries_iff.mpr hcid)) hself
  | work => exact not_closes_work pb s self
  | _ => exact id

/-! ### Steps -/

/-- Where the captured addresses come from: the loop of `basic_publish`, whose own comes from a request, and the
    registered consumers, from which the worker chooses. -/
structure Captures (s s' : Sys) (act : Act) : Prop where
  captured : ∀ self ∈ s'.captured, self ∈ s.captured ∨ (∃ p, s.loop = some p ∧ p.self = self) ∨
    (act = .work ∧ ∃ c, s.broker.consumers.Registered c ∧ c.callback = self)
  loop : ∀ p', s'.loop = some p' → (∃ p, s.loop = some p ∧ p.self = p'.self) ∨
    ((∃ conn req, act = .request conn (.basicPublish req)) ∧ s.broker.registry.Open p'.self)

theorem Captures.of_eq (hpool : s'.broker.pool = s.broker.pool) (hworker : s'.worker = s.worker)
    (hloop : s'.loop = s.loop) : Captures s s' act where
  captured self hself := by
    rw [Sys.captured, hpool, hworker] at hself
    exact Or.inl hself
  loop p' hp' := Or.inl ⟨p', hloop ▸ hp', rfl⟩

theorem destroy_pool (b : Broker) (self : ChannelRef) : (b.destroy self).pool = b.pool := by
  unfold Broker.destroy
  split <;> rfl

theorem foldl_destroy_pool (entries : List (Sigma fun _ : String => ChannelRef)) (b : Broker) :
    (entries.foldl (fun b e => b.destroy e.2) b).pool = b.pool := by
  induction entries generalizing b with
  | nil => rfl
  | cons e entries ih => rw [List.foldl_cons, ih, destroy_pool]

theorem onChannel_captures {self : ChannelRef} {conn : ConnRef} {req : Request} (hself : s.broker.registry.Open self)
    (hstep : s.onChannel pb self req = some s') : Captures s s' (.request conn req) := by
  cases req with
  | openChannel req => cases hstep; exact .of_eq rfl rfl rfl
  | closeChannel req => cases hstep; exact .of_eq rfl rfl rfl
  | declareExchange req => cases hstep; exact .of_eq rfl rfl rfl
  | deleteExchange req => cases hstep; exact .of_eq rfl rfl rfl
  | declareQueue req =>
    rcases Option.map_eq_some_iff.mp hstep with ⟨broker, hdecl, rfl⟩
    have hpool : broker.pool = s.broker.pool := by
      unfold Broker.declareQueue at hdecl
      split at hdecl
      · cases hdecl
      · cases hdecl; rfl
      · cases hdecl; rfl
    unfold noteDeclared
    split <;> exact .of_eq hpool rfl rfl
  | deleteQueue req =>
    cases hstep
    unfold noteDeleted
    split <;> exact .of_eq rfl rfl rfl
  | bind req => cases hstep; exact .of_eq rfl rfl rfl
  | unbind req => cases hstep; exact .of_eq rfl rfl rfl
  | basicPublish req =>
    cases hstep
    unfold startPublish
    split
    · exact .of_eq rfl rfl rfl
    · refine ⟨fun _ h => Or.inl h, fun p' hp' => Or.inr ⟨⟨conn, req, rfl⟩, ?_⟩⟩
      cases hp'
      exact hself
  | basicAck req =>
    rcases onChannel_basicAck hstep with ⟨host, -, rfl⟩
    exact .of_eq rfl rfl rfl
  | basicConsume req =>
    cases hstep
    unfold handle Broker.basicConsume
    split <;> exact .of_eq rfl rfl rfl
  | basicCancel req => cases hstep; exact .of_eq rfl rfl rfl
  | basicQuery req =>
    rcases onChannel_basicQuery hstep with ⟨body, -, rfl⟩
    exact .of_eq rfl rfl rfl

theorem onRequest_captures {conn : ConnRef} {req : Request} (hstep : s.onRequest pb conn req = some s') :
    Captures s s' (.request conn req) := by
  cases requested hstep with
  | unknown hconn => exact .of_eq rfl rfl rfl
  | opens hconn =>
    unfold handle Broker.openChannel
    split <;> exact .of_eq rfl rfl rfl
  | @closes channels req hconn =>
    refine .of_eq ?_ rfl rfl
    unfold handle Broker.closeChannel
    cases channels.lookup req.cid with
    | none => rfl
    | some self => exact destroy_pool _ self
  | unserved hconn hopen hclose hself => exact .of_eq rfl rfl rfl
  | served hconn hopen hclose hself hstep =>
    exact onChannel_captures ⟨conn, _, (Registry.channelAt_of_lookup (r := s.broker.registry) hconn _).trans hself⟩ hstep

theorem work_captures (hs : s.broker.registry.Sound) (hstep : s.work pb = some s') : Captures s s' .work := by
  have hfewer : ∀ {s' : Sys}, s'.loop = s.loop → (∀ self ∈ s'.captured, self ∈ s.captured) → Captures s s' .work :=
    fun hloop hsub => ⟨fun self hself => Or.inl (hsub self hself), fun p' hp' => Or.inl ⟨p', hloop ▸ hp', rfl⟩⟩
  have hidle : ∀ host : VirtualHost, ∀ self ∈ ({ s with broker := { s.broker with host }, worker := .idle } : Sys).captured,
      self ∈ s.captured := by
    intro host self hself
    simp only [captured, Worker.task, Worker.callee, List.mem_append, Option.toList_none, List.map_nil, List.not_mem_nil,
      or_false] at hself ⊢
    tauto
  cases worked hstep with
  | swap hworker htmp hswap =>
    unfold ThreadPool.swap at hswap
    split at hswap
    · cases hswap
    · cases hswap
      refine hfewer rfl fun self hself => ?_
      simp only [captured, handle, htmp, hworker, Worker.task, Worker.callee, List.map_nil, List.nil_append,
        Option.toList_none, List.append_nil] at hself ⊢
      exact hself
  | start hworker htmp =>
    refine hfewer rfl fun self hself => ?_
    simp only [captured, htmp, hworker, Worker.task, Worker.callee, List.map_nil, Option.toList_none, List.append_nil,
      Option.toList_some, List.map_cons, List.mem_append, List.mem_cons, List.not_mem_nil, or_false] at hself ⊢
    tauto
  | consume hworker =>
    unfold consume
    split
    · exact hfewer rfl (hidle _)
    · refine hfewer rfl fun self hself => ?_
      simp only [captured, hworker, Worker.task, Worker.callee] at hself ⊢
      exact hself
  | @choose task m payload hworker =>
    have hchosen := (ConsumerManager.choose_cases hs.filed task.qname).2.2
    unfold choose
    split
    · refine hfewer rfl fun self hself => ?_
      simp only [captured, hworker, Worker.task, Worker.callee, List.mem_append] at hself ⊢
      tauto
    · next c consumers heq =>
      refine ⟨fun self hself => ?_, fun p' hp' => Or.inl ⟨p', hp', rfl⟩⟩
      simp only [captured, hworker, Worker.task, Worker.callee, Option.toList_some, List.map_cons, List.map_nil,
        Option.toList_none, List.append_nil, List.mem_append, List.mem_singleton] at hself ⊢
      rcases hself with hself | hself
      · exact Or.inl hself
      · refine Or.inr (Or.inr ⟨trivial, c, (hchosen c ?_).1, hself.symm⟩)
        exact congrArg Prod.fst heq
  | call hworker =>
    refine hfewer rfl fun self hself => ?_
    simp only [captured, call, Broker.consumeCb, Broker.send, hworker, Worker.task, Worker.callee, List.mem_append] at hself ⊢
    tauto
  | ack hworker hauto hack => exact hfewer rfl (hidle _)
  | keep hworker hauto => exact hfewer rfl (hidle s.broker.host)

theorem step_captures (hs : s.broker.registry.Sound) (hstep : s.step pb act = some s') : Captures s s' act := by
  cases act with
  | connect conn =>
    simp only [step, Option.ite_none_left_eq_some, Option.some.injEq] at hstep
    rw [← hstep.2]
    exact .of_eq rfl rfl rfl
  | disconnect conn =>
    simp only [step, Option.ite_none_left_eq_some, Option.some.injEq] at hstep
    rw [← hstep.2]
    refine .of_eq ?_ rfl rfl
    unfold handle Broker.deleteConnection
    dsimp only
    split
    · rfl
    · exact foldl_destroy_pool _ _
  | request conn req =>
    simp only [step, Option.ite_none_left_eq_some] at hstep
    exact onRequest_captures hstep.2
  | publish uuid =>
    rcases Option.map_eq_some_iff.mp hstep with ⟨p, hp, rfl⟩
    unfold publishStep
    split
    · exact ⟨fun _ h => Or.inl h, fun _ h => by cases h⟩
    · split
      · refine ⟨fun self hself => ?_, fun p' hp' => Or.inl ⟨p, hp, ?_⟩⟩
        · simp only [captured, ThreadPool.push, List.map_append, List.map_cons, List.map_nil, List.mem_append,
            List.mem_singleton] at hself ⊢
          rcases hself with ((((hself | rfl) | hself) | hself) | hself)
          · exact Or.inl (Or.inl (Or.inl (Or.inl hself)))
          · exact Or.inr (Or.inl ⟨p, hp, rfl⟩)
          · exact Or.inl (Or.inl (Or.inl (Or.inr hself)))
          · exact Or.inl (Or.inl (Or.inr hself))
          · exact Or.inl (Or.inr hself)
        · cases hp'
          rfl
      · refine ⟨fun _ h => Or.inl h, fun p' hp' => Or.inl ⟨p, hp, ?_⟩⟩
        cases hp'
        rfl
  | work => exact work_captures hs hstep
  | restart =>
    rcases boot_registry hstep with ⟨-, hworker, hloop, hpool, -⟩
    refine ⟨fun self hself => ?_, fun p' hp' => ?_⟩
    · rw [captured, hpool, hworker] at hself
      cases hself
    · rw [hloop] at hp'
      cases hp'

/-! ### Runs -/

/-- Every address that somebody holds is that of an open channel. -/
structure Anchored (s : Sys) : Prop where
  registry : s.broker.registry.Sound
  consumers : s.NoOrphans
  captured : ∀ self ∈ s.captured, s.broker.registry.Open self
  loop : ∀ p, s.loop = some p → s.broker.registry.Open p.self

theorem Anchored.noDangling (hs : s.Anchored) : s.NoDangling := by
  refine ⟨fun task htask => hs.captured _ ?_, fun c hc => hs.captured _ ?_⟩
  · simp [Sys.captured, htask]
  · simp [Sys.captured, hc]

theorem boot_anchored {basedir : String} {d : Disk} {db : Db} (hboot : boot pb basedir d db = some s) : s.Anchored := by
  rcases boot_registry hboot with ⟨hsound, hworker, hloop, hpool, hnone⟩
  refine ⟨hsound, fun c hc => absurd hc (hnone c), fun self hself => ?_, fun p hp => ?_⟩
  · rw [captured, hpool, hworker] at hself
    cases hself
  · rw [hloop] at hp
    cases hp

/-- While the loop of `basic_publish` runs, the event loop closes nothing. -/
theorem not_closes_of_loop (hstep : s.step pb act = some s') (hloop : s.loop.isSome = true) (self : ChannelRef) :
    ¬s.broker.registry.Closes self (s.registryOp pb act) := by
  cases act with
  | disconnect conn =>
    simp only [step, hloop, if_true, reduceCtorEq] at hstep
  | request conn req =>
    simp only [step, hloop, if_true, reduceCtorEq] at hstep
  | work => exact not_closes_work pb s self
  | _ => exact id

theorem step_anchored (hs : s.Anchored) (hstep : s.step pb act = some s') (hrel : s.releases act = true) : s'.Anchored := by
  by_cases hact : act = .restart
  · subst hact
    exact boot_anchored hstep
  · rcases (Bool.and_eq_true _ _).mp hrel with ⟨hclear, hfree⟩
    rcases step_noOrphans ⟨hs.registry, hs.consumers⟩ hstep hclear with ⟨hsound, hnone⟩
    rcases step_captures hs.registry hstep with ⟨hcaptured, hloop⟩
    have hopen : ∀ self, s.broker.registry.Open self → ¬s.broker.registry.Closes self (s.registryOp pb act) →
        s'.broker.registry.Open self := fun self hself hcloses => by
      rw [registry_step hstep hact]
      exact (Registry.open_apply hs.registry hself).mpr hcloses
    refine ⟨hsound, hnone, fun self hself => ?_, fun p' hp' => ?_⟩
    · rcases hcaptured self hself with hself' | ⟨p, hp, rfl⟩ | ⟨rfl, c, hc, rfl⟩
      · exact hopen self (hs.captured self hself') (freed_closes pb hfree hself')
      · exact hopen p.self (hs.loop p hp) (not_closes_of_loop hstep (by rw [hp]; rfl) p.self)
      · exact hopen c.callback (hs.consumers c hc) (not_closes_work pb s _)
    · rcases hloop p' hp' with ⟨p, hp, heq⟩ | ⟨⟨conn, req, rfl⟩, hself⟩
      · rw [← heq]
        exact hopen p.self (hs.loop p hp) (not_closes_of_loop hstep (by rw [hp]; rfl) p.self)
      · exact hopen p'.self hself (not_closes_request (by simp) _ _)

/-- When every channel that is closed is free of tasks, callbacks and consumers, no task runs on a closed channel and no
    callback is called on one. -/
theorem run_noDangling {basedir : String} {d : Disk} {db : Db} {acts : List Act} {s₀ : Sys}
    (hboot : boot pb basedir d db = some s₀) (hrel : always (step pb) releases s₀ acts = true) :
    ∀ pre s₁, pre <+: acts → s₀.run pb pre = some s₁ → s₁.NoDangling := by
  intro pre s₁ hpre hrun
  rw [run_eq_run] at hrun
  exact (run_induct_of_always (fun _ _ _ => step_anchored) (boot_anchored hboot) hrel pre s₁ hpre hrun).noDangling

/-- The channel is closed after the worker is done. -/
def settled : List Act :=
  bound ++ .request 1 (.basicConsume ⟨"8", "c", "t", "q", true⟩) :: pushed ++
    [.work, .work, .request 1 (.closeChannel ⟨"9", "c"⟩)]

theorem run_noDangling_settled : ∃ s₀ s : Sys, boot protobuf "data" Store.vacant {} = some s₀ ∧
    s₀.run protobuf settled = some s ∧ s.handed = [⟨"q", 0, 0⟩] ∧ s.broker.registry.openChannels = [] ∧
    ∀ pre s₁, pre <+: settled → s₀.run protobuf pre = some s₁ → s₁.NoDangling := by
  have hrun : (boot protobuf "data" Store.vacant {}).any (fun s₀ =>
      always (step protobuf) releases s₀ settled && (s₀.run protobuf settled).any fun s =>
        decide (s.handed = [⟨"q", 0, 0⟩]) && s.broker.registry.openChannels.isEmpty) = true := by
    decide +kernel
  rcases (Option.any_eq_true _ _).mp hrun with ⟨s₀, hboot, hs₀⟩
  rcases (Bool.and_eq_true _ _).mp hs₀ with ⟨hrel, hs₀⟩
  rcases (Option.any_eq_true _ _).mp hs₀ with ⟨s, hs, hend⟩
  rcases (Bool.and_eq_true _ _).mp hend with ⟨hhanded, hopen⟩
  exact ⟨s₀, s, hboot, hs, of_decide_eq_true hhanded, List.isEmpty_iff.mp hopen, run_noDangling hboot hrel⟩

/-- The channel is closed after it published, and before the worker takes the task. -/
def abandoned : List Act :=
  bound ++ pushed.take 4 ++ [.request 1 (.closeChannel ⟨"8", "c"⟩), .work, .work]

/-- The task runs on a channel that is not open any more. -/
theorem run_dangling : ∃ s₀ s : Sys, boot protobuf "data" Store.vacant {} = some s₀ ∧
    s₀.run protobuf abandoned = some s ∧ s.worker = .started ⟨0, "q"⟩ ∧ ¬s.broker.registry.Open 0 ∧ ¬s.NoDangling := by
  have hrun : (boot protobuf "data" Store.vacant {}).any (fun s₀ => (s₀.run protobuf abandoned).any fun s =>
      decide (s.worker = .started ⟨0, "q"⟩) && decide (0 ∉ s.broker.registry.openChannels)) = true := by
    decide +kernel
  rcases (Option.any_eq_true _ _).mp hrun with ⟨s₀, hboot, hs₀⟩
  rcases (Option.any_eq_true _ _).mp hs₀ with ⟨s, hs, hend⟩
  rcases (Bool.and_eq_true _ _).mp hend with ⟨hworker, hclosed⟩
  have hworker : s.worker = .started ⟨0, "q"⟩ := of_decide_eq_true hworker
  have hclosed : ¬s.broker.registry.Open 0 := fun hself =>
    of_decide_eq_true hclosed (Registry.mem_openChannels.mpr hself)
  refine ⟨s₀, s, hboot, hs, hworker, hclosed, fun hdang => hclosed (hdang.1 ⟨0, "q"⟩ ?_)⟩
  rw [hworker, Worker.task]

end Sys
end HareMQ
