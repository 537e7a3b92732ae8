import HareMQ.Codec
import HareMQ.Theorems.Delivery
import HareMQ.Theorems.Publish
import HareMQ.Theorems.Registry
import HareMQ.Watch

/-! # Deliveries across the deletion of a queue

The worker takes a message and looks for a consumer by the name of the queue afterwards. Whom it finds subscribed to
the queue that has the name by then. -/

namespace HareMQ
open Lib

/-- A consumer is found exactly when there is one. -/
theorem ConsumerManager.isSome_choose (m : ConsumerManager) (qname : String) :
    (m.choose qname).1.isSome = m.subscribed qname := by
  unfold choose subscribed
  cases m.queueConsumers.lookup qname with
  | none => rfl
  | some qcp =>
    simp only [Option.any_some, QueueConsumer.rrChoose]
    cases hnil : qcp.consumers.isEmpty with
    | true => rfl
    | false =>
      have hlt : qcp.rrSeq % qcp.consumers.length < qcp.consumers.length :=
        Nat.mod_lt _ (List.length_pos_iff.mpr (List.isEmpty_eq_false_iff.mp hnil))
      simp only [Bool.false_eq_true, if_false, List.getElem?_eq_getElem hlt, Bool.not_false, Option.isSome_some]

namespace Sys
variable {pb : PayloadCodec} {s s' : Sys} {act : Act}

/-! ### Epochs -/

theorem epochs_noteDeclared (s : Sys) (qname : String) (broker : Broker) :
    (s.noteDeclared qname broker).epochs = s.epochs ∧ (s.noteDeclared qname broker).worker = s.worker := by
  unfold noteDeclared
  split
  · exact ⟨rfl, rfl⟩
  · exact ⟨rfl, rfl⟩

theorem epochs_noteDeleted (s : Sys) (qname : String) (broker : Broker) :
    (∀ q, s.epochs q ≤ (s.noteDeleted qname broker).epochs q) ∧
      (∀ q, q ≠ qname → (s.noteDeleted qname broker).epochs q = s.epochs q) ∧
      (s.noteDeleted qname broker).worker = s.worker := by
  unfold noteDeleted
  split
  · refine ⟨fun q => ?_, fun q hq => Function.update_of_ne hq _ _, rfl⟩
    show s.epochs q ≤ Function.update s.epochs qname (s.epochs qname + 1) q
    rw [Function.update_apply]
    split
    · next hq =>
      rw [hq]
      exact Nat.le_succ _
    · exact Nat.le_refl _
  · exact ⟨fun q => Nat.le_refl _, fun _ _ => rfl, rfl⟩

/-- A step outside the worker: only the deletion of a queue changes an epoch. -/
structure Apart (pb : PayloadCodec) (s s' : Sys) (act : Act) : Prop where
  worker : s'.worker = s.worker
  epochs_le : ∀ q, s.epochs q ≤ s'.epochs q
  epochs : ∀ q, s.registryOp pb act ≠ .deleteQueue q → s'.epochs q = s.epochs q

theorem Apart.of_eq (hworker : s'.worker = s.worker) (hepochs : s'.epochs = s.epochs) : Apart pb s s' act :=
  ⟨hworker, fun q => Nat.le_of_eq (congrFun hepochs q).symm, fun q _ => congrFun hepochs q⟩

theorem onChannel_apart {self : ChannelRef} {conn : ConnRef} {req : Request}
    (hself : s.broker.registry.channelAt conn req.cid = some self) (hstep : s.onChannel pb self req = some s') :
    Apart pb s s' (.request conn req) := by
  cases req with
  | declareQueue req =>
    obtain ⟨broker, -, rfl⟩ := Option.map_eq_some_iff.mp hstep
    obtain ⟨hepochs, hworker⟩ := epochs_noteDeclared s req.queueName broker
    exact .of_eq hworker hepochs
  | deleteQueue req =>
    cases hstep
    obtain ⟨hle, hother, hworker⟩ := epochs_noteDeleted s req.queueName (s.broker.deleteQueue self req)
    refine ⟨hworker, hle, fun q hq => hother q fun heq => hq ?_⟩
    have hself : s.broker.registry.channelAt conn req.cid = some self := hself
    simp only [registryOp, Request.cid, hself, channelOp, heq]
  | basicPublish req =>
    cases hstep
    unfold startPublish
    split
    · exact .of_eq rfl rfl
    · exact .of_eq rfl rfl
  | basicAck req =>
    obtain ⟨broker, -, rfl⟩ := Option.map_eq_some_iff.mp hstep
    exact .of_eq rfl rfl
  | basicQuery req =>
    obtain ⟨broker, -, rfl⟩ := Option.map_eq_some_iff.mp hstep
    exact .of_eq rfl rfl
  | _ =>
    cases hstep
    exact .of_eq rfl rfl

theorem step_apart (hstep : s.step pb act = some s') (hwork : act ≠ .work) (hrestart : act ≠ .restart) :
    Apart pb s s' act := by
  cases act with
  | connect conn =>
    simp only [step, Option.ite_none_left_eq_some, Option.some.injEq] at hstep
    obtain ⟨-, rfl⟩ := hstep
    exact .of_eq rfl rfl
  | disconnect conn =>
    simp only [step, Option.ite_none_left_eq_some, Option.some.injEq] at hstep
    obtain ⟨-, rfl⟩ := hstep
    exact .of_eq rfl rfl
  | request conn req =>
    simp only [step, Option.ite_none_left_eq_some] at hstep
    obtain ⟨-, hstep⟩ := hstep
    cases requested hstep with
    | served hconn hopen hclose hself hstep =>
      exact onChannel_apart ((Registry.channelAt_of_lookup (r := s.broker.registry) hconn _).trans hself) hstep
    | _ => exact .of_eq rfl rfl
  | publish uuid =>
    obtain ⟨p, -, rfl⟩ := Option.map_eq_some_iff.mp hstep
    unfold publishStep
    split
    · exact .of_eq rfl rfl
    · split
      · exact .of_eq rfl rfl
      · exact .of_eq rfl rfl
  | work => exact absurd rfl hwork
  | restart => exact absurd rfl hrestart

/-! ### The worker -/

/-- What one step of the worker makes of its place in `consume`. -/
inductive Advances (s : Sys) : Worker → Worker → Prop
  | idle (w : Worker) : Advances s w .idle
  | start (task : Task) : Advances s .idle (.started task)
  | fetch (task : Task) (r : Ref) (payload : Payload) :
    Advances s (.started task) (.fetched task ⟨task.qname, s.epochs task.qname, r⟩ payload)
  | choose (task : Task) (m : MsgObject) (payload : Payload) {c : Consumer}
    (hc : (s.broker.consumers.choose task.qname).1 = some c) : Advances s (.fetched task m payload) (.chosen task m payload c)
  | call (task : Task) (m : MsgObject) (payload : Payload) (c : Consumer) :
    Advances s (.chosen task m payload c) (.called task m payload c)

variable (pb) in
theorem work_advances (hstep : s.work pb = some s') : s'.epochs = s.epochs ∧ Advances s s.worker s'.worker := by
  cases worked hstep with
  | swap hworker htmp hswap =>
    refine ⟨rfl, ?_⟩
    show s.Advances s.worker s.worker
    rw [hworker]
    exact .idle _
  | start hworker htmp =>
    rw [hworker]
    exact ⟨rfl, .start _⟩
  | @consume task hworker =>
    rw [hworker]
    unfold consume
    split
    · exact ⟨rfl, .idle _⟩
    · exact ⟨rfl, .fetch task _ _⟩
  | @choose task m payload hworker =>
    rw [hworker]
    unfold choose
    split
    · exact ⟨rfl, .idle _⟩
    · next heq => exact ⟨rfl, .choose task m payload (congrArg Prod.fst heq)⟩
  | call hworker =>
    rw [hworker]
    exact ⟨rfl, .call ..⟩
  | ack hworker hauto hack =>
    rw [hworker]
    exact ⟨rfl, .idle _⟩
  | keep hworker hauto =>
    rw [hworker]
    exact ⟨rfl, .idle _⟩

/-! ### Subscriptions -/

/-- Only a subscription creates a consumer. -/
theorem registryOp_of_created {c : Consumer} (hc : s.broker.registry.Created c (s.registryOp pb act)) :
    ∃ conn req, act = .request conn (.basicConsume req) := by
  cases act with
  | request conn req =>
    cases req with
    | basicConsume req => exact ⟨conn, req, rfl⟩
    | openChannel req => cases hc
    | closeChannel req => cases hc
    | declareQueue req =>
      simp only [registryOp, channelOp] at hc
      split at hc
      · cases hc
      · split at hc
        · cases hc
        · cases hc
    | _ =>
      simp only [registryOp, channelOp] at hc
      split at hc
      · cases hc
      · cases hc
  | work =>
    simp only [registryOp] at hc
    split at hc
    · cases hc
    · cases hc
  | _ => cases hc

/-- The consumer that the operation on the registry creates is the one of the request. -/
theorem subscribes_of_created (hs : s.broker.consumers.Filed) {c : Consumer}
    (hc : s.broker.registry.Created c (s.registryOp pb act)) : s.subscribes act = some c ∧
    ∀ q, s.registryOp pb act ≠ .deleteQueue q := by
  obtain ⟨conn, req, rfl⟩ := registryOp_of_created hc
  cases hself : s.broker.registry.channelAt conn req.cid with
  | none =>
    simp only [registryOp, Request.cid, hself] at hc
    cases hc
  | some self =>
    simp only [registryOp, Request.cid, hself, channelOp] at hc ⊢
    cases hexists : s.broker.host.existsQueue req.queueName with
    | false =>
      rw [hexists, if_neg Bool.false_ne_true] at hc
      cases hc
    | true =>
      rw [hexists, if_pos rfl] at hc
      refine ⟨?_, fun q hq => by rw [if_pos rfl] at hq; cases hq⟩
      obtain ⟨htag, hqname, hack, hcallback, hmem, hfree⟩ := hc
      rw [hself, Option.some.injEq] at hcallback
      obtain ⟨-, ⟨-, htaken, -⟩ | ⟨hcreate, -⟩⟩ :=
        ConsumerManager.create_cases hs req.consumerTag req.queueName req.autoAck self
      · obtain hnot | ⟨c', hreg, htaken⟩ := htaken
        · exact absurd hmem hnot
        · exact absurd htaken (hfree c' hreg)
      · have hself' : (s.broker.conns.lookup conn).bind (·.lookup req.cid) = some self := hself
        simp only [subscribes, hself', hexists, if_true, hcreate, Option.some.injEq]
        rw [← htag, ← hqname, ← hack, hcallback]

end Sys

/-! ### Runs -/

namespace Watched
variable {pb : PayloadCodec} {w w' : Watched} {act : Act}

/-- No message was passed to a consumer that subscribed after the queue of the message had been deleted, and none is
    about to be. -/
def InTime (w : Watched) : Prop := (∀ p ∈ w.passed, p.since ≤ p.msg.epoch) ∧
  ∀ task m payload c, w.sys.worker = .chosen task m payload c → w.chosenSince ≤ m.epoch

/-- When the worker looks for a consumer, the queue of its message was not deleted since it took the message, or nobody
    is subscribed under the name. -/
def timely (w : Watched) : Act → Bool
  | .work =>
    match w.sys.worker with
    | .fetched task m _ => w.sys.epochs m.key = m.epoch || !w.sys.broker.consumers.subscribed task.qname
    | _ => true
  | _ => true

/-- The registered consumers subscribed in the present epoch of their queues. -/
structure Inv (w : Watched) : Prop where
  filed : w.sys.broker.consumers.Filed
  since : ∀ c, w.sys.broker.consumers.Registered c → w.since c.qname c.tag = w.sys.epochs c.qname
  fetched : ∀ task m payload, w.sys.worker = .fetched task m payload → m.key = task.qname ∧ m.epoch ≤ w.sys.epochs m.key
  inTime : w.InTime

/-- What is noted of a step. -/
theorem step_notes (hstep : w.step pb act = some w') : w.sys.step pb act = some w'.sys ∧ w'.since = w.sinceAfter act ∧
    match w.sys.worker, w'.sys.worker with
    | .fetched task _ _, .chosen _ _ _ c => w'.chosenSince = w.since task.qname c.tag ∧ w'.passed = w.passed
    | .chosen _ m _ c, .called .. => w'.passed = w.passed ++ [{ msg := m, consumer := c, since := w.chosenSince }]
    | _, _ => w'.chosenSince = w.chosenSince ∧ w'.passed = w.passed := by
  unfold step at hstep
  split at hstep
  · cases hstep
  · next sys hsys =>
    rw [hsys]
    dsimp only at hstep
    split at hstep
    · next hw hw' =>
      cases hstep
      rw [hw, hw']
      exact ⟨rfl, rfl, rfl, rfl⟩
    · next hw hw' =>
      cases hstep
      rw [hw, hw']
      exact ⟨rfl, rfl, rfl⟩
    · next hfetched hchosen =>
      cases hstep
      refine ⟨rfl, rfl, ?_⟩
      split
      · next hw hw' => exact absurd hw' (hfetched _ _ _ _ _ _ _ hw)
      · next hw hw' => exact absurd hw' (hchosen _ _ _ _ _ _ _ _ hw)
      · exact ⟨rfl, rfl⟩

/-- The note of a consumer that did not subscribe just now stays, or says the same again. -/
theorem sinceAfter_eq (act : Act) {qname : String} (ctag : String) (h : w.since qname ctag = w.sys.epochs qname) :
    w.sinceAfter act qname ctag = w.sys.epochs qname := by
  unfold sinceAfter
  cases w.sys.subscribes act with
  | none => exact h
  | some c =>
    dsimp only
    by_cases hq : qname = c.qname
    · rw [hq, Function.update_self]
      by_cases htag : ctag = c.tag
      · rw [htag, Function.update_self]
      · rw [Function.update_of_ne htag, ← hq, h]
    · rw [Function.update_of_ne hq, h]

theorem sinceAfter_self {c : Consumer} (h : w.sys.subscribes act = some c) :
    w.sinceAfter act c.qname c.tag = w.sys.epochs c.qname := by
  simp only [sinceAfter, h, Function.update_self]

/-- The notes follow the registered consumers. -/
theorem Inv.registered (hw : w.Inv) (hsys : w.sys.step pb act = some w'.sys) (hact : act ≠ .restart)
    (hsince : w'.since = w.sinceAfter act)
    (hepochs : ∀ q, w.sys.registryOp pb act ≠ .deleteQueue q → w'.sys.epochs q = w.sys.epochs q) :
    w'.sys.broker.consumers.Filed ∧
      ∀ c, w'.sys.broker.consumers.Registered c → w'.since c.qname c.tag = w'.sys.epochs c.qname := by
  have hfiled : w.sys.broker.registry.consumers.Filed := hw.filed
  obtain ⟨hfiled', hreg⟩ := Registry.consumers_apply hfiled (w.sys.registryOp pb act)
  rw [← Sys.registry_step hsys hact] at hfiled' hreg
  refine ⟨hfiled', fun c hc => ?_⟩
  rw [hsince]
  obtain ⟨hold, hkept⟩ | hcreated := (hreg c).mp hc
  · have hq : w'.sys.epochs c.qname = w.sys.epochs c.qname := hepochs c.qname fun hop => by
      rw [hop] at hkept
      exact hkept rfl
    rw [hq]
    exact sinceAfter_eq act c.tag (hw.since c hold)
  · obtain ⟨hsubscribes, hnot⟩ := Sys.subscribes_of_created hw.filed hcreated
    rw [sinceAfter_self hsubscribes, hepochs c.qname (hnot c.qname)]

theorem boot_inv {basedir : String} {d : Disk} {db : Db} {s : Sys} (hboot : Sys.boot pb basedir d db = some s) :
    Inv { sys := s } := by
  obtain ⟨hsound, hworker, -, -, hnone⟩ := Sys.boot_registry hboot
  refine ⟨hsound.filed, fun c hc => absurd hc (hnone c), fun task m payload hw => ?_, nofun, fun task m payload c hw => ?_⟩
  · rw [hworker] at hw
    cases hw
  · rw [hworker] at hw
    cases hw

/-- The consumer that is chosen subscribed in the present epoch of the queue. -/
theorem chosen_since (hw : w.Inv) {task : Task} {m : MsgObject} {payload : Payload} {c : Consumer}
    (hworker : w.sys.worker = .fetched task m payload)
    (hc : (w.sys.broker.consumers.choose task.qname).1 = some c) : w.since task.qname c.tag = w.sys.epochs m.key := by
  obtain ⟨-, -, hchosen⟩ := ConsumerManager.choose_cases hw.filed task.qname
  obtain ⟨hreg, hqname⟩ := hchosen c hc
  rw [(hw.fetched task m payload hworker).1, ← hqname]
  exact hw.since c hreg

theorem step_inv (hw : w.Inv) (hstep : w.step pb act = some w') (htimely : w.timely act = true) : w'.Inv := by
  obtain ⟨hsys, hsince, hnotes⟩ := step_notes hstep
  by_cases hrestart : act = .restart
  · subst hrestart
    obtain ⟨hsound, hworker, -, -, hnone⟩ := Sys.boot_registry hsys
    rw [hworker] at hnotes
    have hpassed : w'.passed = w.passed := by
      split at hnotes
      · next heq => cases heq
      · next heq => cases heq
      · exact hnotes.2
    refine ⟨hsound.filed, fun c hc => absurd hc (hnone c), fun task m payload hw' => ?_, ?_, fun task m payload c hw' => ?_⟩
    · rw [hworker] at hw'
      cases hw'
    · rw [hpassed]
      exact hw.inTime.1
    · rw [hworker] at hw'
      cases hw'
  by_cases hwork : act = .work
  · subst hwork
    obtain ⟨hepochs, hadvances⟩ := Sys.work_advances pb hsys
    obtain ⟨hfiled, hregistered⟩ := hw.registered hsys hrestart hsince fun q _ => congrFun hepochs q
    obtain ⟨hpassed, hchosen⟩ := hw.inTime
    generalize hold : w.sys.worker = old at hadvances hnotes
    generalize hnew : w'.sys.worker = new at hadvances hnotes
    cases hadvances with
    | idle old =>
      have hsame : w'.passed = w.passed := by
        split at hnotes
        · next heq => cases heq
        · next heq => cases heq
        · exact hnotes.2
      refine ⟨hfiled, hregistered, fun _ _ _ hw' => ?_, hsame.symm ▸ hpassed, fun _ _ _ _ hw' => ?_⟩
      · rw [hnew] at hw'
        cases hw'
      · rw [hnew] at hw'
        cases hw'
    | start task =>
      refine ⟨hfiled, hregistered, fun _ _ _ hw' => ?_, hnotes.2.symm ▸ hpassed, fun _ _ _ _ hw' => ?_⟩
      · rw [hnew] at hw'
        cases hw'
      · rw [hnew] at hw'
        cases hw'
    | fetch task r payload =>
      refine ⟨hfiled, hregistered, fun _ _ _ hw' => ?_, hnotes.2.symm ▸ hpassed, fun _ _ _ _ hw' => ?_⟩
      · rw [hnew] at hw'
        cases hw'
        exact ⟨rfl, Nat.le_of_eq (congrFun hepochs _).symm⟩
      · rw [hnew] at hw'
        cases hw'
    | choose task m payload hc =>
      refine ⟨hfiled, hregistered, fun _ _ _ hw' => ?_, hnotes.2.symm ▸ hpassed, fun _ _ _ _ hw' => ?_⟩
      · rw [hnew] at hw'
        cases hw'
      · rw [hnew] at hw'
        cases hw'
        rw [hnotes.1, chosen_since hw hold hc]
        have hsub : w.sys.broker.consumers.subscribed task.qname = true := by
          rw [← ConsumerManager.isSome_choose, hc, Option.isSome_some]
        simp only [timely, hold, hsub, Bool.not_true, Bool.or_false, decide_eq_true_eq] at htimely
        exact Nat.le_of_eq htimely
    | call task m payload c =>
      refine ⟨hfiled, hregistered, fun _ _ _ hw' => ?_, fun p hp => ?_, fun _ _ _ _ hw' => ?_⟩
      · rw [hnew] at hw'
        cases hw'
      · rw [hnotes, List.mem_append, List.mem_singleton] at hp
        obtain hp | rfl := hp
        · exact hpassed p hp
        · exact hchosen task m payload c hold
      · rw [hnew] at hw'
        cases hw'
  · obtain ⟨hworker, hle, hepochs⟩ := Sys.step_apart hsys hwork hrestart
    obtain ⟨hfiled, hregistered⟩ := hw.registered hsys hrestart hsince hepochs
    rw [hworker] at hnotes
    have hsame : w'.chosenSince = w.chosenSince ∧ w'.passed = w.passed := by
      split at hnotes
      · next hw₁ hw₂ =>
        rw [hw₁] at hw₂
        cases hw₂
      · next hw₁ hw₂ =>
        rw [hw₁] at hw₂
        cases hw₂
      · exact hnotes
    refine ⟨hfiled, hregistered, fun task m payload hw' => ?_, ?_, fun task m payload c hw' => ?_⟩
    · obtain ⟨hkey, hepoch⟩ := hw.fetched task m payload (hworker ▸ hw')
      exact ⟨hkey, hepoch.trans (hle _)⟩
    · rw [hsame.2]
      exact hw.inTime.1
    · rw [hsame.1]
      exact hw.inTime.2 task m payload c (hworker ▸ hw')

/-- A worker that looks too late finds a consumer of the new queue. -/
theorem not_inTime_of_step (hw : w.Inv) (hstep : w.step pb act = some w') (htimely : w.timely act = false) :
    ¬w'.InTime := by
  obtain ⟨hsys, -, hnotes⟩ := step_notes hstep
  unfold timely at htimely
  split at htimely
  · split at htimely
    · next task m payload hworker =>
      rw [Bool.or_eq_false_iff, decide_eq_false_iff_not, Bool.not_eq_false'] at htimely
      obtain ⟨hdeleted, hsub⟩ := htimely
      obtain ⟨hkey, hepoch⟩ := hw.fetched task m payload hworker
      rw [← ConsumerManager.isSome_choose, Option.isSome_iff_exists] at hsub
      obtain ⟨c, hc⟩ := hsub
      have hworker' : w'.sys.worker = .chosen task m payload c := by
        have hwork : w.sys.work pb = some w'.sys := hsys
        simp only [Sys.work, hworker, Option.some.injEq] at hwork
        obtain ⟨⟨c', consumers⟩, hchoose⟩ : ∃ x, w.sys.broker.consumers.choose task.qname = x := ⟨_, rfl⟩
        rw [hchoose] at hc
        simp only [← hwork, Sys.choose, hchoose, show c' = some c from hc]
      rw [hworker, hworker'] at hnotes
      intro hintime
      have hle := hintime.2 task m payload c hworker'
      rw [hnotes.1, chosen_since hw hworker hc] at hle
      omega
    · cases htimely
  · cases htimely

/-- A message is passed to consumers of its own queue, and not of a later one of the same name, in every state of a run
    exactly when the worker, each time it looks for a consumer, finds the queue not deleted since it took the message,
    or nobody subscribed. -/
theorem run_inTime_iff {basedir : String} {d : Disk} {db : Db} {acts : List Act} {s₀ : Sys} {w : Watched}
    (hboot : Sys.boot pb basedir d db = some s₀) (hrun : Lib.run (step pb) { sys := s₀ } acts = some w) :
    (∀ pre w₁, pre <+: acts → Lib.run (step pb) { sys := s₀ } pre = some w₁ → w₁.InTime) ↔
      Lib.always (step pb) timely { sys := s₀ } acts = true :=
  always_iff_of_exact (fun _ hw => hw.inTime) (fun _ _ _ hw hstep htimely => step_inv hw hstep htimely)
    (fun _ _ _ hw hstep htimely => not_inTime_of_step hw hstep htimely) (boot_inv hboot) hrun

/-- The queue is deleted and declared again, with a new subscription. -/
def replaced : List Act :=
  [.request 1 (.deleteQueue ⟨"8", "c", "q"⟩), .request 1 (.declareQueue ⟨"9", "c", "q", false, true, false, ∅⟩),
    .request 1 (.basicConsume ⟨"10", "c", "t", "q", true⟩)]

/-- The message is delivered before the queue is replaced. -/
def delivered : List Act :=
  Sys.bound ++ .request 1 (.basicConsume ⟨"7", "c", "s", "q", true⟩) :: Sys.pushed ++ [.work, .work] ++ replaced

theorem run_inTime_iff_delivered : ∃ (s₀ : Sys) (w : Watched), Sys.boot protobuf "data" Store.vacant {} = some s₀ ∧
    Lib.run (step protobuf) { sys := s₀ } delivered = some w ∧
    ∀ pre w₁, pre <+: delivered → Lib.run (step protobuf) { sys := s₀ } pre = some w₁ → w₁.InTime := by
  have hrun : (Sys.boot protobuf "data" Store.vacant {}).any (fun s₀ =>
      Lib.always (step protobuf) timely { sys := s₀ } delivered &&
        (Lib.run (step protobuf) { sys := s₀ } delivered).isSome) = true := by decide +kernel
  obtain ⟨s₀, hboot, hs₀⟩ := (Option.any_eq_true _ _).mp hrun
  rw [Bool.and_eq_true, Option.isSome_iff_exists] at hs₀
  obtain ⟨htimely, w, hw⟩ := hs₀
  exact ⟨s₀, w, hboot, hw, (run_inTime_iff hboot hw).mpr htimely⟩

/-- The worker holds the message while the queue is replaced. -/
def overtaken : List Act :=
  Sys.bound ++ [.request 1 (.basicPublish ⟨"7", "c", "e", "x", some ⟨"m", .durable, "a.k"⟩⟩), .publish "u", .publish "",
    .publish "", .work, .work, .work] ++ replaced ++ [.work, .work]

theorem run_not_inTime : ∃ (s₀ : Sys) (w : Watched), Sys.boot protobuf "data" Store.vacant {} = some s₀ ∧
    Lib.run (step protobuf) { sys := s₀ } overtaken = some w ∧ ⟨"q", 0, 0⟩ ∈ w.sys.accepted ∧ w.sys.epochs "q" = 1 ∧
    w.passed = [{ msg := ⟨"q", 0, 0⟩, consumer := ⟨"t", "q", true, 0⟩, since := 1 }] ∧ ¬w.InTime := by
  have hrun : (Sys.boot protobuf "data" Store.vacant {}).any (fun s₀ =>
      (Lib.run (step protobuf) { sys := s₀ } overtaken).any fun w =>
        decide (⟨"q", 0, 0⟩ ∈ w.sys.accepted) && decide (w.sys.epochs "q" = 1) &&
        decide (w.passed = [{ msg := ⟨"q", 0, 0⟩, consumer := ⟨"t", "q", true, 0⟩, since := 1 }])) = true := by
    decide +kernel
  obtain ⟨s₀, hboot, hs₀⟩ := (Option.any_eq_true _ _).mp hrun
  obtain ⟨w, hw, hpassed⟩ := (Option.any_eq_true _ _).mp hs₀
  simp only [Bool.and_eq_true, decide_eq_true_eq] at hpassed
  obtain ⟨⟨haccepted, hepoch⟩, hpassed⟩ := hpassed
  refine ⟨s₀, w, hboot, hw, haccepted, hepoch, hpassed, fun hintime => ?_⟩
  have hle := hintime.1 _ (hpassed ▸ List.mem_singleton_self _)
  exact absurd hle (by decide)

end Watched
end HareMQ
