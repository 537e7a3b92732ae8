import HareMQ.Theorems.HostActs
import HareMQ.Theorems.Lifetime

/-! # Pending messages and the tasks that deliver them

A message is delivered by the task that was pushed when it was published, and by nothing else. While no former message
comes back into a pending list, a queue has never more messages pending than tasks that have not looked for one. -/

namespace HareMQ
open Lib

/-! ### Messages that come back -/

namespace MessageManager
variable {pb : PayloadCodec} {m m' : MessageManager} {qname : String} {d d' : Disk}

/-- Queues are set up one after the other, and the file of one of them holds a message. -/
def loads (pb : PayloadCodec) (baseDir : String) : Disk → List String → Bool
  | _, [] => false
  | d, qname :: qnames =>
    match MessageMapper.new d baseDir qname with
    | none => false
    | some (mapper, d) =>
      match mapper.gc pb d with
      | (lst, d) => !lst.isEmpty || loads pb baseDir d qnames

theorem getableCount_eq_line (m : MessageManager) (qname : String) :
    m.getableCount qname = ((m.line qname).map (·.refs.length)).getD 0 := by
  rw [getableCount, count, line, Option.map_map]
  rfl

theorem getableCount_congr (h : m'.line = m.line) : m'.getableCount = m.getableCount := by
  funext qname
  rw [getableCount_eq_line, h, getableCount_eq_line]

theorem getableCount_put (m : MessageManager) (qname : String) (q : QueueMessage) (name : String) :
    (m.put qname q).getableCount name = if name = qname then q.msgs.length else m.getableCount name := by
  simp only [getableCount, count, put, UMap.lookup_insert]
  split <;> rfl

theorem getableCount_of_lookup {q : QueueMessage} (h : m.queueMsgs.lookup qname = some q) :
    m.getableCount qname = q.msgs.length := by
  rw [getableCount, count, h]
  rfl

/-- A queue that is set up from a file without messages has none pending. -/
theorem initQueueMsg_loads {qnames : List String} (hnew : qname ∉ m.queueMsgs)
    (hinit : m.initQueueMsg pb qname d = some (m', d')) (hloads : loads pb m.baseDir d (qname :: qnames) = false) :
    m'.getableCount = m.getableCount ∧ m'.baseDir = m.baseDir ∧ (∀ name, name ∈ m'.queueMsgs ↔ name = qname ∨ name ∈ m.queueMsgs) ∧
      loads pb m.baseDir d' qnames = false := by
  unfold initQueueMsg at hinit
  unfold loads at hloads
  rw [AList.lookup_eq_none.mpr hnew] at hinit
  dsimp only at hinit
  split at hinit
  · cases hinit
  · next mapper d₁ hmapper =>
    rw [hmapper] at hloads
    dsimp only at hloads
    rw [Bool.or_eq_false_iff, Bool.not_eq_false', List.isEmpty_iff] at hloads
    rcases hloads with ⟨hlst, hloads⟩
    cases hinit
    refine ⟨?_, rfl, fun name => UMap.mem_emplace, hloads⟩
    funext name
    have hput := getableCount_put m qname (({ mapper } : QueueMessage).recovery pb d₁).1 name
    rw [put, ← UMap.emplace_of_notMem hnew] at hput
    rw [hput]
    split
    · next hname =>
      rcases hgc : mapper.gc pb d₁ with ⟨lst, d₂⟩
      rw [hgc] at hlst
      rw [hname, getableCount, count, AList.lookup_eq_none.mpr hnew]
      simp only [QueueMessage.recovery, hgc, show lst = [] from hlst, List.foldl_nil, List.length_nil, Option.map_none,
        Option.getD_none]
    · rfl

theorem initAll_loads : ∀ (qnames : List String) {m m' : MessageManager} {d d' : Disk}, qnames.Nodup →
    (∀ qname ∈ qnames, qname ∉ m.queueMsgs) → VirtualHost.initAll pb m d qnames = some (m', d') →
    loads pb m.baseDir d qnames = false → m'.getableCount = m.getableCount
  | [], m, m', d, d', _, _, hinit, _ => by
    cases hinit
    rfl
  | qname :: qnames, m, m', d, d', hnodup, hnew, hinit, hloads => by
    rw [List.nodup_cons] at hnodup
    rw [List.forall_mem_cons] at hnew
    rw [VirtualHost.initAll] at hinit
    split at hinit
    · cases hinit
    · next m₁ d₁ hfirst =>
      rcases initQueueMsg_loads hnew.1 hfirst hloads with ⟨hcount, hbase, hmem, hrest⟩
      rw [← hcount]
      refine initAll_loads qnames hnodup.2 (fun name hname hin => ?_) hinit (hbase ▸ hrest)
      rcases (hmem name).mp hin with rfl | hin
      · exact hnodup.1 hname
      · exact hnew.2 name hname hin

end MessageManager

namespace VirtualHost
variable {pb : PayloadCodec} {basedir dbfile : String} {h h' : VirtualHost}

/-- A start finds messages in the data files of its queues. The constructor up to its loop. -/
def startLoads (pb : PayloadCodec) (basedir dbfile : String) (d : Disk) (db : Db) : Bool :=
  match ExchangeManager.new dbfile d db with
  | none => false
  | some (_, d, db) =>
    match MsgQueueManager.new dbfile d db with
    | none => false
    | some (mqmp, d, db) =>
      match BindingManager.new dbfile d db with
      | none => false
      | some (_, d, _) => MessageManager.loads pb basedir d mqmp.msgQueues.keys

/-- Messages come back into a pending list: from a data file, or by a compaction. -/
def revives (pb : PayloadCodec) (basedir dbfile : String) (h : VirtualHost) : HostAct → Bool
  | .op (.declareQueue qname ..) => qname ∉ h.mmp.queueMsgs && MessageManager.loads pb h.mmp.baseDir h.disk [qname]
  | .op .restart => startLoads pb basedir dbfile h.disk h.db
  | .ack qname msgId => h.requeues pb qname msgId
  | _ => false

theorem new_loads {d : Disk} {db : Db} (hnew : new pb basedir dbfile d db = some h)
    (hloads : startLoads pb basedir dbfile d db = false) (qname : String) : h.mmp.getableCount qname = 0 := by
  unfold new at hnew
  unfold startLoads at hloads
  split at hnew
  · cases hnew
  · next hemp =>
    rw [hemp] at hloads
    dsimp only at hloads
    split at hnew
    · cases hnew
    · next mqmp _ _ hmqmp =>
      rw [hmqmp] at hloads
      dsimp only at hloads
      split at hnew
      · cases hnew
      · next hbmp =>
        rw [hbmp] at hloads
        dsimp only at hloads
        split at hnew
        · cases hnew
        · next hinit =>
          cases hnew
          have hkeys : mqmp.msgQueues.keys.Nodup := mqmp.msgQueues.nodupKeys
          rw [MessageManager.initAll_loads _ hkeys (fun _ _ hin => by cases hin) hinit hloads]
          rfl

end VirtualHost

/-! ### Operations on the host -/

namespace HostAct
variable (qname : String)

/-- The messages that an operation puts into the pending list of a queue, at most. -/
def puts : HostAct → Nat
  | .publish name .. => if name = qname then 1 else 0
  | _ => 0

/-- The messages that it takes out, as far as there are any. -/
def takes : HostAct → Nat
  | .consume name => if name = qname then 1 else 0
  | _ => 0

end HostAct

namespace MessageManager
variable {pb : PayloadCodec}

theorem getableCount_insert (m : MessageManager) (qname : String) (bp : Option BasicProperties) (uuid body : String)
    (queueDurable : Bool) (d : Disk) (name : String) :
    (m.insert pb qname bp uuid body queueDurable d).2.1.getableCount name ≤
      m.getableCount name + if qname = name then 1 else 0 := by
  unfold insert
  split
  · exact Nat.le_add_right ..
  · next q hq =>
    rcases hins : q.insert pb bp uuid body queueDurable d with ⟨ok, q', d'⟩
    dsimp only
    rw [getableCount_put]
    by_cases hname : name = qname
    · subst hname
      rw [if_pos rfl, if_pos rfl, getableCount_of_lookup hq]
      rcases QueueMessage.insert_cases hins with ⟨-, rfl⟩ | ⟨-, happ⟩
      · exact Nat.le_succ _
      · rw [happ.msgs, List.length_append]
        exact Nat.le_refl _
    · rw [if_neg hname]
      exact Nat.le_add_right ..

theorem getableCount_front (m : MessageManager) (qname name : String) :
    (m.front qname).2.getableCount name = m.getableCount name - if qname = name then 1 else 0 := by
  unfold front
  split
  · next hnone =>
    split
    · next hname =>
      subst hname
      rw [getableCount, count, hnone]
      rfl
    · rfl
  · next q hq =>
    dsimp only
    rw [getableCount_put]
    by_cases hname : name = qname
    · subst hname
      rw [if_pos rfl, if_pos rfl, getableCount_of_lookup hq]
      cases hmsgs : q.msgs with
      | nil => simp only [QueueMessage.front, hmsgs, List.length_nil]
      | cons r rest => simp only [QueueMessage.front, hmsgs, List.length_cons, Nat.add_sub_cancel]
    · rw [if_neg hname, if_neg (Ne.symm hname), Nat.sub_zero]

theorem getableCount_destroyQueueMsg (m : MessageManager) (qname : String) (d : Disk) (name : String) :
    (m.destroyQueueMsg qname d).1.getableCount name ≤ m.getableCount name := by
  rw [getableCount_eq_line, getableCount_eq_line, line_destroyQueueMsg]
  by_cases hname : name = qname
  · rw [hname, Function.update_self]
    exact Nat.zero_le _
  · rw [Function.update_of_ne hname]

end MessageManager

namespace VirtualHost
variable {pb : PayloadCodec} {basedir dbfile : String} {h h' : VirtualHost}

theorem declareQueue_getable {qname : String} {qdurable qexclusive qautoDelete ok : Bool} {qargs : UMap String String}
    (hdecl : h.declareQueue pb qname qdurable qexclusive qautoDelete qargs = some (ok, h'))
    (hloads : (decide (qname ∉ h.mmp.queueMsgs) && MessageManager.loads pb h.mmp.baseDir h.disk [qname]) = false) :
    h'.mmp.getableCount = h.mmp.getableCount := by
  rcases initQueueMsg_of_declareQueue hdecl with ⟨disk, hinit⟩
  by_cases hmem : qname ∈ h.mmp.queueMsgs
  · rcases MessageManager.line_initQueueMsg hinit with ⟨-, heq⟩ | ⟨hline, -⟩
    · rw [heq]
    · exact absurd hmem (MessageManager.line_eq_none.mp hline)
  · rw [decide_eq_true hmem, Bool.true_and] at hloads
    exact (MessageManager.initQueueMsg_loads hmem hinit hloads).1

/-- Nothing but a publish adds to a pending list, when no message comes back. -/
theorem act_getable {act : HostAct} (hstep : h.act pb basedir dbfile act = some h')
    (hcalm : h.revives pb basedir dbfile act = false) (qname : String) :
    h'.mmp.getableCount qname ≤ h.mmp.getableCount qname - act.takes qname + act.puts qname := by
  have hsame : ∀ {h' : VirtualHost}, h'.mmp.getableCount = h.mmp.getableCount →
      h'.mmp.getableCount qname ≤ h.mmp.getableCount qname := fun heq => Nat.le_of_eq (congrFun heq qname)
  cases act with
  | idle => cases hstep; exact hsame rfl
  | publish name bp uuid body =>
    cases hstep
    unfold basicPublish
    split
    · exact Nat.le_add_right ..
    · next mqp _ => exact h.mmp.getableCount_insert name bp uuid body mqp.durable h.disk qname
  | consume name =>
    cases hstep
    exact Nat.le_of_eq (MessageManager.getableCount_front h.mmp name qname)
  | ack name msgId =>
    exact hsame (MessageManager.getableCount_congr ((line_basicAck hstep).1 hcalm))
  | touch name r =>
    cases hstep
    exact hsame (MessageManager.getableCount_congr (MessageManager.line_mutableProperties ..))
  | op op =>
    cases op with
    | declareExchange => cases hstep; exact hsame rfl
    | deleteExchange => cases hstep; exact hsame rfl
    | declareQueue =>
      rcases Option.map_eq_some_iff.mp hstep with ⟨⟨ok, h₁⟩, hdecl, rfl⟩
      exact hsame (declareQueue_getable hdecl hcalm)
    | deleteQueue name =>
      cases hstep
      exact MessageManager.getableCount_destroyQueueMsg h.mmp name h.disk qname
    | bind ename name key =>
      cases hstep
      refine hsame (congrArg MessageManager.getableCount ?_)
      unfold bind
      split
      · rfl
      · split <;> rfl
    | unbind => cases hstep; exact hsame rfl
    | restart =>
      rw [new_loads hstep hcalm qname]
      exact Nat.zero_le _

end VirtualHost

/-! ### The server -/

/-- The worker has started a task for the queue, which has not looked for a message yet. -/
def Worker.looks (qname : String) : Worker → Nat
  | .started task => if task.qname = qname then 1 else 0
  | _ => 0

/-- The loop of `basic_publish` has stored a message, and pushes the task for it next. -/
def Publishing.owes (qname : String) (p : Publishing) : Nat :=
  if p.stored = true ∧ p.rest.head? = some qname then 1 else 0

namespace Sys
variable {pb : PayloadCodec} {s s' : Sys} {act : Act}

/-- The tasks for a queue that have not looked for a message yet. -/
def scheduled (s : Sys) (qname : String) : Nat :=
  (s.broker.pool.taskQueue ++ s.broker.pool.tmp).countP (·.qname = qname) + s.worker.looks qname +
    (s.loop.map (Publishing.owes qname)).getD 0

/-- No queue has more messages pending than tasks that will look for them. -/
def Covered (s : Sys) : Prop := ∀ qname, s.broker.host.mmp.getableCount qname ≤ s.scheduled qname

/-- A queue with a consumer has a message pending only while a task for it waits or runs, or is about to be pushed. -/
def NotStranded (s : Sys) : Prop :=
  ∀ qname, (∀ task ∈ s.broker.pool.taskQueue ++ s.broker.pool.tmp, task.qname ≠ qname) →
    (∀ task, s.worker.task = some task → task.qname ≠ qname) →
    (∀ p, s.loop = some p → p.stored = true → p.rest.head? ≠ some qname) →
    s.broker.consumers.subscribed qname = true → pending s.broker.host s.epochs qname = []

/-- No message comes back into a pending list. -/
def calm (pb : PayloadCodec) (s : Sys) (act : Act) : Bool :=
  !s.broker.host.revives pb s.basedir s.dbfile (s.hostAct act)

theorem Covered.notStranded (hs : s.Covered) : s.NotStranded := by
  intro qname hpool hworker hloop _
  have hnone : s.scheduled qname = 0 := by
    have htasks : (s.broker.pool.taskQueue ++ s.broker.pool.tmp).countP (·.qname = qname) = 0 :=
      List.countP_eq_zero.mpr fun task htask => by simpa using hpool task htask
    have hlooks : s.worker.looks qname = 0 := by
      unfold Worker.looks
      split
      · next task heq => exact if_neg (hworker task (by rw [heq]; rfl))
      · rfl
    have howes : (s.loop.map (Publishing.owes qname)).getD 0 = 0 := by
      cases hp : s.loop with
      | none => rfl
      | some p => exact if_neg fun h => hloop p hp h.1 h.2
    rw [scheduled, htasks, hlooks, howes]
  have hcount := Nat.le_zero.mp (hnone ▸ hs qname)
  rw [MessageManager.getableCount, MessageManager.count] at hcount
  unfold pending
  cases hq : s.broker.host.mmp.queueMsgs.lookup qname with
  | none => rfl
  | some q =>
    rw [hq] at hcount
    have hmsgs : q.msgs = [] := List.length_eq_zero_iff.mp hcount
    simp only [Option.map_some, Option.getD_some, hmsgs, List.map_nil]

/-! ### Steps -/

/-- What does not touch the pool. A publish that starts owes nothing yet. -/
theorem scheduled_of_eq (hpool : s'.broker.pool = s.broker.pool) (hworker : s'.worker = s.worker)
    (hloop : s.loop = none ∨ s'.loop = s.loop) (qname : String) : s.scheduled qname ≤ s'.scheduled qname := by
  unfold scheduled
  rw [hpool, hworker]
  rcases hloop with hloop | hloop
  · rw [hloop]
    exact Nat.le_add_right ..
  · rw [hloop]

theorem onChannel_pool {self : ChannelRef} {req : Request} (hstep : s.onChannel pb self req = some s') :
    s'.broker.pool = s.broker.pool ∧ s'.worker = s.worker := by
  cases req with
  | openChannel req => cases hstep; exact ⟨rfl, rfl⟩
  | closeChannel req => cases hstep; exact ⟨rfl, rfl⟩
  | declareExchange req => cases hstep; exact ⟨rfl, rfl⟩
  | deleteExchange req => cases hstep; exact ⟨rfl, rfl⟩
  | declareQueue req =>
    rcases Option.map_eq_some_iff.mp hstep with ⟨broker, hdecl, rfl⟩
    have hpool : broker.pool = s.broker.pool := by
      unfold Broker.declareQueue at hdecl
      split at hdecl
      · cases hdecl
      · cases hdecl; rfl
      · cases hdecl; rfl
    unfold noteDeclared
    split <;> exact ⟨hpool, rfl⟩
  | deleteQueue req =>
    cases hstep
    unfold noteDeleted
    split <;> exact ⟨rfl, rfl⟩
  | bind req => cases hstep; exact ⟨rfl, rfl⟩
  | unbind req => cases hstep; exact ⟨rfl, rfl⟩
  | basicPublish req =>
    cases hstep
    unfold startPublish
    split <;> exact ⟨rfl, rfl⟩
  | basicAck req =>
    rcases onChannel_basicAck hstep with ⟨host, -, rfl⟩
    exact ⟨rfl, rfl⟩
  | basicConsume req =>
    cases hstep
    unfold Broker.basicConsume
    split <;> exact ⟨rfl, rfl⟩
  | basicCancel req => cases hstep; exact ⟨rfl, rfl⟩
  | basicQuery req =>
    rcases onChannel_basicQuery hstep with ⟨body, -, rfl⟩
    exact ⟨rfl, rfl⟩

theorem onRequest_pool {conn : ConnRef} {req : Request} (hstep : s.onRequest pb conn req = some s') :
    s'.broker.pool = s.broker.pool ∧ s'.worker = s.worker := by
  cases requested hstep with
  | unknown hconn => exact ⟨rfl, rfl⟩
  | opens hconn =>
    unfold handle Broker.openChannel
    dsimp only
    split <;> exact ⟨rfl, rfl⟩
  | closes hconn =>
    refine ⟨?_, rfl⟩
    unfold handle Broker.closeChannel
    dsimp only
    split
    · rfl
    · exact destroy_pool ..
  | unserved hconn hopen hclose hself => exact ⟨rfl, rfl⟩
  | served hconn hopen hclose hself hstep => exact onChannel_pool hstep

/-- A request neither publishes nor consumes at once. -/
theorem hostAct_request (conn : ConnRef) (req : Request) (qname : String) :
    (s.hostAct (.request conn req)).puts qname = 0 ∧ (s.hostAct (.request conn req)).takes qname = 0 := by
  unfold hostAct
  dsimp only
  split
  · exact ⟨rfl, rfl⟩
  · cases req <;> exact ⟨rfl, rfl⟩

theorem publishStep_scheduled {p : Publishing} (hp : s.loop = some p) (uuid qname : String) :
    s.scheduled qname + (s.hostAct (.publish uuid)).puts qname ≤ (s.publishStep pb p uuid).scheduled qname := by
  unfold publishStep hostAct scheduled
  simp only [hp]
  cases hrest : p.rest with
  | nil => simp [Publishing.owes, HostAct.puts, hrest, Broker.basicResponse, Broker.send]
  | cons name rest =>
    cases hstored : p.stored with
    | true =>
      simp only [if_true, HostAct.puts, Publishing.owes, hrest, hstored, ThreadPool.push, List.countP_append, List.countP_cons,
        List.countP_nil, Option.map_some, Option.getD_some, List.head?_cons, Option.some.injEq, true_and, Bool.false_eq_true,
        false_and, if_false, decide_eq_true_eq]
      omega
    | false =>
      simp [Publishing.owes, HostAct.puts, hrest, hstored]

theorem work_scheduled (hstep : s.work pb = some s') (qname : String) :
    s.scheduled qname - (s.hostAct .work).takes qname ≤ s'.scheduled qname := by
  have htakes : ∀ {task m payload c}, (s.worker = .chosen task m payload c ∨ s.worker = .called task m payload c) →
      (s.hostAct .work).takes qname = 0 := by
    rintro task m payload c (hworker | hworker) <;> simp only [hostAct, hworker] <;> split <;> rfl
  cases worked hstep with
  | swap hworker htmp hswap =>
    simp only [hostAct, hworker, HostAct.takes, Nat.sub_zero]
    unfold ThreadPool.swap at hswap
    split at hswap
    · cases hswap
    · cases hswap
      simp [scheduled, handle, htmp]
  | start hworker htmp =>
    simp only [hostAct, hworker, HostAct.takes, Nat.sub_zero]
    simp only [scheduled, htmp, hworker, Worker.looks, List.countP_append, List.countP_cons, decide_eq_true_eq]
    omega
  | @consume task hworker =>
    have hkeep : (s.consume task).broker.pool = s.broker.pool ∧ (s.consume task).loop = s.loop := by
      unfold consume
      split <;> exact ⟨rfl, rfl⟩
    simp only [hostAct, hworker, HostAct.takes, scheduled, hkeep.1, hkeep.2, Worker.looks]
    omega
  | choose hworker =>
    simp only [hostAct, hworker, HostAct.takes, choose]
    split <;> simp [scheduled, hworker, Worker.looks]
  | call hworker =>
    rw [htakes (Or.inl hworker)]
    simp [scheduled, hworker, Worker.looks, call, Broker.consumeCb, Broker.send]
  | ack hworker hauto hack =>
    rw [htakes (Or.inr hworker)]
    simp [scheduled, hworker, Worker.looks]
  | keep hworker hauto =>
    rw [htakes (Or.inr hworker)]
    simp [scheduled, hworker, Worker.looks]

/-- Each step pushes a task for every message that it puts into a pending list. -/
theorem step_scheduled (hstep : s.step pb act = some s') (hact : act ≠ .restart) (qname : String) :
    s.scheduled qname - (s.hostAct act).takes qname + (s.hostAct act).puts qname ≤ s'.scheduled qname := by
  cases act with
  | connect conn =>
    simp only [step, Option.ite_none_left_eq_some, Option.some.injEq] at hstep
    rw [← hstep.2]
    exact scheduled_of_eq rfl rfl (Or.inr rfl) qname
  | disconnect conn =>
    simp only [step, Option.ite_none_left_eq_some, Option.some.injEq] at hstep
    have hpool : (s.handle (s.broker.deleteConnection conn)).broker.pool = s.broker.pool := by
      show (s.broker.deleteConnection conn).pool = s.broker.pool
      unfold Broker.deleteConnection
      split
      · rfl
      · exact foldl_destroy_pool _ _
    rw [← hstep.2]
    exact scheduled_of_eq hpool rfl (Or.inr rfl) qname
  | request conn req =>
    simp only [step, Option.ite_none_left_eq_some, Bool.not_eq_true, Option.isSome_eq_false_iff, Option.isNone_iff_eq_none]
      at hstep
    rcases onRequest_pool hstep.2 with ⟨hpool, hworker⟩
    rcases hostAct_request (s := s) conn req qname with ⟨hputs, htakes⟩
    rw [hputs, htakes]
    exact scheduled_of_eq hpool hworker (Or.inl hstep.1) qname
  | publish uuid =>
    rcases Option.map_eq_some_iff.mp hstep with ⟨p, hp, rfl⟩
    exact Nat.le_trans (Nat.add_le_add_right (Nat.sub_le ..) _) (publishStep_scheduled hp uuid qname)
  | work =>
    have hputs : (s.hostAct .work).puts qname = 0 := by
      unfold hostAct
      dsimp only
      split
      · rfl
      · split <;> rfl
      · split <;> rfl
      · rfl
    rw [hputs]
    exact work_scheduled hstep qname
  | restart => exact absurd rfl hact

theorem step_covered (hs : s.Covered) (hstep : s.step pb act = some s') (hcalm : s.calm pb act = true) : s'.Covered := by
  intro qname
  have hgetable := VirtualHost.act_getable (host_step hstep) (Bool.not_eq_true' _ ▸ hcalm) qname
  by_cases hact : act = .restart
  · subst hact
    rw [VirtualHost.new_loads (host_boot hstep) (Bool.not_eq_true' _ ▸ hcalm) qname]
    exact Nat.zero_le _
  · have hscheduled := step_scheduled hstep hact qname
    have hbefore := Nat.sub_le_sub_right (hs qname) ((s.hostAct act).takes qname)
    exact (hgetable.trans (Nat.add_le_add_right hbefore _)).trans hscheduled

/-! ### Runs -/

/-- In a run in which no message comes back into a pending list, neither at the start nor later, none is stranded. -/
theorem run_notStranded {basedir : String} {d : Disk} {db : Db} {acts : List Act} {s₀ : Sys}
    (hboot : boot pb basedir d db = some s₀)
    (hstart : VirtualHost.startLoads pb basedir (basedir ++ "/meta.db") d db = false)
    (hcalm : always (step pb) (calm pb) s₀ acts = true) :
    ∀ pre s₁, pre <+: acts → s₀.run pb pre = some s₁ → s₁.NotStranded := by
  intro pre s₁ hpre hrun
  rw [run_eq_run] at hrun
  have hs₀ : s₀.Covered := fun qname => by
    rw [VirtualHost.new_loads (host_boot hboot) hstart qname]
    exact Nat.zero_le _
  exact (run_induct_of_always (fun _ _ _ => step_covered) hs₀ hcalm pre s₁ hpre hrun).notStranded

/-- A subscription, and a message that is delivered and acknowledged; then a start without messages. -/
def drained : List Act :=
  bound ++ .request 1 (.basicConsume ⟨"8", "c", "t", "q", true⟩) :: pushed ++ [.work, .work, .restart]

theorem run_notStranded_drained : ∃ s₀ s : Sys, boot protobuf "data" Store.vacant {} = some s₀ ∧
    s₀.run protobuf drained = some s ∧ ∀ pre s₁, pre <+: drained → s₀.run protobuf pre = some s₁ → s₁.NotStranded := by
  have hstart : VirtualHost.startLoads protobuf "data" ("data" ++ "/meta.db") Store.vacant {} = false := by
    decide +kernel
  have hrun : (boot protobuf "data" Store.vacant {}).any (fun s₀ =>
      always (step protobuf) (calm protobuf) s₀ drained && (s₀.run protobuf drained).isSome) = true := by
    decide +kernel
  rcases (Option.any_eq_true _ _).mp hrun with ⟨s₀, hboot, hs₀⟩
  rw [Bool.and_eq_true, Option.isSome_iff_exists] at hs₀
  rcases hs₀ with ⟨hcalm, s, hs⟩
  exact ⟨s₀, s, hboot, hs, run_notStranded hboot hstart hcalm⟩

/-- A durable message waits when the server is started again, and then a consumer subscribes. -/
def recovered : List Act :=
  bound ++ pushed.take 4 ++ [.restart, .connect 1, .request 1 (.openChannel ⟨"8", "c"⟩),
    .request 1 (.basicConsume ⟨"9", "c", "t", "q", true⟩)]

theorem run_stranded : ∃ s₀ s : Sys, boot protobuf "data" Store.vacant {} = some s₀ ∧
    s₀.run protobuf recovered = some s ∧ s.broker.pool.taskQueue = [] ∧ s.broker.pool.tmp = [] ∧ s.worker = .idle ∧
    s.loop.isNone = true ∧ s.broker.consumers.subscribed "q" = true ∧
    pending s.broker.host s.epochs "q" = [⟨"q", 0, 0⟩] ∧ ¬s.NotStranded := by
  have hrun : (boot protobuf "data" Store.vacant {}).any (fun s₀ => (s₀.run protobuf recovered).any fun s =>
      s.broker.pool.taskQueue.isEmpty && s.broker.pool.tmp.isEmpty && decide (s.worker = .idle) && s.loop.isNone &&
        s.broker.consumers.subscribed "q" && decide (pending s.broker.host s.epochs "q" = [⟨"q", 0, 0⟩])) = true := by
    decide +kernel
  rcases (Option.any_eq_true _ _).mp hrun with ⟨s₀, hboot, hs₀⟩
  rcases (Option.any_eq_true _ _).mp hs₀ with ⟨s, hs, hend⟩
  simp only [Bool.and_eq_true, decide_eq_true_eq, List.isEmpty_iff] at hend
  rcases hend with ⟨⟨⟨⟨⟨htasks, htmp⟩, hworker⟩, hloop⟩, hsub⟩, hpending⟩
  refine ⟨s₀, s, hboot, hs, htasks, htmp, hworker, hloop, hsub, hpending, fun hall => ?_⟩
  have hnil := hall "q" (by simp [htasks, htmp]) (by simp [hworker, Worker.task])
    (fun p hp => by simp [hp] at hloop) hsub
  rw [hpending] at hnil
  cases hnil

end Sys
end HareMQ
