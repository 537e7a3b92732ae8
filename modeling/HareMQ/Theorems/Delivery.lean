import HareMQ.Theorems.Publish

/-! # No message is dropped

The server as a depot: the lines are the pending lists of the queues, and what the worker takes out of a queue it hands
to a consumer. A task that finds no consumer drops its message, and a compaction can queue a message a second time. A
run conserves its messages exactly when neither happens. -/

namespace HareMQ
open Lib

/-! ### Pending lists as lines -/

namespace MessageManager
variable {pb : PayloadCodec} {m m' : MessageManager} {qname msgId : String} {d d' : Disk}

def line (m : MessageManager) (qname : String) : Option Line :=
  (m.queueMsgs.lookup qname).map fun q => ⟨q.msgs, q.next⟩

theorem line_of_lookup {q : QueueMessage} (h : m.queueMsgs.lookup qname = some q) :
    m.line qname = some ⟨q.msgs, q.next⟩ := by
  rw [line, h, Option.map_some]

theorem line_eq_none : m.line qname = none ↔ qname ∉ m.queueMsgs := by
  rw [line, Option.map_eq_none_iff, AList.lookup_eq_none]

theorem line_put (m : MessageManager) (qname : String) (q : QueueMessage) :
    (m.put qname q).line = Function.update m.line qname (some ⟨q.msgs, q.next⟩) := by
  funext qname'
  rw [line, put, UMap.lookup_insert]
  by_cases h : qname' = qname
  · rw [if_pos h, h, Function.update_self, Option.map_some]
  · rw [if_neg h, Function.update_of_ne h, line]

/-- An operation that leaves the pending list of the queue alone. -/
theorem line_put_eq {q q' : QueueMessage} (hq : m.queueMsgs.lookup qname = some q) (hmsgs : q'.msgs = q.msgs)
    (hnext : q'.next = q.next) : (m.put qname q').line = m.line := by
  rw [line_put, hmsgs, hnext, ← line_of_lookup hq, Function.update_eq_self]

theorem line_mutableProperties (m : MessageManager) (qname : String) (r : Ref) :
    (m.mutableProperties qname r).line = m.line := by
  unfold mutableProperties
  split
  · rfl
  · next q hq => exact line_put_eq hq rfl rfl

/-- A queue that was not known starts with what its file holds. -/
theorem line_initQueueMsg (h : m.initQueueMsg pb qname d = some (m', d')) :
    (qname ∈ m.queueMsgs ∧ m' = m) ∨ (m.line qname = none ∧
      ∃ line, m'.line = Function.update m.line qname (some line) ∧ line.refs.Nodup ∧ ∀ r ∈ line.refs, r < line.next) := by
  unfold initQueueMsg at h
  split at h
  · next hq =>
    cases h
    exact Or.inl ⟨UMap.mem_of_lookup hq, rfl⟩
  · next hnone =>
    split at h
    · cases h
    · next mapper d₁ hnew =>
      obtain ⟨qmp, d₂, hrec⟩ : ∃ qmp d₂, ({ mapper } : QueueMessage).recovery pb d₁ = (qmp, d₂) := ⟨_, _, rfl⟩
      have hnodup := QueueMessage.recovery_nodup pb mapper d₁
      have hbounded := recovery_bounded pb mapper d₁
      have hnotin := AList.lookup_eq_none.mp hnone
      rw [hrec] at h hnodup hbounded
      cases h
      refine Or.inr ⟨line_eq_none.mpr hnotin, ⟨qmp.msgs, qmp.next⟩, ?_, hnodup, hbounded⟩
      rw [UMap.emplace_of_notMem hnotin]
      exact line_put m qname qmp

theorem line_destroyQueueMsg (m : MessageManager) (qname : String) (d : Disk) :
    (m.destroyQueueMsg qname d).1.line = Function.update m.line qname none := by
  unfold destroyQueueMsg
  split
  · next hnone => rw [← line_eq_none.mpr (AList.lookup_eq_none.mp hnone), Function.update_eq_self]
  · funext qname'
    rw [line, UMap.lookup_erase]
    by_cases h : qname' = qname
    · rw [if_pos h, h, Function.update_self, Option.map_none]
    · rw [if_neg h, Function.update_of_ne h, line]

theorem line_initAll : ∀ (qnames : List String) {m m' : MessageManager} {d d' : Disk},
    VirtualHost.initAll pb m d qnames = some (m', d') → ∀ {qname line}, m'.line qname = some line →
    m.line qname = some line ∨ (qname ∈ qnames ∧ line.refs.Nodup ∧ ∀ r ∈ line.refs, r < line.next)
  | [], m, m', d, d', h, _, _, hline => by
    cases h
    exact Or.inl hline
  | qname₁ :: qnames, m, m', d, d', h, qname, line, hline => by
    rw [VirtualHost.initAll] at h
    split at h
    · cases h
    · next m₁ d₁ hinit =>
      rcases line_initAll qnames h hline with hline₁ | ⟨hmem, hrefs⟩
      · rcases line_initQueueMsg hinit with ⟨-, rfl⟩ | ⟨-, line₁, hupd, hrefs⟩
        · exact Or.inl hline₁
        · rw [hupd] at hline₁
          by_cases hname : qname = qname₁
          · subst hname
            rw [Function.update_self, Option.some.injEq] at hline₁
            subst hline₁
            exact Or.inr ⟨List.mem_cons_self, hrefs⟩
          · rw [Function.update_of_ne hname] at hline₁
            exact Or.inl hline₁
      · exact Or.inr ⟨List.mem_cons_of_mem _ hmem, hrefs⟩

/-- An acknowledgement leaves all pending lists alone, or queues a record of its queue again. -/
theorem line_ack {requeues : Bool} (h : m.ack pb qname msgId d = some (m', d'))
    (hreq : (m.queueMsgs.lookup qname).any (fun q => q.requeues pb msgId d) = requeues) :
    (requeues = false → m'.line = m.line) ∧ (requeues = true → ∃ line line', m.line qname = some line ∧
      m'.line qname = some line' ∧ ∃ r ∈ line'.refs, line.next ≤ r) := by
  unfold ack at h
  split at h
  · next hnone =>
    cases h
    rw [hnone] at hreq
    subst hreq
    exact ⟨fun _ => rfl, nofun⟩
  · next q hq =>
    split at h
    · cases h
    · next q' d₁ hrem =>
      cases h
      rw [hq, Option.any_some] at hreq
      subst hreq
      obtain ⟨-, hcalm, hrequeued⟩ := QueueMessage.remove_cases hrem
      refine ⟨fun hfalse => line_put_eq hq (hcalm hfalse).1 (hcalm hfalse).2, fun htrue => ?_⟩
      refine ⟨_, ⟨q'.msgs, q'.next⟩, line_of_lookup hq, ?_, hrequeued htrue⟩
      rw [line_put, Function.update_self]

end MessageManager

namespace VirtualHost
variable {pb : PayloadCodec} {h h' : VirtualHost} {qname msgId : String}

/-- An acknowledgement queues a message again. -/
def requeues (pb : PayloadCodec) (h : VirtualHost) (qname msgId : String) : Bool :=
  (h.mmp.queueMsgs.lookup qname).any fun q => q.requeues pb msgId h.disk

theorem line_basicAck (hack : h.basicAck pb qname msgId = some h') :
    (h.requeues pb qname msgId = false → h'.mmp.line = h.mmp.line) ∧
      (h.requeues pb qname msgId = true → ∃ line line', h.mmp.line qname = some line ∧ h'.mmp.line qname = some line' ∧
        ∃ r ∈ line'.refs, line.next ≤ r) := by
  unfold basicAck at hack
  split at hack
  · cases hack
  · next mmp disk hmmp =>
    cases hack
    exact MessageManager.line_ack hmmp rfl

theorem initQueueMsg_of_declareQueue {qdurable qexclusive qautoDelete ok : Bool} {qargs : UMap String String}
    (hdecl : h.declareQueue pb qname qdurable qexclusive qautoDelete qargs = some (ok, h')) :
    ∃ disk, h.mmp.initQueueMsg pb qname h.disk = some (h'.mmp, disk) := by
  unfold declareQueue at hdecl
  split at hdecl
  · cases hdecl
  · next mmp disk hinit =>
    cases hdecl
    exact ⟨disk, hinit⟩

/-- The storage after a start is what the loop over the queues of the tables gives. -/
theorem initAll_of_new {basedir dbfile : String} {d : Disk} {db : Db} (hnew : new pb basedir dbfile d db = some h) :
    ∃ d' disk, initAll pb { baseDir := basedir } d' h.allQueues.keys = some (h.mmp, disk) := by
  unfold new at hnew
  split at hnew
  · cases hnew
  · split at hnew
    · cases hnew
    · split at hnew
      · cases hnew
      · next d₃ _ _ =>
        split at hnew
        · cases hnew
        · next mmp disk hinit =>
          cases hnew
          exact ⟨d₃, disk, hinit⟩

end VirtualHost

/-! ### The places of a message -/

namespace Event

def acceptedMsg : Event → Option MsgObject
  | .accepted m => some m
  | .handed .. => none

def handedMsg : Event → Option MsgObject
  | .accepted _ => none
  | .handed m _ => some m

end Event

/-- The message that the worker has taken out of its queue and not handed over yet. -/
def Worker.holds : Worker → Option MsgObject
  | .fetched _ m _ => some m
  | .chosen _ m _ _ => some m
  | _ => none

/-- Some consumer is subscribed to the queue. -/
def ConsumerManager.subscribed (m : ConsumerManager) (qname : String) : Bool :=
  (m.queueConsumers.lookup qname).any fun qcp => !qcp.consumers.isEmpty

namespace Sys

def accepted (s : Sys) : List MsgObject := s.log.filterMap Event.acceptedMsg

def handed (s : Sys) : List MsgObject := s.log.filterMap Event.handedMsg

/-- Every message that was accepted into a queue that still exists is in one place once: in the pending list, held by
    the task that runs, or handed to a consumer. No other message is there. -/
def Situated (s : Sys) : Prop :=
  ∀ m : MsgObject, s.epochs m.key = m.epoch →
    (pending s.broker.host s.epochs m.key).count m + s.worker.holds.toList.count m + s.handed.count m =
      if m ∈ s.accepted then 1 else 0

/-- A task that has taken a message finds a consumer, unless the queue was deleted meanwhile, and an acknowledgement
    queues no message again. -/
def delivers (pb : PayloadCodec) (s : Sys) : Act → Bool
  | .request conn (.basicAck req) =>
    !(((s.broker.conns.lookup conn).bind (·.lookup req.cid)).isSome
      && s.broker.host.requeues pb req.queueName req.messageId)
  | .work =>
    match s.worker with
    | .fetched task m _ => s.epochs m.key != m.epoch || s.broker.consumers.subscribed task.qname
    | .called task _ payload c => !(c.autoAck && s.broker.host.requeues pb task.qname payload.id)
    | _ => true
  | _ => true

/-- Every step of a run does. -/
def delivering (pb : PayloadCodec) : Sys → List Act → Bool := always (step pb) (delivers pb)

/-! ### The server as a depot -/

def depot (s : Sys) : Depot String where
  lines := s.broker.host.mmp.line
  epochs := s.epochs
  hold := s.worker.holds
  entered := s.accepted
  left := s.handed

variable {pb : PayloadCodec} {s s' : Sys} {act : Act}

theorem waiting_depot (s : Sys) (qname : String) : s.depot.waiting qname = pending s.broker.host s.epochs qname := by
  simp only [Depot.waiting, depot, pending, MessageManager.line, Option.map_map]
  rfl

theorem situated_iff : s.Situated ↔ s.depot.Conserved := by
  simp only [Situated, Depot.Conserved, waiting_depot]
  rfl

/-- What neither touches a pending list nor moves a message. -/
theorem stay_depot (hline : s'.broker.host.mmp.line = s.broker.host.mmp.line) (hepochs : s'.epochs = s.epochs)
    (hhold : s'.worker.holds = s.worker.holds) (hlog : s'.log = s.log) : s.depot.Step s'.depot := by
  have hdepot : s'.depot = s.depot := by simp only [depot, accepted, handed, hline, hepochs, hhold, hlog]
  rw [hdepot]
  exact .stay

theorem acceptedMsg_accepted (ms : List MsgObject) : (ms.map Event.accepted).filterMap Event.acceptedMsg = ms := by
  rw [List.filterMap_map]
  exact List.filterMap_some

theorem handedMsg_accepted (ms : List MsgObject) : (ms.map Event.accepted).filterMap Event.handedMsg = [] := by
  rw [List.filterMap_map]
  exact List.filterMap_eq_nil_iff.mpr fun _ _ => rfl

/-- Messages are accepted. -/
theorem depot_accepted (s s' : Sys) (ms : List MsgObject) (hlog : s'.log = s.log ++ ms.map Event.accepted)
    (hepochs : s'.epochs = s.epochs) (hhold : s'.worker.holds = s.worker.holds) :
    s'.depot = { s.depot with lines := s'.broker.host.mmp.line, entered := s.depot.entered ++ ms } := by
  simp only [depot, accepted, handed, hlog, hepochs, hhold, List.filterMap_append, acceptedMsg_accepted,
    handedMsg_accepted, List.append_nil]

/-! ### Steps of the event loop -/

theorem noteDeclared_depot {broker : Broker} {req : DeclareQueueRequest} {self : ChannelRef}
    (hdecl : s.broker.declareQueue pb self req = some broker) :
    s.depot.Step (s.noteDeclared req.queueName broker).depot := by
  obtain ⟨disk, hinit⟩ : ∃ disk, s.broker.host.mmp.initQueueMsg pb req.queueName s.broker.host.disk =
      some (broker.host.mmp, disk) := by
    unfold Broker.declareQueue at hdecl
    split at hdecl
    · cases hdecl
    · next hhost => cases hdecl; exact VirtualHost.initQueueMsg_of_declareQueue hhost
    · next hhost => cases hdecl; exact VirtualHost.initQueueMsg_of_declareQueue hhost
  unfold noteDeclared
  rcases MessageManager.line_initQueueMsg hinit with ⟨hmem, hsame⟩ | ⟨hclosed, line, hupd, hnodup, hbounded⟩
  · rw [if_pos hmem]
    exact stay_depot (congrArg MessageManager.line hsame) rfl rfl rfl
  · rw [if_neg (MessageManager.line_eq_none.mp hclosed)]
    have hline : broker.host.mmp.line req.queueName = some line := by rw [hupd, Function.update_self]
    have hwait : pending broker.host s.epochs req.queueName =
        line.refs.map fun r => ⟨req.queueName, s.epochs req.queueName, r⟩ :=
      (waiting_depot (s.handle broker) req.queueName).symm.trans (Depot.waiting_of_lines hline)
    have hdepot := depot_accepted s { s with broker, log := s.log ++ (pending broker.host s.epochs req.queueName).map .accepted }
      (pending broker.host s.epochs req.queueName) rfl rfl rfl
    rw [hdepot, hwait, hupd]
    exact .opened (d := s.depot) hclosed hnodup hbounded

theorem noteDeleted_depot (s : Sys) (self : ChannelRef) (req : DeleteQueueRequest) :
    s.depot.Step (s.noteDeleted req.queueName (s.broker.deleteQueue self req)).depot := by
  have hline : (s.broker.deleteQueue self req).host.mmp.line = Function.update s.broker.host.mmp.line req.queueName none :=
    MessageManager.line_destroyQueueMsg s.broker.host.mmp req.queueName s.broker.host.disk
  unfold noteDeleted
  split
  · have hdepot : ({ s with
        broker := s.broker.deleteQueue self req
        epochs := Function.update s.epochs req.queueName (s.epochs req.queueName + 1) } : Sys).depot =
        { s.depot with
          lines := Function.update s.depot.lines req.queueName none
          epochs := Function.update s.depot.epochs req.queueName (s.depot.epochs req.queueName + 1) } := by
      rw [depot, hline]
      rfl
    rw [hdepot]
    exact .closed req.queueName
  · next hnotin =>
    have hnone := MessageManager.line_eq_none.mpr hnotin
    rw [← hnone, Function.update_eq_self] at hline
    exact stay_depot hline rfl rfl rfl

/-- A handler that does not use the storage. -/
theorem handle_depot {broker : Broker} (hmmp : broker.host.mmp = s.broker.host.mmp) :
    s.depot.Step (s.handle broker).depot :=
  stay_depot (congrArg MessageManager.line hmmp) rfl rfl rfl

theorem onChannel_depot {self : ChannelRef} {req : Request} (hstep : s.onChannel pb self req = some s')
    (hack : ∀ req', req = .basicAck req' → s.broker.host.requeues pb req'.queueName req'.messageId = false) :
    s.depot.Step s'.depot := by
  cases req with
  | openChannel req => cases hstep; exact .stay
  | closeChannel req => cases hstep; exact .stay
  | declareExchange req => cases hstep; exact handle_depot rfl
  | deleteExchange req => cases hstep; exact handle_depot rfl
  | declareQueue req =>
    obtain ⟨broker, hdecl, rfl⟩ := Option.map_eq_some_iff.mp hstep
    exact noteDeclared_depot hdecl
  | deleteQueue req => cases hstep; exact noteDeleted_depot s self req
  | bind req =>
    cases hstep
    refine handle_depot ?_
    show (s.broker.host.bind req.exchangeName req.queueName req.bindingKey).2.mmp = s.broker.host.mmp
    unfold VirtualHost.bind
    split
    · rfl
    · split <;> rfl
  | unbind req => cases hstep; exact handle_depot rfl
  | basicPublish req =>
    cases hstep
    unfold startPublish
    split
    · exact handle_depot rfl
    · exact .stay
  | basicAck req =>
    rcases onChannel_basicAck hstep with ⟨host, hhost, rfl⟩
    exact stay_depot ((VirtualHost.line_basicAck hhost).1 (hack req rfl)) rfl rfl rfl
  | basicConsume req =>
    cases hstep
    exact handle_depot (by rw [Broker.basicConsume_host])
  | basicCancel req => cases hstep; exact handle_depot rfl
  | basicQuery req =>
    rcases onChannel_basicQuery hstep with ⟨body, -, rfl⟩
    exact handle_depot rfl

theorem onRequest_depot {conn : ConnRef} {req : Request} (hstep : s.onRequest pb conn req = some s')
    (hdel : s.delivers pb (.request conn req) = true) : s.depot.Step s'.depot := by
  cases requested hstep with
  | unknown hconn => exact .stay
  | opens hconn => exact handle_depot (by rw [Broker.openChannel_host])
  | closes hconn => exact handle_depot (by rw [Broker.closeChannel_host])
  | unserved hconn hopen hclose hself => exact .stay
  | @served channels _ self _ hconn hopen hclose hself hstep =>
    refine onChannel_depot hstep fun req' hreq => ?_
    subst hreq
    have hself : channels.lookup req'.cid = some self := hself
    rw [delivers, hconn, Option.bind_some, hself, Option.isSome_some, Bool.true_and, Bool.not_eq_true'] at hdel
    exact hdel

end Sys

theorem VirtualHost.line_basicPublish {pb : PayloadCodec} {h h' : VirtualHost} {qname : String}
    {bp : Option BasicProperties} {uuid body : String} {ok : Bool} (hpub : h.basicPublish pb qname bp uuid body = (ok, h')) :
    (ok = false ∧ h'.mmp.line = h.mmp.line) ∨ (ok = true ∧ ∃ q, h.mmp.queueMsgs.lookup qname = some q ∧
      h'.mmp.line = Function.update h.mmp.line qname (some ⟨q.msgs ++ [q.next], q.next + 1⟩)) := by
  unfold basicPublish at hpub
  split at hpub
  · cases hpub
    exact Or.inl ⟨rfl, rfl⟩
  · next mqp _ =>
    unfold MessageManager.insert at hpub
    cases hq : h.mmp.queueMsgs.lookup qname with
    | none =>
      simp only [hq] at hpub
      cases hpub
      exact Or.inl ⟨rfl, rfl⟩
    | some q =>
      obtain ⟨ok', q', d', hins⟩ : ∃ ok q' d', q.insert pb bp uuid body mqp.durable h.disk = (ok, q', d') := ⟨_, _, _, rfl⟩
      simp only [hq, hins] at hpub
      cases hpub
      rcases QueueMessage.insert_cases hins with ⟨hok, rfl⟩ | ⟨hok, happ⟩
      · exact Or.inl ⟨hok, MessageManager.line_put_eq hq rfl rfl⟩
      · refine Or.inr ⟨hok, q, rfl, ?_⟩
        rw [MessageManager.line_put, happ.msgs, happ.next]

namespace Sys
variable {pb : PayloadCodec} {s s' : Sys} {act : Act}

theorem publishStep_depot (s : Sys) (p : Publishing) (uuid : String) : s.depot.Step (s.publishStep pb p uuid).depot := by
  unfold publishStep
  split
  · exact .stay
  · next qname rest _ =>
    split
    · exact .stay
    · obtain ⟨ok, host, hpub⟩ : ∃ ok host,
          s.broker.host.basicPublish pb qname p.req.properties uuid p.req.body = (ok, host) := ⟨_, _, rfl⟩
      simp only [hpub]
      rcases VirtualHost.line_basicPublish hpub with ⟨rfl, hline⟩ | ⟨rfl, q, hq, hline⟩
      · exact stay_depot hline rfl rfl rfl
      · simp only [hq, Option.map_some, Option.getD_some, if_true]
        have hdepot := depot_accepted s { s with
          broker := { s.broker with host }
          loop := some { p with stored := true }
          log := s.log ++ [.accepted ⟨qname, s.epochs qname, q.next⟩] } [⟨qname, s.epochs qname, q.next⟩] rfl rfl rfl
        rw [hdepot, hline]
        exact .enter (d := s.depot) (MessageManager.line_of_lookup hq)

/-! ### Steps of the worker -/

theorem take_depot {qname : String} {q : QueueMessage} {r : Ref} {refs : List Ref}
    (hq : s.broker.host.mmp.queueMsgs.lookup qname = some q) (hmsgs : q.msgs = r :: refs) (hfree : s.worker.holds = none)
    (hline : s'.broker.host.mmp.line = Function.update s.broker.host.mmp.line qname (some ⟨refs, q.next⟩))
    (hepochs : s'.epochs = s.epochs) (hhold : s'.worker.holds = some ⟨qname, s.epochs qname, r⟩) (hlog : s'.log = s.log) :
    s.depot.Step s'.depot := by
  have hdepot : s'.depot = { s.depot with
      lines := Function.update s.depot.lines qname (some ⟨refs, q.next⟩)
      hold := some ⟨qname, s.epochs qname, r⟩ } := by
    simp only [depot, accepted, handed, hline, hepochs, hhold, hlog]
  rw [hdepot]
  exact .take (d := s.depot) (MessageManager.line_of_lookup hq) hmsgs hfree

theorem consume_depot (s : Sys) (task : Task) (hfree : s.worker.holds = none) : s.depot.Step (s.consume task).depot := by
  cases hq : s.broker.host.mmp.queueMsgs.lookup task.qname with
  | none =>
    simp only [consume, VirtualHost.basicConsume, MessageManager.front, hq]
    exact stay_depot rfl rfl hfree.symm rfl
  | some q =>
    rcases q.front_cases with ⟨-, hfront⟩ | ⟨r, hr, hmsgs, hnext, -⟩
    · simp only [consume, VirtualHost.basicConsume, MessageManager.front, hq, hfront]
      exact stay_depot (MessageManager.line_put_eq hq rfl rfl) rfl hfree.symm rfl
    · obtain ⟨r', q', hfront⟩ : ∃ r' q', q.front = (r', q') := ⟨_, _, rfl⟩
      rw [hfront] at hr hmsgs hnext
      obtain rfl : r' = some r := hr
      simp only [consume, VirtualHost.basicConsume, MessageManager.front, hq, hfront]
      refine take_depot hq hmsgs hfree ?_ rfl rfl rfl
      rw [MessageManager.line_put, hnext]

/-- Without a consumer the message is dropped. -/
theorem choose_depot (s : Sys) (task : Task) (m : MsgObject) (payload : Payload) (hhold : s.worker.holds = some m) :
    (s.choose task m payload).depot =
      if s.broker.consumers.subscribed task.qname then s.depot else { s.depot with hold := none } := by
  unfold choose ConsumerManager.choose ConsumerManager.subscribed
  cases hq : s.broker.consumers.queueConsumers.lookup task.qname with
  | none => rfl
  | some qcp =>
    simp only [Option.any_some, QueueConsumer.rrChoose]
    cases hnil : qcp.consumers.isEmpty with
    | true => rfl
    | false =>
      have hlt : qcp.rrSeq % qcp.consumers.length < qcp.consumers.length :=
        Nat.mod_lt _ (List.length_pos_iff.mpr (List.isEmpty_eq_false_iff.mp hnil))
      simp only [Bool.false_eq_true, if_false, List.getElem?_eq_getElem hlt, Bool.not_false, if_true]
      simp only [depot, accepted, handed, hhold]
      rfl

theorem call_depot (s : Sys) (task : Task) (m : MsgObject) (payload : Payload) (c : Consumer)
    (hhold : s.worker.holds = some m) : s.depot.Step (s.call task m payload c).depot := by
  have hline : (s.call task m payload c).broker.host.mmp.line = s.broker.host.mmp.line := by
    simp only [call, Broker.consumeCb, Broker.send]
    split
    · exact MessageManager.line_mutableProperties ..
    · rfl
  have hdepot : (s.call task m payload c).depot = { s.depot with hold := none, left := s.depot.left ++ [m] } := by
    rw [depot, hline]
    simp only [depot, accepted, handed, call, List.filterMap_append]
    simp [Event.acceptedMsg, Event.handedMsg, Worker.holds]
  rw [hdepot]
  exact .hand hhold

theorem work_depot (hstep : s.work pb = some s') (hdel : s.delivers pb .work = true) : s.depot.Step s'.depot := by
  unfold delivers at hdel
  cases worked hstep with
  | swap hworker htmp hswap => exact handle_depot rfl
  | start hworker htmp => exact stay_depot rfl rfl (by rw [hworker]; rfl) rfl
  | @consume task hworker => exact consume_depot s task (by rw [hworker]; rfl)
  | @choose task m payload hworker =>
    have hhold : s.worker.holds = some m := by rw [hworker]; rfl
    rw [choose_depot s task m payload hhold]
    simp only [hworker, Bool.or_eq_true, bne_iff_ne] at hdel
    cases hsub : s.broker.consumers.subscribed task.qname with
    | true => exact .stay
    | false =>
      have hstale := hdel.resolve_right (by simp [hsub])
      exact .drop (d := s.depot) hhold hstale.symm
  | @call task m payload c hworker => exact call_depot s task m payload c (by rw [hworker]; rfl)
  | ack hworker hauto hack =>
    simp only [hworker, Bool.not_eq_true', Bool.and_eq_false_imp] at hdel
    exact stay_depot ((VirtualHost.line_basicAck hack).1 (hdel hauto)) rfl (by rw [hworker]; rfl) rfl
  | keep hworker hauto => exact stay_depot rfl rfl (by rw [hworker]; rfl) rfl

/-! ### Runs -/

/-- All the messages of the recovered queues are accepted at the start. -/
theorem boot_sound {basedir : String} {d : Disk} {db : Db} (hboot : boot pb basedir d db = some s) : s.depot.Sound := by
  unfold boot at hboot
  split at hboot
  · cases hboot
  · next host hnew =>
    cases hboot
    obtain ⟨d', disk, hinit⟩ := VirtualHost.initAll_of_new hnew
    have hnone : (host.allQueues.keys.flatMap fun _ => ([] : List MsgObject)) = [] := List.flatMap_eq_nil_iff.mpr fun _ _ => rfl
    simp only [depot, accepted, handed, List.filterMap_flatMap, acceptedMsg_accepted, handedMsg_accepted, hnone]
    refine Depot.Sound.start host.allQueues.nodupKeys (fun qname line hline => ?_) fun qname => ?_
    · rcases MessageManager.line_initAll _ hinit hline with hnone | h
      · cases hnone
      · exact h
    · simp only [Depot.waiting, pending, MessageManager.line, Option.map_map]
      rfl

theorem step_sound (hs : s.depot.Sound) (hstep : s.step pb act = some s') (hdel : s.delivers pb act = true) :
    s'.depot.Sound := by
  cases act with
  | connect conn =>
    simp only [step, Option.ite_none_left_eq_some, Option.some.injEq] at hstep
    rw [← hstep.2]
    exact hs.step (handle_depot rfl)
  | disconnect conn =>
    simp only [step, Option.ite_none_left_eq_some, Option.some.injEq] at hstep
    rw [← hstep.2]
    exact hs.step (handle_depot (by rw [Broker.deleteConnection_host]))
  | request conn req =>
    simp only [step, Option.ite_none_left_eq_some] at hstep
    exact hs.step (onRequest_depot hstep.2 hdel)
  | publish uuid =>
    obtain ⟨p, -, rfl⟩ := Option.map_eq_some_iff.mp hstep
    exact hs.step (publishStep_depot s p uuid)
  | work => exact hs.step (work_depot hstep hdel)
  | restart => exact boot_sound hstep

/-- An acknowledgement that queues a message again. -/
theorem not_situated_of_requeues {qname msgId : String} {host : VirtualHost} (hs : s.depot.Sound)
    (hack : s.broker.host.basicAck pb qname msgId = some host) (hreq : s.broker.host.requeues pb qname msgId = true)
    (hmmp : s'.broker.host.mmp = host.mmp) (hepochs : s'.epochs = s.epochs) (hlog : s'.log = s.log) : ¬s'.Situated := by
  obtain ⟨line, line', hline, hline', r, hr, hnext⟩ := (VirtualHost.line_basicAck hack).2 hreq
  rw [situated_iff]
  have hdepot : s'.depot.lines qname = some line' := by
    rw [← hline', ← hmmp]
    rfl
  refine Depot.not_conserved_of_stray hdepot hr ?_
  · have hstray := hs.next_notMem hline hnext
    simp only [depot, accepted, hepochs, hlog] at hstray ⊢
    exact hstray

/-- A step that does not deliver breaks the conservation. -/
theorem not_situated_of_step (hs : s.depot.Sound) (hstep : s.step pb act = some s') (hdel : s.delivers pb act = false) :
    ¬s'.Situated := by
  unfold delivers at hdel
  split at hdel
  · next conn req =>
    rw [Bool.not_eq_false', Bool.and_eq_true, Option.isSome_bind, Option.any_eq_true] at hdel
    obtain ⟨⟨channels, hconn, hself⟩, hreq⟩ := hdel
    obtain ⟨self, hself⟩ := Option.isSome_iff_exists.mp hself
    simp only [step, Option.ite_none_left_eq_some, onRequest, hconn, Request.cid, hself, onChannel] at hstep
    obtain ⟨broker, hbroker, rfl⟩ := Option.map_eq_some_iff.mp hstep.2
    unfold Broker.basicAck at hbroker
    split at hbroker
    · cases hbroker
    · next host hack =>
      cases hbroker
      exact not_situated_of_requeues hs hack hreq rfl rfl rfl
  · unfold step work at hstep
    split at hdel
    · next task m payload hworker =>
      simp only [hworker, Option.some.injEq] at hstep
      rw [Bool.or_eq_false_iff, bne_eq_false_iff_eq] at hdel
      have hhold : s.worker.holds = some m := by rw [hworker]; rfl
      rw [← hstep, situated_iff, choose_depot s task m payload hhold, hdel.2, if_neg Bool.false_ne_true]
      exact hs.not_conserved_of_dropped hhold hdel.1.symm
    · next task m payload c hworker =>
      rw [Bool.not_eq_false', Bool.and_eq_true] at hdel
      simp only [hworker, autoAck, hdel.1, if_true] at hstep
      obtain ⟨host, hack, rfl⟩ := Option.map_eq_some_iff.mp hstep
      exact not_situated_of_requeues hs hack hdel.2 rfl rfl rfl
    · cases hdel
  · cases hdel

/-- A run conserves its messages in every state exactly when every step delivers. -/
theorem run_situated_iff {basedir : String} {d : Disk} {db : Db} {acts : List Act} {s₀ : Sys}
    (hboot : boot pb basedir d db = some s₀) (hrun : s₀.run pb acts = some s) :
    (∀ pre s₁, pre <+: acts → s₀.run pb pre = some s₁ → s₁.Situated) ↔ s₀.delivering pb acts = true := by
  simp only [run_eq_run] at hrun ⊢
  exact always_iff_of_exact (fun _ hs => situated_iff.mpr hs.conserved) (fun _ _ _ => step_sound)
    (fun _ _ _ => not_situated_of_step) (boot_sound hboot) hrun

/-- A publish request for one of the queues of `bound`, and the steps of the worker up to the choice of a consumer. -/
def pushed : List Act :=
  [.request 1 (.basicPublish ⟨"7", "c", "e", "x", some ⟨"m", .durable, "a.k"⟩⟩), .publish "u", .publish "", .publish "",
    .work, .work, .work, .work]

/-- With a subscriber the message is handed over, and acknowledged. -/
theorem run_situated_iff_subscribed : ∃ s₀ s : Sys, boot protobuf "data" Store.vacant {} = some s₀ ∧
    s₀.run protobuf (bound ++ .request 1 (.basicConsume ⟨"8", "c", "t", "q", true⟩) :: pushed ++ [.work, .work]) = some s ∧
    s.handed = [⟨"q", 0, 0⟩] ∧ ∀ pre s₁,
      pre <+: bound ++ .request 1 (.basicConsume ⟨"8", "c", "t", "q", true⟩) :: pushed ++ [.work, .work] →
      s₀.run protobuf pre = some s₁ → s₁.Situated := by
  have hrun : (boot protobuf "data" Store.vacant {}).any (fun s₀ =>
      s₀.delivering protobuf (bound ++ .request 1 (.basicConsume ⟨"8", "c", "t", "q", true⟩) :: pushed ++ [.work, .work]) &&
      (s₀.run protobuf (bound ++ .request 1 (.basicConsume ⟨"8", "c", "t", "q", true⟩) :: pushed ++ [.work, .work])).any
        fun s => s.handed = [⟨"q", 0, 0⟩]) = true := by
    decide +kernel
  obtain ⟨s₀, hboot, hs₀⟩ := (Option.any_eq_true _ _).mp hrun
  rw [Bool.and_eq_true] at hs₀
  obtain ⟨hdel, hs₀⟩ := hs₀
  obtain ⟨s, hs, hhanded⟩ := (Option.any_eq_true _ _).mp hs₀
  exact ⟨s₀, s, hboot, hs, of_decide_eq_true hhanded, (run_situated_iff hboot hs).mpr hdel⟩

/-- Without one it is in no place any more. -/
theorem run_unsituated : ∃ s₀ s : Sys, boot protobuf "data" Store.vacant {} = some s₀ ∧
    s₀.run protobuf (bound ++ pushed) = some s ∧ ⟨"q", 0, 0⟩ ∈ s.accepted ∧
    pending s.broker.host s.epochs "q" = [] ∧ s.worker = .idle ∧ s.handed = [] ∧ ¬s.Situated := by
  have hrun : (boot protobuf "data" Store.vacant {}).any (fun s₀ => (s₀.run protobuf (bound ++ pushed)).any fun s =>
      decide (⟨"q", 0, 0⟩ ∈ s.accepted) && decide (s.epochs "q" = 0) && (pending s.broker.host s.epochs "q").isEmpty &&
      decide (s.worker = .idle) && s.handed.isEmpty) = true := by
    decide +kernel
  obtain ⟨s₀, hboot, hs₀⟩ := (Option.any_eq_true _ _).mp hrun
  obtain ⟨s, hs, hlost⟩ := (Option.any_eq_true _ _).mp hs₀
  simp only [Bool.and_eq_true, decide_eq_true_eq, List.isEmpty_iff] at hlost
  obtain ⟨⟨⟨⟨haccepted, hepoch⟩, hpending⟩, hidle⟩, hhanded⟩ := hlost
  refine ⟨s₀, s, hboot, hs, haccepted, hpending, hidle, hhanded, fun hsit => ?_⟩
  have hcount := hsit ⟨"q", 0, 0⟩ hepoch
  rw [if_pos haccepted, hidle, hhanded, hpending] at hcount
  cases hcount

end Sys
end HareMQ
