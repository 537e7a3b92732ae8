import HareMQ.Flow
import HareMQ.Lib.Conveyor
import HareMQ.Theorems.Answers
import HareMQ.Theorems.Backlog
import HareMQ.Theorems.Incarnations

/-! # In at one end, out at the other

The server as a conveyor of contents. A content is passed on at most once for each time it was accepted, in the order in
which its queue accepted it, and to a channel that has subscribed to the queue. -/

namespace HareMQ
open Lib Conveyor

/-! ### Contents of the pending messages -/

theorem Payload.content_mutableProperties (m : Message) : m.mutableProperties.payload.content = m.payload.content := rfl

namespace QueueMessage
variable {pb : PayloadCodec} {q q' : QueueMessage} {d d' : Disk} {msgId : String}

def content (q : QueueMessage) (r : Ref) : Content := (q.heap r).payload.content

def contents (q : QueueMessage) : List Content := q.msgs.map q.content

theorem content_stored (msg : Message) : (stored msg).payload.content = msg.payload.content := by
  unfold stored
  split <;> rfl

theorem Appended.contents {msg : Message} (h : Appended q q' msg) (hq : q.Bounded) :
    q'.contents = q.contents ++ [msg.payload.content] := by
  have hnew : q'.content q.next = msg.payload.content := by rw [content, h.payload, content_stored]
  rw [QueueMessage.contents, h.msgs, List.map_append, List.map_singleton, hnew, QueueMessage.contents]
  congr 1
  exact List.map_congr_left fun r hr => by rw [content, h.old r (Nat.ne_of_lt (hq r hr)), content]

variable (pb) in
theorem content_invalidate (q : QueueMessage) (msgId : String) (r r' : Ref) (d : Disk) :
    (q.invalidate pb msgId r d).1.content r' = q.content r' := by
  have hpayload := mapper_remove_payload pb q.mapper (q.heap r) d
  obtain ⟨ok, msg, d', hremove⟩ : ∃ ok msg d', q.mapper.remove pb (q.heap r) d = (ok, msg, d') := ⟨_, _, _, rfl⟩
  rw [hremove] at hpayload
  simp only [invalidate, hremove, content]
  by_cases hr : r' = r
  · rw [hr, Function.update_self, hpayload]
    rfl
  · rw [Function.update_of_ne hr]

/-- An acknowledgement adds to the pending list at its end, if at all. -/
theorem contents_remove (hq : q.Bounded) (h : q.remove pb msgId d = some (q', d')) : ∃ new, q'.contents = q.contents ++ new := by
  cases hwait : q.waitAckMsgs.lookup msgId with
  | none =>
    simp only [remove, hwait, Option.some.injEq] at h
    cases h
    exact ⟨[], (List.append_nil _).symm⟩
  | some r₀ =>
    cases hmode : (q.heap r₀).isDurable with
    | false =>
      simp only [remove, hwait, hmode, Bool.false_eq_true, if_false, Option.some.injEq] at h
      cases h
      exact ⟨[], (List.append_nil _).symm⟩
    | true =>
      rw [remove_durable_eq pb d hwait hmode, Option.map_eq_some_iff] at h
      rcases h with ⟨⟨q₂, d₂⟩, hgc, heq⟩
      cases heq
      have hinv := invalidate_spec pb q msgId r₀ d
      have hcontent := fun r => content_invalidate pb q msgId r₀ r d
      generalize q.invalidate pb msgId r₀ d = inv at hgc hinv hcontent
      rcases inv with ⟨q₁, d₁⟩
      dsimp only at hgc hinv hcontent
      rcases gc_cases hgc with ⟨-, rfl⟩ | ⟨-, hrequeued, -, -⟩
      · refine ⟨[], ?_⟩
        rw [List.append_nil]
        exact (congrArg (List.map _) hinv.msgs).trans (List.map_congr_left fun r _ => hcontent r)
      · rcases hrequeued.msgs with ⟨new, hmsgs, -, -⟩
        refine ⟨new.map q₂.content, ?_⟩
        have hold : ∀ r ∈ q.msgs, q₂.content r = q.content r := by
          intro r hr
          have hlt : r < q₁.next := hinv.next ▸ hq r hr
          exact (congrArg Payload.content (hrequeued.payload r hlt)).trans (hcontent r)
        have hnew : q₂.contents = q.contents ++ new.map q₂.content := by
          rw [contents, hmsgs, hinv.msgs, List.map_append, List.map_congr_left hold, contents]
        exact hnew

end QueueMessage

namespace MessageManager
variable {pb : PayloadCodec} {m m' : MessageManager} {qname msgId : String} {d d' : Disk}

theorem contents_of_lookup {q : QueueMessage} (h : m.queueMsgs.lookup qname = some q) : m.contents qname = q.contents := by
  rw [contents, h]
  rfl

theorem contents_of_notMem (h : qname ∉ m.queueMsgs) : m.contents qname = [] := by
  rw [contents, AList.lookup_eq_none.mpr h]
  rfl

theorem contents_put (m : MessageManager) (qname : String) (q : QueueMessage) :
    (m.put qname q).contents = Function.update m.contents qname q.contents := by
  funext qname'
  rw [contents, put, UMap.lookup_insert]
  by_cases h : qname' = qname
  · rw [if_pos h, h, Function.update_self]
    rfl
  · rw [if_neg h, Function.update_of_ne h, contents]

theorem contents_put_eq {q q' : QueueMessage} (hq : m.queueMsgs.lookup qname = some q) (hcontents : q'.contents = q.contents) :
    (m.put qname q').contents = m.contents := by
  rw [contents_put, hcontents, ← contents_of_lookup hq, Function.update_eq_self]

theorem contents_mutableProperties (m : MessageManager) (qname : String) (r : Ref) :
    (m.mutableProperties qname r).contents = m.contents := by
  unfold mutableProperties
  split
  · rfl
  · next q hq =>
    refine contents_put_eq hq (List.map_congr_left fun r' _ => ?_)
    simp only [QueueMessage.content]
    by_cases hr : r' = r
    · rw [hr, Function.update_self, Payload.content_mutableProperties]
    · rw [Function.update_of_ne hr]

theorem contents_front (m : MessageManager) (qname : String) :
    (m.front qname = (none, (m.front qname).2) ∧ (m.front qname).2.contents = m.contents) ∨
      ∃ q r rest, m.queueMsgs.lookup qname = some q ∧ m.front qname = (some r, (m.front qname).2) ∧
        m.contents qname = q.content r :: rest ∧ (m.front qname).2.contents = Function.update m.contents qname rest := by
  unfold front
  split
  · exact Or.inl ⟨rfl, rfl⟩
  · next q hq =>
    rcases q.front_cases with ⟨-, hfront⟩ | ⟨r, hr, hmsgs, -, hheap⟩
    · rw [hfront]
      exact Or.inl ⟨rfl, contents_put_eq hq rfl⟩
    · obtain ⟨r', q', hfront⟩ : ∃ r' q', q.front = (r', q') := ⟨_, _, rfl⟩
      rw [hfront] at hr hmsgs hheap
      dsimp only at hr hmsgs hheap
      subst hr
      simp only [hfront]
      have hcontents : q.contents = q.content r :: q'.contents := by
        rw [QueueMessage.contents, hmsgs, List.map_cons, QueueMessage.contents]
        have hcontent : q'.content = q.content := by
          funext r'
          rw [QueueMessage.content, hheap, QueueMessage.content]
        rw [hcontent]
      exact Or.inr ⟨q, r, q'.contents, hq, rfl, (contents_of_lookup hq).trans hcontents, contents_put m qname q'⟩

/-- New contents stand at the end of the pending list, and the other lists are the same. -/
def Grown (m m' : MessageManager) (qname : String) : Prop :=
  ∃ new, m'.contents = Function.update m.contents qname (m.contents qname ++ new)

theorem Grown.refl (m : MessageManager) (qname : String) : Grown m m qname :=
  ⟨[], by rw [List.append_nil, Function.update_eq_self]⟩

theorem contents_ack (hm : m.Bounded) (hack : m.ack pb qname msgId d = some (m', d')) : Grown m m' qname := by
  unfold ack at hack
  split at hack
  · cases hack
    exact .refl m qname
  · next q hq =>
    split at hack
    · cases hack
    · next q' d₁ hrem =>
      cases hack
      rcases QueueMessage.contents_remove (hm hq) hrem with ⟨new, hnew⟩
      exact ⟨new, by rw [contents_put, hnew, contents_of_lookup hq]⟩

theorem contents_initQueueMsg (h : m.initQueueMsg pb qname d = some (m', d')) : Grown m m' qname := by
  unfold initQueueMsg at h
  split at h
  · cases h
    exact .refl m qname
  · next hnone =>
    split at h
    · cases h
    · next mapper d₁ hnew =>
      cases h
      have hnotin := AList.lookup_eq_none.mp hnone
      refine ⟨(({ mapper } : QueueMessage).recovery pb d₁).1.contents, ?_⟩
      rw [UMap.emplace_of_notMem hnotin, contents_of_notMem hnotin, List.nil_append]
      exact contents_put m qname _

theorem contents_insert (hm : m.Bounded) {bp : Option BasicProperties} {uuid body : String} {queueDurable ok : Bool}
    (h : m.insert pb qname bp uuid body queueDurable d = (ok, m', d')) :
    (ok = false ∧ m'.contents = m.contents) ∨ (ok = true ∧ m'.contents = Function.update m.contents qname
      (m.contents qname ++ [(QueueMessage.makeMessage bp uuid body queueDurable).payload.content])) := by
  unfold insert at h
  split at h
  · cases h
    exact Or.inl ⟨rfl, rfl⟩
  · next q hq =>
    obtain ⟨ok, q', d', hins⟩ : ∃ ok q' d', q.insert pb bp uuid body queueDurable d = (ok, q', d') := ⟨_, _, _, rfl⟩
    rw [hins] at h
    cases h
    rcases QueueMessage.insert_cases hins with ⟨rfl, rfl⟩ | ⟨rfl, happ⟩
    · exact Or.inl ⟨rfl, contents_put_eq hq rfl⟩
    · exact Or.inr ⟨rfl, by rw [contents_put, happ.contents (hm hq), contents_of_lookup hq]⟩

theorem contents_destroyQueueMsg (m : MessageManager) (qname : String) (d : Disk) :
    (m.destroyQueueMsg qname d).1.contents = Function.update m.contents qname [] := by
  unfold destroyQueueMsg
  split
  · next hnone => rw [← contents_of_notMem (AList.lookup_eq_none.mp hnone), Function.update_eq_self]
  · funext qname'
    rw [contents, UMap.lookup_erase]
    by_cases h : qname' = qname
    · rw [if_pos h, h, Function.update_self]
      rfl
    · rw [if_neg h, Function.update_of_ne h, contents]

end MessageManager

/-! ### The server as a conveyor -/

/-- What the worker has taken out of a queue and not passed on. -/
def Worker.carries : Worker → Option (String × Content)
  | .fetched task _ payload => some (task.qname, payload.content)
  | .chosen task _ payload _ => some (task.qname, payload.content)
  | _ => none

namespace Sys
variable {pb : PayloadCodec} {s s' : Sys} {act : Act}

def conveyor (s : Sys) (passed : List Delivery) : Conveyor String Content where
  waiting := s.broker.host.mmp.contents
  hold := s.worker.carries
  left := passed.map Delivery.item

/-- The queue whose contents a step may lose: it is deleted, or a task has taken one and finds no consumer. -/
def loses (s : Sys) : Act → Option String
  | .request conn (.deleteQueue req) =>
    match s.broker.registry.channelAt conn req.cid with
    | none => none
    | some _ => some req.queueName
  | .work =>
    match s.worker with
    | .fetched task _ _ => if s.broker.consumers.subscribed task.qname then none else some task.qname
    | _ => none
  | _ => none

variable {passed : List Delivery}

theorem stay_conveyor (hcontents : s'.broker.host.mmp.contents = s.broker.host.mmp.contents)
    (hcarries : s'.worker.carries = s.worker.carries) (passed : List Delivery) :
    (s.conveyor passed).Step [] none (s'.conveyor passed) := by
  have heq : s'.conveyor passed = s.conveyor passed := by rw [conveyor, hcontents, hcarries, conveyor]
  rw [heq]
  exact .stay

theorem enter_conveyor {qname : String} {new : List Content}
    (hcontents : s'.broker.host.mmp.contents =
      Function.update s.broker.host.mmp.contents qname (s.broker.host.mmp.contents qname ++ new))
    (hcarries : s'.worker.carries = s.worker.carries) (passed : List Delivery) :
    (s.conveyor passed).Step (new.map (qname, ·)) none (s'.conveyor passed) := by
  have heq : s'.conveyor passed = { s.conveyor passed with
      waiting := Function.update (s.conveyor passed).waiting qname ((s.conveyor passed).waiting qname ++ new) } := by
    simp only [conveyor, hcontents, hcarries]
  rw [heq]
  exact .enter qname new

/-- What is read from a file enters. -/
theorem loads_conveyor {qname : String} (hgrown : s.broker.host.mmp.Grown s'.broker.host.mmp qname)
    (hcarries : s'.worker.carries = s.worker.carries) (passed : List Delivery) :
    (s.conveyor passed).Step (s.loads s' qname) none (s'.conveyor passed) := by
  rcases hgrown with ⟨new, hnew⟩
  have hloads : s.loads s' qname = new.map (qname, ·) := by
    rw [loads, hnew, Function.update_self, List.drop_left]
  rw [hloads]
  exact enter_conveyor hnew hcarries passed

theorem loads_eq_nil {qname : String} (hcontents : s'.broker.host.mmp.contents = s.broker.host.mmp.contents) :
    s.loads s' qname = [] := by
  rw [loads, hcontents, List.drop_length, List.map_nil]

theorem request_conveyor (hb : s.broker.host.mmp.Bounded) {conn : ConnRef} {req : Request}
    (hstep : s.onRequest pb conn req = some s') (passed : List Delivery) :
    (s.conveyor passed).Step (s.enters pb s' (.request conn req)) (s.loses (.request conn req)) (s'.conveyor passed) := by
  have hact := host_onRequest hstep
  have hcarries : s'.worker.carries = s.worker.carries := congrArg Worker.carries (onRequest_pool hstep).2
  unfold hostAct at hact
  dsimp only at hact
  cases hself : s.broker.registry.channelAt conn req.cid with
  | none =>
    rw [hself] at hact
    have hcontents : s'.broker.host.mmp.contents = s.broker.host.mmp.contents := by
      rw [← Option.some.inj hact]
    have henters : s.enters pb s' (.request conn req) = [] := by
      cases req with
      | declareQueue req => exact loads_eq_nil hcontents
      | basicAck req => exact loads_eq_nil hcontents
      | _ => rfl
    have hloses : s.loses (.request conn req) = none := by
      cases req with
      | deleteQueue req =>
        have hself : s.broker.registry.channelAt conn req.cid = none := hself
        simp only [loses, hself]
      | _ => rfl
    rw [henters, hloses]
    exact stay_conveyor hcontents hcarries passed
  | some self =>
    rw [hself] at hact
    cases req with
    | declareQueue req =>
      rcases Option.map_eq_some_iff.mp hact with ⟨⟨ok, host⟩, hdecl, hhost⟩
      rcases VirtualHost.initQueueMsg_of_declareQueue hdecl with ⟨disk, hinit⟩
      refine loads_conveyor ?_ hcarries passed
      rw [← hhost]
      exact MessageManager.contents_initQueueMsg hinit
    | deleteQueue req =>
      have hself : s.broker.registry.channelAt conn req.cid = some self := hself
      have hhost : s.broker.host.deleteQueue req.queueName = s'.broker.host := Option.some.inj hact
      have heq : s'.conveyor passed = { s.conveyor passed with
          waiting := Function.update (s.conveyor passed).waiting req.queueName [] } := by
        have hmmp := MessageManager.contents_destroyQueueMsg s.broker.host.mmp req.queueName s.broker.host.disk
        simp only [conveyor, ← hhost, hcarries]
        exact congrArg (Conveyor.mk · _ _) hmmp
      simp only [loses, hself, heq]
      exact .clear req.queueName
    | basicAck req =>
      refine loads_conveyor ?_ hcarries passed
      have hack : s.broker.host.basicAck pb req.queueName req.messageId = some s'.broker.host := hact
      unfold VirtualHost.basicAck at hack
      split at hack
      · cases hack
      · next mmp disk hmmp =>
        have hhost := Option.some.inj hack
        rw [← hhost]
        exact MessageManager.contents_ack hb hmmp
    | bind req =>
      refine stay_conveyor ?_ hcarries passed
      have hhost : (s.broker.host.bind req.exchangeName req.queueName req.bindingKey).2 = s'.broker.host := Option.some.inj hact
      rw [← hhost]
      unfold VirtualHost.bind
      split
      · rfl
      · split <;> rfl
    | _ =>
      have hcontents := congrArg (fun h : VirtualHost => h.mmp.contents) (Option.some.inj hact)
      exact stay_conveyor hcontents.symm hcarries passed

theorem publish_conveyor (hb : s.broker.host.mmp.Bounded) {p : Publishing} (hp : s.loop = some p) (uuid : String)
    (passed : List Delivery) : (s.conveyor passed).Step (s.enters pb (s.publishStep pb p uuid) (.publish uuid)) none
      ((s.publishStep pb p uuid).conveyor passed) := by
  unfold publishStep
  cases hrest : p.rest with
  | nil =>
    simp only [enters, hp, hrest]
    exact stay_conveyor rfl rfl passed
  | cons qname rest =>
    cases hstored : p.stored with
    | true =>
      simp only [enters, hp, hrest, hstored, if_true]
      exact stay_conveyor rfl rfl passed
    | false =>
      simp only [enters, hp, hrest, hstored, Bool.false_eq_true, if_false]
      cases hmqp : s.broker.host.mqmp.selectQueue qname with
      | none =>
        simp only [VirtualHost.basicPublish, hmqp]
        exact stay_conveyor rfl rfl passed
      | some mqp =>
        obtain ⟨ok, mmp, disk, hins⟩ : ∃ ok mmp disk, s.broker.host.mmp.insert pb qname p.req.properties uuid p.req.body
          mqp.durable s.broker.host.disk = (ok, mmp, disk) := ⟨_, _, _, rfl⟩
        simp only [VirtualHost.basicPublish, hmqp, hins]
        rcases MessageManager.contents_insert hb hins with ⟨rfl, hcontents⟩ | ⟨rfl, hcontents⟩
        · rw [if_neg Bool.false_ne_true]
          refine stay_conveyor ?_ ?_ passed
          · exact hcontents
          · exact rfl
        · rw [if_pos rfl, ← List.map_singleton (f := (qname, ·))]
          refine enter_conveyor ?_ ?_ passed
          · exact hcontents
          · rfl

theorem consume_conveyor {task : Task} (hfree : s.worker.carries = none) (passed : List Delivery) :
    (s.conveyor passed).Step [] none ((s.consume task).conveyor passed) := by
  unfold consume VirtualHost.basicConsume
  rcases s.broker.host.mmp.contents_front task.qname with ⟨hfront, hcontents⟩ | ⟨q, r, rest, hq, hfront, hwaiting, hcontents⟩
  · rw [hfront]
    refine stay_conveyor ?_ ?_ passed
    · exact hcontents
    · exact hfree.symm
  · rw [hfront]
    have hpayload : ((s.broker.host.mmp.queueMsgs.lookup task.qname).map fun q => (q.heap r).payload).getD {} =
        (q.heap r).payload := by rw [hq, Option.map_some, Option.getD_some]
    simp only [hpayload]
    refine Eq.mp ?_ (Step.take (c := s.conveyor passed) hwaiting hfree)
    exact congrArg (Step (s.conveyor passed) [] none) (congrArg (Conveyor.mk · _ _) hcontents.symm)

theorem choose_conveyor {task : Task} {m : MsgObject} {payload : Payload}
    (hworker : s.worker = .fetched task m payload) (passed : List Delivery) :
    (s.conveyor passed).Step [] (s.loses .work) ((s.choose task m payload).conveyor passed) := by
  have hsome := s.broker.consumers.isSome_choose task.qname
  have hhold : (s.conveyor passed).hold = some (task.qname, payload.content) := congrArg Worker.carries hworker
  obtain ⟨c, consumers, hchoose⟩ : ∃ c consumers, s.broker.consumers.choose task.qname = (c, consumers) := ⟨_, _, rfl⟩
  rw [hchoose] at hsome
  simp only [loses, hworker, ← hsome, choose, hchoose]
  cases c with
  | none => exact .drop hhold
  | some c =>
    refine stay_conveyor ?_ ?_ passed
    · rfl
    · exact hhold.symm

theorem call_conveyor {task : Task} {m : MsgObject} {payload : Payload} {c : Consumer}
    (hworker : s.worker = .chosen task m payload c) (hqname : c.qname = task.qname) (passed : List Delivery) :
    (s.conveyor passed).Step [] none ((s.call task m payload c).conveyor (passed ++ s.passes .work)) := by
  have hhold : (s.conveyor passed).hold = some (task.qname, payload.content) := congrArg Worker.carries hworker
  have hcontents : (s.call task m payload c).broker.host.mmp.contents = s.broker.host.mmp.contents := by
    simp only [call, Broker.consumeCb, Broker.send]
    split
    · exact MessageManager.contents_mutableProperties ..
    · rfl
  have heq : (s.call task m payload c).conveyor (passed ++ s.passes .work) =
      { s.conveyor passed with hold := none, left := (s.conveyor passed).left ++ [(task.qname, payload.content)] } := by
    simp only [conveyor, passes, hworker, List.map_append, List.map_singleton, Delivery.item, hqname]
    exact congrArg (Conveyor.mk · _ _) hcontents
  rw [heq]
  exact .hand hhold

theorem work_conveyor (hb : s.broker.host.mmp.Bounded)
    (hchosen : ∀ task m payload c, s.worker = .chosen task m payload c → c.qname = task.qname)
    (hstep : s.work pb = some s') (passed : List Delivery) :
    (s.conveyor passed).Step (s.enters pb s' .work) (s.loses .work) (s'.conveyor (passed ++ s.passes .work)) := by
  cases worked hstep with
  | swap hworker htmp hswap =>
    simp only [enters, loses, passes, hworker, List.append_nil]
    exact stay_conveyor rfl rfl passed
  | start hworker htmp =>
    simp only [enters, loses, passes, hworker, List.append_nil]
    refine stay_conveyor ?_ ?_ passed
    · rfl
    · exact (congrArg Worker.carries hworker).symm
  | consume hworker =>
    simp only [enters, loses, passes, hworker, List.append_nil]
    exact consume_conveyor (congrArg Worker.carries hworker) passed
  | choose hworker =>
    have h := choose_conveyor hworker passed
    simp only [enters, passes, hworker, List.append_nil]
    exact h
  | call hworker =>
    have h := call_conveyor hworker (hchosen _ _ _ _ hworker) passed
    simp only [enters, loses, hworker]
    exact h
  | @ack task m payload c host hworker hauto hack =>
    simp only [enters, loses, passes, hworker, List.append_nil]
    refine loads_conveyor ?_ (congrArg Worker.carries hworker).symm passed
    unfold VirtualHost.basicAck at hack
    split at hack
    · cases hack
    · next mmp disk hmmp =>
      cases hack
      exact MessageManager.contents_ack hb hmmp
  | @keep task m payload c hworker hauto =>
    have hsame : s.loads { s with worker := .idle } task.qname = [] := loads_eq_nil rfl
    simp only [enters, loses, passes, hworker, List.append_nil, hsame]
    refine stay_conveyor ?_ ?_ passed
    · rfl
    · exact (congrArg Worker.carries hworker).symm

/-! ### What is sent -/

/-- The responses that a step sends, in their order: those that are pushed are known. -/
def Sends (s s' : Sys) (pushed : List (ConnRef × Response)) : Prop :=
  ∃ new, s'.broker.sent = s.broker.sent ++ new ∧ new.filter (fun e => e.2.isPush) = pushed

theorem Sends.none (hsent : s'.broker.sent = s.broker.sent) : Sends s s' [] :=
  ⟨[], hsent.trans (List.append_nil _).symm, rfl⟩

theorem Sends.answer {conn : ConnRef} {resp : Response} (hsent : s'.broker.sent = s.broker.sent ++ [(conn, resp)])
    (hresp : resp.isPush = false) : Sends s s' [] :=
  ⟨[(conn, resp)], hsent, List.filter_cons_of_neg (Bool.eq_false_iff.mp hresp)⟩

theorem Sends.pushes {pushed : List (ConnRef × Response)} (h : Sends s s' pushed) : s'.pushes = s.pushes ++ pushed := by
  rcases h with ⟨new, hsent, hpushed⟩
  rw [Sys.pushes, hsent, List.filter_append, hpushed, Sys.pushes]

theorem onChannel_sends {self : ChannelRef} {req : Request} (hstep : s.onChannel pb self req = some s') : Sends s s' [] := by
  cases req with
  | declareQueue req =>
    rcases Option.map_eq_some_iff.mp hstep with ⟨broker, hdecl, rfl⟩
    have hbroker := congrArg Broker.sent (s.noteDeclared_broker req.queueName broker)
    unfold Broker.declareQueue at hdecl
    split at hdecl
    · cases hdecl
    · cases hdecl
      exact .answer hbroker rfl
    · cases hdecl
      exact .answer hbroker rfl
  | deleteQueue req =>
    cases hstep
    exact .answer (congrArg Broker.sent (noteDeleted_broker ..)) rfl
  | basicPublish req =>
    cases hstep
    unfold startPublish
    split
    · exact .answer rfl rfl
    · exact .none rfl
  | basicAck req =>
    rcases onChannel_basicAck hstep with ⟨host, -, rfl⟩
    exact .answer rfl rfl
  | basicConsume req =>
    cases hstep
    unfold Broker.basicConsume
    split
    · exact .answer rfl rfl
    · exact .answer rfl rfl
  | basicQuery req =>
    rcases onChannel_basicQuery hstep with ⟨body, -, rfl⟩
    exact .answer rfl rfl
  | openChannel req =>
    cases hstep
    exact .none rfl
  | closeChannel req =>
    cases hstep
    exact .none rfl
  | _ =>
    cases hstep
    exact .answer rfl rfl

theorem onRequest_sends {conn : ConnRef} {req : Request} (hstep : s.onRequest pb conn req = some s') : Sends s s' [] := by
  cases requested hstep with
  | unknown hconn => exact .none rfl
  | opens hconn =>
    unfold Broker.openChannel
    split
    · exact .answer rfl rfl
    · exact .answer rfl rfl
  | closes hconn => exact .answer (Broker.closeChannel_sent ..) rfl
  | unserved hconn hopen hclose hself => exact .none rfl
  | served hconn hopen hclose hself hstep => exact onChannel_sends hstep

/-- What is pushed is what the worker passes to a consumer. -/
theorem step_sends (hstep : s.step pb act = some s') (hact : act ≠ .restart) :
    Sends s s' ((s.passes act).map Delivery.response) := by
  cases act with
  | connect conn =>
    simp only [step, Option.ite_none_left_eq_some, Option.some.injEq] at hstep
    rw [← hstep.2]
    exact .none rfl
  | disconnect conn =>
    simp only [step, Option.ite_none_left_eq_some, Option.some.injEq] at hstep
    rw [← hstep.2]
    refine .none ?_
    unfold handle Broker.deleteConnection
    dsimp only
    split
    · rfl
    · exact Broker.foldl_destroy_sent _ _
  | request conn req =>
    simp only [step, Option.ite_none_left_eq_some] at hstep
    exact onRequest_sends hstep.2
  | publish uuid =>
    rcases Option.map_eq_some_iff.mp hstep with ⟨p, hp, rfl⟩
    unfold publishStep
    split
    · exact .answer rfl rfl
    · split
      · exact .none rfl
      · exact .none rfl
  | work =>
    have hstep : s.work pb = some s' := hstep
    unfold passes
    cases worked hstep with
    | consume hworker =>
      rw [hworker]
      unfold consume
      split
      · exact .none rfl
      · exact .none rfl
    | choose hworker =>
      rw [hworker]
      unfold choose
      split
      · exact .none rfl
      · exact .none rfl
    | @call task m payload c hworker =>
      rw [hworker]
      exact ⟨_, rfl, rfl⟩
    | _ hworker =>
      rw [hworker]
      exact .none rfl
  | restart => exact absurd rfl hact

end Sys

/-! ### Storage objects over a run -/

namespace VirtualHost
variable {pb : PayloadCodec} {h h' : VirtualHost} {basedir dbfile : String}

theorem new_bounded {d : Disk} {db : Db} (hnew : new pb basedir dbfile d db = some h) : h.mmp.Bounded := by
  rcases initAll_of_new hnew with ⟨d', disk, hinit⟩
  refine (MessageManager.initAll_cases _ hinit).2 fun _ _ hq => ?_
  cases hq

theorem act_bounded {a : HostAct} (hb : h.mmp.Bounded) (hact : h.act pb basedir dbfile a = some h') : h'.mmp.Bounded := by
  cases a with
  | idle =>
    cases hact
    exact hb
  | op op =>
    have hact : h.step pb basedir dbfile op = some h' := hact
    cases op with
    | declareQueue qname qdurable qexclusive qautoDelete qargs =>
      rcases Option.map_eq_some_iff.mp hact with ⟨⟨ok, host⟩, hdecl, rfl⟩
      rcases initQueueMsg_of_declareQueue hdecl with ⟨disk, hinit⟩
      exact (MessageManager.initQueueMsg_cases hinit).2 hb
    | deleteQueue name =>
      cases hact
      exact (h.mmp.destroyQueueMsg_cases name h.disk).2 hb
    | bind ename qname key =>
      cases hact
      have hmmp : (h.bind ename qname key).2.mmp = h.mmp := by
        unfold VirtualHost.bind
        split
        · rfl
        · split <;> rfl
      rw [hmmp]
      exact hb
    | restart => exact new_bounded hact
    | _ =>
      cases hact
      exact hb
  | publish qname bp uuid body =>
    cases hact
    unfold basicPublish
    split
    · exact hb
    · exact (h.mmp.insert_kept ..).bounded hb
  | consume qname =>
    cases hact
    exact (h.mmp.front_kept qname).bounded hb
  | ack qname msgId =>
    have hack : h.basicAck pb qname msgId = some h' := hact
    unfold basicAck at hack
    split at hack
    · cases hack
    · next mmp disk hmmp =>
      cases hack
      exact (MessageManager.ack_kept hmmp).bounded hb
  | touch qname r =>
    cases hact
    exact (h.mmp.mutableProperties_kept qname r).bounded hb

/-- What a new server finds in a queue is what its pending list holds. -/
theorem restored_contents {d : Disk} {db : Db} (hnew : new pb basedir dbfile d db = some h) (qname : String) :
    of qname (h.allQueues.keys.flatMap fun q => (h.mmp.contents q).map (q, ·)) = h.mmp.contents qname := by
  rcases initAll_of_new hnew with ⟨d', disk, hinit⟩
  have hmem := (MessageManager.initAll_cases _ hinit).1 qname
  by_cases hq : qname ∈ h.allQueues.keys
  · exact of_flatMap_self h.allQueues.nodupKeys hq _
  · rw [of_flatMap_of_notMem hq, MessageManager.contents_of_notMem]
    rw [hmem]
    rintro (hin | hin)
    · exact hq hin
    · cases hin

end VirtualHost
/-! ### Runs -/

namespace Flow
variable {pb : PayloadCodec} {f f' : Flow} {s : Sys} {act : Act} {acts : List Act} {basedir : String} {d : Disk} {db : Db}

/-- The consumer is registered, or the worker has chosen it. -/
def Live (f : Flow) (c : Consumer) : Prop :=
  f.sys.broker.consumers.Registered c ∨ ∃ task m payload, f.sys.worker = .chosen task m payload c

/-- The callback of the consumer belongs to the channel that created it. -/
def Rooted (f : Flow) (c : Consumer) : Prop :=
  c.callback < f.sys.broker.registry.next ∧
    ((f.sys.broker.channels c.callback).conn, (f.sys.broker.channels c.callback).cid, c) ∈ f.subscribed

structure Sound (f : Flow) : Prop where
  registry : f.sys.broker.registry.Sound
  named : f.sys.broker.registry.Named
  bounded : f.sys.broker.host.mmp.Bounded
  chosen : ∀ task m payload c, f.sys.worker = .chosen task m payload c → c.qname = task.qname
  rooted : ∀ c, f.Live c → f.Rooted c
  pushed : f.sys.pushes = f.passed.map Delivery.response
  follows : ∀ d ∈ f.passed, (d.conn, d.cid, d.consumer) ∈ f.subscribed
  sublist : ∀ qname, ((f.sys.conveyor f.passed).line qname).Sublist (of qname f.entered)

theorem step_restart (hstep : f.step pb .restart = some f') :
    ∃ s', f.sys.step pb .restart = some s' ∧ f' = start s' := by
  unfold step at hstep
  split at hstep
  · cases hstep
  · next s' hs' => exact ⟨s', hs', (Option.some.inj hstep).symm⟩

theorem step_eq (hstep : f.step pb act = some f') (hact : act ≠ .restart) :
    f.sys.step pb act = some f'.sys ∧ f'.entered = f.entered ++ f.sys.enters pb f'.sys act ∧
      f'.subscribed = f.subscribed ++ f.sys.subscriptions act ∧ f'.passed = f.passed ++ f.sys.passes act := by
  unfold step at hstep
  split at hstep
  · cases hstep
  · next s' hs' =>
    cases act with
    | restart => exact absurd rfl hact
    | _ =>
      cases hstep
      exact ⟨hs', rfl, rfl, rfl⟩

/-- A step of the server is one of the conveyor. -/
theorem step_conveyor (hf : f.Sound) (hstep : f.step pb act = some f') (hact : act ≠ .restart) :
    (f.sys.conveyor f.passed).Step (f.sys.enters pb f'.sys act) (f.sys.loses act) (f'.sys.conveyor f'.passed) := by
  rcases step_eq hstep hact with ⟨hsys, -, -, hpassed⟩
  rw [hpassed]
  cases act with
  | connect conn =>
    simp only [Sys.step, Option.ite_none_left_eq_some, Option.some.injEq] at hsys
    rw [Sys.passes, List.append_nil, ← hsys.2]
    · exact Sys.stay_conveyor rfl rfl _
    · intro h
      cases h
  | disconnect conn =>
    simp only [Sys.step, Option.ite_none_left_eq_some, Option.some.injEq] at hsys
    rw [Sys.passes, List.append_nil, ← hsys.2]
    · refine Sys.stay_conveyor ?_ ?_ _
      · rw [Sys.handle, Broker.deleteConnection_host]
      · rfl
    · intro h
      cases h
  | request conn req =>
    simp only [Sys.step, Option.ite_none_left_eq_some] at hsys
    rw [Sys.passes, List.append_nil]
    · exact Sys.request_conveyor hf.bounded hsys.2 _
    · intro h
      cases h
  | publish uuid =>
    rcases Option.map_eq_some_iff.mp hsys with ⟨p, hp, hs'⟩
    rw [Sys.passes, List.append_nil, ← hs']
    · exact Sys.publish_conveyor hf.bounded hp uuid _
    · intro h
      cases h
  | work => exact Sys.work_conveyor hf.bounded hf.chosen hsys _
  | restart => exact absurd rfl hact

theorem start_line (s : Sys) (hboot : Sys.boot pb basedir d db = some s) (qname : String) :
    (s.conveyor []).line qname = of qname s.restored := by
  rw [Sys.restored, VirtualHost.restored_contents (Sys.host_boot hboot)]
  have hhold : (s.conveyor []).hold = none := congrArg Worker.carries (Sys.boot_registry hboot).2.1
  rw [Conveyor.line, hhold]
  rfl

theorem boot_pushes (hboot : Sys.boot pb basedir d db = some s) : s.pushes = [] ∧ s.broker.registry.Named := by
  unfold Sys.boot at hboot
  split at hboot
  · cases hboot
  · cases hboot
    refine ⟨rfl, fun conn cid self h => ?_⟩
    cases h

theorem start_sound (hboot : Sys.boot pb basedir d db = some s) : (start s).Sound where
  registry := (Sys.boot_registry hboot).1
  named := (boot_pushes hboot).2
  bounded := VirtualHost.new_bounded (Sys.host_boot hboot)
  chosen task m payload c hworker := by
    rw [start, (Sys.boot_registry hboot).2.1] at hworker
    cases hworker
  rooted c hc := by
    rcases Sys.boot_registry hboot with ⟨-, hidle, -, -, hnone⟩
    rcases hc with hreg | ⟨task, m, payload, hworker⟩
    · exact absurd hreg (hnone c)
    · rw [start, hidle] at hworker
      cases hworker
  pushed := (boot_pushes hboot).1
  follows d hd := by cases hd
  sublist qname := by
    rw [start, start_line s hboot]

/-- Whom the worker has chosen after a step was chosen before, or is registered for the queue of the task. -/
theorem chosen_step (hf : f.Sound) (hstep : f.step pb act = some f') (hact : act ≠ .restart) {task : Task} {m : MsgObject}
    {payload : Payload} {c : Consumer} (hworker : f'.sys.worker = .chosen task m payload c) :
    f.sys.worker = .chosen task m payload c ∨ (f.sys.broker.consumers.Registered c ∧ c.qname = task.qname) := by
  rcases step_eq hstep hact with ⟨hsys, -, -, -⟩
  by_cases hwork : act = .work
  · subst hwork
    have hadvances := (Sys.work_advances pb hsys).2
    rw [hworker] at hadvances
    generalize f.sys.worker = w at hadvances
    cases hadvances with
    | choose _ _ _ hc => exact Or.inr ((ConsumerManager.choose_cases hf.registry.filed task.qname).2.2 c hc)
  · rw [(Sys.step_apart hsys hwork hact).worker] at hworker
    exact Or.inl hworker

/-- A consumer that is live after a step was live before, or the step is its subscription. -/
theorem live_step (hf : f.Sound) (hstep : f.step pb act = some f') (hact : act ≠ .restart) {c : Consumer}
    (hc : f'.Live c) : f.Live c ∨ f.sys.broker.registry.Created c (f.sys.registryOp pb act) := by
  rcases hc with hreg | ⟨task, m, payload, hworker⟩
  · have hreg' : f'.sys.broker.registry.consumers.Registered c := hreg
    rw [Sys.registry_step (step_eq hstep hact).1 hact, (Registry.consumers_apply hf.registry.filed _).2] at hreg'
    exact hreg'.imp (fun hold => Or.inl hold.1) id
  · rcases chosen_step hf hstep hact hworker with hold | ⟨hreg, -⟩
    · exact Or.inl (Or.inr ⟨task, m, payload, hold⟩)
    · exact Or.inl (Or.inl hreg)

/-- The subscription that creates a consumer is noted. -/
theorem rooted_of_created (hf : f.Sound) {c : Consumer} (hc : f.sys.broker.registry.Created c (f.sys.registryOp pb act)) :
    c.callback < f.sys.broker.registry.next ∧
      ((f.sys.broker.channels c.callback).conn, (f.sys.broker.channels c.callback).cid, c) ∈ f.sys.subscriptions act := by
  have hsubscribes := (Sys.subscribes_of_created hf.registry.filed hc).1
  rcases Sys.registryOp_of_created hc with ⟨conn, req, rfl⟩
  have hself : f.sys.broker.registry.channelAt conn req.cid = some c.callback := by
    cases hat : f.sys.broker.registry.channelAt conn req.cid with
    | none =>
      simp only [Sys.registryOp, Request.cid, hat] at hc
      cases hc
    | some self =>
      simp only [Sys.registryOp, Request.cid, hat, Sys.channelOp] at hc
      split at hc
      · rcases hc with ⟨-, -, -, hcallback, -⟩
        rw [← hcallback, hat]
      · cases hc
  rcases hf.named hself with ⟨hconn, hcid⟩
  have hconn : (f.sys.broker.channels c.callback).conn = conn := hconn
  have hcid : (f.sys.broker.channels c.callback).cid = req.cid := hcid
  refine ⟨hf.registry.fresh hself, ?_⟩
  rw [Sys.subscriptions, hsubscribes, hconn, hcid]
  exact List.mem_singleton_self _

theorem rooted_step (hf : f.Sound) (hstep : f.step pb act = some f') (hact : act ≠ .restart) {c : Consumer}
    (hc : f'.Live c) : f'.Rooted c := by
  rcases step_eq hstep hact with ⟨hsys, -, hsubscribed, -⟩
  have hregistry := Sys.registry_step hsys hact
  have hbefore : c.callback < f.sys.broker.registry.next ∧ ((f.sys.broker.channels c.callback).conn,
      (f.sys.broker.channels c.callback).cid, c) ∈ f.subscribed ++ f.sys.subscriptions act := by
    rcases live_step hf hstep hact hc with hlive | hcreated
    · rcases hf.rooted c hlive with ⟨hlt, hmem⟩
      exact ⟨hlt, List.mem_append_left _ hmem⟩
    · rcases rooted_of_created hf hcreated with ⟨hlt, hmem⟩
      exact ⟨hlt, List.mem_append_right _ hmem⟩
  rcases Registry.channels_apply (f.sys.registryOp pb act) hbefore.1 with ⟨hconn, hcid⟩
  rw [← hregistry] at hconn hcid
  have hconn : (f'.sys.broker.channels c.callback).conn = (f.sys.broker.channels c.callback).conn := hconn
  have hcid : (f'.sys.broker.channels c.callback).cid = (f.sys.broker.channels c.callback).cid := hcid
  rw [Rooted, hregistry, hsubscribed, hconn, hcid]
  exact ⟨Nat.lt_of_lt_of_le hbefore.1 (Registry.next_apply _ _).1, hbefore.2⟩

theorem step_sound (hf : f.Sound) (hstep : f.step pb act = some f') : f'.Sound := by
  by_cases hact : act = .restart
  · subst hact
    rcases step_restart hstep with ⟨s', hs', rfl⟩
    exact start_sound hs'
  rcases step_eq hstep hact with ⟨hsys, hentered, hsubscribed, hpassed⟩
  have hregistry := Sys.registry_step hsys hact
  refine ⟨Sys.step_registry_sound hf.registry hsys, ?_, VirtualHost.act_bounded hf.bounded (Sys.host_step hsys), ?_,
    fun c hc => rooted_step hf hstep hact hc, ?_, ?_, fun qname => ?_⟩
  · rw [hregistry]
    exact hf.named.apply hf.registry _
  · intro task m payload c hworker
    rcases chosen_step hf hstep hact hworker with hold | ⟨-, hqname⟩
    · exact hf.chosen task m payload c hold
    · exact hqname
  · rw [(Sys.step_sends hsys hact).pushes, hf.pushed, hpassed, List.map_append]
  · intro d hd
    rw [hpassed] at hd
    rw [hsubscribed]
    refine List.mem_append_left _ ?_
    rcases List.mem_append.mp hd with hd | hd
    · exact hf.follows d hd
    · unfold Sys.passes at hd
      split at hd
      · split at hd
        · next task m payload c hworker =>
          rw [List.mem_singleton.mp hd]
          exact (hf.rooted c (Or.inr ⟨task, m, payload, hworker⟩)).2
        · cases hd
      · cases hd
  · rw [hentered, of_append]
    exact ((step_conveyor hf hstep hact).sublist qname).trans ((hf.sublist qname).append (List.Sublist.refl _))

theorem run_sound (hboot : Sys.boot pb basedir d db = some s) (hrun : Lib.run (step pb) (start s) acts = some f) : f.Sound :=
  Lib.run_induct (fun _ _ _ hf hstep => step_sound hf hstep) (start_sound hboot) hrun

/-- In every run, what is pushed to a channel is what the worker passed to a consumer that the channel has subscribed,
    and the contents that were passed out of a queue came into it, in this order and each once. -/
theorem run_inOrder (hboot : Sys.boot pb basedir d db = some s) (hrun : Lib.run (step pb) (start s) acts = some f) :
    f.sys.pushes = f.passed.map Delivery.response ∧
      (∀ d ∈ f.passed, (d.conn, d.cid, d.consumer) ∈ f.subscribed) ∧
      ∀ qname, (of qname (f.passed.map Delivery.item)).Sublist (of qname f.entered) := by
  have hf := run_sound hboot hrun
  refine ⟨hf.pushed, hf.follows, fun qname => List.Sublist.trans ?_ (hf.sublist qname)⟩
  exact List.sublist_append_left _ _

/-- A step that loses nothing of a queue leaves its line as it is. -/
theorem step_line {qname : String} (hf : f.Sound ∧ (f.sys.conveyor f.passed).line qname = of qname f.entered)
    (hstep : f.step pb act = some f') (hloses : (f.sys.loses act != some qname) = true) :
    f'.Sound ∧ (f'.sys.conveyor f'.passed).line qname = of qname f'.entered := by
  rcases hf with ⟨hf, hline⟩
  refine ⟨step_sound hf hstep, ?_⟩
  by_cases hact : act = .restart
  · subst hact
    rcases step_restart hstep with ⟨s', hs', rfl⟩
    exact start_line s' hs' qname
  · rw [(step_conveyor hf hstep hact).line_eq (bne_iff_ne.mp hloses), hline, (step_eq hstep hact).2.1, of_append]

/-- While a queue is not deleted and its tasks find consumers, nothing that came into it is lost: what was passed, what
    the worker has in hand and what is pending are together what came in. -/
theorem run_complete (hboot : Sys.boot pb basedir d db = some s) {qname : String}
    (hkept : Lib.always (step pb) (fun f act => f.sys.loses act != some qname) (start s) acts = true)
    (hrun : Lib.run (step pb) (start s) acts = some f) :
    of qname (f.passed.map Delivery.item) ++ (of qname f.sys.worker.carries.toList ++ f.sys.broker.host.mmp.contents qname) =
      of qname f.entered :=
  (Lib.run_induct_of_always (fun _ _ _ => step_line) ⟨start_sound hboot, start_line s hboot qname⟩ hkept acts f
    (List.prefix_refl _) hrun).2

/-- Two messages for a queue with a subscriber: the first is passed, and the worker has taken the second. -/
def relayed : List Act :=
  Sys.bound ++ [.request 1 (.basicConsume ⟨"8", "c", "t", "q", false⟩),
    .request 1 (.basicPublish ⟨"9", "c", "e", "x", some ⟨"m", .durable, "a.k"⟩⟩), .publish "u", .publish "", .publish "",
    .request 1 (.basicPublish ⟨"10", "c", "e", "y", some ⟨"n", .undurable, "a.k"⟩⟩), .publish "u", .publish "",
    .publish "", .work, .work, .work, .work, .work, .work, .work, .work]

theorem run_relayed : ∃ (s : Sys) (f : Flow), Sys.boot protobuf "data" Store.vacant {} = some s ∧
    Lib.run (step protobuf) (start s) relayed = some f ∧
    Lib.always (step protobuf) (fun f act => f.sys.loses act != some "q") (start s) relayed = true ∧
    f.passed.length = 1 ∧ f.sys.worker.carries.isSome = true := by
  have hrun : (Sys.boot protobuf "data" Store.vacant {}).any (fun s =>
      Lib.always (step protobuf) (fun f act => f.sys.loses act != some "q") (start s) relayed &&
      (Lib.run (step protobuf) (start s) relayed).any fun f =>
        decide (f.passed.length = 1) && f.sys.worker.carries.isSome) = true := by
    decide +kernel
  rcases (Option.any_eq_true _ _).mp hrun with ⟨s, hboot, hs⟩
  rcases (Bool.and_eq_true _ _).mp hs with ⟨hkept, hs⟩
  rcases (Option.any_eq_true _ _).mp hs with ⟨f, hf, hend⟩
  rcases (Bool.and_eq_true _ _).mp hend with ⟨hpassed, hcarries⟩
  exact ⟨s, f, hboot, hf, hkept, of_decide_eq_true hpassed, hcarries⟩

theorem run_inOrder_relayed : ∃ (s : Sys) (f : Flow), Sys.boot protobuf "data" Store.vacant {} = some s ∧
    Lib.run (step protobuf) (start s) relayed = some f ∧ f.passed.length = 1 ∧
    f.sys.pushes = f.passed.map Delivery.response ∧ (∀ d ∈ f.passed, (d.conn, d.cid, d.consumer) ∈ f.subscribed) ∧
    ∀ qname, (of qname (f.passed.map Delivery.item)).Sublist (of qname f.entered) := by
  rcases run_relayed with ⟨s, f, hboot, hf, -, hpassed, -⟩
  exact ⟨s, f, hboot, hf, hpassed, run_inOrder hboot hf⟩

theorem run_complete_relayed : ∃ (s : Sys) (f : Flow), Sys.boot protobuf "data" Store.vacant {} = some s ∧
    Lib.run (step protobuf) (start s) relayed = some f ∧ f.passed.length = 1 ∧ f.sys.worker.carries.isSome = true ∧
    of "q" (f.passed.map Delivery.item) ++ (of "q" f.sys.worker.carries.toList ++ f.sys.broker.host.mmp.contents "q") =
      of "q" f.entered := by
  rcases run_relayed with ⟨s, f, hboot, hf, hkept, hpassed, hcarries⟩
  exact ⟨s, f, hboot, hf, hpassed, hcarries, run_complete hboot hkept hf⟩

end Flow
end HareMQ
