import HareMQ.Codec
import HareMQ.Theorems.Served

/-! # Publishing

`basic_publish` in a reachable state: one copy and one task for every queue whose binding the routing selects, and
nothing else. -/

namespace HareMQ
open Lib

/-! ### Routing -/

namespace Broker
variable {pb : PayloadCodec} {b b' : Broker} {self : ChannelRef} {ep : Exchange} {req : BasicPublishRequest}
  {qname : String}

/-- The exchange of the request is bound to the queue with a key that its routing key matches. -/
def Routes (b : Broker) (ep : Exchange) (req : BasicPublishRequest) (qname : String) : Prop :=
  ∃ bp, b.host.bmp.getBinding req.exchangeName qname = some bp ∧
    Router.route ep.type ((req.properties.map (·.routingKey)).getD "") bp.bindingKey = true

theorem mem_targets : qname ∈ b.targets ep req ↔ b.Routes ep req qname := by
  have hget : ∀ bp : Binding, ⟨qname, bp⟩ ∈ (b.host.exchangeBindings req.exchangeName).entries ↔
      b.host.bmp.getBinding req.exchangeName qname = some bp := fun bp => by
    rw [UMap.mem_entries_iff, VirtualHost.exchangeBindings, BindingManager.getExchangeBindings, BindingManager.getBinding]
    cases b.host.bmp.bindings.lookup req.exchangeName <;> simp
  simp only [targets, Routes, List.mem_map, List.mem_filter]
  constructor
  · rintro ⟨⟨qname', bp⟩, ⟨hmem, hroute⟩, rfl⟩
    exact ⟨bp, (hget bp).mp hmem, hroute⟩
  · rintro ⟨bp, hbp, hroute⟩
    exact ⟨⟨qname, bp⟩, ⟨(hget bp).mpr hbp, hroute⟩, rfl⟩

theorem nodup_targets (b : Broker) (ep : Exchange) (req : BasicPublishRequest) : (b.targets ep req).Nodup := by
  have hkeys : ((b.host.exchangeBindings req.exchangeName).entries.map Sigma.fst).Nodup :=
    (b.host.exchangeBindings req.exchangeName).nodupKeys
  exact (List.filter_sublist.map Sigma.fst).nodup hkeys

/-! ### One copy -/

/-- A copy of the published message for a queue with the given durability. -/
structure IsCopy (req : BasicPublishRequest) (qdurable : Bool) (msg : Message) : Prop where
  body : msg.payload.body = req.body
  given : ∀ bp, req.properties = some bp → msg.id = bp.id ∧ msg.payload.props.routingKey = bp.routingKey
  durable : msg.isDurable = true ↔ qdurable = true ∧ ∀ bp, req.properties = some bp → bp.deliveryMode = .durable

theorem isCopy_stored (req : BasicPublishRequest) (uuid : String) (qdurable : Bool) {msg : Message}
    (h : msg.payload = (stored (QueueMessage.makeMessage req.properties uuid req.body qdurable)).payload) :
    IsCopy req qdurable msg := by
  -- The valid flag is the only difference between the message and the stored one.
  obtain ⟨flag, hflag⟩ : ∃ flag, msg.payload =
      (QueueMessage.makeMessage req.properties uuid req.body qdurable).payload.setValid flag := by
    rw [h, stored]
    split
    · exact ⟨"1", rfl⟩
    · exact ⟨_, rfl⟩
  unfold QueueMessage.makeMessage at hflag
  cases hp : req.properties with
  | none =>
    rw [hp] at hflag
    refine ⟨by rw [hflag]; rfl, fun bp' hbp' => by simp [hp] at hbp', ?_⟩
    rw [Message.isDurable, hflag]
    cases qdurable <;> simp [hp, Payload.deliveryMode, Payload.props, Payload.setValid]
  | some bp =>
    rw [hp] at hflag
    refine ⟨by rw [hflag]; rfl, fun bp' hbp' => ?_, ?_⟩
    · obtain rfl := Option.some.inj (hp.symm.trans hbp')
      rw [Message.id, hflag]
      exact ⟨rfl, rfl⟩
    · rw [Message.isDurable, hflag]
      cases qdurable <;> simp [hp, Payload.deliveryMode, Payload.props, Payload.setValid]

/-- The queue can take a message: it is declared, and its data file is there. -/
structure Ready (b : Broker) (qname : String) (mqp : MsgQueue) (q : QueueMessage) : Prop where
  declared : b.host.mqmp.selectQueue qname = some mqp
  stored : b.host.mmp.queueMsgs.lookup qname = some q
  file : (b.host.disk.file? q.mapper.dataFile).isSome

/-- Nothing but the storage, the disk and the pool changes. -/
structure StorageOnly (b b' : Broker) : Prop where
  emp : b'.host.emp = b.host.emp
  mqmp : b'.host.mqmp = b.host.mqmp
  bmp : b'.host.bmp = b.host.bmp
  db : b'.host.db = b.host.db
  consumers : b'.consumers = b.consumers
  channels : b'.channels = b.channels
  conns : b'.conns = b.conns
  sent : b'.sent = b.sent

theorem StorageOnly.trans {b'' : Broker} (h₁ : StorageOnly b b') (h₂ : StorageOnly b' b'') : StorageOnly b b'' where
  emp := h₂.emp.trans h₁.emp
  mqmp := h₂.mqmp.trans h₁.mqmp
  bmp := h₂.bmp.trans h₁.bmp
  db := h₂.db.trans h₁.db
  consumers := h₂.consumers.trans h₁.consumers
  channels := h₂.channels.trans h₁.channels
  conns := h₂.conns.trans h₁.conns
  sent := h₂.sent.trans h₁.sent

variable (pb) (self) (req) in
/-- One round of the loop. -/
theorem publishTo_spec (hcalm : b.host.disk.Calm) {mqp : MsgQueue} {q : QueueMessage} (hready : b.Ready qname mqp q)
    (uuid : String → String) : ∃ q', q.Appended q' (QueueMessage.makeMessage req.properties (uuid qname) req.body mqp.durable) ∧
      (b.publishTo pb self req uuid qname).host.mmp = b.host.mmp.put qname q' ∧
      (b.publishTo pb self req uuid qname).host.disk.Calm ∧
      (∀ name, (b.host.disk.file? name).isSome → ((b.publishTo pb self req uuid qname).host.disk.file? name).isSome) ∧
      (b.publishTo pb self req uuid qname).pool = b.pool.push { channel := self, qname } ∧
      StorageOnly b (b.publishTo pb self req uuid qname) := by
  obtain ⟨q', d', hins, happ, hcalm', hfiles⟩ :=
    QueueMessage.insert_of_file pb hcalm hready.file req.properties (uuid qname) req.body mqp.durable
  have hpub : b.publishTo pb self req uuid qname =
      { b with
        host := { b.host with mmp := b.host.mmp.put qname q', disk := d' }
        pool := b.pool.push { channel := self, qname } } := by
    simp only [publishTo, VirtualHost.basicPublish, hready.declared, MessageManager.insert, hready.stored, hins]
  rw [hpub]
  exact ⟨q', happ, rfl, hcalm', hfiles, rfl, ⟨rfl, rfl, rfl, rfl, rfl, rfl, rfl, rfl⟩⟩

/-- What the loop does for one queue. -/
def Delivered (b b' : Broker) (req : BasicPublishRequest) (qname : String) : Prop :=
  ∃ mqp q q' msg, b.host.mqmp.selectQueue qname = some mqp ∧ b.host.mmp.queueMsgs.lookup qname = some q ∧
    b'.host.mmp.queueMsgs.lookup qname = some q' ∧ q'.pending = q.pending ++ [msg] ∧ IsCopy req mqp.durable msg ∧
    q'.waitAckMsgs = q.waitAckMsgs

variable (pb) (self) (req) in
/-- The loop over different queues that can take a message. -/
theorem foldl_publishTo (uuid : String → String) : ∀ (qnames : List String) (b : Broker), qnames.Nodup →
    b.host.disk.Calm → b.host.mmp.Bounded → (∀ qname ∈ qnames, ∃ mqp q, b.Ready qname mqp q) →
    ∃ b', qnames.foldl (fun b qname => b.publishTo pb self req uuid qname) b = b' ∧
      (∀ qname ∈ qnames, Delivered b b' req qname) ∧
      (∀ qname ∉ qnames, b'.host.mmp.queueMsgs.lookup qname = b.host.mmp.queueMsgs.lookup qname) ∧
      b'.pool = { b.pool with taskQueue := b.pool.taskQueue ++ qnames.map ({ channel := self, qname := · }) } ∧
      StorageOnly b b'
  | [], b, _, _, _, _ =>
    ⟨b, rfl, nofun, fun _ _ => rfl, by simp, ⟨rfl, rfl, rfl, rfl, rfl, rfl, rfl, rfl⟩⟩
  | qname :: qnames, b, hnodup, hcalm, hbounded, hready => by
    obtain ⟨hnotin, hnodup⟩ := List.nodup_cons.mp hnodup
    obtain ⟨mqp, q, hq⟩ := hready qname List.mem_cons_self
    obtain ⟨q', happ, hmmp, hcalm₁, hfiles, hpool, hframe⟩ := publishTo_spec pb self req hcalm hq uuid
    generalize hb₁ : b.publishTo pb self req uuid qname = b₁ at *
    have hlookup : ∀ qname', b₁.host.mmp.queueMsgs.lookup qname' =
        if qname' = qname then some q' else b.host.mmp.queueMsgs.lookup qname' := fun qname' => by
      rw [hmmp, MessageManager.put, UMap.lookup_insert]
    obtain ⟨b', hfold, hdelivered, hothers, hpool', hframe'⟩ := foldl_publishTo uuid qnames b₁ hnodup hcalm₁
      (hmmp ▸ MessageManager.bounded_put hbounded (happ.bounded (hbounded hq.stored)) qname) fun qname' hmem => by
        obtain ⟨mqp', q'', h⟩ := hready qname' (List.mem_cons_of_mem qname hmem)
        have hne : qname' ≠ qname := fun heq => hnotin (heq ▸ hmem)
        exact ⟨mqp', q'', by rw [hframe.mqmp]; exact h.declared, by rw [hlookup, if_neg hne]; exact h.stored,
          hfiles _ h.file⟩
    refine ⟨b', by rw [List.foldl_cons, hb₁]; exact hfold, ?_, ?_, ?_, hframe.trans hframe'⟩
    · intro qname' hmem
      rcases List.mem_cons.mp hmem with rfl | hmem
      · refine ⟨mqp, q, q', q'.heap q.next, hq.declared, hq.stored, ?_, happ.pending (hbounded hq.stored), ?_, happ.waits⟩
        · rw [hothers qname' hnotin, hlookup, if_pos rfl]
        · exact isCopy_stored req (uuid qname') mqp.durable happ.payload
      · obtain ⟨mqp', q₁, q₂, msg, hdecl, hstored, hrest⟩ := hdelivered qname' hmem
        have hne : qname' ≠ qname := fun heq => hnotin (heq ▸ hmem)
        rw [hframe.mqmp] at hdecl
        rw [hlookup, if_neg hne] at hstored
        exact ⟨mqp', q₁, q₂, msg, hdecl, hstored, hrest⟩
    · intro qname' hnot
      rw [List.mem_cons, not_or] at hnot
      rw [hothers qname' hnot.2, hlookup, if_neg hnot.1]
    · rw [hpool', hpool]
      simp [ThreadPool.push]

/-! ### Fan-out -/

/-- The result of publishing a request on the exchange `ep`. -/
structure FansOut (b : Broker) (self : ChannelRef) (req : BasicPublishRequest) (ep : Exchange) (b' : Broker) : Prop where
  delivered : ∀ qname, b.Routes ep req qname → Delivered b b' req qname
  others : ∀ qname, ¬b.Routes ep req qname →
    b'.host.mmp.queueMsgs.lookup qname = b.host.mmp.queueMsgs.lookup qname
  /-- The new tasks are one for each of these queues. -/
  tasks : ∃ tasks : List Task, b'.pool = { b.pool with taskQueue := b.pool.taskQueue ++ tasks } ∧ tasks.Nodup ∧
    ∀ task, task ∈ tasks ↔ task.channel = self ∧ b.Routes ep req task.qname
  exchanges : b'.host.emp = b.host.emp
  queues : b'.host.mqmp = b.host.mqmp
  bindings : b'.host.bmp = b.host.bmp
  db : b'.host.db = b.host.db
  consumers : b'.consumers = b.consumers
  sent : b'.sent = b.sent ++ [((b.channels self).conn, .basicCommonResponse req.rid req.cid true)]

/-- The file operations of publishing the request succeed: a write needs the data file. -/
structure Writable (b : Broker) (ep : Exchange) (req : BasicPublishRequest) : Prop where
  calm : b.host.disk.Calm
  file : ∀ qname, b.Routes ep req qname → ∀ q, b.host.mmp.queueMsgs.lookup qname = some q →
    (b.host.disk.file? q.mapper.dataFile).isSome

theorem basicPublish_fansOut {s : Sys} (hreach : s.Reachable pb)
    (hep : s.broker.host.selectExchange req.exchangeName = some ep) (hwrite : s.broker.Writable ep req)
    (self : ChannelRef) (uuid : String → String) :
    s.broker.FansOut self req ep (s.broker.basicPublish pb self req uuid) := by
  have hs := hreach.served
  -- Both ends of a binding exist, and a queue that exists has its storage.
  have hready : ∀ qname ∈ s.broker.targets ep req, ∃ mqp q, s.broker.Ready qname mqp q := by
    intro qname hmem
    obtain ⟨bp, hbp, -⟩ := mem_targets.mp hmem
    have hlink : s.broker.host.catalog.links (.exchange req.exchangeName) (.queue qname) = some bp := hbp
    have hsome := (hs.mirrored.linked hlink).2
    rw [← VirtualHost.selectQueue_isSome] at hsome
    obtain ⟨mqp, hmqp⟩ := Option.isSome_iff_exists.mp hsome
    obtain ⟨q, hq⟩ := Option.isSome_iff_exists.mp (AList.lookup_isSome.mpr (hs.stored qname hsome))
    exact ⟨mqp, q, hmqp, hq, hwrite.file qname (mem_targets.mp hmem) q hq⟩
  obtain ⟨b', hfold, hdelivered, hothers, hpool, hframe⟩ := foldl_publishTo pb self req uuid
    (s.broker.targets ep req) s.broker (s.broker.nodup_targets ep req) hwrite.calm hs.bounded hready
  have hpub : s.broker.basicPublish pb self req uuid = b'.basicResponse self true req.rid req.cid := by
    simp only [basicPublish, hep, hfold]
  rw [hpub]
  refine ⟨fun qname hroute => hdelivered qname (mem_targets.mpr hroute), fun qname hroute => hothers qname fun hmem =>
    hroute (mem_targets.mp hmem), ⟨_, hpool, ?_, ?_⟩, hframe.emp, hframe.mqmp, hframe.bmp, hframe.db, hframe.consumers, ?_⟩
  · exact (s.broker.nodup_targets ep req).map fun _ _ heq => congrArg Task.qname heq
  · rintro ⟨channel, qname⟩
    simp only [List.mem_map, mem_targets, Task.mk.injEq]
    constructor
    · rintro ⟨_, hroute, rfl, rfl⟩
      exact ⟨rfl, hroute⟩
    · rintro ⟨rfl, hroute⟩
      exact ⟨qname, hroute, rfl, rfl⟩
  · rw [basicResponse, send, hframe.sent, hframe.channels]

end Broker

namespace Sys

/-- A broker with an exchange, a durable and a transient queue, both bound. -/
def bound : List Act :=
  [.connect 1, .request 1 (.openChannel ⟨"1", "c"⟩),
    .request 1 (.declareExchange ⟨"2", "c", "e", .topic, true, false, ∅⟩),
    .request 1 (.declareQueue ⟨"3", "c", "q", false, true, false, ∅⟩),
    .request 1 (.declareQueue ⟨"4", "c", "r", false, false, false, ∅⟩),
    .request 1 (.bind ⟨"5", "c", "e", "q", "a.#"⟩), .request 1 (.bind ⟨"6", "c", "e", "r", "b"⟩)]

theorem basicPublish_fansOut_bound : ∃ (s : Sys) (ep : Exchange), s.Reachable protobuf ∧
    s.broker.host.selectExchange "e" = some ep ∧ s.broker.Routes ep ⟨"7", "c", "e", "x", some ⟨"m", .durable, "a.k"⟩⟩ "q" ∧
    s.broker.FansOut 0 ⟨"7", "c", "e", "x", some ⟨"m", .durable, "a.k"⟩⟩ ep
      (s.broker.basicPublish protobuf 0 ⟨"7", "c", "e", "x", some ⟨"m", .durable, "a.k"⟩⟩ fun _ => "u") := by
  have hrun : (boot protobuf "data" Store.vacant {}).any (fun s₀ => (s₀.run protobuf bound).any fun s =>
      (s.broker.host.selectExchange "e").any (fun ep =>
        "q" ∈ s.broker.targets ep ⟨"7", "c", "e", "x", some ⟨"m", .durable, "a.k"⟩⟩) &&
      s.broker.host.disk.fates.isEmpty &&
      s.broker.host.mmp.queueMsgs.entries.all fun e => (s.broker.host.disk.file? e.2.mapper.dataFile).isSome) = true := by
    decide +kernel
  obtain ⟨s₀, hboot, hs₀⟩ := (Option.any_eq_true _ _).mp hrun
  obtain ⟨s, hs, hcond⟩ := (Option.any_eq_true _ _).mp hs₀
  simp only [Bool.and_eq_true, List.isEmpty_iff, List.all_eq_true] at hcond
  obtain ⟨⟨hep, hcalm⟩, hfiles⟩ := hcond
  obtain ⟨ep, hep, htarget⟩ := (Option.any_eq_true _ _).mp hep
  have hreach : s.Reachable protobuf := ⟨"data", Store.vacant, s₀, bound, hboot, hs⟩
  refine ⟨s, ep, hreach, hep, Broker.mem_targets.mp (of_decide_eq_true htarget), ?_⟩
  exact Broker.basicPublish_fansOut hreach hep
    ⟨hcalm, fun qname _ q hq => hfiles ⟨qname, q⟩ (UMap.mem_entries_iff.mpr hq)⟩ 0 fun _ => "u"

/-! ### The loop step by step -/

variable {pb : PayloadCodec}

/-- The steps of the loop for some queues, and the response. -/
def publishActs (uuid : String → String) (qnames : List String) : List Act :=
  qnames.flatMap (fun qname => [.publish (uuid qname), .publish ""]) ++ [.publish ""]

variable (pb) in
theorem run_publishActs (self : ChannelRef) (req : BasicPublishRequest) (uuid : String → String) :
    ∀ (qnames : List String) (s : Sys), s.loop = some { self, req, rest := qnames } →
    ∃ s', s.run pb (publishActs uuid qnames) = some s' ∧ s'.loop = none ∧ s'.worker = s.worker ∧
      s'.broker = (qnames.foldl (fun b qname => b.publishTo pb self req uuid qname) s.broker).basicResponse self true
        req.rid req.cid
  | [], s, hloop => by
    refine ⟨{ s with broker := s.broker.basicResponse self true req.rid req.cid, loop := none }, ?_, rfl, rfl, rfl⟩
    simp only [publishActs, List.flatMap_nil, List.nil_append, run, step, hloop, Option.map_some, publishStep]
  | qname :: qnames, s, hloop => by
    -- The state after both steps for the first queue.
    let s₂ : Sys := { (s.publishStep pb { self, req, rest := qname :: qnames } (uuid qname)) with
      broker := s.broker.publishTo pb self req uuid qname
      loop := some { self, req, rest := qnames } }
    obtain ⟨s', hrun, hloop', hworker, hbroker⟩ := run_publishActs self req uuid qnames s₂ rfl
    refine ⟨s', ?_, hloop', hworker, hbroker⟩
    have hstep₁ : s.step pb (.publish (uuid qname)) =
        some (s.publishStep pb { self, req, rest := qname :: qnames } (uuid qname)) := by rw [step, hloop, Option.map_some]
    have hstep₂ : (s.publishStep pb { self, req, rest := qname :: qnames } (uuid qname)).step pb (.publish "") = some s₂ := rfl
    simp only [publishActs, List.flatMap_cons, List.cons_append, List.nil_append, run, hstep₁, hstep₂]
    exact hrun

/-- Without steps of the worker in between, a publish request does what `basic_publish` does. -/
theorem run_basicPublish {s : Sys} {conn : ConnRef} {channels : ChannelManager} {self : ChannelRef}
    {req : BasicPublishRequest} {ep : Exchange} (hidle : s.loop = none) (hconn : s.broker.conns.lookup conn = some channels)
    (hself : channels.lookup req.cid = some self) (hep : s.broker.host.selectExchange req.exchangeName = some ep)
    (uuid : String → String) :
    ∃ s', s.run pb (.request conn (.basicPublish req) :: publishActs uuid (s.broker.targets ep req)) = some s' ∧
      s'.loop = none ∧ s'.worker = s.worker ∧ s'.broker = s.broker.basicPublish pb self req uuid := by
  have hstep : s.step pb (.request conn (.basicPublish req)) =
      some { s with loop := some { self, req, rest := s.broker.targets ep req } } := by
    simp only [step, hidle, Option.isSome_none, Bool.false_eq_true, if_false, onRequest, hconn, Request.cid, hself, onChannel,
      startPublish, hep]
  obtain ⟨s', hrun, hloop, hworker, hbroker⟩ := run_publishActs pb self req uuid (s.broker.targets ep req)
    { s with loop := some { self, req, rest := s.broker.targets ep req } } rfl
  refine ⟨s', by rw [run, hstep]; exact hrun, hloop, hworker, ?_⟩
  simp only [hbroker, Broker.basicPublish, hep]

end Sys
end HareMQ
