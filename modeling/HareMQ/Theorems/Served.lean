import HareMQ.BrokerServer
import HareMQ.Lib.Run
import HareMQ.Theorems.Host
import HareMQ.Theorems.Pending

/-! # Every queue has its storage

In every reachable state of the server the tables mirror the maps, every declared queue has a storage object, and the
references in a storage object are its own. SQL statements succeed; file operations may fail. -/

namespace HareMQ
open Lib

/-! ### Storage objects -/

namespace MessageManager
variable {pb : PayloadCodec} {m m' : MessageManager} {qname msgId : String} {d d' : Disk}

def Bounded (m : MessageManager) : Prop := ∀ ⦃qname q⦄, m.queueMsgs.lookup qname = some q → q.Bounded

/-- An operation on the contents of the queues. -/
structure Kept (m m' : MessageManager) : Prop where
  mem : ∀ qname, qname ∈ m'.queueMsgs ↔ qname ∈ m.queueMsgs
  bounded : m.Bounded → m'.Bounded

theorem Kept.refl (m : MessageManager) : Kept m m := ⟨fun _ => Iff.rfl, id⟩

theorem bounded_put (hm : m.Bounded) {q : QueueMessage} (hq : q.Bounded) (qname : String) : (m.put qname q).Bounded := by
  intro qname' q' hq'
  rw [put, UMap.lookup_insert] at hq'
  split at hq'
  · cases hq'
    exact hq
  · exact hm hq'

theorem Kept.put {q q' : QueueMessage} (hlookup : m.queueMsgs.lookup qname = some q) (hq : q.Bounded → q'.Bounded) :
    Kept m (m.put qname q') where
  mem qname' := by
    rw [MessageManager.put, AList.mem_insert, or_iff_right_iff_imp]
    rintro rfl
    exact UMap.mem_of_lookup hlookup
  bounded hm := bounded_put hm (hq (hm hlookup)) qname

theorem insert_kept (m : MessageManager) (qname : String) (bp : Option BasicProperties) (uuid body : String)
    (queueDurable : Bool) (d : Disk) : Kept m (m.insert pb qname bp uuid body queueDurable d).2.1 := by
  unfold insert
  split
  · exact Kept.refl m
  · next q hq =>
    obtain ⟨ok, q', d', hins⟩ : ∃ ok q' d', q.insert pb bp uuid body queueDurable d = (ok, q', d') := ⟨_, _, _, rfl⟩
    rw [hins]
    refine Kept.put hq fun hb => ?_
    rcases QueueMessage.insert_cases hins with ⟨-, rfl⟩ | ⟨-, happ⟩
    · exact hb
    · exact happ.bounded hb

theorem front_kept (m : MessageManager) (qname : String) : Kept m (m.front qname).2 := by
  unfold front
  split
  · exact Kept.refl m
  · next q hq => exact Kept.put hq QueueMessage.Bounded.front

theorem ack_kept (hack : m.ack pb qname msgId d = some (m', d')) : Kept m m' := by
  unfold ack at hack
  split at hack
  · cases hack
    exact Kept.refl m
  · next q hq =>
    split at hack
    · cases hack
    · next q' d₁ hrem =>
      cases hack
      exact Kept.put hq (QueueMessage.remove_cases hrem).1

theorem mutableProperties_kept (m : MessageManager) (qname : String) (r : Ref) : Kept m (m.mutableProperties qname r) := by
  unfold mutableProperties
  split
  · exact Kept.refl m
  · next q hq => exact Kept.put hq id

variable (pb) in
theorem recovery_bounded (mapper : MessageMapper) (d : Disk) :
    (({ mapper } : QueueMessage).recovery pb d).1.Bounded :=
  (QueueMessage.foldl_adopt_keeps (mapper.gc pb d).1 { mapper } nofun).2.2

theorem initQueueMsg_cases (hinit : m.initQueueMsg pb qname d = some (m', d')) :
    (∀ qname', qname' ∈ m'.queueMsgs ↔ qname' = qname ∨ qname' ∈ m.queueMsgs) ∧ (m.Bounded → m'.Bounded) := by
  unfold initQueueMsg at hinit
  split at hinit
  · next q hq =>
    cases hinit
    refine ⟨fun qname' => (or_iff_right_of_imp ?_).symm, id⟩
    rintro rfl
    exact UMap.mem_of_lookup hq
  · split at hinit
    · cases hinit
    · next mapper d₁ hnew =>
      cases hinit
      refine ⟨fun qname' => UMap.mem_emplace, fun hm qname' q' hq' => ?_⟩
      rcases UMap.lookup_emplace_eq_some hq' with hq' | ⟨-, -, rfl⟩
      · exact hm hq'
      · exact recovery_bounded pb mapper d₁

theorem destroyQueueMsg_cases (m : MessageManager) (qname : String) (d : Disk) :
    (∀ qname', qname' ∈ (m.destroyQueueMsg qname d).1.queueMsgs ↔ qname' ≠ qname ∧ qname' ∈ m.queueMsgs) ∧
      (m.Bounded → (m.destroyQueueMsg qname d).1.Bounded) := by
  unfold destroyQueueMsg
  split
  · next hq =>
    refine ⟨fun qname' => (and_iff_right_of_imp ?_).symm, id⟩
    rintro hmem rfl
    exact AList.lookup_eq_none.mp hq hmem
  · exact ⟨fun qname' => AList.mem_erase, fun hm qname' q' hq' => hm (UMap.lookup_erase_eq_some hq').2⟩

theorem initAll_cases : ∀ (qnames : List String) {m m' : MessageManager} {d d' : Disk},
    VirtualHost.initAll pb m d qnames = some (m', d') →
    (∀ qname', qname' ∈ m'.queueMsgs ↔ qname' ∈ qnames ∨ qname' ∈ m.queueMsgs) ∧ (m.Bounded → m'.Bounded)
  | [], m, m', d, d', h => by
    cases h
    simp
  | qname :: qnames, m, m', d, d', h => by
    rw [VirtualHost.initAll] at h
    split at h
    · cases h
    · next m₁ d₁ hinit =>
      obtain ⟨hmem₁, hb₁⟩ := initQueueMsg_cases hinit
      obtain ⟨hmem, hb⟩ := initAll_cases qnames h
      refine ⟨fun qname' => ?_, fun hm => hb (hb₁ hm)⟩
      rw [hmem, hmem₁, List.mem_cons]
      tauto

end MessageManager

/-! ### Hosts -/

namespace VirtualHost
variable {pb : PayloadCodec} {h h' : VirtualHost} {basedir dbfile : String}

structure Served (h : VirtualHost) : Prop where
  mirrored : h.Mirrored
  stored : ∀ qname, (h.mqmp.selectQueue qname).isSome → qname ∈ h.mmp.queueMsgs
  bounded : h.mmp.Bounded

/-- What does not touch the metadata. -/
theorem Served.storage (hs : h.Served) {mmp : MessageManager} (hmmp : h.mmp.Kept mmp) (disk : Disk) :
    ({ h with mmp, disk } : VirtualHost).Served where
  mirrored := ⟨hs.mirrored.ready, hs.mirrored.linked, hs.mirrored.mirror⟩
  stored qname hq := (hmmp.mem qname).mpr (hs.stored qname hq)
  bounded := hmmp.bounded hs.bounded

/-- A declared queue is in the catalog. -/
theorem selectQueue_isSome (h : VirtualHost) (qname : String) :
    (h.mqmp.selectQueue qname).isSome = (h.catalog.objects (.queue qname)).isSome := Option.isSome_map.symm

/-- An operation on exchanges or bindings. -/
theorem Served.of_mirrored (hs : h.Served) (hm : h'.Mirrored) (hmmp : h'.mmp = h.mmp)
    (hqueues : ∀ qname, (h'.catalog.objects (.queue qname)).isSome = (h.catalog.objects (.queue qname)).isSome) :
    h'.Served where
  mirrored := hm
  stored qname hq := by
    rw [selectQueue_isSome, hqueues, ← selectQueue_isSome] at hq
    rw [hmmp]
    exact hs.stored qname hq
  bounded := hmmp ▸ hs.bounded

theorem Served.declareExchange (hs : h.Served) (name : String) (type : ExchangeType) (durable autoDelete : Bool)
    (args : UMap String String) : (h.declareExchange name type durable autoDelete args).2.Served :=
  hs.of_mirrored (hs.mirrored.declareExchange ..) rfl fun _ => rfl

theorem Served.deleteExchange (hs : h.Served) (name : String) : (h.deleteExchange name).Served :=
  hs.of_mirrored (hs.mirrored.deleteExchange name) rfl fun qname => by
    rw [catalog_deleteExchange, Catalog.objects_delete_ne (by simp)]

theorem Served.bind (hs : h.Served) (ename qname key : String) : (h.bind ename qname key).2.Served := by
  obtain ⟨hcat, hm⟩ := hs.mirrored.bind ename qname key
  refine hs.of_mirrored hm ?_ fun qname => by rw [hcat]; rfl
  unfold VirtualHost.bind
  split
  · rfl
  · split <;> rfl

theorem Served.unbind (hs : h.Served) (ename qname : String) : (h.unbind ename qname).Served :=
  hs.of_mirrored (hs.mirrored.unbind ename qname) rfl fun qname => by rw [catalog_unbind]; rfl

theorem Served.declareQueue (hs : h.Served) {qname : String} {qdurable qexclusive qautoDelete : Bool}
    {qargs : UMap String String} {ok : Bool}
    (hdecl : h.declareQueue pb qname qdurable qexclusive qautoDelete qargs = some (ok, h')) : h'.Served := by
  obtain ⟨hcat, hm⟩ := hs.mirrored.declareQueue hdecl
  unfold VirtualHost.declareQueue at hdecl
  split at hdecl
  · cases hdecl
  · next mmp disk hinit =>
    cases hdecl
    obtain ⟨hmem, hbounded⟩ := MessageManager.initQueueMsg_cases hinit
    refine ⟨hm, fun qname' hq' => (hmem qname').mpr ?_, hbounded hs.bounded⟩
    rw [selectQueue_isSome, hcat] at hq'
    by_cases hname : qname' = qname
    · exact Or.inl hname
    · rw [Catalog.objects_declare_ne (by simpa using hname), ← selectQueue_isSome] at hq'
      exact Or.inr (hs.stored qname' hq')

theorem Served.deleteQueue (hs : h.Served) (name : String) : (h.deleteQueue name).Served := by
  obtain ⟨hmem, hbounded⟩ := h.mmp.destroyQueueMsg_cases name h.disk
  refine ⟨hs.mirrored.deleteQueue name, fun qname hq => (hmem qname).mpr ?_, hbounded hs.bounded⟩
  rw [selectQueue_isSome, catalog_deleteQueue] at hq
  by_cases hname : qname = name
  · subst hname
    rw [Catalog.objects_delete_self] at hq
    cases hq
  · rw [Catalog.objects_delete_ne (by simpa using hname), ← selectQueue_isSome] at hq
    exact ⟨hname, hs.stored qname hq⟩

theorem Served.basicPublish (hs : h.Served) (qname : String) (bp : Option BasicProperties) (uuid body : String) :
    (h.basicPublish pb qname bp uuid body).2.Served := by
  unfold VirtualHost.basicPublish
  split
  · exact hs
  · exact hs.storage (h.mmp.insert_kept ..) _

theorem Served.basicConsume (hs : h.Served) (qname : String) : (h.basicConsume qname).2.Served :=
  hs.storage (h.mmp.front_kept qname) h.disk

theorem Served.basicAck (hs : h.Served) {qname msgId : String} (hack : h.basicAck pb qname msgId = some h') : h'.Served := by
  unfold VirtualHost.basicAck at hack
  split at hack
  · cases hack
  · next mmp disk hmmp =>
    cases hack
    exact hs.storage (MessageManager.ack_kept hmmp) disk

/-- A start on tables that hold what some catalog keeps over a restart. -/
theorem new_served {d : Disk} {db : Db} (hcalm : db.Calm) {c : Metadata} (hdb : db.catalog = c.restart Info.durable)
    (hnew : new pb basedir dbfile d db = some h) : h.Served := by
  obtain ⟨d', -, heq⟩ := new_eq pb basedir dbfile d hcalm
  have hnew' := hnew
  rw [heq, Option.map_eq_some_iff] at hnew'
  obtain ⟨⟨mmp, disk⟩, hinit, rfl⟩ := hnew'
  obtain ⟨hmem, hbounded⟩ := MessageManager.initAll_cases _ hinit
  refine ⟨(new_mirrored hcalm hdb hnew).2, fun qname hq => (hmem qname).mpr (Or.inl ?_), hbounded nofun⟩
  exact AList.mem_keys.mp (AList.lookup_isSome.mp hq)

end VirtualHost
/-! ### The server -/

namespace Broker
variable {b : Broker}

theorem destroy_host (b : Broker) (self : ChannelRef) : (b.destroy self).host = b.host := by
  unfold destroy
  split <;> rfl

theorem foldl_destroy_host : ∀ (entries : List (Sigma fun _ : String => ChannelRef)) (b : Broker),
    (entries.foldl (fun b e => b.destroy e.2) b).host = b.host
  | [], _ => rfl
  | e :: entries, b => (foldl_destroy_host entries (b.destroy e.2)).trans (b.destroy_host e.2)

theorem deleteConnection_host (b : Broker) (conn : ConnRef) : (b.deleteConnection conn).host = b.host := by
  unfold deleteConnection
  split
  · rfl
  · exact foldl_destroy_host _ _

theorem openChannel_host (b : Broker) (conn : ConnRef) (channels : ChannelManager) (req : OpenChannelRequest) :
    (b.openChannel conn channels req).host = b.host := by
  unfold openChannel
  split <;> rfl

theorem closeChannel_host (b : Broker) (conn : ConnRef) (channels : ChannelManager) (req : CloseChannelRequest) :
    (b.closeChannel conn channels req).host = b.host := by
  unfold closeChannel
  cases channels.lookup req.cid with
  | none => rfl
  | some self => exact destroy_host _ self

theorem basicConsume_host (b : Broker) (self : ChannelRef) (req : BasicConsumeRequest) :
    (b.basicConsume self req).host = b.host := by
  unfold basicConsume
  split <;> rfl

end Broker

namespace Sys
variable {pb : PayloadCodec} {s s' : Sys} {act : Act}

theorem noteDeclared_broker (s : Sys) (qname : String) (broker : Broker) : (s.noteDeclared qname broker).broker = broker := by
  unfold noteDeclared
  split <;> rfl

theorem noteDeleted_broker (s : Sys) (qname : String) (broker : Broker) : (s.noteDeleted qname broker).broker = broker := by
  unfold noteDeleted
  split <;> rfl

/-- What a request does to the server. -/
inductive Requested (pb : PayloadCodec) (s : Sys) (conn : ConnRef) : Request → Sys → Prop
  | unknown {req : Request} (hconn : s.broker.conns.lookup conn = none) : Requested pb s conn req s
  | opens {channels : UMap String ChannelRef} {req : OpenChannelRequest} (hconn : s.broker.conns.lookup conn = some channels) :
    Requested pb s conn (.openChannel req) (s.handle (s.broker.openChannel conn channels req))
  | closes {channels : UMap String ChannelRef} {req : CloseChannelRequest} (hconn : s.broker.conns.lookup conn = some channels) :
    Requested pb s conn (.closeChannel req) (s.handle (s.broker.closeChannel conn channels req))
  | unserved {channels : UMap String ChannelRef} {req : Request} (hconn : s.broker.conns.lookup conn = some channels)
      (hopen : ∀ r, req ≠ .openChannel r) (hclose : ∀ r, req ≠ .closeChannel r) (hself : channels.lookup req.cid = none) :
    Requested pb s conn req s
  | served {channels : UMap String ChannelRef} {req : Request} {self : ChannelRef} {s' : Sys}
      (hconn : s.broker.conns.lookup conn = some channels) (hopen : ∀ r, req ≠ .openChannel r)
      (hclose : ∀ r, req ≠ .closeChannel r) (hself : channels.lookup req.cid = some self)
      (hstep : s.onChannel pb self req = some s') : Requested pb s conn req s'

theorem requested {conn : ConnRef} {req : Request} (hstep : s.onRequest pb conn req = some s') :
    Requested pb s conn req s' := by
  unfold onRequest at hstep
  split at hstep
  · next hconn =>
    cases hstep
    exact .unknown hconn
  · next channels hconn =>
    split at hstep
    · cases hstep
      exact .opens hconn
    · cases hstep
      exact .closes hconn
    · next hopen hclose =>
      split at hstep
      · next hself =>
        cases hstep
        exact .unserved hconn hopen hclose hself
      · next self hself => exact .served hconn hopen hclose hself hstep

/-- What an acknowledgement on a channel does. -/
theorem onChannel_basicAck {self : ChannelRef} {req : BasicAckRequest}
    (hstep : s.onChannel pb self (.basicAck req) = some s') :
    ∃ host, s.broker.host.basicAck pb req.queueName req.messageId = some host ∧
      s' = s.handle ({ s.broker with host }.basicResponse self true req.rid req.cid) := by
  obtain ⟨broker, hack, rfl⟩ := Option.map_eq_some_iff.mp hstep
  unfold Broker.basicAck at hack
  split at hack
  · cases hack
  · next host hhost =>
    cases hack
    exact ⟨host, hhost, rfl⟩

theorem onChannel_basicQuery {self : ChannelRef} {req : BasicQueryRequest}
    (hstep : s.onChannel pb self (.basicQuery req) = some s') :
    ∃ body, s.broker.host.basicQuery = some body ∧
      s' = s.handle (s.broker.send (s.broker.channels self).conn
        (.basicQueryResponse req.rid (s.broker.channels self).cid body)) := by
  obtain ⟨broker, hquery, rfl⟩ := Option.map_eq_some_iff.mp hstep
  unfold Broker.basicQuery at hquery
  split at hquery
  · cases hquery
  · next body hbody =>
    cases hquery
    exact ⟨body, hbody, rfl⟩

theorem onChannel_served (hs : s.broker.host.Served) {self : ChannelRef} {req : Request}
    (hstep : s.onChannel pb self req = some s') : s'.broker.host.Served := by
  cases req with
  | openChannel req => cases hstep; exact hs
  | closeChannel req => cases hstep; exact hs
  | declareExchange req => cases hstep; exact hs.declareExchange ..
  | deleteExchange req => cases hstep; exact hs.deleteExchange _
  | declareQueue req =>
    obtain ⟨broker, hdecl, rfl⟩ := Option.map_eq_some_iff.mp hstep
    rw [noteDeclared_broker]
    unfold Broker.declareQueue at hdecl
    split at hdecl
    · cases hdecl
    · next hhost => cases hdecl; exact hs.declareQueue hhost
    · next hhost => cases hdecl; exact hs.declareQueue hhost
  | deleteQueue req =>
    cases hstep
    rw [noteDeleted_broker]
    exact hs.deleteQueue _
  | bind req => cases hstep; exact hs.bind ..
  | unbind req => cases hstep; exact hs.unbind ..
  | basicPublish req =>
    cases hstep
    unfold startPublish
    split <;> exact hs
  | basicAck req =>
    rcases onChannel_basicAck hstep with ⟨host, hhost, rfl⟩
    exact hs.basicAck hhost
  | basicConsume req =>
    cases hstep
    rw [handle, Broker.basicConsume_host]
    exact hs
  | basicCancel req => cases hstep; exact hs
  | basicQuery req =>
    rcases onChannel_basicQuery hstep with ⟨body, -, rfl⟩
    exact hs

theorem onRequest_served (hs : s.broker.host.Served) {conn : ConnRef} {req : Request}
    (hstep : s.onRequest pb conn req = some s') : s'.broker.host.Served := by
  cases requested hstep with
  | unknown hconn => exact hs
  | opens hconn =>
    rw [handle, Broker.openChannel_host]
    exact hs
  | closes hconn =>
    rw [handle, Broker.closeChannel_host]
    exact hs
  | unserved hconn hopen hclose hself => exact hs
  | served hconn hopen hclose hself hstep => exact onChannel_served hs hstep

theorem publishStep_served (hs : s.broker.host.Served) (p : Publishing) (uuid : String) :
    (s.publishStep pb p uuid).broker.host.Served := by
  unfold publishStep
  split
  · exact hs
  · split
    · exact hs
    · exact hs.basicPublish ..

/-- What a step of the worker does. -/
inductive Worked (pb : PayloadCodec) (s : Sys) : Sys → Prop
  | swap {pool : ThreadPool Task} (hworker : s.worker = .idle) (htmp : s.broker.pool.tmp = [])
      (hswap : s.broker.pool.swap = some pool) : Worked pb s (s.handle { s.broker with pool })
  | start {task : Task} {tmp : List Task} (hworker : s.worker = .idle) (htmp : s.broker.pool.tmp = task :: tmp) :
    Worked pb s { s with broker := { s.broker with pool := { s.broker.pool with tmp } }, worker := .started task }
  | consume {task : Task} (hworker : s.worker = .started task) : Worked pb s (s.consume task)
  | choose {task : Task} {m : MsgObject} {payload : Payload} (hworker : s.worker = .fetched task m payload) :
    Worked pb s (s.choose task m payload)
  | call {task : Task} {m : MsgObject} {payload : Payload} {c : Consumer} (hworker : s.worker = .chosen task m payload c) :
    Worked pb s (s.call task m payload c)
  | ack {task : Task} {m : MsgObject} {payload : Payload} {c : Consumer} {host : VirtualHost}
      (hworker : s.worker = .called task m payload c) (hauto : c.autoAck = true)
      (hack : s.broker.host.basicAck pb task.qname payload.id = some host) :
    Worked pb s { s with broker := { s.broker with host }, worker := .idle }
  | keep {task : Task} {m : MsgObject} {payload : Payload} {c : Consumer} (hworker : s.worker = .called task m payload c)
      (hauto : ¬c.autoAck = true) : Worked pb s { s with worker := .idle }

theorem worked (hstep : s.work pb = some s') : Worked pb s s' := by
  unfold work at hstep
  split at hstep
  · next hworker =>
    unfold take at hstep
    split at hstep
    · next htmp =>
      obtain ⟨pool, hswap, rfl⟩ := Option.map_eq_some_iff.mp hstep
      exact .swap hworker htmp hswap
    · next htmp =>
      cases hstep
      exact .start hworker htmp
  · next hworker =>
    cases hstep
    exact .consume hworker
  · next hworker =>
    cases hstep
    exact .choose hworker
  · next hworker =>
    cases hstep
    exact .call hworker
  · next hworker =>
    unfold autoAck at hstep
    split at hstep
    · next hauto =>
      obtain ⟨host, hack, rfl⟩ := Option.map_eq_some_iff.mp hstep
      exact .ack hworker hauto hack
    · next hauto =>
      cases hstep
      exact .keep hworker hauto

theorem work_served (hs : s.broker.host.Served) (hstep : s.work pb = some s') : s'.broker.host.Served := by
  cases worked hstep with
  | swap hworker htmp hswap => exact hs
  | start hworker htmp => exact hs
  | @consume task hworker =>
    have h := hs.basicConsume task.qname
    unfold consume
    split <;> simp_all
  | choose hworker =>
    unfold choose
    split <;> exact hs
  | @call _ m _ _ hworker =>
    have hkept : s.broker.host.mmp.Kept (if s.epochs m.key = m.epoch then
        s.broker.host.mmp.mutableProperties m.key m.ref else s.broker.host.mmp) := by
      split
      · exact MessageManager.mutableProperties_kept ..
      · exact MessageManager.Kept.refl _
    exact hs.storage hkept s.broker.host.disk
  | ack hworker hauto hack => exact hs.basicAck hack
  | keep hworker hauto => exact hs

theorem boot_served {basedir : String} {d : Disk} {db : Db} (hcalm : db.Calm) {c : Metadata}
    (hdb : db.catalog = c.restart Info.durable) (hboot : boot pb basedir d db = some s) : s.broker.host.Served := by
  unfold boot at hboot
  split at hboot
  · cases hboot
  · next host hnew =>
    cases hboot
    exact VirtualHost.new_served hcalm hdb hnew

theorem step_served (hs : s.broker.host.Served) (hstep : s.step pb act = some s') : s'.broker.host.Served := by
  cases act with
  | connect conn =>
    simp only [step, Option.ite_none_left_eq_some, Option.some.injEq] at hstep
    rw [← hstep.2]
    exact hs
  | disconnect conn =>
    simp only [step, Option.ite_none_left_eq_some, Option.some.injEq] at hstep
    rw [← hstep.2, handle, Broker.deleteConnection_host]
    exact hs
  | request conn req =>
    simp only [step, Option.ite_none_left_eq_some] at hstep
    exact onRequest_served hs hstep.2
  | publish uuid =>
    obtain ⟨p, -, rfl⟩ := Option.map_eq_some_iff.mp hstep
    exact publishStep_served hs p uuid
  | work => exact work_served hs hstep
  | restart => exact boot_served hs.mirrored.ready.calm hs.mirrored.mirror hstep

theorem run_eq_run (pb : PayloadCodec) (s : Sys) (acts : List Act) : s.run pb acts = Lib.run (step pb) s acts := by
  induction acts generalizing s with
  | nil => rfl
  | cons act acts ih =>
    rw [run, Lib.run]
    cases s.step pb act with
    | none => rfl
    | some s' => exact ih s'

theorem run_served {acts : List Act} (hs : s.broker.host.Served) (hrun : s.run pb acts = some s') :
    s'.broker.host.Served := by
  rw [run_eq_run] at hrun
  exact run_induct (fun _ _ _ => step_served) hs hrun

/-- A state that some run reaches from an empty database. The files are arbitrary. -/
def Reachable (pb : PayloadCodec) (s : Sys) : Prop :=
  ∃ basedir d s₀ acts, boot pb basedir d {} = some s₀ ∧ s₀.run pb acts = some s

theorem Reachable.served (h : Reachable pb s) : s.broker.host.Served := by
  obtain ⟨basedir, d, s₀, acts, hboot, hrun⟩ := h
  have hcalm : ({} : Db).Calm := rfl
  exact run_served (boot_served hcalm vacant_catalog hboot) hrun

end Sys
end HareMQ
