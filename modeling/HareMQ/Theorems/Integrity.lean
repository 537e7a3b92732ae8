import HareMQ.Theorems.HostActs
import HareMQ.Theorems.Publish

/-! # Referential integrity

Bindings join exchanges and queues that exist, in the maps between two requests and in the tables at any moment, and the
three maps over queues have the same keys. -/

namespace HareMQ
open Lib

/-! ### The tables -/

namespace Db
variable {db : Db}

/-- Every row of the binding table has its exchange row and its queue row. -/
def Referenced (db : Db) : Prop :=
  ∀ row ∈ db.bindingTable.getD [], (∃ x ∈ db.exchangeTable.getD [], x.name = row.exchangeName) ∧
    ∃ x ∈ db.queueTable.getD [], x.name = row.msgQueueName

theorem referenced_of_linked (hlinked : db.catalog.Linked) : db.Referenced := by
  intro row hrow
  have hlink : (db.catalog.links (.exchange row.exchangeName) (.queue row.msgQueueName)).isSome := by
    simp only [catalog, Option.isSome_map, List.find?_isSome]
    exact ⟨row, hrow, joins_iff.mpr ⟨rfl, rfl⟩⟩
  rcases Option.isSome_iff_exists.mp hlink with ⟨bp, hbp⟩
  rcases hlinked hbp with ⟨he, hq⟩
  simp only [catalog, Option.isSome_map, List.find?_isSome, decide_eq_true_eq] at he hq
  exact ⟨he, hq⟩

/-- What a process may leave behind: tables that a start reads back as they are. -/
structure Kept (db : Db) : Prop where
  calm : db.Calm
  restarted : ∃ c : Metadata, db.catalog = c.restart Info.durable

theorem Kept.referenced (h : db.Kept) : db.Referenced := by
  rcases h.restarted with ⟨c, hc⟩
  exact referenced_of_linked (hc ▸ Catalog.linked_restart Info.durable c)

/-- The constructors of the managers create the tables that are missing. -/
theorem Kept.startImages (h : db.Kept) {image : Db} (himage : image ∈ db.startImages) : image.Kept := by
  have hopen : ∀ {db db' : Db} {create : Db → Option Db}, db.Calm → create db = some db' →
      (db.openFile.2.exec create).2 = db' := fun hcalm hcreate => by
    rw [Db.openFile, hcalm.exec_some rfl, hcalm.exec_some hcreate]
  let db₁ : Db := { db with exchangeTable := some (db.exchangeTable.getD []) }
  let db₂ : Db := { db₁ with queueTable := some (db.queueTable.getD []) }
  let db₃ : Db := { db₂ with bindingTable := some (db.bindingTable.getD []) }
  have hcalm₁ : db₁.Calm := h.calm
  have hcalm₂ : db₂.Calm := h.calm
  have hopen₁ : (db.openFile.2.exec Db.createExchangeTable).2 = db₁ := hopen h.calm rfl
  have hopen₂ : (db₁.openFile.2.exec Db.createQueueTable).2 = db₂ := hopen hcalm₁ rfl
  have hopen₃ : (db₂.openFile.2.exec Db.createBindingTable).2 = db₃ := hopen hcalm₂ rfl
  have himages : db.startImages = [db, db₁, db₂, db₃] := by
    rw [Db.startImages, hopen₁, hcalm₁.query, hopen₂, hcalm₂.query, hopen₃]
  rw [himages] at himage
  simp only [List.mem_cons, List.not_mem_nil, or_false] at himage
  rcases himage with rfl | rfl | rfl | rfl
  · exact h
  · exact ⟨h.calm, h.restarted⟩
  · exact ⟨h.calm, h.restarted⟩
  · exact ⟨h.calm, h.restarted⟩

theorem vacant_kept : ({} : Db).Kept := ⟨rfl, {}, vacant_catalog⟩

end Db

namespace VirtualHost
variable {pb : PayloadCodec} {h h' : VirtualHost} {basedir dbfile : String}

theorem Mirrored.kept (hm : h.Mirrored) : h.db.Kept := ⟨hm.ready.calm, h.catalog, hm.mirror⟩

/-- The bindings of an object are deleted before the object, so that the tables stay linked in between. -/
theorem Mirrored.kept_isolated (hm : h.Mirrored) {dropped : Db} {i : Name}
    (hdropped : dropped.Ready ∧ dropped.catalog.objects = h.db.catalog.objects ∧
      ∀ a b, dropped.catalog.links a b = if a = i ∨ b = i then none else h.db.catalog.links a b) : dropped.Kept where
  calm := hdropped.1.calm
  restarted := by
    refine ⟨h.catalog.isolate i, ?_⟩
    rw [Catalog.restart_isolate, ← hm.mirror]
    exact Catalog.ext (fun a => congrFun hdropped.2.1 a) hdropped.2.2

theorem Mirrored.images_kept (hm : h.Mirrored) {op : HostOp} {db : Db} (hdb : db ∈ h.images pb op) : db.Kept := by
  cases op with
  | declareExchange name type durable autoDelete args =>
    simp only [images, List.mem_cons, List.not_mem_nil, or_false] at hdb
    rcases hdb with rfl | rfl
    · exact hm.kept
    · exact (hm.declareExchange name type durable autoDelete args).kept
  | deleteExchange name =>
    simp only [images, List.mem_cons, List.not_mem_nil, or_false] at hdb
    rcases hdb with rfl | rfl | rfl
    · exact hm.kept
    · exact hm.kept_isolated (Db.exec_deleteBindings hm.ready (fun row => row.exchangeName = name)
        (fun i j => i = .exchange name ∨ j = .exchange name) fun row => by simp)
    · exact (hm.deleteExchange name).kept
  | declareQueue qname qdurable qexclusive qautoDelete qargs =>
    rcases List.mem_cons.mp hdb with rfl | hdb
    · exact hm.kept
    · rcases Option.map_eq_some_iff.mp (Option.mem_toList.mp hdb) with ⟨⟨ok, h'⟩, hdecl, rfl⟩
      exact (hm.declareQueue hdecl).2.kept
  | deleteQueue name =>
    simp only [images, List.mem_cons, List.not_mem_nil, or_false] at hdb
    rcases hdb with rfl | rfl | rfl
    · exact hm.kept
    · exact hm.kept_isolated (Db.exec_deleteBindings hm.ready (fun row => row.msgQueueName = name)
        (fun i j => i = .queue name ∨ j = .queue name) fun row => by simp)
    · exact (hm.deleteQueue name).kept
  | bind ename qname key =>
    simp only [images, List.mem_cons, List.not_mem_nil, or_false] at hdb
    rcases hdb with rfl | rfl
    · exact hm.kept
    · exact (hm.bind ename qname key).2.kept
  | unbind ename qname =>
    simp only [images, List.mem_cons, List.not_mem_nil, or_false] at hdb
    rcases hdb with rfl | rfl
    · exact hm.kept
    · exact (hm.unbind ename qname).kept
  | restart => exact hm.kept.startImages hdb

/-! ### The maps over queues -/

/-- The names of the queues after an operation on the host. -/
def queuesAfter (act : HostAct) (queues : String → Prop) (qname : String) : Prop :=
  match act with
  | .op (.declareQueue name _ _ _ _) => qname = name ∨ queues qname
  | .op (.deleteQueue name) => qname ≠ name ∧ queues qname
  | _ => queues qname

/-- A declared queue is in the catalog. -/
theorem mem_msgQueues (h : VirtualHost) (qname : String) :
    qname ∈ h.mqmp.msgQueues ↔ (h.catalog.objects (.queue qname)).isSome := by
  rw [← selectQueue_isSome, MsgQueueManager.selectQueue, AList.lookup_isSome]

theorem mem_msgQueues_act (hm : h.Mirrored) {act : HostAct} (hact : act ≠ .op .restart)
    (hstep : h.act pb basedir dbfile act = some h') (qname : String) :
    qname ∈ h'.mqmp.msgQueues ↔ queuesAfter act (· ∈ h.mqmp.msgQueues) qname := by
  have hsame : h'.mqmp = h.mqmp → (qname ∈ h'.mqmp.msgQueues ↔ qname ∈ h.mqmp.msgQueues) := fun heq => by rw [heq]
  cases act with
  | idle => cases hstep; exact Iff.rfl
  | op op =>
    rcases step_mirrored hm hstep with ⟨hcat, -⟩
    rw [mem_msgQueues, hcat]
    cases op with
    | declareExchange name type durable autoDelete args =>
      rw [HostOp.effect, Catalog.objects_declare_ne (by simp)]
      exact (mem_msgQueues h qname).symm
    | deleteExchange name =>
      rw [HostOp.effect, Catalog.objects_delete_ne (by simp)]
      exact (mem_msgQueues h qname).symm
    | declareQueue name qdurable qexclusive qautoDelete qargs =>
      rw [HostOp.effect, queuesAfter]
      by_cases hname : qname = name
      · subst hname
        simp [Catalog.declare]
      · rw [Catalog.objects_declare_ne (by simpa using hname), ← mem_msgQueues, or_iff_right hname]
    | deleteQueue name =>
      rw [HostOp.effect, queuesAfter]
      by_cases hname : qname = name
      · subst hname
        simp [Catalog.objects_delete_self]
      · rw [Catalog.objects_delete_ne (by simpa using hname), ← mem_msgQueues, and_iff_right hname]
    | bind ename name key => exact (mem_msgQueues h qname).symm
    | unbind ename name => exact (mem_msgQueues h qname).symm
    | restart => exact absurd rfl hact
  | publish name bp uuid body =>
    cases hstep
    refine hsame ?_
    unfold basicPublish
    split <;> rfl
  | consume name => cases hstep; exact Iff.rfl
  | ack name msgId =>
    refine hsame ?_
    rw [act, basicAck] at hstep
    split at hstep
    · cases hstep
    · cases hstep; rfl
  | touch name r => cases hstep; exact Iff.rfl

/-- A queue has its storage from its declaration to its deletion. -/
theorem mem_queueMsgs_act {act : HostAct} (hact : act ≠ .op .restart)
    (hstep : h.act pb basedir dbfile act = some h') (qname : String) :
    qname ∈ h'.mmp.queueMsgs ↔ queuesAfter act (· ∈ h.mmp.queueMsgs) qname := by
  have hsame : h'.mmp = h.mmp → (qname ∈ h'.mmp.queueMsgs ↔ qname ∈ h.mmp.queueMsgs) := fun heq => by rw [heq]
  cases act with
  | idle => cases hstep; exact Iff.rfl
  | op op =>
    cases op with
    | declareExchange name type durable autoDelete args => cases hstep; exact Iff.rfl
    | deleteExchange name => cases hstep; exact Iff.rfl
    | declareQueue name qdurable qexclusive qautoDelete qargs =>
      rcases Option.map_eq_some_iff.mp hstep with ⟨⟨ok, h₁⟩, hdecl, rfl⟩
      unfold declareQueue at hdecl
      split at hdecl
      · cases hdecl
      · next mmp disk hinit =>
        cases hdecl
        exact (MessageManager.initQueueMsg_cases hinit).1 qname
    | deleteQueue name =>
      cases hstep
      exact (h.mmp.destroyQueueMsg_cases name h.disk).1 qname
    | bind ename name key =>
      cases hstep
      refine hsame ?_
      unfold bind
      split
      · rfl
      · split <;> rfl
    | unbind ename name => cases hstep; exact Iff.rfl
    | restart => exact absurd rfl hact
  | publish name bp uuid body =>
    cases hstep
    unfold basicPublish
    split
    · exact Iff.rfl
    · exact (MessageManager.insert_kept ..).mem qname
  | consume name => cases hstep; exact (MessageManager.front_kept ..).mem qname
  | ack name msgId =>
    rw [act, basicAck] at hstep
    split at hstep
    · cases hstep
    · next hack =>
      cases hstep
      exact (MessageManager.ack_kept hack).mem qname
  | touch name r => cases hstep; exact (MessageManager.mutableProperties_kept ..).mem qname

/-- A start finds the messages of every queue that it finds in the table. -/
theorem mem_queueMsgs_new {d : Disk} {db : Db} (hcalm : db.Calm) (hnew : new pb basedir dbfile d db = some h)
    (qname : String) : qname ∈ h.mmp.queueMsgs ↔ qname ∈ h.mqmp.msgQueues := by
  rcases new_eq pb basedir dbfile d hcalm with ⟨d', -, heq⟩
  rw [heq, Option.map_eq_some_iff] at hnew
  rcases hnew with ⟨⟨mmp, disk⟩, hinit, rfl⟩
  rw [show (loaded db (mmp, disk)).mmp = mmp from rfl, (MessageManager.initAll_cases _ hinit).1, AList.mem_keys]
  exact or_iff_left (AList.notMem_empty qname)

end VirtualHost

/-! ### The map over the consumers of queues -/

namespace ConsumerManager
variable {m : ConsumerManager} {qname : String}

theorem mem_insert_of_lookup {name : String} {qcp qcp' : QueueConsumer} (hlookup : m.queueConsumers.lookup name = some qcp) :
    qname ∈ m.queueConsumers.insert name qcp' ↔ qname ∈ m.queueConsumers := by
  rw [AList.mem_insert, or_iff_right_iff_imp]
  rintro rfl
  exact UMap.mem_of_lookup hlookup

theorem mem_create (ctag queueName : String) (ackFlag : Bool) (cb : ChannelRef) :
    qname ∈ (m.create ctag queueName ackFlag cb).2.queueConsumers ↔ qname ∈ m.queueConsumers := by
  unfold create
  split
  · exact Iff.rfl
  · next hlookup => exact mem_insert_of_lookup hlookup

theorem mem_remove (ctag queueName : String) :
    qname ∈ (m.remove ctag queueName).queueConsumers ↔ qname ∈ m.queueConsumers := by
  unfold remove
  split
  · exact Iff.rfl
  · next hlookup => exact mem_insert_of_lookup hlookup

theorem mem_choose (queueName : String) : qname ∈ (m.choose queueName).2.queueConsumers ↔ qname ∈ m.queueConsumers := by
  unfold choose
  split
  · exact Iff.rfl
  · next hlookup => exact mem_insert_of_lookup hlookup

/-- The loop of the constructor of the server. -/
theorem mem_foldl_initQueueConsumer : ∀ (qnames : List String) (m : ConsumerManager),
    qname ∈ (qnames.foldl initQueueConsumer m).queueConsumers ↔ qname ∈ qnames ∨ qname ∈ m.queueConsumers
  | [], m => by simp
  | name :: qnames, m => by
    rw [List.foldl_cons, mem_foldl_initQueueConsumer, initQueueConsumer, UMap.mem_emplace, List.mem_cons]
    tauto

end ConsumerManager

namespace Registry
variable {r : Registry} {qname : String}

theorem mem_destroy (self : ChannelRef) :
    qname ∈ (r.destroy self).consumers.queueConsumers ↔ qname ∈ r.consumers.queueConsumers := by
  unfold destroy
  split
  · exact Iff.rfl
  · exact ConsumerManager.mem_remove _ _

theorem mem_foldl_destroy (entries : List (Sigma fun _ : String => ChannelRef)) (r : Registry) :
    qname ∈ (entries.foldl (fun r e => r.destroy e.2) r).consumers.queueConsumers ↔ qname ∈ r.consumers.queueConsumers := by
  induction entries generalizing r with
  | nil => exact Iff.rfl
  | cons e entries ih => rw [List.foldl_cons, ih, mem_destroy]

/-- The names of the queues after an operation on the registry. -/
def queuesAfter (op : RegistryOp) (queues : String → Prop) (qname : String) : Prop :=
  match op with
  | .declareQueue name => qname = name ∨ queues qname
  | .deleteQueue name => qname ≠ name ∧ queues qname
  | _ => queues qname

theorem mem_queueConsumers_apply (op : RegistryOp) :
    qname ∈ (r.apply op).consumers.queueConsumers ↔ queuesAfter op (· ∈ r.consumers.queueConsumers) qname := by
  cases op with
  | idle => exact Iff.rfl
  | connect conn => exact Iff.rfl
  | disconnect conn =>
    unfold apply
    dsimp only
    split
    · exact Iff.rfl
    · exact mem_foldl_destroy _ _
  | openChannel conn cid =>
    unfold apply
    dsimp only
    split
    · exact Iff.rfl
    · split <;> exact Iff.rfl
  | closeChannel conn cid =>
    unfold apply
    dsimp only
    split
    · exact Iff.rfl
    · split
      · exact Iff.rfl
      · exact mem_destroy _
  | declareQueue name => exact UMap.mem_emplace
  | deleteQueue name => exact AList.mem_erase
  | subscribe conn cid ctag name autoAck =>
    unfold apply
    dsimp only
    split
    · exact Iff.rfl
    · exact ConsumerManager.mem_create _ _ _ _
  | cancel ctag name => exact ConsumerManager.mem_remove _ _
  | choose name => exact ConsumerManager.mem_choose _

end Registry

/-! ### The server -/

namespace Sys
variable {pb : PayloadCodec} {s s' : Sys} {act : Act}

/-- Under the conditions of a running server a queue is always declared, so that its consumers are set up too. -/
theorem declareQueue_ok {h h' : VirtualHost} (hm : h.Mirrored) {qname : String} {qdurable qexclusive qautoDelete ok : Bool}
    {qargs : UMap String String} (hdecl : h.declareQueue pb qname qdurable qexclusive qautoDelete qargs = some (ok, h')) :
    ok = true := by
  have hmem : qname ∈ h'.mqmp.msgQueues := by
    rw [VirtualHost.mem_msgQueues, (hm.declareQueue hdecl).1]
    simp [Catalog.declare]
  unfold VirtualHost.declareQueue at hdecl
  split at hdecl
  · cases hdecl
  · unfold MsgQueueManager.declareQueue at hdecl
    cases hlookup : h.mqmp.msgQueues.lookup qname with
    | some qptr =>
      simp only [hlookup, Option.some.injEq, Prod.mk.injEq] at hdecl
      exact hdecl.1.symm
    | none =>
      by_contra hok
      have hsame : h'.mqmp = h.mqmp := by
        simp only [hlookup] at hdecl
        split at hdecl
        · split at hdecl
          · cases hdecl
            rfl
          · cases hdecl
            exact absurd rfl hok
        · cases hdecl
          exact absurd rfl hok
      rw [hsame] at hmem
      exact AList.lookup_eq_none.mp hlookup hmem

/-- What a step adds to the maps of the host, it adds to the consumers, and what it takes from them, it takes from the
    consumers. -/
theorem queuesAfter_eq (hm : s.broker.host.Mirrored) (hstep : s.step pb act = some s') (queues : String → Prop)
    (qname : String) :
    Registry.queuesAfter (s.registryOp pb act) queues qname ↔ VirtualHost.queuesAfter (s.hostAct act) queues qname := by
  cases act with
  | connect conn => exact Iff.rfl
  | disconnect conn => exact Iff.rfl
  | publish uuid =>
    unfold hostAct
    dsimp only
    split
    · exact Iff.rfl
    · split
      · exact Iff.rfl
      · split <;> exact Iff.rfl
  | work =>
    unfold registryOp hostAct
    dsimp only
    split <;> split <;> first | exact Iff.rfl | (split <;> exact Iff.rfl)
  | restart => exact Iff.rfl
  | request conn req =>
    cases hself : s.broker.registry.channelAt conn req.cid with
    | none =>
      cases req <;> simp only [registryOp, hostAct, Request.cid] at hself ⊢ <;> simp only [hself] <;> exact Iff.rfl
    | some self =>
      cases req with
      | declareQueue req =>
        have hhost := host_step hstep
        simp only [hostAct, hself, Request.hostAct, Request.hostOp, Option.map_some, Option.getD_some, VirtualHost.act,
          VirtualHost.step] at hhost
        rcases Option.map_eq_some_iff.mp hhost with ⟨⟨ok, h'⟩, hdecl, -⟩
        obtain rfl := declareQueue_ok hm hdecl
        simp only [registryOp, hostAct, Request.cid, channelOp, hdecl] at hself ⊢
        simp only [hself]
        exact Iff.rfl
      | basicConsume req =>
        simp only [registryOp, hostAct, Request.cid, channelOp] at hself ⊢
        simp only [hself]
        split <;> exact Iff.rfl
      | _ =>
        simp only [registryOp, hostAct, Request.cid] at hself ⊢
        simp only [hself]
        exact Iff.rfl

/-- The maps over queues have the same keys. -/
structure Keyed (b : Broker) : Prop where
  stored : ∀ qname, qname ∈ b.host.mmp.queueMsgs ↔ qname ∈ b.host.mqmp.msgQueues
  rostered : ∀ qname, qname ∈ b.consumers.queueConsumers ↔ qname ∈ b.host.mqmp.msgQueues

theorem boot_keyed {basedir : String} {d : Disk} {db : Db} (hcalm : db.Calm) (hboot : boot pb basedir d db = some s) :
    Keyed s.broker := by
  refine ⟨VirtualHost.mem_queueMsgs_new hcalm (host_boot hboot), fun qname => ?_⟩
  unfold boot at hboot
  split at hboot
  · cases hboot
  · cases hboot
    rw [ConsumerManager.mem_foldl_initQueueConsumer, AList.mem_keys]
    exact or_iff_left (AList.notMem_empty qname)

theorem step_keyed (hm : s.broker.host.Mirrored) (hs : Keyed s.broker) (hstep : s.step pb act = some s') :
    Keyed s'.broker := by
  by_cases hact : act = .restart
  · subst hact
    exact boot_keyed hm.ready.calm hstep
  · have hne : s.hostAct act ≠ .op .restart := by
      intro heq
      cases act with
      | restart => exact hact rfl
      | request conn req =>
        unfold hostAct at heq
        dsimp only at heq
        split at heq
        · cases heq
        · cases req <;> cases heq
      | publish uuid =>
        unfold hostAct at heq
        dsimp only at heq
        split at heq
        · cases heq
        · split at heq
          · cases heq
          · split at heq <;> cases heq
      | work =>
        unfold hostAct at heq
        dsimp only at heq
        split at heq
        · cases heq
        · split at heq <;> cases heq
        · split at heq <;> cases heq
        · cases heq
      | _ => cases heq
    have hhost := host_step hstep
    have hqueues := VirtualHost.mem_msgQueues_act hm hne hhost
    refine ⟨fun qname => ?_, fun qname => ?_⟩
    · rw [hqueues, VirtualHost.mem_queueMsgs_act hne hhost, funext fun qname => propext (hs.stored qname)]
    · have hregistry : s'.broker.consumers = (s.broker.registry.apply (s.registryOp pb act)).consumers :=
        congrArg Registry.consumers (registry_step hstep hact)
      have hrostered : (· ∈ s.broker.registry.consumers.queueConsumers) = (· ∈ s.broker.host.mqmp.msgQueues) :=
        funext fun qname => propext (hs.rostered qname)
      rw [hqueues, hregistry, Registry.mem_queueConsumers_apply, hrostered]
      exact queuesAfter_eq hm hstep _ qname

/-- Bindings have their ends, and queues have their messages and their consumers. -/
structure Integral (b : Broker) : Prop where
  ends : ∀ {ename qname bp}, b.host.bmp.getBinding ename qname = some bp →
    ename ∈ b.host.emp.exchanges ∧ qname ∈ b.host.mqmp.msgQueues
  keyed : Keyed b

theorem integral_of_mirrored (hm : s.broker.host.Mirrored) (hs : Keyed s.broker) : Integral s.broker where
  ends := by
    intro ename qname bp hbp
    have hlink : s.broker.host.catalog.links (.exchange ename) (.queue qname) = some bp := hbp
    rcases hm.linked hlink with ⟨he, hq⟩
    refine ⟨?_, (VirtualHost.mem_msgQueues _ qname).mpr hq⟩
    simp only [VirtualHost.catalog, Option.isSome_map] at he
    exact AList.lookup_isSome.mp he
  keyed := hs

/-! ### Runs with stops -/

theorem images_kept (hm : s.broker.host.Mirrored) {db : Db} (hdb : db ∈ s.images pb act) : db.Kept := by
  have hhost : db ∈ [s.broker.host.db] → db.Kept := fun hdb => by
    rw [List.mem_singleton.mp hdb]
    exact hm.kept
  cases act with
  | request conn req =>
    unfold images at hdb
    dsimp only at hdb
    split at hdb
    · exact hm.images_kept hdb
    · exact hhost hdb
  | restart =>
    have hdb : db ∈ s.broker.host.images pb .restart := hdb
    exact hm.images_kept hdb
  | connect conn => exact hhost hdb
  | disconnect conn => exact hhost hdb
  | publish uuid => exact hhost hdb
  | work => exact hhost hdb

theorem incident_mirrored {i : Incident} (hs : s.broker.host.Served ∧ Keyed s.broker) (hstep : s.incident pb i = some s') :
    s'.broker.host.Served ∧ Keyed s'.broker := by
  rcases hs with ⟨hserved, hkeyed⟩
  cases i with
  | act act => exact ⟨step_served hserved hstep, step_keyed hserved.mirrored hkeyed hstep⟩
  | stop act n d =>
    unfold incident at hstep
    dsimp only at hstep
    split at hstep
    · cases hstep
    · next db hdb =>
      have hkept := images_kept hserved.mirrored (List.mem_of_getElem? hdb)
      rcases hkept.restarted with ⟨c, hc⟩
      exact ⟨boot_served hkept.calm hc hstep, boot_keyed hkept.calm hstep⟩

/-- In every run from an empty database, whenever the process stops and whatever files it leaves: references are sound in
    memory in every state, and in the database before, inside and after every step that comes next. -/
theorem run_integral {basedir : String} {d : Disk} {db : Db} {s₀ : Sys} {is : List Incident}
    (hdb : db ∈ ({} : Db).startImages) (hboot : boot pb basedir d db = some s₀)
    (hrun : Lib.run (incident pb) s₀ is = some s) :
    Integral s.broker ∧ ∀ act, ∀ db ∈ s.images pb act, db.Referenced := by
  have hkept := Db.vacant_kept.startImages hdb
  rcases hkept.restarted with ⟨c, hc⟩
  have hstart := And.intro (boot_served hkept.calm hc hboot) (boot_keyed hkept.calm hboot)
  rcases run_induct (fun _ _ _ => incident_mirrored) hstart hrun with ⟨hserved, hkeyed⟩
  exact ⟨integral_of_mirrored hserved.mirrored hkeyed, fun act db hdb => (images_kept hserved.mirrored hdb).referenced⟩

/-- The process stops in `delete_exchange` after the bindings of the exchange were deleted. -/
def interrupted : List Incident :=
  bound.map .act ++ [.stop (.request 1 (.deleteExchange ⟨"7", "c", "e"⟩)) 1 Store.vacant]

/-- The durable exchange and queue are back after it, and the binding is not. -/
theorem run_integral_interrupted : ∃ s₀ s : Sys, boot protobuf "data" Store.vacant {} = some s₀ ∧
    Lib.run (incident protobuf) s₀ interrupted = some s ∧ "e" ∈ s.broker.host.emp.exchanges ∧
    s.broker.host.mqmp.msgQueues.keys = ["q"] ∧ s.broker.host.bmp.getBinding "e" "q" = none ∧
    Integral s.broker ∧ ∀ act, ∀ db ∈ s.images protobuf act, db.Referenced := by
  have hrun : (boot protobuf "data" Store.vacant {}).any (fun s₀ =>
      (Lib.run (incident protobuf) s₀ interrupted).any fun s => decide ("e" ∈ s.broker.host.emp.exchanges) &&
        decide (s.broker.host.mqmp.msgQueues.keys = ["q"]) && decide (s.broker.host.bmp.getBinding "e" "q" = none)) = true := by
    decide +kernel
  rcases (Option.any_eq_true _ _).mp hrun with ⟨s₀, hboot, hs₀⟩
  rcases (Option.any_eq_true _ _).mp hs₀ with ⟨s, hs, hend⟩
  simp only [Bool.and_eq_true, decide_eq_true_eq] at hend
  rcases hend with ⟨⟨hexchange, hqueues⟩, hbinding⟩
  exact ⟨s₀, s, hboot, hs, hexchange, hqueues, hbinding, run_integral (List.mem_cons_self ..) hboot hs⟩

end Sys
end HareMQ
