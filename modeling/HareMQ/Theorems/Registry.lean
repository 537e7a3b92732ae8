import HareMQ.Theorems.Roster
import HareMQ.Theorems.Served

/-! # Connections, channels and consumers

The part of the server that says who is connected, which channels are open and who has subscribed. Every step of the
server is one operation on it. A channel that is open is open on one connection under one id. -/

namespace HareMQ
open Lib

/-! ### The registry -/

structure Registry where
  consumers : ConsumerManager
  channels : ChannelRef → Channel
  next : ChannelRef
  conns : UMap ConnRef ChannelManager

/-- What one step of the server does to the registry. -/
inductive RegistryOp
  | idle
  | connect (conn : ConnRef)
  | disconnect (conn : ConnRef)
  | openChannel (conn : ConnRef) (cid : String)
  | closeChannel (conn : ConnRef) (cid : String)
  | declareQueue (qname : String)
  | deleteQueue (qname : String)
  | subscribe (conn : ConnRef) (cid ctag qname : String) (autoAck : Bool)
  | cancel (ctag qname : String)
  | choose (qname : String)

namespace Registry
variable (r : Registry)

def channelAt (conn : ConnRef) (cid : String) : Option ChannelRef := (r.conns.lookup conn).bind (·.lookup cid)

/-- The channel has not been erased from its `channel_manager`, nor that with its connection. -/
def Open (self : ChannelRef) : Prop := ∃ conn cid, r.channelAt conn cid = some self

def openChannels : List ChannelRef := r.conns.entries.flatMap fun e => e.2.entries.map (·.2)

/-- The destructor of a channel. -/
def destroy (self : ChannelRef) : Registry :=
  match (r.channels self).consumer with
  | none => r
  | some consumer => { r with consumers := r.consumers.remove consumer.tag consumer.qname }

def apply : RegistryOp → Registry
  | .idle => r
  | .connect conn => { r with conns := r.conns.emplace conn ∅ }
  | .disconnect conn =>
    match r.conns.lookup conn with
    | none => r
    | some channels => channels.entries.foldl (fun r e => r.destroy e.2) { r with conns := r.conns.erase conn }
  | .openChannel conn cid =>
    match r.conns.lookup conn with
    | none => r
    | some channels =>
      if cid ∈ channels then r
      else
        { r with
          channels := Function.update r.channels r.next { cid, conn }
          next := r.next + 1
          conns := r.conns.insert conn (channels.insert cid r.next) }
  | .closeChannel conn cid =>
    match r.conns.lookup conn with
    | none => r
    | some channels =>
      let erased := { r with conns := r.conns.insert conn (channels.erase cid) }
      match channels.lookup cid with
      | none => erased
      | some self => erased.destroy self
  | .declareQueue qname => { r with consumers := r.consumers.initQueueConsumer qname }
  | .deleteQueue qname => { r with consumers := r.consumers.destroyQueueConsumer qname }
  | .subscribe conn cid ctag qname autoAck =>
    match r.channelAt conn cid with
    | none => r
    | some self =>
      match r.consumers.create ctag qname autoAck self with
      | (consumer, consumers) =>
        { r with consumers, channels := Function.update r.channels self { r.channels self with consumer } }
  | .cancel ctag qname => { r with consumers := r.consumers.remove ctag qname }
  | .choose qname => { r with consumers := (r.consumers.choose qname).2 }

theorem channelAt_of_lookup {r : Registry} {conn : ConnRef} {channels : ChannelManager}
    (hconn : r.conns.lookup conn = some channels) (cid : String) : r.channelAt conn cid = channels.lookup cid := by
  rw [channelAt, hconn, Option.bind_some]

end Registry

/-! ### The server as a registry -/

def Broker.registry (b : Broker) : Registry where
  consumers := b.consumers
  channels := b.channels
  next := b.next
  conns := b.conns

namespace Broker

theorem registry_destroy (b : Broker) (self : ChannelRef) : (b.destroy self).registry = b.registry.destroy self := by
  have hslot : b.registry.channels self = b.channels self := rfl
  rw [destroy, Registry.destroy, hslot]
  cases (b.channels self).consumer <;> rfl

theorem registry_foldl_destroy (entries : List (Sigma fun _ : String => ChannelRef)) (b : Broker) :
    (entries.foldl (fun b e => b.destroy e.2) b).registry = entries.foldl (fun r e => r.destroy e.2) b.registry := by
  induction entries generalizing b with
  | nil => rfl
  | cons e entries ih => rw [List.foldl_cons, List.foldl_cons, ih, registry_destroy]

theorem registry_deleteConnection (b : Broker) (conn : ConnRef) :
    (b.deleteConnection conn).registry = b.registry.apply (.disconnect conn) := by
  have hconns : b.registry.conns = b.conns := rfl
  simp only [deleteConnection, Registry.apply, hconns]
  cases b.conns.lookup conn with
  | none => rfl
  | some channels => exact registry_foldl_destroy _ _

theorem registry_openChannel {b : Broker} {conn : ConnRef} {channels : ChannelManager}
    (hconn : b.conns.lookup conn = some channels) (req : OpenChannelRequest) :
    (b.openChannel conn channels req).registry = b.registry.apply (.openChannel conn req.cid) := by
  have hconn' : b.registry.conns.lookup conn = some channels := hconn
  simp only [openChannel, Registry.apply, hconn']
  by_cases hcid : req.cid ∈ channels
  · rw [if_pos hcid, if_pos hcid]
    rfl
  · rw [if_neg hcid, if_neg hcid]
    rfl

theorem registry_closeChannel {b : Broker} {conn : ConnRef} {channels : ChannelManager}
    (hconn : b.conns.lookup conn = some channels) (req : CloseChannelRequest) :
    (b.closeChannel conn channels req).registry = b.registry.apply (.closeChannel conn req.cid) := by
  have hsend : ∀ (b : Broker) (conn : ConnRef) (resp : Response), (b.send conn resp).registry = b.registry := fun _ _ _ => rfl
  have hconn' : b.registry.conns.lookup conn = some channels := hconn
  rw [closeChannel, hsend]
  simp only [Registry.apply, hconn']
  cases channels.lookup req.cid with
  | none => rfl
  | some self => exact registry_destroy _ self

end Broker

namespace Sys
variable {pb : PayloadCodec} {s s' : Sys} {act : Act}

/-- What a request to an open channel does to the registry. -/
def channelOp (pb : PayloadCodec) (s : Sys) (conn : ConnRef) : Request → RegistryOp
  | .declareQueue req =>
    match s.broker.host.declareQueue pb req.queueName req.durable req.exclusive req.autoDelete req.args with
    | some (true, _) => .declareQueue req.queueName
    | _ => .idle
  | .deleteQueue req => .deleteQueue req.queueName
  | .basicConsume req =>
    if s.broker.host.existsQueue req.queueName then .subscribe conn req.cid req.consumerTag req.queueName req.autoAck
    else .idle
  | .basicCancel req => .cancel req.consumerTag req.queueName
  | _ => .idle

def registryOp (pb : PayloadCodec) (s : Sys) : Act → RegistryOp
  | .connect conn => .connect conn
  | .disconnect conn => .disconnect conn
  | .request conn (.openChannel req) => .openChannel conn req.cid
  | .request conn (.closeChannel req) => .closeChannel conn req.cid
  | .request conn req =>
    match s.broker.registry.channelAt conn req.cid with
    | none => .idle
    | some _ => s.channelOp pb conn req
  | .work =>
    match s.worker with
    | .fetched task _ _ => .choose task.qname
    | _ => .idle
  | _ => .idle

theorem registry_onChannel {self : ChannelRef} {conn : ConnRef} {req : Request}
    (hself : s.broker.registry.channelAt conn req.cid = some self) (hstep : s.onChannel pb self req = some s') :
    s'.broker.registry = s.broker.registry.apply (s.channelOp pb conn req) := by
  cases req with
  | openChannel req => cases hstep; rfl
  | closeChannel req => cases hstep; rfl
  | declareExchange req => cases hstep; rfl
  | deleteExchange req => cases hstep; rfl
  | declareQueue req =>
    rcases Option.map_eq_some_iff.mp hstep with ⟨broker, hdecl, rfl⟩
    rw [noteDeclared_broker]
    unfold Broker.declareQueue at hdecl
    split at hdecl
    · cases hdecl
    · next hhost =>
      cases hdecl
      simp only [channelOp, hhost]
      rfl
    · next hhost =>
      cases hdecl
      simp only [channelOp, hhost]
      rfl
  | deleteQueue req =>
    cases hstep
    rw [noteDeleted_broker]
    rfl
  | bind req => cases hstep; rfl
  | unbind req => cases hstep; rfl
  | basicPublish req =>
    cases hstep
    unfold startPublish
    split <;> rfl
  | basicAck req =>
    rcases onChannel_basicAck hstep with ⟨host, -, rfl⟩
    rfl
  | basicConsume req =>
    cases hstep
    have hself : s.broker.registry.channelAt conn req.cid = some self := hself
    simp only [handle, Broker.basicConsume, channelOp]
    split
    · simp only [Registry.apply, hself]
      rfl
    · rfl
  | basicCancel req => cases hstep; rfl
  | basicQuery req =>
    rcases onChannel_basicQuery hstep with ⟨body, -, rfl⟩
    rfl

theorem registry_onRequest {conn : ConnRef} {req : Request} (hstep : s.onRequest pb conn req = some s') :
    s'.broker.registry = s.broker.registry.apply (s.registryOp pb (.request conn req)) := by
  have hother : ∀ channels, s.broker.conns.lookup conn = some channels → (∀ r, req ≠ .openChannel r) →
      (∀ r, req ≠ .closeChannel r) → s.registryOp pb (.request conn req) =
        ((channels.lookup req.cid).map fun _ => s.channelOp pb conn req).getD .idle := by
    intro channels hconn hopen hclose
    rw [← Registry.channelAt_of_lookup (r := s.broker.registry) hconn req.cid]
    cases req with
    | openChannel req => exact absurd rfl (hopen req)
    | closeChannel req => exact absurd rfl (hclose req)
    | _ =>
      unfold registryOp
      dsimp only
      split <;> simp only [*, Option.map_none, Option.map_some, Option.getD_none, Option.getD_some]
  cases requested hstep with
  | unknown hconn =>
    have hat : ∀ cid, s.broker.registry.channelAt conn cid = none := by
      intro cid
      simp only [Registry.channelAt, Broker.registry, hconn, Option.bind_none]
    have hlookup : s.broker.registry.conns.lookup conn = none := hconn
    cases req <;> simp only [registryOp, Registry.apply, hat, hlookup]
  | opens hconn => exact Broker.registry_openChannel hconn _
  | closes hconn => exact Broker.registry_closeChannel hconn _
  | unserved hconn hopen hclose hself =>
    rw [hother _ hconn hopen hclose, hself]
    rfl
  | served hconn hopen hclose hself hstep =>
    rw [hother _ hconn hopen hclose, hself]
    exact registry_onChannel ((Registry.channelAt_of_lookup (r := s.broker.registry) hconn _).trans hself) hstep

/-- A step of the server is one operation on the registry. -/
theorem registry_step (hstep : s.step pb act = some s') (hact : act ≠ .restart) :
    s'.broker.registry = s.broker.registry.apply (s.registryOp pb act) := by
  cases act with
  | connect conn =>
    simp only [step, Option.ite_none_left_eq_some, Option.some.injEq] at hstep
    rw [← hstep.2]
    rfl
  | disconnect conn =>
    simp only [step, Option.ite_none_left_eq_some, Option.some.injEq] at hstep
    rw [← hstep.2]
    exact Broker.registry_deleteConnection _ conn
  | request conn req =>
    simp only [step, Option.ite_none_left_eq_some] at hstep
    exact registry_onRequest hstep.2
  | publish uuid =>
    rcases Option.map_eq_some_iff.mp hstep with ⟨p, -, rfl⟩
    unfold publishStep
    split
    · rfl
    · split <;> rfl
  | work =>
    have hstep : s.work pb = some s' := hstep
    unfold registryOp
    cases worked hstep with
    | swap hworker htmp hswap =>
      rw [hworker]
      rfl
    | start hworker htmp =>
      rw [hworker]
      rfl
    | consume hworker =>
      rw [hworker]
      unfold consume
      split <;> rfl
    | choose hworker =>
      rw [hworker]
      unfold choose Registry.apply
      dsimp only
      split
      · next heq =>
        simp only [Broker.registry, heq]
      · next heq =>
        simp only [Broker.registry, heq]
    | call hworker =>
      rw [hworker]
      rfl
    | ack hworker hauto hack =>
      rw [hworker]
      rfl
    | keep hworker hauto =>
      rw [hworker]
      rfl
  | restart => exact absurd rfl hact

end Sys

/-! ### What an operation keeps -/

namespace Registry
variable {r : Registry} {conn : ConnRef} {cid : String} {self : ChannelRef}

/-- Channel objects are not shared, and new ones are new. -/
structure Sound (r : Registry) : Prop where
  filed : r.consumers.Filed
  fresh : ∀ {conn cid self}, r.channelAt conn cid = some self → self < r.next
  single : ∀ {conn cid conn' cid' self}, r.channelAt conn cid = some self → r.channelAt conn' cid' = some self →
    conn = conn' ∧ cid = cid'

theorem mem_openChannels : self ∈ r.openChannels ↔ r.Open self := by
  simp only [openChannels, List.mem_flatMap, List.mem_map, Open, channelAt, Option.bind_eq_some_iff]
  constructor
  · rintro ⟨⟨conn, channels⟩, hconn, ⟨cid, self⟩, hself, rfl⟩
    exact ⟨conn, cid, channels, UMap.mem_entries_iff.mp hconn, UMap.mem_entries_iff.mp hself⟩
  · rintro ⟨conn, cid, channels, hconn, hself⟩
    exact ⟨⟨conn, channels⟩, UMap.mem_entries_iff.mpr hconn, ⟨cid, self⟩, UMap.mem_entries_iff.mpr hself, rfl⟩

/-- The slots are the same; a destructor changes the consumers only. -/
structure SameChannels (r r' : Registry) : Prop where
  channels : r'.channels = r.channels
  next : r'.next = r.next
  conns : r'.conns = r.conns

theorem destroy_same (r : Registry) (self : ChannelRef) : SameChannels r (r.destroy self) := by
  unfold destroy
  split <;> exact ⟨rfl, rfl, rfl⟩

theorem foldl_destroy_same (entries : List (Sigma fun _ : String => ChannelRef)) (r : Registry) :
    SameChannels r (entries.foldl (fun r e => r.destroy e.2) r) := by
  induction entries generalizing r with
  | nil => exact ⟨rfl, rfl, rfl⟩
  | cons e entries ih =>
    have h₁ := r.destroy_same e.2
    have h₂ := ih (r.destroy e.2)
    exact ⟨h₂.channels.trans h₁.channels, h₂.next.trans h₁.next, h₂.conns.trans h₁.conns⟩

/-- The destructor of the channel would remove the consumer: the slot holds its tag and its queue. -/
def holds (r : Registry) (self : ChannelRef) (c : Consumer) : Bool :=
  (r.channels self).consumer.any fun own => own.tag = c.tag && own.qname = c.qname

theorem SameChannels.holds {r' : Registry} (h : SameChannels r r') (self : ChannelRef) (c : Consumer) :
    r'.holds self c = r.holds self c := by
  rw [Registry.holds, h.channels, Registry.holds]

theorem filed_destroy (hr : r.consumers.Filed) (self : ChannelRef) : (r.destroy self).consumers.Filed ∧
    ∀ c, (r.destroy self).consumers.Registered c ↔ r.consumers.Registered c ∧ r.holds self c = false := by
  unfold destroy holds
  cases (r.channels self).consumer with
  | none => exact ⟨hr, fun c => (and_iff_left rfl).symm⟩
  | some own =>
    rcases ConsumerManager.filed_remove hr own.tag own.qname with ⟨hfiled, hreg⟩
    refine ⟨hfiled, fun c => (hreg c).trans (and_congr_right' ?_)⟩
    simp only [Option.any_some, Bool.and_eq_false_iff, decide_eq_false_iff_not]
    constructor
    · intro hkey
      by_cases htag : own.tag = c.tag
      · exact Or.inr fun hname => hkey ⟨htag.symm, hname.symm⟩
      · exact Or.inl htag
    · rintro hkey ⟨htag, hname⟩
      exact hkey.elim (fun h => h htag.symm) fun h => h hname.symm

theorem filed_foldl_destroy : ∀ (entries : List (Sigma fun _ : String => ChannelRef)) {r : Registry}, r.consumers.Filed →
    (entries.foldl (fun r e => r.destroy e.2) r).consumers.Filed ∧
      ∀ c, (entries.foldl (fun r e => r.destroy e.2) r).consumers.Registered c ↔
        r.consumers.Registered c ∧ ∀ e ∈ entries, r.holds e.2 c = false := by
  intro entries
  induction entries with
  | nil => exact fun hr => ⟨hr, fun c => (and_iff_left (fun _ he => nomatch he)).symm⟩
  | cons e entries ih =>
    intro r hr
    rcases filed_destroy hr e.2 with ⟨hfiled, hreg⟩
    rcases ih hfiled with ⟨hfiled', hreg'⟩
    refine ⟨hfiled', fun c => ?_⟩
    have hholds : ∀ e' ∈ entries, (r.destroy e.2).holds e'.2 c = r.holds e'.2 c :=
      fun e' _ => (r.destroy_same e.2).holds e'.2 c
    rw [List.foldl_cons, hreg', hreg, and_assoc, List.forall_mem_cons]
    exact and_congr_right' (and_congr_right' (forall₂_congr fun e' he' => by rw [hholds e' he']))

/-- What an operation does to the consumers. -/
def Kept (r : Registry) (c : Consumer) : RegistryOp → Prop
  | .disconnect conn => ∀ channels, r.conns.lookup conn = some channels → ∀ e ∈ channels.entries, r.holds e.2 c = false
  | .closeChannel conn cid => ∀ self, r.channelAt conn cid = some self → r.holds self c = false
  | .deleteQueue qname => c.qname ≠ qname
  | .cancel ctag qname => ¬(c.tag = ctag ∧ c.qname = qname)
  | _ => True

/-- The consumer that an operation may create. -/
def Created (r : Registry) (c : Consumer) : RegistryOp → Prop
  | .subscribe conn cid ctag qname autoAck => c.tag = ctag ∧ c.qname = qname ∧ c.autoAck = autoAck ∧
    r.channelAt conn cid = some c.callback ∧ qname ∈ r.consumers.queueConsumers ∧
    ∀ c', r.consumers.Registered c' → ¬(c'.tag = ctag ∧ c'.qname = qname)
  | _ => False

theorem consumers_apply (hr : r.consumers.Filed) (op : RegistryOp) : (r.apply op).consumers.Filed ∧
    ∀ c, (r.apply op).consumers.Registered c ↔ (r.consumers.Registered c ∧ r.Kept c op) ∨ r.Created c op := by
  cases op with
  | idle => exact ⟨hr, fun c => by simp [apply, Kept, Created]⟩
  | connect conn => exact ⟨hr, fun c => by simp [apply, Kept, Created]⟩
  | disconnect conn =>
    cases hconn : r.conns.lookup conn with
    | none =>
      simp only [apply, hconn]
      exact ⟨hr, fun c => by simp [Kept, Created, hconn]⟩
    | some channels =>
      simp only [apply, hconn]
      rcases filed_foldl_destroy channels.entries (r := { r with conns := r.conns.erase conn }) hr with ⟨hfiled, hreg⟩
      refine ⟨hfiled, fun c => (hreg c).trans ?_⟩
      simp [Kept, Created, hconn, holds]
  | openChannel conn cid =>
    have hsame : (r.apply (.openChannel conn cid)).consumers = r.consumers := by
      unfold apply
      dsimp only
      split
      · rfl
      · split <;> rfl
    rw [hsame]
    exact ⟨hr, fun c => by simp [Kept, Created]⟩
  | closeChannel conn cid =>
    cases hconn : r.conns.lookup conn with
    | none =>
      simp only [apply, hconn]
      exact ⟨hr, fun c => by simp [Kept, Created, channelAt, hconn]⟩
    | some channels =>
      cases hcid : channels.lookup cid with
      | none =>
        simp only [apply, hconn, hcid]
        exact ⟨hr, fun c => by simp [Kept, Created, channelAt, hconn, hcid]⟩
      | some self =>
        simp only [apply, hconn, hcid]
        rcases filed_destroy (r := { r with conns := r.conns.insert conn (channels.erase cid) }) hr self with ⟨hfiled, hreg⟩
        refine ⟨hfiled, fun c => (hreg c).trans ?_⟩
        simp [Kept, Created, channelAt, hconn, hcid, holds]
  | declareQueue qname =>
    rcases ConsumerManager.filed_initQueueConsumer hr qname with ⟨hfiled, hreg⟩
    exact ⟨hfiled, fun c => (hreg c).trans (by simp [Kept, Created])⟩
  | deleteQueue qname =>
    rcases ConsumerManager.filed_destroyQueueConsumer hr qname with ⟨hfiled, hreg⟩
    exact ⟨hfiled, fun c => (hreg c).trans (by simp [Kept, Created])⟩
  | subscribe conn cid ctag qname autoAck =>
    cases hself : r.channelAt conn cid with
    | none =>
      simp only [apply, hself]
      exact ⟨hr, fun c => by simp [Kept, Created, hself]⟩
    | some self =>
      simp only [apply, hself]
      rcases ConsumerManager.create_cases hr ctag qname autoAck self with
        ⟨hfiled, ⟨-, htaken, hreg⟩ | ⟨-, hmem, hfree, hreg⟩⟩
      · refine ⟨hfiled, fun c => (hreg c).trans ?_⟩
        simp only [Kept, Created, and_true]
        refine (or_iff_left ?_).symm
        rintro ⟨-, -, -, -, hmem, hfree⟩
        rcases htaken with hnotin | ⟨c', hc', hkey⟩
        · exact hnotin hmem
        · exact hfree c' hc' hkey
      · refine ⟨hfiled, fun c => (hreg c).trans ?_⟩
        simp only [Kept, Created, and_true, hself, Option.some.injEq]
        refine or_congr_right ⟨?_, ?_⟩
        · rintro rfl
          exact ⟨rfl, rfl, rfl, rfl, hmem, hfree⟩
        · rintro ⟨htag, hname, hack, hcb, -⟩
          rcases c with ⟨tag, qname', ack, cb⟩
          simp only at htag hname hack hcb
          rw [htag, hname, hack, hcb]
  | cancel ctag qname =>
    rcases ConsumerManager.filed_remove hr ctag qname with ⟨hfiled, hreg⟩
    exact ⟨hfiled, fun c => (hreg c).trans (by simp [Kept, Created])⟩
  | choose qname =>
    rcases ConsumerManager.choose_cases hr qname with ⟨hfiled, hreg, -⟩
    exact ⟨hfiled, fun c => (hreg c).trans (by simp [Kept, Created])⟩

/-- The channels after an operation. -/
theorem channelAt_apply (r : Registry) (op : RegistryOp) (conn' : ConnRef) (cid' : String) :
    (r.apply op).channelAt conn' cid' = match op with
      | .disconnect conn => if conn' = conn then none else r.channelAt conn' cid'
      | .openChannel conn cid =>
        if conn' = conn ∧ cid' = cid ∧ conn ∈ r.conns ∧ r.channelAt conn cid = none then some r.next
        else r.channelAt conn' cid'
      | .closeChannel conn cid => if conn' = conn ∧ cid' = cid then none else r.channelAt conn' cid'
      | _ => r.channelAt conn' cid' := by
  cases op with
  | idle => rfl
  | connect conn =>
    simp only [apply, channelAt, UMap.lookup_emplace]
    cases hconn : r.conns.lookup conn' with
    | some channels => rfl
    | none =>
      simp only [Option.none_or, Option.bind_none]
      split <;> rfl
  | disconnect conn =>
    cases hconn : r.conns.lookup conn with
    | none =>
      simp only [apply, hconn]
      split
      · next heq => rw [heq, channelAt, hconn, Option.bind_none]
      · rfl
    | some channels =>
      simp only [apply, hconn, channelAt, (foldl_destroy_same _ _).conns, UMap.lookup_erase]
      split <;> rfl
  | openChannel conn cid =>
    cases hconn : r.conns.lookup conn with
    | none =>
      have hnotin : conn ∉ r.conns := AList.lookup_eq_none.mp hconn
      simp only [apply, hconn, hnotin, false_and, and_false, if_false]
    | some channels =>
      have hmem : conn ∈ r.conns := UMap.mem_of_lookup hconn
      simp only [apply, hconn, channelAt_of_lookup hconn, hmem, true_and]
      by_cases hcid : cid ∈ channels
      · rw [if_pos hcid, if_neg fun h => AList.lookup_eq_none.mp h.2.2 hcid]
      · rw [if_neg hcid]
        simp only [channelAt, AList.lookup_eq_none.mpr hcid, and_true, UMap.lookup_insert]
        by_cases hconn' : conn' = conn
        · subst hconn'
          simp only [if_true, true_and, Option.bind_some, UMap.lookup_insert, hconn]
        · simp only [hconn', false_and, if_false]
  | closeChannel conn cid =>
    cases hconn : r.conns.lookup conn with
    | none =>
      simp only [apply, hconn]
      split
      · next h => rw [h.1, channelAt, hconn, Option.bind_none]
      · rfl
    | some channels =>
      have hconns : (r.apply (.closeChannel conn cid)).conns = r.conns.insert conn (channels.erase cid) := by
        simp only [apply, hconn]
        cases channels.lookup cid with
        | none => rfl
        | some self => exact (destroy_same _ self).conns
      simp only [channelAt, hconns, UMap.lookup_insert]
      by_cases hconn' : conn' = conn
      · subst hconn'
        simp only [if_true, true_and, Option.bind_some, UMap.lookup_erase, hconn]
      · simp only [hconn', false_and, if_false]
  | declareQueue qname => rfl
  | deleteQueue qname => rfl
  | subscribe conn cid ctag qname autoAck =>
    simp only [apply]
    cases hself : r.channelAt conn cid <;> rfl
  | cancel ctag qname => rfl
  | choose qname => rfl

theorem next_apply (r : Registry) (op : RegistryOp) : r.next ≤ (r.apply op).next ∧
    ∀ conn cid, op = .openChannel conn cid → conn ∈ r.conns → r.channelAt conn cid = none → r.next < (r.apply op).next := by
  cases op with
  | disconnect conn =>
    refine ⟨?_, nofun⟩
    unfold apply
    dsimp only
    split
    · exact Nat.le_refl _
    · rw [(foldl_destroy_same _ _).next]
  | openChannel conn cid =>
    unfold apply
    dsimp only
    split
    · next hnone =>
      refine ⟨Nat.le_refl _, fun conn' cid' heq hmem _ => ?_⟩
      cases heq
      exact absurd hmem (AList.lookup_eq_none.mp hnone)
    · next channels hconn =>
      by_cases hcid : cid ∈ channels
      · rw [if_pos hcid]
        refine ⟨Nat.le_refl _, fun conn' cid' heq _ hnone => ?_⟩
        cases heq
        rw [channelAt_of_lookup hconn] at hnone
        exact absurd hcid (AList.lookup_eq_none.mp hnone)
      · rw [if_neg hcid]
        exact ⟨Nat.le_succ _, fun _ _ _ _ _ => Nat.lt_succ_self _⟩
  | closeChannel conn cid =>
    refine ⟨?_, nofun⟩
    unfold apply
    dsimp only
    split
    · exact Nat.le_refl _
    · split
      · exact Nat.le_refl _
      · rw [(destroy_same _ _).next]
  | subscribe conn cid ctag qname autoAck =>
    refine ⟨?_, nofun⟩
    unfold apply
    dsimp only
    split <;> exact Nat.le_refl _
  | _ => exact ⟨Nat.le_refl _, nofun⟩

/-- A channel that is there after an operation was there before, at the same place, or is new. -/
theorem channelAt_cases {op : RegistryOp} (h : (r.apply op).channelAt conn cid = some self) :
    r.channelAt conn cid = some self ∨
      (op = .openChannel conn cid ∧ conn ∈ r.conns ∧ r.channelAt conn cid = none ∧ self = r.next) := by
  rw [channelAt_apply] at h
  cases op with
  | disconnect conn' =>
    dsimp only at h
    split at h
    · cases h
    · exact Or.inl h
  | openChannel conn' cid' =>
    dsimp only at h
    split at h
    · next hnew =>
      rcases hnew with ⟨rfl, rfl, hmem, hnone⟩
      exact Or.inr ⟨rfl, hmem, hnone, (Option.some.inj h).symm⟩
    · exact Or.inl h
  | closeChannel conn' cid' =>
    dsimp only at h
    split at h
    · cases h
    · exact Or.inl h
  | _ => exact Or.inl h

theorem Sound.apply (hr : r.Sound) (op : RegistryOp) : (r.apply op).Sound := by
  refine ⟨(consumers_apply hr.filed op).1, fun {conn cid self} h => ?_, fun {conn cid conn' cid' self} h h' => ?_⟩
  · rcases channelAt_cases h with h | ⟨hop, hmem, hnone, rfl⟩
    · exact Nat.lt_of_lt_of_le (hr.fresh h) (r.next_apply op).1
    · exact (r.next_apply op).2 conn cid hop hmem hnone
  · rcases channelAt_cases h with h | ⟨hop, -, -, rfl⟩
    · rcases channelAt_cases h' with h' | ⟨-, -, -, rfl⟩
      · exact hr.single h h'
      · exact absurd (hr.fresh h) (Nat.lt_irrefl _)
    · rcases channelAt_cases h' with h' | ⟨hop', -, -, -⟩
      · exact absurd (hr.fresh h') (Nat.lt_irrefl _)
      · rw [hop] at hop'
        cases hop'
        exact ⟨rfl, rfl⟩

/-- The operation closes the channel. -/
def Closes (r : Registry) (self : ChannelRef) : RegistryOp → Prop
  | .disconnect conn => ∃ cid, r.channelAt conn cid = some self
  | .closeChannel conn cid => r.channelAt conn cid = some self
  | _ => False

theorem open_apply (hr : r.Sound) {op : RegistryOp} (hopen : r.Open self) :
    (r.apply op).Open self ↔ ¬r.Closes self op := by
  rcases hopen with ⟨conn, cid, hself⟩
  have hlt := hr.fresh hself
  constructor
  · rintro ⟨conn', cid', hself'⟩ hcloses
    rcases channelAt_cases hself' with hbefore | ⟨-, -, -, rfl⟩
    · rcases hr.single hself hbefore with ⟨rfl, rfl⟩
      rw [channelAt_apply] at hself'
      cases op with
      | disconnect conn' =>
        rcases hcloses with ⟨cid', hcloses⟩
        rcases hr.single hself hcloses with ⟨rfl, rfl⟩
        simp only [if_true, reduceCtorEq] at hself'
      | closeChannel conn' cid' =>
        rcases hr.single hself hcloses with ⟨rfl, rfl⟩
        simp only [and_self, if_true, reduceCtorEq] at hself'
      | _ => exact hcloses
    · exact Nat.lt_irrefl _ hlt
  · intro hcloses
    refine ⟨conn, cid, ?_⟩
    rw [channelAt_apply]
    cases op with
    | disconnect conn' =>
      refine (if_neg ?_).trans hself
      rintro rfl
      exact hcloses ⟨cid, hself⟩
    | openChannel conn' cid' =>
      refine (if_neg ?_).trans hself
      rintro ⟨rfl, rfl, -, hnone⟩
      rw [hself] at hnone
      cases hnone
    | closeChannel conn' cid' =>
      refine (if_neg ?_).trans hself
      rintro ⟨rfl, rfl⟩
      exact hcloses hself
    | _ => exact hself

end Registry

/-! ### Runs -/

namespace Sys
variable {pb : PayloadCodec} {s s' : Sys} {act : Act}

/-- At the start nobody is connected and no consumer is registered. -/
theorem boot_registry {basedir : String} {d : Disk} {db : Db} (hboot : boot pb basedir d db = some s) :
    s.broker.registry.Sound ∧ s.worker = .idle ∧ s.loop = none ∧ s.broker.pool = {} ∧
      (∀ c, ¬s.broker.consumers.Registered c) := by
  unfold boot at hboot
  split at hboot
  · cases hboot
  · next host _ =>
    cases hboot
    have hinit : ∀ (qnames : List String) (m : ConsumerManager), m.Filed → (∀ c, ¬m.Registered c) →
        (qnames.foldl ConsumerManager.initQueueConsumer m).Filed ∧
          ∀ c, ¬(qnames.foldl ConsumerManager.initQueueConsumer m).Registered c := by
      intro qnames
      induction qnames with
      | nil => exact fun m hm hnone => ⟨hm, hnone⟩
      | cons qname qnames ih =>
        intro m hm hnone
        rcases ConsumerManager.filed_initQueueConsumer hm qname with ⟨hfiled, hreg⟩
        exact ih _ hfiled fun c hc => hnone c ((hreg c).mp hc)
    have hempty : ({} : ConsumerManager).Filed := ⟨nofun, nofun⟩
    rcases hinit host.allQueues.keys {} hempty (by rintro c ⟨_, _, h, -⟩; cases h) with ⟨hfiled, hnone⟩
    exact ⟨⟨hfiled, nofun, nofun⟩, rfl, rfl, rfl, hnone⟩

theorem step_registry_sound (hs : s.broker.registry.Sound) (hstep : s.step pb act = some s') :
    s'.broker.registry.Sound := by
  by_cases hact : act = .restart
  · subst hact
    exact (boot_registry hstep).1
  · rw [registry_step hstep hact]
    exact hs.apply _

end Sys
end HareMQ
