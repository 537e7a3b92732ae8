import HareMQ.Client
import HareMQ.Lib.Rendezvous

/-! # Requests and responses of the client

The threads of the user meet the event loop at the response maps of the channels. A response that the event loop brings
finds its thread, as long as the channel manager has the channel; after `closeChannel` it is thrown away. -/

namespace HareMQ
open Lib

namespace ClientChannel
variable (ch : ClientChannel)

/-- The map in which a response is filed. -/
def box (query : Bool) : UMap String Response := if query then ch.basicQueryResp else ch.basicResp

def withBox (query : Bool) (m : UMap String Response) : ClientChannel :=
  if query then { ch with basicQueryResp := m } else { ch with basicResp := m }

@[simp] theorem cid_withBox (query : Bool) (m : UMap String Response) : (ch.withBox query m).cid = ch.cid := by
  cases query <;> rfl

theorem box_withBox (query query' : Bool) (m : UMap String Response) :
    (ch.withBox query m).box query' = if query' = query then m else ch.box query' := by
  cases query <;> cases query' <;> rfl

theorem await_eq (req : Request) :
    ch.await req = ((ch.box req.isQuery).lookup req.rid).map fun resp =>
      (resp, ch.withBox req.isQuery ((ch.box req.isQuery).erase req.rid)) := by
  cases req <;> rfl

theorem pushBasicResponse_eq {resp : Response} {query : Bool} {rid cid : String}
    (h : resp.answers = some (query, rid, cid)) :
    ch.pushBasicResponse resp = ch.withBox query ((ch.box query).emplace rid resp) := by
  cases resp with
  | basicCommonResponse rid' cid' ok =>
    cases h
    rfl
  | basicQueryResponse rid' cid' body =>
    cases h
    rfl
  | basicConsumeResponse => cases h

/-- A request names the channel and the id that it was made with. -/
theorem request_ids {rid : String} {method : ClientCall} {req : Request} (h : ch.request rid method = some req) :
    req.rid = rid ∧ req.cid = ch.cid := by
  cases method with
  | basicAck msgid =>
    obtain ⟨c, -, rfl⟩ := Option.map_eq_some_iff.mp h
    exact ⟨rfl, rfl⟩
  | basicCancel =>
    obtain ⟨c, -, rfl⟩ := Option.map_eq_some_iff.mp h
    exact ⟨rfl, rfl⟩
  | basicConsume consumerTag queueName autoAck cb =>
    simp only [request] at h
    split at h
    · cases h
    · cases h
      exact ⟨rfl, rfl⟩
  | _ =>
    cases h
    exact ⟨rfl, rfl⟩

end ClientChannel

/-- The map at which a thread waits. -/
def Caller.waitsAt (caller : Caller) : Option (ChannelPtr × Bool) :=
  match caller.phase with
  | .answered _ => none
  | _ => some (caller.channel, caller.request.isQuery)

namespace Caller

theorem waitsAt_eq_some {caller : Caller} {b : ChannelPtr × Bool} (h : caller.waitsAt = some b) :
    b = (caller.channel, caller.request.isQuery) := by
  unfold waitsAt at h
  split at h
  · cases h
  · exact (Option.some.inj h).symm

@[simp] theorem channel_notify (ch : ChannelPtr) (caller : Caller) : (caller.notify ch).channel = caller.channel := by
  unfold notify
  split <;> rfl

@[simp] theorem request_notify (ch : ChannelPtr) (caller : Caller) : (caller.notify ch).request = caller.request := by
  unfold notify
  split <;> rfl

theorem waitsAt_notify (ch : ChannelPtr) (caller : Caller) : (caller.notify ch).waitsAt = caller.waitsAt := by
  unfold notify
  split
  · next h => simp only [waitsAt, h.2]
  · rfl

/-- Nobody sleeps on the channel after `notify_all`. -/
theorem asleep_notify {ch : ChannelPtr} {caller : Caller} (h : (caller.notify ch).phase = .asleep) :
    caller.phase = .asleep ∧ caller.channel ≠ ch := by
  unfold notify at h
  split at h
  · cases h
  · next hne => exact ⟨h, fun heq => hne ⟨heq, h⟩⟩

end Caller

namespace Client
variable {c c' : Client}

/-- The client as callers that wait at boxes. -/
def rendezvous (c : Client) : Rendezvous String (ChannelPtr × Bool) Response where
  used := {rid | rid ∈ c.uuids}
  pending := {rid | rid ∈ c.outstanding}
  boxes b rid := ((c.channels b.1).box b.2).lookup rid
  waiting rid := (c.callers.lookup rid).bind Caller.waitsAt
  asleep := {rid | ∃ caller, c.callers.lookup rid = some caller ∧ caller.phase = .asleep}
  given := c.returned.map fun x => (x.1.rid, x.2)

/-- The response has the id of the request. -/
def Answers (rid : String) (resp : Response) : Prop := ∃ query cid, resp.answers = some (query, rid, cid)

/-! ### Ids -/

/-- What the ids of the channels and of the requests name. -/
structure Tied (c : Client) : Prop where
  distinct : ∀ ch ch', ch < c.next → ch' < c.next → (c.channels ch).cid = (c.channels ch').cid → ch = ch'
  cids : ∀ ch < c.next, (c.channels ch).cid ∈ c.uuids
  managed : ∀ cid ch, c.manager.lookup cid = some ch → ch < c.next ∧ (c.channels ch).cid = cid
  opened : ∀ ch ∈ c.opened, ch < c.next
  callers : ∀ rid caller, c.callers.lookup rid = some caller →
    caller.request.rid = rid ∧ caller.channel < c.next ∧ caller.request.cid = (c.channels caller.channel).cid ∧
      rid ∈ c.uuids
  outstanding : ∀ rid req caller, c.outstanding.lookup rid = some req → c.callers.lookup rid = some caller →
    req = caller.request
  filed : ∀ ch query rid resp, ((c.channels ch).box query).lookup rid = some resp →
    ∃ rid', resp.answers = some (query, rid', (c.channels ch).cid)
  returned : ∀ x ∈ c.returned, ∃ rid', x.2.answers = some (x.1.isQuery, rid', x.1.cid)

namespace Tied

/-- A step that makes neither a channel nor a request. -/
theorem update (h : c.Tied) (hnext : c'.next = c.next) (huuids : c'.uuids = c.uuids)
    (hcids : ∀ ch, (c'.channels ch).cid = (c.channels ch).cid)
    (hmanager : ∀ cid ch, c'.manager.lookup cid = some ch → c.manager.lookup cid = some ch)
    (hopened : ∀ ch ∈ c'.opened, ch < c.next)
    (hcallers : ∀ rid caller, c'.callers.lookup rid = some caller → ∃ old, c.callers.lookup rid = some old ∧
      caller.request = old.request ∧ caller.channel = old.channel)
    (houtstanding : ∀ rid req, c'.outstanding.lookup rid = some req → c.outstanding.lookup rid = some req)
    (hfiled : ∀ ch query rid resp, ((c'.channels ch).box query).lookup rid = some resp →
      ∃ rid', resp.answers = some (query, rid', (c.channels ch).cid))
    (hreturned : ∀ x ∈ c'.returned, ∃ rid', x.2.answers = some (x.1.isQuery, rid', x.1.cid)) : c'.Tied where
  distinct ch ch' hch hch' heq := by
    rw [hcids, hcids] at heq
    exact h.distinct ch ch' (hnext ▸ hch) (hnext ▸ hch') heq
  cids ch hch := by
    rw [hcids, huuids]
    exact h.cids ch (hnext ▸ hch)
  managed cid ch hlookup := by
    rw [hcids, hnext]
    exact h.managed cid ch (hmanager cid ch hlookup)
  opened ch hch := hnext ▸ hopened ch hch
  callers rid caller hlookup := by
    obtain ⟨old, hold, hrequest, hchannel⟩ := hcallers rid caller hlookup
    rw [hrequest, hchannel, hnext, hcids, huuids]
    exact h.callers rid old hold
  outstanding rid req caller hreq hlookup := by
    obtain ⟨old, hold, hrequest, -⟩ := hcallers rid caller hlookup
    rw [hrequest]
    exact h.outstanding rid req old (houtstanding rid req hreq) hold
  filed ch query rid resp hresp := by
    rw [hcids]
    exact hfiled ch query rid resp hresp
  returned := hreturned

theorem createChannel (h : c.Tied) {cid : String} (hfresh : cid ∉ c.uuids) : (c.createChannel cid).Tied := by
  have hnew : (c.createChannel cid).channels c.next = { cid } := Function.update_self ..
  have hold : ∀ ch, ch < c.next → (c.createChannel cid).channels ch = c.channels ch := fun ch hch =>
    Function.update_of_ne (Nat.ne_of_lt hch) ..
  have hcase : ∀ ch, ch < (c.createChannel cid).next → ch = c.next ∨ ch < c.next := fun ch hch =>
    (Nat.lt_succ_iff_lt_or_eq.mp hch).symm
  have hfreshcid : ∀ ch, ch < c.next → (c.channels ch).cid ≠ cid := fun ch hch heq => hfresh (heq ▸ h.cids ch hch)
  constructor
  case distinct =>
    intro ch ch' hch hch' heq
    obtain rfl | hch := hcase ch hch
    · obtain rfl | hch' := hcase ch' hch'
      · rfl
      · rw [hnew, hold ch' hch'] at heq
        exact absurd heq.symm (hfreshcid ch' hch')
    · obtain rfl | hch' := hcase ch' hch'
      · rw [hnew, hold ch hch] at heq
        exact absurd heq (hfreshcid ch hch)
      · rw [hold ch hch, hold ch' hch'] at heq
        exact h.distinct ch ch' hch hch' heq
  case cids =>
    intro ch hch
    obtain rfl | hch := hcase ch hch
    · rw [hnew]
      exact List.mem_cons_self
    · rw [hold ch hch]
      exact List.mem_cons_of_mem _ (h.cids ch hch)
  case managed =>
    intro cid' ch hlookup
    obtain hlookup | ⟨rfl, -, rfl⟩ := UMap.lookup_emplace_eq_some hlookup
    · obtain ⟨hch, hcid⟩ := h.managed cid' ch hlookup
      rw [hold ch hch]
      exact ⟨Nat.lt_succ_of_lt hch, hcid⟩
    · rw [hnew]
      exact ⟨Nat.lt_succ_self _, rfl⟩
  case opened => exact fun ch hch => Nat.lt_succ_of_lt (h.opened ch hch)
  case callers =>
    intro rid caller hlookup
    obtain ⟨hrid, hch, hcid, hknown⟩ := h.callers rid caller hlookup
    rw [hold _ hch]
    exact ⟨hrid, Nat.lt_succ_of_lt hch, hcid, List.mem_cons_of_mem _ hknown⟩
  case outstanding => exact h.outstanding
  case filed =>
    intro ch query rid resp hresp
    obtain rfl | hne := eq_or_ne ch c.next
    · rw [hnew] at hresp
      cases query <;> cases hresp
    · have hsame : (c.createChannel cid).channels ch = c.channels ch := Function.update_of_ne hne ..
      rw [hsame] at hresp ⊢
      exact h.filed ch query rid resp hresp
  case returned => exact h.returned

theorem send (h : c.Tied) {ch : ChannelPtr} {req : Request} {cb : Nat} (hch : ch < c.next)
    (hcid : req.cid = (c.channels ch).cid) : (c.send ch req cb).Tied := by
  constructor
  case distinct => exact h.distinct
  case cids => exact fun ch hch => List.mem_cons_of_mem _ (h.cids ch hch)
  case managed => exact h.managed
  case opened => exact h.opened
  case callers =>
    intro rid caller hlookup
    rw [show (c.send ch req cb).callers = c.callers.insert req.rid _ from rfl, UMap.lookup_insert] at hlookup
    split at hlookup
    · next heq =>
      cases hlookup
      exact ⟨heq.symm, hch, hcid, heq ▸ List.mem_cons_self⟩
    · obtain ⟨hrid, hch, hcid, hknown⟩ := h.callers rid caller hlookup
      exact ⟨hrid, hch, hcid, List.mem_cons_of_mem _ hknown⟩
  case outstanding =>
    intro rid req' caller hreq hlookup
    rw [show (c.send ch req cb).callers = c.callers.insert req.rid _ from rfl, UMap.lookup_insert] at hlookup
    rw [show (c.send ch req cb).outstanding = c.outstanding.insert req.rid req from rfl, UMap.lookup_insert] at hreq
    split at hlookup
    · next heq =>
      rw [if_pos heq] at hreq
      cases hlookup
      exact (Option.some.inj hreq).symm
    · next hne =>
      rw [if_neg hne] at hreq
      exact h.outstanding rid req' caller hreq hlookup
  case filed => exact h.filed
  case returned => exact h.returned

end Tied

/-! ### What the acts do -/

/-- What an act finds, and the client after it. -/
inductive Does (c : Client) : ClientAct → Client → Prop
  | openChannel {cid rid : String} (hcid : cid ∉ c.uuids) (hrid : rid ∉ c.uuids) (hne : rid ≠ cid) :
    Does c (.openChannel cid rid) (c.openChannel cid rid)
  | call {ch : ChannelPtr} {rid : String} {method : ClientCall} (hch : ch ∈ c.opened) (hrid : rid ∉ c.uuids) :
    Does c (.call ch rid method) (c.call ch rid method)
  | wait {rid : String} {caller : Caller} (hcaller : c.callers.lookup rid = some caller)
      (hphase : caller.phase = .checking) : Does c (.wait rid) (c.wait caller)
  | spurious {rid : String} {caller : Caller} (hcaller : c.callers.lookup rid = some caller)
      (hphase : caller.phase = .asleep) :
    Does c (.spurious rid) { c with callers := c.callers.insert rid { caller with phase := .checking } }
  | finish {rid : String} {caller : Caller} {resp : Response} (hcaller : c.callers.lookup rid = some caller)
      (hphase : caller.phase = .answered resp) : Does c (.finish rid) (c.finish caller resp)
  | register {rid : String} {req : BasicConsumeRequest} (hreq : c.outstanding.lookup rid = some (.basicConsume req)) :
    Does c (.register rid) { c with registered := req :: c.registered }
  | response {rid : String} {ok : Bool} {body : String} {req : Request} (hreq : c.outstanding.lookup rid = some req) :
    Does c (.response rid ok body)
      ({ c with outstanding := c.outstanding.erase rid }.commonResponse req.cid (c.responseTo ok body req))
  | push {req : BasicConsumeRequest} {properties : Option BasicProperties} {body : String} {resp : Push}
      (hreq : req ∈ c.registered) (hresp : resp = ⟨c.sent.length, req.cid, req.consumerTag, properties, body⟩) :
    Does c (.push req properties body) { c with inFlight := c.inFlight ++ [resp], sent := c.sent ++ [resp] }
  | arrive {i : Nat} {message : Push} (hmessage : c.inFlight[i]? = some message) :
    Does c (.arrive i) ({ c with inFlight := c.inFlight.eraseIdx i }.consumeResponse message)
  | swap {pool : ThreadPool ConsumeTask} (htmp : c.pool.tmp = []) (hpool : c.pool.swap = some pool) :
    Does c .work { c with pool }
  | drop {task : ConsumeTask} {tmp : List ConsumeTask} {ch : ChannelPtr} (htmp : c.pool.tmp = task :: tmp)
      (hch : task.channel = some ch) (hconsumer : (c.channels ch).consume task.resp = none) :
    Does c .work { c with pool := { c.pool with tmp } }
  | consume {task : ConsumeTask} {tmp : List ConsumeTask} {ch : ChannelPtr} {consumer : ClientConsumer}
      (htmp : c.pool.tmp = task :: tmp) (hch : task.channel = some ch)
      (hconsumer : (c.channels ch).consume task.resp = some consumer) :
    Does c .work
      { c with
        pool := { c.pool with tmp }
        calling := true
        consumed := c.consumed ++ [⟨ch, consumer, task.resp⟩] }
  | callbackReturns : Does c .callbackReturns { c with calling := false }

variable {act : ClientAct}

theorem work_does (hwork : c.work = some c') : Does c .work c' := by
  unfold work at hwork
  split at hwork
  · next htmp =>
    obtain ⟨pool, hpool, rfl⟩ := Option.map_eq_some_iff.mp hwork
    exact .swap htmp hpool
  · next task tmp htmp =>
    split at hwork
    · cases hwork
    · next ch hch =>
      split at hwork
      · next hconsumer =>
        cases hwork
        exact .drop htmp hch hconsumer
      · next consumer hconsumer =>
        cases hwork
        exact .consume htmp hch hconsumer

theorem step_does (hstep : c.step act = some c') : Does c act c' := by
  cases act with
  | openChannel cid rid =>
    simp only [step] at hstep
    split at hstep
    · cases hstep
    · next hfresh =>
      cases hstep
      obtain ⟨hcid, hrid, hne⟩ : cid ∉ c.uuids ∧ rid ∉ c.uuids ∧ rid ≠ cid := by simpa only [not_or] using hfresh
      exact .openChannel hcid hrid hne
  | call ch rid method =>
    simp only [step] at hstep
    split at hstep
    · next hcall =>
      cases hstep
      exact .call hcall.1 hcall.2
    · cases hstep
  | wait rid =>
    simp only [step] at hstep
    split at hstep
    · cases hstep
    · next caller hcaller =>
      split at hstep
      · next hphase =>
        cases hstep
        exact .wait hcaller hphase
      · cases hstep
  | spurious rid =>
    simp only [step] at hstep
    split at hstep
    · cases hstep
    · next caller hcaller =>
      split at hstep
      · next hphase =>
        cases hstep
        exact .spurious hcaller hphase
      · cases hstep
  | finish rid =>
    simp only [step] at hstep
    split at hstep
    · cases hstep
    · next caller hcaller =>
      split at hstep
      · next resp hphase =>
        cases hstep
        exact .finish hcaller hphase
      · cases hstep
  | register rid =>
    simp only [step] at hstep
    split at hstep
    · next req hreq =>
      cases hstep
      exact .register hreq
    · cases hstep
  | response rid ok body =>
    simp only [step] at hstep
    split at hstep
    · cases hstep
    · next req hreq =>
      cases hstep
      exact .response hreq
  | push req properties body =>
    simp only [step] at hstep
    split at hstep
    · next hreq =>
      cases hstep
      exact .push hreq rfl
    · cases hstep
  | arrive i =>
    simp only [step] at hstep
    split at hstep
    · cases hstep
    · next message hmessage =>
      cases hstep
      exact .arrive hmessage
  | work =>
    simp only [step] at hstep
    split at hstep
    · cases hstep
    · exact work_does hstep
  | callbackReturns =>
    simp only [step] at hstep
    split at hstep
    · cases hstep
      exact .callbackReturns
    · cases hstep

/-- The response that a thread waits for, if it is filed. -/
def found (c : Client) (caller : Caller) : Option Response :=
  ((c.channels caller.channel).box caller.request.isQuery).lookup caller.request.rid

theorem wait_none {caller : Caller} (h : c.found caller = none) :
    c.wait caller = { c with callers := c.callers.insert caller.request.rid { caller with phase := .asleep } } := by
  rw [found] at h
  rw [wait, ClientChannel.await_eq, h, Option.map_none]

theorem wait_some {caller : Caller} {resp : Response} (h : c.found caller = some resp) :
    c.wait caller =
      { c.setChannel caller.channel ((c.channels caller.channel).withBox caller.request.isQuery
          (((c.channels caller.channel).box caller.request.isQuery).erase caller.request.rid)) with
        callers := c.callers.insert caller.request.rid { caller with phase := .answered resp }
        returned := c.returned ++ [(caller.request, resp)] } := by
  rw [found] at h
  rw [wait, ClientChannel.await_eq, h, Option.map_some]

/-- The rest of a method changes no map and no request. -/
structure Finished (c c' : Client) (caller : Caller) : Prop where
  callers : c'.callers = c.callers.erase caller.request.rid
  next : c'.next = c.next
  uuids : c'.uuids = c.uuids
  outstanding : c'.outstanding = c.outstanding
  returned : c'.returned = c.returned
  cids : ∀ ch, (c'.channels ch).cid = (c.channels ch).cid
  boxes : ∀ ch query, (c'.channels ch).box query = (c.channels ch).box query
  manager : ∀ cid ch, c'.manager.lookup cid = some ch → c.manager.lookup cid = some ch
  opened : ∀ ch ∈ c'.opened, ch ∈ c.opened ∨ ch = caller.channel

theorem finished_left (caller : Caller) :
    Finished c { c with callers := c.callers.erase caller.request.rid } caller where
  callers := rfl
  next := rfl
  uuids := rfl
  outstanding := rfl
  returned := rfl
  cids _ := rfl
  boxes _ _ := rfl
  manager _ _ h := h
  opened _ h := Or.inl h

/-- The subscription of the channel is set or removed. -/
theorem finished_consumer (caller : Caller) (consumer : Option ClientConsumer) :
    Finished c ({ c with callers := c.callers.erase caller.request.rid }.setChannel caller.channel
      { c.channels caller.channel with consumer }) caller := by
  have hchannel : ∀ {τ : Sort _} (f : ClientChannel → τ), (∀ ch : ClientChannel, f { ch with consumer } = f ch) →
      ∀ ch, f (Function.update c.channels caller.channel { c.channels caller.channel with consumer } ch) =
        f (c.channels ch) := by
    intro τ f hf ch
    obtain rfl | hne := eq_or_ne ch caller.channel
    · rw [Function.update_self, hf]
    · rw [Function.update_of_ne hne]
  exact {
    callers := rfl
    next := rfl
    uuids := rfl
    outstanding := rfl
    returned := rfl
    cids := hchannel ClientChannel.cid fun _ => rfl
    boxes := fun ch query => hchannel (ClientChannel.box · query) (fun _ => rfl) ch
    manager := fun _ _ h => h
    opened := fun _ h => Or.inl h }

theorem finish_finished (caller : Caller) (resp : Response) : Finished c (c.finish caller resp) caller := by
  have hleft := finished_left (c := c) caller
  unfold finish
  dsimp only
  split
  · split
    · refine { hleft with opened := fun ch hch => ?_ }
      obtain rfl | hch := List.mem_cons.mp hch
      · exact Or.inr rfl
      · exact Or.inl hch
    · exact hleft
  · exact { hleft with manager := fun cid ch h => (UMap.lookup_erase_eq_some h).2 }
  · split
    · exact finished_consumer caller _
    · exact hleft
  · exact finished_consumer caller none
  · exact hleft

theorem box_setChannel (ch : ChannelPtr) (query : Bool) (m : UMap String Response) (b : ChannelPtr × Bool) :
    ((c.setChannel ch ((c.channels ch).withBox query m)).channels b.1).box b.2 =
      if b = (ch, query) then m else (c.channels b.1).box b.2 := by
  obtain ⟨ch', query'⟩ := b
  by_cases hch : ch' = ch
  · subst hch
    simp only [setChannel, Function.update_self, ClientChannel.box_withBox, Prod.mk.injEq, true_and]
  · rw [if_neg fun heq => hch (Prod.mk.inj heq).1]
    exact congrArg (ClientChannel.box · query') (Function.update_of_ne hch ..)

theorem cid_setChannel (ch : ChannelPtr) (query : Bool) (m : UMap String Response) (ch' : ChannelPtr) :
    ((c.setChannel ch ((c.channels ch).withBox query m)).channels ch').cid = (c.channels ch').cid := by
  by_cases hch : ch' = ch
  · subst hch
    simp only [setChannel, Function.update_self, ClientChannel.cid_withBox]
  · exact congrArg ClientChannel.cid (Function.update_of_ne hch ..)

theorem pushBasicResponse_eq {ch : ChannelPtr} {resp : Response} {query : Bool} {rid cid : String}
    (h : resp.answers = some (query, rid, cid)) :
    c.pushBasicResponse ch resp =
      { c.setChannel ch ((c.channels ch).withBox query (((c.channels ch).box query).emplace rid resp)) with
        callers := c.callers.mapValues (Caller.notify ch) } := by
  rw [pushBasicResponse, ClientChannel.pushBasicResponse_eq _ h]

theorem answers_responseTo (ok : Bool) (body : String) (req : Request) :
    (c.responseTo ok body req).answers = some (req.isQuery, req.rid, req.cid) := by
  cases req <;> rfl

/-! ### The client is a rendezvous -/

theorem waiting_of_lookup {rid : String} {caller : Caller} (h : c.callers.lookup rid = some caller) :
    c.rendezvous.waiting rid = caller.waitsAt := by
  simp only [rendezvous, h, Option.bind_some]

theorem waiting_insert (rid : String) (caller : Caller) :
    (fun k => ((c.callers.insert rid caller).lookup k).bind Caller.waitsAt) =
      Function.update c.rendezvous.waiting rid caller.waitsAt := by
  funext k
  rw [UMap.lookup_insert, Function.update_apply]
  split <;> rfl

theorem asleep_insert_iff {rid k : String} {caller : Caller} :
    (∃ x, (c.callers.insert rid caller).lookup k = some x ∧ x.phase = .asleep) ↔
      (k = rid ∧ caller.phase = .asleep) ∨ (k ≠ rid ∧ k ∈ c.rendezvous.asleep) := by
  rw [UMap.lookup_insert]
  by_cases hk : k = rid
  · simp [hk]
  · rw [if_neg hk]
    exact ⟨fun h => Or.inr ⟨hk, h⟩, fun h => (h.resolve_left fun h => hk h.1).2⟩

theorem rendezvous_createChannel (ht : c.Tied) (hs : c.rendezvous.Sound Answers) (cid : String) :
    (c.createChannel cid).rendezvous = { c.rendezvous with used := {rid | rid ∈ cid :: c.uuids} } := by
  -- Nobody waits at the channels that are not made.
  have hempty : ∀ query rid, ((c.channels c.next).box query).lookup rid = none := by
    intro query rid
    rw [Option.eq_none_iff_forall_ne_some]
    intro resp hresp
    obtain ⟨hwaiting, -⟩ := hs.boxed (c.next, query) rid resp hresp
    obtain ⟨caller, hcaller, hat⟩ := Option.bind_eq_some_iff.mp hwaiting
    have hch : c.next = caller.channel := congrArg Prod.fst (Caller.waitsAt_eq_some hat)
    exact Nat.lt_irrefl _ (hch ▸ (ht.callers rid caller hcaller).2.1)
  refine Rendezvous.ext rfl rfl (funext fun b => funext fun rid => ?_) rfl rfl rfl
  obtain ⟨ch, query⟩ := b
  by_cases hch : ch = c.next
  · subst hch
    rw [show c.rendezvous.boxes (c.next, query) rid = none from hempty query rid]
    simp only [rendezvous, createChannel, Function.update_self]
    cases query <;> rfl
  · simp only [rendezvous, createChannel]
    rw [Function.update_of_ne hch]

theorem rendezvous_send {ch : ChannelPtr} {req : Request} {cb : Nat} (hfree : c.callers.lookup req.rid = none) :
    (c.send ch req cb).rendezvous =
      c.rendezvous.send {rid | rid ∈ req.rid :: c.uuids} req.rid (ch, req.isQuery) := by
  refine Rendezvous.ext rfl (Set.ext fun rid => AList.mem_insert _) rfl (waiting_insert ..) (Set.ext fun rid => ?_) rfl
  refine asleep_insert_iff.trans ⟨?_, fun hrid => Or.inr ⟨?_, hrid⟩⟩
  · rintro (⟨-, hasleep⟩ | ⟨-, hrid⟩)
    · cases hasleep
    · exact hrid
  · rintro rfl
    obtain ⟨caller, hcaller, -⟩ := hrid
    rw [hfree] at hcaller
    cases hcaller

theorem rendezvous_asleep {rid : String} {caller : Caller} (h : c.callers.lookup rid = some caller)
    (hchecking : caller.phase = .checking) :
    { c with callers := c.callers.insert rid { caller with phase := .asleep } }.rendezvous = c.rendezvous.sleep rid := by
  refine Rendezvous.ext rfl rfl rfl ((waiting_insert ..).trans ?_) (Set.ext fun k => ?_) rfl
  · refine Function.update_eq_self_iff.mpr ((waiting_of_lookup h).trans ?_).symm
    simp only [Caller.waitsAt, hchecking]
  · refine asleep_insert_iff.trans ⟨?_, fun hk => ?_⟩
    · rintro (⟨rfl, -⟩ | ⟨-, hk⟩)
      · exact Set.mem_insert _ _
      · exact Set.mem_insert_of_mem _ hk
    · obtain rfl | hne := eq_or_ne k rid
      · exact Or.inl ⟨rfl, rfl⟩
      · exact Or.inr ⟨hne, Set.mem_of_mem_insert_of_ne hk hne⟩

theorem rendezvous_spurious {rid : String} {caller : Caller} (h : c.callers.lookup rid = some caller)
    (hasleep : caller.phase = .asleep) :
    { c with callers := c.callers.insert rid { caller with phase := .checking } }.rendezvous = c.rendezvous.wake rid := by
  refine Rendezvous.ext rfl rfl rfl ((waiting_insert ..).trans ?_) (Set.ext fun k => ?_) rfl
  · refine Function.update_eq_self_iff.mpr ((waiting_of_lookup h).trans ?_).symm
    simp only [Caller.waitsAt, hasleep]
  · refine asleep_insert_iff.trans ⟨?_, fun hk => Or.inr ⟨hk.2, hk.1⟩⟩
    rintro (⟨-, hphase⟩ | ⟨hne, hk⟩)
    · cases hphase
    · exact ⟨hk, hne⟩

/-- The response is handed to the thread. -/
theorem rendezvous_wait {rid : String} {caller : Caller} {resp : Response} (ht : c.Tied)
    (h : c.callers.lookup rid = some caller) (hchecking : caller.phase = .checking) (hfound : c.found caller = some resp) :
    (c.wait caller).rendezvous = c.rendezvous.take rid (caller.channel, caller.request.isQuery) resp := by
  have hrid := (ht.callers rid caller h).1
  rw [wait_some hfound, hrid]
  refine Rendezvous.ext rfl rfl (funext fun b => funext fun k => ?_) (waiting_insert ..) (Set.ext fun k => ?_) ?_
  · simp only [rendezvous, box_setChannel, Rendezvous.take, Function.update_apply]
    split
    · next hb =>
      subst hb
      rw [UMap.lookup_erase, Function.update_apply]
    · rfl
  · refine asleep_insert_iff.trans ⟨?_, fun hk => Or.inr ⟨?_, hk⟩⟩
    · rintro (⟨-, hphase⟩ | ⟨-, hk⟩)
      · cases hphase
      · exact hk
    · rintro rfl
      obtain ⟨old, hold, hasleep⟩ := hk
      obtain rfl := Option.some.inj (h.symm.trans hold)
      rw [hchecking] at hasleep
      cases hasleep
  · simp only [rendezvous, Rendezvous.take, List.map_append, List.map_cons, List.map_nil, hrid]

theorem rendezvous_finish {rid : String} {caller : Caller} {resp : Response} (ht : c.Tied)
    (h : c.callers.lookup rid = some caller) (hphase : caller.phase = .answered resp) :
    (c.finish caller resp).rendezvous = c.rendezvous := by
  have hf := finish_finished (c := c) caller resp
  have hcallers : (c.finish caller resp).callers = c.callers.erase rid := (ht.callers rid caller h).1 ▸ hf.callers
  refine Rendezvous.ext ?_ ?_ (funext fun b => funext fun k => ?_) (funext fun k => ?_) (Set.ext fun k => ?_) ?_
  · simp only [rendezvous, hf.uuids]
  · simp only [rendezvous, hf.outstanding]
  · simp only [rendezvous, hf.boxes]
  · simp only [rendezvous, hcallers, UMap.lookup_erase]
    split
    · next heq =>
      subst heq
      simp only [h, Option.bind_none, Option.bind_some, Caller.waitsAt, hphase]
    · rfl
  · show (∃ x, (c.finish caller resp).callers.lookup k = some x ∧ _) ↔ ∃ x, c.callers.lookup k = some x ∧ _
    rw [hcallers, UMap.lookup_erase]
    split
    · next heq =>
      subst heq
      rw [h]
      constructor
      · rintro ⟨x, hx, -⟩
        cases hx
      · rintro ⟨x, hx, hasleep⟩
        cases hx
        rw [hphase] at hasleep
        cases hasleep
    · rfl
  · simp only [rendezvous, hf.returned]

/-- The response is filed, and those who sleep on the channel are woken. -/
theorem step_rendezvous_push {ch : ChannelPtr} {req : Request} {resp : Response}
    (hs : c.rendezvous.Sound Answers) (hout : req.rid ∈ c.outstanding)
    (hwaiting : c.rendezvous.waiting req.rid = some (ch, req.isQuery))
    (hanswers : resp.answers = some (req.isQuery, req.rid, req.cid)) :
    c.rendezvous.Step Answers
      ({ c with outstanding := c.outstanding.erase req.rid }.pushBasicResponse ch resp).rendezvous := by
  obtain ⟨c', hc'⟩ : ∃ c', { c with outstanding := c.outstanding.erase req.rid }.pushBasicResponse ch resp = c' := ⟨_, rfl⟩
  have hfree : req.rid ∉ (c.channels ch).box req.isQuery := by
    intro hmem
    obtain ⟨resp', hresp'⟩ := Option.isSome_iff_exists.mp (AList.lookup_isSome.mpr hmem)
    exact (hs.boxed (ch, req.isQuery) req.rid resp' hresp').2.1 hout
  rw [pushBasicResponse_eq hanswers] at hc'
  have heq : c'.rendezvous = c.rendezvous.deliver c'.rendezvous.asleep req.rid (ch, req.isQuery) resp := by
    subst hc'
    refine Rendezvous.ext rfl (Set.ext fun k => ?_) (funext fun b => funext fun k => ?_) (funext fun k => ?_) rfl rfl
    · exact AList.mem_erase.trans and_comm
    · simp only [rendezvous, box_setChannel, Rendezvous.deliver, Function.update_apply]
      split
      · next hb =>
        subst hb
        rw [UMap.emplace_of_notMem hfree, UMap.lookup_insert, Function.update_apply]
      · rfl
    · simp only [rendezvous, Rendezvous.deliver, UMap.lookup_mapValues]
      cases c.callers.lookup k with
      | none => rfl
      | some caller => exact caller.waitsAt_notify ch
  rw [pushBasicResponse_eq hanswers, hc', heq]
  refine .deliver hout hwaiting ⟨_, _, hanswers⟩ fun k hk => ?_
  subst hc'
  obtain ⟨woken, hwoken, hasleep⟩ := hk
  obtain ⟨caller, hcaller, rfl⟩ := Option.map_eq_some_iff.mp ((UMap.lookup_mapValues ..).symm.trans hwoken)
  obtain ⟨hasleep, hne⟩ := Caller.asleep_notify hasleep
  refine ⟨⟨caller, hcaller, hasleep⟩, fun hat => hne ?_⟩
  have hat : caller.waitsAt = some (ch, req.isQuery) := (waiting_of_lookup (c := c) hcaller).symm.trans hat
  simp only [Caller.waitsAt, hasleep, Option.some.injEq, Prod.mk.injEq] at hat
  exact hat.1

/-! ### Steps -/

/-- A response that arrives finds its channel in the manager. -/
def listed (c : Client) : ClientAct → Bool
  | .response rid _ _ => (c.outstanding.lookup rid).all fun req => (c.manager.lookup req.cid).isSome
  | _ => true

theorem step_request (c : Client) (ch : ChannelPtr) (rid : String) (method : ClientCall) :
    c.call ch rid method = c ∨
      ∃ req cb, c.call ch rid method = c.send ch req cb ∧ req.rid = rid ∧ req.cid = (c.channels ch).cid := by
  unfold call
  split
  · exact Or.inl rfl
  · next req hreq =>
    refine Or.inr ?_
    obtain ⟨hrid, hcid⟩ := ClientChannel.request_ids _ hreq
    split
    · exact ⟨req, _, rfl, hrid, hcid⟩
    · exact ⟨req, _, rfl, hrid, hcid⟩

/-- An id that was never returned is the id of nobody's request. -/
theorem Tied.callers_of_fresh (h : c.Tied) {rid : String} (hfresh : rid ∉ c.uuids) : c.callers.lookup rid = none := by
  rw [Option.eq_none_iff_forall_ne_some]
  exact fun caller hcaller => hfresh (h.callers rid caller hcaller).2.2.2

/-- The thread of a request that is not answered. -/
theorem Tied.caller_of_outstanding (h : c.Tied) (hs : c.rendezvous.Sound Answers) {rid : String} {req : Request}
    (hreq : c.outstanding.lookup rid = some req) :
    ∃ caller, c.callers.lookup rid = some caller ∧ caller.request = req ∧ req.rid = rid ∧
      c.rendezvous.waiting rid = some (caller.channel, req.isQuery) := by
  obtain ⟨b, hb⟩ := hs.pending rid (UMap.mem_of_lookup hreq)
  obtain ⟨caller, hcaller, hat⟩ := Option.bind_eq_some_iff.mp hb
  obtain rfl := h.outstanding rid req caller hreq hcaller
  rw [Caller.waitsAt_eq_some hat] at hb
  exact ⟨caller, hcaller, rfl, (h.callers rid caller hcaller).1, hb⟩

theorem Tied.phase (h : c.Tied) {rid : String} {caller : Caller} (hcaller : c.callers.lookup rid = some caller)
    (phase : Phase) : { c with callers := c.callers.insert rid { caller with phase } }.Tied := by
  refine h.update rfl rfl (fun _ => rfl) (fun _ _ hm => hm) h.opened (fun k x hx => ?_) (fun _ _ ho => ho) h.filed h.returned
  rw [UMap.lookup_insert] at hx
  split at hx
  · next heq =>
    cases hx
    exact ⟨caller, heq ▸ hcaller, rfl, rfl⟩
  · exact ⟨x, hx, rfl, rfl⟩

/-- A map of a channel is changed, but no foreign response is put into it. -/
theorem Tied.setBox (h : c.Tied) {ch : ChannelPtr} {query : Bool} {m : UMap String Response}
    (hm : ∀ rid resp, m.lookup rid = some resp → ∃ rid', resp.answers = some (query, rid', (c.channels ch).cid)) :
    (c.setChannel ch ((c.channels ch).withBox query m)).Tied := by
  refine h.update rfl rfl (cid_setChannel ch query m) (fun _ _ hm => hm) h.opened (fun k x hx => ⟨x, hx, rfl, rfl⟩)
    (fun _ _ ho => ho) (fun ch' query' rid resp hresp => ?_) h.returned
  rw [box_setChannel ch query m (ch', query')] at hresp
  split at hresp
  · next heq =>
    cases heq
    exact hm rid resp hresp
  · exact h.filed ch' query' rid resp hresp

theorem Tied.wait (h : c.Tied) {rid : String} {caller : Caller} (hcaller : c.callers.lookup rid = some caller) :
    (c.wait caller).Tied := by
  obtain ⟨hrid, hch, hcid, -⟩ := h.callers rid caller hcaller
  rw [← hrid] at hcaller
  cases hfound : c.found caller with
  | none =>
    rw [wait_none hfound]
    exact h.phase hcaller .asleep
  | some resp =>
    rw [wait_some hfound]
    have hboxes : (c.setChannel caller.channel ((c.channels caller.channel).withBox caller.request.isQuery
        (((c.channels caller.channel).box caller.request.isQuery).erase caller.request.rid))).Tied :=
      h.setBox fun k resp' hresp' => h.filed _ _ _ resp' (UMap.lookup_erase_eq_some hresp').2
    have hphase := hboxes.phase hcaller (.answered resp)
    refine ⟨hphase.distinct, hphase.cids, hphase.managed, hphase.opened, hphase.callers, hphase.outstanding,
      hphase.filed, fun x hx => ?_⟩
    obtain hx | hx := List.mem_append.mp hx
    · exact h.returned x hx
    · obtain rfl := List.mem_singleton.mp hx
      rw [hcid]
      exact h.filed _ _ _ resp hfound

theorem Tied.finish (h : c.Tied) {rid : String} {caller : Caller} (hcaller : c.callers.lookup rid = some caller)
    (resp : Response) : (c.finish caller resp).Tied := by
  have hf := finish_finished (c := c) caller resp
  refine h.update hf.next hf.uuids hf.cids hf.manager (fun ch hch => ?_) (fun k x hx => ?_) (fun k req hreq => ?_)
    (fun ch query k resp' hresp' => ?_) fun x hx => ?_
  · obtain hch | rfl := hf.opened ch hch
    · exact h.opened ch hch
    · exact (h.callers rid caller hcaller).2.1
  · rw [hf.callers] at hx
    exact ⟨x, (UMap.lookup_erase_eq_some hx).2, rfl, rfl⟩
  · rwa [hf.outstanding] at hreq
  · rw [hf.boxes] at hresp'
    exact h.filed ch query k resp' hresp'
  · rw [hf.returned] at hx
    exact h.returned x hx

theorem Tied.commonResponse (h : c.Tied) (rid : String) {resp : Response} {query : Bool} {rid' cid : String}
    (hanswers : resp.answers = some (query, rid', cid)) :
    ({ c with outstanding := c.outstanding.erase rid }.commonResponse cid resp).Tied := by
  have herased : { c with outstanding := c.outstanding.erase rid }.Tied :=
    h.update rfl rfl (fun _ => rfl) (fun _ _ hm => hm) h.opened (fun k x hx => ⟨x, hx, rfl, rfl⟩)
      (fun _ _ ho => (UMap.lookup_erase_eq_some ho).2) h.filed h.returned
  unfold Client.commonResponse
  split
  · exact herased
  · next ch hch =>
    rw [pushBasicResponse_eq hanswers]
    have hboxes : ({ c with outstanding := c.outstanding.erase rid }.setChannel ch ((c.channels ch).withBox query
        (((c.channels ch).box query).emplace rid' resp))).Tied := by
      refine herased.setBox fun k resp' hresp' => ?_
      obtain hresp' | ⟨-, -, rfl⟩ := UMap.lookup_emplace_eq_some hresp'
      · exact h.filed ch query k resp' hresp'
      · exact ⟨rid', (h.managed cid ch hch).2 ▸ hanswers⟩
    refine hboxes.update rfl rfl (fun _ => rfl) (fun _ _ hm => hm) h.opened (fun k x hx => ?_) (fun _ _ ho => ho)
      hboxes.filed h.returned
    rw [UMap.lookup_mapValues] at hx
    obtain ⟨old, hold, rfl⟩ := Option.map_eq_some_iff.mp hx
    exact ⟨old, hold, old.request_notify ch, old.channel_notify ch⟩

theorem Tied.openChannel (h : c.Tied) {cid rid : String} (hcid : cid ∉ c.uuids) : (c.openChannel cid rid).Tied := by
  refine (h.createChannel hcid).send (Nat.lt_succ_self _) ?_
  show cid = ((c.createChannel cid).channels c.next).cid
  simp only [Client.createChannel, Function.update_self]

/-- The rest of the client has no part in it. -/
theorem Tied.apart (h : c.Tied) (pool : ThreadPool ConsumeTask) (calling : Bool) (registered : List BasicConsumeRequest)
    (inFlight sent : List Push) (consumed : List Consumed) :
    { c with pool, calling, registered, inFlight, sent, consumed }.Tied :=
  ⟨h.distinct, h.cids, h.managed, h.opened, h.callers, h.outstanding, h.filed, h.returned⟩

theorem Tied.step (h : c.Tied) (hstep : c.step act = some c') : c'.Tied := by
  cases step_does hstep with
  | openChannel hcid => exact h.openChannel hcid
  | @call ch rid method hch hrid =>
    obtain hsame | ⟨req, cb, hsend, -, hcid⟩ := step_request c ch rid method
    · rwa [hsame]
    · rw [hsend]
      exact h.send (h.opened ch hch) hcid
  | wait hcaller => exact h.wait hcaller
  | spurious hcaller => exact h.phase hcaller .checking
  | finish hcaller => exact h.finish hcaller _
  | @response rid ok body req hreq => exact h.commonResponse rid (answers_responseTo ok body req)
  | register | push | arrive | swap | drop | consume | callbackReturns => exact h.apart ..

/-- A step that finds the channel of the response is a step of the rendezvous. -/
theorem step_rendezvous (ht : c.Tied) (hs : c.rendezvous.Sound Answers) (hstep : c.step act = some c')
    (hlisted : c.listed act = true) : c.rendezvous.Step Answers c'.rendezvous := by
  cases step_does hstep with
  | @openChannel cid rid hcid hrid hne =>
    have hsend : ((c.createChannel cid).send c.next (.openChannel ⟨rid, cid⟩) 0).rendezvous = _ :=
      rendezvous_send (ht.callers_of_fresh hrid)
    rw [openChannel, hsend, rendezvous_createChannel ht hs]
    refine .send (c.next, false) hrid fun k hk => ?_
    obtain rfl | hk := hk
    · exact List.mem_cons_self
    · exact List.mem_cons_of_mem _ (List.mem_cons_of_mem _ hk)
  | @call ch rid method hch hrid =>
    obtain hsame | ⟨req, cb, hsend, rfl, -⟩ := step_request c ch rid method
    · rw [hsame]
      exact .stay
    · rw [hsend, rendezvous_send (ht.callers_of_fresh hrid)]
      refine .send _ hrid fun k hk => ?_
      obtain rfl | hk := hk
      · exact List.mem_cons_self
      · exact List.mem_cons_of_mem _ hk
  | @wait rid caller hcaller hphase =>
    have hrid := (ht.callers rid caller hcaller).1
    have hwaiting : c.rendezvous.waiting rid = some (caller.channel, caller.request.isQuery) := by
      rw [waiting_of_lookup hcaller]
      simp only [Caller.waitsAt, hphase]
    cases hfound : c.found caller with
    | none =>
      rw [wait_none hfound, hrid, rendezvous_asleep hcaller hphase]
      exact .sleep hwaiting (hrid ▸ hfound)
    | some resp =>
      rw [rendezvous_wait ht hcaller hphase hfound]
      refine .take hwaiting ?_ (hrid ▸ hfound)
      rintro ⟨old, hold, hasleep⟩
      obtain rfl := Option.some.inj (hcaller.symm.trans hold)
      rw [hphase] at hasleep
      cases hasleep
  | spurious hcaller hphase =>
    rw [rendezvous_spurious hcaller hphase]
    exact .wake _
  | finish hcaller hphase =>
    rw [rendezvous_finish ht hcaller hphase]
    exact .stay
  | @response rid ok body req hreq =>
    obtain ⟨caller, hcaller, rfl, rfl, hwaiting⟩ := ht.caller_of_outstanding hs hreq
    simp only [listed, hreq, Option.all_some, Option.isSome_iff_exists] at hlisted
    obtain ⟨ch, hch⟩ := hlisted
    obtain ⟨-, hlt, hcid, -⟩ := ht.callers _ caller hcaller
    obtain ⟨hlt', hcid'⟩ := ht.managed _ ch hch
    obtain rfl : ch = caller.channel := ht.distinct ch caller.channel hlt' hlt (hcid'.trans hcid)
    simp only [commonResponse, hch]
    exact step_rendezvous_push hs (UMap.mem_of_lookup hreq) hwaiting (answers_responseTo ok body _)
  | register | push | arrive | swap | drop | consume | callbackReturns => exact .stay

/-! ### Runs -/

/-- What the threads that send requests may rely on. -/
structure Matched (c : Client) : Prop where
  /-- A thread gets a response to its own request. -/
  own : ∀ x ∈ c.returned, x.2.answers = some (x.1.isQuery, x.1.rid, x.1.cid)
  /-- A request gets one response, and no response is handed to two threads. -/
  once : (c.returned.map fun x => x.1.rid).Nodup ∧ (c.returned.map Prod.snd).Nodup
  /-- Nobody sleeps while the response lies in the map. -/
  awake : ∀ rid caller, c.callers.lookup rid = some caller → caller.phase = .asleep → c.found caller = none
  /-- A thread whose response has arrived is awake and finds it, until it has it. -/
  served : ∀ rid caller, c.callers.lookup rid = some caller → (∀ resp, caller.phase ≠ .answered resp) →
    rid ∉ c.outstanding → caller.phase = .checking ∧ (c.found caller).isSome
  /-- The maps are empty when every request has returned. -/
  emptied : (∀ rid caller, c.callers.lookup rid = some caller → ∃ resp, caller.phase = .answered resp) →
    ∀ ch, (c.channels ch).basicResp = ∅ ∧ (c.channels ch).basicQueryResp = ∅

theorem box_rendezvous (ht : c.Tied) {rid : String} {caller : Caller} (hcaller : c.callers.lookup rid = some caller) :
    c.rendezvous.boxes (caller.channel, caller.request.isQuery) rid = c.found caller := by
  rw [found, (ht.callers rid caller hcaller).1]
  rfl

/-- A thread that is not answered waits at the map of its request. -/
theorem waiting_of_phase {rid : String} {caller : Caller} (hcaller : c.callers.lookup rid = some caller)
    (hphase : ∀ resp, caller.phase ≠ .answered resp) :
    c.rendezvous.waiting rid = some (caller.channel, caller.request.isQuery) := by
  rw [waiting_of_lookup hcaller, Caller.waitsAt]
  split
  · next resp heq => exact absurd heq (hphase resp)
  · rfl

theorem matched_of_sound (ht : c.Tied) (hs : c.rendezvous.Sound Answers) : c.Matched := by
  have hm := hs.matched
  have hown : ∀ x ∈ c.returned, x.2.answers = some (x.1.isQuery, x.1.rid, x.1.cid) := by
    intro x hx
    obtain ⟨query, cid, hanswers⟩ := hm.own _ (List.mem_map_of_mem hx)
    obtain ⟨rid', hanswers'⟩ := ht.returned x hx
    rw [hanswers'] at hanswers ⊢
    cases hanswers
    rfl
  have honce : (c.returned.map fun x => x.1.rid).Nodup := by
    have honce := hm.once
    rwa [show c.rendezvous.given = c.returned.map _ from rfl, List.map_map] at honce
  constructor
  case own => exact hown
  case once =>
    refine ⟨honce, List.Nodup.of_map (fun resp => resp.answers.map fun x => x.2.1) ?_⟩
    rw [List.map_map, List.map_congr_left (g := fun x => some x.1.rid) fun x hx => ?_]
    · have hsome := honce.map (Option.some_injective String)
      rwa [List.map_map] at hsome
    · rw [Function.comp_apply, hown x hx, Option.map_some]
  case awake =>
    intro rid caller hcaller hasleep
    rw [← box_rendezvous ht hcaller]
    refine hm.awake rid ⟨caller, hcaller, hasleep⟩ _ (waiting_of_phase hcaller fun resp heq => ?_)
    rw [hasleep] at heq
    cases heq
  case served =>
    intro rid caller hcaller hphase hrid
    obtain ⟨hawake, resp, hresp⟩ := hm.served rid _ (waiting_of_phase hcaller hphase) hrid
    rw [box_rendezvous ht hcaller] at hresp
    refine ⟨?_, Option.isSome_iff_exists.mpr ⟨resp, hresp⟩⟩
    cases heq : caller.phase with
    | checking => rfl
    | asleep => exact absurd ⟨caller, hcaller, heq⟩ hawake
    | answered resp => exact absurd heq (hphase resp)
  case emptied =>
    intro hall ch
    have hnone : ∀ rid, c.rendezvous.waiting rid = none := by
      intro rid
      refine Option.bind_eq_none_iff.mpr fun caller hcaller => ?_
      obtain ⟨resp, hresp⟩ := hall rid caller hcaller
      simp only [Caller.waitsAt, hresp]
    exact ⟨UMap.eq_empty_of_lookup (hm.emptied hnone (ch, false)), UMap.eq_empty_of_lookup (hm.emptied hnone (ch, true))⟩

theorem rendezvous_matched (ht : c.Tied) (h : c.Matched) : c.rendezvous.Matched Answers where
  own x hx := by
    obtain ⟨y, hy, rfl⟩ := List.mem_map.mp hx
    exact ⟨_, _, h.own y hy⟩
  once := by
    rw [show c.rendezvous.given = c.returned.map _ from rfl, List.map_map]
    exact h.once.1
  awake rid hrid b hb := by
    obtain ⟨caller, hcaller, hasleep⟩ := hrid
    obtain rfl := Caller.waitsAt_eq_some ((waiting_of_lookup hcaller).symm.trans hb)
    exact (box_rendezvous ht hcaller).trans (h.awake rid caller hcaller hasleep)
  served rid b hb hrid := by
    obtain ⟨caller, hcaller, hat⟩ := Option.bind_eq_some_iff.mp hb
    obtain rfl := Caller.waitsAt_eq_some hat
    have hphase : ∀ resp, caller.phase ≠ .answered resp := by
      intro resp heq
      simp only [Caller.waitsAt, heq] at hat
      cases hat
    obtain ⟨hchecking, hfound⟩ := h.served rid caller hcaller hphase hrid
    rw [box_rendezvous ht hcaller]
    refine ⟨?_, Option.isSome_iff_exists.mp hfound⟩
    rintro ⟨old, hold, hasleep⟩
    obtain rfl := Option.some.inj (hcaller.symm.trans hold)
    rw [hchecking] at hasleep
    cases hasleep
  emptied hnone b rid := by
    obtain ⟨ch, query⟩ := b
    have hempty := h.emptied (fun rid caller hcaller => ?_) ch
    · cases query with
      | false => simp only [rendezvous, ClientChannel.box, Bool.false_eq_true, if_false, hempty.1, AList.lookup_empty]
      | true => simp only [rendezvous, ClientChannel.box, if_true, hempty.2, AList.lookup_empty]
    · by_contra hphase
      have hwaiting := waiting_of_phase hcaller fun resp heq => hphase ⟨resp, heq⟩
      rw [hnone rid] at hwaiting
      cases hwaiting

theorem tied_start : ({} : Client).Tied where
  distinct _ _ h := absurd h (Nat.not_lt_zero _)
  cids _ h := absurd h (Nat.not_lt_zero _)
  managed _ _ h := nomatch h
  opened _ h := nomatch h
  callers _ _ h := nomatch h
  outstanding _ _ _ h := nomatch h
  filed _ query _ _ h := by cases query <;> cases h
  returned _ h := nomatch h

theorem sound_start : ({} : Client).rendezvous.Sound Answers where
  used _ h := by
    obtain h | h := h
    · cases h
    · cases h
  pending _ h := nomatch h
  boxed b _ _ h := by
    obtain ⟨ch, query⟩ := b
    cases query <;> cases h
  served _ _ h := nomatch h
  asleep _ h := by
    obtain ⟨_, h, _⟩ := h
    cases h
  given _ h := nomatch h
  once := List.nodup_nil

/-- A response that finds no channel is lost. -/
theorem not_matched_of_step (ht : c.Tied) (hs : c.rendezvous.Sound Answers) (hstep : c.step act = some c')
    (hlisted : c.listed act = false) : ¬c'.Matched := by
  cases act with
  | response rid ok body =>
    have ht' := ht.step hstep
    cases step_does hstep with
    | @response _ _ _ req hreq =>
      simp only [listed, hreq, Option.all_some, Option.isSome_eq_false_iff, Option.isNone_iff_eq_none] at hlisted
      simp only [commonResponse, hlisted] at ht' ⊢
      intro hmatched
      refine hs.not_matched_lose (UMap.mem_of_lookup hreq) ?_
      have hlost : { c with outstanding := c.outstanding.erase rid }.rendezvous = c.rendezvous.lose rid :=
        Rendezvous.ext rfl (Set.ext fun k => AList.mem_erase.trans and_comm) rfl rfl rfl rfl
      rw [← hlost]
      exact rendezvous_matched ht' hmatched
  | _ => cases hlisted

/-- In every state of a run each thread gets the response to its own request, no response is handed to two threads, no
    thread sleeps while its response lies in the map, and the maps are empty once every request has returned, exactly
    when each response finds its channel in the channel manager. -/
theorem run_matched_iff {acts : List ClientAct} (hrun : Lib.run step {} acts = some c) :
    (∀ pre c₁, pre <+: acts → Lib.run step {} pre = some c₁ → c₁.Matched) ↔
      Lib.always step listed {} acts = true :=
  always_iff_of_exact (fun c (h : c.Tied ∧ c.rendezvous.Sound Answers) => matched_of_sound h.1 h.2)
    (fun _ _ _ h hstep hlisted => ⟨h.1.step hstep, h.2.step (step_rendezvous h.1 h.2 hstep hlisted)⟩)
    (fun _ _ _ h hstep hlisted => not_matched_of_step h.1 h.2 hstep hlisted) ⟨tied_start, sound_start⟩ hrun

/-- A thread opens a channel. -/
def opening : List ClientAct := [.openChannel "c" "1", .wait "1", .response "1" true "", .wait "1", .finish "1"]

/-- Two threads use one channel, and the second is answered first. -/
def crossed : List ClientAct :=
  opening ++ [.call 0 "2" (.deleteQueue "q"), .wait "2", .call 0 "3" .basicQuery, .wait "3", .response "3" true "queues",
    .wait "2", .wait "3", .finish "3", .response "2" true "", .wait "2", .finish "2"]

theorem run_matched_iff_crossed : ∃ c, Lib.run step {} crossed = some c ∧
    ∀ pre c₁, pre <+: crossed → Lib.run step {} pre = some c₁ → c₁.Matched := by
  have hrun : ((Lib.run step {} crossed).isSome && Lib.always step listed {} crossed) = true := by decide +kernel
  rw [Bool.and_eq_true, Option.isSome_iff_exists] at hrun
  obtain ⟨⟨c, hc⟩, hlisted⟩ := hrun
  exact ⟨c, hc, (run_matched_iff hc).mpr hlisted⟩

/-- Two threads close one channel; the server answers both. -/
def closedTwice : List ClientAct :=
  opening ++ [.call 0 "2" .closeServerChannel, .wait "2", .call 0 "3" .closeServerChannel, .wait "3",
    .response "2" true "", .wait "2", .wait "3", .finish "2", .response "3" true ""]

theorem run_not_matched : ∃ c, Lib.run step {} closedTwice = some c ∧ "3" ∉ c.outstanding ∧
    (∃ caller, c.callers.lookup "3" = some caller ∧ caller.phase = .asleep ∧ c.found caller = none) ∧ ¬c.Matched := by
  have hrun : (Lib.run step {} closedTwice).any (fun c =>
      decide ("3" ∉ c.outstanding) && (c.callers.lookup "3").any fun caller =>
        decide (caller.phase = .asleep) && decide (c.found caller = none)) = true := by decide +kernel
  obtain ⟨c, hc, hrest⟩ := (Option.any_eq_true _ _).mp hrun
  rw [Bool.and_eq_true, decide_eq_true_eq] at hrest
  obtain ⟨hout, hcaller⟩ := hrest
  obtain ⟨caller, hcaller, hphase⟩ := (Option.any_eq_true _ _).mp hcaller
  simp only [Bool.and_eq_true, decide_eq_true_eq] at hphase
  refine ⟨c, hc, hout, ⟨caller, hcaller, hphase.1, hphase.2⟩, fun hmatched => ?_⟩
  have hawake := (hmatched.served "3" caller hcaller (fun resp heq => ?_) hout).1
  · rw [hphase.1] at hawake
    cases hawake
  · rw [hphase.1] at heq
    cases heq

end Client
end HareMQ
