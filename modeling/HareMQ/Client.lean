import HareMQ.Lib.Run
import HareMQ.Protocol
import HareMQ.ThreadPool

/-! # The client (`mqclient/channel.hpp`, `connection.hpp`, `consumer.hpp`)

The threads of one connection: those of the user, which wait for the responses to their requests, the event loop, which
brings what the server sends, and the worker, which calls the callbacks. A step is a section under the lock of a channel
or of the channel manager, or the code of one thread between two of them. Of the server nothing is used but that it
answers a request at most once, and that it pushes to consumers that it has registered. -/

namespace HareMQ
open Lib

/-- `channel::ptr`; null is `none`. -/
abbrev ChannelPtr := Nat

/-- `consumer`; the callback is a number. -/
structure ClientConsumer where
  tag : String
  qname : String
  autoAck : Bool
  callback : Nat
deriving DecidableEq, Repr

/-- A `basicConsumeResponse`, and its place among all that the server sends. -/
structure Push where
  seq : Nat
  cid : String
  consumerTag : String
  properties : Option BasicProperties
  body : String
deriving DecidableEq, Repr

/-- `channel`. The two maps have one lock and one condition variable. -/
structure ClientChannel where
  cid : String
  consumer : Option ClientConsumer := none
  basicResp : UMap String Response := ∅
  basicQueryResp : UMap String Response := ∅

/-- The methods of `channel` that send a request. -/
inductive ClientCall
  | closeServerChannel
  | declareExchange (name : String) (type : ExchangeType) (durable autoDelete : Bool) (args : UMap String String)
  | deleteExchange (name : String)
  | declareQueue (qname : String) (qdurable qexclusive qautoDelete : Bool) (qargs : UMap String String)
  | deleteQueue (name : String)
  | bind (ename qname key : String)
  | unbind (ename qname : String)
  | basicPublish (ename : String) (bp : Option BasicProperties) (body : String)
  | basicAck (msgid : String)
  | basicConsume (consumerTag queueName : String) (autoAck : Bool) (cb : Nat)
  | basicCancel
  | basicQuery

namespace ClientChannel
variable (ch : ClientChannel)

/-- The request that a method sends. `none`: it returns without one. -/
def request (rid : String) : ClientCall → Option Request
  | .closeServerChannel => some (.closeChannel ⟨rid, ch.cid⟩)
  | .declareExchange name type durable autoDelete args =>
    some (.declareExchange ⟨rid, ch.cid, name, type, durable, autoDelete, args⟩)
  | .deleteExchange name => some (.deleteExchange ⟨rid, ch.cid, name⟩)
  | .declareQueue qname qdurable qexclusive qautoDelete qargs =>
    some (.declareQueue ⟨rid, ch.cid, qname, qexclusive, qdurable, qautoDelete, qargs⟩)
  | .deleteQueue name => some (.deleteQueue ⟨rid, ch.cid, name⟩)
  | .bind ename qname key => some (.bind ⟨rid, ch.cid, ename, qname, key⟩)
  | .unbind ename qname => some (.unbind ⟨rid, ch.cid, ename, qname⟩)
  | .basicPublish ename bp body => some (.basicPublish ⟨rid, ch.cid, ename, body, bp⟩)
  | .basicAck msgid => ch.consumer.map fun c => .basicAck ⟨rid, ch.cid, c.qname, msgid⟩
  | .basicConsume consumerTag queueName autoAck _ =>
    if ch.consumer.isSome then none else some (.basicConsume ⟨rid, ch.cid, consumerTag, queueName, autoAck⟩)
  | .basicCancel => ch.consumer.map fun c => .basicCancel ⟨rid, ch.cid, c.tag, c.qname⟩
  | .basicQuery => some (.basicQuery ⟨rid, ch.cid⟩)

/-- `push_basic_response`, without the notification. -/
def pushBasicResponse (resp : Response) : ClientChannel :=
  match resp with
  | .basicCommonResponse rid _ _ => { ch with basicResp := ch.basicResp.emplace rid resp }
  | .basicQueryResponse rid _ _ => { ch with basicQueryResp := ch.basicQueryResp.emplace rid resp }
  | .basicConsumeResponse .. => ch

/-- The section of `wait_response` that begins with the test of the predicate. `none`: the predicate does not hold. -/
def waitResponse (rid : String) : Option (Response × ClientChannel) :=
  (ch.basicResp.lookup rid).map fun bresp => (bresp, { ch with basicResp := ch.basicResp.erase rid })

/-- The same of `wait_query_response`. -/
def waitQueryResponse (rid : String) : Option (Response × ClientChannel) :=
  (ch.basicQueryResp.lookup rid).map fun bresp => (bresp, { ch with basicQueryResp := ch.basicQueryResp.erase rid })

/-- Of the two the one that the method of the request calls. -/
def await : Request → Option (Response × ClientChannel)
  | .basicQuery req => ch.waitQueryResponse req.rid
  | req => ch.waitResponse req.rid

/-- The consumer whose callback `consume` calls. `none`: the message is logged only. -/
def consume (resp : Push) : Option ClientConsumer :=
  match ch.consumer with
  | none => none
  | some c => if c.tag = resp.consumerTag then some c else none

end ClientChannel

/-- Where a thread is in a method that sent a request. -/
inductive Phase
  /-- It holds the lock next and tests the predicate. -/
  | checking
  /-- It sleeps in `__cv.wait`. -/
  | asleep
  /-- `wait_response` has returned. -/
  | answered (resp : Response)
deriving DecidableEq, Repr

/-- A thread that has sent a request. -/
structure Caller where
  channel : ChannelPtr
  request : Request
  /-- The callback that `basic_consume` was called with. -/
  cb : Nat := 0
  phase : Phase := .checking

/-- What `notify_all` does to a thread that sleeps on the channel. -/
def Caller.notify (ch : ChannelPtr) (caller : Caller) : Caller :=
  if caller.channel = ch ∧ caller.phase = .asleep then { caller with phase := .checking } else caller

/-- The task of `consumeResponse`, which captures the channel and the message. -/
structure ConsumeTask where
  channel : Option ChannelPtr
  resp : Push
deriving DecidableEq, Repr

/-- A callback was called: with the tag, the properties and the body of the message. -/
structure Consumed where
  channel : ChannelPtr
  consumer : ClientConsumer
  resp : Push
deriving DecidableEq, Repr

structure Client where
  /-- The channel objects, by address. -/
  channels : ChannelPtr → ClientChannel := fun _ => { cid := "" }
  next : ChannelPtr := 0
  /-- What `openChannel` has returned. -/
  opened : List ChannelPtr := []
  /-- `__channel_manager`. -/
  manager : UMap String ChannelPtr := ∅
  pool : ThreadPool ConsumeTask := {}
  /-- The worker is in a callback. -/
  calling : Bool := false
  /-- By the id of the request. -/
  callers : UMap String Caller := ∅
  /-- The ids that `uuid_helper` has returned. -/
  uuids : List String := []
  /-- The requests that the server has not answered, by id. -/
  outstanding : UMap String Request := ∅
  /-- The subscriptions that the server has made. -/
  registered : List BasicConsumeRequest := []
  inFlight : List Push := []
  /-- All that the server pushed. -/
  sent : List Push := []
  /-- Which response `wait_response` or `wait_query_response` returned for which request. -/
  returned : List (Request × Response) := []
  consumed : List Consumed := []

inductive ClientAct
  /-- A thread calls `openChannel`; the ids are what `uuid_helper` returns in it. -/
  | openChannel (cid rid : String)
  | call (ch : ChannelPtr) (rid : String) (method : ClientCall)
  /-- The thread that waits for the response to a request gets the lock and tests the predicate. -/
  | wait (rid : String)
  /-- A thread wakes without notification. -/
  | spurious (rid : String)
  /-- What a method does after `wait_response`. -/
  | finish (rid : String)
  /-- The server creates the consumer of a request. -/
  | register (rid : String)
  /-- The response to a request arrives. -/
  | response (rid : String) (ok : Bool) (body : String)
  /-- The server pushes a message to a consumer. -/
  | push (req : BasicConsumeRequest) (properties : Option BasicProperties) (body : String)
  /-- A pushed message arrives. -/
  | arrive (i : Nat)
  /-- The next step of the worker. -/
  | work
  /-- The callback returns. -/
  | callbackReturns

namespace Client
variable (c : Client)

def setChannel (ch : ChannelPtr) (channel : ClientChannel) : Client :=
  { c with channels := Function.update c.channels ch channel }

/-- `__codec->send`, after which the thread goes on to wait. -/
def send (ch : ChannelPtr) (req : Request) (cb : Nat) : Client :=
  { c with
    uuids := req.rid :: c.uuids
    outstanding := c.outstanding.insert req.rid req
    callers := c.callers.insert req.rid { channel := ch, request := req, cb } }

/-- `create_channel`. -/
def createChannel (cid : String) : Client :=
  { c with
    channels := Function.update c.channels c.next { cid }
    next := c.next + 1
    manager := c.manager.emplace cid c.next
    uuids := cid :: c.uuids }

/-- `openChannel`, until it waits. -/
def openChannel (cid rid : String) : Client :=
  (c.createChannel cid).send c.next (.openChannel ⟨rid, cid⟩) 0

/-- A method of a channel, until it waits. -/
def call (ch : ChannelPtr) (rid : String) (method : ClientCall) : Client :=
  match (c.channels ch).request rid method with
  | none => c
  | some req =>
    match method with
    | .basicConsume _ _ _ cb => c.send ch req cb
    | _ => c.send ch req 0

/-- `wait_response` or `wait_query_response`. -/
def wait (caller : Caller) : Client :=
  match (c.channels caller.channel).await caller.request with
  | none => { c with callers := c.callers.insert caller.request.rid { caller with phase := .asleep } }
  | some (bresp, channel) =>
    { c.setChannel caller.channel channel with
      callers := c.callers.insert caller.request.rid { caller with phase := .answered bresp }
      returned := c.returned ++ [(caller.request, bresp)] }

/-- `resp->ok()`. -/
def accepted : Response → Bool
  | .basicCommonResponse _ _ ok => ok
  | _ => false

/-- The rest of a method. -/
def finish (caller : Caller) (resp : Response) : Client :=
  let left := { c with callers := c.callers.erase caller.request.rid }
  let channel := c.channels caller.channel
  match caller.request with
  | .openChannel _ => if accepted resp then { left with opened := caller.channel :: c.opened } else left
  | .closeChannel _ => { left with manager := c.manager.erase channel.cid }
  | .basicConsume req =>
    if accepted resp then
      left.setChannel caller.channel
        { channel with consumer := some ⟨req.consumerTag, req.queueName, req.autoAck, caller.cb⟩ }
    else left
  | .basicCancel _ => left.setChannel caller.channel { channel with consumer := none }
  | _ => left

/-! ### The event loop -/

/-- The response to a request: one whose consumer was created is accepted. -/
def responseTo (ok : Bool) (body : String) : Request → Response
  | .basicQuery req => .basicQueryResponse req.rid req.cid body
  | .basicConsume req =>
    .basicCommonResponse req.rid req.cid (ok || c.registered.any fun r => decide (r.rid = req.rid))
  | req => .basicCommonResponse req.rid req.cid ok

/-- `push_basic_response`. -/
def pushBasicResponse (ch : ChannelPtr) (resp : Response) : Client :=
  { c.setChannel ch ((c.channels ch).pushBasicResponse resp) with
    callers := c.callers.mapValues (Caller.notify ch) }

/-- `commonResponse`, and `queryRespone`, which is the same for the other kind of response. -/
def commonResponse (cid : String) (message : Response) : Client :=
  match c.manager.lookup cid with
  | none => c
  | some ch => c.pushBasicResponse ch message

/-- `consumeResponse`: the task captures the channel also when there is none. -/
def consumeResponse (message : Push) : Client :=
  { c with pool := c.pool.push { channel := c.manager.lookup message.cid, resp := message } }

/-! ### The worker -/

/-- `none`: the worker waits, or the channel of the task is null and the process dies. -/
def work : Option Client :=
  match c.pool.tmp with
  | [] => c.pool.swap.map fun pool => { c with pool }
  | task :: tmp =>
    match task.channel with
    | none => none
    | some ch =>
      match (c.channels ch).consume task.resp with
      | none => some { c with pool := { c.pool with tmp } }
      | some consumer =>
        some { c with
          pool := { c.pool with tmp }
          calling := true
          consumed := c.consumed ++ [⟨ch, consumer, task.resp⟩] }

/-- `none`: the act is not possible. -/
def step (c : Client) : ClientAct → Option Client
  | .openChannel cid rid =>
    if cid ∈ c.uuids ∨ rid ∈ c.uuids ∨ rid = cid then none else some (c.openChannel cid rid)
  | .call ch rid method => if ch ∈ c.opened ∧ rid ∉ c.uuids then some (c.call ch rid method) else none
  | .wait rid =>
    match c.callers.lookup rid with
    | none => none
    | some caller => if caller.phase = .checking then some (c.wait caller) else none
  | .spurious rid =>
    match c.callers.lookup rid with
    | none => none
    | some caller =>
      if caller.phase = .asleep then
        some { c with callers := c.callers.insert rid { caller with phase := .checking } }
      else none
  | .finish rid =>
    match c.callers.lookup rid with
    | none => none
    | some caller =>
      match caller.phase with
      | .answered resp => some (c.finish caller resp)
      | _ => none
  | .register rid =>
    match c.outstanding.lookup rid with
    | some (.basicConsume req) => some { c with registered := req :: c.registered }
    | _ => none
  | .response rid ok body =>
    match c.outstanding.lookup rid with
    | none => none
    | some req =>
      some ({ c with outstanding := c.outstanding.erase rid }.commonResponse req.cid (c.responseTo ok body req))
  | .push req properties body =>
    if req ∈ c.registered then
      let resp := { seq := c.sent.length, cid := req.cid, consumerTag := req.consumerTag, properties, body }
      some { c with inFlight := c.inFlight ++ [resp], sent := c.sent ++ [resp] }
    else none
  | .arrive i =>
    match c.inFlight[i]? with
    | none => none
    | some message => some ({ c with inFlight := c.inFlight.eraseIdx i }.consumeResponse message)
  | .work => if c.calling then none else c.work
  | .callbackReturns => if c.calling then some { c with calling := false } else none

end Client
end HareMQ
