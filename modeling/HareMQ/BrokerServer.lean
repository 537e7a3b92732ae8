import HareMQ.Connection
import HareMQ.Lib.Depot

/-! # The server (`mqserver/broker_server.hpp`)

Two threads work on the broker. The event loop takes one request or connection event after the other. The worker of the
pool runs the tasks, each of which is one call of `channel::consume`. A step is a part of one thread between two points
at which the other thread may see the difference: a request is one step, except that `basic_publish` stores a message
and schedules a task in separate steps, and `consume` has a step for each of its four calls. -/

namespace HareMQ
open Lib

/-! ### Messages as objects -/

/-- A message object, under the name of its queue. The name stands for another storage object after the queue was
    deleted; the epoch counts these. -/
abbrev MsgObject := Item String

/-- What happened to message objects. A message enters the pending list of its queue when it is published or
    recovered, and is handed over when the callback of a consumer is called with it. -/
inductive Event
  | accepted (m : MsgObject)
  | handed (m : MsgObject) (c : Consumer)
deriving DecidableEq, Repr

/-- `mutable_properties`: an absent submessage comes into being. -/
def Message.mutableProperties (m : Message) : Message :=
  { m with payload := { m.payload with properties := some m.payload.props } }

def MessageManager.mutableProperties (m : MessageManager) (qname : String) (r : Ref) : MessageManager :=
  match m.queueMsgs.lookup qname with
  | none => m
  | some qmp => m.put qname { qmp with heap := Function.update qmp.heap r (qmp.heap r).mutableProperties }

/-! ### Threads -/

/-- The event loop inside the loop of `basic_publish`. `rest` are the queues still to be served; the message for the
    first of them is already stored when `stored` is set. -/
structure Publishing where
  self : ChannelRef
  req : BasicPublishRequest
  rest : List String
  stored : Bool := false

/-- The worker inside `consume`. It holds a message object, and its payload as it was when the worker took it: after
    the deletion of the queue nobody else has the object. -/
inductive Worker
  | idle
  | started (task : Task)
  | fetched (task : Task) (m : MsgObject) (payload : Payload)
  | chosen (task : Task) (m : MsgObject) (payload : Payload) (c : Consumer)
  | called (task : Task) (m : MsgObject) (payload : Payload) (c : Consumer)
deriving DecidableEq, Repr

structure Sys where
  basedir : String
  broker : Broker
  loop : Option Publishing := none
  worker : Worker := .idle
  epochs : String → Nat := fun _ => 0
  log : List Event := []

inductive Act
  | connect (conn : ConnRef)
  | disconnect (conn : ConnRef)
  | request (conn : ConnRef) (req : Request)
  /-- The next step of `basic_publish`; `uuid` is what `uuid_helper` returns in it. -/
  | publish (uuid : String)
  /-- The next step of the worker. -/
  | work
  /-- The process is stopped and started again. -/
  | restart

namespace Sys
variable (pb : PayloadCodec)

/-- The pending messages of a queue, as objects. -/
def pending (host : VirtualHost) (epochs : String → Nat) (qname : String) : List MsgObject :=
  (((host.mmp.queueMsgs.lookup qname).map QueueMessage.msgs).getD []).map fun r => ⟨qname, epochs qname, r⟩

/-- The constructor of `BrokerServer`. `none`: the process aborts. -/
def boot (basedir : String) (d : Disk) (db : Db) : Option Sys :=
  match VirtualHost.new pb basedir (basedir ++ "/meta.db") d db with
  | none => none
  | some host =>
    let consumers := host.allQueues.keys.foldl ConsumerManager.initQueueConsumer {}
    let log := host.allQueues.keys.flatMap fun qname => (pending host (fun _ => 0) qname).map .accepted
    some { basedir, broker := { host, consumers }, log }

variable (s : Sys)

/-! ### The event loop -/

/-- A handler that changes nothing but the broker. -/
def handle (broker : Broker) : Sys := { s with broker }

/-- A queue that was not known to `message_manager` starts with the messages that its file holds. -/
def noteDeclared (qname : String) (broker : Broker) : Sys :=
  if qname ∈ s.broker.host.mmp.queueMsgs then s.handle broker
  else { s with broker, log := s.log ++ (pending broker.host s.epochs qname).map .accepted }

def noteDeleted (qname : String) (broker : Broker) : Sys :=
  if qname ∈ s.broker.host.mmp.queueMsgs then
    { s with broker, epochs := Function.update s.epochs qname (s.epochs qname + 1) }
  else s.handle broker

/-- `basic_publish` up to its loop. -/
def startPublish (self : ChannelRef) (req : BasicPublishRequest) : Sys :=
  match s.broker.host.selectExchange req.exchangeName with
  | none => s.handle (s.broker.basicResponse self false req.rid req.cid)
  | some ep => { s with loop := some { self, req, rest := s.broker.targets ep req } }

/-- A request to a channel that was found. `none`: the process aborts. -/
def onChannel (self : ChannelRef) : Request → Option Sys
  | .openChannel _ => some s
  | .closeChannel _ => some s
  | .declareExchange req => some (s.handle (s.broker.declareExchange self req))
  | .deleteExchange req => some (s.handle (s.broker.deleteExchange self req))
  | .declareQueue req => (s.broker.declareQueue pb self req).map (s.noteDeclared req.queueName)
  | .deleteQueue req => some (s.noteDeleted req.queueName (s.broker.deleteQueue self req))
  | .bind req => some (s.handle (s.broker.bind self req))
  | .unbind req => some (s.handle (s.broker.unbind self req))
  | .basicPublish req => some (s.startPublish self req)
  | .basicAck req => (s.broker.basicAck pb self req).map s.handle
  | .basicConsume req => some (s.handle (s.broker.basicConsume self req))
  | .basicCancel req => some (s.handle (s.broker.basicCancel self req))
  | .basicQuery req => (s.broker.basicQuery self req).map s.handle

/-- The callbacks that the dispatcher calls. An unknown connection is shut down, and a request to an unknown channel is
    not answered. -/
def onRequest (conn : ConnRef) (req : Request) : Option Sys :=
  match s.broker.conns.lookup conn with
  | none => some s
  | some channels =>
    match req with
    | .openChannel req => some (s.handle (s.broker.openChannel conn channels req))
    | .closeChannel req => some (s.handle (s.broker.closeChannel conn channels req))
    | req =>
      match channels.lookup req.cid with
      | none => some s
      | some self => s.onChannel pb self req

/-- One step of the loop of `basic_publish`, or its response. -/
def publishStep (p : Publishing) (uuid : String) : Sys :=
  match p.rest with
  | [] => { s with broker := s.broker.basicResponse p.self true p.req.rid p.req.cid, loop := none }
  | qname :: rest =>
    if p.stored then
      { s with
        broker := { s.broker with pool := s.broker.pool.push { channel := p.self, qname } }
        loop := some { p with rest, stored := false } }
    else
      let r := ((s.broker.host.mmp.queueMsgs.lookup qname).map QueueMessage.next).getD 0
      let (ok, host) := s.broker.host.basicPublish pb qname p.req.properties uuid p.req.body
      { s with
        broker := { s.broker with host }
        loop := some { p with stored := true }
        log := if ok then s.log ++ [.accepted ⟨qname, s.epochs qname, r⟩] else s.log }

/-! ### The worker -/

/-- The worker takes the next task of its batch, or the next batch. `none`: it waits. -/
def take : Option Sys :=
  match s.broker.pool.tmp with
  | [] => s.broker.pool.swap.map fun pool => s.handle { s.broker with pool }
  | task :: tmp =>
    some { s with broker := { s.broker with pool := { s.broker.pool with tmp } }, worker := .started task }

/-- `__host->basic_consume`. -/
def consume (task : Task) : Sys :=
  match s.broker.host.basicConsume task.qname with
  | (none, host) => { s with broker := { s.broker with host }, worker := .idle }
  | (some r, host) =>
    let payload := ((s.broker.host.mmp.queueMsgs.lookup task.qname).map fun q => (q.heap r).payload).getD {}
    { s with
      broker := { s.broker with host }
      worker := .fetched task ⟨task.qname, s.epochs task.qname, r⟩ payload }

/-- `__cmp->choose`: without a consumer the task ends, and the message stays where it is. -/
def choose (task : Task) (m : MsgObject) (payload : Payload) : Sys :=
  match s.broker.consumers.choose task.qname with
  | (none, consumers) => { s with broker := { s.broker with consumers }, worker := .idle }
  | (some c, consumers) => { s with broker := { s.broker with consumers }, worker := .chosen task m payload c }

/-- `cp->callback`. -/
def call (task : Task) (m : MsgObject) (payload : Payload) (c : Consumer) : Sys :=
  let mmp := s.broker.host.mmp
  let mmp := if s.epochs m.key = m.epoch then mmp.mutableProperties m.key m.ref else mmp
  let broker := { s.broker with host := { s.broker.host with mmp } }
  { s with
    broker := broker.consumeCb c.callback c.tag payload.props payload.body
    worker := .called task m payload c
    log := s.log ++ [.handed m c] }

/-- The end of `consume`. `none`: the process aborts. -/
def autoAck (task : Task) (payload : Payload) (c : Consumer) : Option Sys :=
  if c.autoAck then
    (s.broker.host.basicAck pb task.qname payload.id).map fun host =>
      { s with broker := { s.broker with host }, worker := .idle }
  else some { s with worker := .idle }

def work : Option Sys :=
  match s.worker with
  | .idle => s.take
  | .started task => some (s.consume task)
  | .fetched task m payload => some (s.choose task m payload)
  | .chosen task m payload c => some (s.call task m payload c)
  | .called task _ payload c => s.autoAck pb task payload c

/-! ### Runs -/

/-- `none`: the step is not possible here, or the process aborts in it. -/
def step (s : Sys) : Act → Option Sys
  | .connect conn => if s.loop.isSome then none else some (s.handle (s.broker.newConnection conn))
  | .disconnect conn => if s.loop.isSome then none else some (s.handle (s.broker.deleteConnection conn))
  | .request conn req => if s.loop.isSome then none else s.onRequest pb conn req
  | .publish uuid => s.loop.map fun p => s.publishStep pb p uuid
  | .work => s.work pb
  | .restart => boot pb s.basedir s.broker.host.disk s.broker.host.db

def run (s : Sys) : List Act → Option Sys
  | [] => some s
  | act :: acts =>
    match s.step pb act with
    | none => none
    | some s => s.run acts

end Sys
end HareMQ
