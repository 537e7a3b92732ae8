import HareMQ.Consumer
import HareMQ.Protocol
import HareMQ.Route
import HareMQ.ThreadPool
import HareMQ.VirtualHost

/-! # Channels (`mqserver/channel.hpp`)

A request handler runs on the event loop. Channel objects are named by their addresses, and an address is not used
again; the object behind it keeps its last contents after its destruction. -/

namespace HareMQ
open Lib

abbrev ConnRef := Nat

structure Channel where
  cid : String
  conn : ConnRef
  /-- `__consumer`: the last consumer that the channel created, or null. -/
  consumer : Option Consumer := none
deriving DecidableEq, Repr

/-- The channels of one connection. -/
abbrev ChannelManager := UMap String ChannelRef

/-- `channel::consume` of this channel for this queue. -/
structure Task where
  channel : ChannelRef
  qname : String
deriving DecidableEq, Repr

/-- The objects that the two threads of the server share, and what was sent on each connection. -/
structure Broker where
  host : VirtualHost
  consumers : ConsumerManager := {}
  pool : ThreadPool Task := {}
  channels : ChannelRef → Channel := fun _ => { cid := "", conn := 0 }
  next : ChannelRef := 0
  conns : UMap ConnRef ChannelManager := ∅
  sent : List (ConnRef × Response) := []

namespace Broker
variable (pb : PayloadCodec) (b : Broker) (self : ChannelRef)

def send (conn : ConnRef) (resp : Response) : Broker := { b with sent := b.sent ++ [(conn, resp)] }

def basicResponse (ok : Bool) (rid cid : String) : Broker :=
  b.send (b.channels self).conn (.basicCommonResponse rid cid ok)

def declareExchange (req : DeclareExchangeRequest) : Broker :=
  match b.host.declareExchange req.exchangeName req.exchangeType req.durable req.autoDelete req.args with
  | (res, host) => { b with host }.basicResponse self res req.rid req.cid

def deleteExchange (req : DeleteExchangeRequest) : Broker :=
  { b with host := b.host.deleteExchange req.exchangeName }.basicResponse self true req.rid req.cid

/-- `none`: the process aborts. -/
def declareQueue (req : DeclareQueueRequest) : Option Broker :=
  match b.host.declareQueue pb req.queueName req.durable req.exclusive req.autoDelete req.args with
  | none => none
  | some (false, host) => some ({ b with host }.basicResponse self false req.rid req.cid)
  | some (true, host) =>
    some ({ b with host, consumers := b.consumers.initQueueConsumer req.queueName }.basicResponse self true req.rid req.cid)

def deleteQueue (req : DeleteQueueRequest) : Broker :=
  let consumers := b.consumers.destroyQueueConsumer req.queueName
  { b with consumers, host := b.host.deleteQueue req.queueName }.basicResponse self true req.rid req.cid

def bind (req : BindRequest) : Broker :=
  match b.host.bind req.exchangeName req.queueName req.bindingKey with
  | (ret, host) => { b with host }.basicResponse self ret req.rid req.cid

def unbind (req : UnbindRequest) : Broker :=
  { b with host := b.host.unbind req.exchangeName req.queueName }.basicResponse self true req.rid req.cid

/-- The queues that the loop of `basic_publish` serves, in the order of iteration. It goes over a copy of the bindings
    of the exchange. -/
def targets (ep : Exchange) (req : BasicPublishRequest) : List String :=
  let mqbm := b.host.exchangeBindings req.exchangeName
  let routingKey := (req.properties.map (·.routingKey)).getD ""
  (mqbm.entries.filter fun e => Router.route ep.type routingKey e.2.bindingKey).map (·.1)

/-- The loop body for a queue that the routing selects. Whether the message was stored is not looked at. -/
def publishTo (req : BasicPublishRequest) (uuid : String → String) (qname : String) : Broker :=
  let (_, host) := b.host.basicPublish pb qname req.properties (uuid qname) req.body
  { b with host, pool := b.pool.push { channel := self, qname } }

/-- `uuid` is what `uuid_helper` returns for the copy of each queue. -/
def basicPublish (req : BasicPublishRequest) (uuid : String → String) : Broker :=
  match b.host.selectExchange req.exchangeName with
  | none => b.basicResponse self false req.rid req.cid
  | some ep =>
    let b := (b.targets ep req).foldl (fun b qname => b.publishTo pb self req uuid qname) b
    b.basicResponse self true req.rid req.cid

/-- `none`: the process aborts. -/
def basicAck (req : BasicAckRequest) : Option Broker :=
  match b.host.basicAck pb req.queueName req.messageId with
  | none => none
  | some host => some ({ b with host }.basicResponse self true req.rid req.cid)

/-- The channel forgets its former consumer, which stays registered; it holds none when the tag was taken. -/
def basicConsume (req : BasicConsumeRequest) : Broker :=
  if b.host.existsQueue req.queueName then
    match b.consumers.create req.consumerTag req.queueName req.autoAck self with
    | (consumer, consumers) =>
      let channels := Function.update b.channels self { b.channels self with consumer }
      { b with consumers, channels }.basicResponse self true req.rid req.cid
  else b.basicResponse self false req.rid req.cid

/-- The response is negative in any case. -/
def basicCancel (req : BasicCancelRequest) : Broker :=
  { b with consumers := b.consumers.remove req.consumerTag req.queueName }.basicResponse self false req.rid req.cid

/-- `none`: an assertion fails. -/
def basicQuery (req : BasicQueryRequest) : Option Broker :=
  match b.host.basicQuery with
  | none => none
  | some body =>
    some (b.send (b.channels self).conn (.basicQueryResponse req.rid (b.channels self).cid body))

/-- `consume_cb`, with the properties of the message, which always exist there. -/
def consumeCb (tag : String) (bp : BasicProperties) (body : String) : Broker :=
  b.send (b.channels self).conn (.basicConsumeResponse (b.channels self).cid tag body (some bp))

/-- The destructor. -/
def destroy : Broker :=
  match (b.channels self).consumer with
  | none => b
  | some consumer => { b with consumers := b.consumers.remove consumer.tag consumer.qname }

end Broker
end HareMQ
