import HareMQ.Lib.UMap
import HareMQ.Msg

/-! # Requests and responses (`mqcommon/protocol.proto`) -/

namespace HareMQ
open Lib

structure OpenChannelRequest where
  rid : String
  cid : String

structure CloseChannelRequest where
  rid : String
  cid : String

structure DeclareExchangeRequest where
  rid : String
  cid : String
  exchangeName : String
  exchangeType : ExchangeType
  durable : Bool
  autoDelete : Bool
  args : UMap String String := ∅

structure DeleteExchangeRequest where
  rid : String
  cid : String
  exchangeName : String

structure DeclareQueueRequest where
  rid : String
  cid : String
  queueName : String
  exclusive : Bool
  durable : Bool
  autoDelete : Bool
  args : UMap String String := ∅

structure DeleteQueueRequest where
  rid : String
  cid : String
  queueName : String

structure BindRequest where
  rid : String
  cid : String
  exchangeName : String
  queueName : String
  bindingKey : String

structure UnbindRequest where
  rid : String
  cid : String
  exchangeName : String
  queueName : String

structure BasicPublishRequest where
  rid : String
  cid : String
  exchangeName : String
  body : String
  properties : Option BasicProperties := none

structure BasicAckRequest where
  rid : String
  cid : String
  queueName : String
  messageId : String

structure BasicConsumeRequest where
  rid : String
  cid : String
  consumerTag : String
  queueName : String
  autoAck : Bool
deriving DecidableEq

structure BasicCancelRequest where
  rid : String
  cid : String
  consumerTag : String
  queueName : String

structure BasicQueryRequest where
  rid : String
  cid : String

/-- The requests that the dispatcher of the server knows. -/
inductive Request
  | openChannel (req : OpenChannelRequest)
  | closeChannel (req : CloseChannelRequest)
  | declareExchange (req : DeclareExchangeRequest)
  | deleteExchange (req : DeleteExchangeRequest)
  | declareQueue (req : DeclareQueueRequest)
  | deleteQueue (req : DeleteQueueRequest)
  | bind (req : BindRequest)
  | unbind (req : UnbindRequest)
  | basicPublish (req : BasicPublishRequest)
  | basicAck (req : BasicAckRequest)
  | basicConsume (req : BasicConsumeRequest)
  | basicCancel (req : BasicCancelRequest)
  | basicQuery (req : BasicQueryRequest)

/-- The channel that a request is about. -/
def Request.cid : Request → String
  | .openChannel req => req.cid
  | .closeChannel req => req.cid
  | .declareExchange req => req.cid
  | .deleteExchange req => req.cid
  | .declareQueue req => req.cid
  | .deleteQueue req => req.cid
  | .bind req => req.cid
  | .unbind req => req.cid
  | .basicPublish req => req.cid
  | .basicAck req => req.cid
  | .basicConsume req => req.cid
  | .basicCancel req => req.cid
  | .basicQuery req => req.cid

def Request.rid : Request → String
  | .openChannel req => req.rid
  | .closeChannel req => req.rid
  | .declareExchange req => req.rid
  | .deleteExchange req => req.rid
  | .declareQueue req => req.rid
  | .deleteQueue req => req.rid
  | .bind req => req.rid
  | .unbind req => req.rid
  | .basicPublish req => req.rid
  | .basicAck req => req.rid
  | .basicConsume req => req.rid
  | .basicCancel req => req.rid
  | .basicQuery req => req.rid

def Request.isQuery : Request → Bool
  | .basicQuery _ => true
  | _ => false

inductive Response
  | basicCommonResponse (rid cid : String) (ok : Bool)
  | basicQueryResponse (rid cid body : String)
  | basicConsumeResponse (cid consumerTag body : String) (properties : Option BasicProperties)
deriving DecidableEq, Repr

/-- What a response answers: a query or not, and the ids of the request and of the channel. A pushed message answers
    nothing. -/
def Response.answers : Response → Option (Bool × String × String)
  | .basicCommonResponse rid cid _ => some (false, rid, cid)
  | .basicQueryResponse rid cid _ => some (true, rid, cid)
  | .basicConsumeResponse .. => none

end HareMQ
