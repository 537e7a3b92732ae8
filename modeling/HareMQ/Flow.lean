import HareMQ.Store
import HareMQ.Watch

/-! # What comes in and what goes out

The server is watched from outside: which contents enter which queue, who subscribes, and which contents are passed to
which consumer, since it was started. -/

namespace HareMQ
open Lib

/-- A message that was passed to a consumer, with the connection and the id of its channel. -/
structure Delivery where
  conn : ConnRef
  cid : String
  consumer : Consumer
  content : Content
deriving DecidableEq, Repr

/-- The response that is sent. -/
def Delivery.response (d : Delivery) : ConnRef × Response :=
  (d.conn, .basicConsumeResponse d.cid d.consumer.tag d.content.body
    (some { id := d.content.id, deliveryMode := d.content.mode, routingKey := d.content.routingKey }))

/-- The queue that the consumer has subscribed to, and the content. -/
def Delivery.item (d : Delivery) : String × Content := (d.consumer.qname, d.content)

def Response.isPush : Response → Bool
  | .basicConsumeResponse .. => true
  | _ => false

/-- The contents of the pending messages of a queue. -/
def MessageManager.contents (m : MessageManager) (qname : String) : List Content :=
  ((m.queueMsgs.lookup qname).map fun q => q.msgs.map fun r => (q.heap r).payload.content).getD []

namespace Sys
variable (pb : PayloadCodec) (s : Sys)

/-- The messages that were pushed. -/
def pushes : List (ConnRef × Response) := s.broker.sent.filter fun e => e.2.isPush

/-- The contents that a new server finds in its queues. -/
def restored : List (String × Content) :=
  s.broker.host.allQueues.keys.flatMap fun qname => (s.broker.host.mmp.contents qname).map (qname, ·)

/-- What a step reads from the file of a queue into its pending list. -/
def loads (s' : Sys) (qname : String) : List (String × Content) :=
  ((s'.broker.host.mmp.contents qname).drop (s.broker.host.mmp.contents qname).length).map (qname, ·)

/-- The contents that enter in a step: a message that is stored for a publisher, what is found in the file of a queue
    that is declared, and the records that a compaction queues again. -/
def enters (s' : Sys) : Act → List (String × Content)
  | .publish uuid =>
    match s.loop with
    | none => []
    | some p =>
      match p.rest with
      | [] => []
      | qname :: _ =>
        if p.stored then []
        else
          match s.broker.host.mqmp.selectQueue qname with
          | none => []
          | some mqp =>
            if (s.broker.host.basicPublish pb qname p.req.properties uuid p.req.body).1 then
              [(qname, (QueueMessage.makeMessage p.req.properties uuid p.req.body mqp.durable).payload.content)]
            else []
  | .request _ (.declareQueue req) => s.loads s' req.queueName
  | .request _ (.basicAck req) => s.loads s' req.queueName
  | .work =>
    match s.worker with
    | .called task _ _ _ => s.loads s' task.qname
    | _ => []
  | _ => []

/-- The worker calls the callback of a consumer. -/
def passes : Act → List Delivery
  | .work =>
    match s.worker with
    | .chosen _ _ payload c =>
      [⟨(s.broker.channels c.callback).conn, (s.broker.channels c.callback).cid, c, payload.content⟩]
    | _ => []
  | _ => []

/-- The consumer that a request creates, with the connection and the id of its channel. -/
def subscriptions : Act → List (ConnRef × String × Consumer)
  | .request conn (.basicConsume req) =>
    (s.subscribes (.request conn (.basicConsume req))).toList.map fun c => (conn, req.cid, c)
  | _ => []

end Sys

/-- A server, and what has come in and gone out since its start. -/
structure Flow where
  sys : Sys
  entered : List (String × Content)
  subscribed : List (ConnRef × String × Consumer) := []
  passed : List Delivery := []

namespace Flow
variable (pb : PayloadCodec)

def start (sys : Sys) : Flow := { sys, entered := sys.restored }

def step (f : Flow) (act : Act) : Option Flow :=
  match f.sys.step pb act with
  | none => none
  | some sys =>
    match act with
    | .restart => some (start sys)
    | act =>
      some {
        sys
        entered := f.entered ++ f.sys.enters pb sys act
        subscribed := f.subscribed ++ f.sys.subscriptions act
        passed := f.passed ++ f.sys.passes act }

end Flow
end HareMQ
