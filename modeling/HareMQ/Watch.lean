import HareMQ.BrokerServer
import HareMQ.Lib.Run

/-! # Subscriptions to the incarnations of a queue

A queue that is deleted and declared again under its name is another queue; the epoch of the name tells them apart. The
server is watched here from outside: in which epoch each consumer subscribed, and what was passed to it. -/

namespace HareMQ
open Lib

/-- A call of the callback of a consumer, which subscribed in the epoch `since` of its queue. -/
structure Passed where
  msg : MsgObject
  consumer : Consumer
  since : Nat
deriving DecidableEq, Repr

structure Watched where
  sys : Sys
  /-- By queue and tag: the epoch in which the registered consumer subscribed. -/
  since : String → String → Nat := fun _ _ => 0
  /-- The same of the consumer that the worker has chosen. -/
  chosenSince : Nat := 0
  passed : List Passed := []

/-- The consumer that a request creates. -/
def Sys.subscribes (s : Sys) : Act → Option Consumer
  | .request conn (.basicConsume req) =>
    match (s.broker.conns.lookup conn).bind (·.lookup req.cid) with
    | none => none
    | some self =>
      if s.broker.host.existsQueue req.queueName then
        (s.broker.consumers.create req.consumerTag req.queueName req.autoAck self).1
      else none
  | _ => none

namespace Watched
variable (pb : PayloadCodec) (w : Watched)

def sinceAfter (act : Act) : String → String → Nat :=
  match w.sys.subscribes act with
  | none => w.since
  | some c => Function.update w.since c.qname (Function.update (w.since c.qname) c.tag (w.sys.epochs c.qname))

/-- The worker passes from one part of `consume` to the next. -/
def step (w : Watched) (act : Act) : Option Watched :=
  match w.sys.step pb act with
  | none => none
  | some sys =>
    let watched := { w with sys, since := w.sinceAfter act }
    match w.sys.worker, sys.worker with
    | .fetched task _ _, .chosen _ _ _ c => some { watched with chosenSince := w.since task.qname c.tag }
    | .chosen _ m _ c, .called .. =>
      some { watched with passed := w.passed ++ [{ msg := m, consumer := c, since := w.chosenSince }] }
    | _, _ => some watched

end Watched
end HareMQ
