import HareMQ.Lib.Run
import HareMQ.VirtualHost

/-! # The methods of one `virtual_host` and what they return

A sequence of calls on one object with the result of each, and `clear` between them. -/

namespace HareMQ
open Lib

inductive HostMethod
  | declareExchange (name : String) (type : ExchangeType) (durable autoDelete : Bool) (args : UMap String String)
  | deleteExchange (name : String)
  | declareQueue (qname : String) (qdurable qexclusive qautoDelete : Bool) (qargs : UMap String String)
  | deleteQueue (name : String)
  | bind (ename qname key : String)
  | unbind (ename qname : String)
  | basicPublish (qname : String) (bp : Option BasicProperties) (uuid body : String)
  | basicConsume (qname : String)
  | basicAck (qname msgId : String)
  | existsExchange (ename : String)
  | existsQueue (qname : String)
  | existsBinding (ename qname : String)

/-- `basic_consume` returns a pointer to a message, which may be null. -/
inductive HostResult
  | done
  | flag (ok : Bool)
  | message (msg : Option Message)
deriving DecidableEq

inductive HostEvent
  | call (m : HostMethod)
  | clear

namespace VirtualHost
variable (pb : PayloadCodec) (h : VirtualHost)

/-- The message behind a pointer that `basic_consume` returned. -/
def messageAt (qname : String) (r : Ref) : Option Message := (h.mmp.queueMsgs.lookup qname).map (·.heap r)

/-- `none`: the process aborts. -/
def invoke : HostMethod → Option (HostResult × VirtualHost)
  | .declareExchange name type durable autoDelete args =>
    match h.declareExchange name type durable autoDelete args with
    | (ok, h) => some (.flag ok, h)
  | .deleteExchange name => some (.done, h.deleteExchange name)
  | .declareQueue qname qdurable qexclusive qautoDelete qargs =>
    match h.declareQueue pb qname qdurable qexclusive qautoDelete qargs with
    | none => none
    | some (ok, h) => some (.flag ok, h)
  | .deleteQueue name => some (.done, h.deleteQueue name)
  | .bind ename qname key =>
    match h.bind ename qname key with
    | (ok, h) => some (.flag ok, h)
  | .unbind ename qname => some (.done, h.unbind ename qname)
  | .basicPublish qname bp uuid body =>
    match h.basicPublish pb qname bp uuid body with
    | (ok, h) => some (.flag ok, h)
  | .basicConsume qname =>
    match h.basicConsume qname with
    | (r, h) => some (.message (r.bind (h.messageAt qname)), h)
  | .basicAck qname msgId =>
    match h.basicAck pb qname msgId with
    | none => none
    | some h => some (.done, h)
  | .existsExchange ename => some (.flag (h.existsExchange ename), h)
  | .existsQueue qname => some (.flag (h.existsQueue qname), h)
  | .existsBinding ename qname => some (.flag (h.existsBinding ename qname), h)

/-- The results of a sequence of calls. A call that does not return is the last one. -/
def results (h : VirtualHost) : List HostMethod → List (Option HostResult)
  | [] => []
  | m :: ms =>
    match h.invoke pb m with
    | none => [none]
    | some (r, h) => some r :: h.results ms

/-- `none`: the process aborts. -/
def next : HostEvent → Option VirtualHost
  | .call m => (h.invoke pb m).map (·.2)
  | .clear => h.clear

end VirtualHost
end HareMQ
