import HareMQ.Client
import HareMQ.Flow
import HareMQ.ProtocolWire

/-! # A client and the server on one connection

The client of `mqclient` and the server of `mqserver`, joined by a connection that carries messages in both directions
and in their order. The server has other connections besides, on which anything may happen. -/

namespace HareMQ
open Lib Wire

/-- What `ProtobufCodec` carries: the name of the message type, and the message. -/
abbrev Frame := String × Bytes

def Request.frame (req : Request) : Frame := (req.typeName, req.serialize)

def Response.frame (resp : Response) : Frame := (resp.typeName, resp.serialize)

/-! ### The side of the client -/

/-- The client itself does it; the server has no part in it. -/
def ClientAct.own : ClientAct → Bool
  | .register _ => false
  | .response .. => false
  | .push .. => false
  | .arrive _ => false
  | _ => true

namespace Client
variable (c : Client)

/-- The request that an act sends. -/
def sends : ClientAct → Option Request
  | .openChannel cid rid => some (.openChannel ⟨rid, cid⟩)
  | .call ch rid method => (c.channels ch).request rid method
  | _ => none

/-- The callbacks that the dispatcher calls: `commonResponse`, `queryRespone` and `consumeResponse`. The pushed messages
    are numbered as they arrive. -/
def onResponse (resp : Response) : Client :=
  match resp with
  | .basicCommonResponse rid cid _ => { c with outstanding := c.outstanding.erase rid }.commonResponse cid resp
  | .basicQueryResponse rid cid _ => { c with outstanding := c.outstanding.erase rid }.commonResponse cid resp
  | .basicConsumeResponse cid consumerTag body properties =>
    let message := { seq := c.sent.length, cid, consumerTag, properties, body }
    { c with sent := c.sent ++ [message] }.consumeResponse message

end Client

/-! ### Both sides -/

structure Link where
  flow : Flow
  conn : ConnRef
  connected : Bool := false
  client : Client := {}
  /-- What the client has sent and the server has not received. -/
  up : List Frame := []
  down : List Frame := []
  /-- `onUnknownMessage`, or a request on a connection that the server does not know: the connection is shut down. -/
  shut : Bool := false

inductive LinkAct
  /-- The connection is established. -/
  | connect
  | client (act : ClientAct)
  /-- The server works, or deals with other connections. -/
  | server (act : Act)
  /-- The next message arrives at the server. -/
  | serve
  /-- The next message arrives at the client. -/
  | hear

namespace Link
variable (pb : PayloadCodec)

def start (sys : Sys) (conn : ConnRef) : Link := { flow := Flow.start sys, conn }

variable (l : Link)

/-- The act has to do with other connections, or with none. The server is not started again here. -/
def apart : Act → Bool
  | .connect conn => conn ≠ l.conn
  | .disconnect conn => conn ≠ l.conn
  | .request conn _ => conn ≠ l.conn
  | .restart => false
  | _ => true

/-- What the server sends on the connection is on its way to the client. -/
def serverStep (act : Act) : Option Link :=
  match l.flow.step pb act with
  | none => none
  | some flow =>
    let new := flow.sys.broker.sent.drop l.flow.sys.broker.sent.length
    some { l with flow, down := l.down ++ (new.filter (·.1 = l.conn)).map (·.2.frame) }

/-- The server receives a message. -/
def serve (frame : Frame) : Option Link :=
  match Request.parse frame.1 frame.2 with
  | none => some { l with shut := true }
  | some req =>
    if l.conn ∈ l.flow.sys.broker.conns then l.serverStep pb (.request l.conn req) else some { l with shut := true }

/-- The client receives a message. -/
def hear (frame : Frame) : Link :=
  match Response.parse frame.1 frame.2 with
  | none => { l with shut := true }
  | some resp => { l with client := l.client.onResponse resp }

/-- `none`: the act is not possible, or the server aborts in it. -/
def step (l : Link) : LinkAct → Option Link
  | .connect => if l.connected then none else (l.serverStep pb (.connect l.conn)).map ({ · with connected := true })
  | .client act =>
    if l.connected && act.own then
      (l.client.step act).map fun client =>
        { l with client, up := l.up ++ ((l.client.sends act).map Request.frame).toList }
    else none
  | .server act => if l.apart act then l.serverStep pb act else none
  | .serve =>
    match l.up with
    | [] => none
    | frame :: up => { l with up }.serve pb frame
  | .hear =>
    match l.down with
    | [] => none
    | frame :: down => some ({ l with down }.hear frame)

end Link
end HareMQ
