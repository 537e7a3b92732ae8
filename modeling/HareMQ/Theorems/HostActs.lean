import HareMQ.Stop
import HareMQ.Theorems.Registry

/-! # What a step does to the host

Every step of the server is one operation on the virtual host: a request about the metadata, an operation on the
messages of one queue, a new start, or nothing. -/

namespace HareMQ
open Lib

/-- What one step of the server does to the host. -/
inductive HostAct
  | idle
  | op (op : HostOp)
  | publish (qname : String) (bp : Option BasicProperties) (uuid body : String)
  | consume (qname : String)
  | ack (qname msgId : String)
  | touch (qname : String) (r : Ref)

/-- What a request to an open channel does to the host at once. -/
def Request.hostAct : Request → HostAct
  | .basicAck req => .ack req.queueName req.messageId
  | req => (req.hostOp.map HostAct.op).getD .idle

namespace VirtualHost
variable (pb : PayloadCodec) (basedir dbfile : String)

/-- `none`: the process aborts. -/
def act (h : VirtualHost) : HostAct → Option VirtualHost
  | .idle => some h
  | .op op => h.step pb basedir dbfile op
  | .publish qname bp uuid body => some (h.basicPublish pb qname bp uuid body).2
  | .consume qname => some (h.basicConsume qname).2
  | .ack qname msgId => h.basicAck pb qname msgId
  | .touch qname r => some { h with mmp := h.mmp.mutableProperties qname r }

end VirtualHost

namespace Sys
variable {pb : PayloadCodec} {s s' : Sys} {act : Act}

def hostAct (s : Sys) : Act → HostAct
  | .request conn req =>
    match s.broker.registry.channelAt conn req.cid with
    | none => .idle
    | some _ => req.hostAct
  | .publish uuid =>
    match s.loop with
    | none => .idle
    | some p =>
      match p.rest with
      | [] => .idle
      | qname :: _ => if p.stored then .idle else .publish qname p.req.properties uuid p.req.body
  | .work =>
    match s.worker with
    | .started task => .consume task.qname
    | .chosen _ m _ _ => if s.epochs m.key = m.epoch then .touch m.key m.ref else .idle
    | .called task _ payload c => if c.autoAck then .ack task.qname payload.id else .idle
    | _ => .idle
  | .restart => .op .restart
  | _ => .idle

/-- The file of the database. -/
def dbfile (s : Sys) : String := s.basedir ++ "/meta.db"

theorem host_onChannel {self : ChannelRef} {req : Request} (hstep : s.onChannel pb self req = some s') :
    s.broker.host.act pb s.basedir s.dbfile req.hostAct = some s'.broker.host := by
  cases req with
  | openChannel req => cases hstep; rfl
  | closeChannel req => cases hstep; rfl
  | declareExchange req => cases hstep; rfl
  | deleteExchange req => cases hstep; rfl
  | declareQueue req =>
    rcases Option.map_eq_some_iff.mp hstep with ⟨broker, hdecl, rfl⟩
    rw [noteDeclared_broker]
    unfold Broker.declareQueue at hdecl
    simp only [Request.hostAct, Request.hostOp, Option.map_some, Option.getD_some, VirtualHost.act, VirtualHost.step]
    split at hdecl
    · cases hdecl
    · next hhost =>
      cases hdecl
      rw [hhost]
      rfl
    · next hhost =>
      cases hdecl
      rw [hhost]
      rfl
  | deleteQueue req =>
    cases hstep
    rw [noteDeleted_broker]
    rfl
  | bind req => cases hstep; rfl
  | unbind req => cases hstep; rfl
  | basicPublish req =>
    cases hstep
    unfold startPublish
    split <;> rfl
  | basicAck req =>
    rcases onChannel_basicAck hstep with ⟨host, hhost, rfl⟩
    exact hhost
  | basicConsume req =>
    cases hstep
    exact congrArg some (Broker.basicConsume_host ..).symm
  | basicCancel req => cases hstep; rfl
  | basicQuery req =>
    rcases onChannel_basicQuery hstep with ⟨body, -, rfl⟩
    rfl

theorem host_onRequest {conn : ConnRef} {req : Request} (hstep : s.onRequest pb conn req = some s') :
    s.broker.host.act pb s.basedir s.dbfile (s.hostAct (.request conn req)) = some s'.broker.host := by
  have hidle : ∀ {s'' : Sys}, s''.broker.host = s.broker.host → req.hostAct = .idle →
      s.broker.host.act pb s.basedir s.dbfile (s.hostAct (.request conn req)) = some s''.broker.host := by
    intro s'' hhost hreq
    unfold hostAct
    dsimp only
    split
    · rw [hhost]; rfl
    · rw [hhost, hreq]; rfl
  cases requested hstep with
  | unknown hconn =>
    have hat : s.broker.registry.channelAt conn req.cid = none := by
      rw [Registry.channelAt, show s.broker.registry.conns.lookup conn = none from hconn, Option.bind_none]
    simp only [hostAct, hat, VirtualHost.act]
  | opens hconn => exact hidle (Broker.openChannel_host ..) rfl
  | closes hconn => exact hidle (Broker.closeChannel_host ..) rfl
  | unserved hconn hopen hclose hself =>
    have hat := Registry.channelAt_of_lookup (r := s.broker.registry) hconn req.cid
    simp only [hostAct, hat.trans hself, VirtualHost.act]
  | served hconn hopen hclose hself hstep =>
    have hat := Registry.channelAt_of_lookup (r := s.broker.registry) hconn req.cid
    simp only [hostAct, hat.trans hself]
    exact host_onChannel hstep

theorem host_work (hstep : s.work pb = some s') :
    s.broker.host.act pb s.basedir s.dbfile (s.hostAct .work) = some s'.broker.host := by
  cases worked hstep with
  | swap hworker htmp hswap =>
    simp only [hostAct, hworker, VirtualHost.act]
    rfl
  | start hworker htmp =>
    simp only [hostAct, hworker, VirtualHost.act]
  | consume hworker =>
    simp only [hostAct, hworker, VirtualHost.act, consume]
    split <;> simp_all
  | choose hworker =>
    simp only [hostAct, hworker, VirtualHost.act, choose]
    split <;> rfl
  | call hworker =>
    simp only [hostAct, hworker, call]
    split <;> rfl
  | ack hworker hauto hack =>
    simp only [hostAct, hworker]
    rw [if_pos hauto]
    exact hack
  | keep hworker hauto =>
    simp only [hostAct, hworker]
    rw [if_neg hauto]
    rfl

theorem host_boot {basedir : String} {d : Disk} {db : Db} (hboot : boot pb basedir d db = some s) :
    VirtualHost.new pb basedir (basedir ++ "/meta.db") d db = some s.broker.host := by
  unfold boot at hboot
  split at hboot
  · cases hboot
  · next host hnew =>
    cases hboot
    exact hnew

/-- Every step of the server is one operation on the host. -/
theorem host_step (hstep : s.step pb act = some s') :
    s.broker.host.act pb s.basedir s.dbfile (s.hostAct act) = some s'.broker.host := by
  cases act with
  | connect conn =>
    simp only [step, Option.ite_none_left_eq_some, Option.some.injEq] at hstep
    rw [← hstep.2]
    rfl
  | disconnect conn =>
    simp only [step, Option.ite_none_left_eq_some, Option.some.injEq] at hstep
    rw [← hstep.2, handle, Broker.deleteConnection_host]
    rfl
  | request conn req =>
    simp only [step, Option.ite_none_left_eq_some] at hstep
    exact host_onRequest hstep.2
  | publish uuid =>
    rcases Option.map_eq_some_iff.mp hstep with ⟨p, hp, rfl⟩
    simp only [hostAct, hp]
    unfold publishStep
    cases p.rest with
    | nil => rfl
    | cons qname rest =>
      dsimp only
      split <;> rfl
  | work => exact host_work hstep
  | restart => exact host_boot hstep

end Sys
end HareMQ
