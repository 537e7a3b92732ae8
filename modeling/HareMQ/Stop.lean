import HareMQ.BrokerServer

/-! # Stops inside a request

A request about the metadata changes the database statement by statement, without a transaction. A process that stops
between two statements leaves the database as it is at that moment, and some files. -/

namespace HareMQ
open Lib

/-- The database before the constructors of the three managers, and after each of their statements. -/
def Db.startImages (db : Db) : List Db :=
  let db₁ := (db.openFile.2.exec createExchangeTable).2
  let db₂ := ((db₁.query (·.exchangeTable)).2.openFile.2.exec createQueueTable).2
  let db₃ := ((db₂.query (·.queueTable)).2.openFile.2.exec createBindingTable).2
  [db, db₁, db₂, db₃]

/-- The database before an operation, and after each of its statements. -/
def VirtualHost.images (pb : PayloadCodec) (h : VirtualHost) : HostOp → List Db
  | .declareExchange name type durable autoDelete args =>
    [h.db, (h.declareExchange name type durable autoDelete args).2.db]
  | .deleteExchange name => [h.db, (h.bmp.unbindExchange name h.db).2, (h.deleteExchange name).db]
  | .declareQueue qname qdurable qexclusive qautoDelete qargs =>
    h.db :: ((h.declareQueue pb qname qdurable qexclusive qautoDelete qargs).map (·.2.db)).toList
  | .deleteQueue name => [h.db, (h.bmp.unbindQueue name h.db).2, (h.deleteQueue name).db]
  | .bind ename qname key => [h.db, (h.bind ename qname key).2.db]
  | .unbind ename qname => [h.db, (h.unbind ename qname).db]
  | .restart => h.db.startImages

/-- The operation on the metadata that a request asks for. -/
def Request.hostOp : Request → Option HostOp
  | .declareExchange req =>
    some (.declareExchange req.exchangeName req.exchangeType req.durable req.autoDelete req.args)
  | .deleteExchange req => some (.deleteExchange req.exchangeName)
  | .declareQueue req => some (.declareQueue req.queueName req.durable req.exclusive req.autoDelete req.args)
  | .deleteQueue req => some (.deleteQueue req.queueName)
  | .bind req => some (.bind req.exchangeName req.queueName req.bindingKey)
  | .unbind req => some (.unbind req.exchangeName req.queueName)
  | _ => none

/-- What a run consists of when the process may stop anywhere: whole steps, and stops after the first `n` statements of
    a step, with the files that are left, after which the process is started again. -/
inductive Incident
  | act (act : Act)
  | stop (act : Act) (n : Nat) (d : Disk)

namespace Sys
variable (pb : PayloadCodec) (s : Sys)

/-- The databases that a process leaves behind that stops in a step. -/
def images : Act → List Db
  | .request conn req =>
    match (s.broker.conns.lookup conn).bind (·.lookup req.cid), req.hostOp with
    | some _, some op => s.broker.host.images pb op
    | _, _ => [s.broker.host.db]
  | .restart => s.broker.host.images pb .restart
  | _ => [s.broker.host.db]

/-- `none`: it is not possible here, or the process aborts in it. -/
def incident (s : Sys) : Incident → Option Sys
  | .act act => s.step pb act
  | .stop act n d =>
    match (s.images pb act)[n]? with
    | none => none
    | some db => boot pb s.basedir d db

end Sys
end HareMQ
