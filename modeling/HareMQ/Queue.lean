import HareMQ.Sqlite

/-! # Queues (`mqserver/queue.hpp`) -/

namespace HareMQ
open Lib

structure MsgQueue where
  name : String
  durable : Bool
  exclusive : Bool
  autoDelete : Bool
  args : UMap String String := ∅

namespace MsgQueue

def getArgs (q : MsgQueue) : String := Args.get q.args

def setArgs (q : MsgQueue) (strArgs : String) : MsgQueue := { q with args := Args.set q.args strArgs }

end MsgQueue

namespace MsgQueueMapper

def new : String → Disk → Db → Option (Disk × Db) := Db.openTable Db.createQueueTable

def removeTable : Db → Option Db := Db.removeTable Db.dropQueueTable

def insert (q : MsgQueue) (db : Db) : Bool × Db :=
  db.exec (Db.insertQueue
    { name := q.name, durable := q.durable, exclusive := q.exclusive, autoDelete := q.autoDelete, args := q.getArgs })

def remove (name : String) (db : Db) : Db := (db.exec (Db.deleteQueues name)).2

/-- `select_callback`. -/
def select (result : UMap String MsgQueue) (row : QueueRow) : UMap String MsgQueue :=
  let qptr : MsgQueue :=
    { name := row.name, durable := row.durable, exclusive := row.exclusive, autoDelete := row.autoDelete }
  result.emplace row.name (qptr.setArgs row.args)

def all (db : Db) : UMap String MsgQueue × Db :=
  match db.query (·.queueTable) with
  | (rows, db) => (rows.foldl select ∅, db)

end MsgQueueMapper

structure MsgQueueManager where
  msgQueues : UMap String MsgQueue := ∅

namespace MsgQueueManager

def new (dbfile : String) (d : Disk) (db : Db) : Option (MsgQueueManager × Disk × Db) :=
  match MsgQueueMapper.new dbfile d db with
  | none => none
  | some (d, db) =>
    match MsgQueueMapper.all db with
    | (msgQueues, db) => some ({ msgQueues }, d, db)

/-- Unlike an exchange, a queue is not declared when the insertion into the table fails. -/
def declareQueue (m : MsgQueueManager) (qname : String) (qdurable qexclusive qautoDelete : Bool)
    (qargs : UMap String String) (db : Db) : Bool × MsgQueueManager × Db :=
  match m.msgQueues.lookup qname with
  | some _ => (true, m, db)
  | none =>
    let qptr : MsgQueue :=
      { name := qname, durable := qdurable, exclusive := qexclusive, autoDelete := qautoDelete, args := qargs }
    if qdurable then
      match MsgQueueMapper.insert qptr db with
      | (false, db) => (false, m, db)
      | (true, db) => (true, { m with msgQueues := m.msgQueues.emplace qname qptr }, db)
    else (true, { m with msgQueues := m.msgQueues.emplace qname qptr }, db)

def deleteQueue (m : MsgQueueManager) (name : String) (db : Db) : MsgQueueManager × Db :=
  match m.msgQueues.lookup name with
  | none => (m, db)
  | some qptr =>
    let db := if qptr.durable then MsgQueueMapper.remove name db else db
    ({ m with msgQueues := m.msgQueues.erase name }, db)

def selectQueue (m : MsgQueueManager) (name : String) : Option MsgQueue := m.msgQueues.lookup name

def exists? (m : MsgQueueManager) (name : String) : Bool := name ∈ m.msgQueues

/-- `none`: the process aborts. -/
def clearQueues (m : MsgQueueManager) (db : Db) : Option (MsgQueueManager × Db) :=
  match MsgQueueMapper.removeTable db with
  | none => none
  | some db => some ({ m with msgQueues := ∅ }, db)

end MsgQueueManager
end HareMQ
