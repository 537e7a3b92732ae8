import HareMQ.Sqlite

/-! # Bindings (`mqserver/binding.hpp`) -/

namespace HareMQ
open Lib

structure Binding where
  exchangeName : String
  msgQueueName : String
  bindingKey : String
deriving DecidableEq

abbrev MsgQueueBindingMap := UMap String Binding

/-- Exchange name to queue name to binding. -/
abbrev BindingMap := UMap String MsgQueueBindingMap

namespace BindingMapper

def new : String → Disk → Db → Option (Disk × Db) := Db.openTable Db.createBindingTable

def removeTable : Db → Option Db := Db.removeTable Db.dropBindingTable

def insert (obj : Binding) (db : Db) : Bool × Db :=
  db.exec (Db.insertBinding
    { exchangeName := obj.exchangeName, msgQueueName := obj.msgQueueName, bindingKey := obj.bindingKey })

def remove (ename qname : String) (db : Db) : Db :=
  (db.exec (Db.deleteBindings fun row => row.exchangeName = ename && row.msgQueueName = qname)).2

def removeExchange (ename : String) (db : Db) : Db :=
  (db.exec (Db.deleteBindings fun row => row.exchangeName = ename)).2

def removeQueue (qname : String) (db : Db) : Db :=
  (db.exec (Db.deleteBindings fun row => row.msgQueueName = qname)).2

/-- `select_callback`. `operator[]` creates the entry of the exchange. -/
def select (result : BindingMap) (row : BindingRow) : BindingMap :=
  let bp : Binding :=
    { exchangeName := row.exchangeName, msgQueueName := row.msgQueueName, bindingKey := row.bindingKey }
  let qmap := (result.lookup bp.exchangeName).getD ∅
  result.insert bp.exchangeName (qmap.emplace bp.msgQueueName bp)

def all (db : Db) : BindingMap × Db :=
  match db.query (·.bindingTable) with
  | (rows, db) => (rows.foldl select ∅, db)

end BindingMapper

structure BindingManager where
  bindings : BindingMap := ∅

namespace BindingManager

def new (dbfile : String) (d : Disk) (db : Db) : Option (BindingManager × Disk × Db) :=
  match BindingMapper.new dbfile d db with
  | none => none
  | some (d, db) =>
    match BindingMapper.all db with
    | (bindings, db) => some ({ bindings }, d, db)

/-- `get_binding`. -/
def getBinding (m : BindingManager) (ename qname : String) : Option Binding :=
  (m.bindings.lookup ename).bind (·.lookup qname)

def exists? (m : BindingManager) (ename qname : String) : Bool := (m.getBinding ename qname).isSome

def bind (m : BindingManager) (ename qname key : String) (durable : Bool) (db : Db) : Bool × BindingManager × Db :=
  if m.exists? ename qname then (true, m, db)
  else
    let bp : Binding := { exchangeName := ename, msgQueueName := qname, bindingKey := key }
    let qbmap := (m.bindings.lookup ename).getD ∅
    if durable then
      match BindingMapper.insert bp db with
      | (false, db) => (false, m, db)
      | (true, db) => (true, { m with bindings := m.bindings.insert ename (qbmap.emplace qname bp) }, db)
    else (true, { m with bindings := m.bindings.insert ename (qbmap.emplace qname bp) }, db)

/-- The row is deleted whether or not the binding is durable. -/
def unbind (m : BindingManager) (ename qname : String) (db : Db) : BindingManager × Db :=
  match m.bindings.lookup ename with
  | none => (m, db)
  | some qbmap =>
    if qname ∈ qbmap then
      ({ m with bindings := m.bindings.insert ename (qbmap.erase qname) }, BindingMapper.remove ename qname db)
    else (m, db)

def unbindExchange (m : BindingManager) (ename : String) (db : Db) : BindingManager × Db :=
  ({ m with bindings := m.bindings.erase ename }, BindingMapper.removeExchange ename db)

def unbindQueue (m : BindingManager) (qname : String) (db : Db) : BindingManager × Db :=
  ({ m with bindings := m.bindings.mapValues (·.erase qname) }, BindingMapper.removeQueue qname db)

def getExchangeBindings (m : BindingManager) (ename : String) : MsgQueueBindingMap :=
  (m.bindings.lookup ename).getD ∅

/-- `none`: the process aborts. -/
def clearBindings (m : BindingManager) (db : Db) : Option (BindingManager × Db) :=
  match BindingMapper.removeTable db with
  | none => none
  | some db => some ({ m with bindings := ∅ }, db)

end BindingManager
end HareMQ
