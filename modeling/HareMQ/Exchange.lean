import HareMQ.Sqlite

/-! # Exchanges (`mqserver/exchange.hpp`) -/

namespace HareMQ
open Lib

structure Exchange where
  name : String
  type : ExchangeType
  durable : Bool
  autoDelete : Bool
  args : UMap String String := ∅

namespace Exchange

def getArgs (e : Exchange) : String := Args.get e.args

def setArgs (e : Exchange) (strArgs : String) : Exchange := { e with args := Args.set e.args strArgs }

end Exchange

namespace ExchangeMapper

def new : String → Disk → Db → Option (Disk × Db) := Db.openTable Db.createExchangeTable

def removeTable : Db → Option Db := Db.removeTable Db.dropExchangeTable

def insert (e : Exchange) (db : Db) : Bool × Db :=
  db.exec (Db.insertExchange
    { name := e.name, type := e.type, durable := e.durable, autoDelete := e.autoDelete, args := e.getArgs })

def remove (name : String) (db : Db) : Db := (db.exec (Db.deleteExchanges name)).2

/-- `select_callback`. -/
def select (result : UMap String Exchange) (row : ExchangeRow) : UMap String Exchange :=
  let exp : Exchange := { name := row.name, type := row.type, durable := row.durable, autoDelete := row.autoDelete }
  result.emplace row.name (exp.setArgs row.args)

def all (db : Db) : UMap String Exchange × Db :=
  match db.query (·.exchangeTable) with
  | (rows, db) => (rows.foldl select ∅, db)

end ExchangeMapper

structure ExchangeManager where
  exchanges : UMap String Exchange := ∅

namespace ExchangeManager

def new (dbfile : String) (d : Disk) (db : Db) : Option (ExchangeManager × Disk × Db) :=
  match ExchangeMapper.new dbfile d db with
  | none => none
  | some (d, db) =>
    match ExchangeMapper.all db with
    | (exchanges, db) => some ({ exchanges }, d, db)

/-- The result of the insertion into the table is not looked at. -/
def declareExchange (m : ExchangeManager) (name : String) (type : ExchangeType) (durable autoDelete : Bool)
    (args : UMap String String) (db : Db) : Bool × ExchangeManager × Db :=
  match m.exchanges.lookup name with
  | some _ => (true, m, db)
  | none =>
    let exp : Exchange := { name, type, durable, autoDelete, args }
    let db := if durable then (ExchangeMapper.insert exp db).2 else db
    (true, { m with exchanges := m.exchanges.emplace name exp }, db)

def deleteExchange (m : ExchangeManager) (name : String) (db : Db) : ExchangeManager × Db :=
  match m.exchanges.lookup name with
  | none => (m, db)
  | some exp =>
    let db := if exp.durable then ExchangeMapper.remove name db else db
    ({ m with exchanges := m.exchanges.erase name }, db)

def selectExchange (m : ExchangeManager) (name : String) : Option Exchange := m.exchanges.lookup name

def exists? (m : ExchangeManager) (name : String) : Bool := name ∈ m.exchanges

/-- `none`: the process aborts. -/
def clearExchange (m : ExchangeManager) (db : Db) : Option (ExchangeManager × Db) :=
  match ExchangeMapper.removeTable db with
  | none => none
  | some db => some ({ m with exchanges := ∅ }, db)

end ExchangeManager
end HareMQ
