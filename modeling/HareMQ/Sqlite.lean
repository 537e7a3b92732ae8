import HareMQ.Lib.Disk
import HareMQ.Lib.UMap
import HareMQ.Helper
import HareMQ.Msg

/-! # The database (`sqlite_helper` and the three tables)

The statements that the mappers render are operations on tables here. The environment decides the outcome of
each statement in advance; a statement past the end of the list succeeds. -/

namespace HareMQ
open Lib

structure ExchangeRow where
  name : String
  type : ExchangeType
  durable : Bool
  autoDelete : Bool
  args : String
deriving DecidableEq

structure QueueRow where
  name : String
  durable : Bool
  exclusive : Bool
  autoDelete : Bool
  args : String
deriving DecidableEq

structure BindingRow where
  exchangeName : String
  msgQueueName : String
  bindingKey : String
deriving DecidableEq

/-- What the environment does to one statement. A query that fails may have delivered some rows. -/
inductive Fate
  | ok
  | fail (delivered : Nat)
deriving DecidableEq

/-- The database file. A table that was not created, or was dropped, is `none`. -/
structure Db where
  exchangeTable : Option (List ExchangeRow) := none
  queueTable : Option (List QueueRow) := none
  bindingTable : Option (List BindingRow) := none
  fates : List Fate := []

namespace Db

def fate (db : Db) : Fate := db.fates.headD .ok

def tick (db : Db) : Db := { db with fates := db.fates.tail }

/-- `exec` of a statement that changes the database; the statement itself may be in error. -/
def exec (db : Db) (statement : Db → Option Db) : Bool × Db :=
  match db.fate with
  | .fail _ => (false, db.tick)
  | .ok =>
    match statement db.tick with
    | none => (false, db.tick)
    | some db => (true, db)

/-- `exec` of a query: the rows that the callback sees. A query that fails may have delivered some. -/
def query {ρ : Type} (db : Db) (table : Db → Option (List ρ)) : List ρ × Db :=
  match db.fate with
  | .fail delivered => (((table db).getD []).take delivered, db.tick)
  | .ok => ((table db).getD [], db.tick)

/-- `open`. -/
def openFile (db : Db) : Bool × Db := db.exec some

/-- Every coming statement succeeds. -/
def Calm (db : Db) : Prop := db.fates = []

/-! ### Statements -/

/-- `create table if not exists`. -/
def createExchangeTable (db : Db) : Option Db :=
  some { db with exchangeTable := some (db.exchangeTable.getD []) }

def createQueueTable (db : Db) : Option Db := some { db with queueTable := some (db.queueTable.getD []) }

def createBindingTable (db : Db) : Option Db := some { db with bindingTable := some (db.bindingTable.getD []) }

/-- `drop table if exists`. -/
def dropExchangeTable (db : Db) : Option Db := some { db with exchangeTable := none }

def dropQueueTable (db : Db) : Option Db := some { db with queueTable := none }

def dropBindingTable (db : Db) : Option Db := some { db with bindingTable := none }

/-- The name is the primary key. -/
def insertExchange (row : ExchangeRow) (db : Db) : Option Db :=
  match db.exchangeTable with
  | none => none
  | some rows =>
    if rows.any (·.name = row.name) then none else some { db with exchangeTable := some (rows ++ [row]) }

def insertQueue (row : QueueRow) (db : Db) : Option Db :=
  match db.queueTable with
  | none => none
  | some rows => if rows.any (·.name = row.name) then none else some { db with queueTable := some (rows ++ [row]) }

def insertBinding (row : BindingRow) (db : Db) : Option Db :=
  match db.bindingTable with
  | none => none
  | some rows => some { db with bindingTable := some (rows ++ [row]) }

def deleteExchanges (name : String) (db : Db) : Option Db :=
  db.exchangeTable.map fun rows => { db with exchangeTable := some (rows.filter (·.name ≠ name)) }

def deleteQueues (name : String) (db : Db) : Option Db :=
  db.queueTable.map fun rows => { db with queueTable := some (rows.filter (·.name ≠ name)) }

/-- The three deletions from the binding table differ in their `where` clause. -/
def deleteBindings (clause : BindingRow → Bool) (db : Db) : Option Db :=
  db.bindingTable.map fun rows => { db with bindingTable := some (rows.filter fun row => !clause row) }

/-! ### Mappers -/

/-- The constructor of a mapper, which also creates the directory of the database file. `none`: the process aborts. -/
def openTable (create : Db → Option Db) (dbfile : String) (d : Disk) (db : Db) : Option (Disk × Db) :=
  match FileHelper.createDir d (FileHelper.parentDir dbfile) with
  | (_, d) =>
    match db.openFile with
    | (false, _) => none
    | (true, db) =>
      match db.exec create with
      | (false, _) => none
      | (true, db) => some (d, db)

/-- `remove_table` of a mapper. `none`: the process aborts. -/
def removeTable (drop : Db → Option Db) (db : Db) : Option Db :=
  match db.exec drop with
  | (false, _) => none
  | (true, db) => some db

end Db

/-! ### Arguments of exchanges and queues -/

namespace Args

/-- `get_args`: `key=value&key=value&` in the order of iteration. -/
def get (args : UMap String String) : String :=
  args.entries.foldl (fun result e => result ++ (e.1 ++ "=" ++ e.2 ++ "&")) ""

/-- The loop body of `set_args`. Without `=` the whole text is both key and value. -/
def insertArg (args : UMap String String) (arg : String) : UMap String String :=
  let chars := arg.toList
  let key := chars.takeWhile (· ≠ '=')
  if key.length = chars.length then args.emplace arg arg
  else args.emplace (String.ofList key) (String.ofList (chars.drop (key.length + 1)))

def set (args : UMap String String) (strArgs : String) : UMap String String :=
  (split strArgs "&").foldl insertArg args

/-- The arguments that a command of the client is given (`client::run_cmd`). `none`: a part has no `=`. -/
def parse (text : String) : Option (UMap String String) :=
  if text = "" then some ∅
  else
    let parts := split text "&"
    if parts.all fun arg => arg.toList.contains '=' then some (parts.foldl insertArg ∅) else none

end Args
end HareMQ
