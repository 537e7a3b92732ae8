import HareMQ.Lib.SqlCommand
import HareMQ.Binding
import HareMQ.Exchange
import HareMQ.Queue

/-! # The texts of the statements

The mappers render their statements with `sprintf` into a buffer on the stack. The other modules take a statement as an
operation on a table; here it is the text, and the operation is what the text means. -/

namespace HareMQ
open Lib Sql

/-! ### `sprintf` -/

inductive SprintfArg
  | str (s : String)
  | int (n : Int)

/-- What a C string shows of a text. -/
def cStr (s : String) : List Char := s.toList.takeWhile (· ≠ '\x00')

/-- The conversions `%s` and `%d`. -/
def sprintf : List Char → List SprintfArg → List Char
  | '%' :: 's' :: format, .str s :: args => cStr s ++ sprintf format args
  | '%' :: 'd' :: format, .int n :: args => (toString n).toList ++ sprintf format args
  | c :: format, args => c :: sprintf format args
  | [], _ => []

/-- `char sql_str[4096]`. -/
def bufferSize : Nat := 4096

/-! ### Templates -/

def exchangeInsertSql : String := "insert into exchange_table values('%s', %d, %d, %d, '%s');"

def exchangeDeleteSql : String := "delete from exchange_table where name='%s';"

def queueInsertSql : String := "insert into queue_table values('%s', %d, %d, %d, '%s');"

def queueDeleteSql : String := "delete from queue_table where name='%s';"

def bindingInsertSql : String := "insert into binding_table values('%s', '%s', '%s');"

def bindingDeleteSql : String := "delete from binding_table where exchange_name='%s' and msg_queue_name='%s';"

def bindingDeleteExchangeSql : String := "delete from binding_table where exchange_name='%s';"

def bindingDeleteQueueSql : String := "delete from binding_table where msg_queue_name='%s';"

/-- The enum as `%d` shows it. -/
def ExchangeType.toInt : ExchangeType → Int
  | unknowType => 0
  | direct => 1
  | fanout => 2
  | topic => 3
  | unrecognized value _ => if value.toNat < 2 ^ 31 then value.toNat else value.toNat - 2 ^ 32

/-- `ep->durable == true ? 1 : 0`. -/
def sqlFlag (b : Bool) : Int := if b then 1 else 0

/-- A call of `insert` or of one of the removals of a mapper. -/
inductive Statement
  | insertExchange (row : ExchangeRow)
  | deleteExchange (name : String)
  | insertQueue (row : QueueRow)
  | deleteQueue (name : String)
  | insertBinding (row : BindingRow)
  | deleteBinding (ename qname : String)
  | deleteBindingExchange (ename : String)
  | deleteBindingQueue (qname : String)

namespace Statement

def template : Statement → String
  | insertExchange _ => exchangeInsertSql
  | deleteExchange _ => exchangeDeleteSql
  | insertQueue _ => queueInsertSql
  | deleteQueue _ => queueDeleteSql
  | insertBinding _ => bindingInsertSql
  | deleteBinding .. => bindingDeleteSql
  | deleteBindingExchange _ => bindingDeleteExchangeSql
  | deleteBindingQueue _ => bindingDeleteQueueSql

def args : Statement → List SprintfArg
  | insertExchange row =>
    [.str row.name, .int row.type.toInt, .int (sqlFlag row.durable), .int (sqlFlag row.autoDelete), .str row.args]
  | deleteExchange name => [.str name]
  | insertQueue row =>
    [.str row.name, .int (sqlFlag row.durable), .int (sqlFlag row.exclusive), .int (sqlFlag row.autoDelete), .str row.args]
  | deleteQueue name => [.str name]
  | insertBinding row => [.str row.exchangeName, .str row.msgQueueName, .str row.bindingKey]
  | deleteBinding ename qname => [.str ename, .str qname]
  | deleteBindingExchange ename => [.str ename]
  | deleteBindingQueue qname => [.str qname]

/-- The text that `sqlite3_exec` gets. -/
def sql (st : Statement) : List Char := sprintf st.template.toList st.args

/-- The bytes that `sprintf` writes, without the terminator. -/
def size (st : Statement) : Nat := (String.ofList st.sql).utf8ByteSize

/-- The strings that are given. -/
def strings (st : Statement) : List String :=
  st.args.filterMap fun
    | .str s => some s
    | .int _ => none

/-- The operation on the tables that stands for the statement elsewhere. -/
def apply : Statement → Db → Option Db
  | insertExchange row => Db.insertExchange row
  | deleteExchange name => Db.deleteExchanges name
  | insertQueue row => Db.insertQueue row
  | deleteQueue name => Db.deleteQueues name
  | insertBinding row => Db.insertBinding row
  | deleteBinding ename qname => Db.deleteBindings fun row => row.exchangeName = ename && row.msgQueueName = qname
  | deleteBindingExchange ename => Db.deleteBindings fun row => row.exchangeName = ename
  | deleteBindingQueue qname => Db.deleteBindings fun row => row.msgQueueName = qname

end Statement

/-! ### The meaning of a text -/

/-- The type that the column holds, as `select_callback` takes it back. -/
def ExchangeType.ofInt (n : Int) : ExchangeType :=
  let value := UInt32.ofInt n
  if h : 4 ≤ value then unrecognized value h
  else if value = 0 then unknowType else if value = 1 then direct else if value = 2 then fanout else topic

namespace Db

/-- An insertion or a deletion. `none`: the statement is in error, or of a kind that no template has. -/
def command : Command → Db → Option Db
  | .insert table [.text name, .int a, .int b, .int c, .text args] =>
    if table = "exchange_table".toList then
      insertExchange
        { name := String.ofList name, type := .ofInt a, durable := b != 0, autoDelete := c != 0, args := String.ofList args }
    else if table = "queue_table".toList then
      insertQueue
        { name := String.ofList name, durable := a != 0, exclusive := b != 0, autoDelete := c != 0, args := String.ofList args }
    else fun _ => none
  | .insert table [.text ename, .text qname, .text key] =>
    if table = "binding_table".toList then
      insertBinding
        { exchangeName := String.ofList ename, msgQueueName := String.ofList qname, bindingKey := String.ofList key }
    else fun _ => none
  | .delete table [(column, s)] =>
    if table = "exchange_table".toList ∧ column = "name".toList then deleteExchanges (String.ofList s)
    else if table = "queue_table".toList ∧ column = "name".toList then deleteQueues (String.ofList s)
    else if table = "binding_table".toList ∧ column = "exchange_name".toList then
      deleteBindings fun row => row.exchangeName = String.ofList s
    else if table = "binding_table".toList ∧ column = "msg_queue_name".toList then
      deleteBindings fun row => row.msgQueueName = String.ofList s
    else fun _ => none
  | .delete table [(column, s), (column', s')] =>
    if table = "binding_table".toList ∧ column = "exchange_name".toList ∧ column' = "msg_queue_name".toList then
      deleteBindings fun row => row.exchangeName = String.ofList s && row.msgQueueName = String.ofList s'
    else fun _ => none
  | _ => fun _ => none

/-- `sqlite3_exec` carries out one statement of the text after the other. `none`: not all of them are carried out. -/
def execText (text : List Char) (db : Db) : Option Db :=
  (Sql.read text).bind fun statements =>
    statements.foldlM (fun db toks => (Command.parse toks).bind fun cmd => db.command cmd) db

end Db
end HareMQ
