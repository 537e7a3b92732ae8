import HareMQ.Binding
import HareMQ.Exchange
import HareMQ.Message
import HareMQ.Queue

/-! # The virtual host (`mqserver/virtual_host.hpp`) -/

namespace HareMQ
open Lib

structure VirtualHost where
  emp : ExchangeManager
  mqmp : MsgQueueManager
  bmp : BindingManager
  mmp : MessageManager
  disk : Disk
  db : Db

namespace VirtualHost
variable (pb : PayloadCodec)

/-- The loop of the constructor over the recovered queues. -/
def initAll (mmp : MessageManager) (d : Disk) : List String → Option (MessageManager × Disk)
  | [] => some (mmp, d)
  | qname :: qnames =>
    match mmp.initQueueMsg pb qname d with
    | none => none
    | some (mmp, d) => initAll mmp d qnames

/-- The constructor. `none`: the process aborts. -/
def new (basedir dbfile : String) (d : Disk) (db : Db) : Option VirtualHost :=
  match ExchangeManager.new dbfile d db with
  | none => none
  | some (emp, d, db) =>
    match MsgQueueManager.new dbfile d db with
    | none => none
    | some (mqmp, d, db) =>
      match BindingManager.new dbfile d db with
      | none => none
      | some (bmp, d, db) =>
        match initAll pb { baseDir := basedir } d mqmp.msgQueues.keys with
        | none => none
        | some (mmp, d) => some { emp, mqmp, bmp, mmp, disk := d, db }

variable (h : VirtualHost)

def declareExchange (name : String) (type : ExchangeType) (durable autoDelete : Bool) (args : UMap String String) :
    Bool × VirtualHost :=
  match h.emp.declareExchange name type durable autoDelete args h.db with
  | (ok, emp, db) => (ok, { h with emp, db })

def deleteExchange (name : String) : VirtualHost :=
  match h.bmp.unbindExchange name h.db with
  | (bmp, db) =>
    match h.emp.deleteExchange name db with
    | (emp, db) => { h with bmp, emp, db }

/-- The messages of the queue are recovered before the queue is declared. `none`: the process aborts. -/
def declareQueue (qname : String) (qdurable qexclusive qautoDelete : Bool) (qargs : UMap String String) :
    Option (Bool × VirtualHost) :=
  match h.mmp.initQueueMsg pb qname h.disk with
  | none => none
  | some (mmp, disk) =>
    match h.mqmp.declareQueue qname qdurable qexclusive qautoDelete qargs h.db with
    | (ok, mqmp, db) => some (ok, { h with mmp, disk, mqmp, db })

def deleteQueue (name : String) : VirtualHost :=
  match h.mmp.destroyQueueMsg name h.disk with
  | (mmp, disk) =>
    match h.bmp.unbindQueue name h.db with
    | (bmp, db) =>
      match h.mqmp.deleteQueue name db with
      | (mqmp, db) => { h with mmp, disk, bmp, mqmp, db }

/-- A binding is durable when both its exchange and its queue are. -/
def bind (ename qname key : String) : Bool × VirtualHost :=
  match h.emp.selectExchange ename with
  | none => (false, h)
  | some ep =>
    match h.mqmp.selectQueue qname with
    | none => (false, h)
    | some mqp =>
      match h.bmp.bind ename qname key (ep.durable && mqp.durable) h.db with
      | (ok, bmp, db) => (ok, { h with bmp, db })

def unbind (ename qname : String) : VirtualHost :=
  match h.bmp.unbind ename qname h.db with
  | (bmp, db) => { h with bmp, db }

def exchangeBindings (ename : String) : MsgQueueBindingMap := h.bmp.getExchangeBindings ename

def allQueues : UMap String MsgQueue := h.mqmp.msgQueues

def selectExchange (ename : String) : Option Exchange := h.emp.selectExchange ename

def existsExchange (ename : String) : Bool := h.emp.exists? ename

def existsQueue (qname : String) : Bool := h.mqmp.exists? qname

def existsBinding (ename qname : String) : Bool := h.bmp.exists? ename qname

def basicPublish (qname : String) (bp : Option BasicProperties) (uuid body : String) : Bool × VirtualHost :=
  match h.mqmp.selectQueue qname with
  | none => (false, h)
  | some mqp =>
    match h.mmp.insert pb qname bp uuid body mqp.durable h.disk with
    | (ok, mmp, disk) => (ok, { h with mmp, disk })

def basicConsume (qname : String) : Option Ref × VirtualHost :=
  match h.mmp.front qname with
  | (r, mmp) => (r, { h with mmp })

/-- `none`: the process aborts. -/
def basicAck (qname msgId : String) : Option VirtualHost :=
  match h.mmp.ack pb qname msgId h.disk with
  | none => none
  | some (mmp, disk) => some { h with mmp, disk }

/-- `none`: a binding is filed under another exchange, and the assertion fails. -/
def basicQuery : Option String :=
  let yellowBold := "\x1b[1;33m"
  let reset := "\x1b[0m"
  let allEx := h.emp.exchanges.entries
  if allEx.all fun e => (h.exchangeBindings e.1).entries.all (·.2.exchangeName = e.1) then
    let allBindings := allEx.flatMap fun e => (h.exchangeBindings e.1).entries.map (·.2)
    some (yellowBold ++ "------------------------ Query ------------------------\n" ++ reset
      ++ yellowBold ++ "exists exchanges: " ++ reset ++ "\n" ++ "    "
      ++ String.join (allEx.map fun e => e.1 ++ ", ") ++ "\n"
      ++ yellowBold ++ "exists queues: \n" ++ reset ++ "    "
      ++ String.join (h.allQueues.entries.map fun e => e.1 ++ ", ") ++ "\n"
      ++ yellowBold ++ "exists bindings: \n" ++ reset
      ++ String.join (allBindings.map fun b =>
        "    " ++ b.exchangeName ++ "<-->" ++ b.msgQueueName ++ ", binding_key: " ++ b.bindingKey ++ "\n")
      ++ yellowBold ++ "-------------------------------------------------------" ++ reset)
  else none

/-- `none`: the process aborts. -/
def clear : Option VirtualHost :=
  match h.emp.clearExchange h.db with
  | none => none
  | some (emp, db) =>
    match h.mqmp.clearQueues db with
    | none => none
    | some (mqmp, db) =>
      match h.bmp.clearBindings db with
      | none => none
      | some (bmp, db) =>
        match h.mmp.clear h.disk with
        | (mmp, disk) => some { h with emp, mqmp, bmp, mmp, disk, db }

end VirtualHost

/-! ### Runs -/

/-- An operation on the metadata, or a restart: a new `virtual_host` on the same directory and database. -/
inductive HostOp
  | declareExchange (name : String) (type : ExchangeType) (durable autoDelete : Bool) (args : UMap String String)
  | deleteExchange (name : String)
  | declareQueue (qname : String) (qdurable qexclusive qautoDelete : Bool) (qargs : UMap String String)
  | deleteQueue (name : String)
  | bind (ename qname key : String)
  | unbind (ename qname : String)
  | restart

namespace VirtualHost
variable (pb : PayloadCodec) (basedir dbfile : String)

/-- `none`: the process aborts. -/
def step (h : VirtualHost) : HostOp → Option VirtualHost
  | .declareExchange name type durable autoDelete args => some (h.declareExchange name type durable autoDelete args).2
  | .deleteExchange name => some (h.deleteExchange name)
  | .declareQueue qname qdurable qexclusive qautoDelete qargs =>
    (h.declareQueue pb qname qdurable qexclusive qautoDelete qargs).map (·.2)
  | .deleteQueue name => some (h.deleteQueue name)
  | .bind ename qname key => some (h.bind ename qname key).2
  | .unbind ename qname => some (h.unbind ename qname)
  | .restart => new pb basedir dbfile h.disk h.db

def run (h : VirtualHost) : List HostOp → Option VirtualHost
  | [] => some h
  | op :: ops =>
    match h.step pb basedir dbfile op with
    | none => none
    | some h => h.run ops

end VirtualHost
end HareMQ
