import HareMQ.Lib.Threads
import HareMQ.Store
import HareMQ.VirtualHost

/-! # The sections under the locks

Each manager has a mutex and each `queue_message` has one. A call holds one of them at a time and lets go of it in
between; the other modules take such a call as one step, and here it is the sections that are steps. Queue objects are
shared: a call keeps the one that it found, also when the map has let go of it. -/

namespace HareMQ
open Lib

/-! ### `message_manager` -/

/-- `message_manager` with its queue objects, which are references into a heap. -/
structure SharedMessages where
  baseDir : String
  queueMsgs : UMap String Ref := ∅
  objects : Ref → QueueMessage := fun _ => { mapper := MessageMapper.files "" "" }
  next : Ref := 0
  disk : Disk

inductive MessageCall
  | initQueueMsg (qname : String)
  | destroyQueueMsg (qname : String)
  | insert (qname : String) (bp : Option BasicProperties) (uuid body : String) (queueDurable : Bool)
  | front (qname : String)
  | ack (qname msgId : String)

def MessageCall.qname : MessageCall → String
  | initQueueMsg qname | destroyQueueMsg qname | insert qname .. | front qname | ack qname _ => qname

/-- Where a call is: at the section on the map, or at a section of the queue object that it holds. -/
inductive MessageSection
  | lookup (c : MessageCall)
  | recovery (qmp : Ref)
  | clear (qmp : Ref)
  | insert (qmp : Ref) (bp : Option BasicProperties) (uuid body : String) (queueDurable : Bool)
  | front (qmp : Ref)
  | remove (qmp : Ref) (msgId : String)

namespace SharedMessages
variable (pb : PayloadCodec) (s : SharedMessages)

def put (qmp : Ref) (q : QueueMessage) (disk : Disk) : SharedMessages :=
  { s with objects := Function.update s.objects qmp q, disk }

/-- The first part of a call, under the lock of the map. `none`: the constructor of the queue aborts. -/
def lookup : MessageCall → Option (SharedMessages × Next MessageSection Reply)
  | .initQueueMsg qname =>
    match s.queueMsgs.lookup qname with
    | some _ => some (s, .done (.done true))
    | none =>
      match MessageMapper.new s.disk s.baseDir qname with
      | none => none
      | some (mapper, disk) =>
        some ({ s.put s.next { mapper } disk with queueMsgs := s.queueMsgs.emplace qname s.next, next := s.next + 1 },
          .goto (.recovery s.next))
  | .destroyQueueMsg qname =>
    match s.queueMsgs.lookup qname with
    | none => some (s, .done (.done true))
    | some qmp => some ({ s with queueMsgs := s.queueMsgs.erase qname }, .goto (.clear qmp))
  | .insert qname bp uuid body queueDurable =>
    match s.queueMsgs.lookup qname with
    | none => some (s, .done (.done false))
    | some qmp => some (s, .goto (.insert qmp bp uuid body queueDurable))
  | .front qname =>
    match s.queueMsgs.lookup qname with
    | none => some (s, .done (.message none))
    | some qmp => some (s, .goto (.front qmp))
  | .ack qname msgId =>
    match s.queueMsgs.lookup qname with
    | none => some (s, .done (.done true))
    | some qmp => some (s, .goto (.remove qmp msgId))

/-- The parts under the lock of a queue come after it. `none`: a compaction aborts. -/
def runSection : MessageSection → Option (SharedMessages × Next MessageSection Reply)
  | .lookup c => s.lookup c
  | .recovery qmp =>
    match (s.objects qmp).recovery pb s.disk with
    | (q, disk) => some (s.put qmp q disk, .done (.done true))
  | .clear qmp =>
    match (s.objects qmp).clear s.disk with
    | (q, disk) => some (s.put qmp q disk, .done (.done true))
  | .insert qmp bp uuid body queueDurable =>
    match (s.objects qmp).insert pb bp uuid body queueDurable s.disk with
    | (ok, q, disk) => some (s.put qmp q disk, .done (.done ok))
  | .front qmp =>
    match (s.objects qmp).front with
    | (r, q) => some (s.put qmp q s.disk, .done (.message (r.map fun r => (q.heap r).payload.content)))
  | .remove qmp msgId =>
    match (s.objects qmp).remove pb msgId s.disk with
    | none => none
    | some (q, disk) => some (s.put qmp q disk, .done (.done true))

end SharedMessages

abbrev MessageThreads := Threads SharedMessages MessageCall MessageSection Reply

def MessageThreads.step (pb : PayloadCodec) : MessageThreads → Turn MessageCall → Option MessageThreads :=
  Threads.step MessageSection.lookup (SharedMessages.runSection pb)

/-- The same call of a manager that no other call shares. -/
def MessageManager.call (pb : PayloadCodec) (m : MessageManager × Disk) : MessageCall → Option (Reply × MessageManager × Disk)
  | .initQueueMsg qname => (m.1.initQueueMsg pb qname m.2).map (.done true, ·)
  | .destroyQueueMsg qname => some (.done true, m.1.destroyQueueMsg qname m.2)
  | .insert qname bp uuid body queueDurable =>
    match m.1.insert pb qname bp uuid body queueDurable m.2 with
    | (ok, m) => some (.done ok, m)
  | .front qname =>
    match m.1.front qname with
    | (r, mmp) =>
      some (.message (r.bind fun r => (mmp.queueMsgs.lookup qname).map fun q => (q.heap r).payload.content), mmp, m.2)
  | .ack qname msgId => (m.1.ack pb qname msgId m.2).map (.done true, ·)

/-! ### `virtual_host` -/

structure SharedHost where
  emp : ExchangeManager := {}
  mqmp : MsgQueueManager := {}
  bmp : BindingManager := {}
  mmp : SharedMessages
  db : Db

inductive HostCall
  | declareExchange (name : String) (type : ExchangeType) (durable autoDelete : Bool) (args : UMap String String)
  | deleteExchange (name : String)
  | declareQueue (qname : String) (qdurable qexclusive qautoDelete : Bool) (qargs : UMap String String)
  | deleteQueue (name : String)
  | bind (ename qname key : String)
  | unbind (ename qname : String)

/-- Where a call is. Its later sections have what the earlier ones found. -/
inductive HostSection
  | addExchange (name : String) (type : ExchangeType) (durable autoDelete : Bool) (args : UMap String String)
  | unbindExchange (name : String)
  | removeExchange (name : String)
  | initQueueMsg (sec : MessageSection) (qname : String) (qdurable qexclusive qautoDelete : Bool)
      (qargs : UMap String String)
  | addQueue (qname : String) (qdurable qexclusive qautoDelete : Bool) (qargs : UMap String String)
  | destroyQueueMsg (sec : MessageSection) (name : String)
  | unbindQueue (name : String)
  | removeQueue (name : String)
  | selectExchange (ename qname key : String)
  | selectQueue (ename qname key : String) (ep : Exchange)
  | addBinding (ename qname key : String) (durable : Bool)
  | unbind (ename qname : String)

def HostCall.start : HostCall → HostSection
  | declareExchange name type durable autoDelete args => .addExchange name type durable autoDelete args
  | deleteExchange name => .unbindExchange name
  | declareQueue qname qdurable qexclusive qautoDelete qargs =>
    .initQueueMsg (.lookup (.initQueueMsg qname)) qname qdurable qexclusive qautoDelete qargs
  | deleteQueue name => .destroyQueueMsg (.lookup (.destroyQueueMsg name)) name
  | bind ename qname key => .selectExchange ename qname key
  | unbind ename qname => .unbind ename qname

namespace SharedHost
variable (pb : PayloadCodec) (h : SharedHost)

/-- A section of a call of the message manager, and where the outer call goes from there. -/
def messages (sec : MessageSection) (inner : MessageSection → HostSection) (outer : HostSection) :
    Option (SharedHost × Next HostSection Bool) :=
  match h.mmp.runSection pb sec with
  | none => none
  | some (mmp, .goto sec) => some ({ h with mmp }, .goto (inner sec))
  | some (mmp, .done _) => some ({ h with mmp }, .goto outer)

/-- A call that returns nothing is taken to return true. `none`: the process aborts. -/
def runSection : HostSection → Option (SharedHost × Next HostSection Bool)
  | .addExchange name type durable autoDelete args =>
    match h.emp.declareExchange name type durable autoDelete args h.db with
    | (ok, emp, db) => some ({ h with emp, db }, .done ok)
  | .unbindExchange name =>
    match h.bmp.unbindExchange name h.db with
    | (bmp, db) => some ({ h with bmp, db }, .goto (.removeExchange name))
  | .removeExchange name =>
    match h.emp.deleteExchange name h.db with
    | (emp, db) => some ({ h with emp, db }, .done true)
  | .initQueueMsg sec qname qdurable qexclusive qautoDelete qargs =>
    h.messages pb sec (.initQueueMsg · qname qdurable qexclusive qautoDelete qargs)
      (.addQueue qname qdurable qexclusive qautoDelete qargs)
  | .addQueue qname qdurable qexclusive qautoDelete qargs =>
    match h.mqmp.declareQueue qname qdurable qexclusive qautoDelete qargs h.db with
    | (ok, mqmp, db) => some ({ h with mqmp, db }, .done ok)
  | .destroyQueueMsg sec name => h.messages pb sec (.destroyQueueMsg · name) (.unbindQueue name)
  | .unbindQueue name =>
    match h.bmp.unbindQueue name h.db with
    | (bmp, db) => some ({ h with bmp, db }, .goto (.removeQueue name))
  | .removeQueue name =>
    match h.mqmp.deleteQueue name h.db with
    | (mqmp, db) => some ({ h with mqmp, db }, .done true)
  | .selectExchange ename qname key =>
    match h.emp.selectExchange ename with
    | none => some (h, .done false)
    | some ep => some (h, .goto (.selectQueue ename qname key ep))
  | .selectQueue ename qname key ep =>
    match h.mqmp.selectQueue qname with
    | none => some (h, .done false)
    | some mqp => some (h, .goto (.addBinding ename qname key (ep.durable && mqp.durable)))
  | .addBinding ename qname key durable =>
    match h.bmp.bind ename qname key durable h.db with
    | (ok, bmp, db) => some ({ h with bmp, db }, .done ok)
  | .unbind ename qname =>
    match h.bmp.unbind ename qname h.db with
    | (bmp, db) => some ({ h with bmp, db }, .done true)

end SharedHost

abbrev HostThreads := Threads SharedHost HostCall HostSection Bool

def HostThreads.step (pb : PayloadCodec) : HostThreads → Turn HostCall → Option HostThreads :=
  Threads.step HostCall.start (SharedHost.runSection pb)

end HareMQ
