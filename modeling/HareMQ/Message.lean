import HareMQ.Lib.Frames
import HareMQ.Helper
import HareMQ.Lib.UMap
import HareMQ.Msg

/-! # Message storage (`mqserver/message.hpp`)

`message_mapper` keeps the durable messages of one queue in a data file of length-prefixed records;
`queue_message` keeps the messages of the queue in memory. The two share message objects, which are
references into the heap of the queue here. -/

namespace HareMQ
open Lib

/-! ## `message_mapper` -/

structure MessageMapper where
  dataFile : String
  tmpFile : String
deriving DecidableEq, Repr

namespace MessageMapper

def createMsgFile (m : MessageMapper) (d : Disk) : Bool × Disk :=
  if FileHelper.exists? d m.dataFile then (true, d) else FileHelper.create d m.dataFile

/-- The directory as the constructor completes it. -/
def directory (baseDir : String) : String := if baseDir.toList.getLast? = some '/' then baseDir else baseDir ++ "/"

/-- The file names that the constructor builds. -/
def files (baseDir qname : String) : MessageMapper where
  dataFile := directory baseDir ++ qname ++ ".mqd"
  tmpFile := directory baseDir ++ qname ++ ".mqd.tmp"

/-- The constructor. `none`: the directory could not be created and the process aborts. -/
def new (d : Disk) (baseDir qname : String) : Option (MessageMapper × Disk) :=
  let m := files baseDir qname
  if FileHelper.exists? d (directory baseDir) then some (m, (m.createMsgFile d).2)
  else
    match FileHelper.createDir d (directory baseDir) with
    | (false, _) => none
    | (true, d) => some (m, (m.createMsgFile d).2)

def removeMsgFile (m : MessageMapper) (d : Disk) : Disk :=
  (FileHelper.remove (FileHelper.remove d m.dataFile).2 m.tmpFile).2

variable (pb : PayloadCodec)

/-- `__insert`: two appends, the length and then the body. The message learns its place only when both
    succeed. -/
def insertInto (fileName : String) (msg : Message) (d : Disk) : Bool × Message × Disk :=
  let body := pb.serialize msg.payload
  let fsize := FileHelper.size d fileName
  match FileHelper.write d fileName fsize (le64 body.length) with
  | (false, d) => (false, msg, d)
  | (true, d) =>
    match FileHelper.write d fileName (fsize + 8) body with
    | (false, d) => (false, msg, d)
    | (true, d) => (true, msg.setPlace (fsize + 8) body.length, d)

def insert (m : MessageMapper) (msg : Message) (d : Disk) : Bool × Message × Disk := insertInto pb m.dataFile msg d

/-- `remove`: the record is overwritten in place, if its length is unchanged. The message is marked
    invalid in any case. -/
def remove (m : MessageMapper) (msg : Message) (d : Disk) : Bool × Message × Disk :=
  let msg := { msg with payload := msg.payload.setValid "0" }
  let body := pb.serialize msg.payload
  if body.length ≠ msg.length then (false, msg, d)
  else
    match FileHelper.write d m.dataFile msg.offset body with
    | (ok, d) => (ok, msg, d)

/-- The loop of `__load`. Every round moves the offset by eight bytes at least, so that a fuel of `fsize`
    is never used up. A payload that does not parse is kept as far as it was read, unless its flag is
    `"0"`. -/
def loadLoop (fileName : String) (fsize : Nat) : Nat → Nat → List Message → Disk → Bool × List Message × Disk
  | 0, _, lst, d => (true, lst, d)
  | fuel + 1, offset, lst, d =>
    if offset < fsize then
      match FileHelper.read d fileName offset 8 with
      | (none, d) => (false, lst, d)
      | (some msgSize, d) =>
        match FileHelper.read d fileName (offset + 8) (fromLe msgSize) with
        | (none, d) => (false, lst, d)
        | (some msgBody, d) =>
          let payload := (pb.parse msgBody).2
          let lst := if payload.valid = "0" then lst else lst ++ [{ payload := payload }]
          loadLoop fileName fsize fuel (offset + 8 + fromLe msgSize) lst d
    else (true, lst, d)

/-- `__load`. -/
def load (m : MessageMapper) (d : Disk) : Bool × List Message × Disk :=
  loadLoop pb m.dataFile (FileHelper.size d m.dataFile) (FileHelper.size d m.dataFile) 0 [] d

/-- The loop of `gc` that appends the loaded messages to the temporary file. -/
def insertAll (fileName : String) : List Message → Disk → Bool × List Message × Disk
  | [], d => (true, [], d)
  | msg :: rest, d =>
    match insertInto pb fileName msg d with
    | (false, msg, d) => (false, msg :: rest, d)
    | (true, msg, d) =>
      match insertAll fileName rest d with
      | (ok, rest, d) => (ok, msg :: rest, d)

/-- `gc`: every exit returns the messages loaded so far. -/
def gc (m : MessageMapper) (d : Disk) : List Message × Disk :=
  match load pb m d with
  | (false, lst, d) => (lst, d)
  | (true, lst, d) =>
    match insertAll pb m.tmpFile lst (FileHelper.create d m.tmpFile).2 with
    | (false, lst, d) => (lst, d)
    | (true, lst, d) =>
      match FileHelper.remove d m.dataFile with
      | (false, d) => (lst, d)
      | (true, d) => (lst, (FileHelper.rename d m.tmpFile m.dataFile).2)

end MessageMapper

/-! ## `queue_message` -/

/-- `message_ptr`. -/
abbrev Ref := Nat

structure QueueMessage where
  mapper : MessageMapper
  validCount : Nat := 0
  totalCount : Nat := 0
  msgs : List Ref := []
  durableMsgs : UMap String Ref := ∅
  waitAckMsgs : UMap String Ref := ∅
  heap : Ref → Message := fun _ => {}
  next : Ref := 0

namespace QueueMessage

/-- `make_shared<Message>`. -/
def alloc (q : QueueMessage) (msg : Message) : Ref × QueueMessage :=
  (q.next, { q with heap := Function.update q.heap q.next msg, next := q.next + 1 })

/-- A loaded message joins the pending list and the durable map. -/
def adopt (q : QueueMessage) (msg : Message) : QueueMessage :=
  match q.alloc msg with
  | (r, q) => { q with msgs := q.msgs ++ [r], durableMsgs := q.durableMsgs.emplace msg.id r }

/-- The ratio test in exact arithmetic: doubles decide it the same way for counters below `2 ^ 53`. -/
def gcCheck (q : QueueMessage) : Bool := 2000 < q.totalCount && 2 * q.validCount < q.totalCount

/-- The loop body of `gc`: the place of a message that survived the compaction is patched by its id. A
    message that the durable map does not know is queued again. -/
def relocate (q : QueueMessage) (msg : Message) : QueueMessage :=
  match q.durableMsgs.lookup msg.id with
  | none => q.adopt msg
  | some r =>
    { q with heap := Function.update q.heap r { q.heap r with offset := msg.offset, length := msg.length } }

variable (pb : PayloadCodec)

/-- `recovery`. -/
def recovery (q : QueueMessage) (d : Disk) : QueueMessage × Disk :=
  match q.mapper.gc pb d with
  | (lst, d) => ({ lst.foldl adopt { q with msgs := [] } with validCount := lst.length, totalCount := lst.length }, d)

/-- The message that `insert` builds: an id from `uuid_helper` and no routing key when the publisher gave
    no properties, and the durable mode only in a durable queue. -/
def makeMessage (bp : Option BasicProperties) (uuid body : String) (queueDurable : Bool) : Message :=
  match bp with
  | some bp =>
    let mode := if queueDurable then bp.deliveryMode else .undurable
    { payload := { properties := some { id := bp.id, deliveryMode := mode, routingKey := bp.routingKey }, body } }
  | none =>
    let mode := if queueDurable then .durable else .undurable
    { payload := { properties := some { id := uuid, deliveryMode := mode, routingKey := "" }, body } }

def insert (q : QueueMessage) (bp : Option BasicProperties) (uuid body : String) (queueDurable : Bool) (d : Disk) :
    Bool × QueueMessage × Disk :=
  let msg := makeMessage bp uuid body queueDurable
  if msg.isDurable then
    match q.mapper.insert pb { msg with payload := msg.payload.setValid "1" } d with
    | (false, _, d) => (false, q, d)
    | (true, msg, d) =>
      match q.alloc msg with
      | (r, q) =>
        (true, { q with
          validCount := (q.validCount + 1) % 2 ^ 64
          totalCount := (q.totalCount + 1) % 2 ^ 64
          durableMsgs := q.durableMsgs.emplace msg.id r
          msgs := q.msgs ++ [r] }, d)
  else
    match q.alloc msg with
    | (r, q) => (true, { q with msgs := q.msgs ++ [r] }, d)

/-- `gc`. `none`: the assertion fails and the process aborts. -/
def gc (q : QueueMessage) (d : Disk) : Option (QueueMessage × Disk) :=
  if q.gcCheck then
    match q.mapper.gc pb d with
    | (lst, d) =>
      if lst.length = q.validCount then
        some ({ lst.foldl relocate q with validCount := lst.length, totalCount := lst.length }, d)
      else none
  else some (q, d)

/-- The first half of `remove` for a durable message, up to the call of `gc`. The counter wraps below 0. -/
def invalidate (q : QueueMessage) (msgId : String) (r : Ref) (d : Disk) : QueueMessage × Disk :=
  match q.mapper.remove pb (q.heap r) d with
  | (_, msg, d) =>
    ({ q with
      heap := Function.update q.heap r msg
      durableMsgs := q.durableMsgs.erase msgId
      validCount := (q.validCount + (2 ^ 64 - 1)) % 2 ^ 64 }, d)

/-- `remove`, which always returns true. `none`: `gc` aborts. -/
def remove (q : QueueMessage) (msgId : String) (d : Disk) : Option (QueueMessage × Disk) :=
  match q.waitAckMsgs.lookup msgId with
  | none => some (q, d)
  | some r =>
    if (q.heap r).isDurable then
      match q.invalidate pb msgId r d with
      | (q, d) =>
        match q.gc pb d with
        | none => none
        | some (q, d) => some ({ q with waitAckMsgs := q.waitAckMsgs.erase msgId }, d)
    else some ({ q with waitAckMsgs := q.waitAckMsgs.erase msgId }, d)

/-- `front`: a null pointer when nothing is pending. -/
def front (q : QueueMessage) : Option Ref × QueueMessage :=
  match q.msgs with
  | [] => (none, q)
  | r :: rest => (some r, { q with msgs := rest, waitAckMsgs := q.waitAckMsgs.emplace (q.heap r).id r })

def getableCount (q : QueueMessage) : Nat := q.msgs.length

def waitAckCount (q : QueueMessage) : Nat := q.waitAckMsgs.size

def durableCount (q : QueueMessage) : Nat := q.durableMsgs.size

def clear (q : QueueMessage) (d : Disk) : QueueMessage × Disk :=
  ({ q with msgs := [], durableMsgs := ∅, waitAckMsgs := ∅, validCount := 0, totalCount := 0 },
    q.mapper.removeMsgFile d)

end QueueMessage

/-! ## `message_manager` -/

structure MessageManager where
  baseDir : String
  queueMsgs : UMap String QueueMessage := ∅

namespace MessageManager
variable (pb : PayloadCodec)

/-- `none`: the constructor of the queue aborts. -/
def initQueueMsg (m : MessageManager) (qname : String) (d : Disk) : Option (MessageManager × Disk) :=
  match m.queueMsgs.lookup qname with
  | some _ => some (m, d)
  | none =>
    match MessageMapper.new d m.baseDir qname with
    | none => none
    | some (mapper, d) =>
      match ({ mapper } : QueueMessage).recovery pb d with
      | (qmp, d) => some ({ m with queueMsgs := m.queueMsgs.emplace qname qmp }, d)

def destroyQueueMsg (m : MessageManager) (qname : String) (d : Disk) : MessageManager × Disk :=
  match m.queueMsgs.lookup qname with
  | none => (m, d)
  | some qmp => ({ m with queueMsgs := m.queueMsgs.erase qname }, (qmp.clear d).2)

/-- The queue `qname` after an operation on it. -/
def put (m : MessageManager) (qname : String) (qmp : QueueMessage) : MessageManager :=
  { m with queueMsgs := m.queueMsgs.insert qname qmp }

def insert (m : MessageManager) (qname : String) (bp : Option BasicProperties) (uuid body : String) (queueDurable : Bool)
    (d : Disk) : Bool × MessageManager × Disk :=
  match m.queueMsgs.lookup qname with
  | none => (false, m, d)
  | some qmp =>
    match qmp.insert pb bp uuid body queueDurable d with
    | (ok, qmp, d) => (ok, m.put qname qmp, d)

def front (m : MessageManager) (qname : String) : Option Ref × MessageManager :=
  match m.queueMsgs.lookup qname with
  | none => (none, m)
  | some qmp =>
    match qmp.front with
    | (r, qmp) => (r, m.put qname qmp)

/-- `none`: a compaction aborts. -/
def ack (m : MessageManager) (qname msgId : String) (d : Disk) : Option (MessageManager × Disk) :=
  match m.queueMsgs.lookup qname with
  | none => some (m, d)
  | some qmp =>
    match qmp.remove pb msgId d with
    | none => none
    | some (qmp, d) => some (m.put qname qmp, d)

/-- The counters, 0 for an unknown queue. -/
def count (f : QueueMessage → Nat) (m : MessageManager) (qname : String) : Nat := ((m.queueMsgs.lookup qname).map f).getD 0

def getableCount : MessageManager → String → Nat := count QueueMessage.getableCount

def totalCount : MessageManager → String → Nat := count QueueMessage.totalCount

def durableCount : MessageManager → String → Nat := count QueueMessage.durableCount

def waitAckCount : MessageManager → String → Nat := count QueueMessage.waitAckCount

/-- Every queue is cleared, and stays in the map. -/
def clear (m : MessageManager) (d : Disk) : MessageManager × Disk :=
  m.queueMsgs.entries.foldl (fun (m, d) e =>
    match e.2.clear d with
    | (qmp, d) => (m.put e.1 qmp, d)) (m, d)

end MessageManager
end HareMQ
