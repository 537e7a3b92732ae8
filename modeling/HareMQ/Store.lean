import HareMQ.Message

/-! # One queue over restarts

A `queue_message` with its directory, as a test or a server drives it: insertions, deliveries,
acknowledgements and restarts. -/

namespace HareMQ
open Lib

/-- What a client sees of a message. -/
structure Content where
  id : String
  body : String
  routingKey : String
  mode : DeliveryMode
deriving DecidableEq, Repr

def Payload.content (p : Payload) : Content where
  id := p.id
  body := p.body
  routingKey := p.props.routingKey
  mode := p.deliveryMode

structure Store where
  baseDir : String
  qname : String
  disk : Disk
  queue : QueueMessage

/-- `uuid` is the identifier that `uuid_helper` returns in this call. -/
inductive StoreOp
  | insert (bp : Option BasicProperties) (uuid body : String) (queueDurable : Bool)
  | front
  | remove (msgId : String)
  | restart

/-- The id of the inserted message. -/
def StoreOp.id? : StoreOp → Option String
  | .insert (some bp) _ _ _ => some bp.id
  | .insert none uuid _ _ => some uuid
  | _ => none

inductive Reply
  | done (ok : Bool)
  | message (m : Option Content)
deriving DecidableEq, Repr

/-- A reply, and the two counts after the step. -/
structure Obs where
  reply : Reply
  getable : Nat
  waitAck : Nat
deriving DecidableEq, Repr

namespace Store
variable (pb : PayloadCodec)

/-- A new `queue_message` and its `recovery`. `none`: the constructor aborts. -/
def boot (d : Disk) (baseDir qname : String) : Option Store :=
  match MessageMapper.new d baseDir qname with
  | none => none
  | some (mapper, d) =>
    match ({ mapper } : QueueMessage).recovery pb d with
    | (queue, disk) => some { baseDir, qname, disk, queue }

/-- `none`: the process aborts. -/
def step (s : Store) : StoreOp → Option (Reply × Store)
  | .insert bp uuid body queueDurable =>
    match s.queue.insert pb bp uuid body queueDurable s.disk with
    | (ok, queue, disk) => some (.done ok, { s with queue, disk })
  | .front =>
    match s.queue.front with
    | (r, queue) => some (.message (r.map fun r => (queue.heap r).payload.content), { s with queue })
  | .remove msgId =>
    match s.queue.remove pb msgId s.disk with
    | none => none
    | some (queue, disk) => some (.done true, { s with queue, disk })
  | .restart =>
    match boot pb s.disk s.baseDir s.qname with
    | none => none
    | some s => some (.done true, s)

theorem step_insert (s : Store) (bp : Option BasicProperties) (uuid body : String) (queueDurable : Bool) :
    s.step pb (.insert bp uuid body queueDurable) =
      let r := s.queue.insert pb bp uuid body queueDurable s.disk
      some (.done r.1, { s with queue := r.2.1, disk := r.2.2 }) :=
  rfl

theorem step_front (s : Store) : s.step pb .front =
    some (.message (s.queue.front.1.map fun r => (s.queue.front.2.heap r).payload.content),
      { s with queue := s.queue.front.2 }) :=
  rfl

theorem step_remove (s : Store) (msgId : String) : s.step pb (.remove msgId) =
    (s.queue.remove pb msgId s.disk).map fun qd => (.done true, { s with queue := qd.1, disk := qd.2 }) := by
  unfold step
  dsimp only
  cases s.queue.remove pb msgId s.disk with
  | none => rfl
  | some qd => rfl

theorem step_restart (s : Store) : s.step pb .restart =
    (boot pb s.disk s.baseDir s.qname).map fun s' => (.done true, s') := by
  unfold step
  dsimp only
  cases boot pb s.disk s.baseDir s.qname with
  | none => rfl
  | some s' => rfl

def run (s : Store) : List StoreOp → Option (List Obs × Store)
  | [] => some ([], s)
  | op :: ops =>
    match s.step pb op with
    | none => none
    | some (reply, s) =>
      match s.run ops with
      | none => none
      | some (obs, s') => some (⟨reply, s.queue.getableCount, s.queue.waitAckCount⟩ :: obs, s')

/-- The data file is below 4 GiB in every state of a run. -/
def below4GiB (s : Store) : List StoreOp → Bool
  | [] => FileHelper.size s.disk s.queue.mapper.dataFile < 2 ^ 32
  | op :: ops =>
    FileHelper.size s.disk s.queue.mapper.dataFile < 2 ^ 32 &&
      match s.step pb op with
      | none => true
      | some (_, s) => s.below4GiB ops

end Store
end HareMQ
