import HareMQ.Lib.Bytes

/-! # Messages (`mqcommon/msg.proto`)

A `Message` is a payload, the only part that is stored on disk, with the place of its record in the data
file. -/

namespace HareMQ
open Lib

/-- `ExchangeType`. A proto3 enum is open: any other number may arrive. -/
inductive ExchangeType
  | unknowType
  | direct
  | fanout
  | topic
  | unrecognized (value : UInt32) (out : 4 ≤ value)
deriving DecidableEq, Repr

/-- `DeliveryMode`, open as `ExchangeType` is. -/
inductive DeliveryMode
  | unknowMode
  | undurable
  | durable
  | unrecognized (value : UInt32) (out : 3 ≤ value)
deriving DecidableEq, Repr

structure BasicProperties where
  id : String := ""
  deliveryMode : DeliveryMode := .unknowMode
  routingKey : String := ""
deriving DecidableEq, Repr

/-- `Message.Payload`. The properties are a submessage and may be absent. -/
structure Payload where
  properties : Option BasicProperties := none
  body : String := ""
  valid : String := ""
deriving DecidableEq, Repr

namespace Payload

/-- `payload().properties()`: the default instance when the field is absent. -/
def props (p : Payload) : BasicProperties := p.properties.getD {}

def id (p : Payload) : String := p.props.id

def deliveryMode (p : Payload) : DeliveryMode := p.props.deliveryMode

def setValid (p : Payload) (flag : String) : Payload := { p with valid := flag }

@[simp] theorem valid_setValid (p : Payload) (flag : String) : (p.setValid flag).valid = flag := rfl

@[simp] theorem id_setValid (p : Payload) (flag : String) : (p.setValid flag).id = p.id := rfl

@[simp] theorem deliveryMode_setValid (p : Payload) (flag : String) :
    (p.setValid flag).deliveryMode = p.deliveryMode := rfl

end Payload

/-- `Message`. `offset` and `length` are 32-bit fields. -/
structure Message where
  payload : Payload := {}
  offset : Nat := 0
  length : Nat := 0
deriving DecidableEq, Repr

namespace Message

def id (m : Message) : String := m.payload.id

def isDurable (m : Message) : Bool := m.payload.deliveryMode = .durable

/-- `set_offset` and `set_length` with 64-bit arguments keep the low 32 bits. -/
def setPlace (m : Message) (offset length : Nat) : Message :=
  { m with offset := offset % 2 ^ 32, length := length % 2 ^ 32 }

@[simp] theorem payload_setPlace (m : Message) (offset length : Nat) : (m.setPlace offset length).payload = m.payload :=
  rfl

end Message

/-- What the store relies on from protobuf: `SerializeAsString`, `ParseFromString` (its result, and the
    payload it leaves), and that parsing reads back what was serialised. The flags `"0"` and `"1"` take
    the same number of bytes, which is what lets a record be invalidated in place. -/
structure PayloadCodec where
  serialize : Payload → Bytes
  parse : Bytes → Bool × Payload
  parse_serialize (p : Payload) : parse (serialize p) = (true, p)
  length_serialize (p : Payload) : (serialize (p.setValid "0")).length = (serialize (p.setValid "1")).length

end HareMQ
