import HareMQ.Lib.UMap
import Mathlib.Algebra.Group.Nat.Defs

/-! # Consumers (`mqserver/consumer.hpp`) -/

namespace HareMQ
open Lib

/-- The address of a channel object, which tasks and callbacks capture as `this`. -/
abbrev ChannelRef := Nat

/-- The callback of a consumer is always `consume_cb` of the channel that created it. -/
structure Consumer where
  tag : String
  qname : String
  autoAck : Bool
  callback : ChannelRef
deriving DecidableEq, Repr

structure QueueConsumer where
  qname : String
  rrSeq : Nat := 0
  consumers : List Consumer := []
deriving DecidableEq, Repr

namespace QueueConsumer

/-- A null pointer when the tag is taken. -/
def create (q : QueueConsumer) (ctag queueName : String) (ackFlag : Bool) (cb : ChannelRef) :
    Option Consumer × QueueConsumer :=
  if q.consumers.any (·.tag = ctag) then (none, q)
  else
    let newConsumer : Consumer := { tag := ctag, qname := queueName, autoAck := ackFlag, callback := cb }
    (some newConsumer, { q with consumers := q.consumers ++ [newConsumer] })

def remove (q : QueueConsumer) (ctag : String) : QueueConsumer :=
  { q with consumers := q.consumers.eraseP (·.tag = ctag) }

/-- The counter is an unsigned 64-bit number; the index is below `2 ^ 31` as it is an `int`. -/
def rrChoose (q : QueueConsumer) : Option Consumer × QueueConsumer :=
  if q.consumers.isEmpty then (none, q)
  else (q.consumers[q.rrSeq % q.consumers.length]?, { q with rrSeq := (q.rrSeq + 1) % 2 ^ 64 })

end QueueConsumer

structure ConsumerManager where
  queueConsumers : UMap String QueueConsumer := ∅

namespace ConsumerManager

def initQueueConsumer (m : ConsumerManager) (qname : String) : ConsumerManager :=
  { m with queueConsumers := m.queueConsumers.emplace qname { qname } }

def destroyQueueConsumer (m : ConsumerManager) (qname : String) : ConsumerManager :=
  { m with queueConsumers := m.queueConsumers.erase qname }

def create (m : ConsumerManager) (ctag queueName : String) (ackFlag : Bool) (cb : ChannelRef) :
    Option Consumer × ConsumerManager :=
  match m.queueConsumers.lookup queueName with
  | none => (none, m)
  | some qcp =>
    match qcp.create ctag queueName ackFlag cb with
    | (c, qcp) => (c, { m with queueConsumers := m.queueConsumers.insert queueName qcp })

def remove (m : ConsumerManager) (ctag queueName : String) : ConsumerManager :=
  match m.queueConsumers.lookup queueName with
  | none => m
  | some qcp => { m with queueConsumers := m.queueConsumers.insert queueName (qcp.remove ctag) }

def choose (m : ConsumerManager) (queueName : String) : Option Consumer × ConsumerManager :=
  match m.queueConsumers.lookup queueName with
  | none => (none, m)
  | some qcp =>
    match qcp.rrChoose with
    | (c, qcp) => (c, { m with queueConsumers := m.queueConsumers.insert queueName qcp })

end ConsumerManager
end HareMQ
