import HareMQ.Message

/-! # Crashes

A process may stop between any two file operations of a compaction. The next process finds the files as they
are at that moment. -/

namespace HareMQ
open Lib

variable (pb : PayloadCodec)

/-- The disk that is left when the process stops after `n` file operations of `gc`. -/
def MessageMapper.stopAfter (m : MessageMapper) (n : Nat) (d : Disk) : Disk :=
  let (_, d') := m.gc pb { d with trail := [d.files] }
  .ofFiles (d'.trail.getD n d'.files) d.dirs

/-- A process that runs `gc` is stopped again and again: every next process has called the constructor and is
    stopped in the `gc` of `recovery`. The result is the disk after the last constructor. -/
def aftermath (baseDir qname : String) (d : Disk) : List Nat → Option Disk
  | [] => some d
  | n :: ns =>
    match MessageMapper.new ((MessageMapper.files baseDir qname).stopAfter pb n d) baseDir qname with
    | none => none
    | some (_, d) => aftermath baseDir qname d ns

/-- The payloads that `recovery` queues after the crashes. -/
def recovered (baseDir qname : String) (d : Disk) (ns : List Nat) : Option (List Payload) :=
  match aftermath pb baseDir qname d ns with
  | none => none
  | some d =>
    let (q, _) := ({ mapper := .files baseDir qname } : QueueMessage).recovery pb d
    some (q.msgs.map fun r => (q.heap r).payload)

end HareMQ
