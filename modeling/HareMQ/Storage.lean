import HareMQ.Lib.Realpath
import HareMQ.Lib.Run
import HareMQ.Sections

/-! # The queues of one `message_manager` over restarts

The calls of a `message_manager` on its directory, and the processes that follow one another there. Here the names of
the queues decide which files are meant, so that every file name is resolved to the end. -/

namespace HareMQ
open Lib

namespace MessageMapper

/-- The files of a queue, under the names by which the disk has them. -/
def found (baseDir qname : String) : MessageMapper where
  dataFile := canonical (files baseDir qname).dataFile
  tmpFile := canonical (files baseDir qname).tmpFile

/-- The constructor. `none`: the directory could not be created and the process aborts. -/
def newFound (d : Disk) (baseDir qname : String) : Option (MessageMapper × Disk) :=
  let m := found baseDir qname
  if FileHelper.exists? d (canonical (directory baseDir)) then some (m, (m.createMsgFile d).2)
  else
    match FileHelper.createDirFrom (fun d name => FileHelper.mkdir d (canonical name)) [] d (directory baseDir).toList with
    | (false, _) => none
    | (true, d) => some (m, (m.createMsgFile d).2)

/-- The directories through which the name of the data file leads. -/
def way (baseDir qname : String) : List Lib.Path :=
  ((files baseDir qname).dataFile.toList.inits.filter fun pre => pre.getLast? = some '/').map fun pre =>
    realpath (String.ofList pre)

end MessageMapper

namespace MessageManager
variable (pb : PayloadCodec)

/-- `init_queue_msg`. `none`: the constructor of the queue aborts. -/
def initFound (m : MessageManager) (qname : String) (d : Disk) : Option (MessageManager × Disk) :=
  match m.queueMsgs.lookup qname with
  | some _ => some (m, d)
  | none =>
    match MessageMapper.newFound d m.baseDir qname with
    | none => none
    | some (mapper, d) =>
      match ({ mapper } : QueueMessage).recovery pb d with
      | (qmp, d) => some ({ m with queueMsgs := m.queueMsgs.emplace qname qmp }, d)

end MessageManager

structure Storage where
  mmp : MessageManager
  disk : Disk

/-- A new process has a manager without queues, and declares the queues anew. -/
inductive StorageOp
  | call (c : MessageCall)
  | restart

/-- The operation is about no queue other than `qname`. -/
def StorageOp.concerns (qname : String) : StorageOp → Bool
  | .call c => c.qname = qname
  | .restart => true

namespace Storage
variable (pb : PayloadCodec) (s : Storage)

/-- `none`: the process aborts. A queue keeps the files that its declaration has found. -/
def step : StorageOp → Option Storage
  | .call (.initQueueMsg qname) =>
    match s.mmp.initFound pb qname s.disk with
    | none => none
    | some (mmp, disk) => some { mmp, disk }
  | .call c =>
    match MessageManager.call pb (s.mmp, s.disk) c with
    | none => none
    | some (_, mmp, disk) => some { mmp, disk }
  | .restart => some { s with mmp := { baseDir := s.mmp.baseDir } }

/-- The messages that the next process recovers for the queue `qname`, when the environment does `fates` to it. -/
def recovers (qname : String) (fates : List FileFate) : Option (List Message) :=
  match ({ baseDir := s.mmp.baseDir } : MessageManager).initFound pb qname { s.disk with fates } with
  | none => none
  | some (mmp, _) => (mmp.queueMsgs.lookup qname).map fun q => q.msgs.map q.heap

end Storage
end HareMQ
